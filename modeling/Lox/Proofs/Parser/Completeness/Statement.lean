import Lox.Parser.Statement
import Lox.Proofs.Parser.Completeness.Expression
import Lox.Proofs.Parser.Consumption

namespace Lox.Parser
open Grammar

variable {n : Nat} {s m s' : State} {t : Token} {ts us : List Token}

/-! ## Parts -/

theorem expression_reads {e : Expr} (value : Phrase n .assignment ts e) (reads : s.Reads ts m)
    (next : m.Reads (t :: us) s') (ends : continues .assignment t.kind = false) :
    expression n .assignment s = .ok e m :=
  Phrase.accepts value s m reads (by rw [next.faces, ends])

theorem expectMark_eq {α : Type} {f : Unit → Parser α} (mark : ParseError.Mark)
    {place : ParseError.Place} (reads : s.Reads [t] m) (kind : t.kind = mark.kind) :
    (expectMark mark place >>= f) s = f () m :=
  bind_eq (expectMark_reads mark reads kind)

theorem expectName_eq {α : Type} {f : Token → Parser α} {role : ParseError.Role}
    (reads : s.Reads [t] m) (kind : t.kind = .identifier) : (expectName role >>= f) s = f t m :=
  bind_eq (expect_reads reads kind)

theorem clause_eq {α : Type} {f : Option Expr → Parser α} {value : Option Expr}
    (kind : Token.Kind) (clause : Clause n ts value) (reads : s.Reads ts m)
    (next : m.Reads (t :: us) s') (same : t.kind = kind)
    (ends : kind = .semicolon ∨ kind = .rightParen) :
    (do
      let absent ← check (· == kind)
      if absent then
        let value ← pure none
        f value
      else
        let value ← some <$> expression n .assignment
        f value) s = f value m := by
  rw [bind_eq (check_eq _ s)]
  cases clause with
  | absent =>
      obtain rfl := reads.eq_of_nil
      rw [next.faces, same, beq_self_eq_true, if_pos rfl]
      rfl
  | present value =>
      have started : faces s.rest (· == kind) = false := by
        rw [reads.rest, faces_append value.begins]
        refine faces_disjoint value.begins fun first => ?_
        rcases ends with rfl | rfl <;> cases first <;> decide
      have stops : continues .assignment t.kind = false := by
        rcases ends with rfl | rfl <;> rw [same] <;> rfl
      rw [started, if_neg Bool.false_ne_true,
        bind_eq (map_eq (expression_reads value reads next stops))]

theorem Parameters.separated {params : List Token} (h : Parameters ts params) :
    Separated (fun ts name => ts = [name] ∧ name.kind = .identifier) ts params := by
  induction h with
  | none => exact .none
  | last item => exact .last ⟨rfl, item⟩
  | more item mark others ih => exact .more ⟨rfl, item⟩ mark ih

theorem expectName_accepts (role : ParseError.Role) (ts : List Token) (name : Token)
    (h : ts = [name] ∧ name.kind = .identifier) :
    Accepts (expectName role) ts name (fun _ => false) := by
  intro s s' reads _
  obtain ⟨rfl, identifier⟩ := h
  exact expect_reads reads identifier

theorem varDeclaration_reads {d : Stmt} (h : Variable n ts d) (reads : s.Reads ts s') :
    varDeclaration (expression n .assignment) s = .ok d s' := by
  cases h with
  | plain identifier closes =>
      obtain ⟨m, name, close⟩ := reads.uncons
      rw [varDeclaration, expectName_eq name identifier]
      dsimp only
      rw [bind_eq (accept_stays (by rw [close.faces, closes]; rfl)), if_neg Bool.false_ne_true,
        pure_bind, expectMark_eq .semicolon close closes]
      rfl
  | initialized identifier mark value closes =>
      obtain ⟨m₁, name, reads⟩ := reads.uncons
      obtain ⟨m₂, equals, reads⟩ := reads.uncons
      obtain ⟨m₃, inner, close⟩ := reads.split
      rw [varDeclaration, expectName_eq name identifier]
      dsimp only
      rw [bind_eq (accept_reads equals mark), if_pos rfl,
        bind_eq (map_eq (expression_reads value inner close (by rw [closes]; rfl))),
        expectMark_eq .semicolon close closes]
      rfl

theorem expressionStatement_reads {e : Expr} {close : Token} (value : Phrase n .assignment ts e)
    (closes : close.kind = .semicolon) (reads : s.Reads (ts ++ [close]) s') :
    expressionStatement (expression n .assignment) s = .ok (.expression e) s' := by
  obtain ⟨m, inner, close⟩ := reads.split
  rw [expressionStatement, bind_eq (expression_reads value inner close (by rw [closes]; rfl)),
    expectMark_eq .semicolon close closes]
  rfl

theorem printStatement_reads {e : Expr} {close : Token} (value : Phrase n .assignment ts e)
    (closes : close.kind = .semicolon) (reads : s.Reads (ts ++ [close]) s') :
    printStatement (expression n .assignment) s = .ok (.print e) s' := by
  obtain ⟨m, inner, close⟩ := reads.split
  rw [printStatement, bind_eq (expression_reads value inner close (by rw [closes]; rfl)),
    expectMark_eq .semicolon close closes]
  rfl

theorem returnStatement_reads {value : Option Expr} {keyword close : Token} {index : Nat}
    (result : Clause n ts value) (closes : close.kind = .semicolon)
    (reads : s.Reads (ts ++ [close]) s') :
    returnStatement true (expression n .assignment) keyword index s =
      .ok (.returnStmt keyword value) s' := by
  obtain ⟨m, inner, close⟩ := reads.split
  rw [returnStatement, Bool.not_true, if_neg Bool.false_ne_true]
  dsimp only
  rw [clause_eq .semicolon result inner close closes (.inl rfl),
    expectMark_eq .semicolon close closes]
  rfl

theorem forInitializer_reads {first : Option Stmt} (h : Initializer n ts first)
    (reads : s.Reads ts s') : forInitializer (expression n .assignment) s = .ok first s' := by
  cases h with
  | absent closes =>
      rw [forInitializer, bind_eq (accept_reads reads closes), if_pos rfl]
      rfl
  | declaration var rest =>
      obtain ⟨m, word, reads⟩ := reads.uncons
      rw [forInitializer, bind_eq (accept_stays (by rw [word.faces, var]; rfl)),
        if_neg Bool.false_ne_true, bind_eq (accept_reads word var), if_pos rfl,
        map_eq (varDeclaration_reads rest reads)]
  | expression value closes =>
      have started : ∀ kinds, (∀ kind, beginsExpression kind = true → kinds kind = false) →
          faces s.rest kinds = false := fun kinds apart => by
        rw [reads.rest, List.append_assoc, faces_append value.begins]
        exact faces_disjoint value.begins apart
      rw [forInitializer, bind_eq (accept_stays (started _ fun kind => by cases kind <;> decide)),
        if_neg Bool.false_ne_true,
        bind_eq (accept_stays (started _ fun kind => by cases kind <;> decide)),
        if_neg Bool.false_ne_true, map_eq (expressionStatement_reads value closes reads)]

/-! ## Statements -/

def DeclarationsRead (n : Nat) : Prop :=
  ∀ f ts d, Declaration n f ts d → ∀ s s' : State, s.Reads ts s' →
    faces s'.rest (· == .elseWord) = false → declaration n f s = .ok (some d) s'

/-- Statements of a nesting are read, an open one unless an `else` follows. -/
def StatementsRead (n : Nat) : Prop :=
  ∀ f c ts t, Statement n f c ts t → ∀ s s' : State, s.Reads ts s' →
    (c = true ∨ faces s'.rest (· == .elseWord) = false) → statement n f s = .ok t s'

section
variable {f : Bool}
  (parts : StatementsRead n)
  {word opening closing middle semicolon : Token} {is vs : List Token} {e : Expr} {a b : Stmt}
  {c : Bool} (opens : opening.kind = .leftParen) (closes : closing.kind = .rightParen)
include parts opens closes

theorem ifStatement_reads (condition : Phrase n .assignment ts e)
    (whenTrue : Statement n f false us a) (reads : s.Reads (opening :: ts ++ closing :: us) s')
    (ends : faces s'.rest (· == .elseWord) = false) :
    ifStatement (expression n .assignment) (statement n f) s = .ok (.ifElse e a none) s' := by
  obtain ⟨m₁, opened, reads⟩ := reads.uncons
  obtain ⟨m₂, tested, reads⟩ := reads.split
  obtain ⟨m₃, closed, branch⟩ := reads.uncons
  rw [ifStatement, expectMark_eq .leftParen opened opens,
    bind_eq (expression_reads condition tested closed (by rw [closes]; rfl)),
    expectMark_eq .rightParen closed closes,
    bind_eq (parts _ _ _ _ whenTrue m₃ s' branch (.inr ends)), bind_eq (accept_stays ends),
    if_neg Bool.false_ne_true, pure_bind]
  rfl

theorem ifElseStatement_reads (condition : Phrase n .assignment ts e)
    (whenTrue : Statement n f true us a) (elses : middle.kind = .elseWord)
    (whenFalse : Statement n f c vs b)
    (reads : s.Reads (opening :: ts ++ closing :: us ++ middle :: vs) s')
    (ends : c = true ∨ faces s'.rest (· == .elseWord) = false) :
    ifStatement (expression n .assignment) (statement n f) s = .ok (.ifElse e a (some b)) s' := by
  rw [List.append_assoc] at reads
  obtain ⟨m₁, opened, reads⟩ := reads.uncons
  obtain ⟨m₂, tested, reads⟩ := reads.split
  obtain ⟨m₃, closed, reads⟩ := reads.uncons
  obtain ⟨m₄, branch, reads⟩ := reads.split
  obtain ⟨m₅, other, reads⟩ := reads.uncons
  rw [ifStatement, expectMark_eq .leftParen opened opens,
    bind_eq (expression_reads condition tested closed (by rw [closes]; rfl)),
    expectMark_eq .rightParen closed closes,
    bind_eq (parts _ _ _ _ whenTrue m₃ m₄ branch (.inl rfl)), bind_eq (accept_reads other elses),
    if_pos rfl, bind_eq (map_eq (parts _ _ _ _ whenFalse m₅ s' reads ends))]
  rfl

theorem whileStatement_reads (condition : Phrase n .assignment ts e) (body : Statement n f c us a)
    (reads : s.Reads (opening :: ts ++ closing :: us) s')
    (ends : c = true ∨ faces s'.rest (· == .elseWord) = false) :
    whileStatement (expression n .assignment) (statement n f) s = .ok (.whileLoop e a) s' := by
  obtain ⟨m₁, opened, reads⟩ := reads.uncons
  obtain ⟨m₂, tested, reads⟩ := reads.split
  obtain ⟨m₃, closed, branch⟩ := reads.uncons
  rw [whileStatement, expectMark_eq .leftParen opened opens,
    bind_eq (expression_reads condition tested closed (by rw [closes]; rfl)),
    expectMark_eq .rightParen closed closes, bind_eq (parts _ _ _ _ body m₃ s' branch ends)]
  rfl

theorem forStatement_reads {first : Option Stmt} {condition step : Option Expr}
    (initializer : Initializer n is first) (test : Clause n ts condition)
    (mark : semicolon.kind = .semicolon) (increment : Clause n us step)
    (body : Statement n f c vs a)
    (reads : s.Reads (opening :: is ++ ts ++ semicolon :: us ++ closing :: vs) s')
    (ends : c = true ∨ faces s'.rest (· == .elseWord) = false) :
    forStatement (expression n .assignment) (statement n f) s =
      .ok (.forLoop first condition step a) s' := by
  simp only [List.append_assoc] at reads
  obtain ⟨m₁, opened, reads⟩ := reads.uncons
  obtain ⟨m₂, begun, reads⟩ := reads.split
  obtain ⟨m₃, tested, reads⟩ := reads.split
  obtain ⟨m₄, marked, after⟩ := reads.uncons
  obtain ⟨m₅, stepped, after'⟩ := after.split
  obtain ⟨m₆, closed, branch⟩ := after'.uncons
  rw [forStatement, expectMark_eq .leftParen opened opens,
    bind_eq (forInitializer_reads initializer begun)]
  dsimp only
  rw [clause_eq .semicolon test tested reads mark (.inl rfl),
    expectMark_eq .semicolon marked mark,
    clause_eq .rightParen increment stepped after' closes (.inr rfl),
    expectMark_eq .rightParen closed closes, bind_eq (parts _ _ _ _ body m₆ s' branch ends)]
  rfl

end

/-! ## Blocks and functions -/

theorem Declarations.length_le {f : Bool} {ts : List Token} {body : List Stmt}
    (h : Declarations n f ts body) : body.length ≤ ts.length := by
  induction body generalizing ts with
  | nil => exact Nat.zero_le _
  | cons s body ih =>
      cases h with
      | cons head tail =>
          have positive := head.length_pos
          have le := ih tail
          simp only [List.length_cons, List.length_append]
          omega

theorem Declarations.noElse {f : Bool} {body : List Stmt} (h : Declarations n f ts body)
    (reads : s.Reads ts s') (ends : faces s'.rest (· == .elseWord) = false) :
    faces s.rest (· == .elseWord) = false := by
  cases h with
  | nil =>
      obtain rfl := reads.eq_of_nil
      exact ends
  | cons head tail =>
      rw [reads.rest, List.append_assoc, faces_append head.begins]
      exact faces_disjoint head.begins fun kind => by cases kind <;> decide

theorem Declaration.nonempty {f : Bool} {d : Stmt} (h : Declaration n f ts d)
    (reads : s.Reads (ts ++ us) s') : s.rest.isEmpty = false := by
  have positive := h.length_pos
  rw [reads.rest, List.append_assoc]
  cases ts with
  | nil => simp at positive
  | cons t ts => rfl

section
variable {f : Bool}
  (parts : DeclarationsRead n)
include parts

theorem declarationsAfter_reads {body : List Stmt} (inside : Declarations n f ts body)
    (reads : s.Reads ts s') (ends : faces s'.rest (· == .rightBrace) = true)
    (bound : List Token) (done : List Stmt) (room : body.length ≤ bound.length) :
    declarationsAfter (declaration n f) bound done s = .ok (done.reverse ++ body) s' := by
  induction bound generalizing body ts s done with
  | nil =>
      cases inside with
      | nil =>
          obtain rfl := reads.eq_of_nil
          simp [declarationsAfter, pure, EStateM.pure]
      | cons head tail => simp at room
  | cons t bound ih =>
      rw [declarationsAfter, bind_eq (check_eq _ s)]
      cases inside with
      | nil =>
          obtain rfl := reads.eq_of_nil
          simp [ends, pure, EStateM.pure]
      | @cons _ _ ts d us body head tail =>
          have first : faces s.rest (· == .rightBrace) = false := by
            rw [reads.rest, List.append_assoc, faces_append head.begins]
            exact faces_disjoint head.begins fun kind => by cases kind <;> decide
          have more := Declaration.nonempty head reads
          obtain ⟨m, one, others⟩ := reads.split
          have ends' := Declarations.noElse tail others (by rw [faces_of_eq ends]; rfl)
          rw [first, if_neg Bool.false_ne_true, bind_eq (atEnd_eq s), more,
            if_neg Bool.false_ne_true, bind_eq (parts _ _ _ head s m one ends')]
          dsimp only
          rw [ih tail others (d :: done) (by simpa using room)]
          simp

theorem block_reads {body : List Stmt} {finish : Token} (inside : Declarations n f ts body)
    (closes : finish.kind = .rightBrace) (reads : s.Reads (ts ++ [finish]) s') :
    block (declaration n f) s = .ok body s' := by
  obtain ⟨m, inner, close⟩ := reads.split
  have room : body.length ≤ s.rest.length := by
    have le := Declarations.length_le inside
    rw [inner.rest, List.length_append]
    omega
  rw [block, bind_eq (remaining_eq s), bind_eq (declarationsAfter_reads parts inside inner
    (by rw [close.faces, closes]; rfl) s.rest [] room), expectMark_eq .rightBrace close closes]
  rfl

end

theorem funDeclaration_reads {name opening closing brace finish : Token} {params : List Token}
    {body : List Stmt}
    (parts : DeclarationsRead n)
    (identifier : name.kind = .identifier) (opens : opening.kind = .leftParen)
    (parameters : Parameters us params) (few : params.length ≤ 255)
    (closes : closing.kind = .rightParen) (begins : brace.kind = .leftBrace)
    (inside : Declarations n true ts body) (ends : finish.kind = .rightBrace)
    (reads : s.Reads (name :: opening :: us ++ closing :: brace :: ts ++ [finish]) s') :
    funDeclaration (declaration n true) s = .ok (.funDecl name params body) s' := by
  simp only [List.append_assoc, List.cons_append] at reads
  obtain ⟨m₁, named, reads⟩ := reads.uncons
  obtain ⟨m₂, opened, reads⟩ := reads.uncons
  obtain ⟨m₃, listed, reads⟩ := reads.split
  obtain ⟨m₄, closed, reads⟩ := reads.uncons
  obtain ⟨m₅, braced, reads⟩ := reads.uncons
  have list : commaList .parameter (expectName .parameter) m₂ = .ok params m₃ :=
    commaList_accepts rfl rfl (expectName_accepts .parameter) (by simp +contextual)
      (by simp +contextual) (Parameters.separated parameters) few listed
      (by rw [closed.faces, closes]; rfl)
  rw [funDeclaration, expectName_eq named identifier, expectMark_eq .leftParen opened opens,
    bind_eq list, expectMark_eq .rightParen closed closes, expectMark_eq .leftBrace braced begins,
    bind_eq (block_reads parts inside ends reads)]
  rfl

/-! ## Declarations and statements -/

theorem accept_else {α : Type} {kind : Token.Kind} {p q : Parser α}
    (no : faces s.rest (· == kind) = false) : (do if ← accept kind then p else q) s = q s := by
  rw [bind_eq (accept_stays no), if_neg Bool.false_ne_true]

theorem accept_other {α : Type} {kind other : Token.Kind} {p q : Parser α}
    (reads : s.Reads (t :: ts) m) (same : t.kind = kind) (apart : kind ≠ other) :
    (do if ← accept other then p else q) s = q s :=
  accept_else (by rw [reads.faces, same]; simpa using apart)

theorem accept_then {α : Type} {kind : Token.Kind} {p q : Parser α} (reads : s.Reads [t] m)
    (same : t.kind = kind) : (do if ← accept kind then p else q) s = p m := by
  rw [bind_eq (accept_reads reads same), if_pos rfl]

theorem statement_of_expression (f : Bool) (starts : faces s.rest beginsExpression = true) :
    statement (n + 1) f s = expressionStatement (expression n .assignment) s := by
  have no : ∀ kinds, (∀ kind, beginsExpression kind = true → kinds kind = false) →
      faces s.rest kinds = false := fun kinds apart => faces_disjoint starts apart
  rw [statement, accept_else (no _ fun kind => by cases kind <;> decide),
    accept_else (no _ fun kind => by cases kind <;> decide),
    accept_else (no _ fun kind => by cases kind <;> decide),
    accept_else (no _ fun kind => by cases kind <;> decide),
    accept_else (no _ fun kind => by cases kind <;> decide), bind_eq (position_eq s),
    bind_eq (accept?_stays (no _ fun kind => by cases kind <;> decide))]

theorem declaration_of_statement (f : Bool) (starts : faces s.rest beginsStatement = true) :
    declaration (n + 1) f s = recover (statement n f) s := by
  have var : faces s.rest (· == .varWord) = false :=
    faces_disjoint starts fun kind => by cases kind <;> decide
  have fn : faces s.rest (· == .funWord) = false :=
    faces_disjoint starts fun kind => by cases kind <;> decide
  rw [declaration, recover, recover]
  simp only [tryCatch, tryCatchThe, MonadExceptOf.tryCatch, EStateM.tryCatch, Functor.map,
    EStateM.map]
  rw [accept_else var, accept_else fn]

theorem statement_step {f c : Bool} {a : Stmt}
    (declarations : DeclarationsRead n) (statements : StatementsRead n)
    (h : Statement (n + 1) f c ts a) (reads : s.Reads ts s')
    (ends : c = true ∨ faces s'.rest (· == .elseWord) = false) :
    statement (n + 1) f s = .ok a s' := by
  cases h with
  | expression value closes =>
      rw [statement_of_expression f]
      · exact expressionStatement_reads value closes reads
      · rw [reads.rest, List.append_assoc, faces_append value.begins]
        exact value.begins
  | print print value closes =>
      obtain ⟨m, word, reads⟩ := reads.uncons
      rw [statement, accept_then word print]
      exact printStatement_reads value closes reads
  | block begins inside ends =>
      obtain ⟨m, word, reads⟩ := reads.uncons
      rw [statement, accept_other word begins (by decide), accept_then word begins,
        map_eq (block_reads declarations inside ends reads)]
  | ifThen ifs opens condition closes whenTrue =>
      obtain ⟨m, word, reads⟩ := reads.uncons
      rw [statement, accept_other word ifs (by decide), accept_other word ifs (by decide),
        accept_then word ifs]
      exact ifStatement_reads statements opens closes condition whenTrue reads (by simpa using ends)
  | ifElse ifs opens condition closes whenTrue elses whenFalse =>
      obtain ⟨m, word, reads⟩ := reads.uncons
      rw [statement, accept_other word ifs (by decide), accept_other word ifs (by decide),
        accept_then word ifs]
      exact ifElseStatement_reads statements opens closes condition whenTrue elses whenFalse reads
        ends
  | whileLoop whiles opens condition closes body =>
      obtain ⟨m, word, reads⟩ := reads.uncons
      rw [statement, accept_other word whiles (by decide), accept_other word whiles (by decide),
        accept_other word whiles (by decide), accept_then word whiles]
      exact whileStatement_reads statements opens closes condition body reads ends
  | forLoop fors opens initializer test mark increment closes body =>
      obtain ⟨m, word, reads⟩ := reads.uncons
      rw [statement, accept_other word fors (by decide), accept_other word fors (by decide),
        accept_other word fors (by decide), accept_other word fors (by decide),
        accept_then word fors]
      exact forStatement_reads statements opens closes initializer test mark increment body reads
        ends
  | returnStmt returns result closes =>
      obtain ⟨m, word, reads⟩ := reads.uncons
      rw [statement, accept_other word returns (by decide), accept_other word returns (by decide),
        accept_other word returns (by decide), accept_other word returns (by decide),
        accept_other word returns (by decide), bind_eq (position_eq s),
        bind_eq (accept?_reads word (by simp [returns]))]
      exact returnStatement_reads result closes reads

theorem declaration_step {f : Bool} {d : Stmt}
    (declarations : DeclarationsRead n) (statements : StatementsRead n)
    (h : Declaration (n + 1) f ts d) (reads : s.Reads ts s')
    (ends : faces s'.rest (· == .elseWord) = false) :
    declaration (n + 1) f s = .ok (some d) s' := by
  cases h with
  | varDecl var rest =>
      obtain ⟨m, word, reads⟩ := reads.uncons
      rw [declaration]
      apply recover_of_ok
      rw [accept_then word var]
      exact varDeclaration_reads rest reads
  | funDecl fn identifier opens parameters few closes begins inside finishes =>
      obtain ⟨m, word, reads⟩ := reads.uncons
      rw [declaration]
      apply recover_of_ok
      rw [accept_other word fn (by decide), accept_then word fn]
      exact funDeclaration_reads declarations identifier opens parameters few closes begins
        inside finishes reads
  | statement plain =>
      rw [declaration_of_statement f]
      · exact recover_of_ok (statements f false ts d plain s s' reads (.inr ends))
      · rw [reads.rest, faces_append plain.begins]
        exact plain.begins

theorem construct_reads (n : Nat) : DeclarationsRead n ∧ StatementsRead n := by
  induction n with
  | zero => exact ⟨fun _ _ _ h => (nomatch h), fun _ _ _ _ h => (nomatch h)⟩
  | succ n ih =>
      obtain ⟨declarations, statements⟩ := ih
      exact ⟨fun _ _ _ h _ _ => declaration_step declarations statements h,
        fun _ _ _ _ h _ _ => statement_step declarations statements h⟩

theorem programAfter_then {body : List Stmt} (h : Declarations n false ts body)
    (reads : s.Reads ts s') (ends : faces s'.rest (· == .elseWord) = false) (bound : List Token)
    (done : List (Option Stmt)) (room : body.length ≤ bound.length) :
    programAfter n bound done s =
      programAfter n (bound.drop body.length) ((body.map some).reverse ++ done) s' := by
  induction bound generalizing body ts s done with
  | nil =>
      cases h with
      | nil =>
          obtain rfl := reads.eq_of_nil
          rfl
      | cons head tail => simp at room
  | cons t bound ih =>
      cases h with
      | nil =>
          obtain rfl := reads.eq_of_nil
          rfl
      | @cons _ _ ts d us body head tail =>
          have more := Declaration.nonempty head reads
          obtain ⟨m, one, others⟩ := reads.split
          have ends' := Declarations.noElse tail others ends
          have read := (construct_reads n).1 _ _ _ head s m one ends'
          rw [programAfter, bind_eq (atEnd_eq s), more, if_neg Bool.false_ne_true, bind_eq read,
            ih tail others (some d :: done) (by simpa using room)]
          simp

theorem programAfter_reads {body : List Stmt} (h : Declarations n false ts body)
    (reads : s.Reads ts s') (ends : s'.rest = []) (bound : List Token) (done : List (Option Stmt))
    (room : body.length ≤ bound.length) :
    programAfter n bound done s = .ok (done.reverse ++ body.map some) s' := by
  rw [programAfter_then h reads (by rw [ends]; rfl) bound done room, programAfter_ended ends]
  simp

theorem program_reads {body : List Stmt} (h : Declarations n false ts body)
    (reads : s.Reads ts s') (ends : s'.rest = []) : program n s = .ok (body.map some) s' := by
  have room : body.length ≤ s.rest.length := by
    have le := Declarations.length_le h
    rw [reads.rest, List.length_append]
    omega
  rw [program, bind_eq (remaining_eq s), programAfter_reads h reads ends s.rest [] room]
  rfl

end Lox.Parser
