import Lox.Proofs.Parser.Look
import Lox.Proofs.Parser.Soundness.Expression

namespace Lox.Parser
open Grammar

variable {n : Nat} {s s' : State}

/-! ## Parts -/

theorem expression_ok {e : Expr} (h : expression n .assignment s = .ok e s') (clean : s'.Clean) :
    ∃ ts, s.Reads ts s' ∧ Phrase n .assignment ts e :=
  expression_recognizes n .assignment s s' e h clean

theorem clause_ok {α : Type} {kinds : Token.Kind → Bool} {f : Option Expr → Parser α} {a : α}
    (h : (do
      if ← check kinds then
        let value ← pure none
        f value
      else
        let value ← some <$> expression n .assignment
        f value) s = .ok a s') :
    ∃ value m, f value m = .ok a s' ∧ (m.Clean → ∃ ts, s.Reads ts m ∧ Clause n ts value) := by
  obtain ⟨b, m, checked, h⟩ := bind_ok.mp h
  rw [check_eq] at checked
  cases checked
  split at h
  · exact ⟨none, _, h, fun _ => ⟨[], .refl _, .absent⟩⟩
  · obtain ⟨value, m, read, h⟩ := bind_ok.mp h
    obtain ⟨e, parsed, rfl⟩ := map_ok.mp read
    refine ⟨some e, m, h, fun clean => ?_⟩
    obtain ⟨ts, reads, phrase⟩ := expression_ok parsed clean
    exact ⟨ts, reads, .present phrase⟩

theorem expectName_recognizes (role : ParseError.Role) :
    Recognizes (expectName role) fun ts name => ts = [name] ∧ name.kind = .identifier := by
  intro s s' name h clean
  obtain ⟨kind, reads⟩ := expect_ok h
  exact ⟨[name], reads, rfl, kind⟩

theorem Separated.parameters {ts params : List Token}
    (h : Separated (fun ts name => ts = [name] ∧ name.kind = .identifier) ts params) :
    Parameters ts params := by
  induction h with
  | none => exact .none
  | last head =>
      obtain ⟨rfl, identifier⟩ := head
      exact .last identifier
  | more head mark others ih =>
      obtain ⟨rfl, identifier⟩ := head
      exact .more identifier mark ih

theorem varDeclaration_recognizes :
    Recognizes (varDeclaration (expression n .assignment)) (Variable n) := by
  intro s s' d h clean
  rw [varDeclaration] at h
  obtain ⟨name, m₁, named, h⟩ := bind_ok.mp h
  obtain ⟨identifier, named⟩ := expect_ok named
  rcases branch_ok h with ⟨equals, m₂, mark, equal, h⟩ | ⟨-, h⟩
  · obtain ⟨value, m₃, read, h⟩ := bind_ok.mp h
    obtain ⟨e, parsed, rfl⟩ := map_ok.mp read
    obtain ⟨u, m₄, closed, h⟩ := bind_ok.mp h
    obtain ⟨rfl, rfl⟩ := pure_ok.mp h
    obtain ⟨close, closes, closed⟩ := expectMark_ok closed
    obtain ⟨ts, reads, phrase⟩ := expression_ok parsed (closed.clean.mpr clean)
    exact ⟨_, named.cons (equal.cons (reads.trans closed)),
      .initialized identifier mark phrase closes⟩
  · rw [pure_bind] at h
    obtain ⟨u, m₄, closed, h⟩ := bind_ok.mp h
    obtain ⟨rfl, rfl⟩ := pure_ok.mp h
    obtain ⟨close, closes, closed⟩ := expectMark_ok closed
    exact ⟨_, named.cons closed, .plain identifier closes⟩

theorem expressionStatement_ok {t : Stmt}
    (h : expressionStatement (expression n .assignment) s = .ok t s') (clean : s'.Clean) :
    ∃ ts e close, s.Reads (ts ++ [close]) s' ∧ Phrase n .assignment ts e ∧
      close.kind = .semicolon ∧ t = .expression e := by
  rw [expressionStatement] at h
  obtain ⟨e, m, read, h⟩ := bind_ok.mp h
  obtain ⟨u, m', closed, h⟩ := bind_ok.mp h
  obtain ⟨rfl, rfl⟩ := pure_ok.mp h
  obtain ⟨close, closes, closed⟩ := expectMark_ok closed
  obtain ⟨ts, reads, phrase⟩ := expression_ok read (closed.clean.mpr clean)
  exact ⟨ts, e, close, reads.trans closed, phrase, closes, rfl⟩

theorem forInitializer_recognizes :
    Recognizes (forInitializer (expression n .assignment)) (Initializer n) := by
  intro s s' first h clean
  rw [forInitializer] at h
  rcases branch_ok h with ⟨close, m, closes, closed, h⟩ | ⟨-, h⟩
  · obtain ⟨rfl, rfl⟩ := pure_ok.mp h
    exact ⟨[close], closed, .absent closes⟩
  rcases branch_ok h with ⟨word, m, var, worded, h⟩ | ⟨-, h⟩
  · obtain ⟨d, read, rfl⟩ := map_ok.mp h
    obtain ⟨ts, reads, rest⟩ := varDeclaration_recognizes _ _ _ read clean
    exact ⟨_, worded.cons reads, .declaration var rest⟩
  · obtain ⟨t, read, rfl⟩ := map_ok.mp h
    obtain ⟨ts, e, close, reads, phrase, closes, rfl⟩ := expressionStatement_ok read clean
    exact ⟨_, reads, .expression phrase closes⟩

/-! ## Statements -/

theorem Statement.anywhere {n : Nat} {f c : Bool} {ts : List Token} {t : Stmt}
    (h : Statement n f c ts t) : Statement n f false ts t := by
  induction n generalizing c ts t with
  | zero => cases h
  | succ n ih =>
      cases h with
      | expression value closes => exact .expression value closes
      | print word value closes => exact .print word value closes
      | block begins inside ends => exact .block begins inside ends
      | ifThen ifs opens condition closes whenTrue =>
          exact .ifThen ifs opens condition closes whenTrue
      | ifElse ifs opens condition closes whenTrue elses whenFalse =>
          exact .ifElse ifs opens condition closes whenTrue elses (ih whenFalse)
      | whileLoop whiles opens condition closes body =>
          exact .whileLoop whiles opens condition closes (ih body)
      | forLoop fors opens initializer test mark increment closes body =>
          exact .forLoop fors opens initializer test mark increment closes (ih body)
      | returnStmt returns result closes => exact .returnStmt returns result closes

abbrev State.beforeElse (s : State) : Bool := faces s.rest (· == .elseWord)

/-- Statements of a nesting are derived, closed ones before an `else`. -/
def StatementsDerived (n : Nat) : Prop :=
  ∀ f (s s' : State) t, statement n f s = .ok t s' → s'.Clean →
    ∃ ts, s.Reads ts s' ∧ Statement n f s'.beforeElse ts t

def DeclarationsDerived (n : Nat) : Prop :=
  ∀ f (s s' : State) o, declaration n f s = .ok o s' → s'.Clean →
    ∃ ts d, s.Reads ts s' ∧ o = some d ∧ Declaration n f ts d

section
variable {f : Bool} (parts : StatementsDerived n) {word : Token} {t : Stmt}
include parts

theorem ifStatement_ok (ifs : word.kind = .ifWord)
    (h : ifStatement (expression n .assignment) (statement n f) s = .ok t s') (clean : s'.Clean) :
    ∃ ts, s.Reads ts s' ∧ Statement (n + 1) f s'.beforeElse (word :: ts) t := by
  rw [ifStatement] at h
  obtain ⟨u, m₁, opened, h⟩ := bind_ok.mp h
  obtain ⟨opening, opens, opened⟩ := expectMark_ok opened
  obtain ⟨e, m₂, tested, h⟩ := bind_ok.mp h
  obtain ⟨u, m₃, closed, h⟩ := bind_ok.mp h
  obtain ⟨closing, closes, closed⟩ := expectMark_ok closed
  obtain ⟨a, m₄, branch, h⟩ := bind_ok.mp h
  rcases branch_ok h with ⟨middle, m₅, elses, other, h⟩ | ⟨next, h⟩
  · obtain ⟨o, m₆, branch', h⟩ := bind_ok.mp h
    obtain ⟨b, parsed, rfl⟩ := map_ok.mp branch'
    obtain ⟨rfl, rfl⟩ := pure_ok.mp h
    obtain ⟨vs, reads', whenFalse⟩ := parts _ _ _ _ parsed clean
    have rest := other.cons reads'
    obtain ⟨us, reads, whenTrue⟩ := parts _ _ _ _ branch (rest.clean.mpr clean)
    have rest := (closed.cons reads).trans rest
    obtain ⟨ts, condition, phrase⟩ := expression_ok tested (rest.clean.mpr clean)
    -- An `else` was read after the first branch, so this branch is a closed statement.
    rw [State.beforeElse, other.faces, elses] at whenTrue
    refine ⟨_, opened.cons (condition.trans rest), ?_⟩
    simpa using Statement.ifElse ifs opens phrase closes whenTrue elses whenFalse
  · rw [pure_bind] at h
    obtain ⟨rfl, rfl⟩ := pure_ok.mp h
    obtain ⟨us, reads, whenTrue⟩ := parts _ _ _ _ branch clean
    have rest := closed.cons reads
    obtain ⟨ts, condition, phrase⟩ := expression_ok tested (rest.clean.mpr clean)
    rw [State.beforeElse, next] at whenTrue
    rw [State.beforeElse, next]
    exact ⟨_, opened.cons (condition.trans rest), .ifThen ifs opens phrase closes whenTrue⟩

theorem whileStatement_ok (whiles : word.kind = .whileWord)
    (h : whileStatement (expression n .assignment) (statement n f) s = .ok t s')
    (clean : s'.Clean) :
    ∃ ts, s.Reads ts s' ∧ Statement (n + 1) f s'.beforeElse (word :: ts) t := by
  rw [whileStatement] at h
  obtain ⟨u, m₁, opened, h⟩ := bind_ok.mp h
  obtain ⟨opening, opens, opened⟩ := expectMark_ok opened
  obtain ⟨e, m₂, tested, h⟩ := bind_ok.mp h
  obtain ⟨u, m₃, closed, h⟩ := bind_ok.mp h
  obtain ⟨closing, closes, closed⟩ := expectMark_ok closed
  obtain ⟨a, m₄, branch, h⟩ := bind_ok.mp h
  obtain ⟨rfl, rfl⟩ := pure_ok.mp h
  obtain ⟨us, reads, body⟩ := parts _ _ _ _ branch clean
  have rest := closed.cons reads
  obtain ⟨ts, condition, phrase⟩ := expression_ok tested (rest.clean.mpr clean)
  exact ⟨_, opened.cons (condition.trans rest), .whileLoop whiles opens phrase closes body⟩

theorem forStatement_ok (fors : word.kind = .forWord)
    (h : forStatement (expression n .assignment) (statement n f) s = .ok t s')
    (clean : s'.Clean) :
    ∃ ts, s.Reads ts s' ∧ Statement (n + 1) f s'.beforeElse (word :: ts) t := by
  rw [forStatement] at h
  obtain ⟨u, m₁, opened, h⟩ := bind_ok.mp h
  obtain ⟨opening, opens, opened⟩ := expectMark_ok opened
  obtain ⟨first, m₂, begun, h⟩ := bind_ok.mp h
  obtain ⟨condition, m₃, h, tested⟩ := clause_ok h
  obtain ⟨u, m₄, marked, h⟩ := bind_ok.mp h
  obtain ⟨semicolon, mark, marked⟩ := expectMark_ok marked
  obtain ⟨step, m₅, h, stepped⟩ := clause_ok h
  obtain ⟨u, m₆, closed, h⟩ := bind_ok.mp h
  obtain ⟨closing, closes, closed⟩ := expectMark_ok closed
  obtain ⟨a, m₇, branch, h⟩ := bind_ok.mp h
  obtain ⟨rfl, rfl⟩ := pure_ok.mp h
  obtain ⟨vs, reads, body⟩ := parts _ _ _ _ branch clean
  have rest := closed.cons reads
  obtain ⟨us, increments, increment⟩ := stepped (rest.clean.mpr clean)
  have rest := marked.cons (increments.trans rest)
  obtain ⟨ts, tests, test⟩ := tested (rest.clean.mpr clean)
  have rest := tests.trans rest
  obtain ⟨is, begins, initializer⟩ :=
    forInitializer_recognizes _ _ _ begun (rest.clean.mpr clean)
  refine ⟨_, opened.cons (begins.trans rest), ?_⟩
  simpa using Statement.forLoop fors opens initializer test mark increment closes body

end

theorem returnStatement_ok {f : Bool} {word : Token} {index : Nat} {t : Stmt}
    (returns : word.kind = .returnWord)
    (h : returnStatement f (expression n .assignment) word index s = .ok t s')
    (clean : s'.Clean) (c : Bool) :
    ∃ ts, s.Reads ts s' ∧ Statement (n + 1) f c (word :: ts) t := by
  have ends : ∀ m : State, (do
      let value ← if ← check (· == .semicolon) then pure none
        else some <$> expression n .assignment
      expectMark .semicolon .afterReturnValue
      return .returnStmt word value : Parser Stmt) m = .ok t s' →
      ∃ ts value close, m.Reads (ts ++ [close]) s' ∧ Clause n ts value ∧
        close.kind = .semicolon ∧ t = .returnStmt word value := by
    intro m h
    obtain ⟨value, m', h, result⟩ := clause_ok h
    obtain ⟨u, m'', closed, h⟩ := bind_ok.mp h
    obtain ⟨close, closes, closed⟩ := expectMark_ok closed
    obtain ⟨rfl, rfl⟩ := pure_ok.mp h
    obtain ⟨ts, reads, clause⟩ := result (closed.clean.mpr clean)
    exact ⟨ts, value, close, reads.trans closed, clause, closes, rfl⟩
  cases f with
  | false =>
      obtain ⟨u, m, noted, h⟩ := bind_ok.mp h
      obtain ⟨ts, value, close, reads, -⟩ := ends m h
      exact absurd (reads.clean.mpr clean) (note_unclean noted)
  | true =>
      obtain ⟨ts, value, close, reads, clause, closes, rfl⟩ := ends s h
      exact ⟨_, reads, .returnStmt returns clause closes⟩

/-! ## Blocks and functions -/

section
variable {f : Bool} (parts : DeclarationsDerived n)
include parts

theorem declarationsAfter_ok (bound : List Token) (done : List Stmt) {list : List Stmt}
    (h : declarationsAfter (declaration n f) bound done s = .ok list s') (clean : s'.Clean) :
    ∃ ts body, s.Reads ts s' ∧ Declarations n f ts body ∧ list = done.reverse ++ body := by
  induction bound generalizing done s with
  | nil =>
      obtain ⟨rfl, rfl⟩ := pure_ok.mp h
      exact ⟨[], [], .refl _, .nil, by simp⟩
  | cons t bound ih =>
      rw [declarationsAfter] at h
      obtain ⟨closes, m, checked, h⟩ := bind_ok.mp h
      rw [check_eq] at checked
      cases checked
      split at h
      · obtain ⟨rfl, rfl⟩ := pure_ok.mp h
        exact ⟨[], [], .refl _, .nil, by simp⟩
      obtain ⟨ends, m, looked, h⟩ := bind_ok.mp h
      rw [atEnd_eq] at looked
      cases looked
      split at h
      · obtain ⟨rfl, rfl⟩ := pure_ok.mp h
        exact ⟨[], [], .refl _, .nil, by simp⟩
      obtain ⟨o, m, read, h⟩ := bind_ok.mp h
      -- Whether `o` is a declaration is known only when the rest is known to be read without error.
      have rest : ∃ us body, m.Reads us s' ∧ Declarations n f us body ∧
          list = (o.toList ++ done).reverse ++ body := by
        cases o <;> exact ih _ h
      obtain ⟨us, body, reads, tail, rfl⟩ := rest
      obtain ⟨ts, d, reads', rfl, head⟩ := parts _ _ _ _ read (reads.clean.mpr clean)
      exact ⟨ts ++ us, d :: body, reads'.trans reads, .cons head tail, by simp⟩

theorem block_ok {body : List Stmt} (h : block (declaration n f) s = .ok body s')
    (clean : s'.Clean) :
    ∃ ts finish, s.Reads (ts ++ [finish]) s' ∧ Declarations n f ts body ∧
      finish.kind = .rightBrace := by
  rw [block] at h
  obtain ⟨bound, m, looked, h⟩ := bind_ok.mp h
  obtain ⟨list, m', read, h⟩ := bind_ok.mp h
  obtain ⟨u, m'', closed, h⟩ := bind_ok.mp h
  obtain ⟨rfl, rfl⟩ := pure_ok.mp h
  obtain ⟨finish, ends, closed⟩ := expectMark_ok closed
  obtain ⟨ts, body, reads, inside, rfl⟩ :=
    declarationsAfter_ok parts _ _ read (closed.clean.mpr clean)
  rw [remaining_eq] at looked
  cases looked
  exact ⟨ts, finish, reads.trans closed, inside, ends⟩

theorem funDeclaration_ok {word : Token} {d : Stmt} (fn : word.kind = .funWord)
    (h : funDeclaration (declaration n true) s = .ok d s') (clean : s'.Clean) :
    ∃ ts, s.Reads ts s' ∧ Declaration (n + 1) f (word :: ts) d := by
  rw [funDeclaration] at h
  obtain ⟨name, m₁, named, h⟩ := bind_ok.mp h
  obtain ⟨identifier, named⟩ := expect_ok named
  obtain ⟨u, m₂, opened, h⟩ := bind_ok.mp h
  obtain ⟨opening, opens, opened⟩ := expectMark_ok opened
  obtain ⟨params, m₃, listed, h⟩ := bind_ok.mp h
  obtain ⟨u, m₄, closed, h⟩ := bind_ok.mp h
  obtain ⟨closing, closes, closed⟩ := expectMark_ok closed
  obtain ⟨u, m₅, braced, h⟩ := bind_ok.mp h
  obtain ⟨brace, begins, braced⟩ := expectMark_ok braced
  obtain ⟨body, m₆, read, h⟩ := bind_ok.mp h
  obtain ⟨rfl, rfl⟩ := pure_ok.mp h
  obtain ⟨ts, finish, reads, inside, ends⟩ := block_ok parts read clean
  have rest := closed.cons (braced.cons reads)
  obtain ⟨us, lists, items, few⟩ :=
    commaList_recognizes (expectName_recognizes _) _ _ _ listed (rest.clean.mpr clean)
  refine ⟨_, named.cons (opened.cons (lists.trans rest)), ?_⟩
  simpa using Declaration.funDecl fn identifier opens items.parameters few closes begins inside ends

end

/-! ## Declarations and statements -/

theorem statement_derived {f : Bool} {t : Stmt} (declarations : DeclarationsDerived n)
    (statements : StatementsDerived n) (h : statement (n + 1) f s = .ok t s') (clean : s'.Clean) :
    ∃ ts, s.Reads ts s' ∧ Statement (n + 1) f s'.beforeElse ts t := by
  rw [statement] at h
  rcases branch_ok h with ⟨word, m, print, worded, h⟩ | ⟨-, h⟩
  · rw [printStatement] at h
    obtain ⟨e, m₁, read, h⟩ := bind_ok.mp h
    obtain ⟨u, m₂, closed, h⟩ := bind_ok.mp h
    obtain ⟨rfl, rfl⟩ := pure_ok.mp h
    obtain ⟨close, closes, closed⟩ := expectMark_ok closed
    obtain ⟨ts, reads, phrase⟩ := expression_ok read (closed.clean.mpr clean)
    exact ⟨_, worded.cons (reads.trans closed), .print print phrase closes⟩
  rcases branch_ok h with ⟨brace, m, begins, braced, h⟩ | ⟨-, h⟩
  · obtain ⟨body, read, rfl⟩ := map_ok.mp h
    obtain ⟨ts, finish, reads, inside, ends⟩ := block_ok declarations read clean
    exact ⟨_, braced.cons reads, .block begins inside ends⟩
  rcases branch_ok h with ⟨word, m, ifs, worded, h⟩ | ⟨-, h⟩
  · obtain ⟨ts, reads, derived⟩ := ifStatement_ok statements ifs h clean
    exact ⟨_, worded.cons reads, derived⟩
  rcases branch_ok h with ⟨word, m, whiles, worded, h⟩ | ⟨-, h⟩
  · obtain ⟨ts, reads, derived⟩ := whileStatement_ok statements whiles h clean
    exact ⟨_, worded.cons reads, derived⟩
  rcases branch_ok h with ⟨word, m, fors, worded, h⟩ | ⟨-, h⟩
  · obtain ⟨ts, reads, derived⟩ := forStatement_ok statements fors h clean
    exact ⟨_, worded.cons reads, derived⟩
  obtain ⟨index, m, looked, h⟩ := bind_ok.mp h
  rw [position_eq] at looked
  cases looked
  rcases option_ok h with ⟨word, m, returns, worded, h⟩ | ⟨-, h⟩
  · obtain ⟨ts, reads, derived⟩ := returnStatement_ok (by simpa using returns) h clean _
    exact ⟨_, worded.cons reads, derived⟩
  · obtain ⟨ts, e, close, reads, phrase, closes, rfl⟩ := expressionStatement_ok h clean
    exact ⟨_, reads, .expression phrase closes⟩

theorem recover_ok {α : Type} {p : Parser α} (accounted : Accounted p) {o : Option α}
    (h : recover p s = .ok o s') (clean : s'.Clean) : ∃ a, o = some a ∧ p s = .ok a s' := by
  cases read : p s with
  | ok a m =>
      rw [recover_of_ok read] at h
      cases h
      exact ⟨a, rfl, rfl⟩
  | error e m =>
      obtain ⟨m', skipped, recovered⟩ := recover_of_error read
      rw [recovered] at h
      cases h
      obtain ⟨-, unclean⟩ := accounted.orderly.stops read
      exact absurd ((Orderly.synchronize_clean skipped).mpr clean) unclean

theorem declaration_derived {f : Bool} {o : Option Stmt} (declarations : DeclarationsDerived n)
    (statements : StatementsDerived n) (h : declaration (n + 1) f s = .ok o s')
    (clean : s'.Clean) :
    ∃ ts d, s.Reads ts s' ∧ o = some d ∧ Declaration (n + 1) f ts d := by
  rw [declaration] at h
  obtain ⟨d, made, h⟩ := recover_ok (.declarationWith (.expression n .assignment)
    (Accounted.declaration_statement n true).1 (Accounted.declaration_statement n f).2) h clean
  rcases branch_ok h with ⟨word, m, var, worded, h⟩ | ⟨-, h⟩
  · obtain ⟨ts, reads, rest⟩ := varDeclaration_recognizes _ _ _ h clean
    exact ⟨_, d, worded.cons reads, made, .varDecl var rest⟩
  rcases branch_ok h with ⟨word, m, fn, worded, h⟩ | ⟨-, h⟩
  · obtain ⟨ts, reads, derived⟩ := funDeclaration_ok declarations fn h clean
    exact ⟨_, d, worded.cons reads, made, derived⟩
  · obtain ⟨ts, reads, derived⟩ := statements _ _ _ _ h clean
    exact ⟨ts, d, reads, made, .statement (Statement.anywhere derived)⟩

theorem construct_derived (n : Nat) : DeclarationsDerived n ∧ StatementsDerived n := by
  induction n with
  | zero =>
      refine ⟨fun f s s' o h clean => ?_, fun f s s' t h => absurd h failTooDeep_ne_ok⟩
      obtain ⟨d, -, h⟩ := recover_ok .failTooDeep h clean
      exact absurd h failTooDeep_ne_ok
  | succ n ih =>
      obtain ⟨declarations, statements⟩ := ih
      exact ⟨fun _ _ _ _ => declaration_derived declarations statements,
        fun _ _ _ _ => statement_derived declarations statements⟩

/-! ## Programs -/

theorem programAfter_ok (bound : List Token) (done : List (Option Stmt))
    {list : List (Option Stmt)} (h : programAfter n bound done s = .ok list s')
    (clean : s'.Clean) :
    ∃ ts body, s.Reads ts s' ∧ Declarations n false ts body ∧
      list = done.reverse ++ body.map some ∧ (s.rest.length ≤ bound.length → s'.rest = []) := by
  induction bound generalizing done s with
  | nil =>
      obtain ⟨rfl, rfl⟩ := pure_ok.mp h
      exact ⟨[], [], .refl _, .nil, by simp, by simp⟩
  | cons t bound ih =>
      rw [programAfter] at h
      obtain ⟨ends, m, looked, h⟩ := bind_ok.mp h
      rw [atEnd_eq] at looked
      cases looked
      split at h
      · rename_i ended
        obtain ⟨rfl, rfl⟩ := pure_ok.mp h
        exact ⟨[], [], .refl _, .nil, by simp, fun _ => List.isEmpty_iff.mp ended⟩
      obtain ⟨o, m, read, h⟩ := bind_ok.mp h
      obtain ⟨us, body, reads, tail, rfl, room⟩ := ih _ h
      obtain ⟨ts, d, reads', rfl, head⟩ :=
        (construct_derived n).1 _ _ _ _ read (reads.clean.mpr clean)
      refine ⟨ts ++ us, d :: body, reads'.trans reads, .cons head tail, by simp, fun long => ?_⟩
      have positive := head.length_pos
      rw [reads'.rest, List.length_append, List.length_cons] at long
      exact room (by omega)

theorem program_derived {list : List (Option Stmt)} (h : program n s = .ok list s')
    (clean : s'.Clean) :
    ∃ body, Declarations n false s.rest body ∧ list = body.map some := by
  rw [program] at h
  obtain ⟨bound, m, looked, h⟩ := bind_ok.mp h
  rw [remaining_eq] at looked
  cases looked
  obtain ⟨ts, body, reads, derived, rfl, ends⟩ := programAfter_ok _ _ h clean
  have rest := reads.rest
  rw [ends (Nat.le_refl _), List.append_nil] at rest
  exact ⟨body, rest ▸ derived, rfl⟩

end Lox.Parser
