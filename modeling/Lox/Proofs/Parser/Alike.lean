import Lox.Program
import Lox.Proofs.Evaluation.Alike
import Lox.Proofs.Parser.Constructs
import Lox.Proofs.Parser.Reading

namespace Lox

structure Token.Readable (R : Token → Token → Prop) : Prop where
  kind {t t' : Token} : R t t' → t.kind = t'.kind
  literal {t t' : Token} : R t t' → t.literal = t'.literal

variable (R : Token → Token → Prop)

inductive ParseError.Alike : ParseError → ParseError → Prop
  | mk {cause index t t'} (token : R t t') : Alike ⟨cause, t, index⟩ ⟨cause, t', index⟩

namespace Parser

structure State.Alike (s s' : State) : Prop where
  rest : List.Forall₂ R s.rest s'.rest
  eof : R s.eof s'.eof
  position : s.position = s'.position
  errors : List.Forall₂ (ParseError.Alike R) s.errors.toList s'.errors.toList
  tooDeep : s.tooDeep = s'.tooDeep

variable {α β γ δ : Type}

inductive Results (rel : α → β → Prop) :
    EStateM.Result ParseError State α → EStateM.Result ParseError State β → Prop
  | ok {a b s s'} (related : rel a b) (states : s.Alike R s') : Results rel (.ok a s) (.ok b s')
  | error {e e' s s'} (alike : e.Alike R e') (states : s.Alike R s') :
      Results rel (.error e s) (.error e' s')

/-- Parsers that stay together on tokens that correspond. -/
def Parallel (rel : α → β → Prop) (p : Parser α) (q : Parser β) : Prop :=
  ∀ s s', s.Alike R s' → Results R rel (p s) (q s')

variable {R}

namespace State.Alike

variable {s s' : State}

theorem peek (h : s.Alike R s') : R (s.rest.headD s.eof) (s'.rest.headD s'.eof) := by
  have rest := h.rest
  revert rest
  cases s.rest <;> cases s'.rest <;> rintro (_ | ⟨head, _⟩)
  · exact h.eof
  · exact head

theorem push {cause : ParseError.Cause} {index : Nat} {t t' : Token} (h : s.Alike R s')
    (token : R t t') : State.Alike R { s with errors := s.errors.push ⟨cause, t, index⟩ }
      { s' with errors := s'.errors.push ⟨cause, t', index⟩ } := by
  refine ⟨h.rest, h.eof, h.position, ?_, h.tooDeep⟩
  rw [Array.toList_push, Array.toList_push]
  exact List.rel_append h.errors (.cons (.mk token) .nil)

end State.Alike

namespace Parallel

variable {rel : α → β → Prop} {rel' : γ → δ → Prop}

/-! ## Steps -/

theorem pure {a : α} {b : β} (related : rel a b) : Parallel R rel (Pure.pure a) (Pure.pure b) :=
  fun _ _ states => .ok related states

theorem bind {p : Parser α} {q : Parser β} {f : α → Parser γ} {g : β → Parser δ}
    (first : Parallel R rel p q) (next : ∀ a b, rel a b → Parallel R rel' (f a) (g b)) :
    Parallel R rel' (p >>= f) (q >>= g) := by
  intro s s' states
  have start := first s s' states
  simp only [Bind.bind, EStateM.bind]
  generalize p s = x at start
  generalize q s' = y at start
  cases start with
  | ok related states => exact next _ _ related _ _ states
  | error alike states => exact .error alike states

theorem map {p : Parser α} {q : Parser β} {f : α → γ} {g : β → δ} (h : Parallel R rel p q)
    (each : ∀ a b, rel a b → rel' (f a) (g b)) : Parallel R rel' (f <$> p) (g <$> q) := by
  rw [map_eq_pure_bind, map_eq_pure_bind]
  exact h.bind fun a b related => .pure (each a b related)

theorem ite {b b' : Bool} {p p' : Parser α} {q q' : Parser β} (same : b = b')
    (yes : Parallel R rel p q) (no : Parallel R rel p' q') :
    Parallel R rel (if b then p else p') (if b' then q else q') := by
  subst same
  split
  · exact yes
  · exact no

theorem throw {e e' : ParseError} (alike : e.Alike R e') :
    Parallel R rel (throw e : Parser α) (throw e' : Parser β) :=
  fun _ _ states => .error alike states

theorem peek : Parallel R R peek peek := fun _ _ states => .ok states.peek states

theorem remaining : Parallel R (List.Forall₂ R) remaining remaining :=
  fun _ _ states => .ok states.rest states

theorem position : Parallel R (· = ·) position position :=
  fun _ _ states => .ok states.position states

theorem atEnd : Parallel R (· = ·) atEnd atEnd := by
  intro s s' states
  refine .ok ?_ states
  have rest := states.rest
  revert rest
  cases s.rest <;> cases s'.rest <;> rintro (_ | _) <;> rfl

theorem note {cause : ParseError.Cause} {t t' : Token} (token : R t t') {index index' : Nat}
    (same : index = index') :
    Parallel R (fun _ _ => True) (note cause t index) (note cause t' index') := by
  subst same
  exact fun _ _ states => .ok trivial (states.push token)

theorem noteHere (cause : ParseError.Cause) :
    Parallel R (fun _ _ => True) (noteHere cause) (noteHere cause) :=
  peek.bind fun _ _ token => position.bind fun _ _ same => note token same

theorem fail (cause : ParseError.Cause) :
    Parallel R rel (fail cause : Parser α) (fail cause : Parser β) := by
  apply (noteHere cause).bind
  intro _ _ _
  apply peek.bind
  intro t t' token
  apply position.bind
  rintro index _ rfl
  exact .throw (.mk token)

theorem failTooDeep : Parallel R rel (failTooDeep : Parser α) (failTooDeep : Parser β) := by
  have flag : Parallel R (fun s s' => s.tooDeep = s'.tooDeep) get get :=
    fun _ _ states => .ok states.tooDeep states
  have marks : Parallel R (fun _ _ => True) (modify fun s => { s with tooDeep := true })
      (modify fun s => { s with tooDeep := true }) :=
    fun _ _ states => .ok trivial ⟨states.rest, states.eof, states.position, states.errors, rfl⟩
  have ends : Parallel R rel
      (do modify fun s => { s with tooDeep := true }; Parser.fail .nestedTooDeep : Parser α)
      (do modify fun s => { s with tooDeep := true }; Parser.fail .nestedTooDeep : Parser β) :=
    marks.bind fun _ _ _ => fail .nestedTooDeep
  have stops : ∀ t t' index, R t t' → Parallel R (fun _ _ => True)
      (MonadExcept.throw ⟨.nestedTooDeep, t, index⟩ : Parser PUnit)
      (MonadExcept.throw ⟨.nestedTooDeep, t', index⟩ : Parser PUnit) :=
    fun _ _ _ token => throw (.mk token)
  apply flag.bind
  intro s s' same
  apply ite same _ ends
  apply peek.bind
  intro t t' token
  apply position.bind
  rintro index _ rfl
  exact (stops t t' index token).bind fun _ _ _ => ends

section
variable (readable : Token.Readable R)
include readable

theorem check (kinds : Token.Kind → Bool) : Parallel R (· = ·) (check kinds) (check kinds) := by
  intro s s' states
  rw [check_eq, check_eq]
  refine .ok ?_ states
  have rest := states.rest
  revert rest
  cases s.rest <;> cases s'.rest <;> rintro (_ | ⟨head, _⟩)
  · rfl
  · exact congrArg kinds (readable.kind head)

theorem accept? (kinds : Token.Kind → Bool) :
    Parallel R (Option.Rel R) (accept? kinds) (accept? kinds) := by
  intro s s' states
  rw [accept?_eq, accept?_eq]
  obtain ⟨rest, eof, position, errors, tooDeep⟩ := s
  obtain ⟨rest', eof', position', errors', tooDeep'⟩ := s'
  cases states.rest with
  | nil => exact .ok .none states
  | @cons t t' _ _ head tail =>
      simp only [← readable.kind head]
      split
      · exact .ok (.some head)
          ⟨tail, states.eof, congrArg (· + 1) states.position, states.errors, states.tooDeep⟩
      · exact .ok .none states

theorem accept (kind : Token.Kind) : Parallel R (· = ·) (accept kind) (accept kind) := by
  apply (accept? readable (· == kind)).bind
  rintro _ _ (_ | _)
  · exact .pure rfl
  · exact .pure rfl

theorem expect (kind : Token.Kind) (cause : ParseError.Cause) :
    Parallel R R (expect kind cause) (expect kind cause) := by
  apply (accept? readable (· == kind)).bind
  rintro _ _ (token | _)
  · exact .pure token
  · exact .fail cause

theorem expectMark (mark : ParseError.Mark) (place : ParseError.Place) :
    Parallel R (fun _ _ => True) (expectMark mark place) (expectMark mark place) :=
  (expect readable _ _).map fun _ _ _ => trivial

theorem expectName (role : ParseError.Role) : Parallel R R (expectName role) (expectName role) :=
  expect readable _ _

theorem skipStatement {last last' : Token} {ts ts' : List Token} (same : R last last')
    (rest : List.Forall₂ R ts ts') (skipped : Nat) :
    List.Forall₂ R (skipStatement last ts skipped).1 (skipStatement last' ts' skipped).1 ∧
      (skipStatement last ts skipped).2 = (skipStatement last' ts' skipped).2 := by
  induction rest generalizing last last' skipped with
  | nil => exact ⟨.nil, rfl⟩
  | cons head tail ih =>
      rw [Parser.skipStatement, Parser.skipStatement, ← readable.kind same, ← readable.kind head]
      split
      · exact ⟨.cons head tail, rfl⟩
      · exact ih head (skipped + 1)

theorem synchronize : Parallel R (fun _ _ => True) synchronize synchronize := by
  intro s s' states
  obtain ⟨rest, eof, position, errors, tooDeep⟩ := s
  obtain ⟨rest', eof', position', errors', tooDeep'⟩ := s'
  cases states.rest with
  | nil => exact .ok trivial states
  | cons head tail =>
      have same : position = position' := states.position
      subst same
      obtain ⟨left, moved⟩ := skipStatement readable head tail (position + 1)
      exact .ok trivial ⟨left, states.eof, moved, states.errors, states.tooDeep⟩

theorem recover {p : Parser α} {q : Parser β} (h : Parallel R rel p q) :
    Parallel R (Option.Rel rel) (recover p) (recover q) := by
  intro s s' states
  have inside := h s s' states
  cases first : p s with
  | ok a m =>
      cases second : q s' with
      | ok b m' =>
          rw [first, second] at inside
          rw [recover_of_ok first, recover_of_ok second]
          cases inside with
          | ok related states => exact .ok (.some related) states
      | error e m' =>
          rw [first, second] at inside
          cases inside
  | error e m =>
      cases second : q s' with
      | ok b m' =>
          rw [first, second] at inside
          cases inside
      | error e' m' =>
          rw [first, second] at inside
          obtain ⟨n, skips, recovers⟩ := recover_of_error first
          obtain ⟨n', skips', recovers'⟩ := recover_of_error second
          rw [recovers, recovers']
          cases inside with
          | error _ states =>
              have skipped := synchronize readable m m' states
              rw [skips, skips'] at skipped
              cases skipped with
              | ok _ states => exact .ok .none states

/-! ## Lists -/

variable {p : Parser α} {q : Parser β} (item : Parallel R rel p q) (role : ParseError.Role)
include item

theorem commaListAfter {bound bound' : List Token} (bounds : List.Forall₂ R bound bound')
    (count : Nat) {done : List α} {done' : List β} (before : List.Forall₂ rel done done') :
    Parallel R (List.Forall₂ rel) (commaListAfter role p bound count done)
      (commaListAfter role q bound' count done') := by
  induction bounds generalizing count done done' with
  | nil =>
      have round : Parallel R (List.Forall₂ rel) (commaRound role p [] count done)
          (commaRound role q [] count done') :=
        item.bind fun _ _ related => .pure (List.rel_reverse (.cons related before))
      rw [commaListAfter_eq, commaListAfter_eq]
      split
      · exact (noteHere _).bind fun _ _ _ => round
      · exact round
  | @cons t t' bound bound' _ _ ih =>
      have round : Parallel R (List.Forall₂ rel) (commaRound role p (t :: bound) count done)
          (commaRound role q (t' :: bound') count done') := by
        apply item.bind
        intro a b related
        have now := List.Forall₂.cons related before
        exact (accept readable _).bind fun _ _ same =>
          .ite same (ih (count + 1) now) (.pure (List.rel_reverse now))
      rw [commaListAfter_eq, commaListAfter_eq]
      split
      · exact (noteHere _).bind fun _ _ _ => round
      · exact round

theorem commaList : Parallel R (List.Forall₂ rel) (commaList role p) (commaList role q) :=
  (check readable _).bind fun _ _ same => .ite same (.pure .nil) <|
    remaining.bind fun _ _ bounds => commaListAfter readable item role bounds 0 .nil

end

/-! ## Expressions -/

theorem join {precedence : Precedence} {a a' op op' b b'} (left : Expr.Alike R a a') (token : R op op')
    (right : Expr.Alike R b b') : (precedence.join a op b).Alike R (precedence.join a' op' b') := by
  cases precedence with
  | or | and => exact .logical left token right
  | equality | comparison | term | factor => exact .binary left token right

theorem assignTo {target target' equals equals' value value'} (alike : Expr.Alike R target target')
    (mark : R equals equals') (index : Nat) (result : Expr.Alike R value value') :
    Parallel R (Expr.Alike R) (assignTo target equals index value)
      (assignTo target' equals' index value') := by
  have refused : Parallel R (Expr.Alike R)
      (do Parser.note .invalidTarget equals index; return target)
      (do Parser.note .invalidTarget equals' index; return target') :=
    (note mark rfl).bind fun _ _ _ => .pure alike
  cases alike with
  | name token => exact .pure (.assign token result)
  | literal | grouping | unary | binary | logical | assign | call => exact refused

section
variable (readable : Token.Readable R)
include readable

theorem chainAfter (precedence : Precedence) {p q : Parser Expr}
    (operand : Parallel R (Expr.Alike R) p q) {bound bound' : List Token}
    (bounds : List.Forall₂ R bound bound') {left left' : Expr} (alike : left.Alike R left') :
    Parallel R (Expr.Alike R) (chainAfter precedence p bound left)
      (chainAfter precedence q bound' left') := by
  induction bounds generalizing left left' with
  | nil => exact .pure alike
  | cons _ _ ih =>
      apply (accept? readable precedence.operators).bind
      rintro _ _ (token | _)
      · exact operand.bind fun _ _ right => ih (join alike token right)
      · exact .pure alike

theorem callsAfter {p q : Parser Expr} (argument : Parallel R (Expr.Alike R) p q)
    {bound bound' : List Token} (bounds : List.Forall₂ R bound bound') {callee callee' : Expr}
    (alike : callee.Alike R callee') :
    Parallel R (Expr.Alike R) (callsAfter p bound callee) (callsAfter q bound' callee') := by
  induction bounds generalizing callee callee' with
  | nil => exact .pure alike
  | cons _ _ ih =>
      apply (accept readable .leftParen).bind
      intro b b' same
      refine .ite same ?_ (.pure alike)
      apply (commaList readable argument .argument).bind
      intro _ _ arguments
      apply (expect readable .rightParen _).bind
      intro _ _ paren
      exact ih (.call alike paren arguments)

theorem primary {p q : Parser Expr} (inner : Parallel R (Expr.Alike R) p q) :
    Parallel R (Expr.Alike R) (primary p) (primary q) := by
  refine (accept readable _).bind fun _ _ same => .ite same (.pure .literal) ?_
  refine (accept readable _).bind fun _ _ same => .ite same (.pure .literal) ?_
  refine (accept readable _).bind fun _ _ same => .ite same (.pure .literal) ?_
  apply (accept? readable _).bind
  rintro _ _ (@⟨t, t', token⟩ | _)
  · have literal : Parallel R (Expr.Alike R) (Pure.pure (.literal t.literal))
        (Pure.pure (.literal t'.literal)) := by
      rw [readable.literal token]
      exact .pure .literal
    exact literal
  apply (accept? readable _).bind
  rintro _ _ (token | _)
  · exact .pure (.name token)
  refine (accept readable _).bind fun _ _ same => .ite same ?_ (.fail _)
  apply inner.bind
  intro _ _ inside
  exact (expectMark readable _ _).bind fun _ _ _ => .pure (.grouping inside)

theorem expression (depth : Nat) (l : Level) :
    Parallel R (Expr.Alike R) (expression depth l) (expression depth l) := by
  induction depth generalizing l with
  | zero => exact failTooDeep
  | succ depth ih =>
      rcases l with _ | precedence | _ | _ | _
      case assignment =>
        apply (ih _).bind
        intro _ _ target
        apply position.bind
        rintro index _ rfl
        apply (accept? readable _).bind
        rintro _ _ (mark | _)
        · exact (ih _).bind fun _ _ value => assignTo target mark index value
        · exact .pure target
      case chain =>
        apply (ih _).bind
        intro _ _ first
        exact remaining.bind fun _ _ bounds => chainAfter readable precedence (ih _) bounds first
      case unary =>
        apply (accept? readable _).bind
        rintro _ _ (operator | _)
        · exact (ih _).bind fun _ _ operand => .pure (.unary operator operand)
        · exact ih _
      case call =>
        apply (ih _).bind
        intro _ _ callee
        exact remaining.bind fun _ _ bounds => callsAfter readable (ih _) bounds callee
      case primary => exact primary readable (ih _)

end

/-! ## Declarations and statements -/

section
variable {e e' : Parser Expr} {s s' : Parser Stmt} {d d' : Parser (Option Stmt)}
  (readable : Token.Readable R)
include readable

theorem clause {kinds : Token.Kind → Bool} (he : Parallel R (Expr.Alike R) e e')
    {f : Option Expr → Parser γ} {g : Option Expr → Parser δ}
    (next : ∀ o o', Option.Rel (Expr.Alike R) o o' → Parallel R rel' (f o) (g o')) :
    Parallel R rel'
      (do
        if ← Parser.check kinds then
          let value ← Pure.pure none
          f value
        else
          let value ← some <$> e
          f value)
      (do
        if ← Parser.check kinds then
          let value ← Pure.pure none
          g value
        else
          let value ← some <$> e'
          g value) :=
  (check readable _).bind fun _ _ same => .ite same ((pure .none).bind next)
    ((he.map fun _ _ => .some).bind next)

theorem varDeclaration (he : Parallel R (Expr.Alike R) e e') :
    Parallel R (Stmt.Alike R) (varDeclaration e) (varDeclaration e') := by
  apply (expectName readable _).bind
  intro name name' token
  apply (accept readable _).bind
  intro _ _ same
  have ends : ∀ o o', Option.Rel (Expr.Alike R) o o' → Parallel R (Stmt.Alike R)
      (do Parser.expectMark .semicolon .afterVariableDeclaration; return Stmt.varDecl name o)
      (do Parser.expectMark .semicolon .afterVariableDeclaration; return Stmt.varDecl name' o') :=
    fun _ _ initializer => (expectMark readable _ _).bind fun _ _ _ => .pure (.varDecl token initializer)
  exact .ite same ((he.map fun _ _ => .some).bind ends) ((pure .none).bind ends)

theorem expressionStatement (he : Parallel R (Expr.Alike R) e e') :
    Parallel R (Stmt.Alike R) (expressionStatement e) (expressionStatement e') :=
  he.bind fun _ _ value => (expectMark readable _ _).bind fun _ _ _ => .pure (.expression value)

theorem printStatement (he : Parallel R (Expr.Alike R) e e') :
    Parallel R (Stmt.Alike R) (printStatement e) (printStatement e') :=
  he.bind fun _ _ value => (expectMark readable _ _).bind fun _ _ _ => .pure (.print value)

theorem declarationsAfter (hd : Parallel R (Option.Rel (Stmt.Alike R)) d d')
    {bound bound' : List Token} (bounds : List.Forall₂ R bound bound') {done done' : List Stmt}
    (before : List.Forall₂ (Stmt.Alike R) done done') :
    Parallel R (List.Forall₂ (Stmt.Alike R)) (declarationsAfter d bound done)
      (declarationsAfter d' bound' done') := by
  induction bounds generalizing done done' with
  | nil => exact .pure (List.rel_reverse before)
  | cons _ _ ih =>
      refine (check readable _).bind fun _ _ same => .ite same (.pure (List.rel_reverse before)) ?_
      refine atEnd.bind fun _ _ same => .ite same (.pure (List.rel_reverse before)) ?_
      apply hd.bind
      rintro _ _ (item | _)
      · exact ih (.cons item before)
      · exact ih before

theorem block (hd : Parallel R (Option.Rel (Stmt.Alike R)) d d') :
    Parallel R (List.Forall₂ (Stmt.Alike R)) (block d) (block d') := by
  apply remaining.bind
  intro _ _ bounds
  apply (declarationsAfter readable hd bounds .nil).bind
  intro _ _ inside
  exact (expectMark readable _ _).bind fun _ _ _ => .pure inside

theorem funDeclaration (hd : Parallel R (Option.Rel (Stmt.Alike R)) d d') :
    Parallel R (Stmt.Alike R) (funDeclaration d) (funDeclaration d') := by
  apply (expectName readable _).bind
  intro _ _ name
  apply (expectMark readable _ _).bind
  intro _ _ _
  apply (commaList readable (expectName readable _) _).bind
  intro _ _ params
  apply (expectMark readable _ _).bind
  intro _ _ _
  apply (expectMark readable _ _).bind
  intro _ _ _
  exact (block readable hd).bind fun _ _ inside => .pure (.funDecl name params inside)

theorem ifStatement (he : Parallel R (Expr.Alike R) e e') (hs : Parallel R (Stmt.Alike R) s s') :
    Parallel R (Stmt.Alike R) (ifStatement e s) (ifStatement e' s') := by
  apply (expectMark readable _ _).bind
  intro _ _ _
  apply he.bind
  intro _ _ condition
  apply (expectMark readable _ _).bind
  intro _ _ _
  apply hs.bind
  intro _ _ whenTrue
  apply (accept readable _).bind
  intro _ _ same
  refine .ite same ?_ ?_
  · exact (hs.map fun _ _ => .some).bind fun _ _ whenFalse => .pure (.ifElse condition whenTrue whenFalse)
  · exact (pure .none).bind fun _ _ whenFalse => .pure (.ifElse condition whenTrue whenFalse)

theorem whileStatement (he : Parallel R (Expr.Alike R) e e')
    (hs : Parallel R (Stmt.Alike R) s s') :
    Parallel R (Stmt.Alike R) (whileStatement e s) (whileStatement e' s') := by
  apply (expectMark readable _ _).bind
  intro _ _ _
  apply he.bind
  intro _ _ condition
  apply (expectMark readable _ _).bind
  intro _ _ _
  exact hs.bind fun _ _ body => .pure (.whileLoop condition body)

theorem forInitializer (he : Parallel R (Expr.Alike R) e e') :
    Parallel R (Option.Rel (Stmt.Alike R)) (forInitializer e) (forInitializer e') := by
  refine (accept readable _).bind fun _ _ same => .ite same (.pure .none) ?_
  refine (accept readable _).bind fun _ _ same => .ite same ?_ ?_
  · exact (varDeclaration readable he).map fun _ _ => .some
  · exact (expressionStatement readable he).map fun _ _ => .some

omit readable in
theorem forLoop {first first' condition condition' step step'} {body body' : Stmt}
    (initializer : Option.Rel (Stmt.Alike R) first first')
    (test : Option.Rel (Expr.Alike R) condition condition')
    (increment : Option.Rel (Expr.Alike R) step step') (alike : body.Alike R body') :
    (Stmt.forLoop first condition step body).Alike R (.forLoop first' condition' step' body') := by
  have round : ∀ {round round' : Stmt}, round.Alike R round' →
      (Stmt.whileLoop (condition.getD (.literal (.bool true))) round).Alike R
        (.whileLoop (condition'.getD (.literal (.bool true))) round') := by
    intro round round' inside
    cases test with
    | none => exact .whileLoop .literal inside
    | some value => exact .whileLoop value inside
  have loop : (Stmt.forLoop none condition step body).Alike R (.forLoop none condition' step' body') := by
    cases increment with
    | none => exact round alike
    | some value => exact round (.block (.cons alike (.cons (.expression value) .nil)))
  cases initializer with
  | none => exact loop
  | some first => exact .block (.cons first (.cons loop .nil))

theorem forStatement (he : Parallel R (Expr.Alike R) e e') (hs : Parallel R (Stmt.Alike R) s s') :
    Parallel R (Stmt.Alike R) (forStatement e s) (forStatement e' s') := by
  apply (expectMark readable _ _).bind
  intro _ _ _
  apply (forInitializer readable he).bind
  intro _ _ initializer
  apply clause readable he
  intro _ _ test
  apply (expectMark readable _ _).bind
  intro _ _ _
  apply clause readable he
  intro _ _ increment
  apply (expectMark readable _ _).bind
  intro _ _ _
  exact hs.bind fun _ _ body => .pure (forLoop initializer test increment body)

theorem returnStatement (inFunction : Bool) (he : Parallel R (Expr.Alike R) e e') {keyword keyword'}
    (token : R keyword keyword') (index : Nat) :
    Parallel R (Stmt.Alike R) (returnStatement inFunction e keyword index)
      (returnStatement inFunction e' keyword' index) := by
  have ends : ∀ o o', Option.Rel (Expr.Alike R) o o' → Parallel R (Stmt.Alike R)
      (do Parser.expectMark .semicolon .afterReturnValue; return Stmt.returnStmt keyword o)
      (do Parser.expectMark .semicolon .afterReturnValue; return Stmt.returnStmt keyword' o') :=
    fun _ _ value => (expectMark readable _ _).bind fun _ _ _ => .pure (.returnStmt token value)
  cases inFunction with
  | false => exact (note token rfl).bind fun _ _ _ => clause readable he ends
  | true => exact clause readable he ends

theorem declarationWith (he : Parallel R (Expr.Alike R) e e')
    (hd : Parallel R (Option.Rel (Stmt.Alike R)) d d') (hs : Parallel R (Stmt.Alike R) s s') :
    Parallel R (Stmt.Alike R) (declarationWith e d s) (declarationWith e' d' s') := by
  refine (accept readable _).bind fun _ _ same => .ite same (varDeclaration readable he) ?_
  exact (accept readable _).bind fun _ _ same => .ite same (funDeclaration readable hd) hs

theorem statementWith (inFunction : Bool) (he : Parallel R (Expr.Alike R) e e')
    (hd : Parallel R (Option.Rel (Stmt.Alike R)) d d') (hs : Parallel R (Stmt.Alike R) s s') :
    Parallel R (Stmt.Alike R) (statementWith inFunction e d s)
      (statementWith inFunction e' d' s') := by
  refine (accept readable _).bind fun _ _ same => .ite same (printStatement readable he) ?_
  refine (accept readable _).bind fun _ _ same => .ite same
    ((block readable hd).map fun _ _ => .block) ?_
  refine (accept readable _).bind fun _ _ same => .ite same (ifStatement readable he hs) ?_
  refine (accept readable _).bind fun _ _ same => .ite same (whileStatement readable he hs) ?_
  refine (accept readable _).bind fun _ _ same => .ite same (forStatement readable he hs) ?_
  apply position.bind
  rintro index _ rfl
  apply (accept? readable _).bind
  rintro _ _ (token | _)
  · exact returnStatement readable inFunction he token index
  · exact expressionStatement readable he

end

variable (readable : Token.Readable R) (depth : Nat)
include readable

theorem declaration_statement (inFunction : Bool) :
    Parallel R (Option.Rel (Stmt.Alike R)) (declaration depth inFunction)
        (declaration depth inFunction) ∧
      Parallel R (Stmt.Alike R) (statement depth inFunction) (statement depth inFunction) :=
  nesting_induction (D := fun _ _ d => Parallel R (Option.Rel (Stmt.Alike R)) d d)
    (S := fun _ _ s => Parallel R (Stmt.Alike R) s s)
    (fun _ => ⟨recover readable failTooDeep, failTooDeep⟩)
    (fun depth _ hd hs =>
      recover readable (declarationWith readable (expression readable depth _) hd hs))
    (fun depth inFunction hd hs =>
      statementWith readable inFunction (expression readable depth _) hd hs)
    depth inFunction

theorem programAfter {bound bound' : List Token} (bounds : List.Forall₂ R bound bound')
    {done done' : List (Option Stmt)} (before : List.Forall₂ (Option.Rel (Stmt.Alike R)) done done') :
    Parallel R (List.Forall₂ (Option.Rel (Stmt.Alike R))) (programAfter depth bound done)
      (programAfter depth bound' done') := by
  induction bounds generalizing done done' with
  | nil => exact .pure (List.rel_reverse before)
  | cons _ _ ih =>
      refine atEnd.bind fun _ _ same => .ite same (.pure (List.rel_reverse before)) ?_
      exact (declaration_statement readable depth false).1.bind fun _ _ item => ih (.cons item before)

theorem program : Parallel R (List.Forall₂ (Option.Rel (Stmt.Alike R))) (program depth)
    (program depth) :=
  remaining.bind fun _ _ bounds => programAfter readable depth bounds .nil

end Parallel

theorem parse_alike (readable : Token.Readable R) (depth : Nat) {tokens tokens' : List Token}
    {eof eof' : Token} (same : List.Forall₂ R tokens tokens') (ends : R eof eof') :
    List.Forall₂ (Option.Rel (Stmt.Alike R)) (parse depth tokens eof).1 (parse depth tokens' eof').1 ∧
      List.Forall₂ (ParseError.Alike R) (parse depth tokens eof).2 (parse depth tokens' eof').2 := by
  have start : (start tokens eof).Alike R (start tokens' eof') := ⟨same, ends, rfl, .nil, rfl⟩
  have reads := Parallel.program readable depth _ _ start
  unfold parse
  generalize program depth (Parser.start tokens eof) = x at reads
  generalize program depth (Parser.start tokens' eof') = y at reads
  cases reads with
  | ok related states => exact ⟨related, states.errors⟩
  | error _ states => exact ⟨.nil, states.errors⟩

end Parser

end Lox
