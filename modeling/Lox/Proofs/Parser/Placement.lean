import Lox.Proofs.Parser.Consumption

/-!
A text inside of another one. As long as a parser does not look past the end of the text, it reads
it there as it reads the text alone, with every token at a later index.
-/

namespace Lox

def ParseError.shift (count : Nat) (e : ParseError) : ParseError :=
  { e with index := e.index + count }

namespace Parser
open Grammar (faces)

variable {α β : Type}

/-- Where a text stands inside of another one: `before` tokens were read and `noted` are the errors
among them; after the text come the tokens `following` and the mark of the end. -/
structure Place where
  before : Nat
  noted : Array ParseError
  following : List Token
  eof : Token

namespace Place

def state (w : Place) (s : State) : State where
  rest := s.rest ++ w.following
  eof := w.eof
  position := s.position + w.before
  errors := w.noted ++ s.errors.map (·.shift w.before)
  tooDeep := s.tooDeep

def Shows (w : Place) (s : State) : Prop := s.rest ≠ [] ∨ w.following = [] ∧ w.eof = s.eof

variable {w : Place} {s s' : State}

theorem reads (w : Place) {ts : List Token} (h : s.Reads ts s') :
    (w.state s).Reads ts (w.state s') := by
  have same := h.same
  refine ⟨by simp [state, h.rest], ?_⟩
  rw [same]
  simp [state, Nat.add_right_comm]

theorem Shows.before (shown : w.Shows s') (h : s.Advances s') : w.Shows s := by
  rcases shown with more | ⟨last, same⟩
  · refine .inl fun ended => more (List.eq_nil_of_length_eq_zero ?_)
    have less := h.length_le
    rw [ended] at less
    exact Nat.le_zero.mp less
  · exact .inr ⟨last, same.trans h.eof⟩

theorem Shows.following (shown : w.Shows s) (ended : s.rest = []) : w.following = [] := by
  rcases shown with more | ⟨last, -⟩
  · exact absurd ended more
  · exact last

theorem Shows.ended (shown : w.Shows s) (ended : s.rest = []) : (w.state s).rest = [] := by
  simp [state, ended, shown.following ended]

theorem Shows.peek (shown : w.Shows s) :
    (w.state s).rest.headD (w.state s).eof = s.rest.headD s.eof := by
  cases rest : s.rest with
  | nil =>
      obtain ⟨last, same⟩ := shown.resolve_left (not_not_intro rest)
      simp [state, rest, last, same]
  | cons t ts => simp [state, rest]

theorem Shows.faces (shown : w.Shows s) (kinds : Token.Kind → Bool) :
    Grammar.faces (w.state s).rest kinds = Grammar.faces s.rest kinds := by
  cases rest : s.rest with
  | nil => simp [state, rest, shown.following rest]
  | cons t ts => simp [state, rest, Grammar.faces]

theorem state_push (w : Place) (s : State) (cause : ParseError.Cause) (t : Token) (index : Nat) :
    w.state { s with errors := s.errors.push ⟨cause, t, index⟩ } =
      { w.state s with
        errors := (w.state s).errors.push ⟨cause, t, index + w.before⟩ } := by
  simp [state, ParseError.shift]

end Place

/-- From `s`, the parser `q` does at a place what `p` does in the text alone, unless `p` arrives at
the end of the text and what is next there is not next at the place. -/
structure Placed (w : Place) (s : State) (p q : Parser α) : Prop where
  ok {s' : State} {a : α} : p s = .ok a s' →
    s.Advances s' ∧ (w.Shows s' → q (w.state s) = .ok a (w.state s'))
  error {s' : State} {e : ParseError} : p s = .error e s' →
    s.Advances s' ∧ (w.Shows s' → q (w.state s) = .error (e.shift w.before) (w.state s'))

namespace Placed

variable {w : Place} {s : State}

/-! ## Steps -/

theorem of_ok {p q : Parser α} {a : α} {m : State} (read : p s = .ok a m) (advances : s.Advances m)
    (same : w.Shows m → q (w.state s) = .ok a (w.state m)) : Placed w s p q := by
  refine ⟨fun run => ?_, fun run => ?_⟩
  · rw [read] at run
    cases run
    exact ⟨advances, same⟩
  · rw [read] at run
    cases run

theorem of_error {p q : Parser α} {e : ParseError} {m : State} (read : p s = .error e m)
    (advances : s.Advances m)
    (same : w.Shows m → q (w.state s) = .error (e.shift w.before) (w.state m)) :
    Placed w s p q := by
  refine ⟨fun run => ?_, fun run => ?_⟩
  · rw [read] at run
    cases run
  · rw [read] at run
    cases run
    exact ⟨advances, same⟩

theorem congr {p p' q q' : Parser α} (h : Placed w s p q) (left : p' s = p s)
    (right : q' (w.state s) = q (w.state s)) : Placed w s p' q' := by
  refine ⟨fun run => ?_, fun run => ?_⟩
  · rw [right]
    exact h.ok (left ▸ run)
  · rw [right]
    exact h.error (left ▸ run)

theorem pure (a : α) : Placed w s (Pure.pure a) (Pure.pure a) :=
  of_ok rfl (.refl s) fun _ => rfl

theorem bind {p q : Parser α} {f g : α → Parser β} (first : Placed w s p q)
    (next : ∀ a m, p s = .ok a m → Placed w m (f a) (g a)) : Placed w s (p >>= f) (q >>= g) := by
  refine ⟨fun run => ?_, fun run => ?_⟩
  · obtain ⟨a, m, read, rest⟩ := bind_ok.mp run
    obtain ⟨advances, same⟩ := first.ok read
    obtain ⟨advances', same'⟩ := (next a m read).ok rest
    refine ⟨advances.trans advances', fun shown => ?_⟩
    rw [bind_eq (same (shown.before advances'))]
    exact same' shown
  · rcases bind_error.mp run with stopped | ⟨a, m, read, rest⟩
    · obtain ⟨advances, same⟩ := first.error stopped
      exact ⟨advances, fun shown => bind_error.mpr (.inl (same shown))⟩
    · obtain ⟨advances, same⟩ := first.ok read
      obtain ⟨advances', same'⟩ := (next a m read).error rest
      refine ⟨advances.trans advances', fun shown => ?_⟩
      rw [bind_eq (same (shown.before advances'))]
      exact same' shown

theorem map {p q : Parser α} (f : α → β) (h : Placed w s p q) : Placed w s (f <$> p) (f <$> q) := by
  rw [map_eq_pure_bind, map_eq_pure_bind]
  exact h.bind fun a m _ => .pure (f a)

theorem ite {c : Prop} [Decidable c] {p p' q q' : Parser α} (yes : Placed w s p q)
    (no : Placed w s p' q') : Placed w s (if c then p else p') (if c then q else q') := by
  split
  · exact yes
  · exact no

theorem remaining {f g : List Token → Parser α}
    (next : Placed w s (f s.rest) (g (s.rest ++ w.following))) :
    Placed w s (remaining >>= f) (remaining >>= g) := next.congr rfl rfl

theorem position {f g : Nat → Parser α}
    (next : Placed w s (f s.position) (g (s.position + w.before))) :
    Placed w s (position >>= f) (position >>= g) := next.congr rfl rfl

theorem atEnd : Placed w s atEnd atEnd := by
  refine of_ok (atEnd_eq s) (.refl s) fun shown => ?_
  rw [atEnd_eq]
  cases rest : s.rest with
  | nil => simp [Place.state, rest, shown.following rest]
  | cons t ts => simp [Place.state, rest]

theorem check (kinds : Token.Kind → Bool) : Placed w s (check kinds) (check kinds) := by
  refine of_ok (check_eq kinds s) (.refl s) fun shown => ?_
  rw [check_eq, shown.faces]

theorem accept? (kinds : Token.Kind → Bool) : Placed w s (accept? kinds) (accept? kinds) := by
  rcases accept?_cases kinds s with ⟨t, m, kind, reads, accepted⟩ | ⟨no, accepted⟩
  · exact of_ok accepted (.of_reads reads) fun _ => accept?_reads (w.reads reads) kind
  · refine of_ok accepted (.refl s) fun shown => accept?_stays ?_
    rw [shown.faces, no]

theorem accept (kind : Token.Kind) : Placed w s (accept kind) (accept kind) :=
  (accept? _).bind fun _ _ _ => .pure _

theorem note (cause : ParseError.Cause) (t : Token) (index : Nat) :
    Placed w s (note cause t index) (note cause t (index + w.before)) :=
  of_ok rfl ((Orderly.note cause t index).advances rfl) fun _ => by rw [Place.state_push]; rfl

theorem noteHere (cause : ParseError.Cause) : Placed w s (noteHere cause) (noteHere cause) := by
  refine of_ok rfl ((Orderly.noteHere cause).advances rfl) fun shown => ?_
  have shown : w.Shows s := shown
  rw [Place.state_push, ← shown.peek]
  rfl

theorem fail (cause : ParseError.Cause) :
    Placed w s (fail cause : Parser α) (fail cause : Parser α) := by
  have orderly : Orderly (Parser.fail cause : Parser α) := .fail cause
  refine of_error (fail_eq cause s) (orderly.stops rfl).1 fun shown => ?_
  have shown : w.Shows s := shown
  rw [Place.state_push, fail_eq, shown.peek]
  rfl

theorem failTooDeep : Placed w s (failTooDeep : Parser α) (failTooDeep : Parser α) := by
  cases deep : s.tooDeep with
  | true =>
      refine of_error (failTooDeep_again deep) (.refl s) fun shown => ?_
      rw [failTooDeep_again (by exact deep), shown.peek]
      rfl
  | false =>
      have read : (Parser.failTooDeep : Parser α) s = _ := failTooDeep_first deep
      refine of_error read (Orderly.failTooDeep.stops read).1 fun shown => ?_
      have shown : w.Shows s := shown
      rw [failTooDeep_first (by exact deep), shown.peek]
      simp [Place.state, ParseError.shift]

theorem expect (kind : Token.Kind) (cause : ParseError.Cause) :
    Placed w s (expect kind cause) (expect kind cause) :=
  (accept? _).bind fun o _ _ => match o with
    | some t => .pure t
    | none => .fail cause

theorem expectMark (mark : ParseError.Mark) (place : ParseError.Place) :
    Placed w s (expectMark mark place) (expectMark mark place) :=
  (expect _ _).map fun _ => ()

theorem expectName (role : ParseError.Role) : Placed w s (expectName role) (expectName role) :=
  expect _ _

theorem skipStatement (following : List Token) (before : Nat) (last : Token) (rest : List Token)
    (skipped : Nat) (shown : (skipStatement last rest skipped).1 ≠ [] ∨ following = []) :
    Parser.skipStatement last (rest ++ following) (skipped + before) =
      ((Parser.skipStatement last rest skipped).1 ++ following,
        (Parser.skipStatement last rest skipped).2 + before) := by
  induction rest generalizing last skipped with
  | nil =>
      obtain rfl := shown.resolve_left (not_not_intro rfl)
      rfl
  | cons t rest ih =>
      rw [Parser.skipStatement] at shown ⊢
      rw [List.cons_append, Parser.skipStatement]
      split
      · rfl
      · rename_i go
        rw [if_neg go] at shown
        rw [Nat.add_right_comm, ih t (skipped + 1) shown]

theorem synchronize : Placed w s synchronize synchronize := by
  refine of_ok rfl (Orderly.synchronize.advances rfl) fun shown => ?_
  obtain ⟨rest, eof, position, errors, tooDeep⟩ := s
  cases rest with
  | nil =>
      have last : w.following = [] := shown.following rfl
      simp [Parser.synchronize, Place.state, last, modify, modifyGet, MonadStateOf.modifyGet,
        EStateM.modifyGet]
  | cons t rest =>
      have skipped := skipStatement w.following w.before t rest (position + 1)
        (shown.imp id And.left)
      rw [Nat.add_right_comm] at skipped
      simp [Parser.synchronize, Place.state, skipped, modify, modifyGet, MonadStateOf.modifyGet,
        EStateM.modifyGet]

theorem recover {p q : Parser α} (h : Placed w s p q) : Placed w s (recover p) (recover q) := by
  cases read : p s with
  | ok a m =>
      obtain ⟨advances, same⟩ := h.ok read
      exact of_ok (recover_of_ok read) advances fun shown => recover_of_ok (same shown)
  | error e m =>
      obtain ⟨advances, same⟩ := h.error read
      obtain ⟨m', skips, recovered⟩ := recover_of_error read
      obtain ⟨advances', same'⟩ := (@synchronize w m).ok skips
      refine of_ok recovered (advances.trans advances') fun shown => ?_
      obtain ⟨n, skips', recovered'⟩ := recover_of_error (same (shown.before advances'))
      rw [same' shown] at skips'
      cases skips'
      exact recovered'

/-! ## Lists -/

section
variable {item : Parser α} (h : ∀ s, Placed w s item item) (role : ParseError.Role)
include h

-- The bound of a loop is what was left when it began, so at the place it is longer. Each round
-- takes a token, and therefore neither bound is reached before the end of the text.

theorem commaListAfter {bound bound' : List Token} (room : s.rest.length ≤ bound.length)
    (more : bound.length ≤ bound'.length) (count : Nat) (done : List α) :
    Placed w s (commaListAfter role item bound count done)
      (commaListAfter role item bound' count done) := by
  induction bound generalizing s bound' count done with
  | nil =>
      have round : ∀ m : State, m.rest = [] → Placed w m (commaRound role item [] count done)
          (commaRound role item bound' count done) := by
        intro m ended
        refine (h m).bind fun a m' read => ?_
        have ended' : m'.rest = [] := by
          have less := ((h m).ok read).1.length_le
          rw [ended] at less
          exact List.eq_nil_of_length_eq_zero (Nat.le_zero.mp less)
        cases bound' with
        | nil => exact .pure _
        | cons t bound' =>
            refine of_ok rfl (.refl m') fun shown => ?_
            have no : faces (w.state m').rest (· == .comma) = false := by
              rw [shown.faces, ended']
              rfl
            exact (bind_eq (accept_stays no)).trans rfl
      have ended : s.rest = [] := List.eq_nil_of_length_eq_zero (Nat.le_zero.mp room)
      rw [commaListAfter_eq, commaListAfter_eq]
      refine .ite ((noteHere _).bind fun _ m noted => ?_) (round s ended)
      cases noted
      exact round _ ended
  | cons t bound ih =>
      cases bound' with
      | nil => simp at more
      | cons t' bound' =>
          have round : ∀ m : State, m.rest.length ≤ (t :: bound).length →
              Placed w m (commaRound role item (t :: bound) count done)
                (commaRound role item (t' :: bound') count done) := by
            intro m room
            refine (h m).bind fun a m' read => (accept _).bind fun b m'' accepted => ?_
            have less := ((h m).ok read).1.length_le
            rcases accept_ok accepted with ⟨comma, rfl, -, reads⟩ | ⟨rfl, -, -⟩
            · have taken := reads.length_one
              simp only [List.length_cons] at room more
              exact ih (by omega) (by omega) (count + 1) (a :: done)
            · exact .pure _
          rw [commaListAfter_eq, commaListAfter_eq]
          refine .ite ((noteHere _).bind fun _ m noted => ?_) (round s room)
          cases noted
          exact round _ room

theorem commaList : Placed w s (commaList role item) (commaList role item) :=
  (check _).bind fun _ _ _ => .ite (.pure _) <|
    remaining (commaListAfter h role le_rfl (by simp) 0 [])

end

/-! ## Expressions -/

theorem chainAfter (p : Precedence) {operand : Parser Expr} (h : ∀ s, Placed w s operand operand)
    {bound bound' : List Token} (room : s.rest.length ≤ bound.length)
    (more : bound.length ≤ bound'.length) (left : Expr) :
    Placed w s (chainAfter p operand bound left) (chainAfter p operand bound' left) := by
  induction bound generalizing s bound' left with
  | nil =>
      have ended : s.rest = [] := List.eq_nil_of_length_eq_zero (Nat.le_zero.mp room)
      exact of_ok rfl (.refl s) fun shown => chainAfter_ended (shown.ended ended)
  | cons t bound ih =>
      cases bound' with
      | nil => simp at more
      | cons t' bound' =>
          refine (accept? _).bind fun o m accepted => ?_
          rcases accept?_ok accepted with ⟨op, rfl, -, reads⟩ | ⟨rfl, -, -⟩
          · refine (h m).bind fun right m' read => ?_
            have less := ((h m).ok read).1.length_le
            have taken := reads.length_one
            simp only [List.length_cons] at room more
            exact ih (by omega) (by omega) (p.join left op right)
          · exact .pure left

theorem callsAfter {argument : Parser Expr} (h : ∀ s, Placed w s argument argument)
    {bound bound' : List Token} (room : s.rest.length ≤ bound.length)
    (more : bound.length ≤ bound'.length) (callee : Expr) :
    Placed w s (callsAfter argument bound callee) (callsAfter argument bound' callee) := by
  induction bound generalizing s bound' callee with
  | nil =>
      have ended : s.rest = [] := List.eq_nil_of_length_eq_zero (Nat.le_zero.mp room)
      exact of_ok rfl (.refl s) fun shown => callsAfter_ended (shown.ended ended)
  | cons t bound ih =>
      cases bound' with
      | nil => simp at more
      | cons t' bound' =>
          refine (accept _).bind fun b m accepted => ?_
          rcases accept_ok accepted with ⟨paren, rfl, -, reads⟩ | ⟨rfl, -, -⟩
          · have arguments := @commaList _ w m _ h .argument
            refine arguments.bind fun args m' read => ?_
            refine (expect _ _).bind fun closing m'' closed => ?_
            have less := (arguments.ok read).1.length_le
            have taken := reads.length_one
            have taken' := (expect_ok closed).2.length_one
            simp only [List.length_cons] at room more
            exact ih (by omega) (by omega) (.call callee closing args)
          · exact .pure callee

theorem assignTo (target : Expr) (equals : Token) (index : Nat) (value : Expr) :
    Placed w s (assignTo target equals index value)
      (assignTo target equals (index + w.before) value) := by
  have refused : Placed w s
      (do Parser.note .invalidTarget equals index; return target)
      (do Parser.note .invalidTarget equals (index + w.before); return target) :=
    (note _ _ _).bind fun _ _ _ => .pure _
  unfold Parser.assignTo
  split
  · exact .pure _
  · exact refused

theorem primary {inner : Parser Expr} (h : ∀ s, Placed w s inner inner) :
    Placed w s (primary inner) (primary inner) := by
  refine (accept _).bind fun _ _ _ => .ite (.pure _) ?_
  refine (accept _).bind fun _ _ _ => .ite (.pure _) ?_
  refine (accept _).bind fun _ _ _ => .ite (.pure _) ?_
  refine (accept? _).bind fun o _ _ => ?_
  cases o with
  | some t => exact .pure _
  | none =>
      refine (accept? _).bind fun o _ _ => ?_
      cases o with
      | some t => exact .pure _
      | none =>
          exact (accept _).bind fun _ m _ => .ite
            ((h m).bind fun _ _ _ => (expectMark _ _).bind fun _ _ _ => .pure _) (fail _)

theorem expression (depth : Nat) (l : Level) (s : State) :
    Placed w s (expression depth l) (expression depth l) := by
  induction depth generalizing l s with
  | zero => exact failTooDeep
  | succ depth ih =>
      rcases l with _ | p | _ | _ | _
      case assignment =>
        refine (ih _ s).bind fun target m _ => position ((accept? _).bind fun o m' _ => ?_)
        cases o with
        | none => exact .pure _
        | some equals => exact (ih _ m').bind fun value _ _ => assignTo _ _ _ _
      case chain =>
        exact (ih _ s).bind fun first m _ => remaining (chainAfter p (ih _) le_rfl (by simp) first)
      case unary =>
        refine (accept? _).bind fun o m _ => ?_
        cases o with
        | none => exact ih _ m
        | some op => exact (ih _ m).bind fun operand _ _ => .pure _
      case call =>
        exact (ih _ s).bind fun callee m _ => remaining (callsAfter (ih _) le_rfl (by simp) callee)
      case primary => exact primary (ih _)

/-! ## Declarations and statements -/

section
variable {e : Parser Expr} {d : Parser (Option Stmt)} {p : Parser Stmt}

theorem clause {kinds : Token.Kind → Bool} (he : ∀ s, Placed w s e e)
    {f : Option Expr → Parser β} (next : ∀ value m, Placed w m (f value) (f value)) :
    Placed w s
      (do
        if ← Parser.check kinds then
          let value ← Pure.pure none
          f value
        else
          let value ← some <$> e
          f value)
      (do
        if ← Parser.check kinds then
          let value ← Pure.pure none
          f value
        else
          let value ← some <$> e
          f value) :=
  (check _).bind fun _ m _ => .ite ((pure none).bind fun o m _ => next o m)
    (((he m).map some).bind fun o m _ => next o m)

theorem varDeclaration (he : ∀ s, Placed w s e e) :
    Placed w s (varDeclaration e) (varDeclaration e) := by
  refine (expectName _).bind fun name _ _ => (accept _).bind fun _ m _ => ?_
  have ends : ∀ (value : Option Expr) (m : State), Placed w m
      (do Parser.expectMark .semicolon .afterVariableDeclaration; return Stmt.varDecl name value)
      (do Parser.expectMark .semicolon .afterVariableDeclaration; return Stmt.varDecl name value) :=
    fun _ _ => (expectMark _ _).bind fun _ _ _ => .pure _
  exact .ite (((he m).map some).bind fun o m _ => ends o m) ((pure none).bind fun o m _ => ends o m)

theorem expressionStatement (he : ∀ s, Placed w s e e) :
    Placed w s (expressionStatement e) (expressionStatement e) :=
  (he s).bind fun _ _ _ => (expectMark _ _).bind fun _ _ _ => .pure _

theorem printStatement (he : ∀ s, Placed w s e e) :
    Placed w s (printStatement e) (printStatement e) :=
  (he s).bind fun _ _ _ => (expectMark _ _).bind fun _ _ _ => .pure _

theorem declarationsAfter (hd : ∀ s, Placed w s d d) (moves : Proceeds d)
    {bound bound' : List Token} (room : s.rest.length ≤ bound.length)
    (more : bound.length ≤ bound'.length) (done : List Stmt) :
    Placed w s (declarationsAfter d bound done) (declarationsAfter d bound' done) := by
  induction bound generalizing s bound' done with
  | nil =>
      have ended : s.rest = [] := List.eq_nil_of_length_eq_zero (Nat.le_zero.mp room)
      exact of_ok rfl (.refl s) fun shown => declarationsAfter_ended (shown.ended ended)
  | cons t bound ih =>
      cases bound' with
      | nil => simp at more
      | cons t' bound' =>
          by_cases ended : s.rest = []
          · exact of_ok (declarationsAfter_ended ended) (.refl s) fun shown =>
              declarationsAfter_ended (shown.ended ended)
          · refine (check _).bind fun _ m checked => .ite (.pure _) ?_
            rw [check_eq] at checked
            cases checked
            refine atEnd.bind fun _ m looked => .ite (.pure _) ?_
            cases looked
            refine (hd s).bind fun o m read => ?_
            have less := moves.less read ended
            simp only [List.length_cons] at room more
            cases o with
            | none => exact ih (by omega) (by omega) done
            | some item => exact ih (by omega) (by omega) (item :: done)

theorem block (hd : ∀ s, Placed w s d d) (moves : Proceeds d) : Placed w s (block d) (block d) :=
  remaining <| (declarationsAfter hd moves le_rfl (by simp) []).bind fun _ _ _ =>
    (expectMark _ _).bind fun _ _ _ => .pure _

theorem funDeclaration (hd : ∀ s, Placed w s d d) (moves : Proceeds d) :
    Placed w s (funDeclaration d) (funDeclaration d) :=
  (expectName _).bind fun _ _ _ => (expectMark _ _).bind fun _ _ _ =>
    (commaList (fun _ => expectName _) _).bind fun _ _ _ => (expectMark _ _).bind fun _ _ _ =>
      (expectMark _ _).bind fun _ _ _ => (block hd moves).bind fun _ _ _ => .pure _

theorem ifStatement (he : ∀ s, Placed w s e e) (hs : ∀ s, Placed w s p p) :
    Placed w s (ifStatement e p) (ifStatement e p) :=
  (expectMark _ _).bind fun _ m _ => (he m).bind fun _ _ _ => (expectMark _ _).bind fun _ m _ =>
    (hs m).bind fun _ _ _ => (accept _).bind fun _ m _ =>
      .ite (((hs m).map _).bind fun _ _ _ => .pure _) ((pure _).bind fun _ _ _ => .pure _)

theorem whileStatement (he : ∀ s, Placed w s e e) (hs : ∀ s, Placed w s p p) :
    Placed w s (whileStatement e p) (whileStatement e p) :=
  (expectMark _ _).bind fun _ m _ => (he m).bind fun _ _ _ => (expectMark _ _).bind fun _ m _ =>
    (hs m).bind fun _ _ _ => .pure _

theorem forInitializer (he : ∀ s, Placed w s e e) :
    Placed w s (forInitializer e) (forInitializer e) :=
  (accept _).bind fun _ _ _ => .ite (.pure _) <| (accept _).bind fun _ _ _ =>
    .ite ((varDeclaration he).map _) ((expressionStatement he).map _)

theorem forStatement (he : ∀ s, Placed w s e e) (hs : ∀ s, Placed w s p p) :
    Placed w s (forStatement e p) (forStatement e p) :=
  (expectMark _ _).bind fun _ _ _ => (forInitializer he).bind fun _ _ _ =>
    clause he fun _ _ => (expectMark _ _).bind fun _ _ _ =>
      clause he fun _ _ => (expectMark _ _).bind fun _ m _ => (hs m).bind fun _ _ _ => .pure _

theorem returnStatement (he : ∀ s, Placed w s e e) (inFunction : Bool) (keyword : Token)
    (index : Nat) :
    Placed w s (returnStatement inFunction e keyword index)
      (returnStatement inFunction e keyword (index + w.before)) := by
  have ends : ∀ s, Placed w s _ _ := fun s =>
    @clause _ w s e (· == .semicolon) he _ fun value _ =>
      (expectMark .semicolon .afterReturnValue).bind fun _ _ _ =>
        .pure (Stmt.returnStmt keyword value)
  exact .ite ((note _ _ _).bind fun _ m _ => ends m) (ends s)

theorem declarationWith (he : ∀ s, Placed w s e e) (hd : ∀ s, Placed w s d d) (moves : Proceeds d)
    (hs : ∀ s, Placed w s p p) :
    Placed w s (declarationWith e d p) (declarationWith e d p) :=
  (accept _).bind fun _ _ _ => .ite (varDeclaration he) <| (accept _).bind fun _ m _ =>
    .ite (funDeclaration hd moves) (hs m)

theorem statementWith (inFunction : Bool) (he : ∀ s, Placed w s e e)
    (hd : ∀ s, Placed w s d d) (moves : Proceeds d) (hs : ∀ s, Placed w s p p) :
    Placed w s (statementWith inFunction e d p) (statementWith inFunction e d p) := by
  refine (accept _).bind fun _ _ _ => .ite (printStatement he) ?_
  refine (accept _).bind fun _ _ _ => .ite ((block hd moves).map _) ?_
  refine (accept _).bind fun _ _ _ => .ite (ifStatement he hs) ?_
  refine (accept _).bind fun _ _ _ => .ite (whileStatement he hs) ?_
  refine (accept _).bind fun _ _ _ => .ite (forStatement he hs) ?_
  refine position ((accept? _).bind fun o _ _ => ?_)
  cases o with
  | none => exact expressionStatement he
  | some keyword => exact returnStatement he inFunction keyword _

end

theorem declaration_statement (depth : Nat) (inFunction : Bool) :
    (∀ s, Placed w s (declaration depth inFunction) (declaration depth inFunction)) ∧
      ∀ s, Placed w s (statement depth inFunction) (statement depth inFunction) :=
  nesting_induction (D := fun _ _ d => ∀ s, Placed w s d d) (S := fun _ _ p => ∀ s, Placed w s p p)
    (fun _ => ⟨fun _ => recover failTooDeep, fun _ => failTooDeep⟩)
    (fun depth _ hd hs _ =>
      recover (declarationWith (expression depth _) hd (.declaration depth true) hs))
    (fun depth inFunction hd hs _ =>
      statementWith inFunction (expression depth _) hd (.declaration depth inFunction) hs)
    depth inFunction

theorem construct (depth : Nat) (inFunction : Bool) (s : State) :
    Placed w s (construct depth inFunction) (construct depth inFunction) := by
  cases depth with
  | zero => exact failTooDeep
  | succ depth =>
      exact declarationWith (expression depth _) (declaration_statement depth true).1
        (.declaration depth _) (declaration_statement depth inFunction).2

theorem programAfter (depth : Nat) {bound bound' : List Token}
    (room : s.rest.length ≤ bound.length) (more : bound.length ≤ bound'.length)
    (done : List (Option Stmt)) :
    Placed w s (programAfter depth bound done) (programAfter depth bound' done) := by
  induction bound generalizing s bound' done with
  | nil =>
      have ended : s.rest = [] := List.eq_nil_of_length_eq_zero (Nat.le_zero.mp room)
      exact of_ok rfl (.refl s) fun shown => programAfter_ended (shown.ended ended)
  | cons t bound ih =>
      cases bound' with
      | nil => simp at more
      | cons t' bound' =>
          by_cases ended : s.rest = []
          · exact of_ok (programAfter_ended ended) (.refl s) fun shown =>
              programAfter_ended (shown.ended ended)
          · refine atEnd.bind fun _ m looked => .ite (.pure _) ?_
            cases looked
            refine ((declaration_statement depth false).1 s).bind fun item m read => ?_
            have less := (Proceeds.declaration depth false).less read ended
            simp only [List.length_cons] at room more
            exact ih (by omega) (by omega) (item :: done)

end Placed

end Parser

end Lox
