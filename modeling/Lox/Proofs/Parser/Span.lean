import Lox.Proofs.Grammar.Nesting
import Lox.Proofs.Parser.Progress

namespace Lox

/-- What holds of an error and a later one. The mark of the end has the index `last`. -/
structure ParseError.Before (last : Nat) (e e' : ParseError) : Prop where
  reached : e.cause ≠ .invalidTarget → e'.cause ≠ .invalidTarget → e.index ≤ e'.index
  stopped : e.cause.stops = true → e'.cause.stops = true →
    e.index < e'.index ∨ e.index = last ∧ e'.index = last

theorem ParseError.Cause.ne_invalidTarget {cause : ParseError.Cause} (h : cause.stops = true) :
    cause ≠ .invalidTarget := by
  rintro rfl
  cases h

namespace Parser
open Grammar (height faces)

variable {α β : Type}

def State.last (s : State) : Nat := s.position + s.rest.length

def State.Holds (s : State) (index : Nat) (t : Token) : Prop :=
  s.position ≤ index ∧ (s.rest ++ [s.eof])[index - s.position]? = some t

theorem State.Holds.le_last {s : State} {index : Nat} {t : Token} (h : s.Holds index t) :
    index ≤ s.last := by
  obtain ⟨le, found⟩ := h
  have bound := (List.getElem?_eq_some_iff.mp found).1
  simp only [List.length_append, List.length_singleton] at bound
  simp only [State.last]
  omega

theorem State.holds_peek (s : State) : s.Holds s.position (s.rest.headD s.eof) := by
  refine ⟨le_rfl, ?_⟩
  rw [Nat.sub_self]
  cases s.rest <;> rfl

theorem State.Reads.holds {s s' : State} {t : Token} (h : s.Reads [t] s') :
    s.Holds s.position t := by
  have peek := s.holds_peek
  rwa [h.rest] at peek

/-! ## Spans -/

structure State.Spans (s : State) (ts : List Token) (es : List ParseError) (s' : State) : Prop where
  rest : s.rest = ts ++ s'.rest
  position : s'.position = s.position + ts.length
  eof : s'.eof = s.eof
  tooDeep : s'.tooDeep = s.tooDeep
  errors : s'.errors.toList = s.errors.toList ++ es
  holds : ∀ e ∈ es, s.Holds e.index e.token
  reached : ∀ e ∈ es, e.cause ≠ .invalidTarget → e.index ≤ s'.position
  passed : ∀ e ∈ es, e.cause.stops = true → e.index < s'.position ∨ s'.rest = []
  ordered : es.Pairwise (ParseError.Before s.last)

namespace State.Spans

variable {s m s' : State} {ts us : List Token} {es fs : List ParseError}

theorem of_reads (h : s.Reads ts s') : s.Spans ts [] s' := by
  have same := h.same
  refine ⟨h.rest, by rw [same], by rw [same], by rw [same], by rw [same]; simp, ?_, ?_, ?_, .nil⟩
  all_goals simp

theorem refl (s : State) : s.Spans [] [] s := of_reads (.refl s)

theorem last (h : s.Spans ts es s') : s'.last = s.last := by
  simp only [State.last, h.rest, h.position, List.length_append]
  omega

theorem holds_before (h : s.Spans ts es m) {index : Nat} {t : Token} (later : m.Holds index t) :
    s.Holds index t := by
  obtain ⟨le, found⟩ := later
  rw [h.position] at le found
  rw [h.eof] at found
  refine ⟨by omega, ?_⟩
  rw [h.rest, List.append_assoc, List.getElem?_append_right (by omega),
    show index - s.position - ts.length = index - (s.position + ts.length) by omega]
  exact found

theorem trans (first : s.Spans ts es m) (second : m.Spans us fs s') :
    s.Spans (ts ++ us) (es ++ fs) s' := by
  have moved := second.position
  have later : m.rest = [] → s'.rest = [] := fun ended => by
    have read := second.rest
    rw [ended] at read
    exact (List.append_eq_nil_iff.mp read.symm).2
  refine ⟨?_, ?_, ?_, ?_, ?_, ?_, ?_, ?_, ?_⟩
  · rw [first.rest, second.rest, List.append_assoc]
  · rw [moved, first.position, List.length_append, Nat.add_assoc]
  · rw [second.eof, first.eof]
  · rw [second.tooDeep, first.tooDeep]
  · rw [second.errors, first.errors, List.append_assoc]
  · intro e member
    rcases List.mem_append.mp member with member | member
    · exact first.holds e member
    · exact first.holds_before (second.holds e member)
  · intro e member valid
    rcases List.mem_append.mp member with member | member
    · have le := first.reached e member valid
      omega
    · exact second.reached e member valid
  · intro e member stops
    rcases List.mem_append.mp member with member | member
    · rcases first.passed e member stops with less | ended
      · exact .inl (by omega)
      · exact .inr (later ended)
    · exact second.passed e member stops
  · refine List.pairwise_append.mpr ⟨first.ordered, first.last ▸ second.ordered, ?_⟩
    -- An error of the first stretch is not after its end, and one of the second not before it.
    intro e member f member'
    obtain ⟨after, -⟩ := second.holds f member'
    have bound := (second.holds f member').le_last
    refine ⟨fun valid _ => (first.reached e member valid).trans after, fun stops _ => ?_⟩
    have le := first.reached e member (ParseError.Cause.ne_invalidTarget stops)
    rcases first.passed e member stops with less | ended
    · exact .inl (by omega)
    · have end' : m.last = m.position := by simp [State.last, ended]
      have same := first.last
      omega

theorem note {cause : ParseError.Cause} {t : Token} {index : Nat} (h : s.Spans ts es s')
    (goes : cause.stops = false) (held : s.Holds index t)
    (reached : cause ≠ .invalidTarget → es = [] ∧ index ≤ s'.position) :
    s.Spans ts (es ++ [⟨cause, t, index⟩])
      { s' with errors := s'.errors.push ⟨cause, t, index⟩ } := by
  refine ⟨h.rest, h.position, h.eof, h.tooDeep, ?_, ?_, ?_, ?_, ?_⟩
  · rw [Array.toList_push, h.errors, List.append_assoc]
  · exact List.forall_mem_append.mpr ⟨h.holds, List.forall_mem_singleton.mpr held⟩
  · exact List.forall_mem_append.mpr
      ⟨h.reached, List.forall_mem_singleton.mpr fun valid => (reached valid).2⟩
  · exact List.forall_mem_append.mpr
      ⟨h.passed, List.forall_mem_singleton.mpr fun stops => by rw [goes] at stops; cases stops⟩
  · refine List.pairwise_append.mpr ⟨h.ordered, List.pairwise_singleton _ _, ?_⟩
    intro e member f last
    obtain rfl := List.mem_singleton.mp last
    refine ⟨fun _ valid => ?_, fun _ stops => by rw [goes] at stops; cases stops⟩
    rw [(reached valid).1] at member
    cases member

end State.Spans

structure State.Raises (m : State) (e : ParseError) (s' : State) : Prop where
  stops : e.cause.stops = true
  token : e.token = m.rest.headD m.eof
  index : e.index = m.position
  same : s' = { m with errors := m.errors.push e }

theorem State.Raises.spans {m m' s' : State} {e : ParseError} {u : Unit} (h : m.Raises e m')
    (skips : synchronize m' = .ok u s') : ∃ ts, m.Spans ts [e] s' := by
  obtain ⟨stops, token, index, rfl⟩ := h
  have held : m.Holds e.index e.token := by
    rw [index, token]
    exact m.holds_peek
  obtain ⟨rest, eof, position, errors, tooDeep⟩ := m
  cases rest with
  | nil =>
      cases skips
      exact ⟨[], rfl, rfl, rfl, rfl, Array.toList_push, List.forall_mem_singleton.mpr held,
        List.forall_mem_singleton.mpr fun _ => index.le,
        List.forall_mem_singleton.mpr fun _ => .inr rfl, List.pairwise_singleton _ _⟩
  | cons t rest =>
      cases skips
      obtain ⟨ts, read, moved⟩ := Orderly.skipStatement_eq t rest (position + 1)
      have less : e.index < (skipStatement t rest (position + 1)).2 := by
        rw [index, moved]
        dsimp only
        omega
      refine ⟨t :: ts, congrArg (t :: ·) read, ?_, rfl, rfl, Array.toList_push,
        List.forall_mem_singleton.mpr held, List.forall_mem_singleton.mpr fun _ => less.le,
        List.forall_mem_singleton.mpr fun _ => .inl less, List.pairwise_singleton _ _⟩
      rw [List.length_cons]
      dsimp only
      omega

/-! ## How reading ends -/

/-- From `s` to `s'` as many errors stopped as `stopped` says. If `nested` is set, there is none
but inside of braces. -/
def State.Leads (nested : Bool) (s : State) (stopped : Nat) (s' : State) : Prop :=
  ∃ ts es, s.Spans ts es s' ∧ es.countP (·.cause.stops) = stopped ∧
    (nested = true → stopped ≠ 0 → ∃ t ∈ ts, t.kind = .leftBrace)

namespace State.Leads

variable {nested : Bool} {s m s' : State} {n k : Nat}

theorem of_reads {ts : List Token} (h : s.Reads ts s') : s.Leads nested 0 s' :=
  ⟨ts, [], .of_reads h, rfl, fun _ left => absurd rfl left⟩

theorem refl (s : State) : s.Leads nested 0 s := of_reads (.refl s)

theorem trans (first : s.Leads nested n m) (second : m.Leads nested k s') :
    s.Leads nested (n + k) s' := by
  obtain ⟨ts, es, spans, count, inside⟩ := first
  obtain ⟨us, fs, spans', count', inside'⟩ := second
  refine ⟨ts ++ us, es ++ fs, spans.trans spans', by rw [List.countP_append, count, count'], ?_⟩
  intro needed left
  have one : n ≠ 0 ∨ k ≠ 0 := by omega
  rcases one with left | left
  · obtain ⟨t, member, brace⟩ := inside needed left
    exact ⟨t, List.mem_append_left _ member, brace⟩
  · obtain ⟨t, member, brace⟩ := inside' needed left
    exact ⟨t, List.mem_append_right _ member, brace⟩

theorem length_le (h : s.Leads nested n s') : s'.rest.length ≤ s.rest.length := by
  obtain ⟨ts, es, spans, -, -⟩ := h
  rw [spans.rest, List.length_append]
  omega

theorem weaken (h : s.Leads true n s') : s.Leads nested n s' := by
  obtain ⟨ts, es, spans, count, inside⟩ := h
  exact ⟨ts, es, spans, count, fun _ => inside rfl⟩

theorem unnest (h : s.Leads nested n s') : s.Leads false n s' := by
  obtain ⟨ts, es, spans, count, -⟩ := h
  exact ⟨ts, es, spans, count, nofun⟩

theorem braced {t : Token} (reads : s.Reads [t] m) (brace : t.kind = .leftBrace)
    (h : m.Leads false n s') : s.Leads nested n s' := by
  obtain ⟨ts, es, spans, count, -⟩ := h
  exact ⟨t :: ts, es, (State.Spans.of_reads reads).trans spans, count,
    fun _ _ => ⟨t, List.mem_cons_self, brace⟩⟩

theorem note {ts : List Token} {cause : ParseError.Cause} {t : Token} {index : Nat}
    (h : s.Reads ts s') (goes : cause.stops = false) (held : s.Holds index t)
    (le : index ≤ s'.position) :
    s.Leads nested 0 { s' with errors := s'.errors.push ⟨cause, t, index⟩ } :=
  ⟨ts, _, (State.Spans.of_reads h).note goes held fun _ => ⟨rfl, le⟩, by simp [goes],
    fun _ left => absurd rfl left⟩

theorem note_target {t : Token} {index : Nat} (h : s.Leads nested 0 s') (held : s.Holds index t) :
    s.Leads nested 0 { s' with errors := s'.errors.push ⟨.invalidTarget, t, index⟩ } := by
  obtain ⟨ts, es, spans, count, -⟩ := h
  exact ⟨ts, _, spans.note rfl held fun valid => absurd rfl valid,
    by rw [List.countP_append, count]; rfl, fun _ left => absurd rfl left⟩

theorem of_raises {m' : State} {e : ParseError} {u : Unit} (h : m.Raises e m')
    (skips : synchronize m' = .ok u s') : m.Leads false 1 s' := by
  obtain ⟨ts, spans⟩ := h.spans skips
  exact ⟨ts, [e], spans, by simp [h.stops], nofun⟩

end State.Leads

inductive State.Ends (s : State) : EStateM.Result ParseError State α → Prop
  | ok {a s'} (leads : s.Leads true 0 s') : State.Ends s (.ok a s')
  | error {e m s'} (leads : s.Leads true 0 m) (raises : m.Raises e s') : State.Ends s (.error e s')

theorem State.Ends.after {s m : State} {r : EStateM.Result ParseError State α}
    (first : s.Leads true 0 m) (h : m.Ends r) : s.Ends r := by
  cases h with
  | ok leads => exact .ok (first.trans leads)
  | error leads raises => exact .error (first.trans leads) raises

/-- A parser that catches no errors, and never runs out of levels with ten of `room` for each token
that is left. -/
def Steady (room : Nat) (p : Parser α) : Prop :=
  ∀ s : State, 10 * s.rest.length ≤ room → s.Ends (p s)

namespace Steady

variable {room : Nat}

/-! ## Steps -/

theorem of_ok {p : Parser α} (h : ∀ s, ∃ a s', p s = .ok a s' ∧ s.Leads true 0 s') :
    Steady room p := by
  intro s _
  obtain ⟨a, s', read, leads⟩ := h s
  rw [read]
  exact .ok leads

theorem mono {less : Nat} {p : Parser α} (h : Steady room p) (le : less ≤ room) : Steady less p :=
  fun s fits => h s (fits.trans le)

theorem pure (a : α) : Steady room (Pure.pure a : Parser α) :=
  of_ok fun s => ⟨a, s, rfl, .refl s⟩

theorem bind {p : Parser α} {f : α → Parser β} (first : Steady room p)
    (next : ∀ a, Steady room (f a)) : Steady room (p >>= f) := by
  intro s fits
  have ended := first s fits
  simp only [Bind.bind, EStateM.bind]
  generalize p s = r at ended
  cases ended with
  | @ok a m leads => exact (next a m (by have := leads.length_le; omega)).after leads
  | error leads raises => exact .error leads raises

theorem map {p : Parser α} (f : α → β) (h : Steady room p) : Steady room (f <$> p) := by
  rw [map_eq_pure_bind]
  exact h.bind fun a => .pure (f a)

theorem ite {c : Prop} [Decidable c] {p q : Parser α} (yes : Steady room p) (no : Steady room q) :
    Steady room (if c then p else q) := by
  split
  · exact yes
  · exact no

theorem option {kinds : Token.Kind → Bool} {f : Option Token → Parser α}
    (found : ∀ t less, less + 10 ≤ room → Steady less (f (some t))) (other : Steady room (f none)) :
    Steady room (Parser.accept? kinds >>= f) := by
  intro s fits
  rcases accept?_cases kinds s with ⟨t, m, -, reads, accepted⟩ | ⟨-, accepted⟩
  · rw [bind_eq accepted]
    have taken := reads.length_one
    exact (found t (10 * m.rest.length) (by omega) m le_rfl).after (.of_reads reads)
  · rw [bind_eq accepted]
    exact other s fits

theorem branch {kind : Token.Kind} {p q : Parser α} (yes : ∀ less, less + 10 ≤ room → Steady less p)
    (no : Steady room q) : Steady room (do if ← Parser.accept kind then p else q) := by
  have same : (do if ← Parser.accept kind then p else q) =
      Parser.accept? (· == kind) >>= fun o => if o.isSome then p else q := by
    simp only [Parser.accept, bind_assoc, pure_bind]
  rw [same]
  exact option (fun t => yes) no

theorem accept? (kinds : Token.Kind → Bool) : Steady room (accept? kinds) := by
  refine of_ok fun s => ?_
  rcases accept?_cases kinds s with ⟨t, m, -, reads, accepted⟩ | ⟨-, accepted⟩
  · exact ⟨_, _, accepted, .of_reads reads⟩
  · exact ⟨_, _, accepted, .refl s⟩

theorem accept (kind : Token.Kind) : Steady room (accept kind) :=
  (accept? _).bind fun _ => .pure _

theorem check (kinds : Token.Kind → Bool) : Steady room (check kinds) :=
  of_ok fun s => ⟨_, s, check_eq kinds s, .refl s⟩

theorem atEnd : Steady room atEnd := of_ok fun s => ⟨_, s, rfl, .refl s⟩

theorem remaining : Steady room remaining := of_ok fun s => ⟨_, s, rfl, .refl s⟩

theorem noteHere {cause : ParseError.Cause} (goes : cause.stops = false) :
    Steady room (noteHere cause) :=
  of_ok fun s => ⟨(), _, rfl, .note (.refl s) goes s.holds_peek le_rfl⟩

theorem fail {cause : ParseError.Cause} (stops : cause.stops = true) :
    Steady room (fail cause : Parser α) := by
  intro s _
  rw [fail_eq]
  exact .error (.refl s) ⟨stops, rfl, rfl, rfl⟩

theorem expect (kind : Token.Kind) {cause : ParseError.Cause} (stops : cause.stops = true) :
    Steady room (expect kind cause) :=
  (accept? _).bind fun o => match o with
    | some t => .pure t
    | none => .fail stops

theorem expectMark (mark : ParseError.Mark) (place : ParseError.Place) :
    Steady room (expectMark mark place) :=
  (expect _ rfl).map fun _ => ()

theorem expectName (role : ParseError.Role) : Steady room (expectName role) := expect _ rfl

theorem commaListAfter (role : ParseError.Role) {item : Parser α} (h : Steady room item)
    (bound : List Token) (count : Nat) (done : List α) :
    Steady room (commaListAfter role item bound count done) := by
  induction bound generalizing count done with
  | nil =>
      have round : Steady room (commaRound role item [] count done) := h.bind fun a => .pure _
      rw [commaListAfter_eq]
      exact .ite ((noteHere rfl).bind fun _ => round) round
  | cons t bound ih =>
      have round : Steady room (commaRound role item (t :: bound) count done) :=
        h.bind fun a => (accept _).bind fun _ => .ite (ih _ _) (.pure _)
      rw [commaListAfter_eq]
      exact .ite ((noteHere rfl).bind fun _ => round) round

theorem commaList (role : ParseError.Role) {item : Parser α} (h : Steady room item) :
    Steady room (commaList role item) :=
  (check _).bind fun _ => .ite (.pure _) <|
    remaining.bind fun bound => commaListAfter role h bound 0 []

/-! ## Expressions -/

theorem chainAfter (p : Precedence) {operand : Parser Expr} (h : Steady room operand)
    (bound : List Token) (left : Expr) : Steady room (chainAfter p operand bound left) := by
  induction bound generalizing left with
  | nil => exact .pure left
  | cons t bound ih =>
      refine (accept? _).bind fun o => ?_
      cases o with
      | none => exact .pure left
      | some op => exact h.bind fun right => ih _

theorem callsAfter {argument : Parser Expr} (h : ∀ less, less + 10 ≤ room → Steady less argument)
    (bound : List Token) (callee : Expr) : Steady room (callsAfter argument bound callee) := by
  induction bound generalizing callee with
  | nil => exact .pure callee
  | cons t bound ih =>
      refine branch (fun less le => ?_) (.pure callee)
      exact (commaList _ (h less le)).bind fun args => (expect _ rfl).bind fun paren =>
        (ih _).mono (by omega)

theorem primary {inner : Parser Expr} (h : ∀ less, less + 10 ≤ room → Steady less inner) :
    Steady room (primary inner) := by
  refine branch (fun _ _ => .pure _) <| branch (fun _ _ => .pure _) <|
    branch (fun _ _ => .pure _) <| option (fun _ _ _ => .pure _) <|
    option (fun _ _ _ => .pure _) <| branch (fun less le => ?_) (fail rfl)
  exact (h less le).bind fun inside => (expectMark _ _).bind fun _ => .pure _

theorem assignTo_ends {s m : State} {equals : Token} {index : Nat} (leads : s.Leads true 0 m)
    (held : s.Holds index equals) (target value : Expr) :
    s.Ends (assignTo target equals index value m) := by
  unfold assignTo
  split
  · exact .ok leads
  · exact .ok (leads.note_target held)

theorem assignment {value : Parser Expr} (h : ∀ less, less + 10 ≤ room → Steady less value)
    (target : Expr) :
    Steady room (do
      let index ← Parser.position
      match ← Parser.accept? (· == .equal) with
      | none => return target
      | some equals => assignTo target equals index (← value)) := by
  intro s fits
  rw [bind_eq (position_eq s)]
  rcases accept?_cases (· == .equal) s with ⟨equals, m, -, reads, accepted⟩ | ⟨-, accepted⟩
  · rw [bind_eq accepted]
    have taken := reads.length_one
    have ended := h (10 * m.rest.length) (by omega) m le_rfl
    simp only [Bind.bind, EStateM.bind]
    generalize value m = r at ended
    cases ended with
    | error leads raises => exact .error ((State.Leads.of_reads reads).trans leads) raises
    | ok leads =>
        exact assignTo_ends ((State.Leads.of_reads reads).trans leads) reads.holds target _
  · rw [bind_eq accepted]
    exact .ok (.refl s)

theorem expression (depth : Nat) (l : Level) (fits : room + height l ≤ depth) :
    Steady room (expression depth l) := by
  induction depth generalizing l room with
  | zero =>
      have positive := Grammar.height_pos l
      omega
  | succ depth ih =>
      rcases l with _ | p | _ | _ | _
      case assignment =>
        simp only [height] at fits
        exact (ih _ (by simp only [height]; omega)).bind
          (assignment fun less le => ih _ (by simp only [height]; omega))
      case chain =>
        have operand : Steady room (Parser.expression depth p.operand) :=
          ih _ (by cases p <;> simp only [height, Precedence.operand] at fits ⊢ <;> omega)
        exact operand.bind fun first => remaining.bind fun bound => chainAfter p operand bound first
      case unary =>
        simp only [height] at fits
        exact option (fun op less le => (ih _ (by simp only [height]; omega)).bind fun _ => .pure _)
          (ih _ (by simp only [height]; omega))
      case call =>
        simp only [height] at fits
        exact (ih _ (by simp only [height]; omega)).bind fun callee => remaining.bind fun bound =>
          callsAfter (fun less le => ih _ (by simp only [height]; omega)) bound callee
      case primary =>
        simp only [height] at fits
        exact primary fun less le => ih _ (by simp only [height]; omega)

/-! ## Declarations and statements without others inside -/

section
variable {e : Parser Expr} (he : Steady room e)
include he

theorem clause {kinds : Token.Kind → Bool} {f : Option Expr → Parser β}
    (next : ∀ value, Steady room (f value)) :
    Steady room (do
      if ← Parser.check kinds then
        let value ← Pure.pure none
        f value
      else
        let value ← some <$> e
        f value) :=
  (check _).bind fun _ => .ite ((pure _).bind next) ((he.map _).bind next)

theorem varDeclaration : Steady room (varDeclaration e) :=
  (expectName _).bind fun name => (accept _).bind fun _ =>
    have ends := fun value => (expectMark _ _).bind fun _ => .pure (Stmt.varDecl name value)
    .ite ((he.map _).bind ends) ((pure _).bind ends)

theorem expressionStatement : Steady room (expressionStatement e) :=
  he.bind fun _ => (expectMark _ _).bind fun _ => .pure _

theorem printStatement : Steady room (printStatement e) :=
  he.bind fun _ => (expectMark _ _).bind fun _ => .pure _

theorem forInitializer : Steady room (forInitializer e) :=
  (accept _).bind fun _ => .ite (.pure _) <| (accept _).bind fun _ =>
    .ite ((varDeclaration he).map _) ((expressionStatement he).map _)

theorem returnValue (keyword : Token) : Steady room (do
    let value ← if ← Parser.check (· == .semicolon) then Pure.pure none else some <$> e
    Parser.expectMark .semicolon .afterReturnValue
    return Stmt.returnStmt keyword value) :=
  he.clause fun _ => (expectMark _ _).bind fun _ => .pure _

theorem simpleStatement (inFunction : Bool) :
    Steady room (simpleStatement inFunction e) := by
  intro s fits
  rw [Parser.simpleStatement, bind_eq (position_eq s)]
  rcases accept?_cases (· == .returnWord) s with ⟨keyword, m, -, reads, accepted⟩ | ⟨-, accepted⟩
  · rw [bind_eq accepted]
    have taken := reads.length_one
    have ended := he.returnValue keyword
    cases inFunction with
    | true => exact (ended m (by omega)).after (.of_reads reads)
    | false =>
        have le : s.position ≤ m.position := by rw [reads.same]; simp
        have noted : s.Leads true 0 { m with
            errors := m.errors.push ⟨.topLevelReturn, keyword, s.position⟩ } :=
          .note reads rfl reads.holds le
        refine State.Ends.after noted ?_
        exact ended _ (by dsimp only; omega)
  · rw [bind_eq accepted]
    exact he.expressionStatement s fits

end

end Steady

end Parser

end Lox
