import Lox.Parser.State
import Lox.Proofs.Grammar.Lookahead
import Lox.Proofs.Step

namespace Lox.Parser
open Grammar (faces faces_mono faces_of_eq)

variable {α β : Type}

/-! ## Reading tokens -/

/-- From `s` exactly the tokens `ts` were read to arrive at `s'`, and nothing was noted. -/
structure State.Reads (s : State) (ts : List Token) (s' : State) : Prop where
  rest : s.rest = ts ++ s'.rest
  same : s' = { s with rest := s'.rest, position := s.position + ts.length }

def State.Clean (s : State) : Prop := s.errors = #[] ∧ s.tooDeep = false

namespace State.Reads

variable {s m s' : State} {ts us : List Token}

theorem refl (s : State) : s.Reads [] s := ⟨rfl, rfl⟩

theorem eq_of_nil (h : s.Reads [] s') : s' = s := by
  obtain ⟨rest, same⟩ := h
  rw [same, ← List.nil_append s'.rest, ← rest]
  rfl

theorem clean (h : s.Reads ts s') : s.Clean ↔ s'.Clean := by
  rw [State.Clean, State.Clean, h.same]

theorem length_one {t : Token} (h : s.Reads [t] s') : s.rest.length = s'.rest.length + 1 := by
  rw [h.rest, List.length_append, List.length_singleton, Nat.add_comm]

theorem trans (first : s.Reads ts m) (second : m.Reads us s') : s.Reads (ts ++ us) s' := by
  refine ⟨by rw [first.rest, second.rest, List.append_assoc], ?_⟩
  have same := second.same
  rw [first.same] at same
  rw [same]
  simp [Nat.add_assoc]

theorem split (h : s.Reads (ts ++ us) s') : ∃ m, s.Reads ts m ∧ m.Reads us s' := by
  refine ⟨{ s with rest := us ++ s'.rest, position := s.position + ts.length },
    ⟨by rw [h.rest, List.append_assoc], rfl⟩, rfl, ?_⟩
  have same := h.same
  simpa [Nat.add_assoc] using same

theorem cons {t : Token} (first : s.Reads [t] m) (second : m.Reads ts s') :
    s.Reads (t :: ts) s' := first.trans second

theorem uncons {t : Token} (h : s.Reads (t :: ts) s') : ∃ m, s.Reads [t] m ∧ m.Reads ts s' :=
  @split s s' [t] ts h

end State.Reads

theorem State.Reads.faces {s s' : State} {t : Token} {ts : List Token} (h : s.Reads (t :: ts) s')
    (kinds : Token.Kind → Bool) : faces s.rest kinds = kinds t.kind := by
  simp [Grammar.faces, h.rest]

/-! ## Steps that succeed -/

theorem accept?_eq (kinds : Token.Kind → Bool) (s : State) :
    accept? kinds s = match s.rest with
      | [] => .ok none s
      | t :: rest =>
          if kinds t.kind then .ok (some t) { s with rest, position := s.position + 1 }
          else .ok none s := by
  obtain ⟨rest, eof, position, errors, tooDeep⟩ := s
  cases rest with
  | nil => rfl
  | cons t rest => cases h : kinds t.kind <;> simp [accept?, advance, bind, EStateM.bind, get,
      getThe, MonadStateOf.get, EStateM.get, h, pure, EStateM.pure, modify, modifyGet,
      MonadStateOf.modifyGet, EStateM.modifyGet]

theorem accept?_reads {kinds : Token.Kind → Bool} {s s' : State} {t : Token}
    (h : s.Reads [t] s') (kind : kinds t.kind = true) : accept? kinds s = .ok (some t) s' := by
  rw [accept?_eq, h.rest]
  have same := h.same
  simp only [List.length_cons, List.length_nil, Nat.zero_add] at same
  simp only [List.cons_append, List.nil_append, kind, if_true]
  exact congrArg _ same.symm

theorem accept?_stays {kinds : Token.Kind → Bool} {s : State} (no : faces s.rest kinds = false) :
    accept? kinds s = .ok none s := by
  rw [accept?_eq]
  cases h : s.rest with
  | nil => rfl
  | cons t rest =>
      have other : kinds t.kind = false := by simpa [faces, h] using no
      simp [other]

theorem accept?_ok {kinds : Token.Kind → Bool} {s s' : State} {o : Option Token}
    (h : accept? kinds s = .ok o s') :
    (∃ t, o = some t ∧ kinds t.kind = true ∧ s.Reads [t] s') ∨
      (o = none ∧ s' = s ∧ faces s.rest kinds = false) := by
  cases next : s.rest with
  | nil =>
      have no : faces s.rest kinds = false := by simp [faces, next]
      rw [accept?_stays no] at h
      cases h
      exact .inr ⟨rfl, rfl, by simp [faces]⟩
  | cons t rest =>
      cases kind : kinds t.kind with
      | true =>
          have reads : s.Reads [t] { s with rest, position := s.position + 1 } := ⟨next, rfl⟩
          rw [accept?_reads reads kind] at h
          cases h
          exact .inl ⟨t, rfl, kind, reads⟩
      | false =>
          have no : faces s.rest kinds = false := by simp [faces, next, kind]
          rw [accept?_stays no] at h
          cases h
          exact .inr ⟨rfl, rfl, by simp [faces, kind]⟩

theorem accept?_cases (kinds : Token.Kind → Bool) (s : State) :
    (∃ t m, kinds t.kind = true ∧ s.Reads [t] m ∧ accept? kinds s = .ok (some t) m) ∨
      (faces s.rest kinds = false ∧ accept? kinds s = .ok none s) := by
  cases next : faces s.rest kinds with
  | false => exact .inr ⟨rfl, accept?_stays next⟩
  | true =>
      cases rest : s.rest with
      | nil => simp [rest, faces] at next
      | cons t ts =>
          have kind : kinds t.kind = true := by simpa [rest, faces] using next
          have reads : s.Reads [t] { s with rest := ts, position := s.position + 1 } := ⟨rest, rfl⟩
          exact .inl ⟨t, _, kind, reads, accept?_reads reads kind⟩

theorem accept_reads {kind : Token.Kind} {s s' : State} {t : Token} (h : s.Reads [t] s')
    (same : t.kind = kind) : accept kind s = .ok true s' := by
  have found : accept? (· == kind) s = .ok (some t) s' := accept?_reads h (by simp [same])
  simp only [accept, bind, EStateM.bind, found]
  rfl

theorem accept_stays {kind : Token.Kind} {s : State} (no : faces s.rest (· == kind) = false) :
    accept kind s = .ok false s := by
  simp only [accept, bind, EStateM.bind, accept?_stays no]
  rfl

theorem accept_ok {kind : Token.Kind} {s s' : State} {b : Bool} (h : accept kind s = .ok b s') :
    (∃ t, b = true ∧ t.kind = kind ∧ s.Reads [t] s') ∨
      (b = false ∧ s' = s ∧ faces s.rest (· == kind) = false) := by
  simp only [accept, bind_ok, pure_ok] at h
  obtain ⟨o, m, h, rfl, rfl⟩ := h
  rcases accept?_ok h with ⟨t, rfl, same, reads⟩ | ⟨rfl, rfl, no⟩
  · exact .inl ⟨t, rfl, by simpa using same, reads⟩
  · exact .inr ⟨rfl, rfl, no⟩

theorem accept_cases (kind : Token.Kind) (s : State) :
    (∃ t m, t.kind = kind ∧ s.Reads [t] m ∧ accept kind s = .ok true m) ∨
      (faces s.rest (· == kind) = false ∧ accept kind s = .ok false s) := by
  rcases accept?_cases (· == kind) s with ⟨t, m, same, reads, -⟩ | ⟨no, -⟩
  · have same : t.kind = kind := by simpa using same
    exact .inl ⟨t, m, same, reads, accept_reads reads same⟩
  · exact .inr ⟨no, accept_stays no⟩

theorem check_eq (kinds : Token.Kind → Bool) (s : State) :
    check kinds s = .ok (faces s.rest kinds) s := by
  obtain ⟨rest, eof, position, errors, tooDeep⟩ := s
  cases rest <;> rfl

theorem atEnd_eq (s : State) : atEnd s = .ok s.rest.isEmpty s := rfl

theorem remaining_eq (s : State) : remaining s = .ok s.rest s := rfl

theorem position_eq (s : State) : position s = .ok s.position s := rfl

theorem note_unclean {cause : ParseError.Cause} {t : Token} {i : Nat} {s s' : State} {u : Unit}
    (h : note cause t i s = .ok u s') : ¬ s'.Clean := by
  cases h
  simp [State.Clean]

theorem noteHere_unclean {cause : ParseError.Cause} {s s' : State} {u : Unit}
    (h : noteHere cause s = .ok u s') : ¬ s'.Clean := by
  cases h
  simp [State.Clean]

theorem fail_eq (cause : ParseError.Cause) (s : State) :
    (fail cause : Parser α) s = .error ⟨cause, s.rest.headD s.eof, s.position⟩
      { s with errors := s.errors.push ⟨cause, s.rest.headD s.eof, s.position⟩ } := rfl

theorem fail_ne_ok {cause : ParseError.Cause} {s s' : State} {a : α} :
    fail cause s ≠ .ok a s' := by
  simp [fail_eq]

theorem expect_reads {kind : Token.Kind} {cause : ParseError.Cause} {s s' : State} {t : Token}
    (h : s.Reads [t] s') (same : t.kind = kind) : expect kind cause s = .ok t s' := by
  have found : accept? (· == kind) s = .ok (some t) s' := accept?_reads h (by simp [same])
  simp only [expect, bind, EStateM.bind, found]
  rfl

theorem expect_ok {kind : Token.Kind} {cause : ParseError.Cause} {s s' : State} {t : Token}
    (h : expect kind cause s = .ok t s') : t.kind = kind ∧ s.Reads [t] s' := by
  simp only [expect, bind_ok] at h
  obtain ⟨o, m, accepted, h⟩ := h
  rcases accept?_ok accepted with ⟨u, rfl, same, reads⟩ | ⟨rfl, rfl, -⟩
  · obtain ⟨rfl, rfl⟩ := pure_ok.mp h
    exact ⟨by simpa using same, reads⟩
  · exact absurd h fail_ne_ok

theorem expectMark_fails (mark : ParseError.Mark) (place : ParseError.Place) {s : State}
    (no : faces s.rest (· == mark.kind) = false) :
    expectMark mark place s = fail (.missingMark mark place) s := by
  simp only [expectMark, expect, discard, Functor.discard, Functor.mapConst, Function.comp,
    EStateM.map, bind_eq (accept?_stays no), fail_eq]

theorem expectMark_reads (mark : ParseError.Mark) {place : ParseError.Place} {s s' : State}
    {t : Token} (h : s.Reads [t] s') (same : t.kind = mark.kind) :
    expectMark mark place s = .ok () s' := by
  simp only [expectMark, discard, Functor.discard, Functor.mapConst, Function.comp,
    EStateM.map, expect_reads h same]

theorem expectMark_ok {mark : ParseError.Mark} {place : ParseError.Place} {s s' : State} {u : Unit}
    (h : expectMark mark place s = .ok u s') : ∃ t, t.kind = mark.kind ∧ s.Reads [t] s' := by
  simp only [expectMark, discard, Functor.discard] at h
  obtain ⟨t, h, -⟩ := map_ok.mp h
  exact ⟨t, expect_ok h⟩

theorem failTooDeep_ne_ok {s s' : State} {a : α} : failTooDeep s ≠ .ok a s' := by
  rw [failTooDeep]
  intro h
  obtain ⟨m, m', -, h⟩ := bind_ok.mp h
  split at h
  · obtain ⟨t, m'', -, h⟩ := bind_ok.mp h
    obtain ⟨i, m₃, -, h⟩ := bind_ok.mp h
    cases h
  · obtain ⟨u, m'', -, h⟩ := bind_ok.mp h
    exact fail_ne_ok h

theorem failTooDeep_again {s : State} (deep : s.tooDeep = true) : (failTooDeep : Parser α) s =
    .error ⟨.nestedTooDeep, s.rest.headD s.eof, s.position⟩ s := by
  obtain ⟨rest, eof, position, errors, tooDeep⟩ := s
  cases deep
  rfl

theorem failTooDeep_first {s : State} (deep : s.tooDeep = false) : (failTooDeep : Parser α) s =
    .error ⟨.nestedTooDeep, s.rest.headD s.eof, s.position⟩
      { s with
        errors := s.errors.push ⟨.nestedTooDeep, s.rest.headD s.eof, s.position⟩
        tooDeep := true } := by
  obtain ⟨rest, eof, position, errors, tooDeep⟩ := s
  cases deep
  rfl

theorem recover_of_ok {p : Parser α} {s s' : State} {a : α} (h : p s = .ok a s') :
    recover p s = .ok (some a) s' := by
  simp only [recover, tryCatch, tryCatchThe, MonadExceptOf.tryCatch, EStateM.tryCatch, map_eq h]

theorem recover_of_error {p : Parser α} {s m : State} {e : ParseError} (h : p s = .error e m) :
    ∃ s', synchronize m = .ok () s' ∧ recover p s = .ok none s' := by
  refine ⟨_, rfl, ?_⟩
  simp only [recover, tryCatch, tryCatchThe, MonadExceptOf.tryCatch, EStateM.tryCatch,
    Functor.map, EStateM.map, h]
  rfl

/-! ## Ways on -/

theorem branch_ok {kind : Token.Kind} {p q : Parser α} {s s' : State} {a : α} :
    (do if ← accept kind then p else q) s = .ok a s' →
      (∃ t m, t.kind = kind ∧ s.Reads [t] m ∧ p m = .ok a s') ∨
        (faces s.rest (· == kind) = false ∧ q s = .ok a s') := by
  intro h
  obtain ⟨b, m, accepted, rest⟩ := bind_ok.mp h
  rcases accept_ok accepted with ⟨t, rfl, same, reads⟩ | ⟨rfl, rfl, no⟩
  · rw [if_pos rfl] at rest
    exact .inl ⟨t, m, same, reads, rest⟩
  · rw [if_neg Bool.false_ne_true] at rest
    exact .inr ⟨no, rest⟩

theorem option_ok {kinds : Token.Kind → Bool} {p : Option Token → Parser α}
    {s s' : State} {a : α} (h : (accept? kinds >>= p) s = .ok a s') :
    (∃ t m, kinds t.kind = true ∧ s.Reads [t] m ∧ p (some t) m = .ok a s') ∨
      (faces s.rest kinds = false ∧ p none s = .ok a s') := by
  obtain ⟨o, m, accepted, rest⟩ := bind_ok.mp h
  rcases accept?_ok accepted with ⟨t, rfl, kind, reads⟩ | ⟨rfl, rfl, no⟩
  · exact .inl ⟨t, m, kind, reads, rest⟩
  · exact .inr ⟨no, rest⟩

/-! ## Lists with commas -/

inductive Separated (item : List Token → α → Prop) : List Token → List α → Prop
  | none : Separated item [] []
  | last {ts a} (head : item ts a) : Separated item ts [a]
  | more {ts a comma us b bs} (head : item ts a) (mark : comma.kind = .comma)
      (others : Separated item us (b :: bs)) : Separated item (ts ++ comma :: us) (a :: b :: bs)

def Accepts (p : Parser α) (ts : List Token) (a : α) (stop : Token.Kind → Bool) : Prop :=
  ∀ s s' : State, s.Reads ts s' → faces s'.rest stop = false → p s = .ok a s'

/-- Where a parser notes nothing, it reads tokens that stand in a relation to its value. -/
def Recognizes (p : Parser α) (item : List Token → α → Prop) : Prop :=
  ∀ (s s' : State) (a : α), p s = .ok a s' → s'.Clean → ∃ ts, s.Reads ts s' ∧ item ts a

variable {item : List Token → α → Prop} {p : Parser α} {role : ParseError.Role}

def commaRound (role : ParseError.Role) (p : Parser α) (bound : List Token) (count : Nat)
    (done : List α) : Parser (List α) := do
  let done := (← p) :: done
  match bound with
  | [] => return done.reverse
  | _ :: bound =>
      if ← accept .comma then commaListAfter role p bound (count + 1) done
      else return done.reverse

theorem commaListAfter_eq (bound : List Token) (count : Nat) (done : List α) :
    commaListAfter role p bound count done =
      if 255 ≤ count then (do noteHere (.tooMany role); commaRound role p bound count done)
      else commaRound role p bound count done := by
  rw [commaListAfter]
  rfl

theorem commaListAfter_accepts {stop : Token.Kind → Bool} (comma : stop .comma = false)
    (accepts : ∀ ts a, item ts a → Accepts p ts a stop) {ts : List Token} {a : α} {as : List α}
    (items : Separated item ts (a :: as)) (bound : List Token) (count : Nat) (done : List α)
    (few : count + as.length < 255) (room : as.length ≤ bound.length) :
    Accepts (commaListAfter role p bound count done) ts (done.reverse ++ a :: as)
      (fun kind => stop kind || kind == .comma) := by
  intro s s' reads ends
  have stops : faces s'.rest stop = false := faces_mono (by simp +contextual) ends
  have noComma : faces s'.rest (· == .comma) = false := faces_mono (by simp +contextual) ends
  rw [commaListAfter_eq, if_neg (by omega), commaRound]
  cases items with
  | last head =>
      rw [bind_eq (accepts _ _ head s s' reads stops)]
      cases bound with
      | nil => simp [pure, EStateM.pure]
      | cons t bound =>
          dsimp only
          rw [bind_eq (accept_stays noComma)]
          simp [pure, EStateM.pure]
  | more head mark others =>
      obtain ⟨m, first, second⟩ := reads.split
      have ends' : faces m.rest stop = false := by rw [second.faces, mark, comma]
      rw [bind_eq (accepts _ _ head s m first ends')]
      cases bound with
      | nil => simp at room
      | cons t bound =>
          obtain ⟨m', comma', second⟩ := second.uncons
          dsimp only
          rw [bind_eq (accept_reads comma' mark), if_pos rfl]
          simp only [List.length_cons] at few room
          have tail := commaListAfter_accepts comma accepts others bound (count + 1) (a :: done)
            (by omega) (by omega) m' s' second ends
          rw [tail]
          simp

theorem Separated.length_le (nonempty : ∀ ts a, item ts a → 0 < ts.length) {ts : List Token}
    {as : List α} (items : Separated item ts as) : as.length ≤ ts.length := by
  induction items with
  | none => simp
  | last head =>
      have positive := nonempty _ _ head
      simp only [List.length_cons, List.length_nil]
      omega
  | more head mark others ih =>
      have positive := nonempty _ _ head
      simp only [List.length_append, List.length_cons] at ih ⊢
      omega

theorem Separated.faces {kinds : Token.Kind → Bool} (nonempty : ∀ ts a, item ts a → 0 < ts.length)
    (opening : ∀ ts a, item ts a → faces ts kinds = false) {ts : List Token} {as : List α}
    (items : Separated item ts as) : Grammar.faces ts kinds = false := by
  cases items with
  | none => rfl
  | last head => exact opening _ _ head
  | @more ts _ _ _ _ _ head mark others =>
      have positive := nonempty _ _ head
      have first := opening _ _ head
      cases ts with
      | nil => simp at positive
      | cons t ts => exact first

theorem commaList_accepts {stop : Token.Kind → Bool} (comma : stop .comma = false)
    (closing : stop .rightParen = false) (accepts : ∀ ts a, item ts a → Accepts p ts a stop)
    (nonempty : ∀ ts a, item ts a → 0 < ts.length)
    (opening : ∀ ts a, item ts a → faces ts (· == .rightParen) = false)
    {ts : List Token} {as : List α} (items : Separated item ts as) (few : as.length ≤ 255)
    {s s' : State} (reads : s.Reads ts s') (closes : faces s'.rest (· == .rightParen) = true) :
    commaList role p s = .ok as s' := by
  have long := items.length_le nonempty
  have first := items.faces nonempty opening
  rw [commaList, bind_eq (check_eq _ s)]
  cases as with
  | nil =>
      cases items with
      | none =>
          obtain rfl := reads.eq_of_nil
          simp [closes, pure, EStateM.pure]
  | cons a as =>
      have opens : faces s.rest (· == .rightParen) = false := by
        cases ts with
        | nil => simp at long
        | cons t ts => rw [reads.faces]; exact first
      have room : as.length ≤ s.rest.length := by
        rw [reads.rest]
        simp only [List.length_append, List.length_cons] at long ⊢
        omega
      rw [opens, if_neg Bool.false_ne_true, bind_eq (remaining_eq s)]
      refine commaListAfter_accepts comma accepts items s.rest 0 [] ?_ room s s' reads ?_
      · simp only [List.length_cons] at few
        omega
      · simp [faces_of_eq closes, closing]

theorem commaListAfter_recognizes (recognizes : Recognizes p item) (bound : List Token)
    (count : Nat) (done : List α) {s s' : State} {list : List α}
    (h : commaListAfter role p bound count done s = .ok list s') (clean : s'.Clean) :
    ∃ ts a as, s.Reads ts s' ∧ Separated item ts (a :: as) ∧ list = done.reverse ++ a :: as ∧
      count + as.length < 255 := by
  have round : ∀ s, commaRound role p bound count done s = .ok list s' →
      ∃ ts a as, s.Reads ts s' ∧ Separated item ts (a :: as) ∧ list = done.reverse ++ a :: as ∧
        (count < 255 → count + as.length < 255) := by
    intro s h
    rw [commaRound, bind_ok] at h
    obtain ⟨a, m, first, h⟩ := h
    cases bound with
    | nil =>
        obtain ⟨rfl, rfl⟩ := pure_ok.mp h
        obtain ⟨ts, reads, head⟩ := recognizes _ _ _ first clean
        exact ⟨ts, a, [], reads, .last head, by simp, id⟩
    | cons t bound =>
        obtain ⟨b, m', accepted, rest⟩ := bind_ok.mp h
        rcases accept_ok accepted with ⟨comma, rfl, mark, comma'⟩ | ⟨rfl, rfl, -⟩
        · rw [if_pos rfl] at rest
          obtain ⟨us, b, bs, others, items, rfl, few⟩ :=
            commaListAfter_recognizes recognizes bound (count + 1) (a :: done) rest clean
          have clean' : m.Clean := (comma'.cons others).clean.mpr clean
          obtain ⟨ts, reads, head⟩ := recognizes _ _ _ first clean'
          refine ⟨ts ++ comma :: us, a, b :: bs, reads.trans (comma'.cons others),
            .more head mark items, by simp, fun _ => ?_⟩
          simp only [List.length_cons]
          omega
        · rw [if_neg Bool.false_ne_true] at rest
          obtain ⟨rfl, rfl⟩ := pure_ok.mp rest
          obtain ⟨ts, reads, head⟩ := recognizes _ _ _ first clean
          exact ⟨ts, a, [], reads, .last head, by simp, id⟩
  rw [commaListAfter_eq] at h
  split at h
  · obtain ⟨u, m, noted, h⟩ := bind_ok.mp h
    obtain ⟨ts, a, as, reads, -⟩ := round m h
    exact absurd (reads.clean.mpr clean) (noteHere_unclean noted)
  · obtain ⟨ts, a, as, reads, items, rfl, few⟩ := round s h
    exact ⟨ts, a, as, reads, items, rfl, few (by omega)⟩

theorem commaList_recognizes (recognizes : Recognizes p item) :
    Recognizes (commaList role p) fun ts as => Separated item ts as ∧ as.length ≤ 255 := by
  intro s s' as h clean
  rw [commaList] at h
  obtain ⟨closes, m, checked, h⟩ := bind_ok.mp h
  rw [check_eq] at checked
  cases checked
  split at h
  · obtain ⟨rfl, rfl⟩ := pure_ok.mp h
    exact ⟨[], .refl _, .none, by simp⟩
  · obtain ⟨rest, m, look, h⟩ := bind_ok.mp h
    rw [remaining_eq] at look
    cases look
    obtain ⟨ts, a, as, reads, items, rfl, few⟩ := commaListAfter_recognizes recognizes _ 0 [] h clean
    refine ⟨ts, reads, items, ?_⟩
    simp only [List.reverse_nil, List.nil_append, List.length_cons]
    omega

end Lox.Parser
