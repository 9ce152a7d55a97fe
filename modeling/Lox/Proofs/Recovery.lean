import Lox.Proofs.Parser.Acceptance
import Lox.Proofs.Parser.Placement
import Lox.Proofs.Parser.Tally

namespace Lox.Parser
open Grammar (faces)

variable {depth : Nat}

theorem programAfter_rest (m : State) (bound : List Token) (done : List (Option Stmt))
    (deep : m.tooDeep = false) (more : m.rest.length ≤ bound.length) :
    ∃ s', programAfter depth bound done m = .ok (done.reverse ++ (parse depth m.rest m.eof).1) s' ∧
      s'.errors.toList =
        m.errors.toList ++ (parse depth m.rest m.eof).2.map (·.shift m.position) := by
  obtain ⟨items, s, read⟩ := programAfter_total depth m.rest (start m.rest m.eof)
  let w : Place := ⟨m.position, m.errors, [], m.eof⟩
  have place : w.state (start m.rest m.eof) = m := by
    obtain ⟨rest, eof, position, errors, tooDeep⟩ := m
    cases deep
    simp [w, Place.state, start]
  have alone : parse depth m.rest m.eof = (items, s.errors.toList) := by
    have read' : program depth (start m.rest m.eof) = .ok items s := read []
    simp only [parse, read']
  have placed := Placed.programAfter (w := w) (s := start m.rest m.eof) depth le_rfl more done
  obtain ⟨advances, same⟩ := placed.ok (read done)
  have there := same (.inr ⟨rfl, advances.eof.symm⟩)
  rw [place] at there
  refine ⟨_, by rw [alone]; exact there, ?_⟩
  rw [alone]
  simp [w, Place.state]

theorem parse_append {A T : List Token} {eof : Token} {body : List Stmt}
    {items : List (Option Stmt)} {s : State} (accepted : Grammar.Declarations depth false A body)
    (next : faces T (· == .elseWord) = false)
    (read : programAfter depth ((A ++ T).drop body.length) (body.map some).reverse
      ⟨T, eof, A.length, #[], false⟩ = .ok items s) :
    parse depth (A ++ T) eof = (items, s.errors.toList) := by
  have reads : (start (A ++ T) eof).Reads A ⟨T, eof, A.length, #[], false⟩ :=
    ⟨rfl, by simp [start]⟩
  have le := Declarations.length_le accepted
  have begun := programAfter_then accepted reads next (A ++ T) []
    (by rw [List.length_append]; omega)
  rw [List.append_nil, read] at begun
  have read' : program depth (start (A ++ T) eof) = .ok items s := begun
  simp only [parse, read']

theorem skipStatement_to_end {last close : Token} {rest : List Token} (following : List Token)
    (skipped : Nat) (inside : ∀ t ∈ (last :: rest).dropLast, t.kind ≠ .semicolon)
    (ends : (last :: rest).getLast? = some close) (closes : close.kind = .semicolon)
    (plain : ∀ t ∈ rest, t.kind.startsStatement = false) :
    skipStatement last (rest ++ following) skipped = (following, skipped + rest.length) := by
  induction rest generalizing last skipped with
  | nil =>
      obtain rfl : last = close := by simpa using ends
      cases following <;> simp [skipStatement, closes]
  | cons t rest ih =>
      have other := inside last (by simp)
      have goes : t.kind.startsStatement = false := plain t (by simp)
      rw [List.cons_append, skipStatement, if_neg (by simp [other, goes]),
        ih (skipped + 1) (fun u member => inside u (by simp [member])) (by simpa using ends)
          (fun u member => plain u (List.mem_cons_of_mem _ member)), List.length_cons]
      simp only [Prod.mk.injEq, true_and]
      omega

theorem synchronize_eq {s : State} {t : Token} {ts : List Token} (h : s.rest = t :: ts) :
    synchronize s = .ok () { s with
      rest := (skipStatement t ts (s.position + 1)).1
      position := (skipStatement t ts (s.position + 1)).2 } := by
  obtain ⟨rest, eof, position, errors, tooDeep⟩ := s
  cases h
  rfl

theorem synchronize_errors {s s' : State} {u : Unit} (h : synchronize s = .ok u s') :
    s'.errors = s.errors := by
  obtain ⟨rest, eof, position, errors, tooDeep⟩ := s
  cases rest <;> cases h <;> rfl

/-- A declaration without braces whose only semicolon is its last token, and after the token at
`index` no statement begins in it. -/
structure Faulty (M : List Token) (index : Nat) : Prop where
  ends : ∃ front close, M = front ++ [close] ∧ close.kind = .semicolon ∧
    ∀ t ∈ front, t.kind ≠ .semicolon
  braces : ∀ t ∈ M, t.kind ≠ .leftBrace
  noElse : faces M (· == .elseWord) = false
  inside : index < M.length
  last : ∀ t ∈ M.drop (index + 1), t.kind.startsStatement = false

theorem State.Leads.noted {s s' : State} {n : Nat} (h : s.Leads true n s')
    (braces : ∀ t ∈ s.rest, t.kind ≠ .leftBrace) :
    ∃ ts es, s.Spans ts es s' ∧ ∀ e ∈ es, e.cause.stops = false := by
  obtain ⟨ts, es, spans, count, inside⟩ := h
  refine ⟨ts, es, spans, ?_⟩
  by_cases zero : n = 0
  · subst zero
    simpa using List.countP_eq_zero.mp count
  · obtain ⟨t, member, brace⟩ := inside rfl zero
    exact absurd brace (braces t (by rw [spans.rest]; exact List.mem_append_left _ member))

theorem declaration_stops {M : List Token} {eof : Token} {item : Option Stmt} {s : State}
    {e : ParseError} (room : 10 * M.length + 12 ≤ depth) (braces : ∀ t ∈ M, t.kind ≠ .leftBrace)
    (read : declaration depth false (start M eof) = .ok item s) (member : e ∈ s.errors.toList)
    (stops : e.cause.stops = true) :
    ∃ ts noted m, (start M eof).Spans ts noted m ∧ (∀ e' ∈ noted, e'.cause.stops = false) ∧
      e.index = m.position ∧ s.errors = m.errors.push e ∧
      construct depth false (start M eof) = .error e { m with errors := m.errors.push e } := by
  obtain ⟨q, tallied⟩ := Tallied.construct depth false room
  have ended := tallied (start M eof) 0 le_rfl
  generalize q (start M eof, 0) = r at ended
  rw [declaration_eq] at read
  cases inner : construct depth false (start M eof) with
  | ok a m =>
      rw [recover_of_ok inner] at read
      cases read
      rw [inner] at ended
      cases ended with
      | ok leads =>
          -- The construct was read to its end, so all of its errors are noted ones.
          obtain ⟨ts, noted, spans, quiet⟩ := leads.noted braces
          rw [spans.errors] at member
          have goes := quiet e (by simpa [start] using member)
          rw [stops] at goes
          cases goes
  | error e' m' =>
      obtain ⟨s', skips, recovered⟩ := recover_of_error inner
      rw [recovered] at read
      cases read
      rw [inner] at ended
      cases ended with
      | @error _ m _ _ leads raises =>
          obtain ⟨ts, noted, spans, quiet⟩ := leads.noted braces
          obtain ⟨-, -, index, rfl⟩ := raises
          have errors : s.errors = m.errors.push e' := synchronize_errors skips
          rw [errors, Array.toList_push, spans.errors] at member
          rcases List.mem_append.mp member with member | member
          · have goes := quiet e (by simpa [start] using member)
            rw [stops] at goes
            cases goes
          · obtain rfl := List.mem_singleton.mp member
            exact ⟨ts, noted, m, spans, quiet, index, errors, rfl⟩

namespace Faulty

variable {M : List Token}

theorem skip {ts rest : List Token} {t : Token} {index : Nat} (h : Faulty M index)
    (read : M = ts ++ t :: rest) (stopped : index = ts.length) (C : List Token) (skipped : Nat) :
    skipStatement t (rest ++ C) skipped = (C, skipped + rest.length) := by
  obtain ⟨front, close, same, closes, inner⟩ := h.ends
  have joined : ts ++ t :: rest = front ++ [close] := read.symm.trans same
  have front_eq : ts ++ (t :: rest).dropLast = front := by
    rw [← List.dropLast_append_of_ne_nil (List.cons_ne_nil t rest), joined, List.dropLast_concat]
  have ends : (t :: rest).getLast? = some close := by
    have last := congrArg List.getLast? joined
    rwa [List.getLast?_append_of_ne_nil _ (List.cons_ne_nil t rest), List.getLast?_concat] at last
  have left : M.drop (index + 1) = rest := by
    rw [read, stopped, ← List.drop_drop, List.drop_left, List.drop_one, List.tail_cons]
  exact skipStatement_to_end C skipped
    (fun u member => inner u (front_eq ▸ List.mem_append_right _ member)) ends closes
    (left ▸ h.last)

/-- A faulty declaration is skipped to its end, wherever it stands and whatever follows it. -/
theorem skipped {C : List Token} {eof eof' : Token} {item : Option Stmt} {s : State}
    {e : ParseError} (h : Faulty M e.index) (room : 10 * M.length + 12 ≤ depth)
    (read : declaration depth false (start M eof') = .ok item s) (member : e ∈ s.errors.toList)
    (stops : e.cause.stops = true) (before : Nat) :
    declaration depth false ⟨M ++ C, eof, before, #[], false⟩ =
      .ok none ⟨C, eof, before + M.length, s.errors.map (·.shift before), false⟩ := by
  obtain ⟨ts, noted, ⟨rest, eof₀, position, noted₀, tooDeep⟩, spans, -, index, errors, inner⟩ :=
    declaration_stops room h.braces read member stops
  have whole : M = ts ++ rest := spans.rest
  have moved : position = ts.length := spans.position.trans (Nat.zero_add _)
  have deep : tooDeep = false := spans.tooDeep
  cases rest with
  | nil =>
      have inside := h.inside
      rw [whole, List.append_nil, index, moved] at inside
      exact absurd inside (Nat.lt_irrefl _)
  | cons t rest =>
      -- The token with the error is left, so nothing after `M` was looked at before it.
      let w : Place := ⟨before, #[], C, eof⟩
      have place : w.state (start M eof') = ⟨M ++ C, eof, before, #[], false⟩ := by
        simp [w, Place.state, start]
      obtain ⟨-, there⟩ := (Placed.construct (w := w) depth false (start M eof')).error inner
      rw [place] at there
      obtain ⟨s', skips, recovered⟩ := recover_of_error (there (.inl (List.cons_ne_nil _ _)))
      rw [synchronize_eq (show _ = t :: (rest ++ C) from rfl)] at skips
      cases skips
      rw [declaration_eq, recovered, h.skip whole (index.trans moved), errors]
      have length := congrArg List.length whole
      rw [List.length_append, List.length_cons] at length
      simp only [w, Place.state, deep, Array.empty_append, length, moved]
      congr 2
      omega

theorem nonempty {index : Nat} (h : Faulty M index) (C : List Token) :
    (M ++ C).isEmpty = false := by
  obtain ⟨front, close, rfl, -⟩ := h.ends
  simp

theorem begins {index : Nat} (h : Faulty M index) (C : List Token) :
    faces (M ++ C) (· == .elseWord) = false := by
  have noElse := h.noElse
  obtain ⟨front, close, rfl, -⟩ := h.ends
  cases front <;> exact noElse

end Faulty

section
variable {A : List Token} {eof : Token} {body : List Stmt}
  (accepted : Grammar.Declarations depth false A body)
include accepted

theorem parse_after {C : List Token} (next : faces C (· == .elseWord) = false) :
    parse depth (A ++ C) eof = (body.map some ++ (parse depth C eof).1,
      (parse depth C eof).2.map (·.shift A.length)) := by
  have short := Declarations.length_le accepted
  obtain ⟨s, read, errors⟩ := programAfter_rest ⟨C, eof, A.length, #[], false⟩
    ((A ++ C).drop body.length) (body.map some).reverse rfl (by simp; omega)
  rw [parse_append accepted next read, errors, List.reverse_reverse]
  rfl

theorem parse_after_faulty {M : List Token} {eof' : Token} {item : Option Stmt} {s : State}
    {e : ParseError} (faulty : Faulty M e.index) (room : 10 * M.length + 12 ≤ depth)
    (read : declaration depth false (start M eof') = .ok item s) (member : e ∈ s.errors.toList)
    (stops : e.cause.stops = true) (C : List Token) :
    parse depth (A ++ (M ++ C)) eof = (body.map some ++ none :: (parse depth C eof).1,
      s.errors.toList.map (·.shift A.length) ++
        (parse depth C eof).2.map (·.shift (A.length + M.length))) := by
  have short := Declarations.length_le accepted
  have inside := faulty.inside
  have skipped : declaration depth false ⟨M ++ C, eof, A.length, #[], false⟩ = _ :=
    faulty.skipped room read member stops A.length
  have more : C.length < ((A ++ (M ++ C)).drop body.length).length := by
    rw [List.length_drop, List.length_append, List.length_append]
    omega
  cases bound : (A ++ (M ++ C)).drop body.length with
  | nil => simp [bound] at more
  | cons t bound' =>
      rw [bound, List.length_cons] at more
      obtain ⟨s', rest, errors⟩ := programAfter_rest
        ⟨C, eof, A.length + M.length, s.errors.map (·.shift A.length), false⟩ bound'
        (none :: (body.map some).reverse) rfl (Nat.le_of_lt_succ more)
      have whole : programAfter depth (t :: bound') (body.map some).reverse
          ⟨M ++ C, eof, A.length, #[], false⟩ =
          .ok (body.map some ++ none :: (parse depth C eof).1) s' := by
        rw [programAfter, bind_eq (atEnd_eq _), faulty.nonempty C, if_neg Bool.false_ne_true,
          bind_eq skipped, rest]
        simp
      rw [parse_append accepted (faulty.begins C) (bound ▸ whole), errors, Array.toList_map]

end

/-- After an accepted text everything is read as if it stood alone. Where a faulty declaration comes
between, one declaration is missing, and its errors are added, of which only the last one stops. -/
theorem parse_recovers {A : List Token} {eof eof' : Token}
    (accepted : (parse depth A eof').2 = []) :
    (∀ C : List Token, faces C (· == .elseWord) = false →
      parse depth (A ++ C) eof = ((parse depth A eof').1 ++ (parse depth C eof).1,
        (parse depth C eof).2.map (·.shift A.length))) ∧
    ∀ (M : List Token) (eof'' : Token) (item : Option Stmt) (s : State) (e : ParseError),
      10 * M.length + 12 ≤ depth → Faulty M e.index →
      declaration depth false (start M eof'') = .ok item s → e ∈ s.errors.toList →
      e.cause.stops = true →
      ∃ noted, s.errors.toList = noted ++ [e] ∧ (∀ e' ∈ noted, e'.cause.stops = false) ∧
        ∀ C : List Token,
          parse depth (A ++ M ++ C) eof = ((parse depth A eof').1 ++ none :: (parse depth C eof).1,
            (noted ++ [e]).map (·.shift A.length) ++
              (parse depth C eof).2.map (·.shift (A.length + M.length))) := by
  obtain ⟨body, derived, answer⟩ := parse_derived accepted
  rw [answer]
  refine ⟨fun C next => parse_after derived next, ?_⟩
  intro M eof'' item s e room faulty read member stops
  obtain ⟨ts, noted, m, spans, quiet, -, errors, -⟩ :=
    declaration_stops room faulty.braces read member stops
  have all : s.errors.toList = noted ++ [e] := by
    rw [errors, Array.toList_push, spans.errors]
    rfl
  refine ⟨noted, all, quiet, fun C => ?_⟩
  rw [List.append_assoc, parse_after_faulty derived faulty room read member stops C, all]

theorem parse_recovers_between :
    let close : Token := ⟨.semicolon, ";", .nil, 1⟩
    let A : List Token := [⟨.number, "1", .number 1, 1⟩, close]
    let M : List Token := [⟨.number, "2", .number 2, 1⟩, ⟨.number, "3", .number 3, 1⟩, close]
    let eof : Token := ⟨.eof, "", .nil, 1⟩
    (parse 100 (A ++ M ++ A) eof).1 = (parse 100 A eof).1 ++ none :: (parse 100 A eof).1 := by
  intro close A M eof
  let e : ParseError :=
    ⟨.missingMark .semicolon .afterExpression, ⟨.number, "3", .number 3, 1⟩, 1⟩
  obtain ⟨noted, -, -, all⟩ := (@parse_recovers 100 A eof eof rfl).2 M eof none
    ⟨[], eof, 3, #[e], false⟩ e (by decide)
    ⟨⟨M.dropLast, close, rfl, rfl, by decide⟩, by decide, rfl, by decide, by decide⟩ rfl (by simp)
    rfl
  exact congrArg Prod.fst (all A)

end Lox.Parser
