import Lox.Proofs.Lexical.Division

namespace Lox

namespace Piece

variable {xs ys : List Char}

theorem takeWhile_cut {p : Char → Bool} (short : ((xs ++ ys).takeWhile p).length ≤ xs.length) :
    (xs ++ ys).takeWhile p = xs.takeWhile p ∧ (xs ++ ys).dropWhile p = xs.dropWhile p ++ ys := by
  induction xs with
  | nil =>
      have stops : ys.takeWhile p = [] := by simpa using short
      have whole := List.takeWhile_append_dropWhile (p := p) (l := ys)
      rw [stops, List.nil_append] at whole
      exact ⟨stops, whole⟩
  | cons x xs ih =>
      by_cases h : p x
      · simp only [List.cons_append, List.takeWhile_cons, h, if_true, List.length_cons] at short
        obtain ⟨taken, dropped⟩ := ih (Nat.le_of_succ_le_succ short)
        simp [h, taken, dropped]
      · simp [h]

theorem commentEnd_cut {n : Nat} (ends : commentEnd 0 (xs ++ ys) = some n)
    (short : n + 2 ≤ xs.length) : commentEnd 0 xs = some n := by
  obtain ⟨body, more, text, rfl, first⟩ := commentEnd_some ends
  obtain ⟨rest, same⟩ : body ++ ['*', '/'] <+: xs := by
    apply List.prefix_of_prefix_length_le _ (List.prefix_append xs ys) (by simpa using short)
    exact ⟨more, by simp [text]⟩
  rw [← same, List.append_assoc]
  exact commentEnd_first first 0 rest

theorem measureSlash_cut (short : (measureSlash (xs ++ ys)).2 ≤ xs.length) :
    measureSlash (xs ++ ys) = measureSlash xs := by
  cases xs with
  | nil =>
      cases ys with
      | nil => rfl
      | cons y ys =>
          by_cases line : y = '/'
          · subst line
            simp [measureSlash] at short
          by_cases block : y = '*'
          · subst block
            simp only [List.nil_append, measureSlash] at short
            split at short <;> simp at short
          · simp [measureSlash, line, block]
  | cons x xs =>
      by_cases line : x = '/'
      · subst line
        simp only [List.cons_append, measureSlash, List.length_cons] at short ⊢
        rw [(takeWhile_cut (by omega)).1]
      by_cases block : x = '*'
      · subst block
        simp only [List.cons_append, measureSlash, List.length_cons] at short ⊢
        cases ends : commentEnd 0 (xs ++ ys) with
        | some n =>
            rw [ends] at short
            rw [commentEnd_cut ends (by simpa using short)]
        | none =>
            -- An open comment goes on to the end of the text.
            obtain rfl : ys = [] := by
              simp only [ends, List.length_append] at short
              exact List.length_eq_zero_iff.mp (by omega)
            rw [List.append_nil] at ends ⊢
            rw [ends]
      · simp [measureSlash, line, block]

theorem measureString_cut (short : (measureString (xs ++ ys)).2 ≤ xs.length) :
    measureString (xs ++ ys) = measureString xs := by
  have inside : ((xs ++ ys).takeWhile (· != '"')).length ≤ (measureString (xs ++ ys)).2 := by
    unfold measureString
    split <;> simp
  obtain ⟨body, rest⟩ := takeWhile_cut (inside.trans short)
  have parts := congrArg List.length (List.takeWhile_append_dropWhile (p := (· != '"')) (l := xs))
  unfold measureString at short ⊢
  rw [body, rest] at short ⊢
  cases left : xs.dropWhile (· != '"') with
  | cons quote more => rfl
  | nil =>
      -- The string is open, or its quote comes after the cut.
      cases ys with
      | nil => rfl
      | cons y ys =>
          simp only [left, List.nil_append, List.length_append, List.length_nil] at short parts
          omega

def decimals : List Char → List Char
  | '.' :: more => more.takeWhile isDigit
  | _ => []

theorem measureNumber_eq (first : Char) (rest : List Char) :
    measureNumber first rest =
      let whole := rest.takeWhile isDigit
      let fraction := decimals (rest.dropWhile isDigit)
      (.token .number (.number (Number.ofDigits (first :: whole) fraction)),
        if fraction.isEmpty then whole.length else whole.length + 1 + fraction.length) := rfl

theorem decimals_cut (short : decimals (xs ++ ys) = [] ∨
    (decimals (xs ++ ys)).length + 1 ≤ xs.length) : decimals (xs ++ ys) = decimals xs := by
  cases xs with
  | nil =>
      rcases short with empty | further
      · exact empty
      · simp at further
  | cons x more =>
      by_cases point : x = '.'
      · subst point
        have fits : ((more ++ ys).takeWhile isDigit).length ≤ more.length := by
          rcases short with empty | further
          · rw [List.cons_append, decimals] at empty
            simp [empty]
          · exact Nat.le_of_succ_le_succ further
        exact (takeWhile_cut fits).1
      · simp [decimals, point]

theorem measureNumber_cut (first : Char) (short : (measureNumber first (xs ++ ys)).2 ≤ xs.length) :
    measureNumber first (xs ++ ys) = measureNumber first xs := by
  rw [measureNumber_eq] at short
  have inside : ((xs ++ ys).takeWhile isDigit).length ≤ xs.length := by
    refine Nat.le_trans ?_ short
    dsimp only
    split <;> omega
  obtain ⟨whole, rest⟩ := takeWhile_cut inside
  have parts := congrArg List.length (List.takeWhile_append_dropWhile (p := isDigit) (l := xs))
  rw [List.length_append] at parts
  rw [whole, rest] at short
  rw [measureNumber_eq, measureNumber_eq, whole, rest, decimals_cut]
  cases fraction : decimals (xs.dropWhile isDigit ++ ys) with
  | nil => exact .inl rfl
  | cons d ds =>
      simp only [fraction, List.isEmpty_cons, Bool.false_eq_true, if_false] at short
      exact .inr (by omega)

theorem measureWord_cut (first : Char) (short : (measureWord first (xs ++ ys)).2 ≤ xs.length) :
    measureWord first (xs ++ ys) = measureWord first xs := by
  simp only [measureWord, cutWord] at short ⊢
  rw [(takeWhile_cut short).1]

theorem measure_cut (first : Char) (short : (measure first (xs ++ ys)).2 ≤ xs.length) :
    measure first (xs ++ ys) = measure first xs := by
  revert short
  unfold measure
  cases single? first with
  | some kind => simp
  | none =>
      cases extendable? first with
      | some kinds =>
          intro short
          cases xs with
          | nil =>
              have plain : ys.head? ≠ some '=' := by
                intro extended
                simp [extended] at short
              simp [plain]
          | cons x xs => rfl
      | none =>
          simp only
          split
          · exact measureSlash_cut
          split
          · exact fun _ => rfl
          split
          · exact measureString_cut
          split
          · exact measureNumber_cut first
          split
          · exact measureWord_cut first
          · exact fun _ => rfl

end Piece

theorem flatMap_pieces (line : Nat) (cs : List Char) :
    (piecesAfter line 0 cs).flatMap Piece.text = cs := by
  have whole := (Lexical.divides_pieces line cs).flatMap
  rwa [List.flatMap_map] at whole

theorem piecesAfter_cut {line : Nat} {cs : List Char} {before after : List Piece}
    (whole : piecesAfter line 0 cs = before ++ after) :
    piecesAfter line 0 (before.flatMap Piece.text) = before := by
  induction before generalizing line cs with
  | nil => rfl
  | cons p before ih =>
      cases cs with
      | nil => cases whole
      | cons c cs =>
          rw [piecesAfter_cons, List.cons_append, List.cons.injEq, piecesAfter_skip] at whole
          obtain ⟨rfl, others⟩ := whole
          have rest := flatMap_pieces _ _ ▸ congrArg (List.flatMap Piece.text) others
          rw [List.flatMap_append] at rest
          have count := List.length_take_of_le (Piece.measure_le c cs)
          have text : cs = cs.take (Piece.measure c cs).2 ++ before.flatMap Piece.text ++
              after.flatMap Piece.text := by
            rw [List.append_assoc, ← rest, List.take_append_drop]
          have measured : Piece.measure c cs =
              Piece.measure c (cs.take (Piece.measure c cs).2 ++ before.flatMap Piece.text) := by
            conv_lhs => rw [text]
            apply Piece.measure_cut
            rw [← text, List.length_append, count]
            exact Nat.le_add_right _ _
          rw [List.flatMap_cons, List.cons_append, piecesAfter_cons, ← measured, piecesAfter_skip,
            List.take_left' count, List.drop_left' count, ih others]

theorem pieces_cut {cs : List Char} {before after : List Piece}
    (whole : (pieces cs).1 = before ++ after) : (pieces (before.flatMap Piece.text)).1 = before :=
  piecesAfter_cut whole

end Lox
