import Lox.Proofs.Piece

namespace Lox

namespace Piece

def Form.isOpen : Form → Bool
  | .openString | .openComment => true
  | _ => false

/-! ## Pieces do not go beyond a line end -/

theorem takeWhile_stop {p : Char → Bool} {c : Char} (stop : p c = false) (xs ys : List Char) :
    (xs ++ c :: ys).takeWhile p = xs.takeWhile p := by
  induction xs with
  | nil => simp [stop]
  | cons x xs ih =>
      simp only [List.cons_append, List.takeWhile_cons]
      rw [ih]

theorem dropWhile_stop {p : Char → Bool} {c : Char} (stop : p c = false) (xs ys : List Char) :
    (xs ++ c :: ys).dropWhile p = xs.dropWhile p ++ c :: ys := by
  induction xs with
  | nil => simp [stop]
  | cons x xs ih =>
      simp only [List.cons_append, List.dropWhile_cons]
      rw [ih]
      split
      · rfl
      · rfl

theorem commentEnd_append {passed n : Nat} {xs : List Char} (h : commentEnd passed xs = some n)
    (ys : List Char) : commentEnd passed (xs ++ ys) = some n := by
  induction xs generalizing passed with
  | nil => simp [commentEnd] at h
  | cons x xs ih =>
      by_cases ends : x = '*' ∧ ∃ tail, xs = '/' :: tail
      · obtain ⟨rfl, tail, rfl⟩ := ends
        exact h
      · have early : ∀ tail, x = '*' → xs = '/' :: tail → False := by
          intro tail star slash
          exact ends ⟨star, tail, slash⟩
        rw [commentEnd.eq_3 _ _ _ early] at h
        have goesOn := ih h
        have late : ∀ tail, x = '*' → xs ++ ys = '/' :: tail → False := by
          intro tail star slash
          cases xs with
          | nil => simp [commentEnd] at h
          | cons x' xs =>
              apply early xs star
              simp at slash
              rw [slash.1]
        rw [List.cons_append, commentEnd.eq_3 _ _ _ late]
        exact goesOn

theorem commentEnd_le {passed n : Nat} {xs : List Char} (h : commentEnd passed xs = some n) :
    n + 2 ≤ passed + xs.length := by
  induction xs generalizing passed with
  | nil => simp [commentEnd] at h
  | cons x xs ih =>
      by_cases ends : x = '*' ∧ ∃ tail, xs = '/' :: tail
      · obtain ⟨rfl, tail, rfl⟩ := ends
        simp [commentEnd] at h
        simp [h]
      · have early : ∀ tail, x = '*' → xs = '/' :: tail → False := by
          intro tail star slash
          exact ends ⟨star, tail, slash⟩
        rw [commentEnd.eq_3 _ _ _ early] at h
        have bound := ih h
        simp
        omega

variable (ys : List Char)

theorem measureSlash_append {xs : List Char} (closed : (measureSlash xs).1.isOpen = false) :
    measureSlash (xs ++ '\n' :: ys) = measureSlash xs := by
  cases xs with
  | nil => rfl
  | cons x xs =>
      by_cases line : x = '/'
      · subst line
        simp only [List.cons_append, measureSlash]
        rw [takeWhile_stop (by decide)]
      by_cases block : x = '*'
      · subst block
        simp only [List.cons_append, measureSlash] at closed ⊢
        cases ends : commentEnd 0 xs with
        | none => simp [ends, Form.isOpen] at closed
        | some n => rw [commentEnd_append ends]
      · simp [measureSlash, line, block]

theorem measureString_append {xs : List Char} (closed : (measureString xs).1.isOpen = false) :
    measureString (xs ++ ys) = measureString xs := by
  have ends : xs.dropWhile (· != '"') ≠ [] := by
    intro unclosed
    simp [measureString, unclosed, Form.isOpen] at closed
  have quoted : ¬ (xs.takeWhile (· != '"')).length = xs.length := by
    intro all
    apply ends
    have parts := congrArg List.length (List.takeWhile_append_dropWhile (p := (· != '"')) (l := xs))
    simp only [List.length_append] at parts
    exact List.length_eq_zero_iff.mp (by omega)
  have body : (xs ++ ys).takeWhile (· != '"') = xs.takeWhile (· != '"') := by
    rw [List.takeWhile_append, if_neg quoted]
  have rest : (xs ++ ys).dropWhile (· != '"') = xs.dropWhile (· != '"') ++ ys := by
    rw [List.dropWhile_append]
    simp [ends]
  obtain ⟨quote, tail, same⟩ := List.exists_cons_of_ne_nil ends
  unfold measureString
  rw [body, rest, same]
  rfl

theorem measureNumber_append (first : Char) {c : Char} (stop : isDigit c = false) (point : c ≠ '.')
    (xs : List Char) : measureNumber first (xs ++ c :: ys) = measureNumber first xs := by
  have whole : (xs ++ c :: ys).takeWhile isDigit = xs.takeWhile isDigit := takeWhile_stop stop xs ys
  have rest : (xs ++ c :: ys).dropWhile isDigit = xs.dropWhile isDigit ++ c :: ys :=
    dropWhile_stop stop xs ys
  simp only [measureNumber, cutNumber]
  rw [whole, rest]
  cases xs.dropWhile isDigit with
  | nil => simp [point]
  | cons x more =>
      by_cases point : x = '.'
      · subst point
        simp only [List.cons_append]
        rw [takeWhile_stop stop]
      · simp [point]

theorem measureWord_append (first : Char) {c : Char} (stop : isWordChar c = false)
    (xs : List Char) : measureWord first (xs ++ c :: ys) = measureWord first xs := by
  simp only [measureWord, cutWord]
  rw [takeWhile_stop stop]

theorem measure_append (first : Char) {xs : List Char}
    (closed : (measure first xs).1.isOpen = false) :
    measure first (xs ++ '\n' :: ys) = measure first xs := by
  have next : (xs ++ '\n' :: ys).head? = some '=' ↔ xs.head? = some '=' := by
    cases xs with
    | nil => simp
    | cons x xs => simp
  revert closed
  unfold measure
  cases single? first with
  | some kind => simp
  | none =>
      cases extendable? first with
      | some kinds => simp only [next, implies_true]
      | none =>
          simp only
          by_cases slash : first == '/'
          · simp only [if_pos slash]
            exact measureSlash_append ys
          by_cases space : isSpace first
          · simp only [if_neg slash, if_pos space, implies_true]
          by_cases quote : first == '"'
          · simp only [if_neg slash, if_neg space, if_pos quote]
            exact measureString_append _
          simp only [if_neg slash, if_neg space, if_neg quote]
          rw [measureNumber_append ys first (by decide) (by decide),
            measureWord_append ys first (by decide)]
          exact fun _ => rfl

/-! ## Pieces end within the text -/

theorem measureSlash_le (xs : List Char) : (measureSlash xs).2 ≤ xs.length := by
  cases xs with
  | nil => simp [measureSlash]
  | cons x xs =>
      by_cases line : x = '/'
      · subst line
        have bound := (List.takeWhile_prefix (l := xs) (· != '\n')).length_le
        simp only [measureSlash, List.length_cons]
        omega
      by_cases block : x = '*'
      · subst block
        simp only [measureSlash, List.length_cons]
        cases ends : commentEnd 0 xs with
        | none => simp; omega
        | some n =>
            have bound := commentEnd_le ends
            simp
            omega
      · simp [measureSlash, line, block]

theorem measureString_le (xs : List Char) : (measureString xs).2 ≤ xs.length := by
  have parts := congrArg List.length (List.takeWhile_append_dropWhile (p := (· != '"')) (l := xs))
  simp only [List.length_append] at parts
  unfold measureString
  cases rest : xs.dropWhile (· != '"') with
  | nil => simp only; omega
  | cons quote tail =>
      rw [rest] at parts
      simp only [List.length_cons] at parts
      simp only
      omega

theorem measureNumber_le (first : Char) (xs : List Char) :
    (measureNumber first xs).2 ≤ xs.length := by
  have parts := congrArg List.length (List.takeWhile_append_dropWhile (p := isDigit) (l := xs))
  simp only [List.length_append] at parts
  simp only [measureNumber, cutNumber]
  cases rest : xs.dropWhile isDigit with
  | nil => simp; omega
  | cons x more =>
      rw [rest] at parts
      simp only [List.length_cons] at parts
      have bound := (List.takeWhile_prefix (l := more) isDigit).length_le
      by_cases point : x = '.'
      · subst point
        simp only
        split
        · omega
        · show (xs.takeWhile isDigit).length + 1 + (more.takeWhile isDigit).length ≤ xs.length
          omega
      · simp [point]
        omega

theorem measure_le (first : Char) (xs : List Char) : (measure first xs).2 ≤ xs.length := by
  unfold measure
  cases single? first with
  | some kind => simp
  | none =>
      cases extendable? first with
      | some kinds =>
          simp only
          split
          · cases xs with
            | nil => simp_all
            | cons x xs => simp
          · simp
      | none =>
          simp only
          split
          · exact measureSlash_le xs
          split
          · simp
          split
          · exact measureString_le xs
          split
          · exact measureNumber_le first xs
          split
          · exact (List.takeWhile_prefix isWordChar).length_le
          · simp

def moved (k : Nat) (p : Piece) : Piece := { p with line := p.line + k }

end Piece

/-! ## The pieces of a text -/

theorem piecesAfter_moved (line skip k : Nat) (cs : List Char) :
    piecesAfter (line + k) skip cs = (piecesAfter line skip cs).map (Piece.moved k) := by
  induction cs generalizing line skip with
  | nil => simp [piecesAfter_nil]
  | cons c cs ih =>
      cases skip with
      | succ skip => exact ih line skip
      | zero =>
          have here : ∀ n : Nat, line + k + n = line + n + k := by
            intro n
            omega
          rw [piecesAfter_cons, piecesAfter_cons, here, ih]
          rfl

theorem piecesAfter_append {line skip : Nat} {xs : List Char} (ys : List Char)
    (inside : skip ≤ xs.length)
    (closed : ∀ p ∈ piecesAfter line skip xs, p.form.isOpen = false) :
    piecesAfter line skip (xs ++ '\n' :: ys) = piecesAfter line skip xs ++
      piecesAfter (line + newlines (xs.drop skip)) 0 ('\n' :: ys) := by
  -- Of the text, `skip` characters belong to the piece before; no piece reaches beyond the text,
  -- because each has its end.
  induction xs generalizing line skip with
  | nil =>
      obtain rfl : skip = 0 := by simpa using inside
      rw [List.drop_nil, piecesAfter_nil]
      rfl
  | cons x xs ih =>
      cases skip with
      | succ skip =>
          simp only [List.cons_append, piecesAfter_succ] at closed ⊢
          exact ih (by simpa using inside) closed
      | zero =>
          have within := Piece.measure_le x xs
          rw [piecesAfter_cons] at closed
          obtain ⟨first, others⟩ := List.forall_mem_cons.mp closed
          have later := ih within others
          have text : (xs ++ '\n' :: ys).take (Piece.measure x xs).2 =
              xs.take (Piece.measure x xs).2 := List.take_append_of_le_length within
          have count : newlines (x :: xs.take (Piece.measure x xs).2) +
              newlines (xs.drop (Piece.measure x xs).2) = newlines (x :: xs) := by
            rw [← newlines_append, List.cons_append, List.take_append_drop]
          rw [List.cons_append, piecesAfter_cons, piecesAfter_cons line x xs,
            Piece.measure_append ys x first, text, later, List.drop_zero, ← count, Nat.add_assoc,
            List.cons_append]

theorem pieces_append {xs : List Char} (ys : List Char)
    (closed : ∀ p ∈ (pieces xs).1, p.form.isOpen = false) :
    (pieces (xs ++ '\n' :: ys)).1 = (pieces xs).1 ++ ⟨.blank, ['\n'], newlines xs + 2⟩ ::
      (pieces ys).1.map (Piece.moved (newlines xs + 1)) := by
  have blank : piecesAfter (1 + newlines xs) 0 ('\n' :: ys) =
      ⟨.blank, ['\n'], newlines xs + 2⟩ :: piecesAfter (1 + (newlines xs + 1)) 0 ys := by
    have measured : Piece.measure '\n' ys = (.blank, 0) := rfl
    have line : 1 + newlines xs + newlines ['\n'] = newlines xs + 2 :=
      Nat.add_right_comm 1 (newlines xs) 1 |>.trans (Nat.add_comm _ _)
    rw [piecesAfter_cons, measured, List.take_zero, line, Nat.add_comm 1 (newlines xs + 1)]
  rw [pieces_eq] at closed
  rw [pieces_eq, pieces_eq, pieces_eq, piecesAfter_append ys (Nat.zero_le _) closed,
    List.drop_zero, blank, piecesAfter_moved]

theorem line_of_mem_pieces {line skip : Nat} {cs : List Char} :
    ∀ p ∈ piecesAfter line skip cs, line ≤ p.line ∧ p.line ≤ line + newlines (cs.drop skip) := by
  induction cs generalizing line skip with
  | nil => simp [piecesAfter_nil]
  | cons c cs ih =>
      cases skip with
      | succ skip =>
          rw [piecesAfter_succ, List.drop_succ_cons]
          exact ih
      | zero =>
          rw [piecesAfter_cons, List.drop_zero]
          generalize (Piece.measure c cs).2 = more
          have count : newlines (c :: cs.take more) + newlines (cs.drop more) = newlines (c :: cs) := by
            rw [← newlines_append, List.cons_append, List.take_append_drop]
          intro p member
          rcases List.mem_cons.mp member with rfl | later
          · dsimp only
            omega
          · have bounds := ih p later
            omega

/-! ## Scans -/

def Token.moved (k : Nat) (t : Token) : Token := { t with line := t.line + k }

def ScanError.moved (k : Nat) (e : ScanError) : ScanError := { e with line := e.line + k }

namespace Scan

theorem ofChars_eq (cs : List Char) :
    ofChars cs = { tokens := (pieces cs).1.filterMap Piece.token?
                   errors := (pieces cs).1.filterMap Piece.error?
                   lastLine := 1 + newlines cs } := by
  rw [ofChars, pieces_eq]

theorem closed_of_errors {xs : List Char}
    (closed : ∀ e ∈ (ofChars xs).errors, e.cause.isOpen = false) :
    ∀ p ∈ (pieces xs).1, p.form.isOpen = false := by
  intro p member
  have report : ∀ e, p.error? = some e → e.cause.isOpen = false := by
    intro e raised
    exact closed e (List.mem_filterMap.mpr ⟨p, member, raised⟩)
  unfold Piece.error? at report
  cases form : p.form with
  | openString => exact report ⟨.openString, p.line⟩ (by simp [form])
  | openComment => exact report ⟨.openComment, p.line⟩ (by simp [form])
  | blank | comment | token | rejected => rfl

theorem line_of_mem_tokens {cs : List Char} {t : Token} (member : t ∈ (ofChars cs).tokens) :
    1 ≤ t.line ∧ t.line ≤ 1 + newlines cs := by
  obtain ⟨p, piece, token⟩ := List.mem_filterMap.mp member
  have bounds := line_of_mem_pieces p piece
  unfold Piece.token? at token
  split at token
  · cases token
    exact bounds
  · cases token

theorem ofChars_append {xs : List Char} (ys : List Char)
    (closed : ∀ e ∈ (ofChars xs).errors, e.cause.isOpen = false) :
    ofChars (xs ++ '\n' :: ys) =
      { tokens := (ofChars xs).tokens ++ (ofChars ys).tokens.map (Token.moved (newlines xs + 1))
        errors := (ofChars xs).errors ++ (ofChars ys).errors.map (ScanError.moved (newlines xs + 1))
        lastLine := (ofChars ys).lastLine + (newlines xs + 1) } := by
  have token : ∀ k p, Piece.token? (Piece.moved k p) = (Piece.token? p).map (Token.moved k) := by
    intro k p
    unfold Piece.token? Piece.moved
    cases p.form <;> rfl
  have error : ∀ k p, Piece.error? (Piece.moved k p) = (Piece.error? p).map (ScanError.moved k) := by
    intro k p
    unfold Piece.error? Piece.moved
    cases p.form <;> rfl
  have last : newlines (xs ++ '\n' :: ys) = newlines xs + (newlines ys + 1) := by
    rw [newlines_append]
    simp [newlines]
  have blank : Piece.token? ⟨.blank, ['\n'], newlines xs + 2⟩ = none ∧
      Piece.error? ⟨.blank, ['\n'], newlines xs + 2⟩ = none := ⟨rfl, rfl⟩
  rw [ofChars_eq, ofChars_eq, ofChars_eq, pieces_append ys (closed_of_errors closed), last]
  simp only [List.filterMap_append, List.filterMap_cons, blank, List.filterMap_map,
    List.map_filterMap, Function.comp_def, token, error, Scan.mk.injEq, true_and]
  omega

/-- The tokens and the errors of a text that goes on in a new line are those of its two parts: the
mark of the end of the first part goes, and the lines of the second part are further down. The first
part may hold rejected characters and end in a line comment. -/
theorem ofString_newline (a b : String)
    (closed : ∀ e ∈ (ofString a).errors, e.cause.isOpen = false) :
    let k := newlines a.toList + 1
    (ofString (a ++ "\n" ++ b)).allTokens =
        (ofString a).tokens ++ (ofString b).allTokens.map (Token.moved k) ∧
      (ofString (a ++ "\n" ++ b)).errors =
        (ofString a).errors ++ (ofString b).errors.map (ScanError.moved k) := by
  intro k
  have text : (a ++ "\n" ++ b).toList = a.toList ++ '\n' :: b.toList := by simp
  have scan := ofChars_append b.toList closed
  rw [← text] at scan
  unfold ofString
  rw [scan]
  constructor
  · simp only [allTokens, eof, List.map_append, List.append_assoc]
    rfl
  · rfl

theorem ofString_newline_comment :
    let one : Token := ⟨.number, "1", .number (Number.ofDigits ['1'] []), 2⟩
    let dot : Token := ⟨.dot, ".", .nil, 2⟩
    let whole := ofString ("a# // 1" ++ "\n" ++ "1.")
    whole.allTokens = [⟨.identifier, "a", .nil, 1⟩, one, dot, ⟨.eof, "", .nil, 2⟩] ∧
      whole.errors = [⟨.rejectedCharacter, 1⟩] := by
  intro one dot whole
  have closed : ∀ e ∈ (ofString "a# // 1").errors, e.cause.isOpen = false := by decide
  exact ofString_newline "a# // 1" "1." closed

end Scan

end Lox
