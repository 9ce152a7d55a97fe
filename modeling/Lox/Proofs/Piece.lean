import Lox.Scan
import Mathlib.Data.List.TakeWhile

namespace Lox

def newlines (cs : List Char) : Nat := cs.count '\n'

theorem newlines_append (xs ys : List Char) : newlines (xs ++ ys) = newlines xs + newlines ys :=
  List.count_append

theorem newlines_cons_of_ne {c : Char} (other : c ≠ '\n') (cs : List Char) :
    newlines (c :: cs) = newlines cs :=
  List.count_cons_of_ne other

theorem newlines_takeWhile {p : Char → Bool} (stop : p '\n' = false) (cs : List Char) :
    newlines (cs.takeWhile p) = 0 := by
  apply List.count_eq_zero.mpr
  intro member
  have passes := List.mem_takeWhile_imp member
  rw [stop] at passes
  cases passes

namespace Piece

def commentEnd (passed : Nat) : List Char → Option Nat
  | [] => none
  | '*' :: '/' :: _ => some passed
  | _ :: rest => commentEnd (passed + 1) rest

def measureSlash : List Char → Form × Nat
  | '/' :: rest => (.comment, 1 + (rest.takeWhile (· != '\n')).length)
  | '*' :: rest =>
      match commentEnd 0 rest with
      | some n => (.comment, n + 3)
      | none => (.openComment, 1 + rest.length)
  | _ => (.token .slash .nil, 0)

def measureString (rest : List Char) : Form × Nat :=
  let body := rest.takeWhile (· != '"')
  match rest.dropWhile (· != '"') with
  | [] => (.openString, body.length)
  | _ :: _ => (.token .string (.string (String.ofList body)), body.length + 1)

def measureNumber (first : Char) (rest : List Char) : Form × Nat :=
  ((cutNumber 0 first rest).form, (cutNumber 0 first rest).more)

def measureWord (first : Char) (rest : List Char) : Form × Nat :=
  ((cutWord 0 first rest).form, (cutWord 0 first rest).more)

/-- The longest item that begins with the character `first`: its form, and how many further
characters belong to it. -/
def measure (first : Char) (rest : List Char) : Form × Nat :=
  match single? first, extendable? first with
  | some kind, _ => (.token kind .nil, 0)
  | none, some (plain, extended) =>
      if rest.head? = some '=' then (.token extended .nil, 1) else (.token plain .nil, 0)
  | none, none =>
      if first == '/' then measureSlash rest
      else if isSpace first then (.blank, 0)
      else if first == '"' then measureString rest
      else if isDigit first then measureNumber first rest
      else if isLetter first then measureWord first rest
      else (.rejected, 0)

variable (line : Nat)

theorem countLine_add (first : Char) (cs : List Char) :
    countLine line first + newlines cs = line + newlines (first :: cs) := by
  unfold countLine newlines
  rw [List.count_cons]
  split <;> omega

theorem stringReach_eq (passed : Nat) (cs : List Char) :
    stringReach passed line cs =
      let body := cs.takeWhile (· != '"')
      ⟨passed + body.length, line + newlines body, !(cs.dropWhile (· != '"')).isEmpty⟩ := by
  induction cs generalizing passed line with
  | nil => rfl
  | cons c cs ih =>
      by_cases quote : c = '"'
      · subst quote
        rfl
      · have goesOn : (c != '"') = true := bne_iff_ne.mpr quote
        simp only [stringReach.eq_3 _ _ _ _ quote, ih, List.takeWhile_cons, List.dropWhile_cons,
          goesOn, if_true, countLine_add, List.length_cons, Reach.mk.injEq, and_true]
        omega

theorem commentReach_of_none {passed : Nat} {cs : List Char} (ends : commentEnd passed cs = none) :
    commentReach passed line cs = ⟨passed + cs.length, line + newlines cs, false⟩ := by
  induction cs generalizing passed line with
  | nil => rfl
  | cons c cs ih =>
      by_cases here : c = '*' ∧ ∃ tail, cs = '/' :: tail
      · obtain ⟨rfl, tail, rfl⟩ := here
        cases ends
      · have early : ∀ tail, c = '*' → cs = '/' :: tail → False :=
          fun tail star slash => here ⟨star, tail, slash⟩
        rw [commentEnd.eq_3 _ _ _ early] at ends
        rw [commentReach.eq_3 _ _ _ _ early, ih _ ends, countLine_add, List.length_cons]
        simp only [Reach.mk.injEq, and_true]
        omega

theorem commentReach_of_some {passed n : Nat} {cs : List Char}
    (ends : commentEnd passed cs = some n) :
    passed ≤ n ∧ commentReach passed line cs =
        ⟨n, line + newlines (cs.take (n - passed)), true⟩ ∧
      newlines (cs.take (n - passed + 2)) = newlines (cs.take (n - passed)) := by
  induction cs generalizing passed line with
  | nil => cases ends
  | cons c cs ih =>
      by_cases here : c = '*' ∧ ∃ tail, cs = '/' :: tail
      · obtain ⟨rfl, tail, rfl⟩ := here
        cases (ends : some passed = some n)
        rw [Nat.sub_self]
        exact ⟨le_rfl, rfl, rfl⟩
      · have early : ∀ tail, c = '*' → cs = '/' :: tail → False :=
          fun tail star slash => here ⟨star, tail, slash⟩
        rw [commentEnd.eq_3 _ _ _ early] at ends
        obtain ⟨le, reach, mark⟩ := ih (countLine line c) ends
        have length : n - passed = n - (passed + 1) + 1 := by omega
        refine ⟨by omega, ?_, ?_⟩
        · rw [commentReach.eq_3 _ _ _ _ early, reach, length, List.take_succ_cons, countLine_add]
        · rw [length, List.take_succ_cons, List.take_succ_cons, newlines, List.count_cons]
          unfold newlines at mark ⊢
          rw [mark, List.count_cons]

def withLine (first : Char) (rest : List Char) (item : Form × Nat) : Cut :=
  ⟨item.1, item.2, line + newlines (first :: rest.take item.2)⟩

theorem withLine_of_single {first : Char} (other : first ≠ '\n') {rest : List Char}
    {item : Form × Nat} (single : newlines (rest.take item.2) = 0) :
    withLine line first rest item = ⟨item.1, item.2, line⟩ := by
  rw [withLine, newlines_cons_of_ne other, single, Nat.add_zero]

theorem withLine_alone {first : Char} (other : first ≠ '\n') (rest : List Char) (form : Form) :
    withLine line first rest (form, 0) = ⟨form, 0, line⟩ :=
  withLine_of_single line other (congrArg newlines List.take_zero)

theorem take_takeWhile (p : Char → Bool) (cs : List Char) (n : Nat) :
    cs.take ((cs.takeWhile p).length + n) = cs.takeWhile p ++ (cs.dropWhile p).take n := by
  induction cs with
  | nil => simp
  | cons c cs ih =>
      rw [List.takeWhile_cons, List.dropWhile_cons]
      split
      · rw [List.length_cons, Nat.add_right_comm, List.take_succ_cons, ih, List.cons_append]
      · rw [List.length_nil, Nat.zero_add, List.nil_append]

theorem newlines_take_takeWhile {p : Char → Bool} (stop : p '\n' = false) (cs : List Char)
    (n : Nat) : newlines (cs.take ((cs.takeWhile p).length + n)) =
      newlines ((cs.dropWhile p).take n) := by
  rw [take_takeWhile, newlines_append, newlines_takeWhile stop, Nat.zero_add]

theorem cutSlash_eq (rest : List Char) :
    cutSlash line rest = withLine line '/' rest (measureSlash rest) := by
  cases rest with
  | nil => rfl
  | cons c cs =>
      by_cases slash : c = '/'
      · subst slash
        have single : newlines (('/' :: cs).take (measureSlash ('/' :: cs)).2) = 0 := by
          rw [measureSlash, Nat.add_comm 1, List.take_succ_cons, newlines_cons_of_ne (by decide)]
          exact newlines_take_takeWhile (by decide) cs 0
        exact (withLine_of_single line (by decide) single).symm
      by_cases star : c = '*'
      · subst star
        have outside (n : Nat) : newlines ('/' :: ('*' :: cs).take (n + 1)) = newlines (cs.take n) := by
          rw [List.take_succ_cons, newlines_cons_of_ne (by decide), newlines_cons_of_ne (by decide)]
        cases ends : commentEnd 0 cs with
        | none =>
            simp only [cutSlash, measureSlash, ends, withLine, commentReach_of_none line ends,
              Bool.false_eq_true, if_false, Nat.zero_add, Nat.add_comm 1, outside, List.take_length]
        | some n =>
            obtain ⟨-, reach, mark⟩ := commentReach_of_some line ends
            simp only [cutSlash, measureSlash, ends, withLine, reach, if_true, outside (n + 2)]
            exact congrArg (Cut.mk _ _ <| line + ·) mark.symm
      · have single : measureSlash (c :: cs) = (.token .slash .nil, 0) := by
          simp [measureSlash, slash, star]
        rw [single, withLine_of_single line (by decide) rfl]
        simp [cutSlash, slash, star]

theorem cutString_eq (rest : List Char) :
    cutString line rest = withLine line '"' rest (measureString rest) := by
  unfold cutString measureString withLine
  rw [stringReach_eq]
  cases left : rest.dropWhile (· != '"') with
  | nil =>
      have text := take_takeWhile (· != '"') rest 0
      rw [left, List.take_nil, List.append_nil, Nat.add_zero] at text
      simp only [List.isEmpty_nil, Bool.not_true, Bool.false_eq_true, if_false, Nat.zero_add, text]
      rw [newlines_cons_of_ne (by decide)]
  | cons quote more =>
      have mark : quote = '"' := by
        have stops := List.head?_dropWhile_not (· != '"') rest
        simpa [left] using stops
      have body := take_takeWhile (· != '"') rest 0
      rw [List.take_zero, List.append_nil, Nat.add_zero] at body
      have text := take_takeWhile (· != '"') rest 1
      rw [left, List.take_succ_cons, mark] at text
      simp only [List.isEmpty_cons, Bool.not_false, if_true, Nat.zero_add, text, body]
      rw [newlines_cons_of_ne (by decide), newlines_append]
      rfl

theorem cutNumber_eq {first : Char} (digit : isDigit first) (rest : List Char) :
    cutNumber line first rest = withLine line first rest (measureNumber first rest) := by
  have other : first ≠ '\n' := by
    rintro rfl
    cases digit
  have single : newlines (rest.take (measureNumber first rest).2) = 0 := by
    have after := newlines_take_takeWhile (p := isDigit) (by decide) rest
    have whole : newlines (rest.take (rest.takeWhile isDigit).length) = 0 := after 0
    unfold measureNumber cutNumber
    dsimp only
    cases left : rest.dropWhile isDigit with
    | nil => exact whole
    | cons c more =>
        by_cases point : c = '.'
        · subst point
          simp only
          split
          · exact whole
          · rw [Nat.add_assoc, after, left, Nat.add_comm 1, List.take_succ_cons,
              newlines_cons_of_ne (by decide)]
            exact newlines_take_takeWhile (by decide) more 0
        · simpa [point] using whole
  exact (withLine_of_single line other single).symm

theorem cutWord_eq {first : Char} (letter : isLetter first) (rest : List Char) :
    cutWord line first rest = withLine line first rest (measureWord first rest) := by
  have other : first ≠ '\n' := by
    rintro rfl
    cases letter
  have single : newlines (rest.take (measureWord first rest).2) = 0 :=
    newlines_take_takeWhile (by decide) rest 0
  exact (withLine_of_single line other single).symm

/-- Whatever is cut, the counter goes up by the line ends in its text. -/
theorem cut_eq (first : Char) (rest : List Char) :
    cut line first rest = withLine line first rest (measure first rest) := by
  unfold cut measure
  cases single : single? first with
  | some kind =>
      have other : first ≠ '\n' := by
        rintro rfl
        cases single
      exact (withLine_alone line other rest _).symm
  | none =>
      cases double : extendable? first with
      | some kinds =>
          have other : first ≠ '\n' := by
            rintro rfl
            cases double
          dsimp only
          split
          · rename_i equal
            obtain ⟨more, rfl⟩ := List.head?_eq_some_iff.mp equal
            have single : newlines (List.take 1 ('=' :: more)) = 0 := by
              rw [List.take_succ_cons, List.take_zero]
              rfl
            exact (@withLine_of_single line first other _ (_, 1) single).symm
          · exact (withLine_alone line other rest _).symm
      | none =>
          dsimp only
          by_cases slash : first == '/'
          · rw [if_pos slash, if_pos slash, eq_of_beq slash, cutSlash_eq]
          rw [if_neg slash, if_neg slash]
          by_cases space : isSpace first
          · rw [if_pos space, if_pos space, withLine, ← countLine_add]
            rfl
          rw [if_neg space, if_neg space]
          by_cases quote : first == '"'
          · rw [if_pos quote, if_pos quote, eq_of_beq quote, cutString_eq]
          rw [if_neg quote, if_neg quote]
          by_cases digit : isDigit first
          · rw [if_pos digit, if_pos digit, cutNumber_eq line digit]
          rw [if_neg digit, if_neg digit]
          by_cases letter : isLetter first
          · rw [if_pos letter, if_pos letter, cutWord_eq line letter]
          · have other : first ≠ '\n' := by
              rintro rfl
              exact space rfl
            rw [if_neg letter, if_neg letter, withLine_alone line other]

end Piece

def piecesAfter (line skip : Nat) (cs : List Char) : List Piece := (cutAfter [] line skip cs).1

theorem cutAfter_eq (done : List Piece) (line skip : Nat) (cs : List Char) :
    cutAfter done line skip cs =
      (done.reverse ++ piecesAfter line skip cs, line + newlines (cs.drop skip)) := by
  unfold piecesAfter
  induction cs generalizing done line skip with
  | nil => simp [cutAfter, newlines]
  | cons c cs ih =>
      cases skip with
      | succ skip =>
          simp only [cutAfter, List.drop_succ_cons]
          exact ih done line skip
      | zero =>
          simp only [cutAfter, List.drop_zero]
          rw [ih, ih [_], List.reverse_cons, List.append_assoc]
          refine Prod.ext rfl ?_
          simp only [Piece.cut_eq, Piece.withLine]
          rw [Nat.add_assoc, ← newlines_append, List.cons_append, List.take_append_drop]

theorem piecesAfter_nil (line skip : Nat) : piecesAfter line skip [] = [] := by
  cases skip <;> rfl

theorem piecesAfter_succ (line skip : Nat) (c : Char) (cs : List Char) :
    piecesAfter line (skip + 1) (c :: cs) = piecesAfter line skip cs := rfl

theorem piecesAfter_cons (line : Nat) (x : Char) (xs : List Char) :
    piecesAfter line 0 (x :: xs) =
      ⟨(Piece.measure x xs).1, x :: xs.take (Piece.measure x xs).2,
          line + newlines (x :: xs.take (Piece.measure x xs).2)⟩ ::
        piecesAfter (line + newlines (x :: xs.take (Piece.measure x xs).2))
          (Piece.measure x xs).2 xs := by
  rw [piecesAfter, cutAfter, cutAfter_eq, Piece.cut_eq]
  rfl

theorem pieces_fst (cs : List Char) : (pieces cs).1 = piecesAfter 1 0 cs := rfl

theorem pieces_eq (cs : List Char) : pieces cs = (piecesAfter 1 0 cs, 1 + newlines cs) :=
  cutAfter_eq [] 1 0 cs

end Lox
