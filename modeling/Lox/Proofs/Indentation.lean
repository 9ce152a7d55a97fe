import Lox.Program
import Lox.Prompt.Entry
import Lox.Proofs.Lexical.Division
import Lox.Proofs.Lexical.Measure

namespace Lox

/-! ## The end of a line -/

inductive Unclosed : List Char → Prop
  | nothing : Unclosed []
  | string {body : List Char} (inside : '"' ∉ body) : Unclosed ('"' :: body)
  | comment {body : List Char} (never : ¬ ['*', '/'] <:+: body) : Unclosed ('/' :: '*' :: body)

theorem Unclosed.of_measure {first : Char} {cs : List Char}
    (unclosed : (Piece.measure first cs).1.isOpen = true) : Unclosed (first :: cs) := by
  rcases Lexical.measure_fits first cs with ⟨regular, -⟩ | rejected
  · have whole := List.take_append_drop (Piece.measure first cs).2 cs
    generalize cs.take (Piece.measure first cs).2 = text at regular whole
    generalize cs.drop (Piece.measure first cs).2 = rest at regular whole
    cases form : (Piece.measure first cs).1 with
    | openString =>
        rw [form] at regular
        cases regular with
        | openString inside =>
            rw [← whole, List.append_nil]
            exact .string inside
    | openComment =>
        rw [form] at regular
        cases regular with
        | openComment never =>
            rw [← whole, List.append_nil]
            exact .comment never
    | blank | comment | token | rejected =>
        rw [form] at unclosed
        cases unclosed
  · rw [rejected] at unclosed
    cases unclosed

/-- How a text is cut before a line end: into pieces that have their ends, and what is left, which
goes on in the next line. -/
structure Seam (line skip : Nat) (text : List Char) (before : List Piece) (lastLine : Nat)
    (left : List Char) : Prop where
  alone : piecesAfter line skip text = before ++ piecesAfter lastLine 0 left
  goesOn : ∀ next, piecesAfter line skip (text ++ '\n' :: next) =
    before ++ piecesAfter lastLine 0 (left ++ '\n' :: next)
  closed : ∀ p ∈ before, p.form.isOpen = false
  unclosed : Unclosed left

theorem Seam.exists (line : Nat) {skip : Nat} {text : List Char} (inside : skip ≤ text.length) :
    ∃ before lastLine left, Seam line skip text before lastLine left := by
  induction text generalizing line skip with
  | nil =>
      obtain rfl : skip = 0 := by simpa using inside
      exact ⟨[], line, [], rfl, fun _ => rfl, by simp, .nothing⟩
  | cons c text ih =>
      cases skip with
      | succ skip =>
          obtain ⟨before, lastLine, left, seam⟩ := ih line (Nat.le_of_succ_le_succ inside)
          exact ⟨before, lastLine, left, seam.alone, seam.goesOn, seam.closed, seam.unclosed⟩
      | zero =>
          by_cases unclosed : (Piece.measure c text).1.isOpen = true
          · exact ⟨[], line, c :: text, rfl, fun _ => rfl, by simp, .of_measure unclosed⟩
          · rw [Bool.not_eq_true] at unclosed
            have within := Piece.measure_le c text
            let head : Piece := ⟨(Piece.measure c text).1, c :: text.take (Piece.measure c text).2,
              line + newlines (c :: text.take (Piece.measure c text).2)⟩
            obtain ⟨before, lastLine, left, seam⟩ := ih head.line within
            refine ⟨head :: before, lastLine, left, ?_, fun next => ?_,
              List.forall_mem_cons.mpr ⟨unclosed, seam.closed⟩, seam.unclosed⟩
            · rw [piecesAfter_cons, seam.alone, List.cons_append]
            · rw [List.cons_append, piecesAfter_cons, Piece.measure_append next c unclosed,
                List.take_append_of_le_length within, seam.goesOn, List.cons_append]

/-! ## Blanks at the beginning of a line -/

structure SameScan (ps qs : List Piece) : Prop where
  tokens : ps.filterMap Piece.token? = qs.filterMap Piece.token?
  errors : ps.filterMap Piece.error? = qs.filterMap Piece.error?

namespace SameScan

variable {ps qs : List Piece}

theorem refl (ps : List Piece) : SameScan ps ps := ⟨rfl, rfl⟩

theorem append (before : List Piece) (h : SameScan ps qs) :
    SameScan (before ++ ps) (before ++ qs) := by
  constructor
  · rw [List.filterMap_append, h.tokens, List.filterMap_append]
  · rw [List.filterMap_append, h.errors, List.filterMap_append]

theorem skip {p : Piece} (token : p.token? = none) (error : p.error? = none)
    (h : SameScan ps qs) : SameScan (p :: ps) qs := by
  constructor
  · rw [List.filterMap_cons_none token, h.tokens]
  · rw [List.filterMap_cons_none error, h.errors]

end SameScan

abbrev spaces (n : Nat) : List Char := List.replicate n ' '

theorem newlines_spaces (n : Nat) : newlines (spaces n) = 0 :=
  List.count_eq_zero.mpr fun member => absurd (List.eq_of_mem_replicate member) (by decide)

theorem newlines_indented (n : Nat) (text next : List Char) :
    newlines (text ++ '\n' :: (spaces n ++ next)) = newlines (text ++ '\n' :: next) := by
  rw [List.append_cons, List.append_cons text '\n' next, newlines_append _ (spaces n ++ next),
    newlines_append (spaces n), newlines_spaces, Nat.zero_add, ← newlines_append]

theorem spaces_sameScan (line n : Nat) (next : List Char) :
    SameScan (piecesAfter line 0 (spaces n ++ next)) (piecesAfter line 0 next) := by
  induction n with
  | zero => exact .refl _
  | succ n ih =>
      rw [spaces, List.replicate_succ, List.cons_append, piecesAfter_cons,
        Piece.measure_space (by decide)]
      exact .skip rfl rfl ih

theorem Piece.commentEnd_past {body : List Char} (never : ¬ ['*', '/'] <:+: body) (passed n : Nat)
    (next : List Char) : commentEnd passed (body ++ '\n' :: (spaces n ++ next)) =
      commentEnd (passed + (body.length + 1 + n)) next := by
  have no : ∀ x xs, x ≠ '*' → ¬ ['*', '/'] <+: x :: xs := by
    rintro x xs other ⟨more, same⟩
    exact other (List.cons.inj same).1.symm
  have blanks : ∀ passed, commentEnd passed (spaces n ++ next) = commentEnd (passed + n) next := by
    induction n with
    | zero => exact fun passed => rfl
    | succ n ih =>
        intro passed
        rw [spaces, List.replicate_succ, List.cons_append, commentEnd_cons (no _ _ (by decide)), ih]
        congr 1
        omega
  induction body generalizing passed with
  | nil =>
      rw [List.nil_append, commentEnd_cons (no _ _ (by decide)), blanks]
      congr 1
      simp only [List.length_nil]
      omega
  | cons x body ih =>
      rw [List.infix_cons_iff, not_or] at never
      have early : ¬ ['*', '/'] <+: x :: (body ++ '\n' :: (spaces n ++ next)) := by
        intro ends
        obtain ⟨rfl, slash⟩ := List.cons_prefix_cons.mp ends
        cases body with
        | nil => simp at slash
        | cons y body =>
            obtain ⟨rfl, -⟩ := List.cons_prefix_cons.mp slash
            exact never.1 ⟨body, rfl⟩
      rw [List.cons_append, commentEnd_cons early, ih never.2, List.length_cons]
      congr 1
      omega

theorem piecesAfter_whole {first : Char} {cs : List Char} {form : Piece.Form}
    (measured : Piece.measure first cs = (form, cs.length)) (line : Nat) :
    piecesAfter line 0 (first :: cs) =
      [⟨form, first :: cs, line + newlines (first :: cs)⟩] := by
  rw [piecesAfter_cons, measured, List.take_length, piecesAfter_skip, List.drop_length]
  rfl

theorem piecesAfter_comment {body more : List Char}
    (ends : Piece.commentEnd 0 (body ++ '*' :: '/' :: more) = some body.length) (line : Nat) :
    piecesAfter line 0 ('/' :: '*' :: (body ++ '*' :: '/' :: more)) =
      ⟨.comment, '/' :: '*' :: (body ++ ['*', '/']), line + newlines body⟩ ::
        piecesAfter (line + newlines body) 0 more := by
  have measured : Piece.measure '/' ('*' :: (body ++ '*' :: '/' :: more)) =
      (.comment, ('*' :: (body ++ ['*', '/'])).length) := by
    rw [Piece.measure_slash, Piece.measureSlash, ends]
    simp
  have split : '*' :: (body ++ '*' :: '/' :: more) = '*' :: (body ++ ['*', '/']) ++ more := by simp
  have count : newlines ('/' :: '*' :: (body ++ ['*', '/'])) = newlines body := by
    simp [newlines]
  rw [piecesAfter_cons, measured, piecesAfter_skip, split, List.take_left, List.drop_left, count]

theorem piecesAfter_openComment {body : List Char} (never : ¬ ['*', '/'] <:+: body) (line : Nat) :
    piecesAfter line 0 ('/' :: '*' :: body) =
      [⟨.openComment, '/' :: '*' :: body, line + newlines body⟩] := by
  apply piecesAfter_whole
  rw [Piece.measure_slash, Piece.measureSlash, Piece.commentEnd_none.mpr never, List.length_cons,
    Nat.add_comm]

theorem comment_sameScan {body : List Char} (never : ¬ ['*', '/'] <:+: body) (line n : Nat)
    (next : List Char) :
    SameScan (piecesAfter line 0 ('/' :: '*' :: (body ++ '\n' :: (spaces n ++ next))))
      (piecesAfter line 0 ('/' :: '*' :: (body ++ '\n' :: next))) := by
  have indented := Piece.commentEnd_past never 0 n next
  have plain := Piece.commentEnd_past never 0 0 next
  rw [spaces, List.replicate_zero, List.nil_append] at plain
  cases ends : Piece.commentEnd 0 next with
  | none =>
      have never (passed : Nat) : Piece.commentEnd passed next = none :=
        Piece.commentEnd_none.mpr (Piece.commentEnd_none.mp ends)
      rw [never, Piece.commentEnd_none] at indented plain
      rw [piecesAfter_openComment indented, piecesAfter_openComment plain, newlines_indented]
      exact ⟨rfl, rfl⟩
  | some m =>
      obtain ⟨inner, more, rfl, -, first⟩ := Piece.commentEnd_some ends
      rw [Piece.commentEnd_first first] at indented plain
      have split : ∀ blanks, body ++ '\n' :: (blanks ++ (inner ++ '*' :: '/' :: more)) =
          body ++ '\n' :: (blanks ++ inner) ++ '*' :: '/' :: more := by simp
      have plainSplit := split []
      rw [List.nil_append, List.nil_append] at plainSplit
      rw [split] at indented ⊢
      rw [plainSplit] at plain ⊢
      rw [piecesAfter_comment (indented.trans (by simp; omega)),
        piecesAfter_comment (plain.trans (by simp; omega)), newlines_indented]
      exact ⟨rfl, rfl⟩

section String

variable {body : List Char} (inside : '"' ∉ body) (line : Nat)
include inside

theorem bne_quote : ∀ c ∈ body, (c != '"') = true := fun _ member =>
  bne_iff_ne.mpr fun same => inside (same ▸ member)

theorem piecesAfter_openString : piecesAfter line 0 ('"' :: body) =
    [⟨.openString, '"' :: body, line + newlines ('"' :: body)⟩] := by
  apply piecesAfter_whole
  rw [Piece.measure_quote, Piece.measureString, List.takeWhile_eq_self_iff.mpr (bne_quote inside),
    List.dropWhile_eq_nil_iff.mpr (bne_quote inside)]

theorem piecesAfter_string : piecesAfter line 0 ('"' :: (body ++ ['"'])) =
    [⟨.token .string (.string (String.ofList body)), '"' :: (body ++ ['"']),
      line + newlines ('"' :: (body ++ ['"']))⟩] := by
  apply piecesAfter_whole
  rw [Piece.measure_quote, Piece.measureString, Piece.takeWhile_stop (by decide),
    Piece.dropWhile_stop (by decide), List.takeWhile_eq_self_iff.mpr (bne_quote inside),
    List.dropWhile_eq_nil_iff.mpr (bne_quote inside), List.length_append, List.length_singleton]
  rfl

end String

/-! ## Lines typed at the prompt -/

namespace Entry

/-- Whether a text ends inside of a string. -/
def InString (text : String) : Prop :=
  ∃ e ∈ (Scan.ofString text).errors, e.cause = .openString

/-- Lines as the enter key puts them together, and the same lines with nothing but line ends between
them. No line ends inside of a string while a bracket is open. -/
inductive Typed : String → String → Prop
  | first (line : String) : Typed line line
  | next {typed plain indented : String} (lines : Typed typed plain)
      (goesOn : pressEnter typed = .goOn indented)
      (outside : ¬ (InString typed ∧ 0 < openDepth typed)) (line : String) :
      Typed (indented ++ line) (plain ++ "\n" ++ line)

theorem goOn_inv {text next : String} (h : pressEnter text = .goOn next) :
    next = text ++ "\n" ++ indent text := by
  unfold pressEnter at h
  split at h
  · cases h
  · exact (Enter.goOn.inj h).symm

theorem indent_toList (text : String) : (indent text).toList = spaces (4 * openDepth text) :=
  String.toList_ofList

theorem inString_iff_piece {text : String} :
    InString text ↔ ∃ p ∈ (pieces text.toList).1, p.form = .openString := by
  constructor
  · rintro ⟨e, member, cause⟩
    obtain ⟨p, piece, error⟩ := List.mem_filterMap.mp member
    refine ⟨p, piece, ?_⟩
    unfold Piece.error? at error
    split at error <;> cases error <;> first | assumption | cases cause
  · rintro ⟨p, piece, form⟩
    have error : p.error? = some ⟨.openString, p.line⟩ := by rw [Piece.error?, form]
    exact ⟨_, List.mem_filterMap.mpr ⟨p, piece, error⟩, rfl⟩

theorem inString_iff {text : String} {before : List Piece} {lastLine : Nat} {left : List Char}
    (seam : Seam 1 0 text.toList before lastLine left) :
    InString text ↔ ∃ body, '"' ∉ body ∧ left = '"' :: body := by
  rw [inString_iff_piece, pieces_fst, seam.alone]
  have closed : ∀ p ∈ before, p.form ≠ .openString := by
    intro p member form
    have ends := seam.closed p member
    rw [form] at ends
    cases ends
  constructor
  · rintro ⟨p, member, form⟩
    rcases List.mem_append.mp member with early | last
    · exact absurd form (closed p early)
    · cases seam.unclosed with
      | nothing => cases last
      | string inside => exact ⟨_, inside, rfl⟩
      | comment never =>
          rw [piecesAfter_openComment never] at last
          obtain rfl := List.mem_singleton.mp last
          cases form
  · rintro ⟨body, inside, rfl⟩
    rw [piecesAfter_openString inside]
    exact ⟨_, List.mem_append_right _ (.head _), rfl⟩

theorem sameScan_of_unclosed {left : List Char} (unclosed : Unclosed left)
    (outside : ∀ body, left ≠ '"' :: body) (line n : Nat) (next : List Char) :
    SameScan (piecesAfter line 0 (left ++ '\n' :: (spaces n ++ next)))
      (piecesAfter line 0 (left ++ '\n' :: next)) := by
  cases unclosed with
  | nothing =>
      rw [List.nil_append, List.nil_append, piecesAfter_cons, piecesAfter_cons,
        Piece.measure_space (by decide), Piece.measure_space (by decide)]
      exact .append [_] (spaces_sameScan _ n next)
  | string => exact absurd rfl (outside _)
  | comment never => exact comment_sameScan never line n next

theorem ofChars_indented {text : List Char} {before : List Piece} {lastLine : Nat}
    {left : List Char} (seam : Seam 1 0 text before lastLine left)
    (outside : ∀ body, left ≠ '"' :: body) (n : Nat) (next : List Char) :
    Scan.ofChars (text ++ '\n' :: (spaces n ++ next)) = Scan.ofChars (text ++ '\n' :: next) := by
  have same := (sameScan_of_unclosed seam.unclosed outside lastLine n next).append before
  rw [← seam.goesOn, ← seam.goesOn] at same
  simp only [Scan.ofChars_eq, pieces_fst, same.tokens, same.errors, newlines_indented]

theorem tokens_quoted {text : List Char} {before : List Piece} {lastLine : Nat} {body : List Char}
    (seam : Seam 1 0 text before lastLine ('"' :: body)) (inside : '"' ∉ body) (n : Nat) :
    ∃ t, (Scan.ofChars (text ++ '\n' :: (spaces n ++ ['"']))).tokens =
        before.filterMap Piece.token? ++ [t] ∧
      t.literal = .string (String.ofList (body ++ '\n' :: spaces n)) := by
  have clear : '"' ∉ body ++ '\n' :: spaces n := by
    intro member
    rcases List.mem_append.mp member with early | late
    · exact inside early
    · rcases List.mem_cons.mp late with ends | blank
      · cases ends
      · cases List.eq_of_mem_replicate blank
  have text : '"' :: body ++ '\n' :: (spaces n ++ ['"']) =
      '"' :: (body ++ '\n' :: spaces n ++ ['"']) := by simp
  obtain ⟨t, token, value⟩ : ∃ t : Token,
      (piecesAfter lastLine 0 ('"' :: body ++ '\n' :: (spaces n ++ ['"']))).filterMap
        Piece.token? = [t] ∧ t.literal = .string (String.ofList (body ++ '\n' :: spaces n)) := by
    rw [text, piecesAfter_string clear]
    exact ⟨_, rfl, rfl⟩
  refine ⟨t, ?_, value⟩
  simp only [Scan.ofChars_eq, pieces_fst, seam.goesOn, List.filterMap_append, token]

theorem ofChars_quoted {text : List Char} {before : List Piece} {lastLine : Nat} {body : List Char}
    (seam : Seam 1 0 text before lastLine ('"' :: body)) (inside : '"' ∉ body) {n : Nat}
    (same : Scan.ofChars (text ++ '\n' :: (spaces n ++ ['"'])) =
      Scan.ofChars (text ++ '\n' :: ['"'])) : n = 0 := by
  obtain ⟨t, indented, value⟩ := tokens_quoted seam inside n
  obtain ⟨t', plain, value'⟩ := tokens_quoted seam inside 0
  have tokens := congrArg Scan.tokens same
  rw [indented, show '\n' :: ['"'] = '\n' :: (spaces 0 ++ ['"']) from rfl, plain] at tokens
  obtain rfl : t = t' := by simpa using tokens
  have bodies := String.ofList_injective (Literal.string.inj (value.symm.trans value'))
  simpa using congrArg List.length bodies

theorem toList_goOn {text next : String} (goesOn : pressEnter text = .goOn next) (rest : String) :
    (next ++ rest).toList =
      text.toList ++ '\n' :: (spaces (4 * openDepth text) ++ rest.toList) := by
  rw [goOn_inv goesOn]
  simp [indent_toList]

theorem goOn_same_iff {text next : String} (goesOn : pressEnter text = .goOn next) :
    (∀ rest, Scan.ofString (next ++ rest) = Scan.ofString (text ++ "\n" ++ rest)) ↔
      ¬ (InString text ∧ 0 < openDepth text) := by
  have indented := toList_goOn goesOn
  have plain (rest : String) :
      (text ++ "\n" ++ rest).toList = text.toList ++ '\n' :: rest.toList := by
    simp
  simp only [Scan.ofString, indented, plain]
  obtain ⟨before, lastLine, left, seam⟩ := Seam.exists 1 (Nat.zero_le text.toList.length)
  rw [inString_iff seam]
  constructor
  · rintro same ⟨⟨body, inside, rfl⟩, deep⟩
    have flat := ofChars_quoted seam inside (same "\"")
    omega
  · intro outside rest
    by_cases flat : openDepth text = 0
    · rw [flat]
      rfl
    · refine ofChars_indented seam ?_ _ _
      rintro body rfl
      cases seam.unclosed with
      | string inside => exact outside ⟨⟨body, inside, rfl⟩, Nat.pos_of_ne_zero flat⟩

theorem Typed.scan_eq {typed plain : String} (lines : Typed typed plain) (rest : String) :
    Scan.ofString (typed ++ rest) = Scan.ofString (plain ++ rest) := by
  induction lines generalizing rest with
  | first line => rfl
  | @next typed plain indented lines goesOn outside line ih =>
      calc Scan.ofString (indented ++ line ++ rest)
        _ = Scan.ofString (indented ++ (line ++ rest)) := by rw [String.append_assoc]
        _ = Scan.ofString (typed ++ "\n" ++ (line ++ rest)) :=
            (goOn_same_iff goesOn).mpr outside (line ++ rest)
        _ = Scan.ofString (typed ++ ("\n" ++ line ++ rest)) := by simp only [String.append_assoc]
        _ = Scan.ofString (plain ++ ("\n" ++ line ++ rest)) := ih _
        _ = Scan.ofString (plain ++ "\n" ++ line ++ rest) := by simp only [String.append_assoc]

/-- Where the enter key goes on, the blanks that it puts before the next line change nothing that is
scanned, whatever is typed there, unless the text ends in a string while a bracket is open. -/
theorem indentation_is_layout_iff {text next : String} (goesOn : pressEnter text = .goOn next) :
    ((∀ rest, Scan.ofString (next ++ rest) = Scan.ofString (text ++ "\n" ++ rest)) ↔
      ¬ (InString text ∧ 0 < openDepth text)) ∧
    ∀ plain, Typed text plain → ¬ (InString text ∧ 0 < openDepth text) → ∀ rest,
      Scan.ofString (next ++ rest) = Scan.ofString (plain ++ "\n" ++ rest) ∧
        ∀ depth, Program.compile depth (next ++ rest) =
          Program.compile depth (plain ++ "\n" ++ rest) := by
  refine ⟨goOn_same_iff goesOn, fun plain lines outside rest => ?_⟩
  have scans := (Typed.next lines goesOn outside rest).scan_eq ""
  rw [String.append_empty, String.append_empty] at scans
  refine ⟨scans, fun depth => ?_⟩
  unfold Program.compile Program.read
  rw [scans]

theorem indentation_is_layout_iff_call :
    pressEnter "f(/*" = .goOn "f(/*\n    " ∧
      pressEnter ("f(/*\n    " ++ "*/ nil,") = .goOn "f(/*\n    */ nil,\n    " ∧
      ¬ (InString "f(/*\n    */ nil," ∧ 0 < openDepth "f(/*\n    */ nil,") ∧
      Program.compile 100 ("f(/*\n    */ nil,\n    " ++ "nil);") =
        Program.compile 100 ("f(/*\n*/ nil," ++ "\n" ++ "nil);") := by
  have comment : pressEnter "f(/*" = .goOn "f(/*\n    " := rfl
  have call : pressEnter ("f(/*\n    " ++ "*/ nil,") = .goOn "f(/*\n    */ nil,\n    " := rfl
  have first : ¬ (InString "f(/*" ∧ 0 < openDepth "f(/*") := by
    rintro ⟨⟨e, member, cause⟩, -⟩
    obtain rfl := List.mem_singleton.mp (show e ∈ [⟨.openComment, 1⟩] from member)
    cases cause
  have second : ¬ (InString "f(/*\n    */ nil," ∧ 0 < openDepth "f(/*\n    */ nil,") := by
    rintro ⟨⟨e, member, -⟩, -⟩
    cases (show e ∈ [] from member)
  have lines : Typed _ "f(/*\n*/ nil," := .next (.first "f(/*") comment first "*/ nil,"
  exact ⟨comment, call, second, ((indentation_is_layout_iff call).2 _ lines second "nil);").2 100⟩

/-- In a string that goes on inside of a bracket, the blanks are part of what is printed. -/
theorem indentation_in_string :
    let text := "print (\"a"
    let next := "print (\"a\n    "
    pressEnter text = .goOn next ∧
      Scan.ofString (next ++ "\");") ≠ Scan.ofString (text ++ "\n" ++ "\");") ∧
      Program.compile 100 (next ++ "\");") =
        .ok [.print (.grouping (.literal (.string "a\n    ")))] ∧
      Program.compile 100 (text ++ "\n" ++ "\");") =
        .ok [.print (.grouping (.literal (.string "a\n")))] := by
  refine ⟨rfl, fun same => ?_, rfl, rfl⟩
  have lexemes := congrArg (fun scan => scan.tokens.map Token.lexeme) same
  exact absurd lexemes (by decide)

end Entry

end Lox
