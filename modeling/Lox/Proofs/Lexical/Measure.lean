import Lox.Proofs.Lexical
import Lox.Proofs.Scan

namespace Lox

/-! ## Ends of comments -/

namespace Piece

theorem commentEnd_cons {passed : Nat} {x : Char} {xs : List Char}
    (early : ¬ ['*', '/'] <+: x :: xs) : commentEnd passed (x :: xs) = commentEnd (passed + 1) xs := by
  apply commentEnd.eq_3
  rintro tail rfl rfl
  exact early ⟨tail, rfl⟩

theorem commentEnd_some {passed n : Nat} {xs : List Char} (h : commentEnd passed xs = some n) :
    ∃ body more, xs = body ++ '*' :: '/' :: more ∧ n = passed + body.length ∧
      ¬ ['*', '/'] <:+: body := by
  induction xs generalizing passed with
  | nil => simp [commentEnd] at h
  | cons x xs ih =>
      by_cases ends : ['*', '/'] <+: x :: xs
      · obtain ⟨more, same⟩ := ends
        cases same
        cases (h : some passed = some n)
        exact ⟨[], _, rfl, rfl, by simp⟩
      · rw [commentEnd_cons ends] at h
        obtain ⟨body, more, rfl, count, first⟩ := ih h
        refine ⟨x :: body, more, rfl, by simp only [List.length_cons]; omega, ?_⟩
        rw [List.infix_cons_iff]
        rintro (early | later)
        · exact ends (early.trans (List.prefix_append (x :: body) _))
        · exact first later

theorem commentEnd_first {body : List Char} (first : ¬ ['*', '/'] <:+: body) (passed : Nat)
    (more : List Char) :
    commentEnd passed (body ++ '*' :: '/' :: more) = some (passed + body.length) := by
  induction body generalizing passed with
  | nil => rfl
  | cons x body ih =>
      rw [List.infix_cons_iff, not_or] at first
      obtain ⟨early, later⟩ := first
      have goesOn : ¬ ['*', '/'] <+: x :: (body ++ '*' :: '/' :: more) := by
        intro ends
        obtain ⟨rfl, next⟩ := List.cons_prefix_cons.mp ends
        cases body with
        | nil => simp at next
        | cons y body =>
            obtain ⟨rfl, -⟩ := List.cons_prefix_cons.mp next
            exact early ⟨body, rfl⟩
      rw [List.cons_append, commentEnd_cons goesOn, ih later, List.length_cons]
      congr 1
      omega

theorem commentEnd_none {passed : Nat} {xs : List Char} :
    commentEnd passed xs = none ↔ ¬ ['*', '/'] <:+: xs := by
  constructor
  · intro unclosed
    induction xs generalizing passed with
    | nil => simp
    | cons x xs ih =>
        by_cases ends : ['*', '/'] <+: x :: xs
        · obtain ⟨more, same⟩ := ends
          cases same
          cases (unclosed : some passed = none)
        · rw [commentEnd_cons ends] at unclosed
          rw [List.infix_cons_iff]
          rintro (early | later)
          · exact ends early
          · exact ih unclosed later
  · intro never
    cases found : commentEnd passed xs with
    | none => rfl
    | some n =>
        obtain ⟨body, more, rfl, -⟩ := commentEnd_some found
        exact absurd ⟨body, more, by simp⟩ never

end Piece

/-! ## First characters -/

namespace Piece

theorem isDigit_eq (c : Char) : isDigit c = c.isDigit := rfl

theorem isLetter_iff {c : Char} : isLetter c ↔ c.isAlpha ∨ c = '_' := by
  simp only [isLetter, Char.isAlpha, Char.isUpper, Char.isLower, Bool.or_eq_true, Bool.and_eq_true,
    decide_eq_true_eq, beq_iff_eq]
  exact or_congr_left or_comm

theorem isWordChar_iff {c : Char} : isWordChar c ↔ c.isAlphanum ∨ c = '_' := by
  simp only [isWordChar, Bool.or_eq_true, isLetter_iff, isDigit_eq, Char.isAlphanum]
  tauto

def marks : List Char :=
  ['(', ')', '\x7b', '\x7d', ',', '.', '-', '+', ';', '*', '!', '=', '<', '>', '/', ' ', '\r', '\t',
    '\n', '"']

theorem unmarked {p : Char → Bool} (absent : marks.any p = false) {c : Char} (h : p c) : c ∉ marks :=
  fun member => List.any_eq_false.mp absent c member h

theorem measure_unmarked {c : Char} (unmarked : c ∉ marks) (cs : List Char) :
    measure c cs = if isDigit c then measureNumber c cs
      else if isLetter c then measureWord c cs else (.rejected, 0) := by
  have single : single? c = none := by
    unfold single?
    split <;> first | rfl | exact absurd (by decide) unmarked
  have extendable : extendable? c = none := by
    unfold extendable?
    split <;> first | rfl | exact absurd (by decide) unmarked
  have other : ∀ m ∈ marks, (c == m) = false := by
    intro m member
    exact beq_eq_false_iff_ne.mpr fun same => unmarked (same ▸ member)
  have space : isSpace c = false := by
    unfold isSpace
    rw [other ' ' (by decide), other '\r' (by decide), other '\t' (by decide),
      other '\n' (by decide)]
    rfl
  unfold measure
  rw [single, extendable]
  simp only [other '/' (by decide), space, other '"' (by decide), Bool.false_eq_true, ↓reduceIte]

theorem measure_digit {c : Char} (digit : isDigit c) (cs : List Char) :
    measure c cs = measureNumber c cs := by
  rw [measure_unmarked (unmarked rfl digit), if_pos digit]

theorem measure_letter {c : Char} (letter : isLetter c) (cs : List Char) :
    measure c cs = measureWord c cs := by
  have other : ¬ isDigit c := by
    intro digit
    simp only [isLetter, isDigit, Bool.or_eq_true, Bool.and_eq_true, decide_eq_true_eq,
      beq_iff_eq, Char.le_def, UInt32.le_iff_toNat_le] at letter digit
    rcases letter with (⟨low, -⟩ | ⟨low, -⟩) | rfl
    · exact absurd (low.trans digit.2) (by decide)
    · exact absurd (low.trans digit.2) (by decide)
    · exact absurd digit.2 (by decide)
  rw [measure_unmarked (unmarked rfl letter), if_neg other, if_pos letter]

theorem measure_space {c : Char} (space : c ∈ [' ', '\t', '\r', '\n']) (cs : List Char) :
    measure c cs = (.blank, 0) := by
  simp only [List.mem_cons, List.not_mem_nil, or_false] at space
  rcases space with rfl | rfl | rfl | rfl <;> rfl

theorem measure_slash (cs : List Char) : measure '/' cs = measureSlash cs := rfl

theorem measure_quote (cs : List Char) : measure '"' cs = measureString cs := rfl

theorem measure_single {c : Char} {kind : Token.Kind} (single : single? c = some kind)
    (cs : List Char) : measure c cs = (.token kind .nil, 0) := by
  unfold measure
  rw [single]

theorem measure_extendable {c : Char} {plain extended : Token.Kind}
    (extendable : extendable? c = some (plain, extended)) (cs : List Char) :
    measure c cs =
      if cs.head? = some '=' then (.token extended .nil, 1) else (.token plain .nil, 0) := by
  have single : single? c = none := by
    unfold extendable? at extendable
    split at extendable <;> first | rfl | cases extendable
  unfold measure
  rw [single, extendable]

end Piece

/-! ## Tokens with one spelling -/

inductive Piece.Fixed : Token.Kind → List Char → Prop
  | single {c kind} (h : single? c = some kind) : Fixed kind [c]
  | plain {c kind extended} (h : extendable? c = some (kind, extended)) : Fixed kind [c]
  | extended {c kind plain} (h : extendable? c = some (plain, kind)) : Fixed kind [c, '=']
  | slash : Fixed .slash ['/']
  | word {kind} {first : Char} {more : List Char} (letter : isLetter first)
      (word : ∀ c ∈ more, isWordChar c)
      (h : Token.Kind.keyword? (String.ofList (first :: more)) = some kind) :
      Fixed kind (first :: more)

theorem Token.Kind.spelling_of_keyword {word : String} {kind : Token.Kind}
    (h : keyword? word = some kind) : kind.spelling? = some word := by
  unfold keyword? at h
  split at h <;> cases h <;> rfl

theorem Piece.Fixed.of_word {word : String} {kind : Token.Kind}
    (known : Token.Kind.keyword? word = some kind) (nonempty : word.toList ≠ [])
    (letters : word.toList.all isLetter) : Fixed kind word.toList := by
  rw [← String.ofList_toList (s := word)] at known
  obtain ⟨first, more, text⟩ := List.exists_cons_of_ne_nil nonempty
  rw [text] at known letters ⊢
  obtain ⟨letter, others⟩ := List.forall_mem_cons.mp (List.all_eq_true.mp letters)
  exact .word letter (fun c member => Bool.or_eq_true_iff.mpr (.inl (others c member))) known

theorem Piece.Fixed.of_spelling {kind : Token.Kind} {text : List Char}
    (spelled : kind.spelling? = some (String.ofList text)) : Fixed kind text := by
  have same : ∀ s : String, some s = some (String.ofList text) → text = s.toList := by
    intro s same
    rw [Option.some.inj same, String.toList_ofList]
  cases kind <;> simp only [Token.Kind.spelling?, reduceCtorEq] at spelled
  all_goals obtain rfl := same _ spelled
  all_goals first
    | exact .single rfl
    | exact .plain rfl
    | exact .extended rfl
    | exact .slash
    | exact .of_word (by decide +kernel) (by decide) (by decide)

theorem Piece.Fixed.spelled {kind : Token.Kind} {text : List Char} (h : Fixed kind text) :
    kind.spelling? = some (String.ofList text) := by
  cases h with
  | @single c kind h =>
      unfold single? at h
      split at h <;> cases h <;> rfl
  | @plain c kind extended h =>
      unfold extendable? at h
      split at h <;> cases h <;> rfl
  | @extended c kind plain h =>
      unfold extendable? at h
      split at h <;> cases h <;> rfl
  | slash => rfl
  | word _ _ h => exact Token.Kind.spelling_of_keyword h

theorem Piece.Fixed.keyword {kind : Token.Kind} {first : Char} {more : List Char}
    (h : Fixed kind (first :: more)) (letter : isLetter first) :
    Token.Kind.keyword? (String.ofList (first :: more)) = some kind := by
  cases h with
  | single h =>
      unfold single? at h
      split at h <;> first | exact absurd letter (by decide) | cases h
  | plain h =>
      unfold extendable? at h
      split at h <;> first | exact absurd letter (by decide) | cases h
  | extended h =>
      unfold extendable? at h
      split at h <;> first | exact absurd letter (by decide) | cases h
  | slash => exact absurd letter (by decide)
  | word _ _ h => exact h

/-! ## What is measured is an item -/

namespace Lexical

def Category.ofForm : Piece.Form → Category
  | .blank => .blank
  | .comment => .comment
  | .token kind _ => .token kind
  | .rejected => .rejected
  | .openString => .openString
  | .openComment => .openComment

structure Fits (measured : Piece.Form × Nat) (first : Char) (cs : List Char) : Prop where
  regular : Regular (.ofForm measured.1) (first :: cs.take measured.2) (cs.drop measured.2)
  literal : ∀ kind literal, measured.1 = .token kind literal →
    Spells kind (first :: cs.take measured.2) literal

theorem Fits.of_split {form : Piece.Form} {n : Nat} {first : Char} {text rest : List Char}
    (count : n = text.length) (regular : Regular (.ofForm form) (first :: text) rest)
    (literal : ∀ kind literal, form = .token kind literal → Spells kind (first :: text) literal) :
    Fits (form, n) first (text ++ rest) := by
  subst count
  constructor
  · rw [List.take_left, List.drop_left]
    exact regular
  · rw [List.take_left]
    exact literal

theorem Fits.of_other {form : Piece.Form} {n : Nat} {first : Char} {text rest : List Char}
    (count : n = text.length) (regular : Regular (.ofForm form) (first :: text) rest)
    (other : (Category.ofForm form).isToken = false) : Fits (form, n) first (text ++ rest) :=
  .of_split count regular fun _ _ token => by
    rw [token] at other
    cases other

theorem Fits.of_fixed {kind : Token.Kind} {n : Nat} {first : Char} {cs : List Char}
    (fixed : Piece.Fixed kind (first :: cs.take n)) : Fits (.token kind .nil, n) first cs := by
  have spelled := fixed.spelled
  refine ⟨.fixed spelled, ?_⟩
  rintro _ _ ⟨⟩
  cases kind <;> first | rfl | cases spelled

theorem takeWhile_split (p : Char → Bool) (cs : List Char) :
    ∃ body rest, cs = body ++ rest ∧ cs.takeWhile p = body ∧ cs.dropWhile p = rest ∧
      ∀ x ∈ body, p x :=
  ⟨_, _, List.takeWhile_append_dropWhile.symm, rfl, rfl, fun _ => List.mem_takeWhile_imp⟩

theorem measureSlash_fits (cs : List Char) : Fits (Piece.measureSlash cs) '/' cs := by
  unfold Piece.measureSlash
  split
  · rename_i rest
    obtain ⟨body, more, rfl, taken, -, others⟩ := takeWhile_split (· != '\n') rest
    have line : '\n' ∉ body := fun member => by simpa using others _ member
    rw [taken, ← List.cons_append]
    exact .of_other (Nat.add_comm _ _) (.lineComment line) rfl
  · rename_i rest
    cases found : Piece.commentEnd 0 rest with
    | none =>
        rw [← List.append_nil ('*' :: rest)]
        have never := Piece.commentEnd_none.mp found
        exact .of_other (Nat.add_comm _ _) (.openComment never) rfl
    | some n =>
        obtain ⟨body, more, rfl, count, first⟩ := Piece.commentEnd_some found
        have split : '*' :: (body ++ '*' :: '/' :: more) = ('*' :: body ++ ['*', '/']) ++ more := by
          simp
        have count : n + 3 = ('*' :: body ++ ['*', '/']).length := by
          rw [List.length_append, List.length_cons, List.length_cons, List.length_singleton]
          omega
        rw [split]
        exact .of_other count (.blockComment first) rfl
  · exact .of_fixed .slash

theorem measureString_fits (cs : List Char) : Fits (Piece.measureString cs) '"' cs := by
  have closed := List.head?_dropWhile_not (· != '"') cs
  obtain ⟨body, rest, rfl, taken, dropped, others⟩ := takeWhile_split (· != '"') cs
  have inside : '"' ∉ body := fun member => by simpa using others _ member
  unfold Piece.measureString
  rw [dropped] at closed
  rw [taken, dropped]
  cases rest with
  | nil => exact .of_other rfl (.openString inside) rfl
  | cons quote more =>
      obtain rfl : quote = '"' := by simpa using closed
      rw [List.append_cons]
      refine .of_split (by simp) (.string inside) ?_
      rintro _ _ ⟨⟩
      exact ⟨body, rfl, rfl⟩

theorem measureNumber_fits {first : Char} (digit : Piece.isDigit first) (cs : List Char) :
    Fits (Piece.measureNumber first cs) first cs := by
  obtain ⟨ds, rest, rfl, taken, dropped, others⟩ := takeWhile_split Piece.isDigit cs
  have digits : ∀ d ∈ first :: ds, d.isDigit := List.forall_mem_cons.mpr ⟨digit, others⟩
  have nearest := Number.ofDigits_nearest (first :: ds)
  have whole : Fits (.token .number (.number (Number.ofDigits (first :: ds) [])), ds.length) first
      (ds ++ rest) := by
    have numeral : Numeral (first :: ds) _ := .whole (List.cons_ne_nil _ _) digits
    refine .of_split rfl (.number numeral) ?_
    rintro _ _ ⟨⟩
    refine ⟨_, _, numeral, ?_, rfl⟩
    simpa [Number.naturalOfDigits] using nearest []
  simp only [Piece.measureNumber, Piece.cutNumber]
  rw [taken, dropped]
  split
  · rename_i more
    obtain ⟨fs, after, rfl, taken, -, decimals⟩ := takeWhile_split Piece.isDigit more
    rw [taken]
    by_cases whole : fs = []
    · subst whole
      exact whole
    · have numeral : Numeral (first :: (ds ++ '.' :: fs)) _ :=
        .point (List.cons_ne_nil _ _) digits whole decimals
      rw [if_neg (by simpa using whole), ← List.cons_append, ← List.append_assoc]
      refine .of_split (by rw [List.length_append, List.length_cons]; omega) (.number numeral) ?_
      rintro _ _ ⟨⟩
      exact ⟨_, _, numeral, nearest fs, rfl⟩
  · exact whole

theorem measureWord_fits {first : Char} (letter : Piece.isLetter first) (cs : List Char) :
    Fits (Piece.measureWord first cs) first cs := by
  obtain ⟨more, rest, rfl, taken, -, word⟩ := takeWhile_split Piece.isWordChar cs
  simp only [Piece.measureWord, Piece.cutWord]
  rw [taken]
  cases reserved : Token.Kind.keyword? (String.ofList (first :: more)) with
  | some kind =>
      apply Fits.of_fixed
      rw [List.take_left]
      exact .word letter word reserved
  | none =>
      refine .of_split rfl ?_ (by rintro _ _ ⟨⟩; rfl)
      refine .identifier (Piece.isLetter_iff.mp letter)
        (fun c member => Piece.isWordChar_iff.mp (word c member)) fun kind spelled => ?_
      have known := (Piece.Fixed.of_spelling spelled).keyword letter
      rw [reserved] at known
      cases known

theorem Numeral.begins {text : List Char} {v : ℚ} (h : Numeral text v) :
    ∃ d more, text = d :: more ∧ Piece.isDigit d := by
  cases h with
  | whole some digits =>
      obtain ⟨d, ds, rfl⟩ := List.exists_cons_of_ne_nil some
      exact ⟨d, ds, rfl, digits d (.head _)⟩
  | point some digits =>
      obtain ⟨d, ds, rfl⟩ := List.exists_cons_of_ne_nil some
      exact ⟨d, _, rfl, digits d (.head _)⟩

theorem measure_fits (first : Char) (cs : List Char) :
    Fits (Piece.measure first cs) first cs ∨ Piece.measure first cs = (.rejected, 0) := by
  cases single : Piece.single? first with
  | some kind =>
      rw [Piece.measure_single single]
      exact .inl (.of_fixed (.single single))
  | none =>
  cases extendable : Piece.extendable? first with
  | some kinds =>
      obtain ⟨plain, extended⟩ := kinds
      rw [Piece.measure_extendable extendable]
      by_cases longer : cs.head? = some '='
      · obtain ⟨more, rfl⟩ := List.head?_eq_some_iff.mp longer
        rw [if_pos longer]
        exact .inl (.of_fixed (.extended extendable))
      · rw [if_neg longer]
        exact .inl (.of_fixed (.plain extendable))
  | none =>
  by_cases slash : first = '/'
  · subst slash
    exact .inl (measureSlash_fits cs)
  by_cases space : first ∈ [' ', '\t', '\r', '\n']
  · rw [Piece.measure_space space]
    exact .inl (@Fits.of_other .blank 0 first [] cs rfl (.blank space) rfl)
  by_cases quote : first = '"'
  · subst quote
    exact .inl (measureString_fits cs)
  by_cases digit : Piece.isDigit first
  · rw [Piece.measure_digit digit]
    exact .inl (measureNumber_fits digit cs)
  by_cases letter : Piece.isLetter first
  · rw [Piece.measure_letter letter]
    exact .inl (measureWord_fits letter cs)
  right
  have blank : Piece.isSpace first = false := by
    simpa [Piece.isSpace, and_assoc, and_left_comm, and_comm] using space
  unfold Piece.measure
  rw [single, extendable]
  simp only [beq_false_of_ne slash, blank, beq_false_of_ne quote, digit, letter,
    Bool.false_eq_true, ↓reduceIte]

end Lexical

end Lox
