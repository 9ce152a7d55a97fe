import Lox.Proofs.Lexical.Measure

namespace Lox.Lexical

structure Within (c : Category) (length : Nat) (measured : Piece.Form × Nat) : Prop where
  le : length ≤ measured.2
  same : length = measured.2 → c = .ofForm measured.1

theorem Within.exact {c : Category} {form : Piece.Form} {n : Nat} (same : c = .ofForm form) :
    Within c n (form, n) := ⟨le_rfl, fun _ => same⟩

theorem Within.of_lt {c : Category} {n : Nat} {measured : Piece.Form × Nat} (less : n < measured.2) :
    Within c n measured := ⟨less.le, fun same => absurd same less.ne⟩

theorem takeWhile_until {p : Char → Bool} {body : List Char} {c : Char} (all : ∀ x ∈ body, p x)
    (stop : p c = false) (rest : List Char) : (body ++ c :: rest).takeWhile p = body := by
  rw [Piece.takeWhile_stop stop, List.takeWhile_eq_self_iff.mpr all]

theorem dropWhile_until {p : Char → Bool} {body : List Char} {c : Char} (all : ∀ x ∈ body, p x)
    (stop : p c = false) (rest : List Char) : (body ++ c :: rest).dropWhile p = c :: rest := by
  rw [Piece.dropWhile_stop stop, List.dropWhile_eq_nil_iff.mpr all, List.nil_append]

theorem all_ne {c : Char} {body : List Char} (inside : c ∉ body) : ∀ x ∈ body, x != c :=
  fun _ member => bne_iff_ne.mpr fun same => inside (same ▸ member)

theorem measureWord_within {first : Char} {more : List Char} {kind : Token.Kind}
    (word : ∀ c ∈ more, Piece.isWordChar c) (rest : List Char)
    (named : (Token.Kind.keyword? (String.ofList (first :: more))).getD .identifier = kind) :
    Within (.token kind) more.length (Piece.measureWord first (more ++ rest)) := by
  simp only [Piece.measureWord, Piece.cutWord]
  rw [List.takeWhile_append_of_pos word]
  refine ⟨by simp, fun same => ?_⟩
  have stops : rest.takeWhile Piece.isWordChar = [] := by
    simpa using same
  dsimp only
  rw [stops, List.append_nil, named]
  rfl

theorem le_measureNumber (first : Char) (cs : List Char) :
    (cs.takeWhile Piece.isDigit).length ≤ (Piece.measureNumber first cs).2 := by
  simp only [Piece.measureNumber, Piece.cutNumber]
  split_ifs
  · exact le_rfl
  · exact (Nat.le_add_right _ 1).trans (Nat.le_add_right _ _)

theorem measureNumber_within {first : Char} {more : List Char} {v : ℚ}
    (numeral : Numeral (first :: more) v) (rest : List Char) :
    Within (.token .number) more.length (Piece.measureNumber first (more ++ rest)) := by
  refine ⟨?_, fun _ => rfl⟩
  generalize text : first :: more = all at numeral
  cases numeral with
  | whole some digits =>
      subst text
      have inside : ∀ d ∈ more, Piece.isDigit d := fun d member => digits d (.tail _ member)
      have long := le_measureNumber first (more ++ rest)
      rw [List.takeWhile_append_of_pos inside, List.length_append] at long
      omega
  | @point ds fs some digits nonempty decimals =>
      obtain ⟨d, ds, rfl⟩ := List.exists_cons_of_ne_nil some
      rw [List.cons_append, List.cons.injEq] at text
      obtain ⟨rfl, rfl⟩ := text
      have inside : ∀ d ∈ ds, Piece.isDigit d := fun d member => digits d (.tail _ member)
      have decimals : ∀ d ∈ fs, Piece.isDigit d := decimals
      simp only [Piece.measureNumber, Piece.cutNumber]
      rw [List.append_assoc, List.cons_append, takeWhile_until inside (by decide),
        dropWhile_until inside (by decide)]
      simp only [List.takeWhile_append_of_pos decimals]
      rw [if_neg (by simp [nonempty]), List.length_append, List.length_append, List.length_cons]
      omega

theorem fixed_within {kind : Token.Kind} {first : Char} {text : List Char}
    (fixed : Piece.Fixed kind (first :: text)) (rest : List Char) :
    Within (.token kind) text.length (Piece.measure first (text ++ rest)) := by
  cases fixed with
  | single found =>
      rw [Piece.measure_single found]
      exact .exact rfl
  | plain found =>
      rw [Piece.measure_extendable found]
      split
      · exact .of_lt Nat.one_pos
      · exact .exact rfl
  | extended found =>
      rw [Piece.measure_extendable found]
      exact .exact rfl
  | slash =>
      rw [Piece.measure_slash, List.nil_append]
      unfold Piece.measureSlash
      split
      · exact .of_lt (by simp)
      · split
        · exact .of_lt (by simp)
        · exact .of_lt (by simp)
      · exact .exact rfl
  | word letter word reserved =>
      rw [Piece.measure_letter letter]
      apply measureWord_within word
      rw [reserved]
      rfl

theorem Regular.within {c : Category} {first : Char} {text rest : List Char}
    (h : Regular c (first :: text) rest) :
    Within c text.length (Piece.measure first (text ++ rest)) := by
  generalize all : first :: text = item at h
  cases h with
  | blank space =>
      cases all
      rw [Piece.measure_space space]
      exact .exact rfl
  | @lineComment body _ line =>
      cases all
      rw [Piece.measure_slash, List.cons_append, Piece.measureSlash,
        List.takeWhile_append_of_pos (all_ne line)]
      refine ⟨?_, fun _ => rfl⟩
      rw [List.length_cons, List.length_append]
      dsimp only
      omega
  | @blockComment body _ unclosed =>
      rw [List.cons_append, List.cons_append, List.cons.injEq] at all
      obtain ⟨rfl, rfl⟩ := all
      have found := Piece.commentEnd_first unclosed 0 rest
      rw [Piece.measure_slash, List.cons_append, List.append_assoc, List.cons_append,
        List.singleton_append, Piece.measureSlash, found]
      exact ⟨by simp, fun _ => rfl⟩
  | openComment never =>
      cases all
      rw [Piece.measure_slash, List.append_nil, Piece.measureSlash,
        Piece.commentEnd_none.mpr never]
      exact ⟨(Nat.add_comm _ 1).le, fun _ => rfl⟩
  | @string body _ inside =>
      rw [List.cons_append, List.cons.injEq] at all
      obtain ⟨rfl, rfl⟩ := all
      rw [Piece.measure_quote, List.append_assoc, List.singleton_append, Piece.measureString,
        takeWhile_until (all_ne inside) (by decide), dropWhile_until (all_ne inside) (by decide)]
      exact ⟨by simp, fun _ => rfl⟩
  | openString inside =>
      cases all
      rw [Piece.measure_quote, List.append_nil, Piece.measureString,
        List.takeWhile_eq_self_iff.mpr (all_ne inside), List.dropWhile_eq_nil_iff.mpr (all_ne inside)]
      exact .exact rfl
  | identifier letter word free =>
      cases all
      have letter := Piece.isLetter_iff.mpr letter
      have word : ∀ c ∈ text, Piece.isWordChar c := fun c member =>
        Piece.isWordChar_iff.mpr (word c member)
      rw [Piece.measure_letter letter]
      apply measureWord_within word
      cases reserved : Token.Kind.keyword? (String.ofList (first :: text)) with
      | none => rfl
      | some kind => exact absurd (Token.Kind.spelling_of_keyword reserved) (free kind)
  | number numeral =>
      cases all
      obtain ⟨_, _, same, digit⟩ := numeral.begins
      cases same
      rw [Piece.measure_digit digit]
      exact measureNumber_within numeral rest
  | fixed spelled =>
      cases all
      exact fixed_within (.of_spelling spelled) rest

theorem Regular.nonempty {c : Category} {text rest : List Char} (h : Regular c text rest) :
    text ≠ [] := by
  cases h with
  | fixed spelled => cases Piece.Fixed.of_spelling spelled <;> exact List.cons_ne_nil _ _
  | number numeral =>
      obtain ⟨d, more, rfl, -⟩ := numeral.begins
      exact List.cons_ne_nil _ _
  | blank | lineComment | blockComment | identifier | string | openString | openComment =>
      exact List.cons_ne_nil _ _

theorem Stands.nonempty {c : Category} {text rest : List Char} (h : Stands c text rest) :
    text ≠ [] := by
  cases h with
  | regular h => exact h.nonempty
  | rejected => exact List.cons_ne_nil _ _

section Measure

variable (first : Char) (cs : List Char)

theorem Regular.not_rejected {text rest : List Char} : ¬ Regular .rejected text rest := nofun

variable {first cs} in
theorem alone_of_rejected (rejected : Piece.measure first cs = (.rejected, 0)) :
    ∀ c text after, Regular c text after → text ++ after ≠ first :: cs := by
  intro c text after regular same
  obtain ⟨x, text, rfl⟩ := List.exists_cons_of_ne_nil regular.nonempty
  rw [List.cons_append, List.cons.injEq] at same
  obtain ⟨rfl, rfl⟩ := same
  -- It would be as long as what was measured, hence the same.
  have within := regular.within
  rw [rejected] at within
  obtain rfl := within.same (Nat.le_zero.mp within.le)
  exact Regular.not_rejected regular

theorem measure_stands :
    Stands (.ofForm (Piece.measure first cs).1) (first :: cs.take (Piece.measure first cs).2)
      (cs.drop (Piece.measure first cs).2) := by
  rcases measure_fits first cs with fits | rejected
  · exact .regular fits.regular
  · have alone := alone_of_rejected rejected
    rw [rejected]
    exact .rejected alone

variable {first cs}

theorem Stands.within {c : Category} {text rest : List Char} (h : Stands c text rest)
    (same : text ++ rest = first :: cs) :
    text.length ≤ (Piece.measure first cs).2 + 1 ∧
      (text.length = (Piece.measure first cs).2 + 1 → c = .ofForm (Piece.measure first cs).1) := by
  obtain ⟨x, text, rfl⟩ := List.exists_cons_of_ne_nil h.nonempty
  rw [List.cons_append, List.cons.injEq] at same
  obtain ⟨rfl, rfl⟩ := same
  cases h with
  | regular h =>
      obtain ⟨le, same⟩ := h.within
      exact ⟨Nat.succ_le_succ le, fun equal => same (Nat.succ.inj equal)⟩
  | rejected alone =>
      refine ⟨Nat.le_add_left 1 _, fun _ => ?_⟩
      rcases measure_fits x rest with fits | rejected
      · refine absurd ?_ (alone _ _ _ fits.regular)
        rw [List.cons_append, List.take_append_drop]
      · rw [List.nil_append, rejected]
        rfl

theorem measure_longest :
    Longest (.ofForm (Piece.measure first cs).1) (first :: cs.take (Piece.measure first cs).2)
      (cs.drop (Piece.measure first cs).2) := by
  refine ⟨measure_stands first cs, fun c text rest stands same => ?_⟩
  rw [List.cons_append, List.take_append_drop] at same
  have count := Piece.measure_le first cs
  rw [List.length_cons, List.length_take_of_le count]
  exact (stands.within same).1

theorem Longest.measured {c : Category} {text rest : List Char} (h : Longest c text rest)
    (same : text ++ rest = first :: cs) :
    c = .ofForm (Piece.measure first cs).1 ∧ text = first :: cs.take (Piece.measure first cs).2 ∧
      rest = cs.drop (Piece.measure first cs).2 := by
  have count := Piece.measure_le first cs
  have whole : (first :: cs.take (Piece.measure first cs).2) ++ cs.drop (Piece.measure first cs).2 =
      text ++ rest := by
    rw [same, List.cons_append, List.take_append_drop]
  have least := h.most _ _ _ (measure_stands first cs) whole
  rw [List.length_cons, List.length_take_of_le count] at least
  obtain ⟨most, named⟩ := h.stands.within same
  have length : text.length = (Piece.measure first cs).2 + 1 := le_antisymm most least
  obtain ⟨texts, rests⟩ := List.append_inj whole
    (by rw [length, List.length_cons, List.length_take_of_le count])
  exact ⟨named length, texts.symm, rests.symm⟩

end Measure

end Lox.Lexical
