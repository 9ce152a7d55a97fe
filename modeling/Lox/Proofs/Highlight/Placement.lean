import Lox.Proofs.Highlight
import Lox.Proofs.Lexical.Lines

namespace Lox

open Lexical

/-! ## Pieces as longest items -/

namespace Lexical

theorem Divides.of_append {front items : List (Category × List Char)} {cs : List Char}
    (h : Divides (front ++ items) cs) : ∃ rest, Divides items rest := by
  induction front generalizing cs with
  | nil => exact ⟨cs, h⟩
  | cons item front ih =>
      cases h with
      | cons _ others => exact ih others

theorem Regular.before_any {kind : Token.Kind} {text rest : List Char}
    (h : Regular (.token kind) text rest) (other : List Char) :
    Regular (.token kind) text other := by
  cases h with
  | fixed spelled => exact .fixed spelled
  | identifier letter word free => exact .identifier letter word free
  | string inside => exact .string inside
  | number numeral => exact .number numeral

theorem Regular.kind_ne_eof {kind : Token.Kind} {text rest : List Char}
    (h : Regular (.token kind) text rest) : kind ≠ .eof := by
  rintro rfl
  cases h with
  | fixed spelled => cases spelled

theorem Longest.length_of_plain {c : Category} {text rest : List Char} (h : Longest c text rest)
    (plain : c = .blank ∨ c = .rejected) : text.length = 1 := by
  rcases plain with rfl | rfl
  · cases h.stands with
    | regular regular =>
        cases regular with
        | blank => rfl
  · cases h.stands with
    | regular regular => exact absurd regular Regular.not_rejected
    | rejected => rfl

theorem Longest.category_eq {c c' : Category} {text text' rest rest' : List Char}
    (h : Longest c text rest) (h' : Stands c' text' rest') (same : text' ++ rest' = text ++ rest)
    (length : text.length ≤ text'.length) : c' = c := by
  obtain ⟨first, cs, whole⟩ := h.exists_cons
  have longest : Longest c' text' rest' := by
    refine ⟨h', fun _ _ _ other place => ?_⟩
    exact (h.most _ _ _ other (place.trans same)).trans length
  exact (longest.measured (same.trans whole)).1.trans (h.measured whole).1.symm

end Lexical

namespace Piece

variable {cs : List Char} {front rest : List Piece} {p : Piece}

theorem longest (split : (pieces cs).1 = front ++ p :: rest) :
    Longest (.ofForm p.form) p.text (rest.flatMap text) := by
  have divides := divides_pieces 1 cs
  rw [← pieces_fst, split, List.map_append, List.map_cons] at divides
  obtain ⟨_, divides⟩ := divides.of_append
  cases divides with
  | cons longest others =>
      rw [← others.flatMap, List.flatMap_map] at longest
      exact longest

theorem regular_of_token? {t : Token} (split : (pieces cs).1 = front ++ p :: rest)
    (token : p.token? = some t) (other : List Char) : Regular (.token t.kind) p.text other := by
  have stands := (longest split).stands
  obtain ⟨form, text, line⟩ := p
  cases form <;> cases token
  cases stands with
  | regular regular => exact regular.before_any other

theorem form_of_holds {between : List Piece} {q : Piece} {t : Token} {inside later : List Char}
    (split : (pieces cs).1 = front ++ q :: (between ++ p :: rest)) (plain : q.token? = none)
    (token : p.token? = some t) (short : inside.length < q.text.length)
    (reads : (q :: (between ++ p :: rest)).flatMap text = inside ++ p.text ++ later) :
    q.form = .comment := by
  have longest := longest split
  have regular := regular_of_token? (split.trans (List.append_assoc front (q :: between) _).symm)
    token later
  obtain ⟨form, chars, line⟩ := q
  have stands : Stands (.token t.kind) p.text later := .regular regular
  have some := regular.nonempty
  -- A piece of one character would be the token itself.
  have single : ¬ (Category.ofForm form = .blank ∨ Category.ofForm form = .rejected) := by
    intro kind
    have one : chars.length = 1 := longest.length_of_plain kind
    obtain rfl : inside = [] := List.length_eq_zero_iff.mp (Nat.lt_one_iff.mp (one ▸ short))
    have length : chars.length ≤ p.text.length := one ▸ List.length_pos_of_ne_nil some
    have same := longest.category_eq stands reads.symm length
    rcases kind with blank | rejected
    · rw [blank] at same
      cases same
    · rw [rejected] at same
      cases same
  cases form with
  | comment => rfl
  | token => cases plain
  | blank => exact absurd (.inl rfl) single
  | rejected => exact absurd (.inr rfl) single
  | openString =>
      have ends := longest.after_of_isOpen rfl rfl
      simp [some] at ends
  | openComment =>
      have ends := longest.after_of_isOpen rfl rfl
      simp [some] at ends

end Piece

namespace Highlight

/-! ## Where fragments stand -/

def Shows (fs : List Fragment) (before : List Char) (f : Fragment) : Prop :=
  ∃ earlier later, fs = earlier ++ f :: later ∧ earlier.flatMap Fragment.text = before

def Fragment.IsToken (f : Fragment) : Prop :=
  ∃ group, f.group = some group ∧ group ≠ .comment ∧ group ≠ .error

section Shows

variable {fs gs : List Fragment} {f g : Fragment} {before : List Char}

theorem Shows.head : Shows (f :: fs) [] f := ⟨[], fs, rfl, rfl⟩

theorem Shows.append (h : Shows gs before f) :
    Shows (fs ++ gs) (fs.flatMap Fragment.text ++ before) f := by
  obtain ⟨earlier, later, rfl, rfl⟩ := h
  exact ⟨fs ++ earlier, later, by simp, by simp⟩

theorem Shows.afterGap (h : Shows gs before f) (text : List Char) :
    Shows (gapBefore text ++ gs) (text ++ before) f := by
  have shows : Shows (gapBefore text ++ gs) ((gapBefore text).flatMap Fragment.text ++ before) f :=
    h.append
  rwa [(gapBefore_tiles text).whole] at shows

theorem Shows.tail (h : Shows fs before f) : Shows (g :: fs) (g.text ++ before) f := by
  obtain ⟨earlier, later, rfl, rfl⟩ := h
  exact ⟨g :: earlier, later, rfl, rfl⟩

theorem Shows.of_append (h : Shows (fs ++ gs) before f) :
    f ∈ fs ∨ ∃ more, before = fs.flatMap Fragment.text ++ more ∧ Shows gs more f := by
  obtain ⟨earlier, later, same, rfl⟩ := h
  rcases List.append_eq_append_iff.mp same with ⟨more, rfl, rest⟩ | ⟨more, whole, rest⟩
  · exact .inr ⟨_, List.flatMap_append, more, later, rest, rfl⟩
  · cases more with
    | nil =>
        rw [List.append_nil] at whole
        exact .inr ⟨[], by rw [whole, List.append_nil], [], later, rest.symm, rfl⟩
    | cons x more =>
        rw [List.cons_append, List.cons.injEq] at rest
        obtain ⟨rfl, -⟩ := rest
        exact .inl (by simp [whole])

theorem Shows.of_cons (h : Shows (g :: fs) before f) :
    (before = [] ∧ f = g) ∨ ∃ more, before = g.text ++ more ∧ Shows fs more f := by
  obtain ⟨earlier, later, same, rfl⟩ := h
  cases earlier with
  | nil =>
      rw [List.nil_append, List.cons.injEq] at same
      exact .inl ⟨rfl, same.1.symm⟩
  | cons x earlier =>
      rw [List.cons_append, List.cons.injEq] at same
      obtain ⟨rfl, rfl⟩ := same
      exact .inr ⟨_, rfl, earlier, later, rfl, rfl⟩

end Shows

theorem not_isToken_of_gap {text : List Char} : ∀ f ∈ gap text, ¬ f.IsToken := by
  unfold gap
  split <;> simp [Fragment.IsToken]

theorem not_isToken_of_gapBefore {text : List Char} : ∀ f ∈ gapBefore text, ¬ f.IsToken := by
  unfold gapBefore
  split
  · simp
  · exact not_isToken_of_gap

theorem not_isToken_of_tail {hasErrors : Bool} {text : List Char} :
    ∀ f ∈ tail hasErrors text, ¬ f.IsToken := by
  unfold tail
  split
  · simp
  split
  · simp [Fragment.IsToken]
  · exact not_isToken_of_gap

theorem group?_isToken {previous next : Option Token.Kind} {kind : Token.Kind}
    (inside : kind ≠ .eof) (text : List Char) :
    Fragment.IsToken ⟨group? previous kind next, text⟩ := by
  unfold group? Fragment.IsToken
  cases kind with
  | eof => exact absurd rfl inside
  | identifier =>
      dsimp only
      split <;> simp
  | _ => simp

/-! ## Tokens in their places -/

section Line

variable (hasErrors : Bool)

def inPlace (previous : Option Token.Kind) (passed : List Char) : List Piece → List Fragment
  | [] => tail hasErrors passed
  | p :: ps =>
      match p.token? with
      | none => inPlace previous (passed ++ p.text) ps
      | some t =>
          gapBefore passed ++
            ⟨group? previous t.kind ((ps.filterMap Piece.token?).head?.map Token.kind), p.text⟩ ::
              inPlace (some t.kind) [] ps

def searched (previous : Option Token.Kind) (passed : List Char) (ps : List Piece) :
    List Fragment :=
  fragments hasErrors (groupsAfter previous (ps.filterMap Piece.token?))
    (passed ++ ps.flatMap Piece.text)

/-- Each token of some pieces is found first in its own place. -/
def Clear (passed : List Char) : List Piece → Prop
  | [] => True
  | p :: ps =>
      match p.token? with
      | none => Clear (passed ++ p.text) ps
      | some _ =>
          First p.text (passed ++ p.text ++ ps.flatMap Piece.text) passed (ps.flatMap Piece.text) ∧
            Clear [] ps

variable {hasErrors} {previous : Option Token.Kind} {passed : List Char} {p : Piece}
  {ps : List Piece} {t : Token}

theorem searched_plain (plain : p.token? = none) :
    searched hasErrors previous passed (p :: ps) =
      searched hasErrors previous (passed ++ p.text) ps := by
  unfold searched
  rw [List.filterMap_cons_none plain, List.flatMap_cons, List.append_assoc]

theorem searched_token (token : p.token? = some t) {before after : List Char}
    (h : First p.text (passed ++ p.text ++ ps.flatMap Piece.text) before after) :
    searched hasErrors previous passed (p :: ps) = gapBefore before ++
      ⟨group? previous t.kind ((ps.filterMap Piece.token?).head?.map Token.kind), p.text⟩ ::
        fragments hasErrors (groupsAfter (some t.kind) (ps.filterMap Piece.token?)) after := by
  rw [← text_of_token? token] at h ⊢
  unfold searched
  rw [List.filterMap_cons_some token, groupsAfter, List.flatMap_cons, ← List.append_assoc,
    ← text_of_token? token]
  exact fragments_first hasErrors _ _ h

theorem inPlace_plain (plain : p.token? = none) :
    inPlace hasErrors previous passed (p :: ps) =
      inPlace hasErrors previous (passed ++ p.text) ps := by
  rw [inPlace, plain]

theorem inPlace_token (token : p.token? = some t) :
    inPlace hasErrors previous passed (p :: ps) = gapBefore passed ++
      ⟨group? previous t.kind ((ps.filterMap Piece.token?).head?.map Token.kind), p.text⟩ ::
        inPlace hasErrors (some t.kind) [] ps := by
  rw [inPlace, token]

theorem Clear.searched_eq (clear : Clear passed ps) :
    searched hasErrors previous passed ps = inPlace hasErrors previous passed ps := by
  induction ps generalizing previous passed with
  | nil =>
      unfold searched
      rw [List.flatMap_nil, List.append_nil]
      rfl
  | cons p ps ih =>
      unfold Clear at clear
      cases token : p.token? with
      | none =>
          rw [token] at clear
          rw [searched_plain token, inPlace_plain token, ih clear]
      | some t =>
          rw [token] at clear
          obtain ⟨first, clear⟩ := clear
          rw [searched_token token first, inPlace_token token]
          exact congrArg (gapBefore passed ++ _ :: ·) (ih clear)

/-! ## Lines in which each token is found in its place -/

theorem shows_inPlace {front rest : List Piece} (split : ps = front ++ p :: rest)
    (token : p.token? = some t) :
    Shows (inPlace hasErrors previous passed ps) (passed ++ front.flatMap Piece.text)
      ⟨group? (((front.filterMap Piece.token?).getLast?.map Token.kind).or previous) t.kind
        ((rest.filterMap Piece.token?).head?.map Token.kind), p.text⟩ := by
  subst split
  induction front generalizing previous passed with
  | nil =>
      rw [List.nil_append, inPlace_token token]
      exact Shows.head.afterGap passed
  | cons q front ih =>
      rw [List.cons_append, List.flatMap_cons]
      cases other : q.token? with
      | none =>
          rw [inPlace_plain other, List.filterMap_cons_none other, ← List.append_assoc]
          exact ih
      | some u =>
          have kinds : ∀ us : List Token, (((u :: us).getLast?).map Token.kind).or previous =
              (us.getLast?.map Token.kind).or (some u.kind) := by
            intro us
            rw [List.getLast?_cons]
            cases us.getLast? <;> rfl
          rw [inPlace_token other, List.filterMap_cons_some other, kinds]
          exact ih.tail.afterGap passed

theorem token_of_shows_inPlace {before : List Char} {f : Fragment}
    (shows : Shows (inPlace hasErrors previous passed ps) before f) (isToken : f.IsToken) :
    ∃ front p rest, ps = front ++ p :: rest ∧ p.token?.isSome ∧
      before = passed ++ front.flatMap Piece.text ∧ f.text = p.text := by
  induction ps generalizing previous passed before with
  | nil =>
      obtain ⟨earlier, later, same, -⟩ := shows
      have member : f ∈ tail hasErrors passed := by
        rw [← inPlace, same]
        simp
      exact absurd isToken (not_isToken_of_tail f member)
  | cons p ps ih =>
      cases token : p.token? with
      | none =>
          rw [inPlace_plain token] at shows
          obtain ⟨front, q, rest, rfl, found, rfl, text⟩ := ih shows
          exact ⟨p :: front, q, rest, rfl, found, by simp, text⟩
      | some t =>
          rw [inPlace_token token] at shows
          rcases shows.of_append with member | ⟨more, rfl, others⟩
          · exact absurd isToken (not_isToken_of_gapBefore f member)
          rw [(gapBefore_tiles passed).whole]
          rcases others.of_cons with ⟨rfl, rfl⟩ | ⟨more, rfl, later⟩
          · exact ⟨[], p, ps, rfl, by simp [token], by simp, rfl⟩
          · obtain ⟨front, q, rest, rfl, found, rfl, text⟩ := ih later
            exact ⟨p :: front, q, rest, rfl, found, by simp, text⟩

/-! ## Lines in which a token is found too early -/

theorem exists_piece_at {ps : List Piece} {before after : List Char}
    (within : ps.flatMap Piece.text = before ++ after) (left : after ≠ []) :
    ∃ front q rest inside, ps = front ++ q :: rest ∧ before = front.flatMap Piece.text ++ inside ∧
      inside.length < q.text.length := by
  induction ps generalizing before with
  | nil =>
      obtain ⟨-, ended⟩ := List.append_eq_nil_iff.mp within.symm
      exact absurd ended left
  | cons p ps ih =>
      by_cases here : before.length < p.text.length
      · exact ⟨[], p, ps, before, rfl, rfl, here⟩
      · rw [List.flatMap_cons] at within
        obtain ⟨more, rfl⟩ := List.prefix_of_prefix_length_le ⟨_, within⟩
          (List.prefix_append before after) (Nat.le_of_not_lt here)
        rw [List.append_assoc] at within
        obtain ⟨front, q, rest, inside, rfl, rfl, short⟩ := ih (List.append_cancel_left within)
        exact ⟨p :: front, q, rest, inside, rfl, by simp, short⟩

/-- The token `p` can be read from inside of the piece `q`. Between the two stand only pieces that
are no tokens either. -/
structure Overlaps (q : Piece) (between : List Piece) (p : Piece) (rest : List Piece)
    (inside : List Char) : Prop where
  plain : ∀ r ∈ q :: between, r.token? = none
  short : inside.length < q.text.length
  reads : ∃ later, (q :: (between ++ p :: rest)).flatMap Piece.text = inside ++ p.text ++ later

def Misplaced (fs : List Fragment) (ps : List Piece) : Prop :=
  ∃ front q between p rest inside t previous next,
    ps = front ++ q :: (between ++ p :: rest) ∧ p.token? = some t ∧
      Overlaps q between p rest inside ∧
      Shows fs (front.flatMap Piece.text ++ inside) ⟨group? previous t.kind next, p.text⟩

theorem Misplaced.after {fs gs : List Fragment} {ps qs : List Piece} (h : Misplaced fs ps)
    (same : gs.flatMap Fragment.text = qs.flatMap Piece.text) :
    Misplaced (gs ++ fs) (qs ++ ps) := by
  obtain ⟨front, q, between, p, rest, inside, t, previous, next, rfl, token, overlaps, shows⟩ := h
  refine ⟨qs ++ front, q, between, p, rest, inside, t, previous, next, by simp, token, overlaps, ?_⟩
  rw [List.flatMap_append, ← same, List.append_assoc]
  exact shows.append

theorem misplaced_of_early {passed : List Piece} (plain : ∀ q ∈ passed, q.token? = none)
    (token : p.token? = some t) {before after : List Char}
    (hit : First p.text (passed.flatMap Piece.text ++ p.text ++ ps.flatMap Piece.text) before after)
    (early : before.length < (passed.flatMap Piece.text).length) :
    Misplaced (searched hasErrors previous (passed.flatMap Piece.text) (p :: ps))
      (passed ++ p :: ps) := by
  have split := hit.split
  obtain ⟨more, within⟩ : before <+: passed.flatMap Piece.text := by
    rw [List.append_assoc, List.append_assoc] at split
    exact List.prefix_of_prefix_length_le ⟨_, split.symm⟩ (List.prefix_append _ _) early.le
  have left : more ≠ [] := by
    rintro rfl
    rw [← within, List.append_nil] at early
    exact early.ne rfl
  obtain ⟨front, q, between, inside, rfl, rfl, short⟩ := exists_piece_at within.symm left
  have shows := (@Shows.head (fragments hasErrors
    (groupsAfter (some t.kind) (ps.filterMap Piece.token?)) after) ⟨group? previous t.kind
      ((ps.filterMap Piece.token?).head?.map Token.kind), p.text⟩).afterGap
        (front.flatMap Piece.text ++ inside)
  rw [List.append_nil] at shows
  rw [searched_token token hit]
  refine ⟨front, q, between, p, ps, inside, t, previous, _, by simp, token, ?_, shows⟩
  exact ⟨(List.forall_mem_append.mp plain).2, short, after, by simpa using split⟩

/-- The induction is on the pieces that are still to come; those since the last token hold the place
in which the search stops early. -/
theorem misplaced_of_not_clear {passed : List Piece} (plain : ∀ q ∈ passed, q.token? = none)
    (unclear : ¬ Clear (passed.flatMap Piece.text) ps) :
    Misplaced (searched hasErrors previous (passed.flatMap Piece.text) ps) (passed ++ ps) := by
  induction ps generalizing previous passed with
  | nil => exact absurd trivial unclear
  | cons p ps ih =>
      unfold Clear at unclear
      cases token : p.token? with
      | none =>
          rw [token] at unclear
          have text : (passed ++ [p]).flatMap Piece.text =
              passed.flatMap Piece.text ++ p.text := by simp
          rw [searched_plain token, ← text, List.append_cons passed p ps]
          refine ih ?_ (by rwa [text])
          exact List.forall_mem_append.mpr ⟨plain, List.forall_mem_singleton.mpr token⟩
      | some t =>
          rw [token] at unclear
          by_cases first : First p.text
              (passed.flatMap Piece.text ++ p.text ++ ps.flatMap Piece.text)
              (passed.flatMap Piece.text) (ps.flatMap Piece.text)
          · have later : Misplaced (searched hasErrors (some t.kind) [] ps) ([] ++ ps) :=
              ih (List.forall_mem_nil _) fun clear => unclear ⟨first, clear⟩
            rw [searched_token token first, List.append_cons, List.append_cons passed p ps]
            refine later.after ?_
            simp [(gapBefore_tiles _).whole]
          · obtain ⟨before, after, hit⟩ := First.exists_of_split (rfl : passed.flatMap Piece.text ++
              p.text ++ ps.flatMap Piece.text = _)
            refine misplaced_of_early plain token hit (lt_of_le_of_ne (hit.first _ _ rfl) ?_)
            intro length
            obtain ⟨rfl, rfl⟩ := split_unique hit.split.symm length
            exact first hit

theorem Clear.of_append {front : List Piece} (clear : Clear passed (front ++ ps)) :
    ∃ others, Clear others ps := by
  induction front generalizing passed with
  | nil => exact ⟨passed, clear⟩
  | cons q front ih =>
      rw [List.cons_append] at clear
      unfold Clear at clear
      cases token : q.token? with
      | none =>
          rw [token] at clear
          exact ih clear
      | some t =>
          rw [token] at clear
          exact ih clear.2

theorem Clear.after {between : List Piece} (plain : ∀ q ∈ between, q.token? = none)
    (clear : Clear passed (between ++ ps)) : Clear (passed ++ between.flatMap Piece.text) ps := by
  induction between generalizing passed with
  | nil => rwa [List.flatMap_nil, List.append_nil]
  | cons q between ih =>
      obtain ⟨here, others⟩ := List.forall_mem_cons.mp plain
      rw [List.cons_append] at clear
      unfold Clear at clear
      rw [here] at clear
      rw [List.flatMap_cons, ← List.append_assoc]
      exact ih others clear

theorem Clear.not_overlaps {front between rest : List Piece} {q : Piece} {inside : List Char}
    (clear : Clear passed (front ++ q :: (between ++ p :: rest))) (token : p.token? = some t) :
    ¬ Overlaps q between p rest inside := by
  rintro ⟨plain, short, later, reads⟩
  obtain ⟨others, clear⟩ := clear.of_append
  have next : Clear (others ++ (q :: between).flatMap Piece.text) (p :: rest) := clear.after plain
  unfold Clear at next
  rw [token] at next
  have le := next.1.first (others ++ inside) later (by simpa using reads)
  simp only [List.length_append, List.flatMap_cons] at le
  omega

end Line

/-! ## Lines -/

/-- Each token of a line is a fragment by itself that stands where the token does, in the group of
the token between the tokens around it. No fragment that is shown as a token covers anything of the
other pieces, which are the blanks, the comments and what the scan rejects. -/
structure Faithful (cs : List Char) : Prop where
  tokens : ∀ front p rest t, (pieces cs).1 = front ++ p :: rest → p.token? = some t →
    Shows (line cs) (front.flatMap Piece.text)
      ⟨group? ((front.filterMap Piece.token?).getLast?.map Token.kind) t.kind
        ((rest.filterMap Piece.token?).head?.map Token.kind), t.lexeme.toList⟩
  others : ∀ front q rest, (pieces cs).1 = front ++ q :: rest → q.token? = none →
    ∀ before f, Shows (line cs) before f → f.IsToken →
      (before ++ f.text).length ≤ (front.flatMap Piece.text).length ∨
        (front.flatMap Piece.text ++ q.text).length ≤ before.length

/-- In a line there is a comment from inside of which the next token can be read. -/
def Hides (cs : List Char) : Prop :=
  ∃ front comment between p rest inside,
    (pieces cs).1 = front ++ comment :: (between ++ p :: rest) ∧ comment.form = .comment ∧
      p.token?.isSome ∧ Overlaps comment between p rest inside

variable {cs : List Char}

theorem line_eq (nonempty : cs ≠ []) :
    line cs = searched (!(Scan.ofChars cs).errors.isEmpty) none [] (pieces cs).1 := by
  unfold line searched
  rw [if_neg fun empty => nonempty (List.isEmpty_iff.mp empty), pieces_fst, flatMap_pieces]
  rfl

theorem ne_nil_of_split {front rest : List Piece} {p : Piece}
    (split : (pieces cs).1 = front ++ p :: rest) : cs ≠ [] := by
  rintro rfl
  exact absurd split (List.append_ne_nil_of_right_ne_nil front (List.cons_ne_nil p rest)).symm

theorem Hides.not_clear (hides : Hides cs) : ¬ Clear [] (pieces cs).1 := by
  obtain ⟨front, comment, between, p, rest, inside, split, -, isToken, overlaps⟩ := hides
  obtain ⟨t, token⟩ := Option.isSome_iff_exists.mp isToken
  intro clear
  rw [split] at clear
  exact clear.not_overlaps token overlaps

theorem Misplaced.hides {fs : List Fragment} (h : Misplaced fs (pieces cs).1) : Hides cs := by
  obtain ⟨front, q, between, p, rest, inside, t, -, -, split, token, overlaps, -⟩ := h
  obtain ⟨plain, short, later, reads⟩ := overlaps
  have form := Piece.form_of_holds split (plain q (.head _)) token short reads
  exact ⟨front, q, between, p, rest, inside, split, form, by simp [token],
    plain, short, later, reads⟩

theorem Misplaced.not_faithful (h : Misplaced (line cs) (pieces cs).1) : ¬ Faithful cs := by
  obtain ⟨front, q, between, p, rest, inside, t, previous, next, split, token, overlaps, shows⟩ := h
  have regular := Piece.regular_of_token?
    (split.trans (List.append_assoc front (q :: between) _).symm) token []
  have some := List.length_pos_of_ne_nil regular.nonempty
  have short := overlaps.short
  intro faithful
  have apart := faithful.others front q _ split (overlaps.plain q (.head _)) _ _ shows
    (group?_isToken regular.kind_ne_eof _)
  simp only [List.length_append] at apart
  omega

theorem Clear.faithful (clear : Clear [] (pieces cs).1) : Faithful cs := by
  have shown : ∀ {front p rest}, (pieces cs).1 = front ++ p :: rest → line cs =
      inPlace (!(Scan.ofChars cs).errors.isEmpty) none [] (pieces cs).1 := by
    intro front p rest split
    rw [line_eq (ne_nil_of_split split), clear.searched_eq]
  constructor
  · intro front p rest t split token
    have shows := @shows_inPlace (!(Scan.ofChars cs).errors.isEmpty) none [] p _ t _ _ split token
    rw [Option.or_none, ← shown split] at shows
    rw [text_of_token? token]
    exact shows
  · intro front q rest split plain before f shows isToken
    rw [shown split] at shows
    obtain ⟨before', p, after, split', found, rfl, text⟩ := token_of_shows_inPlace shows isToken
    rw [List.nil_append, text]
    -- The two pieces differ, so that one of them comes after the other.
    rcases List.append_eq_append_iff.mp (split.symm.trans split') with
      ⟨more, rfl, same⟩ | ⟨more, rfl, same⟩
    · cases more with
      | nil =>
          rw [List.nil_append, List.cons.injEq] at same
          rw [← same.1, plain] at found
          cases found
      | cons x more =>
          rw [List.cons_append, List.cons.injEq] at same
          obtain ⟨rfl, -⟩ := same
          right
          simp
    · cases more with
      | nil =>
          rw [List.nil_append, List.cons.injEq] at same
          rw [same.1, plain] at found
          cases found
      | cons x more =>
          rw [List.cons_append, List.cons.injEq] at same
          obtain ⟨rfl, -⟩ := same
          left
          simp

/-- Highlighting shows each token of a line where it stands, and nothing else as a token, unless
the next token after a comment can be read from inside of the comment. -/
theorem faithful_iff (cs : List Char) : Faithful cs ↔ ¬ Hides cs := by
  by_cases clear : Clear [] (pieces cs).1
  · exact ⟨fun _ hides => hides.not_clear clear, fun _ => clear.faithful⟩
  · have misplaced : Misplaced (searched (!(Scan.ofChars cs).errors.isEmpty) none [] (pieces cs).1)
        (pieces cs).1 := misplaced_of_not_clear (List.forall_mem_nil _) clear
    have nonempty : cs ≠ [] := by
      rintro rfl
      exact clear trivial
    rw [← line_eq nonempty] at misplaced
    exact ⟨fun faithful => absurd faithful misplaced.not_faithful,
      fun unhidden => absurd misplaced.hides unhidden⟩

theorem not_faithful_comment :
    line "/* nil */ nil".toList = [⟨some .comment, "/* ".toList⟩, ⟨some .constant, "nil".toList⟩,
        ⟨none, " */ nil".toList⟩] ∧ ¬ Faithful "/* nil */ nil".toList := by
  have shown : line "/* nil */ nil".toList = [⟨some .comment, "/* ".toList⟩,
      ⟨some .constant, "nil".toList⟩, ⟨none, " */ nil".toList⟩] := by decide
  refine ⟨shown, fun faithful => ?_⟩
  have shows : Shows (line "/* nil */ nil".toList) "/* ".toList ⟨some .constant, "nil".toList⟩ := by
    rw [shown]
    exact ⟨[_], [_], rfl, rfl⟩
  have apart := faithful.others [] ⟨.comment, "/* nil */".toList, 1⟩ [_, _] rfl rfl _ _ shows
    ⟨_, rfl, by decide, by decide⟩
  revert apart
  decide

end Highlight

end Lox
