import Lox.Highlight
import Lox.Proofs.Lexical.Cut

namespace Lox

namespace Text

theorem linesAfter_ne_nil (current cs : List Char) : linesAfter current cs ≠ [] := by
  induction cs generalizing current with
  | nil => exact List.cons_ne_nil _ _
  | cons c cs ih =>
      unfold linesAfter
      split
      · exact List.cons_ne_nil _ _
      · exact ih _

theorem intercalate_linesAfter (current cs : List Char) :
    ['\n'].intercalate (linesAfter current cs) = current.reverse ++ cs := by
  induction cs generalizing current with
  | nil => simp [linesAfter]
  | cons c cs ih =>
      by_cases ends : c = '\n'
      · obtain ⟨row, rows, same⟩ := List.exists_cons_of_ne_nil (linesAfter_ne_nil [] cs)
        have rest := ih []
        rw [same] at rest
        rw [linesAfter, if_pos ends, same, ends, List.intercalate_cons_cons, rest]
        simp
      · rw [linesAfter, if_neg ends, ih]
        simp

theorem not_mem_linesAfter {current : List Char} (clear : '\n' ∉ current) (cs : List Char) :
    ∀ row ∈ linesAfter current cs, '\n' ∉ row := by
  induction cs generalizing current with
  | nil => simpa [linesAfter] using clear
  | cons c cs ih =>
      by_cases ends : c = '\n'
      · rw [linesAfter, if_pos ends]
        exact List.forall_mem_cons.mpr ⟨by simpa using clear, ih List.not_mem_nil⟩
      · rw [linesAfter, if_neg ends]
        refine ih fun member => ?_
        rcases List.mem_cons.mp member with rfl | inside
        · exact ends rfl
        · exact clear inside

end Text

namespace Highlight

section Search

variable {test : List Char → Bool} {passed text before found : List Char}

theorem splitWhere_eq_some (h : splitWhere test passed text = some (before, found)) :
    ∃ skipped, before = passed.reverse ++ skipped ∧ text = skipped ++ found ∧ test found = true ∧
      ∀ earlier later, text = earlier ++ later → test later = true →
        skipped.length ≤ earlier.length := by
  induction text generalizing passed with
  | nil =>
      unfold splitWhere at h
      split at h
      · rename_i here
        cases h
        exact ⟨[], by simp, rfl, here, by simp⟩
      · cases h
  | cons c text ih =>
      unfold splitWhere at h
      split at h
      · rename_i here
        cases h
        exact ⟨[], by simp, rfl, here, by simp⟩
      · rename_i other
        obtain ⟨skipped, rfl, rfl, here, first⟩ := ih h
        refine ⟨c :: skipped, by simp, rfl, here, fun earlier later split test => ?_⟩
        cases earlier with
        | nil =>
            rw [List.nil_append] at split
            rw [split] at other
            exact absurd test other
        | cons x earlier =>
            rw [List.cons_append, List.cons.injEq] at split
            exact Nat.succ_le_succ (first earlier later split.2 test)

theorem splitWhere_isSome {earlier later : List Char} (here : test later = true) :
    (splitWhere test passed (earlier ++ later)).isSome := by
  induction earlier generalizing passed with
  | nil =>
      unfold splitWhere
      cases later <;> simp [here]
  | cons c earlier ih =>
      rw [List.cons_append, splitWhere]
      split
      · rfl
      · exact ih

end Search

structure First (word text before after : List Char) : Prop where
  split : text = before ++ word ++ after
  first : ∀ earlier later, text = earlier ++ word ++ later → before.length ≤ earlier.length

section First

variable {word text before after : List Char}

theorem First.of_search {found : List Char}
    (h : splitWhere word.isPrefixOf [] text = some (before, found)) :
    ∃ after, found = word ++ after ∧ First word text before after := by
  obtain ⟨skipped, rfl, split, here, first⟩ := splitWhere_eq_some h
  obtain ⟨after, rfl⟩ := List.isPrefixOf_iff_prefix.mp here
  refine ⟨after, rfl, by simpa using split, fun earlier later same => ?_⟩
  refine first earlier (word ++ later) (by simpa using same) ?_
  exact List.isPrefixOf_iff_prefix.mpr (List.prefix_append word later)

theorem split_unique {before' after' : List Char}
    (same : before ++ word ++ after = before' ++ word ++ after')
    (length : before.length = before'.length) : before = before' ∧ after = after' := by
  rw [List.append_assoc, List.append_assoc] at same
  obtain ⟨same, others⟩ := List.append_inj same length
  exact ⟨same, List.append_cancel_left others⟩

theorem First.unique {before' after' : List Char} (h : First word text before after)
    (h' : First word text before' after') : before = before' ∧ after = after' :=
  split_unique (h.split.symm.trans h'.split)
    (Nat.le_antisymm (h.first _ _ h'.split) (h'.first _ _ h.split))

theorem search_isSome {earlier later : List Char} :
    (splitWhere word.isPrefixOf [] (earlier ++ word ++ later)).isSome := by
  rw [List.append_assoc]
  exact splitWhere_isSome (List.isPrefixOf_iff_prefix.mpr (List.prefix_append word later))

theorem First.search (h : First word text before after) :
    splitWhere word.isPrefixOf [] text = some (before, word ++ after) := by
  have finds : (splitWhere word.isPrefixOf [] text).isSome := h.split ▸ search_isSome
  obtain ⟨⟨before', found⟩, search⟩ := Option.isSome_iff_exists.mp finds
  obtain ⟨after', rfl, first⟩ := of_search search
  obtain ⟨rfl, rfl⟩ := h.unique first
  exact search

theorem First.exists_of_split {earlier later : List Char}
    (split : text = earlier ++ word ++ later) : ∃ before after, First word text before after := by
  have finds : (splitWhere word.isPrefixOf [] text).isSome := split ▸ search_isSome
  obtain ⟨⟨before, found⟩, search⟩ := Option.isSome_iff_exists.mp finds
  obtain ⟨after, -, first⟩ := of_search search
  exact ⟨before, after, first⟩

end First

/-- Each of some tokens is found in a text, in what comes after the one before it. -/
inductive Finds : List Token → List Char → Prop
  | nil {text : List Char} : Finds [] text
  | cons {t : Token} {ts : List Token} {text before after : List Char}
      (found : splitWhere t.lexeme.toList.isPrefixOf [] text =
        some (before, t.lexeme.toList ++ after))
      (others : Finds ts after) : Finds (t :: ts) text

theorem text_of_token? {p : Piece} {t : Token} (h : p.token? = some t) :
    t.lexeme.toList = p.text := by
  obtain ⟨form, text, line⟩ := p
  cases form <;> cases h
  exact String.toList_ofList

/-- Before the tokens stands what the search did not pass yet. A token is found where it stands or
earlier, so that the next one is still to come. -/
theorem finds_tokens (extra : List Char) (ps : List Piece) :
    Finds (ps.filterMap Piece.token?) (extra ++ ps.flatMap Piece.text) := by
  induction ps generalizing extra with
  | nil => exact .nil
  | cons p ps ih =>
      rw [List.flatMap_cons, ← List.append_assoc]
      cases token : p.token? with
      | none =>
          rw [List.filterMap_cons_none token]
          exact ih _
      | some t =>
          rw [List.filterMap_cons_some token, ← text_of_token? token]
          obtain ⟨before, after, first⟩ := First.exists_of_split
            (rfl : extra ++ t.lexeme.toList ++ ps.flatMap Piece.text = _)
          have le := first.first _ _ rfl
          obtain ⟨more, rfl⟩ : ∃ more, after = more ++ ps.flatMap Piece.text := by
            have length : (before ++ t.lexeme.toList).length ≤
                (extra ++ t.lexeme.toList).length := by simpa using le
            obtain ⟨more, same⟩ := List.prefix_of_prefix_length_le
              ⟨after, first.split.symm⟩ (List.prefix_append _ (ps.flatMap Piece.text)) length
            have split := first.split
            rw [← same, List.append_assoc _ more] at split
            exact ⟨more, (List.append_cancel_left split).symm⟩
          exact .cons first.search (ih more)

structure Tiles (fs : List Fragment) (text : List Char) : Prop where
  whole : fs.flatMap Fragment.text = text
  nonempty : ∀ f ∈ fs, f.text ≠ []

namespace Tiles

variable {fs gs : List Fragment} {text more : List Char}

theorem nil : Tiles [] [] := ⟨rfl, by simp⟩

theorem cons {f : Fragment} (nonempty : f.text ≠ []) (h : Tiles fs text) :
    Tiles (f :: fs) (f.text ++ text) :=
  ⟨by rw [List.flatMap_cons, h.whole], List.forall_mem_cons.mpr ⟨nonempty, h.nonempty⟩⟩

theorem single {group : Option Group} (nonempty : text ≠ []) : Tiles [⟨group, text⟩] text := by
  have one := cons (f := ⟨group, text⟩) nonempty nil
  rwa [List.append_nil] at one

theorem append (h : Tiles fs text) (h' : Tiles gs more) : Tiles (fs ++ gs) (text ++ more) :=
  ⟨by rw [List.flatMap_append, h.whole, h'.whole],
    List.forall_mem_append.mpr ⟨h.nonempty, h'.nonempty⟩⟩

end Tiles

theorem ne_nil_of_commentBegins {cs : List Char} (h : commentBegins cs = true) : cs ≠ [] := by
  rintro rfl
  cases h

theorem gap_tiles {text : List Char} (nonempty : text ≠ []) : Tiles (gap text) text := by
  unfold gap
  split
  · exact .single nonempty
  · rename_i comment search
    obtain ⟨skipped, same, rfl, begins, -⟩ := splitWhere_eq_some search
    obtain rfl : skipped = [] := by simpa using same
    exact .single nonempty
  · rename_i plain comment other search
    obtain ⟨skipped, rfl, rfl, begins, -⟩ := splitWhere_eq_some search
    exact .append (.single other) (.single (ne_nil_of_commentBegins begins))

theorem tail_tiles (hasErrors : Bool) (text : List Char) : Tiles (tail hasErrors text) text := by
  unfold tail
  split
  · rename_i empty
    rw [List.isEmpty_iff.mp empty]
    exact .nil
  · rename_i other
    have nonempty : text ≠ [] := fun empty => other (List.isEmpty_iff.mpr empty)
    split
    · exact .single nonempty
    · exact gap_tiles nonempty

def gapBefore (text : List Char) : List Fragment := if text.isEmpty then [] else gap text

theorem gapBefore_tiles (text : List Char) : Tiles (gapBefore text) text := by
  unfold gapBefore
  split
  · rename_i empty
    rw [List.isEmpty_iff.mp empty]
    exact .nil
  · rename_i other
    exact gap_tiles fun empty => other (List.isEmpty_iff.mpr empty)

theorem fragments_first (hasErrors : Bool) {t : Token} (group : Option Group)
    (ts : List (Token × Option Group)) {text before after : List Char}
    (h : First t.lexeme.toList text before after) :
    fragments hasErrors ((t, group) :: ts) text =
      gapBefore before ++ ⟨group, t.lexeme.toList⟩ :: fragments hasErrors ts after := by
  rw [fragments]
  simp only [h.search, List.drop_left]
  rfl

theorem fragments_tiles (hasErrors : Bool) {ts : List (Token × Option Group)}
    (nonempty : ∀ t ∈ ts, t.1.lexeme.toList ≠ []) (text : List Char) :
    Tiles (fragments hasErrors ts text) text := by
  induction ts generalizing text with
  | nil => exact tail_tiles hasErrors text
  | cons t ts ih =>
      obtain ⟨t, group⟩ := t
      obtain ⟨here, others⟩ := List.forall_mem_cons.mp nonempty
      cases search : splitWhere t.lexeme.toList.isPrefixOf [] text with
      | none =>
          rw [fragments]
          simp only [search]
          exact ih others text
      | some parts =>
          obtain ⟨before, found⟩ := parts
          obtain ⟨after, -, first⟩ := First.of_search search
          rw [fragments_first hasErrors group ts first, first.split, List.append_assoc]
          exact .append (gapBefore_tiles _)
            (.cons (f := ⟨group, t.lexeme.toList⟩) here (ih others after))

theorem map_groupsAfter (previous : Option Token.Kind) (ts : List Token) :
    (groupsAfter previous ts).map Prod.fst = ts := by
  induction ts generalizing previous with
  | nil => rfl
  | cons t ts ih => rw [groupsAfter, List.map_cons, ih]

theorem Finds.shown {ts : List (Token × Option Group)} {text : List Char}
    (finds : Finds (ts.map Prod.fst) text) (hasErrors : Bool) :
    (ts.map fun t => ⟨t.2, t.1.lexeme.toList⟩).Sublist (fragments hasErrors ts text) := by
  induction ts generalizing text with
  | nil => exact List.nil_sublist _
  | cons t ts ih =>
      obtain ⟨t, group⟩ := t
      cases finds with
      | cons found others =>
          rw [fragments]
          simp only [found, List.drop_left]
          exact ((ih others).cons_cons _).trans (List.sublist_append_right ..)

theorem line_shows_tokens {cs : List Char} (nonempty : cs ≠ []) :
    ((groups (Scan.ofChars cs).tokens).map fun t => ⟨t.2, t.1.lexeme.toList⟩).Sublist
      (line cs) := by
  have finds := finds_tokens [] (pieces cs).1
  rw [List.nil_append, pieces_fst, flatMap_pieces] at finds
  unfold line
  rw [if_neg fun empty => nonempty (List.isEmpty_iff.mp empty)]
  apply Finds.shown
  rw [groups, map_groupsAfter]
  exact finds

theorem text_ne_nil_of_mem_pieces {cs : List Char} : ∀ p ∈ (pieces cs).1, p.text ≠ [] := by
  intro p member
  exact (Lexical.divides_pieces 1 cs).nonempty p.item (List.mem_map_of_mem member)

theorem line_tiles {cs : List Char} (nonempty : cs ≠ []) : Tiles (line cs) cs := by
  unfold line
  rw [if_neg fun empty => nonempty (List.isEmpty_iff.mp empty)]
  refine fragments_tiles _ (fun t member => ?_) cs
  have inside : t.1 ∈ (Scan.ofChars cs).tokens := by
    rw [← map_groupsAfter none (Scan.ofChars cs).tokens]
    exact List.mem_map_of_mem member
  obtain ⟨p, piece, token⟩ := List.mem_filterMap.mp inside
  rw [text_of_token? token]
  exact text_ne_nil_of_mem_pieces p piece

theorem lineAt_eq (text : String) (n : Nat) :
    lineAt text n = line ((Text.lines text.toList).getD n []) := by
  rw [lineAt, lines, ← List.getD_map (f := line)]
  rfl

/-- A text is its lines with line ends between them. Put together, the fragments of a line are the
line, and none of them is empty unless the line is; past the last line there is no text. Each token
of a line is found in it, in what comes after the token before. -/
theorem lineAt_keeps_text (text : String) :
    let rows := Text.lines text.toList
    ['\n'].intercalate rows = text.toList ∧ (∀ row ∈ rows, '\n' ∉ row) ∧
      ∀ n, let row := rows.getD n []
        (lineAt text n).flatMap Fragment.text = row ∧
          (row ≠ [] → ∀ f ∈ lineAt text n, f.text ≠ []) ∧ Finds (Scan.ofChars row).tokens row := by
  intro rows
  refine ⟨Text.intercalate_linesAfter [] _, Text.not_mem_linesAfter List.not_mem_nil _, ?_⟩
  intro n row
  have finds := finds_tokens [] (pieces row).1
  rw [List.nil_append, pieces_fst, flatMap_pieces] at finds
  rw [lineAt_eq]
  by_cases empty : row = []
  · rw [show (Text.lines text.toList).getD n [] = [] from empty]
    exact ⟨empty.symm, fun nonempty => absurd empty nonempty, finds⟩
  · obtain ⟨whole, nonempty⟩ := line_tiles empty
    exact ⟨whole, fun _ => nonempty, finds⟩

end Highlight

end Lox
