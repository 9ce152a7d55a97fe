import Lox.Proofs.Lexical.Longest

namespace Lox

open Lexical

def Piece.item (p : Piece) : Category × List Char := (.ofForm p.form, p.text)

theorem piecesAfter_skip (line skip : Nat) (cs : List Char) :
    piecesAfter line skip cs = piecesAfter line 0 (cs.drop skip) := by
  induction cs generalizing skip with
  | nil => rw [List.drop_nil, piecesAfter_nil, piecesAfter_nil]
  | cons c cs ih =>
      cases skip with
      | zero => rfl
      | succ skip =>
          rw [piecesAfter_succ, List.drop_succ_cons]
          exact ih skip

namespace Lexical

theorem divides_pieces (line : Nat) (cs : List Char) :
    Divides ((piecesAfter line 0 cs).map Piece.item) cs := by
  -- The induction is on the length: what comes after an item is shorter by the whole item.
  induction length : cs.length using Nat.strong_induction_on generalizing line cs with
  | h n ih =>
      cases cs with
      | nil => exact .nil
      | cons first cs =>
          have longest := @measure_longest first cs
          have shorter : (cs.drop (Piece.measure first cs).2).length < n := by
            rw [List.length_drop, ← length, List.length_cons]
            omega
          rw [piecesAfter_cons, List.map_cons, piecesAfter_skip]
          have others := ih _ shorter
            (line + newlines (first :: cs.take (Piece.measure first cs).2)) _ rfl
          have divides := Divides.cons longest others
          rw [List.cons_append, List.take_append_drop] at divides
          exact divides

theorem Longest.exists_cons {c : Category} {text rest : List Char} (h : Longest c text rest) :
    ∃ first cs, text ++ rest = first :: cs := by
  obtain ⟨first, more, rfl⟩ := List.exists_cons_of_ne_nil h.stands.nonempty
  exact ⟨first, more ++ rest, rfl⟩

theorem Divides.eq_pieces {items : List (Category × List Char)} {cs : List Char}
    (h : Divides items cs) (line : Nat) : items = (piecesAfter line 0 cs).map Piece.item := by
  induction h generalizing line with
  | nil => rfl
  | @cons c text rest items longest others ih =>
      obtain ⟨first, cs, same⟩ := longest.exists_cons
      obtain ⟨named, texts, rests⟩ := longest.measured same
      rw [same, piecesAfter_cons, List.map_cons, piecesAfter_skip, ← rests, ← ih]
      exact congrArg (· :: items) (Prod.ext named texts)

theorem Divides.nonempty {items : List (Category × List Char)} {cs : List Char}
    (h : Divides items cs) : ∀ item ∈ items, item.2 ≠ [] := by
  induction h with
  | nil => simp
  | cons longest _ ih => exact List.forall_mem_cons.mpr ⟨longest.stands.nonempty, ih⟩

theorem Divides.flatMap {items : List (Category × List Char)} {cs : List Char}
    (h : Divides items cs) : items.flatMap (·.2) = cs := by
  induction h with
  | nil => rfl
  | cons _ _ ih => rw [List.flatMap_cons, ih]

theorem spells_of_mem_pieces {line skip : Nat} {cs : List Char} :
    ∀ p ∈ piecesAfter line skip cs, ∀ kind literal, p.form = .token kind literal →
      Spells kind p.text literal := by
  induction cs generalizing line skip with
  | nil => simp [piecesAfter_nil]
  | cons c cs ih =>
      cases skip with
      | succ skip => exact ih
      | zero =>
          rw [piecesAfter_cons]
          refine List.forall_mem_cons.mpr ⟨fun kind literal token => ?_, ih⟩
          rcases measure_fits c cs with fits | rejected
          · exact fits.literal kind literal token
          · rw [rejected] at token
            cases token

theorem yields_tokens {ps : List Piece} (spells : ∀ p ∈ ps, ∀ kind literal,
    p.form = .token kind literal → Spells kind p.text literal) :
    List.Forall₂ Yields ((ps.map Piece.item).filter (·.1.isToken)) (ps.filterMap Piece.token?) := by
  induction ps with
  | nil => exact .nil
  | cons p ps ih =>
      obtain ⟨here, others⟩ := List.forall_mem_cons.mp spells
      obtain ⟨form, text, line⟩ := p
      cases form with
      | token kind literal =>
          exact .cons ⟨rfl, rfl, here kind literal rfl⟩ (ih others)
      | blank | comment | rejected | openString | openComment => exact ih others

theorem causes_eq (ps : List Piece) :
    (ps.filterMap Piece.error?).map (·.cause) = (ps.map Piece.item).filterMap (·.1.cause?) := by
  rw [List.map_filterMap, List.filterMap_map]
  congr 1
  funext p
  obtain ⟨form, text, line⟩ := p
  cases form <;> rfl

end Lexical

/-- Each text has one division into longest items, in which nothing is lost. Its tokens and then the
mark of the end are those of the scan, and its other faulty items are the errors. -/
theorem Scan.ofString_divides (source : String) :
    ∃ items, Divides items source.toList ∧
      (∀ others, Divides others source.toList → others = items) ∧
      (∀ item ∈ items, item.2 ≠ []) ∧ items.flatMap (·.2) = source.toList ∧
      List.Forall₂ Yields (items.filter (·.1.isToken) ++ [(.token .eof, [])])
        (ofString source).allTokens ∧
      (ofString source).errors.map (·.cause) = items.filterMap (·.1.cause?) := by
  have divides := divides_pieces 1 source.toList
  have tokens : List.Forall₂ Yields _ (ofString source).tokens := yields_tokens spells_of_mem_pieces
  have eof : Yields (.token .eof, []) (ofString source).eof := ⟨rfl, rfl, rfl⟩
  refine ⟨_, divides, fun others other => other.eq_pieces 1, divides.nonempty, divides.flatMap,
    ?_, causes_eq _⟩
  exact List.rel_append tokens (.cons eof .nil)

end Lox
