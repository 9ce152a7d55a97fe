import Lox.Proofs.Lexical.Division

namespace Lox

namespace Lexical

/-- An item with the texts before it and after it. -/
structure Place where
  category : Category
  before : List Char
  text : List Char
  after : List Char

namespace Place

def item (p : Place) : Category × List Char := (p.category, p.text)

def lastLine (p : Place) : Nat := 1 + newlines (p.before ++ p.text)

structure Holds (p : Place) (piece : Piece) : Prop where
  item : piece.item = p.item
  line : piece.line = p.lastLine

end Place

def places (before : List Char) : List (Category × List Char) → List Place
  | [] => []
  | (c, text) :: items =>
      ⟨c, before, text, items.flatMap (·.2)⟩ :: places (before ++ text) items

variable {items : List (Category × List Char)} {cs before : List Char} {p : Place}

theorem Divides.longest_of_mem_places (h : Divides items cs) (member : p ∈ places before items) :
    Longest p.category p.text p.after ∧ p.before ++ p.text ++ p.after = before ++ cs := by
  induction h generalizing before with
  | nil => cases member
  | @cons c text rest items longest others ih =>
      rcases List.mem_cons.mp member with rfl | later
      · rw [others.flatMap]
        exact ⟨longest, List.append_assoc ..⟩
      · rw [← List.append_assoc]
        exact ih later

theorem Longest.after_of_isOpen {c : Category} {text rest : List Char} {cause : ScanError.Cause}
    (h : Longest c text rest) (faulty : c.cause? = some cause) (isOpen : cause.isOpen = true) :
    rest = [] := by
  obtain ⟨stands, -⟩ := h
  cases stands with
  | regular regular =>
      cases regular with
      | openString | openComment => rfl
      | blank | lineComment | blockComment | fixed | identifier | string | number => cases faulty
  | rejected =>
      cases faulty
      cases isOpen

theorem Longest.newlines_of_rejected {c : Category} {text rest : List Char}
    {cause : ScanError.Cause} (h : Longest c text rest) (faulty : c.cause? = some cause)
    (closed : cause.isOpen = false) : newlines text = 0 := by
  obtain ⟨stands, -⟩ := h
  cases stands with
  | regular regular =>
      cases regular with
      | openString | openComment =>
          cases faulty
          cases closed
      | blank | lineComment | blockComment | fixed | identifier | string | number => cases faulty
  | @rejected x rest alone =>
      -- A line end would be a blank.
      have other : '\n' ≠ x := by
        rintro rfl
        exact alone .blank ['\n'] rest (.blank (by simp)) rfl
      exact List.count_eq_zero.mpr (by simpa using other)

theorem Divides.lastLine_of_faulty (h : Divides items cs) (member : p ∈ places [] items)
    {cause : ScanError.Cause} (faulty : p.category.cause? = some cause) :
    p.lastLine = 1 + newlines (if cause.isOpen then cs else p.before) := by
  obtain ⟨longest, whole⟩ := h.longest_of_mem_places member
  unfold Place.lastLine
  cases isOpen : cause.isOpen with
  | true =>
      rw [longest.after_of_isOpen faulty isOpen, List.append_nil, List.nil_append] at whole
      rw [whole]
      rfl
  | false =>
      rw [newlines_append, longest.newlines_of_rejected faulty isOpen]
      rfl

theorem Divides.holds (h : Divides items cs) (before : List Char) :
    List.Forall₂ Place.Holds (places before items) (piecesAfter (1 + newlines before) 0 cs) := by
  induction h generalizing before with
  | nil => exact .nil
  | @cons c text rest items longest others ih =>
      obtain ⟨first, cs, same⟩ := longest.exists_cons
      obtain ⟨named, texts, rests⟩ := longest.measured same
      have line : 1 + newlines before + newlines text = 1 + newlines (before ++ text) := by
        rw [newlines_append, Nat.add_assoc]
      rw [same, piecesAfter_cons, piecesAfter_skip, ← rests, ← texts, line]
      exact .cons ⟨Prod.ext named.symm rfl, rfl⟩ (ih (before ++ text))

theorem pairwise_line_pieces (line skip : Nat) (cs : List Char) :
    (piecesAfter line skip cs).Pairwise (·.line ≤ ·.line) := by
  induction cs generalizing line skip with
  | nil => exact .nil
  | cons c cs ih =>
      cases skip with
      | succ skip => exact ih line skip
      | zero =>
          rw [piecesAfter_cons]
          exact .cons (fun p later => (line_of_mem_pieces p later).1) (ih _ _)

theorem tokens_of_holds {ps : List Place} {qs : List Piece} (h : List.Forall₂ Place.Holds ps qs)
    (spells : ∀ q ∈ qs, ∀ kind literal, q.form = .token kind literal → Spells kind q.text literal) :
    List.Forall₂ (fun p t => Yields p.item t ∧ t.line = p.lastLine)
      (ps.filter (·.category.isToken)) (qs.filterMap Piece.token?) := by
  induction h with
  | nil => exact .nil
  | @cons p q ps qs first others ih =>
      obtain ⟨here, later⟩ := List.forall_mem_cons.mp spells
      obtain ⟨category, before, text, after⟩ := p
      obtain ⟨form, text, line⟩ := q
      obtain ⟨item, last⟩ := first
      cases item
      cases form with
      | token kind literal => exact .cons ⟨⟨rfl, rfl, here kind literal rfl⟩, last⟩ (ih later)
      | blank | comment | rejected | openString | openComment => exact ih later

theorem errors_of_holds {ps : List Place} {qs : List Piece} (h : List.Forall₂ Place.Holds ps qs) :
    List.Forall₂ (fun p e => p.category.cause? = some e.cause ∧ e.line = p.lastLine)
      (ps.filter (·.category.cause?.isSome)) (qs.filterMap Piece.error?) := by
  induction h with
  | nil => exact .nil
  | @cons p q ps qs first others ih =>
      obtain ⟨category, before, text, after⟩ := p
      obtain ⟨form, text, line⟩ := q
      obtain ⟨item, last⟩ := first
      cases item
      cases form with
      | rejected | openString | openComment => exact .cons ⟨rfl, last⟩ ih
      | blank | comment | token => exact ih

theorem line_of_token? {q : Piece} {t : Token} (h : q.token? = some t) : t.line = q.line := by
  obtain ⟨form, text, line⟩ := q
  cases form <;> cases h
  rfl

theorem line_of_error? {q : Piece} {e : ScanError} (h : q.error? = some e) : e.line = q.line := by
  obtain ⟨form, text, line⟩ := q
  cases form <;> cases h <;> rfl

end Lexical

open Lexical

namespace Scan

theorem lastLine_ofChars (cs : List Char) : (ofChars cs).lastLine = 1 + newlines cs :=
  congrArg lastLine (ofChars_eq cs)

theorem pairwise_line_allTokens (cs : List Char) :
    (ofChars cs).allTokens.Pairwise (·.line ≤ ·.line) := by
  refine List.pairwise_append.mpr ⟨?_, List.pairwise_singleton .., fun t token e last => ?_⟩
  · refine (pairwise_line_pieces 1 0 cs).filterMap _ fun p q le t first u second => ?_
    rw [line_of_token? first, line_of_token? second]
    exact le
  · obtain rfl := List.mem_singleton.mp last
    exact (line_of_mem_tokens token).2.trans_eq (lastLine_ofChars cs).symm

theorem pairwise_line_errors (cs : List Char) :
    (ofChars cs).errors.Pairwise (·.line ≤ ·.line) := by
  refine (pairwise_line_pieces 1 0 cs).filterMap _ fun p q le d first e second => ?_
  rw [line_of_error? first, line_of_error? second]
  exact le

/-- Each token is on the line that the line ends up to the end of its lexeme say, a rejected
character on the one that those before it say, and the mark of the end and what lacks its end on
the last one. -/
theorem ofString_lines (source : String) :
    ∃ items, Divides items source.toList ∧
      (∀ others, Divides others source.toList → others = items) ∧
      (∀ p ∈ places [] items, p.before ++ p.text ++ p.after = source.toList) ∧
      List.Forall₂ (fun p t => Yields p.item t ∧ t.line = 1 + newlines (p.before ++ p.text))
        ((places [] items).filter (·.category.isToken)) (ofString source).tokens ∧
      List.Forall₂ (fun p e => p.category.cause? = some e.cause ∧
          e.line = 1 + newlines (if e.cause.isOpen then source.toList else p.before))
        ((places [] items).filter (·.category.cause?.isSome)) (ofString source).errors ∧
      (ofString source).eof.line = 1 + newlines source.toList ∧
      (ofString source).allTokens.Pairwise (·.line ≤ ·.line) ∧
      (ofString source).errors.Pairwise (·.line ≤ ·.line) ∧
      ∀ text : List Char, newlines (text.filter (· ≠ '\r')) = newlines text := by
  have divides := divides_pieces 1 source.toList
  have holds := divides.holds []
  have tokens := tokens_of_holds holds spells_of_mem_pieces
  have errors := errors_of_holds holds
  refine ⟨_, divides, fun others other => other.eq_pieces 1,
    fun p member => (divides.longest_of_mem_places member).2, tokens, ?_, lastLine_ofChars _,
    pairwise_line_allTokens _, pairwise_line_errors _, fun text => List.count_filter (by decide)⟩
  refine ((List.forall₂_and_left _ _).mpr
    ⟨fun p member => (List.mem_filter.mp member).1, errors⟩).imp ?_
  rintro p e ⟨member, faulty, line⟩
  exact ⟨faulty, line.trans (divides.lastLine_of_faulty member faulty)⟩

example :
    let scan := ofString "\"a\r\n\" # ;\n/* \n *\n"
    scan.allTokens.map (·.line) = [2, 2, 5] ∧
      scan.errors = [⟨.rejectedCharacter, 2⟩, ⟨.openComment, 5⟩] := by
  decide

end Scan

end Lox
