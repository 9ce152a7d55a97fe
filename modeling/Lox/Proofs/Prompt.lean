import Lox.Prompt.Loop
import Lox.Proofs.Entry
import Lox.Proofs.Grammar.Lookahead

namespace Lox

namespace Text

theorem trimLeft_append {blanks : List Char} (blank : ∀ c ∈ blanks, isBlank c = true)
    {first : Char} (visible : isBlank first = false) (rest : List Char) :
    trimLeft (blanks ++ first :: rest) = first :: rest := by
  rw [trimLeft, List.dropWhile_append_of_pos blank, List.dropWhile_cons_of_neg (by simp [visible])]

def trimRight (cs : List Char) : List Char := (trimLeft cs.reverse).reverse

theorem trimRight_cons {first : Char} (visible : isBlank first = false) (rest : List Char) :
    trimRight (first :: rest) = first :: trimRight rest := by
  have stops : trimLeft [first] = [first] := trimLeft_append (List.forall_mem_nil _) visible []
  unfold trimRight trimLeft at *
  rw [List.reverse_cons, List.dropWhile_append, stops]
  split
  case isTrue empty => simp [List.isEmpty_iff.mp empty]
  case isFalse => simp

theorem trim_append {blanks : List Char} (blank : ∀ c ∈ blanks, isBlank c = true)
    {first : Char} (visible : isBlank first = false) (rest : List Char) :
    trim (blanks ++ first :: rest) = first :: trimRight rest := by
  rw [trim, trimLeft_append blank visible, ← trimRight, trimRight_cons visible]

theorem trim_ne_nil {cs : List Char} (inked : ∃ c ∈ cs, isBlank c = false) : trim cs ≠ [] := by
  obtain ⟨c, member, visible⟩ := inked
  intro empty
  have rest : ∀ d ∈ (trimLeft cs).reverse, isBlank d = true :=
    List.dropWhile_eq_nil_iff.mp (List.reverse_eq_nil_iff.mp empty)
  rw [← @List.takeWhile_append_dropWhile _ isBlank cs, List.mem_append] at member
  have blank : isBlank c = true := by
    rcases member with front | back
    · exact List.mem_takeWhile_imp front
    · exact rest c (List.mem_reverse.mpr back)
  rw [visible] at blank
  cases blank

end Text

namespace Piece

theorem isBlank_of_spaces {blanks : List Char}
    (space : ∀ c ∈ blanks, c ∈ [' ', '\t', '\r', '\n']) : ∀ c ∈ blanks, Text.isBlank c = true := by
  intro c member
  have space := space c member
  simp only [List.mem_cons, List.not_mem_nil, or_false] at space
  rcases space with rfl | rfl | rfl | rfl <;> rfl

theorem isBlank_of_isWordChar {c : Char} (word : isWordChar c = true) : Text.isBlank c = false := by
  simp only [isWordChar, isLetter, isDigit, Bool.or_eq_true, Bool.and_eq_true, decide_eq_true_eq,
    beq_iff_eq, Char.le_def, UInt32.le_iff_toNat_le] at word
  rcases word with ((⟨low, high⟩ | ⟨low, high⟩) | rfl) | ⟨low, high⟩
  case inl.inr => rfl
  all_goals
    simp only [Text.isBlank, Bool.or_eq_false_iff, Bool.and_eq_false_iff, decide_eq_false_iff_not,
      beq_eq_false_iff_ne]
    simp at low high
    omega

theorem measure_rejected {c : Char} (blank : Text.isBlank c = true)
    (other : c ∉ [' ', '\t', '\r', '\n']) (rest : List Char) : measure c rest = (.rejected, 0) := by
  have blanks : marks.filter Text.isBlank = [' ', '\r', '\t', '\n'] := rfl
  have unmarked : c ∉ marks := by
    intro mark
    have space : c ∈ marks.filter Text.isBlank := List.mem_filter.mpr ⟨mark, blank⟩
    rw [blanks] at space
    simp_all
  have plain : isWordChar c = false := by
    by_contra word
    rw [isBlank_of_isWordChar (by simpa using word)] at blank
    cases blank
  rw [isWordChar, Bool.or_eq_false_iff] at plain
  rw [measure_unmarked unmarked, plain.1, plain.2]
  rfl

end Piece

theorem split_blanks (cs : List Char) :
    (∀ c ∈ cs, c ∈ [' ', '\t', '\r', '\n']) ∨ ∃ blanks first rest, cs = blanks ++ first :: rest ∧
      (∀ c ∈ blanks, c ∈ [' ', '\t', '\r', '\n']) ∧ first ∉ [' ', '\t', '\r', '\n'] := by
  induction cs with
  | nil => exact .inl (List.forall_mem_nil _)
  | cons c cs ih =>
      by_cases space : c ∈ [' ', '\t', '\r', '\n']
      · rcases ih with all | ⟨blanks, first, rest, rfl, blank, other⟩
        · exact .inl (List.forall_mem_cons.mpr ⟨space, all⟩)
        · exact .inr ⟨c :: blanks, first, rest, rfl, List.forall_mem_cons.mpr ⟨space, blank⟩, other⟩
      · exact .inr ⟨[], c, cs, rfl, List.forall_mem_nil _, space⟩

theorem exists_piecesAfter_blanks {blanks : List Char}
    (blank : ∀ c ∈ blanks, c ∈ [' ', '\t', '\r', '\n']) (line : Nat) (first : Char)
    (rest : List Char) :
    ∃ passed p ps, piecesAfter line 0 (blanks ++ first :: rest) = passed ++ p :: ps ∧
      (∀ q ∈ passed, q.form = .blank) ∧ p.form = (Piece.measure first rest).1 := by
  induction blanks generalizing line with
  | nil => exact ⟨[], _, _, piecesAfter_cons line first rest, List.forall_mem_nil _, rfl⟩
  | cons c blanks ih =>
      obtain ⟨space, others⟩ := List.forall_mem_cons.mp blank
      obtain ⟨passed, p, ps, split, plain, form⟩ := ih others (line + newlines [c])
      rw [List.cons_append, piecesAfter_cons, Piece.measure_space space]
      refine ⟨_ :: passed, p, ps, congrArg _ split, ?_, form⟩
      exact List.forall_mem_cons.mpr ⟨rfl, plain⟩

namespace Entry

open Grammar

variable {text : String} {blanks rest : List Char} {first : Char}

/-- Whether the first characters of a text that are not blank begin a comment. -/
def BeginsWithComment (text : String) : Prop :=
  ∃ blanks mark rest, text.toList = blanks ++ '/' :: mark :: rest ∧
    (∀ c ∈ blanks, c ∈ [' ', '\t', '\r', '\n']) ∧ mark ∈ ['/', '*']

theorem Accepted.begins (accepted : Accepted text)
    (nonempty : (Scan.ofString text).tokens ≠ []) :
    faces (Scan.ofString text).tokens beginsDeclaration = true := by
  obtain ⟨depth, ⟨body, compiled⟩ | ⟨e, read⟩⟩ := accepted
  · exact (Program.compile_eq_ok.mp compiled).2.begins nonempty
  · refine faces_weaken (fun kind => ?_) (Program.readExpression_derived read).2.begins
    simp +contextual [beginsDeclaration, beginsStatement]

theorem Accepted.first_piece (accepted : Accepted text)
    (split : text.toList = blanks ++ first :: rest)
    (blank : ∀ c ∈ blanks, c ∈ [' ', '\t', '\r', '\n']) :
    ∃ p : Piece, p.form = (Piece.measure first rest).1 ∧ p.error? = none ∧
      ∀ t, p.token? = some t → beginsDeclaration t.kind = true := by
  obtain ⟨passed, p, ps, all, plain, form⟩ := exists_piecesAfter_blanks blank 1 first rest
  rw [← split, ← pieces_fst] at all
  refine ⟨p, form, ?_, fun t token => ?_⟩
  · have scanned : (pieces text.toList).1.filterMap Piece.error? = [] := by
      have scanned := accepted.balanced.1
      rwa [Scan.ofString, Scan.ofChars_eq] at scanned
    exact List.filterMap_eq_nil_iff.mp scanned p (by simp [all])
  · have passed_tokens : passed.filterMap Piece.token? = [] :=
      List.filterMap_eq_nil_iff.mpr fun q member => by rw [Piece.token?, plain q member]
    have tokens : (Scan.ofString text).tokens = t :: ps.filterMap Piece.token? := by
      rw [Scan.ofString, Scan.ofChars_eq, all, List.filterMap_append, passed_tokens,
        List.filterMap_cons_some token, List.nil_append]
    have begins := accepted.begins (by simp [tokens])
    rwa [tokens, faces_cons] at begins

theorem Accepted.visible_first (accepted : Accepted text)
    (split : text.toList = blanks ++ first :: rest)
    (blank : ∀ c ∈ blanks, c ∈ [' ', '\t', '\r', '\n'])
    (other : first ∉ [' ', '\t', '\r', '\n']) : Text.isBlank first = false := by
  obtain ⟨p, form, fine, -⟩ := accepted.first_piece split blank
  by_contra hidden
  rw [Piece.measure_rejected (by simpa using hidden) other] at form
  simp [Piece.error?, form] at fine

theorem Accepted.beginsWithComment (accepted : Accepted text)
    (split : text.toList = blanks ++ '/' :: rest)
    (blank : ∀ c ∈ blanks, c ∈ [' ', '\t', '\r', '\n']) : BeginsWithComment text := by
  obtain ⟨p, form, -, begins⟩ := accepted.first_piece split blank
  by_contra other
  -- A slash that begins no comment is a token, and no declaration begins with it.
  have division : Piece.measureSlash rest = (.token .slash .nil, 0) := by
    unfold Piece.measureSlash
    split
    · exact absurd ⟨blanks, _, _, split, blank, by simp⟩ other
    · exact absurd ⟨blanks, _, _, split, blank, by simp⟩ other
    · rfl
  rw [Piece.measure_slash, division] at form
  have slash := begins ⟨.slash, _, _, _⟩ (by rw [Piece.token?, form])
  cases slash

theorem Accepted.cases (accepted : Accepted text)
    (inked : ∃ c ∈ text.toList, Text.isBlank c = false) :
    BeginsWithComment text ∨ ∃ blanks first rest, text.toList = blanks ++ first :: rest ∧
      (∀ c ∈ blanks, Text.isBlank c = true) ∧ Text.isBlank first = false ∧ first ≠ '/' := by
  rcases split_blanks text.toList with all | ⟨blanks, first, rest, split, blank, other⟩
  · obtain ⟨c, member, visible⟩ := inked
    rw [Piece.isBlank_of_spaces all c member] at visible
    cases visible
  · by_cases slash : first = '/'
    · subst slash
      exact .inl (accepted.beginsWithComment split blank)
    · exact .inr ⟨blanks, first, rest, split, Piece.isBlank_of_spaces blank,
        accepted.visible_first split blank other, slash⟩

theorem normalize_of_visible (visible : ∀ c ∈ text.toList, isInvisible c = false) :
    normalize text = text := by
  have kept : text.toList.filter (!isInvisible ·) = text.toList :=
    List.filter_eq_self.mpr fun c member => by simp [visible c member]
  rw [normalize, kept, String.ofList_toList]

end Entry

namespace Command

variable {text : String} {blanks rest : List Char} {first : Char}

theorem ofLine?_eq_none (split : text.toList = blanks ++ first :: rest)
    (blank : ∀ c ∈ blanks, Text.isBlank c = true) (visible : Text.isBlank first = false)
    (other : first ≠ '/') : ofLine? text = none := by
  rw [ofLine?, split, Text.trim_append blank visible]
  simp [other]

def word (text : String) : String := String.ofList (Text.firstWord (Text.trim text.toList)).1

theorem ofLine?_unknown (trimmed : Text.trim text.toList = '/' :: rest)
    (other : word text ∉ descriptions.map Prod.fst) :
    ofLine? text = some (.unknown (word text)) := by
  simp only [descriptions, List.map_cons, List.map_nil, List.mem_cons, List.not_mem_nil, or_false,
    not_or] at other
  obtain ⟨clear, traceback, reset⟩ := other
  have first : String.ofList (Text.firstWord ('/' :: rest)).1 = word text := by rw [word, trimmed]
  unfold ofLine?
  rw [trimmed]
  split
  case h_1 more same =>
    obtain rfl := (List.cons.inj same).2
    dsimp only
    rw [first]
    split
    case h_1 named => exact absurd named clear
    case h_2 named => exact absurd named traceback
    case h_3 named => exact absurd named reset
    case h_4 => rfl
  case h_2 unslashed => exact absurd rfl (unslashed rest)

/-- No comment begins like a command that is known: the names of those have a letter after the
slash. -/
theorem ofLine?_comment (begins : Entry.BeginsWithComment text) :
    ofLine? text = some (.unknown (word text)) := by
  obtain ⟨blanks, mark, rest, split, blank, comment⟩ := begins
  have visible : Text.isBlank mark = false := by
    simp only [List.mem_cons, List.not_mem_nil, or_false] at comment
    rcases comment with rfl | rfl <;> rfl
  have trimmed : Text.trim text.toList = '/' :: mark :: Text.trimRight rest := by
    rw [split, Text.trim_append (Piece.isBlank_of_spaces blank) rfl, Text.trimRight_cons visible]
  have spelled : (word text).toList =
      '/' :: mark :: (Text.trimRight rest).takeWhile (!Text.isBlank ·) := by
    simp [word, trimmed, Text.firstWord, visible, show Text.isBlank '/' = false from rfl]
  refine ofLine?_unknown trimmed fun named => ?_
  have letter : ∀ name ∈ descriptions.map Prod.fst, name.toList[1]? ∉ [some '/', some '*'] := by
    decide
  apply letter _ named
  simpa [spelled] using comment

end Command

namespace Prompt

theorem submit_eq {text : String} (visible : ∀ c ∈ text.toList, Entry.isInvisible c = false)
    (inked : ∃ c ∈ text.toList, Text.isBlank c = false) (p : Prompt) (fuel : Nat) :
    p.submit fuel text = match Command.ofLine? text with
      | some command => .ok (p.perform command)
      | none => p.evaluate fuel text := by
  rw [submit, Entry.normalize_of_visible visible]
  exact if_neg (by simpa using Text.trim_ne_nil inked)

/-- A program or an expression is evaluated as an entry unless it begins with a comment. One that
does is taken for an unknown command, named by the first word of the text. -/
theorem submit_accepted (p : Prompt) (fuel : Nat) (text : String) (accepted : Entry.Accepted text)
    (visible : ∀ c ∈ text.toList, Entry.isInvisible c = false)
    (inked : ∃ c ∈ text.toList, Text.isBlank c = false) :
    (¬ Entry.BeginsWithComment text →
      Command.ofLine? text = none ∧ p.submit fuel text = p.evaluate fuel text) ∧
    (Entry.BeginsWithComment text →
      Command.ofLine? text = some (.unknown (Command.word text)) ∧
        p.submit fuel text = .ok ({ err := ["Unknown command: " ++ Command.word text] }, p)) := by
  constructor
  · intro other
    obtain ⟨blanks, first, rest, split, blank, seen, slash⟩ :=
      (accepted.cases inked).resolve_left other
    have entry := Command.ofLine?_eq_none split blank seen slash
    exact ⟨entry, by rw [submit_eq visible inked, entry]⟩
  · intro begins
    have command := Command.ofLine?_comment begins
    exact ⟨command, by rw [submit_eq visible inked, command]; rfl⟩

theorem submit_accepted_comment :
    let p := start {} (Clock.host (fun _ => 0) 100) false
    p.submit 5 "\n nil; // note" = p.evaluate 5 "\n nil; // note" ∧
      p.submit 5 " // note" = .ok ({ err := ["Unknown command: //"] }, p) := by
  intro p
  have statement : Program.compile 100 "\n nil; // note" = .ok [.expression (.literal .nil)] := rfl
  have nothing : Program.compile 100 " // note" = .ok [] := rfl
  have entry := submit_accepted p 5 "\n nil; // note" ⟨100, .inl ⟨_, statement⟩⟩
    (by simp [Entry.isInvisible]) ⟨'n', by simp, rfl⟩
  have comment := submit_accepted p 5 " // note" ⟨100, .inl ⟨_, nothing⟩⟩
    (by simp [Entry.isInvisible]) ⟨'n', by simp, rfl⟩
  refine ⟨(entry.1 ?_).2, (comment.2 ?_).2⟩
  · rintro ⟨blanks, mark, rest, split, blank, -⟩
    have slash : Text.trim (blanks ++ '/' :: mark :: rest) = '/' :: Text.trimRight (mark :: rest) :=
      Text.trim_append (Piece.isBlank_of_spaces blank) rfl _
    have letter : Text.trim "\n nil; // note".toList = "nil; // note".toList := rfl
    rw [← split, letter] at slash
    cases slash
  · exact ⟨[' '], '/', " note".toList, rfl, by simp, by simp⟩

/-- A program that would print something: it begins with a comment, so it is not evaluated. -/
theorem not_submitted_comment :
    let text := "// note\nprint true;"
    let p := start {} (Clock.host (fun _ => 0) 100) false
    Entry.Accepted text ∧ (∀ c ∈ text.toList, Entry.isInvisible c = false) ∧
      (∃ c ∈ text.toList, Text.isBlank c = false) ∧
      Command.ofLine? text = some (.unknown "//") ∧
      p.submit 9 text = .ok ({ err := ["Unknown command: //"] }, p) ∧
      p.evaluate 9 text = .ok ({ out := ["true"] }, p) := by
  dsimp only
  have compiled : Program.compile 100 "// note\nprint true;" = .ok [.print (.literal (.bool true))] :=
    rfl
  refine ⟨⟨100, .inl ⟨_, compiled⟩⟩, by simp [Entry.isInvisible], ⟨'n', by simp, rfl⟩, rfl, rfl, ?_⟩
  unfold evaluate
  rfl

end Prompt

end Lox
