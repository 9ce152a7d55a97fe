import Lox.Proofs.Outline

/-!
Texts in parentheses, read back: a text is cut into words and brackets, and what is written as words
and groups of words and groups can be told from these in one way only.
-/

namespace Lox

/-- A word or a bracket of a text. -/
inductive Mark where
  | opens
  | closes
  | word (letters : List Char)

namespace Mark

def parts (c : Char) : Bool := c == ' ' || c == '(' || c == ')'

def ofWord : List Char → List Mark
  | [] => []
  | c :: cs => [.word (c :: cs)]

def readAfter (word : List Char) : List Char → List Mark
  | [] => ofWord word
  | ' ' :: cs => ofWord word ++ readAfter [] cs
  | '(' :: cs => ofWord word ++ .opens :: readAfter [] cs
  | ')' :: cs => ofWord word ++ .closes :: readAfter [] cs
  | c :: cs => readAfter (word ++ [c]) cs

def read (text : String) : List Mark := readAfter [] text.toList

theorem readAfter_letter {c : Char} (letter : parts c = false) (word cs : List Char) :
    readAfter word (c :: cs) = readAfter (word ++ [c]) cs := by
  apply readAfter.eq_5 <;> rintro rfl <;> cases letter

theorem readAfter_part {c : Char} (part : parts c = true) (word cs : List Char) :
    readAfter word (c :: cs) = ofWord word ++ readAfter [] (c :: cs) := by
  simp only [parts, Bool.or_eq_true, beq_iff_eq] at part
  rcases part with (rfl | rfl) | rfl <;> rfl

theorem readAfter_append {c : Char} (part : parts c = true) (word cs ds : List Char) :
    readAfter word (cs ++ c :: ds) = readAfter word cs ++ readAfter [] (c :: ds) := by
  induction cs generalizing word with
  | nil => exact readAfter_part part word ds
  | cons d cs ih =>
      cases letter : parts d with
      | false => rw [List.cons_append, readAfter_letter letter, readAfter_letter letter, ih]
      | true =>
          rw [List.cons_append, readAfter_part letter, readAfter_part letter word cs,
            List.append_assoc]
          congr 1
          simp only [parts, Bool.or_eq_true, beq_iff_eq] at letter
          rcases letter with (rfl | rfl) | rfl
          · exact ih []
          · exact congrArg _ (ih [])
          · exact congrArg _ (ih [])

theorem read_space (s t : String) : read (s ++ " " ++ t) = read s ++ read t := by
  have text : (s ++ " " ++ t).toList = s.toList ++ ' ' :: t.toList := by simp
  rw [read, text, readAfter_append rfl]
  rfl

theorem read_opens (s t : String) : read (s ++ "(" ++ t) = read s ++ .opens :: read t := by
  have text : (s ++ "(" ++ t).toList = s.toList ++ '(' :: t.toList := by simp
  rw [read, text, readAfter_append rfl]
  rfl

theorem read_closes (s t : String) : read (s ++ ")" ++ t) = read s ++ .closes :: read t := by
  have text : (s ++ ")" ++ t).toList = s.toList ++ ')' :: t.toList := by simp
  rw [read, text, readAfter_append rfl]
  rfl

theorem read_empty : read "" = [] := rfl

theorem read_spaced (text : String) (items : List String) :
    read (text ++ Outline.spaced items) = read text ++ items.flatMap read := by
  induction items generalizing text with
  | nil =>
      show read (text ++ "") = read text ++ []
      rw [String.append_empty, List.append_nil]
  | cons item items ih =>
      have one : Outline.spaced [item] = " " ++ item := by simp [Outline.spaced]
      rw [Outline.spaced_cons, one, ← String.append_assoc, ← String.append_assoc, ih, read_space,
        List.flatMap_cons, List.append_assoc]

theorem read_parenthesize (head : String) (items : List String) :
    read (parenthesize head items) =
      .opens :: (read head ++ items.flatMap read ++ [.closes]) := by
  have text : parenthesize head items =
      "" ++ "(" ++ (head ++ Outline.spaced items ++ ")" ++ "") := by
    rw [parenthesize_eq, Outline.enclosed]
    simp [String.append_assoc]
  rw [text, read_opens, read_closes, read_spaced]
  rfl

structure IsWord (s : String) : Prop where
  nonempty : s.toList ≠ []
  plain : ∀ c ∈ s.toList, parts c = false

theorem readAfter_word (word : List Char) {cs : List Char} (plain : ∀ c ∈ cs, parts c = false) :
    readAfter word cs = ofWord (word ++ cs) := by
  induction cs generalizing word with
  | nil => rw [List.append_nil]; rfl
  | cons c cs ih =>
      obtain ⟨letter, others⟩ := List.forall_mem_cons.mp plain
      rw [readAfter_letter letter, ih _ others, List.append_assoc, List.singleton_append]

theorem read_word {s : String} (word : IsWord s) : read s = [.word s.toList] := by
  rw [read, readAfter_word [] word.plain, List.nil_append]
  obtain ⟨c, cs, text⟩ := List.exists_cons_of_ne_nil word.nonempty
  rw [text]
  rfl

end Mark

inductive Form where
  | word (text : String)
  | group (inside : List Form)

namespace Form

mutual

def marks : Form → List Mark
  | .word text => [.word text.toList]
  | .group inside => .opens :: (allMarks inside ++ [.closes])

def allMarks : List Form → List Mark
  | [] => []
  | f :: fs => f.marks ++ allMarks fs

end

theorem allMarks_append (fs gs : List Form) : allMarks (fs ++ gs) = allMarks fs ++ allMarks gs := by
  induction fs with
  | nil => rfl
  | cons f fs ih => rw [List.cons_append, allMarks, allMarks, ih, List.append_assoc]

theorem marks_head (f : Form) : ∃ m ms, f.marks = m :: ms ∧ m ≠ .closes := by
  cases f with
  | word text => exact ⟨_, _, rfl, nofun⟩
  | group inside => exact ⟨_, _, rfl, nofun⟩

mutual

/-- Marks are those of one form only, whatever comes after it. -/
theorem marks_unique : (f g : Form) → {rest rest' : List Mark} →
    f.marks ++ rest = g.marks ++ rest' → f = g ∧ rest = rest'
  | .word text, .word text', rest, rest', same => by
      obtain ⟨letters, same⟩ := List.cons.inj same
      rw [String.toList_injective (Mark.word.inj letters)]
      exact ⟨rfl, same⟩
  | .word _, .group _, _, _, same => by cases (List.cons.inj same).1
  | .group _, .word _, _, _, same => by cases (List.cons.inj same).1
  | .group inside, .group inside', rest, rest', same => by
      simp only [marks, List.cons_append, List.append_assoc, List.nil_append, List.cons.injEq,
        true_and] at same
      obtain ⟨rfl, after⟩ := allMarks_unique inside inside' same
      exact ⟨rfl, after⟩

theorem allMarks_unique : (fs gs : List Form) → {rest rest' : List Mark} →
    allMarks fs ++ .closes :: rest = allMarks gs ++ .closes :: rest' → fs = gs ∧ rest = rest'
  | [], [], _, _, same => ⟨rfl, (List.cons.inj same).2⟩
  | [], g :: gs, _, _, same => by
      obtain ⟨m, ms, head, other⟩ := g.marks_head
      rw [allMarks, allMarks, head] at same
      exact absurd (List.cons.inj same).1.symm other
  | f :: fs, [], _, _, same => by
      obtain ⟨m, ms, head, other⟩ := f.marks_head
      rw [allMarks, allMarks, head] at same
      exact absurd (List.cons.inj same).1 other
  | f :: fs, g :: gs, _, _, same => by
      rw [allMarks, allMarks, List.append_assoc, List.append_assoc] at same
      obtain ⟨rfl, others⟩ := marks_unique f g same
      obtain ⟨rfl, after⟩ := allMarks_unique fs gs others
      exact ⟨rfl, after⟩

end

theorem marks_injective {f g : Form} (same : f.marks = g.marks) : f = g :=
  (marks_unique f g (congrArg (· ++ ([] : List Mark)) same)).1

def Shows (f : Form) (text : String) : Prop := Mark.read text = f.marks

theorem shows_word {text : String} (word : Mark.IsWord text) : (Form.word text).Shows text :=
  Mark.read_word word

theorem allMarks_of_shows {fs : List Form} {texts : List String}
    (shown : List.Forall₂ Shows fs texts) : texts.flatMap Mark.read = allMarks fs := by
  induction shown with
  | nil => rfl
  | cons here _ ih => rw [List.flatMap_cons, here, ih, allMarks]

theorem shows_group {head : String} {heads fs : List Form} {items : List String}
    (first : Mark.read head = allMarks heads) (others : List.Forall₂ Shows fs items) :
    (Form.group (heads ++ fs)).Shows (parenthesize head items) := by
  rw [Shows, Mark.read_parenthesize, first, allMarks_of_shows others, ← allMarks_append]
  rfl

theorem shows_headed {head : String} {fs : List Form} {items : List String}
    (word : Mark.IsWord head) (others : List.Forall₂ Shows fs items) :
    (Form.group (.word head :: fs)).Shows (parenthesize head items) :=
  @shows_group head [.word head] fs items (Mark.read_word word) others

end Form

end Lox
