import Lox.Prompt.Entry
import Lox.Proofs.Grammar.Brackets
import Lox.Proofs.Lexical.Cut
import Lox.Proofs.LoneExpression

namespace Lox

open Grammar

/-- A text that is a program or an expression, if its constructs may be nested deep enough. -/
def Entry.Accepted (text : String) : Prop :=
  ∃ depth, (∃ body, Program.compile depth text = .ok body) ∨
    ∃ e, Program.readExpression depth text = .ok e

namespace Entry

def charsThrough : (n : Nat) → List Piece → List Char
  | 0, _ | _, [] => []
  | n + 1, p :: rest => p.text ++ charsThrough (if p.token?.isSome then n else n + 1) rest

def through (n : Nat) (text : String) : String :=
  String.ofList (charsThrough n (pieces text.toList).1)

theorem charsThrough_eq {ps : List Piece} {ts us : List Token}
    (tokens : ps.filterMap Piece.token? = ts ++ us) :
    ∃ before after, ps = before ++ after ∧ before.filterMap Piece.token? = ts ∧
      charsThrough ts.length ps = before.flatMap Piece.text := by
  induction ps generalizing ts with
  | nil =>
      obtain ⟨rfl, -⟩ := List.append_eq_nil_iff.mp tokens.symm
      exact ⟨[], [], rfl, rfl, rfl⟩
  | cons p ps ih =>
      cases ts with
      | nil => exact ⟨[], p :: ps, rfl, rfl, rfl⟩
      | cons t ts =>
          cases token : p.token? with
          | none =>
              rw [List.filterMap_cons_none token] at tokens
              obtain ⟨before, after, rfl, same, text⟩ := ih tokens
              refine ⟨p :: before, after, rfl, ?_, ?_⟩
              · rw [List.filterMap_cons_none token, same]
              · simpa [charsThrough, token] using text
          | some u =>
              rw [List.filterMap_cons_some token, List.cons_append, List.cons.injEq] at tokens
              obtain ⟨rfl, tokens⟩ := tokens
              obtain ⟨before, after, rfl, same, text⟩ := ih tokens
              refine ⟨p :: before, after, rfl, ?_, ?_⟩
              · rw [List.filterMap_cons_some token, same]
              · simp [charsThrough, token, text]

theorem scan_through {text : String} {ts us : List Token}
    (tokens : (Scan.ofString text).tokens = ts ++ us) :
    (Scan.ofString (through ts.length text)).tokens = ts ∧
      (Scan.ofString (through ts.length text)).errors <+: (Scan.ofString text).errors ∧
      (through ts.length text).toList <+: text.toList := by
  rw [Scan.ofString, Scan.ofChars_eq] at tokens
  obtain ⟨before, after, whole, same, chars⟩ := charsThrough_eq tokens
  have cut : (through ts.length text).toList = before.flatMap Piece.text := by
    rw [through, chars, String.toList_ofList]
  have front : (pieces (through ts.length text).toList).1 = before := by
    rw [cut]
    exact pieces_cut whole
  refine ⟨?_, ?_, ?_⟩
  · simp only [Scan.ofString, Scan.ofChars_eq, front, same]
  · simp only [Scan.ofString, Scan.ofChars_eq, front, whole, List.filterMap_append]
    exact List.prefix_append _ _
  · have all := flatMap_pieces 1 text.toList
    rw [← pieces_fst, whole, List.flatMap_append] at all
    rw [cut, ← all]
    exact List.prefix_append _ _

theorem depthAfter_eq {depth : Nat} {ts : List Token} (floor : ∀ before after, ts = before ++ after →
    closings before ≤ depth + openings before) :
    depthAfter depth ts + closings ts = depth + openings ts := by
  induction ts generalizing depth with
  | nil => rfl
  | cons t ts ih =>
      have later : ∀ before after, ts = before ++ after →
          closings (t :: before) ≤ depth + openings (t :: before) := by
        rintro before after rfl
        exact floor (t :: before) after rfl
      rw [depthAfter]
      by_cases opens : t.kind.opens
      · have closed := Token.Kind.closes_of_opens opens
        simp only [openings_cons, closings_cons, opens, closed] at later ⊢
        have rest := @ih (depth + 1) fun before after same => by
          have le := later before after same
          simp at le
          omega
        simp
        omega
      by_cases closes : t.kind.closes
      · simp only [openings_cons, closings_cons, opens, closes] at later ⊢
        -- A bracket is open here, since the tokens up to this one close no more than were opened.
        have nested : 1 ≤ depth := by simpa [openings, closings] using later [] ts rfl
        have rest := @ih (depth - 1) fun before after same => by
          have le := later before after same
          simp at le
          omega
        simp
        omega
      · simp only [openings_cons, closings_cons, opens, closes] at later ⊢
        simpa using @ih depth (by simpa using later)

theorem openDepth_eq {text : String}
    (balanced : ∃ us, Balanced ((Scan.ofString text).tokens ++ us)) :
    openDepth text + closings (Scan.ofString text).tokens =
      openings (Scan.ofString text).tokens := by
  obtain ⟨us, balanced⟩ := balanced
  have count := @depthAfter_eq 0 (Scan.ofString text).tokens ?_
  · rw [openDepth, count, Nat.zero_add]
  · intro before after same
    rw [same, List.append_assoc] at balanced
    rcases balanced.cut with even | ⟨less, -⟩ <;> omega

theorem Accepted.balanced {text : String} (h : Accepted text) :
    (Scan.ofString text).errors = [] ∧ Balanced (Scan.ofString text).tokens := by
  obtain ⟨depth, ⟨body, compiled⟩ | ⟨e, read⟩⟩ := h
  · obtain ⟨scanned, derived⟩ := Program.compile_eq_ok.mp compiled
    exact ⟨scanned, derived.balanced⟩
  · obtain ⟨scanned, value⟩ := Program.readExpression_derived read
    exact ⟨scanned, value.balanced⟩

theorem isUnfinished_eq {text : String} (scanned : (Scan.ofString text).errors = []) :
    isUnfinished text = decide (0 < openDepth text) := by
  simp [isUnfinished, scanned]

theorem isCommandLike_of_prefix {cut text : String} (le : cut.toList <+: text.toList)
    (other : isCommandLike text = false) : isCommandLike cut = false := by
  obtain ⟨rest, same⟩ := le
  unfold isCommandLike at other ⊢
  rw [← same] at other
  cases first : cut.toList with
  | nil => rfl
  | cons c cs => simpa [first] using other

/-- What is accepted is finished, and where it is cut after one of its tokens, the depth is the
number of brackets that are open there: the enter key goes on inside of the brackets and submits
elsewhere. -/
theorem enter_agrees (text : String) (accepted : Accepted text) :
    isUnfinished text = false ∧ openDepth text = 0 ∧ pressEnter text = .submit ∧
      ∀ ts us, (Scan.ofString text).tokens = ts ++ us →
        let cut := through ts.length text
        (Scan.ofString cut).tokens = ts ∧ cut.toList <+: text.toList ∧
          closings ts ≤ openings ts ∧ openDepth cut = openings ts - closings ts ∧
          (isCommandLike text = false →
            (Open ts us → pressEnter cut = .goOn (cut ++ "\n" ++ indent cut)) ∧
            (¬ Open ts us → pressEnter cut = .submit)) := by
  obtain ⟨scanned, balanced⟩ := accepted.balanced
  have closed : openDepth text = 0 := by
    have depth := openDepth_eq ⟨[], by simpa using balanced⟩
    have count := balanced.count
    omega
  have finished : isUnfinished text = false := by simp [isUnfinished_eq scanned, closed]
  refine ⟨finished, closed, by simp [pressEnter, finished], fun ts us tokens => ?_⟩
  intro cut
  obtain ⟨same, errors, chars⟩ := scan_through tokens
  rw [tokens] at balanced
  have depth : openDepth cut + closings ts = openings ts := by
    have eq := @openDepth_eq cut ⟨us, by rwa [same]⟩
    rwa [same] at eq
  have unfinished : isUnfinished cut = decide (0 < openDepth cut) := by
    rw [scanned, List.prefix_nil] at errors
    exact isUnfinished_eq errors
  refine ⟨same, chars, by omega, by omega, fun other => ⟨fun inside => ?_, fun outside => ?_⟩⟩
  · have less := inside.lt balanced
    have deep : 0 < openDepth cut := by omega
    have plain : isCommandLike cut = false := isCommandLike_of_prefix chars other
    simp [pressEnter, plain, unfinished, deep]
  · have flat : openDepth cut = 0 := by
      rcases balanced.cut with even | ⟨-, inside⟩
      · omega
      · exact absurd inside outside
    simp [pressEnter, unfinished, flat]

theorem enter_agrees_call :
    pressEnter "\x7b f(x); \x7d" = .submit ∧
      pressEnter "\x7b f(" = .goOn "\x7b f(\n        " := by
  let word (s : String) : Token := ⟨.identifier, s, .nil, 1⟩
  let call : Expr := .call (.variable (word "f")) ⟨.rightParen, ")", .nil, 1⟩ [.variable (word "x")]
  let ts : List Token := [⟨.leftBrace, "\x7b", .nil, 1⟩, word "f", ⟨.leftParen, "(", .nil, 1⟩]
  let us : List Token := [word "x", ⟨.rightParen, ")", .nil, 1⟩, ⟨.semicolon, ";", .nil, 1⟩,
    ⟨.rightBrace, "\x7d", .nil, 1⟩]
  have compiled : Program.compile 100 "\x7b f(x); \x7d" = .ok [.block [.expression call]] := rfl
  have inside : Open ts us := ⟨[_, _], _, [], [_], _, [_, _], rfl, rfl, rfl, .single rfl⟩
  obtain ⟨-, -, submits, cuts⟩ := enter_agrees "\x7b f(x); \x7d" ⟨100, .inl ⟨_, compiled⟩⟩
  obtain ⟨-, -, -, -, enter⟩ := cuts ts us rfl
  have goesOn := (enter rfl).1 inside
  have cut : through ts.length "\x7b f(x); \x7d" = "\x7b f(" := rfl
  have text : "\x7b f(" ++ "\n" ++ indent "\x7b f(" = "\x7b f(\n        " := rfl
  rw [cut, text] at goesOn
  exact ⟨submits, goesOn⟩

end Entry

end Lox
