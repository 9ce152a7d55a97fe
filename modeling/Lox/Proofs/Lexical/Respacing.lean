import Lox.Proofs.Layout
import Lox.Proofs.Lexical.Cut

namespace Lox

namespace Piece

variable {c : Char} (space : c ∈ [' ', '\t', '\r', '\n'])
include space

theorem measureSlash_token {xs : List Char} {kind : Token.Kind} {literal : Literal} {n : Nat}
    (token : measureSlash xs = (.token kind literal, n)) (ys : List Char) :
    measureSlash (xs ++ c :: ys) = (.token kind literal, n) := by
  have other : c ≠ '/' ∧ c ≠ '*' := by
    constructor <;> rintro rfl <;> simp at space
  cases xs with
  | nil =>
      rw [← token]
      simp [measureSlash, other]
  | cons x xs =>
      by_cases line : x = '/'
      · subst line
        simp [measureSlash] at token
      by_cases block : x = '*'
      · subst block
        simp only [measureSlash] at token
        split at token <;> simp at token
      · rw [← token]
        simp [measureSlash, line, block]

theorem measure_token {first : Char} {xs : List Char} {kind : Token.Kind} {literal : Literal}
    {n : Nat} (token : measure first xs = (.token kind literal, n)) (ys : List Char) :
    measure first (xs ++ c :: ys) = (.token kind literal, n) := by
  have stops : isWordChar c = false ∧ isDigit c = false ∧ c ≠ '.' ∧ c ≠ '=' := by
    revert space
    simp only [List.mem_cons, List.not_mem_nil, or_false]
    rintro (rfl | rfl | rfl | rfl) <;> decide
  obtain ⟨word, digit, point, equal⟩ := stops
  have next : (xs ++ c :: ys).head? = some '=' ↔ xs.head? = some '=' := by
    cases xs with
    | nil => simp [equal]
    | cons x xs => simp
  revert token
  unfold measure
  cases single? first with
  | some kind => exact id
  | none =>
      cases extendable? first with
      | some kinds => simp only [next, imp_self]
      | none =>
          simp only
          by_cases slash : first == '/'
          · simp only [if_pos slash]
            exact fun token => measureSlash_token space token ys
          by_cases blank : isSpace first
          · simp only [if_neg slash, if_pos blank, imp_self]
          by_cases quote : first == '"'
          · simp only [if_neg slash, if_neg blank, if_pos quote]
            intro token
            rw [measureString_append _ (by rw [token]; rfl), token]
          simp only [if_neg slash, if_neg blank, if_neg quote]
          rw [measureNumber_append ys first digit point, measureWord_append ys first word]
          exact id

end Piece

def Token.Whole (t : Token) : Prop :=
  ∃ first more, t.lexeme.toList = first :: more ∧
    Piece.measure first more = (.token t.kind t.literal, more.length)

theorem Piece.whole_of_token? {first : Char} {cs : List Char} {line : Nat} {t : Token}
    (token : (⟨(measure first cs).1, first :: cs.take (measure first cs).2, line⟩ : Piece).token? =
      some t) : t.Whole := by
  have count := List.length_take_of_le (measure_le first cs)
  have alone : measure first (cs.take (measure first cs).2) = measure first cs := by
    conv_rhs => rw [← List.take_append_drop (measure first cs).2 cs]
    refine (measure_cut first ?_).symm
    rw [List.take_append_drop, count]
  cases measured : measure first cs with
  | mk form n =>
      rw [measured] at token count alone
      cases form with
      | token kind literal =>
          cases token
          refine ⟨first, cs.take n, String.toList_ofList, ?_⟩
          rw [alone, count]
      | blank | comment | rejected | openString | openComment => cases token

theorem whole_of_mem_pieces {line skip : Nat} {cs : List Char} :
    ∀ p ∈ piecesAfter line skip cs, ∀ t, p.token? = some t → t.Whole := by
  induction cs generalizing line skip with
  | nil => simp [piecesAfter_nil]
  | cons c cs ih =>
      cases skip with
      | succ skip => exact ih
      | zero =>
          rw [piecesAfter_cons]
          exact List.forall_mem_cons.mpr ⟨fun t => Piece.whole_of_token?, ih⟩

namespace Scan

/-- The lexemes of tokens one after the other with blanks between each two. -/
inductive Joined : List Token → List Char → Prop
  | nil : Joined [] []
  | last {t : Token} : Joined [t] t.lexeme.toList
  | cons {t : Token} {ts : List Token} {blanks text : List Char} (nonempty : blanks ≠ [])
      (blank : ∀ c ∈ blanks, c ∈ [' ', '\t', '\r', '\n']) (others : Joined ts text) :
      Joined (t :: ts) (t.lexeme.toList ++ blanks ++ text)

structure Rescans (ts : List Token) (ps : List Piece) : Prop where
  tokens : List.Forall₂ Token.Same ts (ps.filterMap Piece.token?)
  plain : ∀ p ∈ ps, p.form = .blank ∨ p.token?.isSome

variable {ts : List Token} {text : List Char}

theorem Rescans.blanks {blanks : List Char} (blank : ∀ c ∈ blanks, c ∈ [' ', '\t', '\r', '\n'])
    (h : ∀ line, Rescans ts (piecesAfter line 0 text)) (line : Nat) :
    Rescans ts (piecesAfter line 0 (blanks ++ text)) := by
  induction blanks generalizing line with
  | nil => exact h line
  | cons c blanks ih =>
      obtain ⟨space, others⟩ := List.forall_mem_cons.mp blank
      obtain ⟨tokens, plain⟩ := ih others (line + newlines [c])
      rw [List.cons_append, piecesAfter_cons, Piece.measure_space space]
      exact ⟨tokens, List.forall_mem_cons.mpr ⟨.inl rfl, plain⟩⟩

theorem Rescans.token {t : Token} {first : Char} {more : List Char}
    (lexeme : t.lexeme.toList = first :: more)
    (measured : Piece.measure first (more ++ text) = (.token t.kind t.literal, more.length))
    (h : ∀ line, Rescans ts (piecesAfter line 0 text)) (line : Nat) :
    Rescans (t :: ts) (piecesAfter line 0 (t.lexeme.toList ++ text)) := by
  obtain ⟨tokens, plain⟩ := h (line + newlines (first :: more))
  rw [lexeme, List.cons_append, piecesAfter_cons, measured, piecesAfter_skip]
  simp only [List.take_left, List.drop_left]
  have same : t.lexeme = String.ofList (first :: more) := by
    rw [← lexeme, String.ofList_toList]
  exact ⟨.cons ⟨rfl, same, rfl⟩ tokens, List.forall_mem_cons.mpr ⟨.inr rfl, plain⟩⟩

theorem Joined.rescans (joined : Joined ts text) (whole : ∀ t ∈ ts, t.Whole) (line : Nat) :
    Rescans ts (piecesAfter line 0 text) := by
  induction joined generalizing line with
  | nil => exact ⟨.nil, by simp [piecesAfter_nil]⟩
  | @last t =>
      obtain ⟨first, more, lexeme, measured⟩ := whole t (List.mem_singleton_self t)
      rw [← List.append_nil t.lexeme.toList]
      refine .token lexeme (by rwa [List.append_nil]) (fun line => ?_) line
      exact ⟨.nil, by simp [piecesAfter_nil]⟩
  | @cons t ts blanks text some blank others ih =>
      obtain ⟨⟨first, more, lexeme, measured⟩, whole⟩ := List.forall_mem_cons.mp whole
      obtain ⟨c, spaces, rfl⟩ := List.exists_cons_of_ne_nil some
      have space := (List.forall_mem_cons.mp blank).1
      rw [List.append_assoc]
      refine .token lexeme ?_ (.blanks blank fun line => ih whole line) line
      exact Piece.measure_token space measured _

theorem Rescans.errors {ps : List Piece} (h : Rescans ts ps) : ps.filterMap Piece.error? = [] := by
  refine List.filterMap_eq_nil_iff.mpr fun p member => ?_
  obtain ⟨form, text, line⟩ := p
  have plain := h.plain _ member
  cases form with
  | blank | comment | token => rfl
  | rejected | openString | openComment => simp [Piece.token?] at plain

/-- The tokens of any text, written one after the other with blanks between each two, are scanned
without an error as the same tokens, and nothing but blanks stands between them. -/
theorem ofString_joined (source text : String)
    (joined : Joined (ofString source).tokens text.toList) :
    (ofString text).errors = [] ∧
      List.Forall₂ Token.Same (ofString source).tokens (ofString text).tokens ∧
      ∀ p ∈ (pieces text.toList).1, p.form = .blank ∨ p.token?.isSome := by
  have whole : ∀ t ∈ (ofString source).tokens, t.Whole := by
    intro t member
    obtain ⟨p, piece, token⟩ := List.mem_filterMap.mp member
    exact whole_of_mem_pieces p piece t token
  have rescans := joined.rescans whole 1
  exact ⟨rescans.errors, rescans.tokens, rescans.plain⟩

theorem ofString_joined_point :
    let scan := ofString "1/**/.5/#/"
    let again := ofString "1 .\t5\n/ /"
    Joined scan.tokens "1 .\t5\n/ /".toList ∧ again.errors = [] ∧
      List.Forall₂ Token.Same scan.tokens again.tokens := by
  intro scan again
  have chars : "1 .\t5\n/ /".toList =
      ['1'] ++ [' '] ++ (['.'] ++ ['\t'] ++ (['5'] ++ ['\n'] ++ (['/'] ++ [' '] ++ ['/']))) := rfl
  have joined : Joined scan.tokens "1 .\t5\n/ /".toList := by
    rw [chars]
    exact .cons (by simp) (by simp) (.cons (by simp) (by simp) (.cons (by simp) (by simp)
      (.cons (by simp) (by simp) .last)))
  obtain ⟨errors, tokens, -⟩ := ofString_joined _ _ joined
  exact ⟨joined, errors, tokens⟩

end Scan

end Lox
