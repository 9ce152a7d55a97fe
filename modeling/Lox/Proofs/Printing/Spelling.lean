import Lox.Proofs.Grammar.Parts
import Lox.Proofs.Lexical.Respacing
import Lox.Proofs.Number.Text
import Lox.Proofs.Printing.Forms

namespace Lox

open Lexical
open Mark (IsWord parts)

theorem Token.Whole.same {t t' : Token} (h : t.Whole) (h' : t'.Whole)
    (lexeme : t.lexeme = t'.lexeme) : t.Same t' := by
  obtain ⟨first, more, text, measured⟩ := h
  obtain ⟨first', more', text', measured'⟩ := h'
  rw [lexeme, text'] at text
  cases text
  rw [measured'] at measured
  injection measured with form
  injection form with kind literal
  exact ⟨kind.symm, lexeme, literal.symm⟩

theorem Token.Whole.fits {t : Token} (h : t.Whole) :
    Regular (.token t.kind) t.lexeme.toList [] ∧ Spells t.kind t.lexeme.toList t.literal := by
  obtain ⟨first, more, text, measured⟩ := h
  rcases measure_fits first more with ⟨regular, literal⟩ | rejected
  · rw [measured] at regular literal
    have spells := literal _ _ rfl
    rw [List.take_length] at regular spells
    rw [List.drop_length] at regular
    rw [text]
    exact ⟨regular, spells⟩
  · rw [measured] at rejected
    cases rejected

theorem Scan.whole_of_mem_tokens {text : String} {t : Token}
    (member : t ∈ (Scan.ofString text).tokens) : t.Whole := by
  obtain ⟨p, piece, token⟩ := List.mem_filterMap.mp member
  exact whole_of_mem_pieces p piece t token

theorem Token.Whole.lexeme_eq {t : Token} (h : t.Whole) {s : String}
    (spelled : t.kind.spelling? = some s) : t.lexeme = s := by
  have regular := h.fits.1
  generalize text : t.lexeme.toList = cs at regular
  generalize t.kind = kind at regular spelled
  cases regular with
  | fixed same =>
      rw [spelled, ← text, String.ofList_toList] at same
      exact (Option.some.inj same).symm
  | identifier | string | number => cases spelled

structure Token.Is (kind : Token.Kind) (t : Token) : Prop where
  whole : t.Whole
  kind : t.kind = kind

theorem Token.Is.lexeme_eq {t : Token} {kind : Token.Kind} (h : t.Is kind) {s : String}
    (spelled : kind.spelling? = some s) : t.lexeme = s :=
  h.whole.lexeme_eq (h.kind ▸ spelled)

def Token.Kind.isLogical : Kind → Bool
  | .andWord | .orWord => true
  | _ => false

theorem Token.Kind.isWord_of_operator {kind : Kind}
    (operator : kind.isOperator = true ∨ kind.isLogical = true) :
    ∃ s, kind.spelling? = some s ∧ IsWord s ∧ s ∉ ["group", "call", "="] := by
  cases kind <;> first
    | exact ⟨_, rfl, isWord_of rfl rfl, by decide⟩
    | rcases operator with binary | logical
      · cases binary
      · cases logical

theorem Token.Is.name {t : Token} (h : t.Is .identifier) :
    ∃ first more, t.lexeme.toList = first :: more ∧ (first.isAlpha ∨ first = '_') ∧
      (∀ c ∈ more, c.isAlphanum ∨ c = '_') ∧
      ∀ kind, Token.Kind.spelling? kind ≠ some t.lexeme := by
  have regular := h.whole.fits.1
  rw [h.kind] at regular
  generalize text : t.lexeme.toList = cs at regular
  cases regular with
  | fixed same => cases same
  | @identifier first more _ letter word free =>
      rw [← text, String.ofList_toList] at free
      exact ⟨first, more, rfl, letter, word, free⟩

theorem parts_of_isAlphanum {c : Char} (letter : c.isAlphanum ∨ c = '_') : parts c = false := by
  rw [← Bool.not_eq_true]
  intro part
  simp only [parts, Bool.or_eq_true, beq_iff_eq] at part
  rcases part with (rfl | rfl) | rfl <;> simp at letter

theorem not_isDigit_of_letter {c : Char} (letter : c.isAlpha ∨ c = '_') : c.isDigit = false := by
  rw [← Bool.not_eq_true]
  intro digit
  simp only [Char.isAlpha, Char.isUpper, Char.isLower, Char.isDigit, Bool.or_eq_true,
    Bool.and_eq_true, decide_eq_true_eq, UInt32.le_iff_toNat_le] at letter digit
  rcases letter with (⟨low, -⟩ | ⟨low, -⟩) | rfl
  · exact absurd (low.trans digit.2) (by decide)
  · exact absurd (low.trans digit.2) (by decide)
  · exact absurd digit.2 (by decide)

theorem Token.Is.isWord {t : Token} (h : t.Is .identifier) : IsWord t.lexeme := by
  obtain ⟨first, more, text, letter, word, -⟩ := h.name
  refine ⟨by simp [text], ?_⟩
  rw [text]
  refine List.forall_mem_cons.mpr ⟨parts_of_isAlphanum ?_, fun c member =>
    parts_of_isAlphanum (word c member)⟩
  exact letter.imp_left fun alpha => by simp [Char.isAlphanum, alpha]

def Literal.Spelled : Literal → Prop
  | .number x => Decimal.negative x = false ∧ Decimal.magnitude x ≠ .nan
  | _ => True

/-- The literals that are told apart by their texts: no strings, and only finite numbers. -/
def Literal.Plain : Literal → Prop
  | .number x => Decimal.magnitude x ≠ .infinite
  | .string _ => False
  | _ => True

theorem Literal.finite {x : Float} (spelled : (number x).Spelled) (plain : (number x).Plain) :
    ∃ m q, Decimal.magnitude x = .finite m q := by
  cases magnitude : Decimal.magnitude x with
  | finite m q => exact ⟨m, q, rfl⟩
  | infinite => exact absurd magnitude plain
  | nan => exact absurd magnitude spelled.2

theorem Literal.number_ne {x : Float} (spelled : (number x).Spelled) (plain : (number x).Plain)
    {s : String} (letter : s.toList.head?.any Char.isDigit = false) : Number.text x ≠ s := by
  rintro rfl
  obtain ⟨m, q, finite⟩ := finite spelled plain
  obtain ⟨d, more, text, digit⟩ := (Number.text_written spelled.1 finite).begins
  simp [text, digit] at letter

theorem Literal.isWord {v : Literal} (spelled : v.Spelled) (plain : v.Plain) : IsWord v.text := by
  cases v with
  | nil => exact isWord_of rfl rfl
  | bool b => cases b <;> exact isWord_of rfl rfl
  | string s => cases plain
  | number x =>
      obtain ⟨m, q, finite⟩ := finite spelled plain
      have written := Number.text_written spelled.1 finite
      obtain ⟨d, more, text, -⟩ := written.begins
      refine ⟨by simp [Literal.text, text], fun c member => ?_⟩
      rcases written.characters c member with digit | other
      · exact parts_of_isAlphanum (.inl (by simp [Char.isAlphanum, digit]))
      · simp only [List.mem_cons, List.not_mem_nil, or_false] at other
        rcases other with rfl | rfl | rfl | rfl <;> rfl

theorem Literal.eq_of_text {v v' : Literal} (spelled : v.Spelled) (spelled' : v'.Spelled)
    (plain : v.Plain) (plain' : v'.Plain) (same : v.text = v'.text) : v = v' := by
  cases v with
  | nil =>
      cases v' with
      | nil => rfl
      | bool b => cases b <;> exact absurd same (by decide)
      | number x => exact absurd same.symm (number_ne spelled' plain' rfl)
      | string => cases plain'
  | bool b =>
      cases v' with
      | nil => cases b <;> exact absurd same (by decide)
      | bool b' => cases b <;> cases b' <;> first | rfl | exact absurd same (by decide)
      | number x => cases b <;> exact absurd same.symm (number_ne spelled' plain' rfl)
      | string => cases plain'
  | number x =>
      cases v' with
      | nil => exact absurd same (number_ne spelled plain rfl)
      | bool b => cases b <;> exact absurd same (number_ne spelled plain rfl)
      | number y =>
          obtain ⟨m, q, finite⟩ := Literal.finite spelled plain
          obtain ⟨m', q', finite'⟩ := Literal.finite spelled' plain'
          rw [Number.text_injective spelled.1 spelled'.1 finite finite' same]
      | string => cases plain'
  | string => cases plain

theorem Token.Is.ne_text {t : Token} (h : t.Is .identifier) {v : Literal} (spelled : v.Spelled)
    (plain : v.Plain) : t.lexeme ≠ v.text := by
  obtain ⟨first, more, text, letter, -, free⟩ := h.name
  intro same
  cases v with
  | nil => exact free .nilWord (same ▸ rfl)
  | bool b =>
      cases b with
      | true => exact free .trueWord (same ▸ rfl)
      | false => exact free .falseWord (same ▸ rfl)
  | number x =>
      refine Literal.number_ne spelled plain ?_ same.symm
      have other := not_isDigit_of_letter letter
      simp [text, other]
  | string => cases plain

def Expr.Spelled : Expr → Prop
  | .literal value => value.Spelled
  | .unary operator _ | .binary _ operator _ =>
      operator.Whole ∧ operator.kind.isOperator = true
  | .logical _ operator _ => operator.Whole ∧ operator.kind.isLogical = true
  | .variable name | .assign name _ => name.Is .identifier
  | .call _ paren _ => paren.Is .rightParen
  | .grouping _ => True

def Stmt.Spelled : Stmt → Prop
  | .varDecl name _ => name.Is .identifier
  | .funDecl name params _ => name.Is .identifier ∧ ∀ param ∈ params, param.Is .identifier
  | .returnStmt keyword _ => keyword.Is .returnWord
  | _ => True

namespace Grammar
open Lox.Parser (Level Precedence)

theorem constant_spelled {t : Token} (whole : t.Whole) {v : Literal}
    (value : constant? t = some v) : v.Spelled := by
  unfold constant? at value
  split at value <;> cases value
  · trivial
  · trivial
  · trivial
  · rename_i number
    have spells := whole.fits.2
    rw [number] at spells
    obtain ⟨w, x, -, nearest, literal⟩ := spells
    rw [literal]
    refine ⟨nearest.1, fun nan => ?_⟩
    have other := nearest.2
    rw [nan] at other
    exact other
  · rename_i string
    have spells := whole.fits.2
    rw [string] at spells
    obtain ⟨body, -, literal⟩ := spells
    rw [literal]
    trivial

theorem isLogical_of_strength? {kind : Token.Kind} {p : Precedence}
    (strength : strength? kind = some p) (logical : p = .or ∨ p = .and) :
    kind.isLogical = true := by
  rcases logical with rfl | rfl <;> cases kind <;> first | rfl | cases strength

theorem Phrase.spelled {n : Nat} {l : Level} {ts : List Token} {e : Expr} :
    Phrase n l ts e → (∀ t ∈ ts, t.Whole) → e.Spelled
  | .tighter _ inner, tokens => inner.spelled tokens
  | .assign target _ _, tokens => ⟨tokens _ (.head _), target⟩
  | .operator _ strength _ _, tokens => by
      have whole := tokens _ (List.mem_append_right _ (.head _))
      unfold joined
      split
      · exact ⟨whole, isLogical_of_strength? strength ‹_›⟩
      · rename_i binary
        exact ⟨whole, isOperator_of_strength? strength (fun or => binary (.inl or))
          fun and => binary (.inr and)⟩
  | .unary sign _, tokens => by
      refine ⟨tokens _ (.head _), ?_⟩
      rcases sign with bang | minus
      · rw [bang]
        rfl
      · rw [minus]
        rfl
  | .call _ _ _ _ closes, tokens => ⟨tokens _ (List.mem_append_right _ (.head _)), closes⟩
  | .literal value, tokens => constant_spelled (tokens _ (.head _)) value
  | .name identifier, tokens => ⟨tokens _ (.head _), identifier⟩
  | .grouping _ _ _, _ => trivial

theorem Written.spelled {all : List Token} (whole : ∀ t ∈ all, t.Whole) {x : Expr}
    (h : Written all x) : x.Spelled := by
  cases h with
  | phrase h tokens => exact h.spelled fun t member => whole t (tokens t member)
  | always => trivial

variable {n : Nat} {f c : Bool} {ts us : List Token}

theorem Parameters.spelled {names : List Token} (h : Parameters us names)
    (tokens : ∀ t ∈ us, t.Whole) : ∀ name ∈ names, name.Is .identifier := by
  induction h with
  | none => exact nofun
  | last item => exact List.forall_mem_singleton.mpr ⟨tokens _ (.head _), item⟩
  | more item _ _ ih =>
      obtain ⟨first, -, others⟩ : _ ∧ _ ∧ _ := by simpa only [List.forall_mem_cons] using tokens
      exact List.forall_mem_cons.mpr ⟨⟨first, item⟩, ih others⟩

theorem Variable.spelled {s : Stmt} (h : Variable n ts s) (tokens : ∀ t ∈ ts, t.Whole) :
    ∀ t ∈ s.parts, t.Spelled := by
  cases h with
  | plain identifier => exact List.forall_mem_singleton.mpr ⟨tokens _ (.head _), identifier⟩
  | initialized identifier => exact List.forall_mem_singleton.mpr ⟨tokens _ (.head _), identifier⟩

theorem Initializer.spelled {first : Option Stmt} (h : Initializer n ts first)
    (tokens : ∀ t ∈ ts, t.Whole) : ∀ s ∈ first, ∀ t ∈ s.parts, t.Spelled := by
  rintro s ⟨⟩
  cases h with
  | declaration _ rest => exact rest.spelled (List.forall_mem_cons.mp tokens).2
  | expression => exact List.forall_mem_singleton.mpr trivial

mutual

theorem Declaration.spelled {n : Nat} {f : Bool} {ts : List Token} {s : Stmt} :
    Declaration n f ts s → (∀ t ∈ ts, t.Whole) → ∀ t ∈ s.parts, t.Spelled
  | .varDecl _ rest, tokens => rest.spelled (List.forall_mem_cons.mp tokens).2
  | .funDecl _ identifier _ parameters _ _ _ inside _, tokens => by
      obtain ⟨⟨⟨-, name, -, params⟩, -, -, body⟩, -⟩ : ((_ ∧ _ ∧ _ ∧ _) ∧ _ ∧ _ ∧ _) ∧ _ := by
        simpa only [List.forall_mem_append, List.forall_mem_cons] using tokens
      exact List.forall_mem_cons.mpr ⟨⟨⟨name, identifier⟩, parameters.spelled params⟩,
        inside.spelled body⟩
  | .statement plain, tokens => plain.spelled tokens

theorem Statement.spelled {n : Nat} {f c : Bool} {ts : List Token} {s : Stmt} :
    Statement n f c ts s → (∀ t ∈ ts, t.Whole) → ∀ t ∈ s.parts, t.Spelled
  | .expression _ _, _ | .print _ _ _, _ => List.forall_mem_singleton.mpr trivial
  | .block _ inside _, tokens => by
      obtain ⟨⟨-, body⟩, -⟩ : (_ ∧ _) ∧ _ := by
        simpa only [List.forall_mem_append, List.forall_mem_cons] using tokens
      exact List.forall_mem_cons.mpr ⟨trivial, inside.spelled body⟩
  | .ifThen _ _ _ _ whenTrue, tokens => by
      obtain ⟨-, -, inside⟩ : _ ∧ _ ∧ _ := by
        simpa only [List.forall_mem_append, List.forall_mem_cons] using tokens
      exact List.forall_mem_cons.mpr ⟨trivial, whenTrue.spelled inside⟩
  | .ifElse _ _ _ _ whenTrue _ whenFalse, tokens => by
      obtain ⟨⟨-, -, first⟩, -, second⟩ : (_ ∧ _ ∧ _) ∧ _ ∧ _ := by
        simpa only [List.forall_mem_append, List.forall_mem_cons] using tokens
      exact List.forall_mem_cons.mpr ⟨trivial,
        List.forall_mem_append.mpr ⟨whenTrue.spelled first, whenFalse.spelled second⟩⟩
  | .whileLoop _ _ _ _ body, tokens => by
      obtain ⟨-, -, inside⟩ : _ ∧ _ ∧ _ := by
        simpa only [List.forall_mem_append, List.forall_mem_cons] using tokens
      exact List.forall_mem_cons.mpr ⟨trivial, body.spelled inside⟩
  | .forLoop _ _ initializer _ _ increment _ body, tokens => by
      obtain ⟨⟨⟨⟨-, -, first⟩, -⟩, -⟩, -, inside⟩ : (((_ ∧ _ ∧ _) ∧ _) ∧ _) ∧ _ ∧ _ := by
        simpa only [List.forall_mem_append, List.forall_mem_cons] using tokens
      refine Stmt.parts_forLoop ?_ (fun _ => trivial) (fun _ => trivial) (initializer.spelled first)
        (body.spelled inside)
      cases increment <;> trivial
  | .returnStmt returns _ _, tokens =>
      List.forall_mem_singleton.mpr ⟨tokens _ (.head _), returns⟩

theorem Declarations.spelled {n : Nat} {f : Bool} {ts : List Token} {body : List Stmt} :
    Declarations n f ts body → (∀ t ∈ ts, t.Whole) → ∀ t ∈ Stmt.allParts body, t.Spelled
  | .nil, _ => nofun
  | .cons head tail, tokens => by
      obtain ⟨first, rest⟩ := List.forall_mem_append.mp tokens
      exact List.forall_mem_append.mpr ⟨head.spelled first, tail.spelled rest⟩

end

end Grammar

end Lox
