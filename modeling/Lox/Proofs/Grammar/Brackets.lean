import Lox.Proofs.Grammar

namespace Lox

namespace Token.Kind

def isBracket (kind : Kind) : Bool := kind.opens || kind.closes

def partner? : Kind → Option Kind
  | .leftParen => some .rightParen
  | .leftBrace => some .rightBrace
  | _ => none

@[simp] theorem opens_of_not_isBracket {kind : Kind} (other : kind.isBracket = false) :
    kind.opens = false := by
  simp_all [isBracket]

@[simp] theorem closes_of_not_isBracket {kind : Kind} (other : kind.isBracket = false) :
    kind.closes = false := by
  simp_all [isBracket]

theorem closes_of_opens {kind : Kind} (opens : kind.opens = true) : kind.closes = false := by
  cases kind <;> first | rfl | cases opens

theorem opens_of_partner? {opening closing : Kind} (same : opening.partner? = some closing) :
    opening.opens = true ∧ opening.closes = false ∧ closing.opens = false ∧
      closing.closes = true := by
  cases opening <;> cases same <;> decide

end Token.Kind

namespace Grammar

/-- Token lists in which each bracket has its partner. -/
inductive Balanced : List Token → Prop
  | nil : Balanced []
  | plain {t ts} (other : t.kind.isBracket = false) (rest : Balanced ts) : Balanced (t :: ts)
  | pair {opening inside closing rest} (partner : opening.kind.partner? = some closing.kind)
      (inner : Balanced inside) (outer : Balanced rest) :
      Balanced (opening :: inside ++ closing :: rest)

def Open (ts us : List Token) : Prop :=
  ∃ before opening xs ys closing after, ts = before ++ opening :: xs ∧ us = ys ++ closing :: after ∧
    opening.kind.partner? = some closing.kind ∧ Balanced (xs ++ ys)

theorem Balanced.append {ts us : List Token} (first : Balanced ts) (second : Balanced us) :
    Balanced (ts ++ us) := by
  induction first with
  | nil => exact second
  | plain other _ ih => exact .plain other ih
  | pair partner inner _ _ ih =>
      rw [List.append_assoc]
      exact .pair partner inner ih

theorem Balanced.single {t : Token} (other : t.kind.isBracket = false) : Balanced [t] :=
  .plain other .nil

open Lox.Parser (Level Precedence)

theorem isBracket_of_strength? {kind : Token.Kind} {p : Precedence}
    (strength : strength? kind = some p) : kind.isBracket = false := by
  cases kind <;> cases strength <;> rfl

theorem isBracket_of_constant? {t : Token} {v : Literal} (value : constant? t = some v) :
    t.kind.isBracket = false := by
  revert value
  unfold constant?
  cases t.kind <;> simp [Token.Kind.isBracket, Token.Kind.opens, Token.Kind.closes]

theorem parens {opening closing : Token} (opens : opening.kind = .leftParen)
    (closes : closing.kind = .rightParen) : opening.kind.partner? = some closing.kind := by
  rw [opens, closes]
  rfl

theorem braces {opening closing : Token} (opens : opening.kind = .leftBrace)
    (closes : closing.kind = .rightBrace) : opening.kind.partner? = some closing.kind := by
  rw [opens, closes]
  rfl

variable {n : Nat} {f c : Bool} {ts : List Token}

mutual

theorem Phrase.balanced {n : Nat} {l : Level} {ts : List Token} {e : Expr} :
    Phrase n l ts e → Balanced ts
  | .tighter _ inner => inner.balanced
  | .assign target mark value => .plain (target ▸ rfl) (.plain (mark ▸ rfl) value.balanced)
  | .operator left strength _ right =>
      left.balanced.append (.plain (isBracket_of_strength? strength) right.balanced)
  | .unary sign operand => by
      rcases sign with bang | minus
      · exact .plain (bang ▸ rfl) operand.balanced
      · exact .plain (minus ▸ rfl) operand.balanced
  | .call callee opens arguments _ closes => by
      rw [List.append_assoc]
      exact callee.balanced.append (.pair (parens opens closes) arguments.balanced .nil)
  | .literal value => .single (isBracket_of_constant? value)
  | .name identifier => .single (identifier ▸ rfl)
  | .grouping opens inner closes => .pair (parens opens closes) inner.balanced .nil

theorem Arguments.balanced {n : Nat} {ts : List Token} {es : List Expr} :
    Arguments n ts es → Balanced ts
  | .none => .nil
  | .last item => item.balanced
  | .more item mark others => item.balanced.append (.plain (mark ▸ rfl) others.balanced)

end

theorem Clause.balanced {o : Option Expr} (h : Clause n ts o) : Balanced ts := by
  cases h with
  | absent => exact .nil
  | present value => exact value.balanced

theorem Parameters.balanced {params : List Token} (h : Parameters ts params) : Balanced ts := by
  induction h with
  | none => exact .nil
  | last item => exact .single (item ▸ rfl)
  | more item mark _ ih => exact .plain (item ▸ rfl) (.plain (mark ▸ rfl) ih)

theorem Variable.balanced {s : Stmt} (h : Variable n ts s) : Balanced ts := by
  cases h with
  | plain identifier closes => exact .plain (identifier ▸ rfl) (.single (closes ▸ rfl))
  | initialized identifier mark value closes =>
      exact .plain (identifier ▸ rfl)
        (.plain (mark ▸ rfl) (value.balanced.append (.single (closes ▸ rfl))))

theorem Initializer.balanced {o : Option Stmt} (h : Initializer n ts o) : Balanced ts := by
  cases h with
  | absent closes => exact .single (closes ▸ rfl)
  | declaration var rest => exact .plain (var ▸ rfl) rest.balanced
  | expression value closes => exact value.balanced.append (.single (closes ▸ rfl))

mutual

theorem Declaration.balanced {n : Nat} {f : Bool} {ts : List Token} {s : Stmt} :
    Declaration n f ts s → Balanced ts
  | .varDecl var rest => .plain (var ▸ rfl) rest.balanced
  | .funDecl fn identifier opens parameters _ closes begins inside ends => by
      rw [List.append_assoc]
      exact .plain (fn ▸ rfl) (.plain (identifier ▸ rfl)
        (.pair (parens opens closes) parameters.balanced
          (.pair (braces begins ends) inside.balanced .nil)))
  | .statement plain => plain.balanced

theorem Statement.balanced {n : Nat} {f c : Bool} {ts : List Token} {s : Stmt} :
    Statement n f c ts s → Balanced ts
  | .expression value closes => value.balanced.append (.single (closes ▸ rfl))
  | .print word value closes =>
      .plain (word ▸ rfl) (value.balanced.append (.single (closes ▸ rfl)))
  | .block begins inside ends => .pair (braces begins ends) inside.balanced .nil
  | .ifThen ifs opens condition closes whenTrue =>
      .plain (ifs ▸ rfl) (.pair (parens opens closes) condition.balanced whenTrue.balanced)
  | .ifElse ifs opens condition closes whenTrue elses whenFalse => by
      rw [List.append_assoc]
      exact .plain (ifs ▸ rfl) (.pair (parens opens closes) condition.balanced
        (whenTrue.balanced.append (.plain (elses ▸ rfl) whenFalse.balanced)))
  | .whileLoop whiles opens condition closes body =>
      .plain (whiles ▸ rfl) (.pair (parens opens closes) condition.balanced body.balanced)
  | .forLoop fors opens initializer test mark increment closes body => by
      have stepped := Balanced.plain ((congrArg Token.Kind.isBracket mark).trans rfl)
        increment.balanced
      have clauses := initializer.balanced.append (test.balanced.append stepped)
      have loop := Balanced.pair (parens opens closes) clauses body.balanced
      simp only [List.append_assoc, List.cons_append] at loop ⊢
      exact .plain (fors ▸ rfl) loop
  | .returnStmt returns result closes =>
      .plain (returns ▸ rfl) (result.balanced.append (.single (closes ▸ rfl)))

theorem Declarations.balanced {n : Nat} {f : Bool} {ts : List Token} {body : List Stmt} :
    Declarations n f ts body → Balanced ts
  | .nil => .nil
  | .cons head tail => head.balanced.append tail.balanced

end

def openings (ts : List Token) : Nat := ts.countP (·.kind.opens)

def closings (ts : List Token) : Nat := ts.countP (·.kind.closes)

@[simp] theorem openings_append (ts us : List Token) :
    openings (ts ++ us) = openings ts + openings us := List.countP_append

@[simp] theorem closings_append (ts us : List Token) :
    closings (ts ++ us) = closings ts + closings us := List.countP_append

@[simp] theorem openings_cons (t : Token) (ts : List Token) :
    openings (t :: ts) = openings ts + if t.kind.opens then 1 else 0 := List.countP_cons

@[simp] theorem closings_cons (t : Token) (ts : List Token) :
    closings (t :: ts) = closings ts + if t.kind.closes then 1 else 0 := List.countP_cons

theorem count_pair {opening closing : Token} (partner : opening.kind.partner? = some closing.kind)
    (inside rest : List Token) :
    openings (opening :: inside ++ closing :: rest) = openings inside + 1 + openings rest ∧
      closings (opening :: inside ++ closing :: rest) = closings inside + 1 + closings rest := by
  obtain ⟨opens, opened, closed, closes⟩ := Token.Kind.opens_of_partner? partner
  constructor
  · simp [opens, closed]
    omega
  · simp [opened, closes]
    omega

theorem Balanced.count {ts : List Token} (h : Balanced ts) : closings ts = openings ts := by
  induction h with
  | nil => rfl
  | plain other _ ih => simp [other, ih]
  | @pair _ inside _ rest partner _ _ inner outer =>
      obtain ⟨opened, closed⟩ := count_pair partner inside rest
      omega

theorem Balanced.cut {ts us : List Token} (h : Balanced (ts ++ us)) :
    closings ts = openings ts ∨ closings ts < openings ts ∧ Open ts us := by
  generalize same : ts ++ us = all at h
  induction h generalizing ts us with
  | nil =>
      obtain ⟨rfl, -⟩ := List.append_eq_nil_iff.mp same
      exact .inl rfl
  | @plain t rest other _ ih =>
      cases ts with
      | nil => exact .inl rfl
      | cons t ts =>
          cases same
          rcases ih rfl with even | ⟨less, before, opening, xs, ys, closing, after, rfl, rest⟩
          · exact .inl (by simp [other, even])
          · refine .inr ⟨by simpa [other] using less, ?_⟩
            exact ⟨t :: before, opening, xs, ys, closing, after, rfl, rest⟩
  | @pair opening inside closing rest partner inner outer within beyond =>
      -- A cut inside of this pair leaves its bracket open, whatever else is open there.
      have early : ∀ xs ys, inside = xs ++ ys → us = ys ++ closing :: rest →
          closings (opening :: xs) < openings (opening :: xs) ∧ Open (opening :: xs) us := by
        rintro xs ys rfl rfl
        refine ⟨?_, [], opening, xs, ys, closing, rest, rfl, rfl, partner, inner⟩
        obtain ⟨opens, opened, -, -⟩ := Token.Kind.opens_of_partner? partner
        have le : closings xs ≤ openings xs := by
          rcases within rfl with even | ⟨less, -⟩ <;> omega
        simpa [opens, opened] using Nat.lt_succ_of_le le
      have late : ∀ later, rest = later ++ us →
          let ts := opening :: inside ++ closing :: later
          closings ts = openings ts ∨ closings ts < openings ts ∧ Open ts us := by
        intro later rests
        obtain ⟨opened, closed⟩ := count_pair partner inside later
        have even := inner.count
        rcases beyond rests.symm with
          equal | ⟨less, before, first, xs, ys, last, after, rfl, others⟩
        · exact .inl (by omega)
        · refine .inr ⟨by omega, opening :: inside ++ closing :: before, first, xs, ys, last, after,
            by simp, others⟩
      cases ts with
      | nil => exact .inl rfl
      | cons t ts =>
          rw [List.cons_append, List.cons_append, List.cons.injEq] at same
          obtain ⟨rfl, same⟩ := same
          rcases List.append_eq_append_iff.mp same with ⟨ys, inner, rests⟩ | ⟨later, rfl, rests⟩
          · exact .inr (early ts ys inner rests)
          · cases later with
            | nil => exact .inr (early _ [] (by simp) rests.symm)
            | cons last later =>
                rw [List.cons_append, List.cons.injEq] at rests
                obtain ⟨rfl, rests⟩ := rests
                exact late later rests

theorem Open.lt {ts us : List Token} (h : Open ts us) (balanced : Balanced (ts ++ us)) :
    closings ts < openings ts := by
  obtain ⟨before, opening, xs, ys, closing, after, rfl, rfl, partner, inner⟩ := h
  obtain ⟨opens, _, _, closes⟩ := Token.Kind.opens_of_partner? partner
  have early : closings before ≤ openings before := by
    rw [List.append_assoc] at balanced
    rcases balanced.cut with even | ⟨less, -⟩ <;> omega
  have late : closings xs ≤ openings xs := by
    rcases inner.cut with even | ⟨less, -⟩ <;> omega
  simp_all
  omega

end Grammar

end Lox
