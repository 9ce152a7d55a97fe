import Lox.Proofs.Grammar

namespace Lox.Grammar
open Lox.Parser (Precedence Level)

theorem exists_succ_le {n m : Nat} (le : n + 1 ≤ m) : ∃ k, n ≤ k ∧ m = k + 1 :=
  ⟨m - 1, by omega, by omega⟩

mutual

theorem Phrase.mono {n m : Nat} {l : Level} {ts : List Token} {e : Expr} :
    Phrase n l ts e → n ≤ m → Phrase m l ts e
  | .tighter next inner, le => by
      obtain ⟨m, part, rfl⟩ := exists_succ_le le
      exact .tighter next (inner.mono part)
  | .assign target mark value, le => by
      obtain ⟨m, part, rfl⟩ := exists_succ_le le
      exact .assign target mark (value.mono part)
  | .operator left strength next right, le => by
      obtain ⟨m, part, rfl⟩ := exists_succ_le le
      exact .operator (left.mono le) strength next (right.mono part)
  | .unary sign operand, le => by
      obtain ⟨m, part, rfl⟩ := exists_succ_le le
      exact .unary sign (operand.mono part)
  | .call callee opens arguments few closes, le => by
      obtain ⟨m, part, rfl⟩ := exists_succ_le le
      exact .call (callee.mono le) opens (arguments.mono part) few closes
  | .literal value, le => by
      obtain ⟨m, -, rfl⟩ := exists_succ_le le
      exact .literal value
  | .name name, le => by
      obtain ⟨m, -, rfl⟩ := exists_succ_le le
      exact .name name
  | .grouping opens inner closes, le => by
      obtain ⟨m, part, rfl⟩ := exists_succ_le le
      exact .grouping opens (inner.mono part) closes

theorem Arguments.mono {n m : Nat} {ts : List Token} {es : List Expr} :
    Arguments n ts es → n ≤ m → Arguments m ts es
  | .none, _ => .none
  | .last item, le => .last (item.mono le)
  | .more item mark others, le => .more (item.mono le) mark (others.mono le)

end

theorem Clause.mono {n m : Nat} {ts : List Token} {value : Option Expr} (h : Clause n ts value)
    (le : n ≤ m) : Clause m ts value := by
  cases h with
  | absent => exact .absent
  | present value => exact .present (value.mono le)

theorem Variable.mono {n m : Nat} {ts : List Token} {s : Stmt} (h : Variable n ts s)
    (le : n ≤ m) : Variable m ts s := by
  cases h with
  | plain identifier closes => exact .plain identifier closes
  | initialized identifier mark value closes =>
      exact .initialized identifier mark (value.mono le) closes

theorem Initializer.mono {n m : Nat} {ts : List Token} {s : Option Stmt} (h : Initializer n ts s)
    (le : n ≤ m) : Initializer m ts s := by
  cases h with
  | absent closes => exact .absent closes
  | declaration var rest => exact .declaration var (rest.mono le)
  | expression value closes => exact .expression (value.mono le) closes

mutual

theorem Declaration.mono {n m : Nat} {f : Bool} {ts : List Token} {s : Stmt} :
    Declaration n f ts s → n ≤ m → Declaration m f ts s
  | .varDecl var rest, le => by
      obtain ⟨m, part, rfl⟩ := exists_succ_le le
      exact .varDecl var (rest.mono part)
  | .funDecl fn identifier opens parameters few closes begins inside ends, le => by
      obtain ⟨m, part, rfl⟩ := exists_succ_le le
      exact .funDecl fn identifier opens parameters few closes begins (inside.mono part) ends
  | .statement plain, le => by
      obtain ⟨m, part, rfl⟩ := exists_succ_le le
      exact .statement (plain.mono part)

theorem Statement.mono {n m : Nat} {f c : Bool} {ts : List Token} {s : Stmt} :
    Statement n f c ts s → n ≤ m → Statement m f c ts s
  | .expression value closes, le => by
      obtain ⟨m, part, rfl⟩ := exists_succ_le le
      exact .expression (value.mono part) closes
  | .print print value closes, le => by
      obtain ⟨m, part, rfl⟩ := exists_succ_le le
      exact .print print (value.mono part) closes
  | .block begins inside ends, le => by
      obtain ⟨m, part, rfl⟩ := exists_succ_le le
      exact .block begins (inside.mono part) ends
  | .ifThen ifs opens condition closes whenTrue, le => by
      obtain ⟨m, part, rfl⟩ := exists_succ_le le
      exact .ifThen ifs opens (condition.mono part) closes (whenTrue.mono part)
  | .ifElse ifs opens condition closes whenTrue elses whenFalse, le => by
      obtain ⟨m, part, rfl⟩ := exists_succ_le le
      exact .ifElse ifs opens (condition.mono part) closes (whenTrue.mono part) elses
        (whenFalse.mono part)
  | .whileLoop whiles opens condition closes body, le => by
      obtain ⟨m, part, rfl⟩ := exists_succ_le le
      exact .whileLoop whiles opens (condition.mono part) closes (body.mono part)
  | .forLoop fors opens initializer test mark increment closes body, le => by
      obtain ⟨m, part, rfl⟩ := exists_succ_le le
      exact .forLoop fors opens (initializer.mono part) (test.mono part) mark (increment.mono part) closes
        (body.mono part)
  | .returnStmt returns result closes, le => by
      obtain ⟨m, part, rfl⟩ := exists_succ_le le
      exact .returnStmt returns (result.mono part) closes

theorem Declarations.mono {n m : Nat} {f : Bool} {ts : List Token} {body : List Stmt} :
    Declarations n f ts body → n ≤ m → Declarations m f ts body
  | .nil, _ => .nil
  | .cons head tail, le => .cons (head.mono le) (tail.mono le)

end

/-- The nesting of a single token as an expression of a level. -/
def height : Level → Nat
  | .assignment => 10
  | .chain .or => 9
  | .chain .and => 8
  | .chain .equality => 7
  | .chain .comparison => 6
  | .chain .term => 5
  | .chain .factor => 4
  | .unary => 3
  | .call => 2
  | .primary => 1

theorem height_tighter {l k : Level} (next : tighter? l = some k) : height l = height k + 1 := by
  rcases l with _ | p | _ | _ | _
  case chain => cases p <;> cases next <;> rfl
  all_goals cases next <;> rfl

theorem height_pos (l : Level) : 0 < height l := by
  rcases l with _ | p | _ | _ | _
  case chain => cases p <;> decide
  all_goals decide

theorem Phrase.ofPrimary {ts : List Token} {e : Expr} (atom : Phrase 1 .primary ts e) {n : Nat}
    {l : Level} (le : height l ≤ n) : Phrase n l ts e := by
  induction n generalizing l with
  | zero =>
      have positive := height_pos l
      omega
  | succ n ih =>
      cases next : tighter? l with
      | some k =>
          have step := height_tighter next
          exact .tighter next (ih (by omega))
      | none =>
          have primary : l = .primary := by
            rcases l with _ | p | _ | _ | _
            case chain => cases p <;> cases next
            all_goals first | rfl | cases next
          subst primary
          exact atom.mono (by omega)

theorem Phrase.ofName {t : Token} (name : t.kind = .identifier) {n : Nat} {l : Level}
    (le : height l ≤ n) : Phrase n l [t] (.variable t) := .ofPrimary (.name name) le

mutual

theorem Phrase.bounded {n : Nat} {l : Level} {ts : List Token} {e : Expr} :
    Phrase n l ts e → Phrase (10 * ts.length + height l) l ts e
  | .tighter next inner => by
      rw [height_tighter next]
      exact .tighter next inner.bounded
  | .assign target mark value => by
      refine Phrase.mono (.assign target mark value.bounded) ?_
      simp only [height, List.length_cons]
      omega
  | @Phrase.operator _ p _ ls _ _ rs _ left strength next right => by
      have step := height_tighter next
      refine Phrase.mono (.operator (n := 10 * (ls.length + rs.length) + height (.chain p))
        (left.bounded.mono ?_) strength next (right.bounded.mono ?_)) ?_
      all_goals grind
  | .unary sign operand => by
      refine Phrase.mono (.unary sign operand.bounded) ?_
      simp only [List.length_cons]
      omega
  | @Phrase.call _ ts _ _ us _ _ callee opens arguments few closes => by
      refine Phrase.mono (.call (n := 10 * (ts.length + us.length) + 10)
        (callee.bounded.mono ?_) opens (arguments.bounded.mono ?_) few closes) ?_
      all_goals grind [height]
  | .literal value => .literal value
  | .name identifier => .name identifier
  | .grouping opens inner closes => by
      refine Phrase.mono (.grouping opens inner.bounded closes) ?_
      simp only [height, List.length_append, List.length_cons, List.length_nil]
      omega

theorem Arguments.bounded {n : Nat} {ts : List Token} {es : List Expr} :
    Arguments n ts es → Arguments (10 * ts.length + 10) ts es
  | .none => .none
  | .last item => .last item.bounded
  | .more item mark others => by
      refine .more (item.bounded.mono ?_) mark (others.bounded.mono ?_)
      all_goals grind [height]

end

theorem Clause.bounded {n : Nat} {ts : List Token} {value : Option Expr} (h : Clause n ts value) :
    Clause (10 * ts.length + 10) ts value := by
  cases h with
  | absent => exact .absent
  | present value => exact .present value.bounded

theorem Variable.bounded {n : Nat} {ts : List Token} {s : Stmt} (h : Variable n ts s) :
    Variable (10 * ts.length) ts s := by
  cases h with
  | plain identifier closes => exact .plain identifier closes
  | initialized identifier mark value closes =>
      refine .initialized identifier mark (value.bounded.mono ?_) closes
      simp only [height, List.length_append, List.length_cons, List.length_nil]
      omega

theorem Initializer.bounded {n : Nat} {ts : List Token} {s : Option Stmt}
    (h : Initializer n ts s) : Initializer (10 * ts.length) ts s := by
  cases h with
  | absent closes => exact .absent closes
  | declaration var rest =>
      refine .declaration var (rest.bounded.mono ?_)
      simp only [List.length_cons]
      omega
  | expression value closes =>
      refine .expression (value.bounded.mono ?_) closes
      simp only [height, List.length_append, List.length_cons, List.length_nil]
      omega

mutual

theorem Declaration.bounded {n : Nat} {f : Bool} {ts : List Token} {s : Stmt} :
    Declaration n f ts s → Declaration (10 * ts.length + 12) f ts s
  | .varDecl var rest => by
      refine Declaration.mono (.varDecl var rest.bounded) ?_
      simp only [List.length_cons]
      omega
  | .funDecl fn identifier opens parameters few closes begins inside ends => by
      refine Declaration.mono
        (.funDecl fn identifier opens parameters few closes begins inside.bounded ends) ?_
      simp only [List.length_append, List.length_cons, List.length_nil]
      omega
  | .statement plain => .statement plain.bounded

theorem Statement.bounded {n : Nat} {f c : Bool} {ts : List Token} {s : Stmt} :
    Statement n f c ts s → Statement (10 * ts.length + 11) f c ts s
  | .expression value closes => by
      refine Statement.mono (.expression value.bounded closes) ?_
      simp only [height, List.length_append, List.length_cons, List.length_nil]
      omega
  | .print print value closes => by
      refine Statement.mono (.print print value.bounded closes) ?_
      simp only [height, List.length_append, List.length_cons, List.length_nil]
      omega
  | .block begins inside ends => by
      refine Statement.mono (.block begins inside.bounded ends) ?_
      simp only [List.length_append, List.length_cons, List.length_nil]
      omega
  | @Statement.ifThen _ _ _ _ ts _ _ us _ ifs opens condition closes whenTrue => by
      refine Statement.mono (.ifThen (n := 10 * (ts.length + us.length) + 11) ifs opens
        (condition.bounded.mono ?_) closes (whenTrue.bounded.mono ?_)) ?_
      all_goals grind [height]
  | @Statement.ifElse _ _ _ _ _ ts _ _ us _ _ vs _ ifs opens condition closes whenTrue elses
      whenFalse => by
      refine Statement.mono (.ifElse (n := 10 * (ts.length + us.length + vs.length) + 11) ifs opens
        (condition.bounded.mono ?_) closes (whenTrue.bounded.mono ?_) elses
        (whenFalse.bounded.mono ?_)) ?_
      all_goals grind [height]
  | @Statement.whileLoop _ _ _ _ _ ts _ _ us _ whiles opens condition closes body => by
      refine Statement.mono (.whileLoop (n := 10 * (ts.length + us.length) + 11) whiles opens
        (condition.bounded.mono ?_) closes (body.bounded.mono ?_)) ?_
      all_goals grind [height]
  | @Statement.forLoop _ _ _ _ _ is _ ts _ _ us _ _ vs _ fors opens initializer test mark
      increment closes body => by
      refine Statement.mono
        (.forLoop (n := 10 * (is.length + ts.length + us.length + vs.length) + 11) fors opens
          (initializer.bounded.mono ?_) (test.bounded.mono ?_) mark (increment.bounded.mono ?_)
          closes (body.bounded.mono ?_)) ?_
      all_goals grind
  | .returnStmt returns result closes => by
      refine Statement.mono (.returnStmt returns result.bounded closes) ?_
      simp only [List.length_append, List.length_cons, List.length_nil]
      omega

theorem Declarations.bounded {n : Nat} {f : Bool} {ts : List Token} {body : List Stmt} :
    Declarations n f ts body → Declarations (10 * ts.length + 12) f ts body
  | .nil => .nil
  | .cons head tail => by
      refine .cons (head.bounded.mono ?_) (tail.bounded.mono ?_)
      all_goals grind

end

theorem Phrase.height_le {n : Nat} {l : Level} {ts : List Token} {e : Expr} :
    Phrase n l ts e → height l ≤ n
  | .tighter next inner => by
      have le := inner.height_le
      rw [height_tighter next]
      omega
  | .assign _ _ value => by
      have le := value.height_le
      omega
  | .operator left _ _ _ => left.height_le
  | .unary _ operand => by
      have le := operand.height_le
      omega
  | .call callee _ _ _ _ => callee.height_le
  | .literal _ | .name _ | .grouping _ _ _ => by simp [height]

theorem Phrase.length_pos {n : Nat} {l : Level} {ts : List Token} {e : Expr} :
    Phrase n l ts e → 0 < ts.length
  | .tighter _ inner => inner.length_pos
  | .assign _ _ _ | .operator _ _ _ _ | .unary _ _ | .call _ _ _ _ _ | .literal _ | .name _
  | .grouping _ _ _ => by
      simp only [List.length_append, List.length_cons]
      omega

theorem Statement.length_pos {n : Nat} {f c : Bool} {ts : List Token} {s : Stmt}
    (h : Statement n f c ts s) : 0 < ts.length := by
  cases h <;> simp

theorem Declaration.length_pos {n : Nat} {f : Bool} {ts : List Token} {s : Stmt}
    (h : Declaration n f ts s) : 0 < ts.length := by
  cases h with
  | varDecl | funDecl => simp
  | statement plain => exact plain.length_pos

end Lox.Grammar
