import Lox.Evaluation
import Mathlib.Data.List.Forall2

namespace Lox

/-- A relation between tokens that a run cannot tell apart but in its errors. -/
structure Token.Faithful (R : Token → Token → Prop) : Prop where
  kind {t t' : Token} : R t t' → t.kind = t'.kind
  lexeme {t t' : Token} : R t t' → t.lexeme = t'.lexeme

theorem rightUnique_eq {α : Type} : Relator.RightUnique (Eq : α → α → Prop) := by
  intro a b c first second
  exact first.symm.trans second

theorem faithful_eq : Token.Faithful (· = ·) := ⟨fun h => h ▸ rfl, fun h => h ▸ rfl⟩

variable (R : Token → Token → Prop)

inductive Expr.Alike : Expr → Expr → Prop
  | literal {v} : Alike (.literal v) (.literal v)
  | grouping {e e'} (inner : Alike e e') : Alike (.grouping e) (.grouping e')
  | unary {op op' e e'} (operator : R op op') (operand : Alike e e') :
      Alike (.unary op e) (.unary op' e')
  | binary {a a' op op' b b'} (left : Alike a a') (operator : R op op') (right : Alike b b') :
      Alike (.binary a op b) (.binary a' op' b')
  | logical {a a' op op' b b'} (left : Alike a a') (operator : R op op') (right : Alike b b') :
      Alike (.logical a op b) (.logical a' op' b')
  | name {t t'} (token : R t t') : Alike (.variable t) (.variable t')
  | assign {t t' e e'} (token : R t t') (value : Alike e e') :
      Alike (.assign t e) (.assign t' e')
  | call {f f' p p' es es'} (callee : Alike f f') (paren : R p p')
      (arguments : List.Forall₂ Alike es es') : Alike (.call f p es) (.call f' p' es')

inductive Stmt.Alike : Stmt → Stmt → Prop
  | expression {e e'} (value : e.Alike R e') : Alike (.expression e) (.expression e')
  | print {e e'} (value : e.Alike R e') : Alike (.print e) (.print e')
  | varDecl {t t' o o'} (name : R t t') (initializer : Option.Rel (Expr.Alike R) o o') :
      Alike (.varDecl t o) (.varDecl t' o')
  | block {body body'} (inside : List.Forall₂ Alike body body') :
      Alike (.block body) (.block body')
  | ifElse {e e' a a' o o'} (condition : e.Alike R e') (whenTrue : Alike a a')
      (whenFalse : Option.Rel Alike o o') : Alike (.ifElse e a o) (.ifElse e' a' o')
  | whileLoop {e e' s s'} (condition : e.Alike R e') (body : Alike s s') :
      Alike (.whileLoop e s) (.whileLoop e' s')
  | funDecl {t t' ps ps' body body'} (name : R t t') (params : List.Forall₂ R ps ps')
      (inside : List.Forall₂ Alike body body') :
      Alike (.funDecl t ps body) (.funDecl t' ps' body')
  | returnStmt {t t' o o'} (keyword : R t t') (value : Option.Rel (Expr.Alike R) o o') :
      Alike (.returnStmt t o) (.returnStmt t' o')

variable {R}

mutual

theorem Expr.Alike.refl (same : ∀ t, R t t) : (e : Expr) → e.Alike R e
  | .literal _ => .literal
  | .grouping inner => .grouping (refl same inner)
  | .unary _ operand => .unary (same _) (refl same operand)
  | .binary left _ right => .binary (refl same left) (same _) (refl same right)
  | .logical left _ right => .logical (refl same left) (same _) (refl same right)
  | .variable _ => .name (same _)
  | .assign _ value => .assign (same _) (refl same value)
  | .call callee _ arguments => .call (refl same callee) (same _) (refls same arguments)

theorem Expr.Alike.refls (same : ∀ t, R t t) : (es : List Expr) → List.Forall₂ (Alike R) es es
  | [] => .nil
  | e :: es => .cons (refl same e) (refls same es)

end

mutual

theorem Stmt.Alike.refl (same : ∀ t, R t t) : (s : Stmt) → s.Alike R s
  | .expression value => .expression (.refl same value)
  | .print value => .print (.refl same value)
  | .varDecl _ none => .varDecl (same _) .none
  | .varDecl _ (some e) => .varDecl (same _) (.some (.refl same e))
  | .block body => .block (refls same body)
  | .ifElse condition whenTrue none => .ifElse (.refl same condition) (refl same whenTrue) .none
  | .ifElse condition whenTrue (some s) =>
      .ifElse (.refl same condition) (refl same whenTrue) (.some (refl same s))
  | .whileLoop condition body => .whileLoop (.refl same condition) (refl same body)
  | .funDecl _ _ body => .funDecl (same _) (List.forall₂_same.mpr fun t _ => same t) (refls same body)
  | .returnStmt _ none => .returnStmt (same _) .none
  | .returnStmt _ (some e) => .returnStmt (same _) (.some (.refl same e))

theorem Stmt.Alike.refls (same : ∀ t, R t t) : (body : List Stmt) →
    List.Forall₂ (Alike R) body body
  | [] => .nil
  | s :: body => .cons (refl same s) (refls same body)

end

mutual

theorem Expr.Alike.unique (functional : Relator.RightUnique R) : {e a b : Expr} →
    e.Alike R a → e.Alike R b → a = b
  | _, _, _, .literal, .literal => rfl
  | _, _, _, .grouping inner, .grouping inner' => by rw [inner.unique functional inner']
  | _, _, _, .unary operator operand, .unary operator' operand' => by
      rw [functional operator operator', operand.unique functional operand']
  | _, _, _, .binary left operator right, .binary left' operator' right' => by
      rw [left.unique functional left', functional operator operator',
        right.unique functional right']
  | _, _, _, .logical left operator right, .logical left' operator' right' => by
      rw [left.unique functional left', functional operator operator',
        right.unique functional right']
  | _, _, _, .name token, .name token' => by rw [functional token token']
  | _, _, _, .assign token value, .assign token' value' => by
      rw [functional token token', value.unique functional value']
  | _, _, _, .call callee paren arguments, .call callee' paren' arguments' => by
      rw [callee.unique functional callee', functional paren paren',
        Expr.Alike.uniques functional arguments arguments']

theorem Expr.Alike.uniques (functional : Relator.RightUnique R) : {es as bs : List Expr} →
    List.Forall₂ (Alike R) es as → List.Forall₂ (Alike R) es bs → as = bs
  | _, _, _, .nil, .nil => rfl
  | _, _, _, .cons head tail, .cons head' tail' => by
      rw [head.unique functional head', Expr.Alike.uniques functional tail tail']

end

mutual

theorem Stmt.Alike.unique (functional : Relator.RightUnique R) : {s a b : Stmt} →
    s.Alike R a → s.Alike R b → a = b
  | _, _, _, .expression value, .expression value' => by rw [value.unique functional value']
  | _, _, _, .print value, .print value' => by rw [value.unique functional value']
  | _, _, _, .varDecl name .none, .varDecl name' .none => by rw [functional name name']
  | _, _, _, .varDecl name (.some value), .varDecl name' (.some value') => by
      rw [functional name name', value.unique functional value']
  | _, _, _, .block inside, .block inside' => by rw [Stmt.Alike.uniques functional inside inside']
  | _, _, _, .ifElse condition whenTrue .none, .ifElse condition' whenTrue' .none => by
      rw [condition.unique functional condition', whenTrue.unique functional whenTrue']
  | _, _, _, .ifElse condition whenTrue (.some whenFalse),
    .ifElse condition' whenTrue' (.some whenFalse') => by
      rw [condition.unique functional condition', whenTrue.unique functional whenTrue',
        whenFalse.unique functional whenFalse']
  | _, _, _, .whileLoop condition body, .whileLoop condition' body' => by
      rw [condition.unique functional condition', body.unique functional body']
  | _, _, _, .funDecl name params inside, .funDecl name' params' inside' => by
      rw [functional name name', List.right_unique_forall₂' functional params params',
        Stmt.Alike.uniques functional inside inside']
  | _, _, _, .returnStmt keyword .none, .returnStmt keyword' .none => by
      rw [functional keyword keyword']
  | _, _, _, .returnStmt keyword (.some value), .returnStmt keyword' (.some value') => by
      rw [functional keyword keyword', value.unique functional value']

theorem Stmt.Alike.uniques (functional : Relator.RightUnique R) : {body as bs : List Stmt} →
    List.Forall₂ (Alike R) body as → List.Forall₂ (Alike R) body bs → as = bs
  | _, _, _, .nil, .nil => rfl
  | _, _, _, .cons head tail, .cons head' tail' => by
      rw [head.unique functional head', Stmt.Alike.uniques functional tail tail']

end

variable (R) (sees : Nat → Nat → Prop)

structure Function.Alike (f f' : Function) : Prop where
  id : f.id = f'.id
  name : R f.name f'.name
  params : List.Forall₂ R f.params f'.params
  body : List.Forall₂ (Stmt.Alike R) f.body f'.body
  closure : sees f.closure f'.closure

inductive Value.Alike : Value → Value → Prop
  | nil : Alike .nil .nil
  | bool {b} : Alike (.bool b) (.bool b)
  | number {x} : Alike (.number x) (.number x)
  | string {s} : Alike (.string s) (.string s)
  | function {f f'} (alike : f.Alike R sees f') : Alike (.function f) (.function f')
  | native {f} : Alike (.native f) (.native f)

inductive Completion.Alike : Completion → Completion → Prop
  | normal : Alike .normal .normal
  | returning {v v'} (value : v.Alike R sees v') : Alike (.returning v) (.returning v')

inductive RuntimeError.Alike : RuntimeError → RuntimeError → Prop
  | mk {cause t t'} (token : R t t') : Alike ⟨cause, t⟩ ⟨cause, t'⟩

inductive Stop.Alike : Stop → Stop → Prop
  | error {e e'} (alike : e.Alike R e') : Alike (.error e) (.error e')
  | exhausted : Alike .exhausted .exhausted
  | outOfFuel : Alike .outOfFuel .outOfFuel

inductive Value.Results : Except RuntimeError Value → Except RuntimeError Value → Prop
  | ok {v v'} (value : v.Alike R sees v') : Results (.ok v) (.ok v')
  | error {e e'} (alike : e.Alike R e') : Results (.error e) (.error e')

variable {R} {sees}

namespace Value.Alike

variable {u u' v v' : Value}

theorem mono {more : Nat → Nat → Prop} (le : ∀ s s', sees s s' → more s s')
    (h : v.Alike R sees v') : v.Alike R more v' := by
  cases h with
  | nil => exact .nil
  | bool => exact .bool
  | number => exact .number
  | string => exact .string
  | function alike =>
      exact .function ⟨alike.id, alike.name, alike.params, alike.body, le _ _ alike.closure⟩
  | native => exact .native

theorem refl (tokens : ∀ t, R t t) (scopes : ∀ s, sees s s) : (v : Value) → v.Alike R sees v
  | .nil => .nil
  | .bool _ => .bool
  | .number _ => .number
  | .string _ => .string
  | .function _ => .function ⟨rfl, tokens _, List.forall₂_same.mpr fun t _ => tokens t,
      Stmt.Alike.refls tokens _, scopes _⟩
  | .native _ => .native

theorem unique (functional : Relator.RightUnique R) (places : Relator.RightUnique sees)
    (first : v.Alike R sees u) (second : v.Alike R sees u') : u = u' := by
  cases first with
  | nil | bool | number | string | native => cases second; rfl
  | @function f f' alike =>
      cases second with
      | @function _ f'' other =>
          have params := List.right_unique_forall₂' functional alike.params other.params
          have body := Stmt.Alike.uniques functional alike.body other.body
          have name := functional alike.name other.name
          have closure := places alike.closure other.closure
          have id := alike.id.symm.trans other.id
          cases f'
          cases f''
          simp_all

theorem eq (h : v.Alike (· = ·) (· = ·) v') : v = v' :=
  unique rightUnique_eq rightUnique_eq (refl (fun _ => rfl) (fun _ => rfl) v) h

theorem truthy (h : v.Alike R sees v') : v.truthy = v'.truthy := by
  cases h <;> rfl

theorem equals (first : u.Alike R sees u') (second : v.Alike R sees v') :
    u.equals v = u'.equals v' := by
  cases first <;> cases second <;> try rfl
  case function.function f f' alike g g' other =>
    rw [Value.equals, Value.equals, alike.id, other.id]

theorem arity? (h : v.Alike R sees v') : v.arity? = v'.arity? := by
  cases h with
  | function alike => exact congrArg some alike.params.length_eq
  | nil | bool | number | string | native => rfl

theorem literal (l : Literal) : l.toValue.Alike R sees l.toValue := by
  cases l with
  | nil => exact .nil
  | bool => exact .bool
  | number => exact .number
  | string => exact .string

end Value.Alike

theorem Stop.Alike.eq {stop stop' : Stop} (h : stop.Alike (· = ·) stop') : stop = stop' := by
  cases h with
  | exhausted | outOfFuel => rfl
  | error alike =>
      cases alike with
      | mk token => rw [token]

section
variable {u u' v v' : Value} {op op' : Token}

theorem Value.Alike.compare (test : Float → Float → Bool) (operator : R op op')
    (first : u.Alike R sees u') (second : v.Alike R sees v') :
    Results R sees (Value.compare op test u v) (Value.compare op' test u' v') := by
  cases first <;> cases second <;>
    first | exact .error (.mk operator) | exact .ok .bool

theorem Value.Alike.calculate (operation : Float → Float → Float) (operator : R op op')
    (first : u.Alike R sees u') (second : v.Alike R sees v') :
    Results R sees (Value.calculate op operation u v) (Value.calculate op' operation u' v') := by
  cases first <;> cases second <;>
    first | exact .error (.mk operator) | exact .ok .number

theorem Value.Alike.add (operator : R op op') (first : u.Alike R sees u')
    (second : v.Alike R sees v') : Results R sees (Value.add op u v) (Value.add op' u' v') := by
  cases first <;> cases second <;>
    first | exact .error (.mk operator) | exact .ok .number | exact .ok .string

variable (faithful : Token.Faithful R)
include faithful

theorem Value.Alike.text (h : v.Alike R sees v') : v.text = v'.text := by
  cases h with
  | function alike => rw [Value.text, Value.text, faithful.lexeme alike.name]
  | nil | bool | number | string | native => rfl

theorem Value.Alike.applyUnary (operator : R op op') (h : v.Alike R sees v') :
    Results R sees (Value.applyUnary op v) (Value.applyUnary op' v') := by
  unfold Value.applyUnary
  rw [← faithful.kind operator, ← h.truthy]
  cases op.kind <;> cases h <;>
    first | exact .error (.mk operator) | exact .ok .bool | exact .ok .number

theorem Value.Alike.applyBinary (operator : R op op') (first : u.Alike R sees u')
    (second : v.Alike R sees v') :
    Results R sees (Value.applyBinary op u v) (Value.applyBinary op' u' v') := by
  unfold Value.applyBinary
  rw [← faithful.kind operator, ← first.equals second]
  cases op.kind
  case plus => exact first.add operator second
  case minus | star | slash => exact first.calculate _ operator second
  case greater | greaterEqual | less | lessEqual => exact first.compare _ operator second
  case equalEqual | bangEqual => exact .ok .bool
  all_goals exact .error (.mk operator)

theorem Value.Alike.decides (operator : R op op') (h : v.Alike R sees v') :
    Value.decides op v = Value.decides op' v' := by
  unfold Value.decides
  rw [← faithful.kind operator, h.truthy]

end

theorem rel_or {α β : Type} {r : α → β → Prop} {o : Option α} {o' : Option β}
    (h : Option.Rel r o o') :
    (o = none ∧ o' = none) ∨ ∃ a b, o = some a ∧ o' = some b ∧ r a b := by
  cases h with
  | none => exact .inl ⟨rfl, rfl⟩
  | some related => exact .inr ⟨_, _, rfl, rfl, related⟩

variable (R) (sees) in
def Scope.Alike (s s' : Scope) : Prop :=
  List.Forall₂ (fun b b' => b.1 = b'.1 ∧ b.2.Alike R sees b'.2) s.bindings s'.bindings

namespace Scope.Alike

variable {s s' : Scope}

theorem mono {more : Nat → Nat → Prop} (le : ∀ s s', sees s s' → more s s')
    (h : s.Alike R sees s') : s.Alike R more s' :=
  List.Forall₂.imp (fun _ _ same => ⟨same.1, same.2.mono le⟩) h

theorem unique (functional : Relator.RightUnique R) (places : Relator.RightUnique sees) {a b : Scope}
    (first : s.Alike R sees a) (second : s.Alike R sees b) : a.bindings = b.bindings := by
  refine List.right_unique_forall₂' (fun x y z same same' => ?_) first second
  exact Prod.ext (same.1.symm.trans same'.1) (same.2.unique functional places same'.2)

theorem get? (h : s.Alike R sees s') (name : String) :
    Option.Rel (Value.Alike R sees) (s.get? name) (s'.get? name) := by
  obtain ⟨enclosing, bindings⟩ := s
  obtain ⟨enclosing', bindings'⟩ := s'
  change List.Forall₂ _ bindings bindings' at h
  change Option.Rel _ (bindings.lookup name) (bindings'.lookup name)
  induction h with
  | nil => exact .none
  | @cons b b' _ _ head tail ih =>
      rw [List.lookup_cons, List.lookup_cons, ← head.1]
      cases name == b.1 with
      | true => exact .some head.2
      | false => exact ih

theorem put (h : s.Alike R sees s') (name : String) {v v' : Value} (value : v.Alike R sees v') :
    (s.put name v).Alike R sees (s'.put name v') := by
  obtain ⟨enclosing, bindings⟩ := s
  obtain ⟨enclosing', bindings'⟩ := s'
  change List.Forall₂ _ bindings bindings' at h
  change List.Forall₂ _ (Scope.bind name v bindings) (Scope.bind name v' bindings')
  induction h with
  | nil => exact .cons ⟨rfl, value⟩ .nil
  | @cons b b' _ _ head tail ih =>
      rw [Scope.bind, Scope.bind, ← head.1]
      cases b.1 == name with
      | true => exact .cons ⟨rfl, value⟩ tail
      | false => exact .cons ⟨rfl, head.2⟩ ih

end Scope.Alike

end Lox
