import Lox.Proofs.Evaluation.Fixed

namespace Lox

variable {R : Token → Token → Prop} (g : Token → Token)

mutual

def Expr.tokens : Expr → List Token
  | .literal _ => []
  | .grouping inner => inner.tokens
  | .unary operator operand => operator :: operand.tokens
  | .binary left operator right => left.tokens ++ operator :: right.tokens
  | .logical left operator right => left.tokens ++ operator :: right.tokens
  | .variable name => [name]
  | .assign name value => name :: value.tokens
  | .call callee paren arguments => callee.tokens ++ paren :: Expr.allTokens arguments

def Expr.allTokens : List Expr → List Token
  | [] => []
  | e :: es => e.tokens ++ Expr.allTokens es

end

mutual

def Stmt.tokens : Stmt → List Token
  | .expression value => value.tokens
  | .print value => value.tokens
  | .varDecl name none => [name]
  | .varDecl name (some e) => name :: e.tokens
  | .block body => Stmt.allTokens body
  | .ifElse condition whenTrue none => condition.tokens ++ whenTrue.tokens
  | .ifElse condition whenTrue (some s) => condition.tokens ++ whenTrue.tokens ++ s.tokens
  | .whileLoop condition body => condition.tokens ++ body.tokens
  | .funDecl name params body => name :: params ++ Stmt.allTokens body
  | .returnStmt keyword none => [keyword]
  | .returnStmt keyword (some e) => keyword :: e.tokens

def Stmt.allTokens : List Stmt → List Token
  | [] => []
  | s :: body => s.tokens ++ Stmt.allTokens body

end

mutual

def Expr.mapTokens : Expr → Expr
  | .literal value => .literal value
  | .grouping inner => .grouping inner.mapTokens
  | .unary operator operand => .unary (g operator) operand.mapTokens
  | .binary left operator right => .binary left.mapTokens (g operator) right.mapTokens
  | .logical left operator right => .logical left.mapTokens (g operator) right.mapTokens
  | .variable name => .variable (g name)
  | .assign name value => .assign (g name) value.mapTokens
  | .call callee paren arguments =>
      .call callee.mapTokens (g paren) (Expr.mapAllTokens arguments)

def Expr.mapAllTokens : List Expr → List Expr
  | [] => []
  | e :: es => e.mapTokens :: Expr.mapAllTokens es

end

mutual

def Stmt.mapTokens : Stmt → Stmt
  | .expression value => .expression (value.mapTokens g)
  | .print value => .print (value.mapTokens g)
  | .varDecl name initializer => .varDecl (g name) (initializer.map (Expr.mapTokens g))
  | .block body => .block (Stmt.mapAllTokens body)
  | .ifElse condition whenTrue none => .ifElse (condition.mapTokens g) whenTrue.mapTokens none
  | .ifElse condition whenTrue (some s) =>
      .ifElse (condition.mapTokens g) whenTrue.mapTokens (some s.mapTokens)
  | .whileLoop condition body => .whileLoop (condition.mapTokens g) body.mapTokens
  | .funDecl name params body => .funDecl (g name) (params.map g) (Stmt.mapAllTokens body)
  | .returnStmt keyword value => .returnStmt (g keyword) (value.map (Expr.mapTokens g))

def Stmt.mapAllTokens : List Stmt → List Stmt
  | [] => []
  | s :: body => s.mapTokens :: Stmt.mapAllTokens body

end

theorem Expr.mapAllTokens_eq (es : List Expr) : mapAllTokens g es = es.map (mapTokens g) := by
  induction es with
  | nil => rfl
  | cons e es ih => simp [mapAllTokens, ih]

theorem Stmt.mapAllTokens_eq (body : List Stmt) :
    mapAllTokens g body = body.map (mapTokens g) := by
  induction body with
  | nil => rfl
  | cons s body ih => simp [mapAllTokens, ih]

mutual

theorem Expr.mapTokens_mapTokens (f : Token → Token) : (e : Expr) →
    (e.mapTokens f).mapTokens g = e.mapTokens (g ∘ f)
  | .literal _ => rfl
  | .grouping inner => by simp [mapTokens, inner.mapTokens_mapTokens f]
  | .unary _ operand => by simp [mapTokens, operand.mapTokens_mapTokens f]
  | .binary left _ right => by
      simp [mapTokens, left.mapTokens_mapTokens f, right.mapTokens_mapTokens f]
  | .logical left _ right => by
      simp [mapTokens, left.mapTokens_mapTokens f, right.mapTokens_mapTokens f]
  | .variable _ => rfl
  | .assign _ value => by simp [mapTokens, value.mapTokens_mapTokens f]
  | .call callee _ arguments => by
      simp [mapTokens, callee.mapTokens_mapTokens f, Expr.mapAllTokens_mapAllTokens f arguments]

theorem Expr.mapAllTokens_mapAllTokens (f : Token → Token) : (es : List Expr) →
    mapAllTokens g (mapAllTokens f es) = mapAllTokens (g ∘ f) es
  | [] => rfl
  | e :: es => by
      simp [mapAllTokens, e.mapTokens_mapTokens f, Expr.mapAllTokens_mapAllTokens f es]

end

mutual

theorem Stmt.mapTokens_mapTokens (f : Token → Token) : (s : Stmt) →
    (s.mapTokens f).mapTokens g = s.mapTokens (g ∘ f)
  | .expression value => by simp [mapTokens, Expr.mapTokens_mapTokens]
  | .print value => by simp [mapTokens, Expr.mapTokens_mapTokens]
  | .varDecl _ none => rfl
  | .varDecl _ (some e) => by simp [mapTokens, Expr.mapTokens_mapTokens]
  | .block body => by simp [mapTokens, Stmt.mapAllTokens_mapAllTokens f body]
  | .ifElse _ whenTrue none => by
      simp [mapTokens, Expr.mapTokens_mapTokens, whenTrue.mapTokens_mapTokens f]
  | .ifElse _ whenTrue (some s) => by
      simp [mapTokens, Expr.mapTokens_mapTokens, whenTrue.mapTokens_mapTokens f,
        s.mapTokens_mapTokens f]
  | .whileLoop _ body => by
      simp [mapTokens, Expr.mapTokens_mapTokens, body.mapTokens_mapTokens f]
  | .funDecl _ _ body => by simp [mapTokens, Stmt.mapAllTokens_mapAllTokens f body]
  | .returnStmt _ none => rfl
  | .returnStmt _ (some e) => by simp [mapTokens, Expr.mapTokens_mapTokens]

theorem Stmt.mapAllTokens_mapAllTokens (f : Token → Token) : (body : List Stmt) →
    mapAllTokens g (mapAllTokens f body) = mapAllTokens (g ∘ f) body
  | [] => rfl
  | s :: body => by
      simp [mapAllTokens, s.mapTokens_mapTokens f, Stmt.mapAllTokens_mapAllTokens f body]

end

section
variable {g}

mutual

theorem Expr.alike_mapTokens : (e : Expr) → (∀ t ∈ e.tokens, R t (g t)) →
    e.Alike R (e.mapTokens g)
  | .literal _, _ => .literal
  | .grouping inner, h => .grouping (inner.alike_mapTokens h)
  | .unary operator operand, h => by
      obtain ⟨first, others⟩ := List.forall_mem_cons.mp h
      exact .unary first (operand.alike_mapTokens others)
  | .binary left operator right, h => by
      obtain ⟨first, h⟩ := List.forall_mem_append.mp h
      obtain ⟨mark, second⟩ := List.forall_mem_cons.mp h
      exact .binary (left.alike_mapTokens first) mark (right.alike_mapTokens second)
  | .logical left operator right, h => by
      obtain ⟨first, h⟩ := List.forall_mem_append.mp h
      obtain ⟨mark, second⟩ := List.forall_mem_cons.mp h
      exact .logical (left.alike_mapTokens first) mark (right.alike_mapTokens second)
  | .variable name, h => .name (h name (List.mem_singleton_self name))
  | .assign name value, h => by
      obtain ⟨first, others⟩ := List.forall_mem_cons.mp h
      exact .assign first (value.alike_mapTokens others)
  | .call callee paren arguments, h => by
      obtain ⟨first, h⟩ := List.forall_mem_append.mp h
      obtain ⟨mark, others⟩ := List.forall_mem_cons.mp h
      exact .call (callee.alike_mapTokens first) mark (Expr.alike_mapAllTokens arguments others)

theorem Expr.alike_mapAllTokens : (es : List Expr) → (∀ t ∈ Expr.allTokens es, R t (g t)) →
    List.Forall₂ (Alike R) es (mapAllTokens g es)
  | [], _ => .nil
  | e :: es, h => by
      obtain ⟨first, others⟩ := List.forall_mem_append.mp h
      exact .cons (e.alike_mapTokens first) (Expr.alike_mapAllTokens es others)

end

mutual

theorem Stmt.alike_mapTokens : (s : Stmt) → (∀ t ∈ s.tokens, R t (g t)) →
    s.Alike R (s.mapTokens g)
  | .expression value, h => .expression (value.alike_mapTokens h)
  | .print value, h => .print (value.alike_mapTokens h)
  | .varDecl name none, h => .varDecl (h name (List.mem_singleton_self name)) .none
  | .varDecl name (some e), h => by
      obtain ⟨first, others⟩ := List.forall_mem_cons.mp h
      exact .varDecl first (.some (e.alike_mapTokens others))
  | .block body, h => .block (Stmt.alike_mapAllTokens body h)
  | .ifElse condition whenTrue none, h => by
      obtain ⟨first, second⟩ := List.forall_mem_append.mp h
      exact .ifElse (condition.alike_mapTokens first) (whenTrue.alike_mapTokens second) .none
  | .ifElse condition whenTrue (some s), h => by
      obtain ⟨h, third⟩ := List.forall_mem_append.mp h
      obtain ⟨first, second⟩ := List.forall_mem_append.mp h
      exact .ifElse (condition.alike_mapTokens first) (whenTrue.alike_mapTokens second)
        (.some (s.alike_mapTokens third))
  | .whileLoop condition body, h => by
      obtain ⟨first, second⟩ := List.forall_mem_append.mp h
      exact .whileLoop (condition.alike_mapTokens first) (body.alike_mapTokens second)
  | .funDecl name params body, h => by
      obtain ⟨h, inside⟩ := List.forall_mem_append.mp h
      obtain ⟨first, names⟩ := List.forall_mem_cons.mp h
      have renamed : List.Forall₂ R params (params.map g) :=
        List.forall₂_map_right_iff.mpr (List.forall₂_same.mpr names)
      exact .funDecl first renamed (Stmt.alike_mapAllTokens body inside)
  | .returnStmt keyword none, h => .returnStmt (h keyword (List.mem_singleton_self keyword)) .none
  | .returnStmt keyword (some e), h => by
      obtain ⟨first, others⟩ := List.forall_mem_cons.mp h
      exact .returnStmt first (.some (e.alike_mapTokens others))

theorem Stmt.alike_mapAllTokens : (body : List Stmt) →
    (∀ t ∈ Stmt.allTokens body, R t (g t)) → List.Forall₂ (Alike R) body (mapAllTokens g body)
  | [], _ => .nil
  | s :: body, h => by
      obtain ⟨first, others⟩ := List.forall_mem_append.mp h
      exact .cons (s.alike_mapTokens first) (Stmt.alike_mapAllTokens body others)

end

end

def Function.tokens (f : Function) : List Token := f.name :: f.params ++ Stmt.allTokens f.body

def Function.mapTokens (f : Function) : Function :=
  { f with name := g f.name, params := f.params.map g, body := Stmt.mapAllTokens g f.body }

def Value.tokens : Value → List Token
  | .function f => f.tokens
  | _ => []

def Value.mapTokens : Value → Value
  | .function f => .function (f.mapTokens g)
  | value => value

def Scope.tokens (s : Scope) : List Token := s.bindings.flatMap fun b => b.2.tokens

def Scope.mapTokens (s : Scope) : Scope :=
  { s with bindings := s.bindings.map fun b => (b.1, b.2.mapTokens g) }

def Store.tokens (σ : Store) : List Token := σ.scopes.toList.flatMap Scope.tokens

def Store.mapTokens (σ : Store) : Store := { scopes := σ.scopes.map (Scope.mapTokens g) }

section
variable {g} {sees : Nat → Nat → Prop}

theorem Value.alike_mapTokens (same : ∀ s, sees s s) (v : Value)
    (h : ∀ t ∈ v.tokens, R t (g t)) : v.Alike R sees (v.mapTokens g) := by
  cases v with
  | nil => exact .nil
  | bool => exact .bool
  | number => exact .number
  | string => exact .string
  | native => exact .native
  | function f =>
      obtain ⟨h, inside⟩ := List.forall_mem_append.mp h
      obtain ⟨first, names⟩ := List.forall_mem_cons.mp h
      have renamed : List.Forall₂ R f.params (f.params.map g) :=
        List.forall₂_map_right_iff.mpr (List.forall₂_same.mpr names)
      exact .function ⟨rfl, first, renamed, Stmt.alike_mapAllTokens f.body inside, same _⟩

theorem Scope.alike_mapTokens (same : ∀ s, sees s s) (s : Scope)
    (h : ∀ t ∈ s.tokens, R t (g t)) : s.Alike R sees (s.mapTokens g) := by
  apply List.forall₂_map_right_iff.mpr
  apply List.forall₂_same.mpr
  intro b member
  refine ⟨rfl, b.2.alike_mapTokens same fun t inside => ?_⟩
  exact h t (List.mem_flatMap.mpr ⟨b, member, inside⟩)

theorem Store.alike_mapTokens (σ : Store) (h : ∀ t ∈ σ.tokens, R t (g t)) :
    σ.Alike R (σ.mapTokens g) := by
  refine ⟨by simp [mapTokens, size], fun i => ?_⟩
  have found : (σ.mapTokens g).scopes[i]? = σ.scopes[i]?.map (Scope.mapTokens g) := by
    simp [mapTokens]
  rw [found]
  cases here : σ.scopes[i]? with
  | none => exact .none
  | some s =>
      have member : s ∈ σ.scopes.toList := Array.mem_toList_iff.mpr (Array.mem_of_getElem? here)
      refine .some ⟨rfl, s.alike_mapTokens (fun _ => rfl) fun t inside => ?_⟩
      exact h t (List.mem_flatMap.mpr ⟨s, member, inside⟩)

theorem Stmt.mapTokens_eq_self {s : Stmt} (h : ∀ t ∈ s.tokens, g t = t) : s.mapTokens g = s :=
  Stmt.Alike.unique rightUnique_eq (s.alike_mapTokens fun t member => (h t member).symm)
    (.refl (fun _ => rfl) s)

theorem Store.mapTokens_eq_self {σ : Store} (h : ∀ t ∈ σ.tokens, g t = t) : σ.mapTokens g = σ :=
  (σ.alike_mapTokens fun t member => (h t member).symm).eq.symm

end

def Machine.mapTokens (m : Machine) : Machine := { m with store := m.store.mapTokens g }

def RuntimeError.mapTokens (e : RuntimeError) : RuntimeError := { e with token := g e.token }

def Stop.mapTokens : Stop → Stop
  | .error e => .error (e.mapTokens g)
  | .exhausted => .exhausted
  | .outOfFuel => .outOfFuel

def Eval.mapTokens : EStateM.Result Stop Machine Unit → EStateM.Result Stop Machine Unit
  | .ok () m => .ok () (m.mapTokens g)
  | .error stop m => .error (stop.mapTokens g) (m.mapTokens g)

variable {g}

theorem Worlds.Machines.mapTokens_eq {w : Unit} {m m' : Machine}
    (h : (fixed fun t t' => g t = t').Machines w m m') : m' = m.mapTokens g := by
  obtain ⟨stores, declared, calls, depth, output⟩ := h
  have functional : Relator.RightUnique fun t t' => g t = t' := by
    intro a b c first second
    exact first.symm.trans second
  have store : m.store.mapTokens g = m'.store :=
    (m.store.alike_mapTokens fun _ _ => rfl).unique functional stores
  cases m
  cases m'
  simp_all [Machine.mapTokens]

theorem Stop.Alike.mapTokens_eq {stop stop' : Stop}
    (h : stop.Alike (fun t t' => g t = t') stop') : stop' = stop.mapTokens g := by
  cases h with
  | exhausted | outOfFuel => rfl
  | error alike =>
      cases alike with
      | mk token => rw [← token]; rfl

theorem Eval.program_mapTokens (kind : ∀ t, (g t).kind = t.kind)
    (lexeme : ∀ t, (g t).lexeme = t.lexeme) {c : Context} {tokens : Token → Prop}
    {scopes : Nat → Prop} (blind : c.Blind tokens scopes) (own : ∀ t, tokens t → g t = t)
    (fuel : Nat) (statements : List Stmt) (m : Machine) :
    Eval.program c fuel (statements.map (Stmt.mapTokens g)) (m.mapTokens g) =
      Eval.mapTokens g (Eval.program c fuel statements m) := by
  have faithful : Token.Faithful fun t t' => g t = t' := by
    constructor
    · rintro t _ rfl
      exact (kind t).symm
    · rintro t _ rfl
      exact (lexeme t).symm
  have alike : List.Forall₂ (Stmt.Alike fun t t' => g t = t') statements
      (statements.map (Stmt.mapTokens g)) := by
    rw [← Stmt.mapAllTokens_eq]
    exact Stmt.alike_mapAllTokens statements fun _ _ => rfl
  have start : (Worlds.fixed fun t t' => g t = t').Machines () m (m.mapTokens g) :=
    ⟨m.store.alike_mapTokens fun _ _ => rfl, rfl, rfl, rfl, rfl⟩
  have contexts : (Worlds.fixed fun t t' => g t = t').Contexts (fun _ => False) c c :=
    .of_blind faithful rfl blind own (fun _ _ _ => rfl) (.inl rfl) id
  have simulates : (Worlds.fixed fun t t' => g t = t').Simulates (fun _ => False) ()
      (fun _ _ _ => True) (Eval.program c fuel statements)
      (Eval.program c fuel (statements.map (Stmt.mapTokens g))) :=
    Worlds.program_simulates faithful contexts (.inl rfl) rfl alike
  have follows := simulates () m (m.mapTokens g) le_rfl start
  cases run : Eval.program c fuel statements m with
  | ok u m' =>
      rw [run] at follows
      obtain ⟨u', m'', w, run', -, -, machines⟩ := follows
      rw [run', machines.mapTokens_eq]
      rfl
  | error stop m' =>
      rw [run] at follows
      rcases follows with ⟨stop', m'', w, run', -, alike, machines⟩ | ⟨short, -⟩
      · rw [run', machines.mapTokens_eq, alike.mapTokens_eq]
        rfl
      · exact short.elim

end Lox
