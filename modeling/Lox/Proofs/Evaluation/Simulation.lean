import Lox.Proofs.Evaluation.Host
import Lox.Proofs.Evaluation.Later

/-!
Two runs side by side.

The trees of the two runs differ only in their tokens, the scopes of their stores correspond in
some way that grows as scopes are opened, and the second run has at least the fuel and the call
limit of the first. `Worlds` collects what such a correspondence has to keep, and `run_simulates`
shows that the two runs then go the same way for as long as the first one is not cut short.
-/

namespace Lox

variable {R : Token → Token → Prop} {ω : Type} [Preorder ω] {α β γ δ : Type}

/-- Ways in which the scopes of two stores correspond. From scopes that see one another names mean
corresponding variables; scopes that are the same can be defined in as well. -/
structure Worlds (R : Token → Token → Prop) (ω : Type) [Preorder ω] where
  sees : ω → Nat → Nat → Prop
  same : ω → Nat → Nat → Prop
  stores : ω → Store → Store → Prop
  sees_mono {v w : ω} {s s' : Nat} : v ≤ w → sees v s s' → sees w s s'
  same_mono {v w : ω} {s s' : Nat} : v ≤ w → same v s s' → same w s s'
  sees_of_same {w : ω} {s s' : Nat} : same w s s' → sees w s s'
  resolve {w : ω} {σ σ' : Store} {s s' : Nat} (name : String) : stores w σ σ' → sees w s s' →
    Option.Rel (fun x x' => same w x.1 x'.1 ∧ x.2.Alike R (sees w) x'.2)
      (σ.resolve? s name) (σ'.resolve? s' name)
  define {w : ω} {σ σ' : Store} {s s' : Nat} (name : String) {v v' : Value} : stores w σ σ' →
    same w s s' → v.Alike R (sees w) v' → stores w (σ.define s name v) (σ'.define s' name v')
  push {w : ω} {σ σ' : Store} {s s' : Nat} : stores w σ σ' → sees w s s' →
    ∃ w', w ≤ w' ∧ stores w' (σ.push (some s)) (σ'.push (some s')) ∧ same w' σ.size σ'.size

namespace Worlds

variable (W : Worlds R ω) (cut : Stop → Prop)

def values (w : ω) : Value → Value → Prop := Value.Alike R (W.sees w)

def completions (w : ω) : Completion → Completion → Prop := Completion.Alike R (W.sees w)

structure Machines (w : ω) (m m' : Machine) : Prop where
  stores : W.stores w m.store m'.store
  declared : m.declared = m'.declared
  calls : m.calls = m'.calls
  depth : m.depth = m'.depth
  output : m.output = m'.output

/-- The second result answers to the first: it is the same up to the correspondence, or else the
first run was cut short and printed no more than the second. -/
def Follows (w : ω) (rel : ω → α → β → Prop) :
    EStateM.Result Stop Machine α → EStateM.Result Stop Machine β → Prop
  | .ok a m, y => ∃ b m' w', y = .ok b m' ∧ w ≤ w' ∧ rel w' a b ∧ W.Machines w' m m'
  | .error stop m, y =>
      (∃ stop' m' w', y = .error stop' m' ∧ w ≤ w' ∧ stop.Alike R stop' ∧ W.Machines w' m m') ∨
        cut stop ∧ m.output.toList <+: (final y).output.toList

def Simulates (w : ω) (rel : ω → α → β → Prop) (x : Eval α) (y : Eval β) : Prop :=
  ∀ v m m', w ≤ v → W.Machines v m m' → W.Follows cut v rel (x m) (y m')

def Limits (cut : Stop → Prop) (c c' : Context) : Prop :=
  c.limit = c'.limit ∨ c.limit ≤ c'.limit ∧ ∀ t, cut (.error ⟨.stackOverflow, t⟩)

/-- Contexts of two runs that can go the same way: their built-in functions do the same with
corresponding values. -/
structure Contexts (c c' : Context) : Prop where
  natives {w : ω} {σ σ' : Store} : W.stores w σ σ' → ∀ f calls as as',
    List.Forall₂ (W.values w) as as' → (c.act f calls as).Alike R (W.sees w) (c'.act f calls as')
  limits : Limits cut c c'
  whole : ¬ cut .exhausted

variable {W} {cut} {v w : ω}

theorem values_mono (le : v ≤ w) {a b : Value} (h : W.values v a b) : W.values w a b :=
  h.mono fun _ _ => W.sees_mono le

theorem Contexts.of_blind {c c' : Context} {tokens : Token → Prop} {scopes : Nat → Prop}
    (faithful : Token.Faithful R) (host : c.toHost = c'.toHost) (blind : c.Blind tokens scopes)
    (own : ∀ t, tokens t → R t t)
    (there : ∀ {w σ σ'}, W.stores w σ σ' → ∀ s, scopes s → W.sees w s s) (limits : Limits cut c c')
    (whole : ¬ cut .exhausted) : W.Contexts cut c c' where
  natives stores f calls as as' arguments := by
    rw [← host]
    exact blind R _ faithful own (there stores) f calls as as' arguments
  limits := limits
  whole := whole

theorem Contexts.of_gives {W : Worlds (· = ·) ω} {c : Context} {own : Function → Prop}
    (gives : c.Gives own) (diagonal : ∀ {w v v'}, W.values w v v' → v = v')
    (there : ∀ {w σ σ'}, W.stores w σ σ' → ∀ g, own g → W.sees w g.closure g.closure)
    (whole : ¬ cut .exhausted) : W.Contexts cut c c where
  natives {w σ σ'} stores f calls as as' arguments := by
    obtain rfl : as = as' := List.forall₂_eq_eq_eq ▸ arguments.imp fun _ _ => diagonal
    exact gives.alike (fun _ => rfl) (there stores) f calls (List.forall₂_same.mp arguments)
  limits := .inl rfl
  whole := whole

theorem Follows.weaken {rel : ω → α → β → Prop} {x : EStateM.Result Stop Machine α}
    {y : EStateM.Result Stop Machine β} (le : v ≤ w) (h : W.Follows cut w rel x y) :
    W.Follows cut v rel x y := by
  cases x with
  | ok a m =>
      obtain ⟨b, m', u, run, le', alike, machines⟩ := h
      exact ⟨b, m', u, run, le_trans le le', alike, machines⟩
  | error stop m =>
      rcases h with ⟨stop', m', u, run, le', alike, machines⟩ | short
      · exact .inl ⟨stop', m', u, run, le_trans le le', alike, machines⟩
      · exact .inr short

namespace Simulates

variable {rel : ω → α → β → Prop} {x : Eval α} {y : Eval β}

theorem pure {a : α} {b : β} (h : ∀ v, w ≤ v → rel v a b) :
    W.Simulates cut w rel (Pure.pure a) (Pure.pure b) :=
  fun v _ m' le machines => ⟨b, m', v, rfl, le_rfl, h v le, machines⟩

theorem throw {stop stop' : Stop} (h : stop.Alike R stop') :
    W.Simulates cut w rel (MonadExcept.throw stop) (MonadExcept.throw stop') :=
  fun v _ m' _ machines => .inl ⟨stop', m', v, rfl, le_rfl, h, machines⟩

theorem cut_throw {stop : Stop} (short : cut stop) (lasts : y.Lasts) :
    W.Simulates cut w rel (MonadExcept.throw stop) y := by
  intro v m m' _ machines
  refine .inr ⟨short, ?_⟩
  rw [machines.output]
  exact (lasts m').output

theorem bind {rel' : ω → γ → δ → Prop} {f : α → Eval γ} {g : β → Eval δ}
    (first : W.Simulates cut w rel x y)
    (next : ∀ v a b, w ≤ v → rel v a b → W.Simulates cut v rel' (f a) (g b))
    (lasts : ∀ b, (g b).Lasts) : W.Simulates cut w rel' (x >>= f) (y >>= g) := by
  intro v m m' le machines
  have start := first v m m' le machines
  simp only [Bind.bind, EStateM.bind]
  cases run : x m with
  | ok a m₁ =>
      rw [run] at start
      obtain ⟨b, m₁', w₁, run', le₁, alike, machines₁⟩ := start
      rw [run']
      exact (next w₁ a b (le_trans le le₁) alike w₁ m₁ m₁' le_rfl machines₁).weaken le₁
  | error stop m₁ =>
      rw [run] at start
      rcases start with ⟨stop', m₁', w₁, run', le₁, alike, machines₁⟩ | ⟨short, output⟩
      · rw [run']
        exact .inl ⟨stop', m₁', w₁, rfl, le₁, alike, machines₁⟩
      · refine .inr ⟨short, output.trans ?_⟩
        cases run' : y m' with
        | ok b m₁' => exact (lasts b m₁').output
        | error stop' m₁' => exact List.prefix_refl _

theorem map {rel' : ω → γ → δ → Prop} {f : α → γ} {g : β → δ} (h : W.Simulates cut w rel x y)
    (alike : ∀ v a b, rel v a b → rel' v (f a) (g b))
    (stays : ∀ {u v a b}, u ≤ v → rel u a b → rel v a b) :
    W.Simulates cut w rel' (f <$> x) (g <$> y) := by
  rw [map_eq_pure_bind, map_eq_pure_bind]
  exact h.bind (fun v a b _ related => pure fun u le => alike u a b (stays le related))
    fun _ => .pure _

theorem discard (h : W.Simulates cut w rel x y) :
    W.Simulates cut w (fun _ _ _ => True) (Functor.discard x) (Functor.discard y) := by
  intro v m m' le machines
  have related := h v m m' le machines
  cases run : x m with
  | ok a m₁ =>
      rw [run] at related
      obtain ⟨b, m₁', w₁, run', le₁, -, machines₁⟩ := related
      rw [discard_eq run, discard_eq run']
      exact ⟨(), m₁', w₁, rfl, le₁, trivial, machines₁⟩
  | error stop m₁ =>
      rw [run] at related
      rw [discard_error.mpr run]
      rcases related with ⟨stop', m₁', w₁, run', le₁, alike, machines₁⟩ | ⟨short, output⟩
      · rw [discard_error.mpr run']
        exact .inl ⟨stop', m₁', w₁, rfl, le₁, alike, machines₁⟩
      · refine .inr ⟨short, output.trans ?_⟩
        cases run' : y m' with
        | ok b m₁' => exact discard_eq run' ▸ List.prefix_refl _
        | error stop' m₁' => exact discard_error.mpr run' ▸ List.prefix_refl _

theorem normally (h : W.Simulates cut w rel x y) :
    W.Simulates cut w W.completions (do let _ ← x; return .normal)
      (do let _ ← y; return .normal) := by
  apply h.bind
  · intro _ _ _ _ _
    exact pure fun _ _ => .normal
  · intro _
    exact .pure _

theorem fail {cause : RuntimeError.Cause} {t t' : Token} (token : R t t') :
    W.Simulates cut w rel (Eval.fail cause t) (Eval.fail cause t') :=
  throw (.error (.mk token))

theorem ofExcept {r r' : Except RuntimeError Value} (h : Value.Results R (W.sees w) r r') :
    W.Simulates cut w W.values (Eval.ofExcept r) (Eval.ofExcept r') := by
  cases h with
  | ok value => exact pure fun v le => values_mono le value
  | error alike => exact throw (.error alike)

theorem of_ok {f g : Machine → Machine} {a : Machine → α} {b : Machine → β}
    (x_eq : ∀ m, x m = .ok (a m) (f m)) (y_eq : ∀ m, y m = .ok (b m) (g m))
    (h : ∀ v m m', w ≤ v → W.Machines v m m' →
      ∃ w', v ≤ w' ∧ rel w' (a m) (b m') ∧ W.Machines w' (f m) (g m')) :
    W.Simulates cut w rel x y := by
  intro v m m' le machines
  rw [x_eq, y_eq]
  obtain ⟨w', le', related, machines'⟩ := h v m m' le machines
  exact ⟨b m', g m', w', rfl, le', related, machines'⟩

theorem printLine (line : String) :
    W.Simulates cut w (fun _ _ _ => True) (Eval.printLine line) (Eval.printLine line) :=
  of_ok (fun _ => rfl) (fun _ => rfl) fun v _ _ _ machines =>
    ⟨v, le_rfl, trivial, machines.stores, machines.declared, machines.calls, machines.depth,
      congrArg (·.push line) machines.output⟩

theorem openScope {s s' : Nat} (sees : W.sees w s s') :
    W.Simulates cut w W.same (Eval.openScope s) (Eval.openScope s') :=
  of_ok (fun _ => rfl) (fun _ => rfl) fun v m m' le machines => by
    obtain ⟨w', le', stores, same⟩ := W.push machines.stores (W.sees_mono le sees)
    exact ⟨w', le', same, stores, machines.declared, machines.calls, machines.depth,
      machines.output⟩

theorem define {s s' : Nat} (name : String) {a a' : Value} (same : W.same w s s')
    (value : W.values w a a') :
    W.Simulates cut w (fun _ _ _ => True) (Eval.define s name a) (Eval.define s' name a') :=
  of_ok (fun _ => rfl) (fun _ => rfl) fun v _ _ le machines =>
    ⟨v, le_rfl, trivial,
      W.define name machines.stores (W.same_mono le same) (values_mono le value),
      machines.declared, machines.calls, machines.depth, machines.output⟩

theorem lookup (faithful : Token.Faithful R) {s s' : Nat} {t t' : Token} (sees : W.sees w s s')
    (token : R t t') : W.Simulates cut w W.values (Eval.lookup s t) (Eval.lookup s' t') := by
  intro v m m' le machines
  rw [Eval.lookup_eq, Eval.lookup_eq, ← faithful.lexeme token]
  rcases rel_or (W.resolve t.lexeme machines.stores (W.sees_mono le sees)) with
    ⟨absent, absent'⟩ | ⟨x, x', found, found', -, value⟩
  · rw [absent, absent']
    exact .inl ⟨_, m', v, rfl, le_rfl, .error (.mk token), machines⟩
  · rw [found, found']
    exact ⟨_, m', v, rfl, le_rfl, value, machines⟩

theorem assign (faithful : Token.Faithful R) {s s' : Nat} {t t' : Token} {a a' : Value}
    (sees : W.sees w s s') (token : R t t') (value : W.values w a a') :
    W.Simulates cut w (fun _ _ _ => True) (Eval.assign s t a) (Eval.assign s' t' a') := by
  intro v m m' le machines
  rw [Eval.assign_eq, Eval.assign_eq, ← faithful.lexeme token]
  rcases rel_or (W.resolve t.lexeme machines.stores (W.sees_mono le sees)) with
    ⟨absent, absent'⟩ | ⟨x, x', found, found', same, -⟩
  · rw [absent, absent']
    exact .inl ⟨_, m', v, rfl, le_rfl, .error (.mk token), machines⟩
  · rw [found, found']
    exact ⟨(), _, v, rfl, le_rfl, trivial,
      W.define t.lexeme machines.stores same (values_mono le value), machines.declared,
      machines.calls, machines.depth, machines.output⟩

theorem declare (faithful : Token.Faithful R) {s s' : Nat} {t t' : Token} {ps ps' : List Token}
    {body body' : List Stmt} (same : W.same w s s') (name : R t t')
    (params : List.Forall₂ R ps ps') (inside : List.Forall₂ (Stmt.Alike R) body body') :
    W.Simulates cut w (fun _ _ _ => True) (Eval.declare s t ps body)
      (Eval.declare s' t' ps' body') := by
  refine of_ok (fun _ => rfl) (fun _ => rfl) fun v m m' le machines =>
    ⟨v, le_rfl, trivial, ?_, congrArg (· + 1) machines.declared, machines.calls,
      machines.depth, machines.output⟩
  have function : W.values v (.function ⟨.declared m.declared, t, ps, body, s⟩)
      (.function ⟨.declared m'.declared, t', ps', body', s'⟩) :=
    .function ⟨congrArg FunctionId.declared machines.declared, name, params, inside,
      W.sees_mono le (W.sees_of_same same)⟩
  exact faithful.lexeme name ▸ W.define t.lexeme machines.stores (W.same_mono le same) function

theorem active (h : W.Simulates cut w rel x y) :
    W.Simulates cut w rel (Eval.active x) (Eval.active y) := by
  intro v m m' le machines
  have inside := h v { m with depth := m.depth + 1 } { m' with depth := m'.depth + 1 } le
    ⟨machines.stores, machines.declared, machines.calls, congrArg (· + 1) machines.depth,
      machines.output⟩
  have leave : ∀ {u m m'}, W.Machines u m m' →
      W.Machines u { m with depth := m.depth - 1 } { m' with depth := m'.depth - 1 } :=
    fun machines => ⟨machines.stores, machines.declared, machines.calls,
      congrArg (· - 1) machines.depth, machines.output⟩
  simp only [Eval.active]
  cases run : x { m with depth := m.depth + 1 } with
  | ok a m₁ =>
      rw [run] at inside
      obtain ⟨b, m₁', w', run', le', related, machines'⟩ := inside
      rw [run']
      exact ⟨b, _, w', rfl, le', related, leave machines'⟩
  | error stop m₁ =>
      rw [run] at inside
      rcases inside with ⟨stop', m₁', w', run', le', alike, machines'⟩ | ⟨short, output⟩
      · rw [run']
        exact .inl ⟨stop', _, w', rfl, le', alike, leave machines'⟩
      · refine .inr ⟨short, ?_⟩
        cases run' : y { m' with depth := m'.depth + 1 } with
        | ok b m₁' | error stop' m₁' =>
            rw [run'] at output
            exact output

theorem guarded {t t' : Token} (paren : R t t') (whole : ¬ cut .exhausted)
    (h : W.Simulates cut w rel x y) :
    W.Simulates cut w rel (Eval.guarded t x) (Eval.guarded t' y) := by
  intro v m m' le machines
  have inside := h v m m' le machines
  rw [Eval.guarded_eq, Eval.guarded_eq]
  cases run : x m with
  | ok a m₁ =>
      rw [run] at inside
      obtain ⟨b, m₁', w', run', le', related, machines'⟩ := inside
      rw [run']
      exact ⟨b, _, w', rfl, le', related, machines'⟩
  | error stop m₁ =>
      rw [run] at inside
      rcases inside with ⟨stop', m₁', w', run', le', alike, machines'⟩ | ⟨short, output⟩
      · rw [run']
        cases alike with
        | exhausted => exact .inl ⟨_, m₁', w', rfl, le', .error (.mk paren), machines'⟩
        | error alike => exact .inl ⟨_, m₁', w', rfl, le', .error alike, machines'⟩
        | outOfFuel => exact .inl ⟨_, m₁', w', rfl, le', .outOfFuel, machines'⟩
      · -- The first run is cut short inside of the call, so it goes on to end as it did there.
        have ends : W.Follows cut v rel (.error stop m₁) (Eval.guarded t' y m') := by
          refine .inr ⟨short, output.trans ?_⟩
          rw [Eval.guarded_eq]
          cases y m' with
          | ok b m₁' => exact List.prefix_refl _
          | error stop' m₁' => cases stop' <;> exact List.prefix_refl _
        rw [Eval.guarded_eq] at ends
        cases stop with
        | exhausted => exact absurd short whole
        | error | outOfFuel => exact ends

/-! ## Lists of steps -/

theorem mapM {items : List α} {items' : List β} {f : α → Eval Value} {g : β → Eval Value}
    {alike : α → β → Prop} (related : List.Forall₂ alike items items')
    (each : ∀ v a b, w ≤ v → alike a b → W.Simulates cut v W.values (f a) (g b))
    (lasts : ∀ b, (g b).Lasts) :
    W.Simulates cut w (fun v => List.Forall₂ (W.values v)) (items.mapM f) (items'.mapM g) := by
  induction related generalizing w with
  | nil => exact pure fun _ _ => .nil
  | cons head tail ih =>
      rw [List.mapM_cons, List.mapM_cons]
      apply (each w _ _ le_rfl head).bind
      · intro v a b le value
        have others := ih fun u a b le' => each u a b (le_trans le le')
        apply others.bind
        · intro u as bs le' values
          exact pure fun u' le'' => .cons (values_mono (le_trans le' le'') value)
            (values.imp fun _ _ => values_mono le'')
        · intro _
          exact .pure _
      · intro b
        exact (Eval.Lasts.mapM lasts).bind fun _ => .pure _

theorem andThen {x x' y y' : Eval Completion} (first : W.Simulates cut w W.completions x x')
    (next : ∀ v, w ≤ v → W.Simulates cut v W.completions y y') (lasts : y'.Lasts) :
    W.Simulates cut w W.completions
      (do
        match ← x with
        | .normal => y
        | .returning value => return .returning value)
      (do
        match ← x' with
        | .normal => y'
        | .returning value => return .returning value) := by
  apply first.bind
  · intro v a b le completion
    cases completion with
    | normal => exact next v le
    | returning value => exact pure fun u le' => .returning (values_mono le' value)
  · intro completion
    cases completion with
    | normal => exact lasts
    | returning value => exact .pure _

theorem sequence {body body' : List Stmt} {f g : Stmt → Eval Completion}
    (inside : List.Forall₂ (Stmt.Alike R) body body')
    (each : ∀ v s s', w ≤ v → s.Alike R s' → W.Simulates cut v W.completions (f s) (g s'))
    (lasts : ∀ s, (g s).Lasts) :
    W.Simulates cut w W.completions (Eval.sequence f body) (Eval.sequence g body') := by
  induction inside generalizing w with
  | nil => exact pure fun _ _ => .normal
  | cons head tail ih =>
      apply (each w _ _ le_rfl head).andThen
      · intro v le
        exact ih fun u s s' le' => each u s s' (le_trans le le')
      · exact .sequence lasts _

theorem parameters (faithful : Token.Faithful R) {s s' : Nat} {ps ps' : List Token}
    {as as' : List Value} (same : W.same w s s') (params : List.Forall₂ R ps ps')
    (arguments : List.Forall₂ (W.values w) as as') :
    W.Simulates cut w (fun _ _ _ => True)
      ((ps.zip as).forM fun (p, a) => Eval.define s p.lexeme a)
      ((ps'.zip as').forM fun (p, a) => Eval.define s' p.lexeme a) := by
  induction params generalizing w as as' with
  | nil => exact pure fun _ _ => trivial
  | @cons p p' _ _ name _ ih =>
      cases arguments with
      | nil => exact pure fun _ _ => trivial
      | @cons a a' _ _ value others =>
          have first : W.Simulates cut w (fun _ _ _ => True) (Eval.define s p.lexeme a)
              (Eval.define s' p'.lexeme a') := by
            rw [← faithful.lexeme name]
            exact define p.lexeme same value
          apply first.bind
          · intro v _ _ le _
            exact ih (W.same_mono le same) (others.imp fun _ _ => values_mono le)
          · intro _
            exact .forM fun _ => .define _ _ _

/-! ## Calls -/

variable {run run' : List Stmt → Nat → Eval Completion}

theorem applyFunction (faithful : Token.Faithful R) {f f' : Function} {as as' : List Value}
    (bodies : ∀ v body body' s s', w ≤ v → List.Forall₂ (Stmt.Alike R) body body' →
      W.same v s s' → W.Simulates cut v W.completions (run body s) (run' body' s'))
    (lasts : ∀ body s, (run' body s).Lasts) (alike : f.Alike R (W.sees w) f')
    (arguments : List.Forall₂ (W.values w) as as') :
    W.Simulates cut w W.values (Eval.applyFunction run f as)
      (Eval.applyFunction run' f' as') := by
  have ends : ∀ completion : Completion, Eval.Lasts (match completion with
      | .normal => return .nil
      | .returning value => return value : Eval Value) := by
    intro completion
    cases completion with
    | normal => exact .pure _
    | returning value => exact .pure _
  apply (openScope alike.closure).bind
  · intro v s s' le same
    have values : List.Forall₂ (W.values v) as as' := arguments.imp fun _ _ => values_mono le
    apply (parameters faithful same alike.params values).bind
    · intro u _ _ le' _
      apply (bodies u _ _ s s' (le_trans le le') alike.body (W.same_mono le' same)).bind
      · intro u' a b le'' completion
        cases completion with
        | normal => exact pure fun _ _ => .nil
        | returning value => exact pure fun _ le₃ => values_mono le₃ value
      · exact ends
    · intro _
      exact (lasts _ _).bind ends
  · intro _
    exact (Eval.Lasts.forM fun _ => .define _ _ _).bind fun _ => (lasts _ _).bind ends

variable {c c' : Context} {callee callee' : Value} {paren paren' : Token} {as as' : List Value}

theorem consult (contexts : W.Contexts cut c c') (f : Native)
    (arguments : List.Forall₂ (W.values w) as as') :
    W.Simulates cut w (fun v => Native.Answer.Alike R (W.sees v)) (Eval.consult c f as)
      (Eval.consult c' f as') := by
  refine of_ok (fun _ => rfl) (fun _ => rfl) fun v m m' le machines => ?_
  have effect := contexts.natives machines.stores f m.calls as as'
    (arguments.imp fun _ _ => values_mono le)
  rw [← machines.calls, ← machines.output, ← effect.printed]
  exact ⟨v, le_rfl, effect.answer, machines.stores, machines.declared, rfl, machines.depth, rfl⟩

theorem applyNative (contexts : W.Contexts cut c c') (f : Native)
    (arguments : List.Forall₂ (W.values w) as as') :
    W.Simulates cut w (fun v => Returned.Alike R (W.sees v)) (Eval.applyNative c f as)
      (Eval.applyNative c' f as') := by
  apply (consult contexts f arguments).bind
  · intro v a b le answer
    cases answer with
    | returns result =>
        refine pure fun u le => ?_
        cases result with
        | value alike => exact .value (values_mono le alike)
        | alien => exact .alien
    | raises error => exact throw (.error error)
    | exhausts => exact throw .exhausted
  · intro answer
    cases answer with
    | returns result => exact .pure _
    | raises e => exact .throw _
    | exhausts => exact .throw _

theorem unwrap {r r' : Returned} (token : R paren paren') (result : r.Alike R (W.sees w) r') :
    W.Simulates cut w W.values (Eval.unwrap paren r) (Eval.unwrap paren' r') := by
  cases result with
  | value alike => exact pure fun _ le => values_mono le alike
  | alien => exact fail token

theorem invoke (faithful : Token.Faithful R) (contexts : W.Contexts cut c c')
    (bodies : ∀ v body body' s s', w ≤ v → List.Forall₂ (Stmt.Alike R) body body' →
      W.same v s s' → W.Simulates cut v W.completions (run body s) (run' body' s'))
    (lasts : ∀ body s, (run' body s).Lasts) (alike : W.values w callee callee')
    (token : R paren paren') (arguments : List.Forall₂ (W.values w) as as') :
    W.Simulates cut w W.values (Eval.invoke c run callee paren as)
      (Eval.invoke c' run' callee' paren' as') := by
  cases alike with
  | function alike =>
      exact active (guarded token contexts.whole
        (applyFunction faithful bodies lasts alike arguments))
  | @native f =>
      apply (active (guarded token contexts.whole (applyNative contexts f arguments))).bind
      · exact fun v a b le result => unwrap token result
      · exact fun _ => .unwrap _ _
  | nil | bool | number | string => exact fail token

theorem call (faithful : Token.Faithful R) (contexts : W.Contexts cut c c')
    (bodies : ∀ v body body' s s', w ≤ v → List.Forall₂ (Stmt.Alike R) body body' →
      W.same v s s' → W.Simulates cut v W.completions (run body s) (run' body' s'))
    (lasts : ∀ body s, (run' body s).Lasts) (alike : W.values w callee callee')
    (token : R paren paren') (arguments : List.Forall₂ (W.values w) as as') :
    W.Simulates cut w W.values (Eval.call c run callee paren as)
      (Eval.call c' run' callee' paren' as') := by
  intro v m m' le machines
  have inside := invoke faithful contexts bodies lasts alike token arguments v m m' le machines
  have stops : ∀ cause, W.Follows cut v W.values (.error (.error ⟨cause, paren⟩) m)
      (.error (.error ⟨cause, paren'⟩) m') := fun cause =>
    .inl ⟨_, m', v, rfl, le_rfl, .error (.mk token), machines⟩
  -- Where the first run has no room for the call and the second one has, all that is known of the
  -- second one is that it only adds to the output.
  have goesOn := (Eval.Lasts.call c' lasts callee' paren' as' m').output
  rw [← machines.output, Eval.after, Eval.call_eq] at goesOn
  rw [Eval.call_eq, Eval.call_eq, ← alike.arity?, ← arguments.length_eq]
  rw [← alike.arity?, ← arguments.length_eq] at goesOn
  cases takes : callee.arity? with
  | none => exact stops _
  | some arity =>
      dsimp only
      by_cases count : as.length ≠ arity
      · rw [if_pos count, if_pos count]
        exact stops _
      rw [if_neg count, if_neg count, ← machines.depth]
      by_cases full : c.limit ≤ m.depth
      · rw [if_pos full]
        rcases contexts.limits with same | ⟨-, short⟩
        · rw [← same, if_pos full]
          exact stops _
        · refine .inr ⟨short paren, ?_⟩
          rw [takes] at goesOn
          dsimp only at goesOn
          rwa [if_neg count, ← machines.depth] at goesOn
      · have room : ¬ c'.limit ≤ m.depth := by
          rcases contexts.limits with same | ⟨le, -⟩ <;> omega
        rw [if_neg full, if_neg room]
        exact inside

end Simulates

end Worlds

/-! ## Runs -/

inductive Stmt.Inert : Stmt → Prop
  | expression {e} : Inert (.expression e)
  | print {e} : Inert (.print e)
  | block {body} : Inert (.block body)
  | ifThen {e s} (whenTrue : Inert s) : Inert (.ifElse e s none)
  | ifElse {e s t} (whenTrue : Inert s) (whenFalse : Inert t) : Inert (.ifElse e s (some t))
  | whileLoop {e s} (body : Inert s) : Inert (.whileLoop e s)
  | returnStmt {t o} : Inert (.returnStmt t o)

namespace Stmt.Inert

variable {e : Expr} {s t : Stmt} {o : Option Stmt}

theorem not_varDecl {t : Token} {e : Option Expr} : ¬ (Stmt.varDecl t e).Inert := by
  rintro ⟨⟩

theorem not_funDecl {t : Token} {params : List Token} {body : List Stmt} :
    ¬ (Stmt.funDecl t params body).Inert := by
  rintro ⟨⟩

theorem whenTrue (inert : (Stmt.ifElse e s o).Inert) : s.Inert := by
  cases inert with
  | ifThen whenTrue => exact whenTrue
  | ifElse whenTrue whenFalse => exact whenTrue

theorem whenFalse (inert : (Stmt.ifElse e s (some t)).Inert) : t.Inert := by
  cases inert with
  | ifElse whenTrue whenFalse => exact whenFalse

theorem round (inert : (Stmt.whileLoop e s).Inert) : s.Inert := by
  cases inert with
  | whileLoop body => exact body

end Stmt.Inert

def Fuels (cut : Stop → Prop) (fuel fuel' : Nat) : Prop :=
  fuel = fuel' ∨ fuel ≤ fuel' ∧ cut .outOfFuel

namespace Worlds

variable (W : Worlds R ω) (cut : Stop → Prop) (c c' : Context)

def ExpressionsSimulate (fuel fuel' : Nat) : Prop :=
  ∀ w e e' s s', e.Alike R e' → W.sees w s s' →
    W.Simulates cut w W.values (evaluate c fuel e s) (evaluate c' fuel' e' s')

def StatementsSimulate (fuel fuel' : Nat) : Prop :=
  ∀ w t t' s s', t.Alike R t' → (W.same w s s' ∨ t.Inert ∧ W.sees w s s') →
    W.Simulates cut w W.completions (execute c fuel t s) (execute c' fuel' t' s')

variable {W} {cut} {c c'} (faithful : Token.Faithful R) {n n' : Nat}
include faithful

theorem statement_simulates (expressions : W.ExpressionsSimulate cut c c' n n')
    (statements : W.StatementsSimulate cut c c' n n') :
    W.StatementsSimulate cut c c' (n + 1) (n' + 1) := by
  obtain ⟨evaluates, executes⟩ := evaluation_lasts c' n'
  intro w t t' s s' alike place
  have sees : W.sees w s s' := place.elim W.sees_of_same And.right
  cases alike with
  | expression value => exact (expressions w _ _ s s' value sees).discard.normally
  | print value =>
      apply (expressions w _ _ s s' value sees).bind
      · intro v a b le value
        rw [value.text faithful]
        exact (Simulates.printLine _).normally
      · intro _
        exact (Eval.Lasts.printLine _).normally
  | @varDecl t t' o o' name initializer =>
      -- A declaration is not inert, so it stands in scopes that are the same.
      have same : W.same w s s' := place.elim id fun inert => absurd inert.1 Stmt.Inert.not_varDecl
      have defines : ∀ v a b, w ≤ v → W.values v a b → W.Simulates cut v W.completions
          (do Eval.define s t.lexeme a; return .normal)
          (do Eval.define s' t'.lexeme b; return .normal) := by
        intro v a b le value
        rw [← faithful.lexeme name]
        exact (Simulates.define _ (W.same_mono le same) value).normally
      cases initializer with
      | none => exact defines w _ _ le_rfl .nil
      | some value =>
          apply (expressions w _ _ s s' value sees).bind defines
          intro _
          exact (Eval.Lasts.define _ _ _).normally
  | block inside =>
      apply (Simulates.openScope sees).bind
      · intro v r r' le same
        apply Simulates.sequence inside
        · intro u t t' le' alike
          exact statements u t t' r r' alike (.inl (W.same_mono le' same))
        · exact fun t => executes t r'
      · exact fun r => Eval.Lasts.sequence (fun t => executes t r) _
  | @ifElse e e' a a' o o' condition whenTrue whenFalse =>
      apply (expressions w _ _ s s' condition sees).bind
      · intro v _ _ le value
        have there : ∀ {t t' : Stmt}, t.Alike R t' → ((Stmt.ifElse e a o).Inert → t.Inert) →
            W.Simulates cut v W.completions (execute c n t s) (execute c' n' t' s') := by
          intro t t' alike part
          apply statements v t t' s s' alike
          exact place.imp (W.same_mono le) fun inert => ⟨part inert.1, W.sees_mono le inert.2⟩
        rw [value.truthy]
        split
        · exact there whenTrue Stmt.Inert.whenTrue
        · cases whenFalse with
          | none => exact .pure fun _ _ => .normal
          | some whenFalse => exact there whenFalse Stmt.Inert.whenFalse
      · intro _
        apply Eval.Lasts.ite (executes _ _)
        cases o' with
        | none => exact .pure _
        | some t => exact executes t s'
  | whileLoop condition body =>
      apply (expressions w _ _ s s' condition sees).bind
      · intro v a b le value
        rw [value.truthy]
        split
        · have first := statements v _ _ s s' body (place.imp (W.same_mono le) fun inert =>
            ⟨inert.1.round, W.sees_mono le inert.2⟩)
          apply first.andThen
          · intro u le'
            have later := le_trans le le'
            exact statements u _ _ s s' (.whileLoop condition body)
              (place.imp (W.same_mono later) fun inert => ⟨inert.1, W.sees_mono later inert.2⟩)
          · exact executes _ _
        · exact .pure fun _ _ => .normal
      · intro _
        exact .ite ((executes _ _).andThen (executes _ _)) (.pure _)
  | funDecl name params inside =>
      have same : W.same w s s' := place.elim id fun inert => absurd inert.1 Stmt.Inert.not_funDecl
      exact (Simulates.declare faithful same name params inside).normally
  | returnStmt keyword value =>
      cases value with
      | none => exact .pure fun _ _ => .returning .nil
      | some value =>
          apply (expressions w _ _ s s' value sees).bind
          · intro v a b le value
            exact .pure fun u le' => .returning (values_mono le' value)
          · intro _
            exact .pure _

variable (contexts : W.Contexts cut c c')
include contexts

theorem expression_simulates (expressions : W.ExpressionsSimulate cut c c' n n')
    (statements : W.StatementsSimulate cut c c' n n') :
    W.ExpressionsSimulate cut c c' (n + 1) (n' + 1) := by
  obtain ⟨evaluates, executes⟩ := evaluation_lasts c' n'
  intro w e e' s s' alike sees
  cases alike with
  | literal => exact .pure fun _ _ => .literal _
  | grouping inner => exact expressions w _ _ s s' inner sees
  | unary operator operand =>
      apply (expressions w _ _ s s' operand sees).bind
      · intro v a b le value
        exact .ofExcept (value.applyUnary faithful operator)
      · intro _
        exact .ofExcept _
  | binary left operator right =>
      apply (expressions w _ _ s s' left sees).bind
      · intro v a b le value
        apply (expressions v _ _ s s' right (W.sees_mono le sees)).bind
        · intro u a' b' le' value'
          exact .ofExcept ((values_mono le' value).applyBinary faithful operator value')
        · intro _
          exact .ofExcept _
      · intro _
        exact (evaluates _ _).bind fun _ => .ofExcept _
  | logical left operator right =>
      apply (expressions w _ _ s s' left sees).bind
      · intro v a b le value
        rw [value.decides faithful operator]
        split
        · exact .pure fun u le' => values_mono le' value
        · exact expressions v _ _ s s' right (W.sees_mono le sees)
      · intro _
        exact .ite (.pure _) (evaluates _ _)
  | name token => exact .lookup faithful sees token
  | assign token value =>
      apply (expressions w _ _ s s' value sees).bind
      · intro v a b le value
        apply (Simulates.assign faithful (W.sees_mono le sees) token value).bind
        · intro u _ _ le' _
          exact .pure fun u' le'' => values_mono (le_trans le' le'') value
        · intro _
          exact .pure _
      · intro _
        exact (Eval.Lasts.assign _ _ _).bind fun _ => .pure _
  | call callee paren arguments =>
      have bodies : ∀ body s, (Eval.sequence (fun t => execute c' n' t s) body).Lasts :=
        fun body s => Eval.Lasts.sequence (fun t => executes t s) body
      apply (expressions w _ _ s s' callee sees).bind
      · intro v f f' le callee
        have operands : ∀ u e e', v ≤ u → e.Alike R e' → W.Simulates cut u W.values
            (evaluate c n e s) (evaluate c' n' e' s') := fun u e e' le' alike =>
          expressions u e e' s s' alike (W.sees_mono (le_trans le le') sees)
        apply (Simulates.mapM arguments operands fun e => evaluates e s').bind
        · intro u as as' le' values
          apply Simulates.call faithful contexts _ bodies (values_mono le' callee) paren values
          intro u' body body' r r' le'' inside same
          apply Simulates.sequence inside
          · intro u'' t t' le₃ alike
            exact statements u'' t t' r r' alike (.inl (W.same_mono le₃ same))
          · exact fun t => executes t r'
        · intro _
          exact .call c' bodies _ _ _
      · intro _
        exact (Eval.Lasts.mapM fun e => evaluates e s').bind fun _ => .call c' bodies _ _ _

/-- Two runs of alike trees from corresponding machines go the same way, for as long as the first
one is not cut short. -/
theorem run_simulates (fuels : Fuels cut n n') :
    W.ExpressionsSimulate cut c c' n n' ∧ W.StatementsSimulate cut c c' n n' := by
  -- The induction is on the fuel of the first run; a loop goes on with the same tree and less fuel.
  induction n generalizing n' with
  | zero =>
      obtain ⟨evaluates, executes⟩ := evaluation_lasts c' n'
      rcases fuels with rfl | ⟨-, short⟩
      · exact ⟨fun _ _ _ _ _ _ _ => .throw .outOfFuel, fun _ _ _ _ _ _ _ => .throw .outOfFuel⟩
      · exact ⟨fun _ _ _ _ _ _ _ => .cut_throw short (evaluates _ _),
          fun _ _ _ _ _ _ _ => .cut_throw short (executes _ _)⟩
  | succ n ih =>
      obtain ⟨k, rfl, fuels'⟩ : ∃ k, n' = k + 1 ∧ Fuels cut n k := by
        rcases fuels with rfl | ⟨le, short⟩
        · exact ⟨n, rfl, .inl rfl⟩
        · exact ⟨n' - 1, by omega, .inr ⟨by omega, short⟩⟩
      obtain ⟨expressions, statements⟩ := ih fuels'
      exact ⟨expression_simulates faithful contexts expressions statements,
        statement_simulates faithful expressions statements⟩

theorem program_simulates (fuels : Fuels cut n n') {w : ω}
    (same : W.same w Interpreter.globals Interpreter.globals) {body body' : List Stmt}
    (alike : List.Forall₂ (Stmt.Alike R) body body') :
    W.Simulates cut w (fun _ _ _ => True) (Eval.program c n body) (Eval.program c' n' body') := by
  induction alike generalizing w with
  | nil => exact .pure fun _ _ => trivial
  | cons head tail ih =>
      have first := (run_simulates faithful contexts fuels).2 w _ _ _ _ head (.inl same)
      exact first.discard.bind (fun v _ _ le _ => ih (W.same_mono le same))
        fun _ => program_lasts c' n' _

end Worlds

end Lox
