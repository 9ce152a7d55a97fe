import Lox.Proofs.Evaluation.Invariant

namespace Lox

theorem Expr.parts_of_operand {e x : Expr} (operand : x ∈ e.operands) : ∀ y ∈ x.parts, y ∈ e.parts := by
  intro y part
  cases e with
  | literal | «variable» => cases operand
  | grouping | unary | assign =>
      cases List.mem_singleton.mp operand
      exact .tail _ part
  | logical left =>
      cases List.mem_singleton.mp operand
      exact .tail _ (List.mem_append_left _ part)
  | binary left operator right =>
      rcases List.mem_pair.mp operand with rfl | rfl
      · exact .tail _ (List.mem_append_left _ part)
      · exact .tail _ (List.mem_append_right _ part)
  | call callee paren arguments =>
      rcases List.mem_cons.mp operand with rfl | argument
      · exact .tail _ (List.mem_append_left _ part)
      · exact .tail _ (List.mem_append_right _ (mem_allParts.mpr ⟨x, argument, part⟩))

theorem Stmt.expressions_of_operand {s : Stmt} {e : Expr} (operand : s.operand? = some e) :
    ∀ x ∈ e.parts, x ∈ s.expressions := by
  intro x part
  cases s with
  | expression | print | varDecl | returnStmt =>
      cases operand
      exact part
  | ifElse condition whenTrue whenFalse =>
      cases operand
      cases whenFalse with
      | none => exact List.mem_append_left _ part
      | some s => exact List.mem_append_left _ (List.mem_append_left _ part)
  | whileLoop condition body =>
      cases operand
      exact List.mem_append_left _ part
  | block | funDecl => cases operand

namespace Invariant

variable {V : Invariant} {c : Context} {a b : Moment} {n fuel scope : Nat} {m m' : Machine}

variable (V) in
def task : Task → Prop
  | .program statements =>
      (∀ x ∈ Stmt.allExpressions statements, V.node x) ∧ V.owns Interpreter.globals
  | .body statements scope => (∀ x ∈ Stmt.allExpressions statements, V.node x) ∧ V.owns scope
  | .statement s scope => (∀ x ∈ s.expressions, V.node x) ∧ (V.owns scope ∨ s.Inert ∧ V.sees scope)
  | .expression e scope => (∀ x ∈ e.parts, V.node x) ∧ V.sees scope
  | .call callee paren arguments =>
      (∃ e es, V.node (.call e paren es)) ∧ V.value callee ∧ ∀ v ∈ arguments, V.value v

variable (V) in
structure Holds (a : Moment) : Prop where
  task : V.task a.task
  store : V.store a.machine.store

theorem Keeps.of_ok {α : Type} {rel : α → Prop} {x : Eval α} {v : α} (h : V.Keeps rel x)
    (before : V.store m.store) (done : x m = .ok v m') : V.store m'.store ∧ rel v := by
  have ends := h m before
  rw [done] at ends
  exact ⟨ends.1, ends.2.2⟩

theorem task_operand {s : Stmt} {e : Expr} (h : V.task (.statement s scope))
    (first : s.operand? = some e) : V.task (.expression e scope) :=
  ⟨fun x part => h.1 x (Stmt.expressions_of_operand first x part), h.2.elim V.sees_of_owns And.right⟩

theorem code_of_append {before after : List Stmt} {s : Stmt}
    (code : ∀ x ∈ Stmt.allExpressions (before ++ s :: after), V.node x) :
    (∀ x ∈ Stmt.allExpressions before, V.node x) ∧ ∀ x ∈ s.expressions, V.node x := by
  rw [Stmt.allExpressions_append] at code
  obtain ⟨earlier, rest⟩ := List.forall_mem_append.mp code
  exact ⟨earlier, (List.forall_mem_append.mp rest).1⟩

section
variable (gives : c.Gives V.function)
include gives

theorem operands_keep {e : Expr} (code : ∀ x ∈ e.parts, V.node x) (sees : V.sees scope)
    {es : List Expr} (operands : ∀ x ∈ es, x ∈ e.operands) :
    V.Keeps (fun vs => ∀ v ∈ vs, V.value v) (es.mapM fun e => evaluate c fuel e scope) := by
  apply Keeps.mapM
  intro x member
  have part : ∀ y ∈ x.parts, V.node y := fun y inside =>
    code y (Expr.parts_of_operand (operands x member) y inside)
  exact (evaluation_keeps gives fuel).1 x scope part sees

theorem task_keeps {t : Task} (h : V.task t) (fuel : Nat) :
    V.Keeps (fun _ => True) (t.run c fuel) := by
  obtain ⟨expressions, statements⟩ : V.KeepsExpressions c fuel ∧ V.KeepsStatements c fuel :=
    evaluation_keeps gives fuel
  cases t with
  | program body => exact program_keeps gives fuel h.2 h.1
  | body body scope => exact (statements.sequence h.1 h.2).discard
  | statement s scope => exact (statements s scope h.1 h.2).discard
  | expression e scope => exact (expressions e scope h.1 h.2).discard
  | call callee paren arguments =>
      exact (Keeps.call gives (fun _ _ => statements.sequence) h.2.1 paren h.2.2).discard

theorem store_of_operand {s : Stmt} {e : Expr} {v : Value} (h : V.task (.statement s scope))
    (first : s.operand? = some e) (before : V.store m.store)
    (done : evaluate c fuel e scope m = .ok v m') : V.store m'.store := by
  obtain ⟨code, sees⟩ := task_operand h first
  exact (((evaluation_keeps gives fuel).1 e scope code sees).of_ok before done).1

end

theorem Holds.starts (gives : c.Gives V.function) (h : V.Holds a) (start : Starts c a b n) :
    V.Holds b := by
  obtain ⟨task, store⟩ := h
  -- Of what ran between `a` and `b`, only that it kept the store is needed.
  cases start with
  | @top fuel before s after _ _ done =>
      obtain ⟨code, owns⟩ := task
      obtain ⟨earlier, part⟩ := code_of_append code
      exact ⟨⟨part, .inl owns⟩, ((program_keeps gives fuel owns earlier).of_ok store done).1⟩
  | @item fuel before s after scope _ _ done =>
      obtain ⟨code, owns⟩ := task
      obtain ⟨earlier, part⟩ := code_of_append code
      have keeps := (evaluation_keeps gives fuel).2.sequence earlier owns
      exact ⟨⟨part, .inl owns⟩, (keeps.of_ok store done).1⟩
  | value first => exact ⟨task_operand task first, store⟩
  | block =>
      obtain ⟨code, place⟩ := task
      obtain ⟨pushed, -, owns⟩ := V.push store (place.elim V.sees_of_owns And.right)
      exact ⟨⟨code, owns⟩, pushed⟩
  | @whenTrue fuel e s o scope _ _ _ tested =>
      have between := store_of_operand gives task rfl store tested
      obtain ⟨code, place⟩ := task
      have inside : ∀ x ∈ s.expressions, x ∈ (Stmt.ifElse e s o).expressions := by
        intro x part
        cases o with
        | none => exact List.mem_append_right _ part
        | some t => exact List.mem_append_left _ (List.mem_append_right _ part)
      exact ⟨⟨fun x part => code x (inside x part), place.imp_right (And.imp_left .whenTrue)⟩,
        between⟩
  | @whenFalse fuel e s t scope _ _ _ tested =>
      have between := store_of_operand gives task rfl store tested
      obtain ⟨code, place⟩ := task
      exact ⟨⟨fun x part => code x (List.mem_append_right _ part),
        place.imp_right (And.imp_left .whenFalse)⟩, between⟩
  | @round fuel e s scope _ _ _ tested =>
      have between := store_of_operand gives task rfl store tested
      obtain ⟨code, place⟩ := task
      exact ⟨⟨(List.forall_mem_append.mp code).2, place.imp_right (And.imp_left .round)⟩, between⟩
  | @again fuel e s scope _ _ _ _ tested _ done =>
      have between := store_of_operand gives task rfl store tested
      obtain ⟨code, place⟩ := task
      have keeps := (evaluation_keeps gives fuel).2 s scope (List.forall_mem_append.mp code).2
        (place.imp_right (And.imp_left .round))
      exact ⟨⟨code, place⟩, (keeps.of_ok between done).1⟩
  | @operand fuel e before x after scope _ _ _ operands done =>
      obtain ⟨code, sees⟩ := task
      have member : ∀ y ∈ before ++ x :: after, y ∈ e.operands := fun y inside => operands ▸ inside
      have keeps : V.Keeps (fun vs => ∀ v ∈ vs, V.value v)
          (before.mapM fun e => evaluate c fuel e scope) :=
        operands_keep gives code sees fun y inside => member y (List.mem_append_left _ inside)
      exact ⟨⟨fun y part => code y (Expr.parts_of_operand (member x (by simp)) y part), sees⟩,
        (keeps.of_ok store done).1⟩
  | @right fuel a op b scope _ _ _ done =>
      obtain ⟨code, sees⟩ := task
      obtain ⟨first, second⟩ := List.forall_mem_append.mp (List.forall_mem_cons.mp code).2
      exact ⟨⟨second, sees⟩, (((evaluation_keeps gives fuel).1 a scope first sees).of_ok store done).1⟩
  | @attempt fuel e paren es scope _ _ _ _ done =>
      obtain ⟨code, sees⟩ := task
      have keeps : V.Keeps (fun vs => ∀ v ∈ vs, V.value v)
          ((e :: es).mapM fun e => evaluate c fuel e scope) :=
        operands_keep gives (e := .call e paren es) code sees fun _ => id
      obtain ⟨after, values⟩ := keeps.of_ok store done
      obtain ⟨callee, arguments⟩ := List.forall_mem_cons.mp values
      exact ⟨⟨⟨e, es, code _ (.head _)⟩, callee, arguments⟩, after⟩
  | @enter fuel f paren vs m scope _ count room entered =>
      obtain ⟨-, callee, arguments⟩ := task
      have before : V.store ({ m with depth := m.depth + 1 } : Machine).store := store
      cases callee with
      | function made =>
          obtain ⟨after, owns⟩ := (Keeps.enter made arguments).of_ok before entered
          exact ⟨⟨(V.body made).2, owns⟩, after⟩

theorem Holds.reaches (gives : c.Gives V.function) (h : V.Holds a) (reaches : Reaches c a b n) :
    V.Holds b := by
  induction reaches with
  | here => exact h
  | step first _ ih => exact ih (h.starts gives first)

end Invariant

end Lox
