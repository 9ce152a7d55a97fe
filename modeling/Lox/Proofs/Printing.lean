import Lox.Proofs.Layout
import Lox.Proofs.Printing.Spelling

namespace Lox

open Mark (IsWord)

/-! ## Legible nodes -/

def Expr.operator? : Expr → Option Token
  | .unary operator _ | .binary _ operator _ | .logical _ operator _ => some operator
  | _ => none

theorem Expr.Spelled.whole {e : Expr} (h : e.Spelled) {op : Token} (root : e.operator? = some op) :
    op.Whole ∧ (op.kind.isOperator = true ∨ op.kind.isLogical = true) := by
  cases e with
  | unary | binary => cases root; exact ⟨h.1, .inl h.2⟩
  | logical => cases root; exact ⟨h.1, .inr h.2⟩
  | _ => cases root

theorem Expr.Spelled.operator {e : Expr} (h : e.Spelled) {op : Token}
    (root : e.operator? = some op) :
    IsWord op.lexeme ∧ op.lexeme ∉ ["group", "call", "="] := by
  obtain ⟨whole, kind⟩ := h.whole root
  obtain ⟨s, spelled, word, other⟩ := Token.Kind.isWord_of_operator kind
  rw [whole.lexeme_eq spelled]
  exact ⟨word, other⟩

/-- An expression with what is spelled in accepted texts at its root, and no literal there that has
the text of another one. -/
structure Expr.Legible (e : Expr) : Prop where
  spelled : e.Spelled
  plain : ∀ v, e = .literal v → v.Plain

theorem Expr.Legible.worded {e : Expr} (h : e.Legible) : e.Worded := by
  obtain ⟨spelled, plain⟩ := h
  cases e with
  | literal v => exact Literal.isWord spelled (plain v rfl)
  | unary | binary | logical => exact (spelled.operator rfl).1
  | «variable» | assign => exact Token.Is.isWord spelled
  | grouping | call => trivial

theorem Stmt.Spelled.worded {s : Stmt} (h : s.Spelled) : s.Worded := by
  cases s with
  | varDecl => exact Token.Is.isWord h
  | funDecl => exact ⟨h.1.isWord, fun param member => (h.2 param member).isWord⟩
  | expression | print | block | ifElse | whileLoop | returnStmt => trivial

/-! ## Nodes of one form -/

/-- Expressions with the same node and tokens at the root, and operands of the same forms. -/
inductive Expr.Corresponds : Expr → Expr → Prop
  | literal {v} : Corresponds (.literal v) (.literal v)
  | grouping {e e'} (inner : e.form = e'.form) : Corresponds (.grouping e) (.grouping e')
  | unary {op op' e e'} (operator : op.Same op') (operand : e.form = e'.form) :
      Corresponds (.unary op e) (.unary op' e')
  | binary {a a' op op' b b'} (left : a.form = a'.form) (operator : op.Same op')
      (right : b.form = b'.form) : Corresponds (.binary a op b) (.binary a' op' b')
  | logical {a a' op op' b b'} (left : a.form = a'.form) (operator : op.Same op')
      (right : b.form = b'.form) : Corresponds (.logical a op b) (.logical a' op' b')
  | name {t t'} (token : t.Same t') : Corresponds (.variable t) (.variable t')
  | assign {t t' e e'} (token : t.Same t') (value : e.form = e'.form) :
      Corresponds (.assign t e) (.assign t' e')
  | call {f f' p p' es es'} (callee : f.form = f'.form) (paren : p.Same p')
      (arguments : Expr.forms es = Expr.forms es') : Corresponds (.call f p es) (.call f' p' es')

inductive Stmt.Corresponds : Stmt → Stmt → Prop
  | expression {e e'} (value : e.form = e'.form) : Corresponds (.expression e) (.expression e')
  | print {e e'} (value : e.form = e'.form) : Corresponds (.print e) (.print e')
  | varDecl {t t'} (name : t.Same t') : Corresponds (.varDecl t none) (.varDecl t' none)
  | initialized {t t' e e'} (name : t.Same t') (value : e.form = e'.form) :
      Corresponds (.varDecl t (some e)) (.varDecl t' (some e'))
  | block {body body'} (inside : Stmt.forms body = Stmt.forms body') :
      Corresponds (.block body) (.block body')
  | ifThen {e e' a a'} (condition : e.form = e'.form) (whenTrue : a.form = a'.form) :
      Corresponds (.ifElse e a none) (.ifElse e' a' none)
  | ifElse {e e' a a' b b'} (condition : e.form = e'.form) (whenTrue : a.form = a'.form)
      (whenFalse : b.form = b'.form) : Corresponds (.ifElse e a (some b)) (.ifElse e' a' (some b'))
  | whileLoop {e e' s s'} (condition : e.form = e'.form) (body : s.form = s'.form) :
      Corresponds (.whileLoop e s) (.whileLoop e' s')
  | funDecl {t t' ps ps' body body'} (name : t.Same t') (params : List.Forall₂ Token.Same ps ps')
      (inside : Stmt.forms body = Stmt.forms body') :
      Corresponds (.funDecl t ps body) (.funDecl t' ps' body')
  | returnNil {t t'} (keyword : t.Same t') :
      Corresponds (.returnStmt t none) (.returnStmt t' none)
  | returnValue {t t' e e'} (keyword : t.Same t') (value : e.form = e'.form) :
      Corresponds (.returnStmt t (some e)) (.returnStmt t' (some e'))

theorem Token.Is.same {t t' : Token} {kind : Kind} (h : t.Is kind) (h' : t'.Is kind) {s : String}
    (spelled : kind.spelling? = some s) : t.Same t' :=
  h.whole.same h'.whole ((h.lexeme_eq spelled).trans (h'.lexeme_eq spelled).symm)

theorem Token.Is.all_same {ts ts' : List Token} (h : ∀ t ∈ ts, t.Is .identifier)
    (h' : ∀ t ∈ ts', t.Is .identifier)
    (same : (ts.map fun t => Form.word t.lexeme) = ts'.map fun t => Form.word t.lexeme) :
    List.Forall₂ Token.Same ts ts' := by
  induction ts generalizing ts' with
  | nil => rw [List.map_eq_nil_iff.mp same.symm]; exact .nil
  | cons t ts ih =>
      obtain ⟨t', ts', rfl, form, others⟩ := List.map_eq_cons_iff.mp same.symm
      obtain ⟨first, rest⟩ := List.forall_mem_cons.mp h
      obtain ⟨first', rest'⟩ := List.forall_mem_cons.mp h'
      have lexeme : t.lexeme = t'.lexeme := (Form.word.inj form).symm
      exact .cons (first.whole.same first'.whole lexeme) (ih rest rest' others.symm)

theorem Token.Kind.isLogical_of_isOperator {kind : Kind} (operator : kind.isOperator = true) :
    kind.isLogical = false := by
  cases kind <;> first | rfl | cases operator

theorem Expr.form_of_operator? {e : Expr} {op : Token} (root : e.operator? = some op) :
    ∃ operands, e.form = .group (.word op.lexeme :: operands) := by
  cases e with
  | unary | binary | logical => cases root; exact ⟨_, rfl⟩
  | _ => cases root

theorem Expr.Spelled.operator_same {e e' : Expr} (h : e.Spelled) (h' : e'.Spelled)
    (same : e.form = e'.form) (op : Token) (root : e.operator? = some op) :
    ∃ op', e'.operator? = some op' ∧ op.Same op' := by
  obtain ⟨operands, form⟩ := form_of_operator? root
  obtain ⟨-, other⟩ := h.operator root
  rw [form] at same
  cases root' : e'.operator? with
  | some op' =>
      obtain ⟨operands', form'⟩ := form_of_operator? root'
      rw [form'] at same
      have lexeme := Form.word.inj (List.cons.inj (Form.group.inj same)).1
      exact ⟨op', rfl, (h.whole root).1.same (h'.whole root').1 lexeme⟩
  | none =>
      refine absurd ?_ other
      cases e' with
      | unary | binary | logical => cases root'
      | literal | «variable» => cases same
      | grouping | assign | call =>
          have lexeme := Form.word.inj (List.cons.inj (Form.group.inj same)).1
          rw [lexeme]
          decide

theorem Expr.corresponds {e e' : Expr} (h : e.Legible) (h' : e'.Legible)
    (same : e.form = e'.form) : e.Corresponds e' := by
  obtain ⟨spelled, plain⟩ := h
  obtain ⟨spelled', plain'⟩ := h'
  have operators := spelled.operator_same spelled' same
  have operators' := spelled'.operator_same spelled same.symm
  cases e with
  | literal v =>
      cases e' with
      | literal v' =>
          have text : v.text = v'.text := Form.word.inj same
          rw [Literal.eq_of_text spelled spelled' (plain v rfl) (plain' v' rfl) text]
          exact .literal
      | «variable» name =>
          exact absurd (Form.word.inj same).symm (Token.Is.ne_text spelled' spelled (plain v rfl))
      | _ => cases same
  | «variable» name =>
      cases e' with
      | «variable» name' =>
          have lexeme : name.lexeme = name'.lexeme := Form.word.inj same
          exact .name ((Token.Is.whole spelled).same (Token.Is.whole spelled') lexeme)
      | literal v =>
          exact absurd (Form.word.inj same) (Token.Is.ne_text spelled spelled' (plain' v rfl))
      | _ => cases same
  | unary op operand =>
      obtain ⟨op', root, operator⟩ := operators _ rfl
      cases e' with
      | unary _ operand' =>
          cases root
          exact .unary operator (by simpa [form, operator.lexeme] using same)
      | binary | logical => simp [form] at same
      | _ => cases root
  | binary left op right =>
      obtain ⟨op', root, operator⟩ := operators _ rfl
      cases e' with
      | binary left' _ right' =>
          cases root
          obtain ⟨first, second⟩ : left.form = left'.form ∧ right.form = right'.form := by
            simpa [form, operator.lexeme] using same
          exact .binary first operator second
      | logical =>
          cases root
          have logical := spelled'.2
          rw [← operator.kind, Token.Kind.isLogical_of_isOperator spelled.2] at logical
          cases logical
      | unary => simp [form] at same
      | _ => cases root
  | logical left op right =>
      obtain ⟨op', root, operator⟩ := operators _ rfl
      cases e' with
      | logical left' _ right' =>
          cases root
          obtain ⟨first, second⟩ : left.form = left'.form ∧ right.form = right'.form := by
            simpa [form, operator.lexeme] using same
          exact .logical first operator second
      | binary =>
          cases root
          have logical := spelled.2
          rw [operator.kind, Token.Kind.isLogical_of_isOperator spelled'.2] at logical
          cases logical
      | unary => simp [form] at same
      | _ => cases root
  | grouping inner =>
      cases e' with
      | grouping inner' => exact .grouping (by simpa [form] using same)
      | unary | binary | logical => obtain ⟨_, root, -⟩ := operators' _ rfl; cases root
      | _ => simp [form] at same
  | assign name value =>
      cases e' with
      | assign name' value' =>
          obtain ⟨lexeme, value⟩ : name.lexeme = name'.lexeme ∧ value.form = value'.form := by
            simpa [form] using same
          exact .assign ((Token.Is.whole spelled).same (Token.Is.whole spelled') lexeme) value
      | unary | binary | logical => obtain ⟨_, root, -⟩ := operators' _ rfl; cases root
      | _ => simp [form] at same
  | call callee paren arguments =>
      cases e' with
      | call callee' paren' arguments' =>
          obtain ⟨callee, arguments⟩ :
              callee.form = callee'.form ∧ Expr.forms arguments = Expr.forms arguments' := by
            simpa [form] using same
          exact .call callee (spelled.same spelled' rfl) arguments
      | unary | binary | logical => obtain ⟨_, root, -⟩ := operators' _ rfl; cases root
      | _ => simp [form] at same

theorem Stmt.corresponds {s s' : Stmt} (h : s.Spelled) (h' : s'.Spelled)
    (same : s.form = s'.form) : s.Corresponds s' := by
  rcases s with value | value | ⟨name, _ | value⟩ | body | ⟨condition, whenTrue, _ | whenFalse⟩ |
    ⟨condition, body⟩ | ⟨name, params, body⟩ | ⟨keyword, _ | value⟩ <;>
  rcases s' with value' | value' | ⟨name', _ | value'⟩ | body' |
    ⟨condition', whenTrue', _ | whenFalse'⟩ | ⟨condition', body'⟩ | ⟨name', params', body'⟩ |
    ⟨keyword', _ | value'⟩ <;> simp [form] at same
  · exact .expression same
  · exact .print same
  · exact .varDecl ((Token.Is.whole h).same (Token.Is.whole h') same)
  · exact .initialized ((Token.Is.whole h).same (Token.Is.whole h') same.1) same.2
  · exact .block same
  · exact .ifThen same.1 same.2
  · exact .ifElse same.1 same.2.1 same.2.2
  · exact .whileLoop same.1 same.2
  · obtain ⟨lexeme, texts, inside⟩ := same
    exact .funDecl (h.1.whole.same h'.1.whole lexeme) (Token.Is.all_same h.2 h'.2 texts) inside
  · exact .returnNil (Token.Is.same h h' rfl)
  · exact .returnValue (Token.Is.same h h' rfl) same

/-! ## Trees of one form -/

mutual

theorem Expr.alike_of_form (e e' : Expr) (legible : ∀ x ∈ e.parts, x.Legible)
    (legible' : ∀ x ∈ e'.parts, x.Legible) (same : e.form = e'.form) :
    e.Alike Token.Same e' := by
  cases corresponds (legible _ e.mem_parts) (legible' _ e'.mem_parts) same with
  | literal => exact .literal
  | name token => exact .name token
  | @grouping inner inner' form =>
      exact .grouping (inner.alike_of_form inner' (List.forall_mem_cons.mp legible).2
        (List.forall_mem_cons.mp legible').2 form)
  | @unary _ _ operand operand' operator form =>
      exact .unary operator (operand.alike_of_form operand' (List.forall_mem_cons.mp legible).2
        (List.forall_mem_cons.mp legible').2 form)
  | @binary left left' _ _ right right' first operator second =>
      obtain ⟨inLeft, inRight⟩ := List.forall_mem_append.mp (List.forall_mem_cons.mp legible).2
      obtain ⟨inLeft', inRight'⟩ :=
        List.forall_mem_append.mp (List.forall_mem_cons.mp legible').2
      exact .binary (left.alike_of_form left' inLeft inLeft' first) operator
        (right.alike_of_form right' inRight inRight' second)
  | @logical left left' _ _ right right' first operator second =>
      obtain ⟨inLeft, inRight⟩ := List.forall_mem_append.mp (List.forall_mem_cons.mp legible).2
      obtain ⟨inLeft', inRight'⟩ :=
        List.forall_mem_append.mp (List.forall_mem_cons.mp legible').2
      exact .logical (left.alike_of_form left' inLeft inLeft' first) operator
        (right.alike_of_form right' inRight inRight' second)
  | @assign _ _ value value' token form =>
      exact .assign token (value.alike_of_form value' (List.forall_mem_cons.mp legible).2
        (List.forall_mem_cons.mp legible').2 form)
  | @call callee callee' _ _ arguments arguments' first closes others =>
      obtain ⟨inCallee, inOthers⟩ :=
        List.forall_mem_append.mp (List.forall_mem_cons.mp legible).2
      obtain ⟨inCallee', inOthers'⟩ :=
        List.forall_mem_append.mp (List.forall_mem_cons.mp legible').2
      exact .call (callee.alike_of_form callee' inCallee inCallee' first) closes
        (Expr.alike_of_forms arguments arguments' inOthers inOthers' others)

theorem Expr.alike_of_forms (es es' : List Expr) (legible : ∀ x ∈ Expr.allParts es, x.Legible)
    (legible' : ∀ x ∈ Expr.allParts es', x.Legible) (same : Expr.forms es = Expr.forms es') :
    List.Forall₂ (Expr.Alike Token.Same) es es' := by
  cases es with
  | nil =>
      cases es' with
      | nil => exact .nil
      | cons => cases same
  | cons e es =>
      cases es' with
      | nil => cases same
      | cons e' es' =>
          obtain ⟨here, others⟩ := List.forall_mem_append.mp legible
          obtain ⟨here', others'⟩ := List.forall_mem_append.mp legible'
          obtain ⟨first, rest⟩ := List.cons.inj same
          exact .cons (e.alike_of_form e' here here' first)
            (Expr.alike_of_forms es es' others others' rest)

end

structure Stmt.Legible (s : Stmt) : Prop where
  expressions : ∀ x ∈ s.expressions, x.Legible
  parts : ∀ t ∈ s.parts, t.Spelled

structure Stmt.AllLegible (body : List Stmt) : Prop where
  expressions : ∀ x ∈ Stmt.allExpressions body, x.Legible
  parts : ∀ t ∈ Stmt.allParts body, t.Spelled

mutual

theorem Stmt.alike_of_form (s s' : Stmt) (legible : s.Legible) (legible' : s'.Legible)
    (same : s.form = s'.form) : s.Alike Token.Same s' := by
  obtain ⟨words, names⟩ := legible
  obtain ⟨words', names'⟩ := legible'
  cases corresponds (names _ s.mem_parts) (names' _ s'.mem_parts) same with
  | expression form => exact .expression (Expr.alike_of_form _ _ words words' form)
  | print form => exact .print (Expr.alike_of_form _ _ words words' form)
  | varDecl name => exact .varDecl name .none
  | initialized name form => exact .varDecl name (.some (Expr.alike_of_form _ _ words words' form))
  | @block body body' inside =>
      exact .block (Stmt.alike_of_forms body body' ⟨words, (List.forall_mem_cons.mp names).2⟩
        ⟨words', (List.forall_mem_cons.mp names').2⟩ inside)
  | @ifThen _ _ whenTrue whenTrue' condition first =>
      obtain ⟨test, inside⟩ := List.forall_mem_append.mp words
      obtain ⟨test', inside'⟩ := List.forall_mem_append.mp words'
      exact .ifElse (Expr.alike_of_form _ _ test test' condition)
        (whenTrue.alike_of_form whenTrue' ⟨inside, (List.forall_mem_cons.mp names).2⟩
          ⟨inside', (List.forall_mem_cons.mp names').2⟩ first) .none
  | @ifElse _ _ whenTrue whenTrue' whenFalse whenFalse' condition first second =>
      obtain ⟨words, other⟩ := List.forall_mem_append.mp words
      obtain ⟨words', other'⟩ := List.forall_mem_append.mp words'
      obtain ⟨test, inside⟩ := List.forall_mem_append.mp words
      obtain ⟨test', inside'⟩ := List.forall_mem_append.mp words'
      obtain ⟨names, others⟩ := List.forall_mem_append.mp (List.forall_mem_cons.mp names).2
      obtain ⟨names', others'⟩ := List.forall_mem_append.mp (List.forall_mem_cons.mp names').2
      exact .ifElse (Expr.alike_of_form _ _ test test' condition)
        (whenTrue.alike_of_form whenTrue' ⟨inside, names⟩ ⟨inside', names'⟩ first)
        (.some (whenFalse.alike_of_form whenFalse' ⟨other, others⟩ ⟨other', others'⟩ second))
  | @whileLoop _ _ body body' condition inside =>
      obtain ⟨test, round⟩ := List.forall_mem_append.mp words
      obtain ⟨test', round'⟩ := List.forall_mem_append.mp words'
      exact .whileLoop (Expr.alike_of_form _ _ test test' condition)
        (body.alike_of_form body' ⟨round, (List.forall_mem_cons.mp names).2⟩
          ⟨round', (List.forall_mem_cons.mp names').2⟩ inside)
  | @funDecl _ _ _ _ body body' name params inside =>
      exact .funDecl name params (Stmt.alike_of_forms body body'
        ⟨words, (List.forall_mem_cons.mp names).2⟩ ⟨words', (List.forall_mem_cons.mp names').2⟩
        inside)
  | returnNil keyword => exact .returnStmt keyword .none
  | returnValue keyword form =>
      exact .returnStmt keyword (.some (Expr.alike_of_form _ _ words words' form))

theorem Stmt.alike_of_forms (body body' : List Stmt) (legible : Stmt.AllLegible body)
    (legible' : Stmt.AllLegible body') (same : Stmt.forms body = Stmt.forms body') :
    List.Forall₂ (Stmt.Alike Token.Same) body body' := by
  cases body with
  | nil =>
      cases body' with
      | nil => exact .nil
      | cons => cases same
  | cons s body =>
      cases body' with
      | nil => cases same
      | cons s' body' =>
          obtain ⟨words, others⟩ := List.forall_mem_append.mp legible.expressions
          obtain ⟨words', others'⟩ := List.forall_mem_append.mp legible'.expressions
          obtain ⟨names, more⟩ := List.forall_mem_append.mp legible.parts
          obtain ⟨names', more'⟩ := List.forall_mem_append.mp legible'.parts
          obtain ⟨first, rest⟩ := List.cons.inj same
          exact .cons (s.alike_of_form s' ⟨words, names⟩ ⟨words', names'⟩ first)
            (Stmt.alike_of_forms body body' ⟨others, more⟩ ⟨others', more'⟩ rest)

end

theorem Stmt.Legible.shows {s : Stmt} (h : s.Legible) : s.form.Shows s.text :=
  s.form_shows (fun x member => (h.expressions x member).worded)
    fun t member => (h.parts t member).worded

/-! ## Texts of alike trees -/

variable {R : Token → Token → Prop}

mutual

theorem Expr.Alike.text (faithful : Token.Faithful R) {e e' : Expr} :
    e.Alike R e' → e.text = e'.text
  | .literal => rfl
  | .grouping inner => by rw [Expr.text, Expr.text, inner.text faithful]
  | .unary operator operand => by
      rw [Expr.text, Expr.text, faithful.lexeme operator, operand.text faithful]
  | .binary left operator right | .logical left operator right => by
      rw [Expr.text, Expr.text, faithful.lexeme operator, left.text faithful, right.text faithful]
  | .name token => faithful.lexeme token
  | .assign token value => by
      rw [Expr.text, Expr.text, faithful.lexeme token, value.text faithful]
  | .call callee _ arguments => by
      rw [Expr.text, Expr.text, callee.text faithful, Expr.Alike.texts faithful arguments]

theorem Expr.Alike.texts (faithful : Token.Faithful R) {es es' : List Expr} :
    List.Forall₂ (Expr.Alike R) es es' → Expr.texts es = Expr.texts es'
  | .nil => rfl
  | .cons head tail => by
      rw [Expr.texts, Expr.texts, head.text faithful, Expr.Alike.texts faithful tail]

end

mutual

theorem Stmt.Alike.text (faithful : Token.Faithful R) {s s' : Stmt} :
    s.Alike R s' → s.text = s'.text
  | .expression value | .print value => by rw [Stmt.text, Stmt.text, value.text faithful]
  | .varDecl name .none => by rw [Stmt.text, Stmt.text, faithful.lexeme name]
  | .varDecl name (.some value) => by
      rw [Stmt.text, Stmt.text, faithful.lexeme name, value.text faithful]
  | .block inside => by rw [Stmt.text, Stmt.text, Stmt.Alike.texts faithful inside]
  | .ifElse condition whenTrue .none => by
      rw [Stmt.text, Stmt.text, condition.text faithful, whenTrue.text faithful]
  | .ifElse condition whenTrue (.some whenFalse) => by
      rw [Stmt.text, Stmt.text, condition.text faithful, whenTrue.text faithful,
        whenFalse.text faithful]
  | .whileLoop condition body => by
      rw [Stmt.text, Stmt.text, condition.text faithful, body.text faithful]
  | .funDecl name params inside => by
      have items := List.rel_map (fun _ _ token => faithful.lexeme token) params
      rw [List.forall₂_eq_eq_eq] at items
      rw [Stmt.text, Stmt.text, faithful.lexeme name, items, Stmt.Alike.texts faithful inside]
  | .returnStmt _ .none => rfl
  | .returnStmt _ (.some value) => by rw [Stmt.text, Stmt.text, value.text faithful]

theorem Stmt.Alike.texts (faithful : Token.Faithful R) {body body' : List Stmt} :
    List.Forall₂ (Stmt.Alike R) body body' → Stmt.texts body = Stmt.texts body'
  | .nil => rfl
  | .cons head tail => by
      rw [Stmt.texts, Stmt.texts, head.text faithful, Stmt.Alike.texts faithful tail]

end

/-! ## Accepted texts -/

def Stmt.Plain (s : Stmt) : Prop := ∀ v, .literal v ∈ s.expressions → v.Plain

theorem Program.legible {depth : Nat} {source : String} {body : List Stmt} {s : Stmt}
    (compiled : compile depth source = .ok body) (member : s ∈ body) (plain : s.Plain) : s.Legible := by
  obtain ⟨-, derived⟩ := compile_eq_ok.mp compiled
  have whole : ∀ t ∈ (Scan.ofString source).tokens, t.Whole := fun t => Scan.whole_of_mem_tokens
  refine ⟨fun x inside => ⟨?_, ?_⟩, fun t inside => ?_⟩
  · have within := Stmt.mem_allExpressions.mpr ⟨s, member, inside⟩
    exact (derived.written (fun _ => id) x within).spelled whole
  · rintro v rfl
    exact plain v inside
  · exact derived.spelled whole t (Stmt.mem_allParts.mpr ⟨s, member, inside⟩)

/-- The text of a statement tells its nodes, operators, names, parameters and literals: the texts of
two statements of accepted programs are the same exactly if the trees differ in the lines of tokens
alone. A string is written without its quotes, like a name, and infinity like a name, too. -/
theorem Stmt.text_identifies {depth depth' : Nat} {source source' : String}
    {body body' : List Stmt} {s s' : Stmt} (compiled : Program.compile depth source = .ok body)
    (compiled' : Program.compile depth' source' = .ok body') (member : s ∈ body) (member' : s' ∈ body')
    (plain : s.Plain) (plain' : s'.Plain) :
    s.text = s'.text ↔ s.Alike Token.Same s' := by
  have legible := Program.legible compiled member plain
  have legible' := Program.legible compiled' member' plain'
  constructor
  · intro text
    have marks : s.form.marks = s'.form.marks := by
      rw [← legible.shows, ← legible'.shows, text]
    exact s.alike_of_form s' legible legible' (Form.marks_injective marks)
  · exact fun alike => alike.text Token.Same.faithful

theorem Stmt.text_identifies_lines :
    let name (text : String) (line : Nat) : Expr := .variable ⟨.identifier, text, .nil, line⟩
    let tree (line : Nat) : Stmt := .ifElse (name "a" 1)
      (.print (.binary (name "a" line) ⟨.minus, "-", .nil, line⟩ (name "b" line)))
      (some (.print (.unary ⟨.minus, "-", .nil, line⟩ (.literal .nil))))
    Program.compile 100 "if (a) print a - b; else print -nil;" = .ok [tree 1] ∧
      Program.compile 100 "if (a) // twice\n print a - b; else print -nil;" = .ok [tree 2] ∧
      (tree 1).text = "(if-else a (print (- a b)) (print (- nil)))" ∧
      ((tree 1).text = (tree 2).text ↔ (tree 1).Alike Token.Same (tree 2)) := by
  intro name tree
  have compiled : Program.compile 100 "if (a) print a - b; else print -nil;" = .ok [tree 1] := rfl
  have compiled' : Program.compile 100 "if (a) // twice\n print a - b; else print -nil;" =
      .ok [tree 2] := rfl
  have plain (line : Nat) : (tree line).Plain := by
    intro v member
    have only : v = .nil := by simpa [tree, name, expressions, Expr.parts] using member
    rw [only]
    trivial
  exact ⟨compiled, compiled', rfl,
    text_identifies compiled compiled' (.head _) (.head _) (plain 1) (plain 2)⟩

example : (Stmt.print (.literal (.string "a"))).text =
    (Stmt.print (.variable ⟨.identifier, "a", .nil, 1⟩)).text := rfl

end Lox
