import Lox.Syntax.Outline
import Mathlib.Data.List.Forall2

namespace Lox

namespace Outline

/-- Outlines with the same labels, and leaves of the same kinds and texts. -/
inductive SameButLines : Outline → Outline → Prop
  | leaf {kind text line line'} : SameButLines (.leaf kind text line) (.leaf kind text line')
  | node {label trees trees'} (children : List.Forall₂ SameButLines trees trees') :
      SameButLines (.node label trees) (.node label trees')

def spaced (texts : List String) : String := String.join (texts.map (" " ++ ·))

def enclosed (head rest : String) : String := "(" ++ head ++ rest ++ ")"

/-- What a node with a label is on one line, from what its children are. The lists of arguments and
of declarations come with the spaces before their items, since they may be empty. -/
def written : (label : String) → (children : List String) → String
  | "grouping", [inner] => parenthesize "group" [inner]
  | "unary", [operator, operand] => parenthesize operator [operand]
  | "binary", [left, operator, right] => parenthesize operator [left, right]
  | "logical", [left, operator, right] => parenthesize operator [left, right]
  | "assign", [name, value] => parenthesize ("= " ++ name) [value]
  | "call", [callee, arguments] => enclosed "call" (spaced [callee] ++ arguments)
  | "arguments", items => spaced items
  | "expression", [value] => parenthesize ";" [value]
  | "print", [value] => parenthesize "print" [value]
  | "var", [name] => parenthesize ("var " ++ name) []
  | "var", [name, value] => parenthesize ("var " ++ name ++ " =") [value]
  | "block", items => parenthesize "block" items
  | "if", [condition, whenTrue] => parenthesize "if" [condition, whenTrue]
  | "if", [condition, whenTrue, whenFalse] =>
      parenthesize "if-else" [condition, whenTrue, whenFalse]
  | "while", [condition, body] => parenthesize "while" [condition, body]
  | "function", [name, params, body] => enclosed ("fun " ++ name ++ "(" ++ params ++ ")") body
  | "params", names => " ".intercalate names
  | "body", items => spaced items
  | "return", value => parenthesize "return" value
  | _, _ => ""

mutual

def line : Outline → String
  | .leaf _ text _ => text
  | .node label children => written label (lines children)

def lines : List Outline → List String
  | [] => []
  | tree :: rest => tree.line :: lines rest

end

theorem lines_eq (trees : List Outline) : lines trees = trees.map line := by
  induction trees with
  | nil => rfl
  | cons tree rest ih => rw [lines, ih, List.map_cons]

mutual

theorem SameButLines.line_eq : {a b : Outline} → a.SameButLines b → a.line = b.line
  | _, _, .leaf => rfl
  | _, _, .node children => by rw [line, line, lines_eq_of_forall₂ children]

theorem lines_eq_of_forall₂ : {as bs : List Outline} → List.Forall₂ SameButLines as bs →
    lines as = lines bs
  | _, _, .nil => rfl
  | _, _, .cons head tail => by rw [lines, lines, head.line_eq, lines_eq_of_forall₂ tail]

end

end Outline

theorem Outline.spaced_cons (text : String) (texts : List String) :
    spaced (text :: texts) = spaced [text] ++ spaced texts := by
  simp [spaced]

theorem intercalate_cons (head : String) (parts : List String) :
    " ".intercalate (head :: parts) = head ++ Outline.spaced parts := by
  induction parts generalizing head with
  | nil => simp [Outline.spaced]
  | cons p parts ih =>
      rw [String.intercalate_cons_cons, ih, Outline.spaced_cons]
      simp [Outline.spaced, String.append_assoc]

theorem parenthesize_eq (head : String) (parts : List String) :
    parenthesize head parts = Outline.enclosed head (Outline.spaced parts) := by
  simp only [parenthesize, Outline.enclosed, intercalate_cons, String.append_assoc]

mutual

theorem Expr.text_eq_line : (e : Expr) → e.text = e.outline.line
  | .literal _ | .variable _ => rfl
  | .grouping inner => by
      rw [text, inner.text_eq_line]
      rfl
  | .unary _ operand => by
      rw [text, operand.text_eq_line]
      rfl
  | .binary left _ right | .logical left _ right => by
      rw [text, left.text_eq_line, right.text_eq_line]
      rfl
  | .assign _ value => by
      rw [text, value.text_eq_line]
      rfl
  | .call callee _ arguments => by
      rw [text, callee.text_eq_line, Expr.texts_eq_lines arguments, parenthesize_eq,
        Outline.spaced_cons]
      rfl

theorem Expr.texts_eq_lines : (es : List Expr) → texts es = Outline.lines (outlines es)
  | [] => rfl
  | e :: es => by rw [texts, outlines, Outline.lines, e.text_eq_line, Expr.texts_eq_lines es]

end

theorem Outline.lines_ofToken (ts : List Token) :
    lines (ts.map ofToken) = ts.map Token.lexeme := by
  rw [lines_eq, List.map_map]
  rfl

mutual

theorem Stmt.text_eq_line : (s : Stmt) → s.text = s.outline.line
  | .expression value | .print value => by
      rw [text, value.text_eq_line]
      rfl
  | .varDecl _ none | .returnStmt _ none => rfl
  | .varDecl _ (some value) | .returnStmt _ (some value) => by
      rw [text, value.text_eq_line]
      rfl
  | .block body => by
      rw [text, Stmt.texts_eq_lines body]
      rfl
  | .ifElse condition whenTrue none => by
      rw [text, condition.text_eq_line, whenTrue.text_eq_line]
      rfl
  | .ifElse condition whenTrue (some whenFalse) => by
      rw [text, condition.text_eq_line, whenTrue.text_eq_line, whenFalse.text_eq_line]
      rfl
  | .whileLoop condition body => by
      rw [text, condition.text_eq_line, body.text_eq_line]
      rfl
  | .funDecl name params body => by
      rw [text, Stmt.texts_eq_lines body, parenthesize_eq, ← Outline.lines_ofToken]
      rfl

theorem Stmt.texts_eq_lines : (body : List Stmt) → texts body = Outline.lines (outlines body)
  | [] => rfl
  | s :: body => by rw [texts, outlines, Outline.lines, s.text_eq_line, Stmt.texts_eq_lines body]

end

abbrev Node := Expr ⊕ Stmt

def Node.text (node : Node) : String := node.elim Expr.text Stmt.text

def Node.outline (node : Node) : Outline := node.elim Expr.outline Stmt.outline

/-- The text of every node is read off the labels and the leaves of its outline, so that nodes have
the same text whose outlines differ at most in their lines. -/
theorem Node.outline_shows_text :
    (∀ node : Node, node.text = node.outline.line) ∧
      (∀ t t' : Outline, t.SameButLines t' → t.line = t'.line) ∧
      ∀ a b : Node, a.outline.SameButLines b.outline → a.text = b.text := by
  have line : ∀ node : Node, node.text = node.outline.line := by
    rintro (e | s)
    · exact e.text_eq_line
    · exact s.text_eq_line
  refine ⟨line, fun t t' same => same.line_eq, fun a b same => ?_⟩
  rw [line a, line b, same.line_eq]

theorem Node.outline_shows_text_print :
    let print (line : Nat) : Node := .inr (.print (.variable ⟨.identifier, "x", .nil, line⟩))
    (print 1).outline.SameButLines (print 3).outline ∧ (print 1).text = (print 3).text := by
  intro print
  have same : (print 1).outline.SameButLines (print 3).outline := .node (.cons .leaf .nil)
  exact ⟨same, outline_shows_text.2.2 _ _ same⟩

end Lox
