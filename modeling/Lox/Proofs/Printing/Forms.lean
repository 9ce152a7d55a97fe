import Lox.Proofs.Parts
import Lox.Proofs.Printing.Marks

namespace Lox

mutual

def Expr.form : Expr → Form
  | .literal value => .word value.text
  | .grouping inner => .group [.word "group", inner.form]
  | .unary operator operand => .group [.word operator.lexeme, operand.form]
  | .binary left operator right => .group [.word operator.lexeme, left.form, right.form]
  | .logical left operator right => .group [.word operator.lexeme, left.form, right.form]
  | .variable name => .word name.lexeme
  | .assign name value => .group [.word "=", .word name.lexeme, value.form]
  | .call callee _ arguments => .group (.word "call" :: callee.form :: Expr.forms arguments)

def Expr.forms : List Expr → List Form
  | [] => []
  | e :: rest => e.form :: Expr.forms rest

end

mutual

def Stmt.form : Stmt → Form
  | .expression value => .group [.word ";", value.form]
  | .print value => .group [.word "print", value.form]
  | .varDecl name none => .group [.word "var", .word name.lexeme]
  | .varDecl name (some value) =>
      .group [.word "var", .word name.lexeme, .word "=", value.form]
  | .block body => .group (.word "block" :: Stmt.forms body)
  | .ifElse condition whenTrue none => .group [.word "if", condition.form, whenTrue.form]
  | .ifElse condition whenTrue (some whenFalse) =>
      .group [.word "if-else", condition.form, whenTrue.form, whenFalse.form]
  | .whileLoop condition body => .group [.word "while", condition.form, body.form]
  | .funDecl name params body =>
      .group (.word "fun" :: .word name.lexeme ::
        .group (params.map fun param => .word param.lexeme) :: Stmt.forms body)
  | .returnStmt _ none => .group [.word "return"]
  | .returnStmt _ (some value) => .group [.word "return", value.form]

def Stmt.forms : List Stmt → List Form
  | [] => []
  | s :: rest => s.form :: Stmt.forms rest

end

open Mark

def Expr.Worded : Expr → Prop
  | .literal value => IsWord value.text
  | .unary operator _ | .binary _ operator _ | .logical _ operator _ => IsWord operator.lexeme
  | .variable name | .assign name _ => IsWord name.lexeme
  | .grouping _ | .call _ _ _ => True

def Stmt.Worded : Stmt → Prop
  | .varDecl name _ => IsWord name.lexeme
  | .funDecl name params _ => IsWord name.lexeme ∧ ∀ param ∈ params, IsWord param.lexeme
  | _ => True

theorem isWord_of {s : String} (nonempty : s.toList.isEmpty = false)
    (plain : s.toList.any parts = false) : IsWord s :=
  ⟨by simpa using nonempty, fun c member => by simpa using List.any_eq_false.mp plain c member⟩

theorem read_named {s name : String} (word : IsWord s) (named : IsWord name) :
    read (s ++ " " ++ name) = Form.allMarks [.word s, .word name] := by
  rw [read_space, read_word word, read_word named]
  rfl

mutual

theorem Expr.form_shows : (e : Expr) → (∀ x ∈ e.parts, x.Worded) → e.form.Shows e.text
  | .literal _, words => Form.shows_word (words _ (.head _))
  | .grouping inner, words => by
      obtain ⟨-, words⟩ := List.forall_mem_cons.mp words
      exact Form.shows_headed (isWord_of rfl rfl) (.cons (inner.form_shows words) .nil)
  | .unary operator operand, words => by
      obtain ⟨word, words⟩ := List.forall_mem_cons.mp words
      exact Form.shows_headed word (.cons (operand.form_shows words) .nil)
  | .binary left operator right, words => by
      obtain ⟨word, words⟩ := List.forall_mem_cons.mp words
      obtain ⟨first, second⟩ := List.forall_mem_append.mp words
      exact Form.shows_headed word
        (.cons (left.form_shows first) (.cons (right.form_shows second) .nil))
  | .logical left operator right, words => by
      obtain ⟨word, words⟩ := List.forall_mem_cons.mp words
      obtain ⟨first, second⟩ := List.forall_mem_append.mp words
      exact Form.shows_headed word
        (.cons (left.form_shows first) (.cons (right.form_shows second) .nil))
  | .variable name, words => Form.shows_word (words _ (.head _))
  | .assign name value, words => by
      obtain ⟨word, words⟩ := List.forall_mem_cons.mp words
      exact Form.shows_group (read_named (isWord_of rfl rfl) word)
        (.cons (value.form_shows words) .nil)
  | .call callee paren arguments, words => by
      obtain ⟨-, words⟩ := List.forall_mem_cons.mp words
      obtain ⟨first, others⟩ := List.forall_mem_append.mp words
      exact Form.shows_headed (isWord_of rfl rfl)
        (.cons (callee.form_shows first) (Expr.forms_show arguments others))

theorem Expr.forms_show : (es : List Expr) → (∀ x ∈ Expr.allParts es, x.Worded) →
    List.Forall₂ Form.Shows (Expr.forms es) (Expr.texts es)
  | [], _ => .nil
  | e :: es, words => by
      obtain ⟨here, others⟩ := List.forall_mem_append.mp words
      exact .cons (e.form_shows here) (Expr.forms_show es others)

end

theorem read_names {names : List Token} (words : ∀ name ∈ names, IsWord name.lexeme) :
    read (" ".intercalate (names.map Token.lexeme)) =
      Form.allMarks (names.map fun name => .word name.lexeme) := by
  cases names with
  | nil => rfl
  | cons name names =>
      obtain ⟨word, words⟩ := List.forall_mem_cons.mp words
      have others : List.Forall₂ Form.Shows (names.map fun name => .word name.lexeme)
          (names.map Token.lexeme) := by
        rw [List.forall₂_map_left_iff, List.forall₂_map_right_iff, List.forall₂_same]
        exact fun name member => Form.shows_word (words name member)
      rw [List.map_cons, intercalate_cons, read_spaced, read_word word,
        Form.allMarks_of_shows others]
      rfl

mutual

theorem Stmt.form_shows : (s : Stmt) → (∀ x ∈ s.expressions, x.Worded) →
    (∀ t ∈ s.parts, t.Worded) → s.form.Shows s.text
  | .expression value, words, _ =>
      Form.shows_headed (isWord_of rfl rfl) (.cons (value.form_shows words) .nil)
  | .print value, words, _ =>
      Form.shows_headed (isWord_of rfl rfl) (.cons (value.form_shows words) .nil)
  | .varDecl name none, _, names =>
      Form.shows_group (read_named (isWord_of rfl rfl) (names _ (.head _))) .nil
  | .varDecl name (some value), words, names => by
      have named := read_named (s := "var") (isWord_of rfl rfl) (names _ (.head _))
      have head : read ("var " ++ name.lexeme ++ " =") =
          Form.allMarks [.word "var", .word name.lexeme, .word "="] := by
        have text : "var " ++ name.lexeme ++ " =" = "var" ++ " " ++ name.lexeme ++ " " ++ "=" :=
          (@String.append_assoc ("var" ++ " " ++ name.lexeme) " " "=").symm
        rw [text, read_space, named, read_word (isWord_of rfl rfl)]
        rfl
      exact Form.shows_group head (.cons (value.form_shows words) .nil)
  | .block body, words, names => by
      obtain ⟨-, names⟩ := List.forall_mem_cons.mp names
      exact Form.shows_headed (isWord_of rfl rfl) (Stmt.forms_show body words names)
  | .ifElse condition whenTrue none, words, names => by
      obtain ⟨-, names⟩ := List.forall_mem_cons.mp names
      obtain ⟨test, inside⟩ := List.forall_mem_append.mp words
      exact Form.shows_headed (isWord_of rfl rfl)
        (.cons (condition.form_shows test) (.cons (whenTrue.form_shows inside names) .nil))
  | .ifElse condition whenTrue (some whenFalse), words, names => by
      obtain ⟨-, names⟩ := List.forall_mem_cons.mp names
      obtain ⟨first, second⟩ := List.forall_mem_append.mp names
      obtain ⟨inside, other⟩ := List.forall_mem_append.mp words
      obtain ⟨test, inside⟩ := List.forall_mem_append.mp inside
      exact Form.shows_headed (isWord_of rfl rfl) (.cons (condition.form_shows test)
        (.cons (whenTrue.form_shows inside first) (.cons (whenFalse.form_shows other second) .nil)))
  | .whileLoop condition body, words, names => by
      obtain ⟨-, names⟩ := List.forall_mem_cons.mp names
      obtain ⟨test, inside⟩ := List.forall_mem_append.mp words
      exact Form.shows_headed (isWord_of rfl rfl)
        (.cons (condition.form_shows test) (.cons (body.form_shows inside names) .nil))
  | .funDecl name params body, words, names => by
      obtain ⟨⟨word, items⟩, names⟩ := List.forall_mem_cons.mp names
      have named := read_named (s := "fun") (isWord_of rfl rfl) word
      have head : read ("fun " ++ name.lexeme ++ "(" ++
            " ".intercalate (params.map Token.lexeme) ++ ")") =
          Form.allMarks [.word "fun", .word name.lexeme,
            .group (params.map fun param => .word param.lexeme)] := by
        have text : "fun " ++ name.lexeme ++ "(" ++
            " ".intercalate (params.map Token.lexeme) ++ ")" = "fun" ++ " " ++ name.lexeme ++ "(" ++
              (" ".intercalate (params.map Token.lexeme) ++ ")" ++ "") := by
          rw [String.append_empty, ← String.append_assoc]
          rfl
        rw [text, read_opens, read_closes, named, read_names items]
        simp [Form.allMarks, Form.marks, read_empty]
      exact Form.shows_group head (Stmt.forms_show body words names)
  | .returnStmt _ none, _, _ => Form.shows_headed (isWord_of rfl rfl) .nil
  | .returnStmt _ (some value), words, _ =>
      Form.shows_headed (isWord_of rfl rfl) (.cons (value.form_shows words) .nil)

theorem Stmt.forms_show : (body : List Stmt) → (∀ x ∈ Stmt.allExpressions body, x.Worded) →
    (∀ t ∈ Stmt.allParts body, t.Worded) →
      List.Forall₂ Form.Shows (Stmt.forms body) (Stmt.texts body)
  | [], _, _ => .nil
  | s :: body, words, names => by
      obtain ⟨here, others⟩ := List.forall_mem_append.mp words
      obtain ⟨first, rest⟩ := List.forall_mem_append.mp names
      exact .cons (s.form_shows here first) (Stmt.forms_show body others rest)

end

end Lox
