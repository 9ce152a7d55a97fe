import Lox.Proofs.Grammar
import Lox.Proofs.Tokens

namespace Lox

theorem Stmt.mapTokens_forLoop (g : Token → Token) (initializer : Option Stmt)
    (condition increment : Option Expr) (body : Stmt) :
    (Stmt.forLoop initializer condition increment body).mapTokens g =
      .forLoop (initializer.map (mapTokens g)) (condition.map (Expr.mapTokens g))
        (increment.map (Expr.mapTokens g)) (body.mapTokens g) := by
  cases initializer <;> cases condition <;> cases increment <;> rfl

namespace Grammar

structure Keeps (g : Token → Token) : Prop where
  kind (t : Token) : (g t).kind = t.kind
  literal (t : Token) : (g t).literal = t.literal

variable {g : Token → Token}

theorem Keeps.of_kind (keeps : Keeps g) {kind : Token.Kind} {t : Token} (h : t.kind = kind) :
    (g t).kind = kind :=
  (keeps.kind t).trans h

theorem Keeps.constant? (keeps : Keeps g) (t : Token) : constant? (g t) = constant? t := by
  unfold Grammar.constant?
  rw [keeps.kind, keeps.literal]

theorem mapTokens_joined (p : Parser.Precedence) (a : Expr) (op : Token) (b : Expr) :
    (joined p a op b).mapTokens g = joined p (a.mapTokens g) (g op) (b.mapTokens g) := by
  unfold joined
  split <;> rfl

mutual

theorem Phrase.mapTokens (keeps : Keeps g) {n : Nat} {l : Parser.Level} {ts : List Token}
    {e : Expr} : Phrase n l ts e → Phrase n l (ts.map g) (e.mapTokens g)
  | .tighter next inner => .tighter next (inner.mapTokens keeps)
  | .assign target mark value =>
      .assign (keeps.of_kind target) (keeps.of_kind mark) (value.mapTokens keeps)
  | @Phrase.operator _ p _ _ a op _ b left strength next right => by
      rw [List.map_append, List.map_cons, mapTokens_joined]
      exact .operator (left.mapTokens keeps) ((congrArg strength? (keeps.kind op)).trans strength)
        next (right.mapTokens keeps)
  | .unary sign operand => .unary (sign.imp keeps.of_kind keeps.of_kind) (operand.mapTokens keeps)
  | .call callee opens arguments few closes => by
      rw [List.map_append, List.map_append, List.map_cons, Expr.mapTokens, Expr.mapAllTokens_eq]
      exact .call (callee.mapTokens keeps) (keeps.of_kind opens) (arguments.mapTokens keeps)
        (by simpa using few) (keeps.of_kind closes)
  | .literal value => .literal ((keeps.constant? _).trans value)
  | .name identifier => .name (keeps.of_kind identifier)
  | .grouping opens inner closes => by
      rw [List.map_append, List.map_cons]
      exact .grouping (keeps.of_kind opens) (inner.mapTokens keeps) (keeps.of_kind closes)

theorem Arguments.mapTokens (keeps : Keeps g) {n : Nat} {ts : List Token} {es : List Expr} :
    Arguments n ts es → Arguments n (ts.map g) (es.map (Expr.mapTokens g))
  | .none => .none
  | .last item => .last (item.mapTokens keeps)
  | .more item mark others => by
      rw [List.map_append, List.map_cons]
      exact .more (item.mapTokens keeps) (keeps.of_kind mark) (others.mapTokens keeps)

end

theorem Clause.mapTokens (keeps : Keeps g) {n : Nat} {ts : List Token} {o : Option Expr} :
    Clause n ts o → Clause n (ts.map g) (o.map (Expr.mapTokens g))
  | .absent => .absent
  | .present value => .present (value.mapTokens keeps)

theorem Parameters.mapTokens (keeps : Keeps g) {ts names : List Token} :
    Parameters ts names → Parameters (ts.map g) (names.map g)
  | .none => .none
  | .last item => .last (keeps.of_kind item)
  | .more item mark others =>
      .more (keeps.of_kind item) (keeps.of_kind mark) (others.mapTokens keeps)

theorem Variable.mapTokens (keeps : Keeps g) {n : Nat} {ts : List Token} {s : Stmt} :
    Variable n ts s → Variable n (ts.map g) (s.mapTokens g)
  | .plain identifier closes => .plain (keeps.of_kind identifier) (keeps.of_kind closes)
  | .initialized identifier mark value closes => by
      rw [List.map_append, List.map_cons, List.map_cons]
      exact .initialized (keeps.of_kind identifier) (keeps.of_kind mark) (value.mapTokens keeps)
        (keeps.of_kind closes)

theorem Initializer.mapTokens (keeps : Keeps g) {n : Nat} {ts : List Token} {o : Option Stmt} :
    Initializer n ts o → Initializer n (ts.map g) (o.map (Stmt.mapTokens g))
  | .absent closes => .absent (keeps.of_kind closes)
  | .declaration var rest => .declaration (keeps.of_kind var) (rest.mapTokens keeps)
  | .expression value closes => by
      rw [List.map_append]
      exact .expression (value.mapTokens keeps) (keeps.of_kind closes)

mutual

theorem Declaration.mapTokens (keeps : Keeps g) {n : Nat} {f : Bool} {ts : List Token}
    {s : Stmt} : Declaration n f ts s → Declaration n f (ts.map g) (s.mapTokens g)
  | .varDecl var rest => .varDecl (keeps.of_kind var) (rest.mapTokens keeps)
  | .funDecl fn identifier opens parameters few closes begins inside ends => by
      simp only [List.map_append, List.map_cons, List.map_nil, Stmt.mapTokens,
        Stmt.mapAllTokens_eq]
      exact .funDecl (keeps.of_kind fn) (keeps.of_kind identifier) (keeps.of_kind opens)
        (parameters.mapTokens keeps) (by simpa using few) (keeps.of_kind closes)
        (keeps.of_kind begins) (inside.mapTokens keeps) (keeps.of_kind ends)
  | .statement plain => .statement (plain.mapTokens keeps)

theorem Statement.mapTokens (keeps : Keeps g) {n : Nat} {f c : Bool} {ts : List Token}
    {s : Stmt} : Statement n f c ts s → Statement n f c (ts.map g) (s.mapTokens g)
  | .expression value closes => by
      rw [List.map_append]
      exact .expression (value.mapTokens keeps) (keeps.of_kind closes)
  | .print word value closes => by
      rw [List.map_append, List.map_cons]
      exact .print (keeps.of_kind word) (value.mapTokens keeps) (keeps.of_kind closes)
  | .block begins inside ends => by
      rw [List.map_append, List.map_cons, Stmt.mapTokens, Stmt.mapAllTokens_eq]
      exact .block (keeps.of_kind begins) (inside.mapTokens keeps) (keeps.of_kind ends)
  | .ifThen ifs opens condition closes whenTrue => by
      simp only [List.map_append, List.map_cons, Stmt.mapTokens]
      exact .ifThen (keeps.of_kind ifs) (keeps.of_kind opens) (condition.mapTokens keeps)
        (keeps.of_kind closes) (whenTrue.mapTokens keeps)
  | .ifElse ifs opens condition closes whenTrue elses whenFalse => by
      simp only [List.map_append, List.map_cons, Stmt.mapTokens]
      exact .ifElse (keeps.of_kind ifs) (keeps.of_kind opens) (condition.mapTokens keeps)
        (keeps.of_kind closes) (whenTrue.mapTokens keeps) (keeps.of_kind elses)
        (whenFalse.mapTokens keeps)
  | .whileLoop whiles opens condition closes body => by
      simp only [List.map_append, List.map_cons, Stmt.mapTokens]
      exact .whileLoop (keeps.of_kind whiles) (keeps.of_kind opens) (condition.mapTokens keeps)
        (keeps.of_kind closes) (body.mapTokens keeps)
  | .forLoop fors opens initializer test mark increment closes body => by
      simp only [List.map_append, List.map_cons, Stmt.mapTokens_forLoop]
      exact .forLoop (keeps.of_kind fors) (keeps.of_kind opens) (initializer.mapTokens keeps)
        (test.mapTokens keeps) (keeps.of_kind mark) (increment.mapTokens keeps)
        (keeps.of_kind closes) (body.mapTokens keeps)
  | .returnStmt returns result closes => by
      rw [List.map_append, List.map_cons]
      exact .returnStmt (keeps.of_kind returns) (result.mapTokens keeps) (keeps.of_kind closes)

theorem Declarations.mapTokens (keeps : Keeps g) {n : Nat} {f : Bool} {ts : List Token}
    {body : List Stmt} :
    Declarations n f ts body → Declarations n f (ts.map g) (body.map (Stmt.mapTokens g))
  | .nil => .nil
  | .cons head tail => by
      rw [List.map_append]
      exact .cons (head.mapTokens keeps) (tail.mapTokens keeps)

end

theorem Declarations.append {n : Nat} {f : Bool} {ts us : List Token} {body more : List Stmt}
    (first : Declarations n f ts body) (second : Declarations n f us more) :
    Declarations n f (ts ++ us) (body ++ more) := by
  induction body generalizing ts with
  | nil =>
      cases first
      exact second
  | cons s body ih =>
      cases first with
      | cons head tail =>
          rw [List.append_assoc]
          exact .cons head (ih tail)

end Grammar

end Lox
