import Lox.Proofs.Parser.Progress

namespace Lox.Parser

variable {α β : Type}

/-- A look at a token: the number of tokens read or skipped by then, and the index of the token. -/
structure Look where
  position : Nat
  index : Int

def Look.next (position : Nat) : Look := ⟨position, position⟩

def Look.last (position : Nat) : Look := ⟨position, position - 1⟩

def skipStatementLooks (last : Token) : (rest : List Token) → (skipped : Nat) → List Look
  | [], skipped => [.next skipped]
  | t :: rest, skipped => .next skipped :: .last skipped ::
      if last.kind == .semicolon then []
      else .next skipped ::
        if t.kind.startsStatement then []
        else .last (skipped + 1) :: skipStatementLooks t rest (skipped + 1)

def State.synchronizeLooks (s : State) : List Look :=
  match s.rest with
  | [] => [.next s.position, .last s.position]
  | t :: rest => .next s.position :: .last (s.position + 1) ::
      skipStatementLooks t rest (s.position + 1)

/-- The looks of a parser from a state on, in their order. The same look twice in a row is listed
once. -/
inductive Looks : {α : Type} → Parser α → State → List Look → Prop
  | pure {α : Type} (a : α) (s : State) : Looks (pure a) s []
  | spent {α : Type} (a : α) (s : State) : Looks (Pure.pure a) s [.next s.position]
  | bind {α β : Type} {p : Parser α} {f : α → Parser β} {s m : State} {a : α}
      {looks others : List Look} (reads : p s = .ok a m) (head : Looks p s looks)
      (tail : Looks (f a) m others) : Looks (p >>= f) s (looks ++ others)
  | stops {α β : Type} {p : Parser α} {f : α → Parser β} {s m : State} {e : ParseError}
      {looks : List Look} (stop : p s = .error e m) (head : Looks p s looks) :
      Looks (p >>= f) s looks
  | remaining (s : State) : Looks remaining s []
  | position (s : State) : Looks position s []
  | note (cause : ParseError.Cause) (t : Token) (index : Nat) (s : State) :
      Looks (note cause t index) s []
  | peek (s : State) : Looks peek s [.next s.position]
  | atEnd (s : State) : Looks atEnd s [.next s.position]
  | check (kinds : Token.Kind → Bool) (s : State) : Looks (check kinds) s [.next s.position]
  | found {kinds : Token.Kind → Bool} {s m : State} {t : Token}
      (reads : accept? kinds s = .ok (some t) m) :
      Looks (accept? kinds) s [.next s.position, .last m.position]
  | other {kinds : Token.Kind → Bool} {s m : State} (stays : accept? kinds s = .ok none m) :
      Looks (accept? kinds) s [.next s.position]
  | fail {α : Type} (cause : ParseError.Cause) (s : State) :
      Looks (fail cause : Parser α) s [.next s.position]
  | failTooDeep {α : Type} (s : State) : Looks (failTooDeep : Parser α) s [.next s.position]
  | recovers {α : Type} {p : Parser α} {s m : State} {a : α} {looks : List Look}
      (reads : p s = .ok a m) (inside : Looks p s looks) : Looks (recover p) s looks
  | skips {α : Type} {p : Parser α} {s m : State} {e : ParseError} {looks : List Look}
      (stop : p s = .error e m) (inside : Looks p s looks) :
      Looks (recover p) s (looks ++ m.synchronizeLooks)

theorem Looks.orderly {p : Parser α} {s : State} {looks : List Look} (h : Looks p s looks) :
    s.Advances (final (p s)) ∧ ∀ e s', p s = .error e s' → ¬ s'.Clean := by
  induction h with
  | pure a s | spent a s => exact (Orderly.pure a).outcome s
  | remaining s => exact Orderly.remaining.outcome s
  | position s => exact Orderly.position.outcome s
  | note cause t index s => exact (Orderly.note cause t index).outcome s
  | peek s => exact Orderly.peek.outcome s
  | atEnd s => exact Orderly.atEnd.outcome s
  | check kinds s => exact (Orderly.check kinds).outcome s
  | found _ | other _ => exact (Orderly.accept? _).outcome _
  | fail cause s => exact (Orderly.fail cause).outcome s
  | failTooDeep s => exact Orderly.failTooDeep.outcome s
  | bind reads _ _ first second =>
      rw [reads] at first
      rw [bind_eq reads]
      exact ⟨first.1.trans second.1, second.2⟩
  | stops stop _ first =>
      rw [bind_stop stop]
      rw [stop] at first
      exact ⟨first.1, fun e s' same => first.2 e s' (by cases same; rfl)⟩
  | recovers reads _ inside =>
      rw [reads] at inside
      rw [recover_of_ok reads]
      exact ⟨inside.1, fun e s' run => by cases run⟩
  | skips stop _ inside =>
      obtain ⟨m', skipped, recovered⟩ := recover_of_error stop
      rw [stop] at inside
      rw [recovered]
      exact ⟨inside.1.trans (Orderly.synchronize.advances skipped), fun e s' run => by cases run⟩

def Accounted (p : Parser α) : Prop := ∀ s, ∃ looks, Looks p s looks

namespace Accounted

theorem orderly {p : Parser α} (h : Accounted p) : Orderly p := by
  refine ⟨fun {s s' a} run => ?_, fun {s s' e} run => ?_⟩
  · obtain ⟨looks, account⟩ := h s
    have advances := account.orderly.1
    rw [run] at advances
    exact advances
  · obtain ⟨looks, account⟩ := h s
    obtain ⟨advances, unclean⟩ := account.orderly
    rw [run] at advances
    exact ⟨advances, unclean e s' run⟩

theorem pure (a : α) : Accounted (pure a : Parser α) := fun s => ⟨_, .pure a s⟩

theorem spent (a : α) : Accounted (Pure.pure a : Parser α) := fun s => ⟨_, .spent a s⟩

theorem bind {p : Parser α} {f : α → Parser β} (first : Accounted p)
    (next : ∀ a, Accounted (f a)) : Accounted (p >>= f) := by
  intro s
  obtain ⟨looks, head⟩ := first s
  cases read : p s with
  | ok a m =>
      obtain ⟨others, tail⟩ := next a m
      exact ⟨_, .bind read head tail⟩
  | error e m => exact ⟨_, .stops read head⟩

theorem map {p : Parser α} (f : α → β) (h : Accounted p) : Accounted (f <$> p) := by
  rw [map_eq_pure_bind]
  exact h.bind fun a => .pure (f a)

theorem ite {c : Prop} [Decidable c] {p q : Parser α} (yes : Accounted p) (no : Accounted q) :
    Accounted (if c then p else q) := by
  split
  · exact yes
  · exact no

theorem accept? (kinds : Token.Kind → Bool) : Accounted (accept? kinds) := by
  intro s
  rcases accept?_cases kinds s with ⟨t, m, -, -, accepted⟩ | ⟨-, accepted⟩
  · exact ⟨_, .found accepted⟩
  · exact ⟨_, .other accepted⟩

theorem accept (kind : Token.Kind) : Accounted (accept kind) :=
  (accept? _).bind fun _ => .pure _

theorem check (kinds : Token.Kind → Bool) : Accounted (check kinds) := fun s => ⟨_, .check kinds s⟩

theorem atEnd : Accounted atEnd := fun s => ⟨_, .atEnd s⟩

theorem remaining : Accounted remaining := fun s => ⟨_, .remaining s⟩

theorem position : Accounted position := fun s => ⟨_, .position s⟩

theorem note (cause : ParseError.Cause) (t : Token) (index : Nat) :
    Accounted (note cause t index) := fun s => ⟨_, .note cause t index s⟩

theorem noteHere (cause : ParseError.Cause) : Accounted (noteHere cause) :=
  have peeks : Accounted peek := fun s => ⟨_, .peek s⟩
  peeks.bind fun t => position.bind fun index => note cause t index

theorem fail (cause : ParseError.Cause) : Accounted (fail cause : Parser α) :=
  fun s => ⟨_, .fail cause s⟩

theorem failTooDeep : Accounted (failTooDeep : Parser α) := fun s => ⟨_, .failTooDeep s⟩

theorem expect (kind : Token.Kind) (cause : ParseError.Cause) : Accounted (expect kind cause) :=
  (accept? _).bind fun o => match o with
    | some t => .pure t
    | none => .fail cause

theorem expectMark (mark : ParseError.Mark) (place : ParseError.Place) :
    Accounted (expectMark mark place) :=
  (expect _ _).map fun _ => ()

theorem expectName (role : ParseError.Role) : Accounted (expectName role) := expect _ _

theorem recover {p : Parser α} (h : Accounted p) : Accounted (recover p) := by
  intro s
  obtain ⟨looks, inside⟩ := h s
  cases read : p s with
  | ok a m => exact ⟨_, .recovers read inside⟩
  | error e m => exact ⟨_, .skips read inside⟩

theorem commaListAfter (role : ParseError.Role) {item : Parser α} (h : Accounted item)
    (bound : List Token) (count : Nat) (done : List α) :
    Accounted (commaListAfter role item bound count done) := by
  induction bound generalizing count done with
  | nil =>
      have round : Accounted (commaRound role item [] count done) := h.bind fun a => .spent _
      rw [commaListAfter_eq]
      exact .ite ((noteHere _).bind fun _ => round) round
  | cons t bound ih =>
      have round : Accounted (commaRound role item (t :: bound) count done) :=
        h.bind fun a => (accept _).bind fun _ => .ite (ih _ _) (.pure _)
      rw [commaListAfter_eq]
      exact .ite ((noteHere _).bind fun _ => round) round

theorem commaList (role : ParseError.Role) {item : Parser α} (h : Accounted item) :
    Accounted (commaList role item) :=
  (check _).bind fun _ => .ite (.pure _) (remaining.bind fun bound => commaListAfter role h bound 0 [])

theorem chainAfter (p : Precedence) {operand : Parser Expr} (h : Accounted operand)
    (bound : List Token) (left : Expr) : Accounted (chainAfter p operand bound left) := by
  induction bound generalizing left with
  | nil => exact .spent left
  | cons t bound ih =>
      refine (accept? _).bind fun o => ?_
      cases o with
      | none => exact .pure left
      | some op => exact h.bind fun right => ih _

theorem callsAfter {argument : Parser Expr} (h : Accounted argument) (bound : List Token)
    (callee : Expr) : Accounted (callsAfter argument bound callee) := by
  induction bound generalizing callee with
  | nil => exact .spent callee
  | cons t bound ih =>
      exact (accept _).bind fun _ => .ite
        ((commaList _ h).bind fun args => (expect _ _).bind fun paren => ih _) (.pure callee)

theorem assignTo (target : Expr) (equals : Token) (index : Nat) (value : Expr) :
    Accounted (assignTo target equals index value) := by
  unfold Parser.assignTo
  split
  · exact .pure _
  · exact (note _ _ _).bind fun _ => .pure _

theorem primary {inner : Parser Expr} (h : Accounted inner) : Accounted (primary inner) := by
  refine (accept _).bind fun _ => .ite (.pure _) ?_
  refine (accept _).bind fun _ => .ite (.pure _) ?_
  refine (accept _).bind fun _ => .ite (.pure _) ?_
  refine (accept? _).bind fun o => ?_
  cases o with
  | some t => exact .pure _
  | none =>
      refine (accept? _).bind fun o => ?_
      cases o with
      | some t => exact .pure _
      | none =>
          exact (accept _).bind fun _ => .ite
            (h.bind fun inside => (expectMark _ _).bind fun _ => .pure _) (fail _)

theorem expression (depth : Nat) (l : Level) : Accounted (expression depth l) := by
  induction depth generalizing l with
  | zero => exact failTooDeep
  | succ depth ih =>
      rcases l with _ | p | _ | _ | _
      case assignment =>
        refine (ih _).bind fun target => position.bind fun index => (accept? _).bind fun o => ?_
        cases o with
        | none => exact .pure _
        | some equals => exact (ih _).bind fun value => .assignTo _ _ _ _
      case chain =>
        exact (ih _).bind fun first => remaining.bind fun bound => chainAfter p (ih _) bound first
      case unary =>
        refine (accept? _).bind fun o => ?_
        cases o with
        | none => exact ih _
        | some op => exact (ih _).bind fun operand => .pure _
      case call =>
        exact (ih _).bind fun callee => remaining.bind fun bound => callsAfter (ih _) bound callee
      case primary => exact primary (ih _)

section
variable {e : Parser Expr} {s : Parser Stmt} {d : Parser (Option Stmt)}

theorem clause {kinds : Token.Kind → Bool} (he : Accounted e) {f : Option Expr → Parser β}
    (next : ∀ value, Accounted (f value)) :
    Accounted (do
      if ← Parser.check kinds then
        let value ← Pure.pure none
        f value
      else
        let value ← some <$> e
        f value) :=
  (check _).bind fun _ => .ite ((pure _).bind next) ((he.map _).bind next)

theorem varDeclaration (he : Accounted e) : Accounted (varDeclaration e) :=
  (expectName _).bind fun name => (accept _).bind fun _ =>
    have ends := fun value => (expectMark _ _).bind fun _ => .pure (Stmt.varDecl name value)
    .ite ((he.map _).bind ends) ((pure _).bind ends)

theorem expressionStatement (he : Accounted e) : Accounted (expressionStatement e) :=
  he.bind fun _ => (expectMark _ _).bind fun _ => .pure _

theorem printStatement (he : Accounted e) : Accounted (printStatement e) :=
  he.bind fun _ => (expectMark _ _).bind fun _ => .pure _

theorem declarationsAfter (hd : Accounted d) (bound : List Token) (done : List Stmt) :
    Accounted (declarationsAfter d bound done) := by
  induction bound generalizing done with
  | nil => exact .spent _
  | cons t bound ih =>
      refine (check _).bind fun _ => .ite (.pure _) <| atEnd.bind fun _ => .ite (.pure _) <|
        hd.bind fun o => ?_
      cases o with
      | none => exact ih _
      | some item => exact ih _

theorem block (hd : Accounted d) : Accounted (block d) :=
  remaining.bind fun bound => (declarationsAfter hd bound []).bind fun _ =>
    (expectMark _ _).bind fun _ => .pure _

theorem funDeclaration (hd : Accounted d) : Accounted (funDeclaration d) :=
  (expectName _).bind fun _ => (expectMark _ _).bind fun _ =>
    (commaList _ (expectName _)).bind fun _ => (expectMark _ _).bind fun _ =>
      (expectMark _ _).bind fun _ => (block hd).bind fun _ => .pure _

theorem ifStatement (he : Accounted e) (hs : Accounted s) : Accounted (ifStatement e s) :=
  (expectMark _ _).bind fun _ => he.bind fun _ => (expectMark _ _).bind fun _ =>
    hs.bind fun _ => (accept _).bind fun _ =>
      .ite ((hs.map _).bind fun _ => .pure _) ((pure _).bind fun _ => .pure _)

theorem whileStatement (he : Accounted e) (hs : Accounted s) : Accounted (whileStatement e s) :=
  (expectMark _ _).bind fun _ => he.bind fun _ => (expectMark _ _).bind fun _ =>
    hs.bind fun _ => .pure _

theorem forInitializer (he : Accounted e) : Accounted (forInitializer e) :=
  (accept _).bind fun _ => .ite (.pure _) <| (accept _).bind fun _ =>
    .ite ((varDeclaration he).map _) ((expressionStatement he).map _)

theorem forStatement (he : Accounted e) (hs : Accounted s) : Accounted (forStatement e s) :=
  (expectMark _ _).bind fun _ => (forInitializer he).bind fun _ =>
    clause he fun _ => (expectMark _ _).bind fun _ =>
      clause he fun _ => (expectMark _ _).bind fun _ => hs.bind fun _ => .pure _

theorem declarationWith (he : Accounted e) (hd : Accounted d) (hs : Accounted s) :
    Accounted (declarationWith e d s) :=
  (accept _).bind fun _ => .ite (varDeclaration he) <| (accept _).bind fun _ =>
    .ite (funDeclaration hd) hs

theorem returnStatement (he : Accounted e) (inFunction : Bool) (keyword : Token) (index : Nat) :
    Accounted (returnStatement inFunction e keyword index) := by
  have ends := @clause _ _ (· == .semicolon) he _ fun value =>
    (expectMark .semicolon .afterReturnValue).bind fun _ => .pure (Stmt.returnStmt keyword value)
  exact .ite ((note _ _ _).bind fun _ => ends) ends

theorem statementWith (inFunction : Bool) (he : Accounted e) (hd : Accounted d)
    (hs : Accounted s) : Accounted (statementWith inFunction e d s) := by
  refine (accept _).bind fun _ => .ite (printStatement he) <| (accept _).bind fun _ =>
    .ite ((block hd).map _) <| (accept _).bind fun _ =>
    .ite (ifStatement he hs) <| (accept _).bind fun _ =>
    .ite (whileStatement he hs) <| (accept _).bind fun _ =>
    .ite (forStatement he hs) <| position.bind fun index => (accept? _).bind fun o => ?_
  cases o with
  | none => exact expressionStatement he
  | some keyword => exact returnStatement he inFunction keyword index

end

theorem declaration_statement (depth : Nat) (inFunction : Bool) :
    Accounted (declaration depth inFunction) ∧ Accounted (statement depth inFunction) :=
  nesting_induction (D := fun _ _ d => Accounted d) (S := fun _ _ s => Accounted s)
    (fun _ => ⟨.recover .failTooDeep, .failTooDeep⟩)
    (fun depth _ hd hs => .recover (.declarationWith (expression depth _) hd hs))
    (fun depth inFunction hd hs => .statementWith inFunction (expression depth _) hd hs)
    depth inFunction

theorem program (depth : Nat) : Accounted (program depth) := by
  refine remaining.bind fun bound => ?_
  generalize [] = done
  induction bound generalizing done with
  | nil => exact .spent _
  | cons t bound ih =>
      exact atEnd.bind fun _ => .ite (.pure _) <|
        (declaration_statement depth false).1.bind fun _ => ih _

end Accounted

end Lox.Parser
