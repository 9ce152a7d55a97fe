import Lox.Program
import Lox.Proofs.Parser.Consumption
import Lox.Proofs.Parser.Span

/-!
Counting what blocks leave out. `Tally.parse` reads as `parse` does and counts the declarations
with errors that are left out of blocks, wherever these are; those at top level are seen in the
answer. The errors that stop are as many as both together.
-/

namespace Lox.Parser
open Grammar (height faces)

variable {α β : Type}

abbrev Tally (α : Type) := EStateM ParseError (State × Nat) α

namespace Tally

def lift (p : Parser α) : Tally α := fun (s, n) =>
  match p s with
  | .ok a s' => .ok a (s', n)
  | .error e s' => .error e (s', n)

def tick : Tally Unit := modify fun (s, n) => (s, n + 1)

def recover (p : Tally α) : Tally (Option α) :=
  tryCatch (some <$> p) fun _ => do
    lift synchronize
    return none

def declarationsAfter (declaration : Tally (Option Stmt)) :
    (bound : List Token) → (done : List Stmt) → Tally (List Stmt)
  | [], done => return done.reverse
  | _ :: bound, done => do
      if ← lift (check (· == .rightBrace)) then return done.reverse
      if ← lift atEnd then return done.reverse
      match ← declaration with
      | some item => declarationsAfter declaration bound (item :: done)
      | none => do
          tick
          declarationsAfter declaration bound done

def block (declaration : Tally (Option Stmt)) : Tally (List Stmt) := do
  let body ← declarationsAfter declaration (← lift remaining) []
  lift (expectMark .rightBrace .afterBlock)
  return body

def funDeclaration (declaration : Tally (Option Stmt)) : Tally Stmt := do
  let name ← lift (expectName .function)
  lift (expectMark .leftParen .afterFunctionName)
  let params ← lift (commaList .parameter (expectName .parameter))
  lift (expectMark .rightParen .afterParameters)
  lift (expectMark .leftBrace .beforeFunctionBody)
  return .funDecl name params (← block declaration)

def ifStatement (expression : Parser Expr) (statement : Tally Stmt) : Tally Stmt := do
  lift (expectMark .leftParen .afterIf)
  let condition ← lift expression
  lift (expectMark .rightParen .afterIfCondition)
  let whenTrue ← statement
  let whenFalse ← if ← lift (accept .elseWord) then some <$> statement else pure none
  return .ifElse condition whenTrue whenFalse

def whileStatement (expression : Parser Expr) (statement : Tally Stmt) : Tally Stmt := do
  lift (expectMark .leftParen .afterWhile)
  let condition ← lift expression
  lift (expectMark .rightParen .afterCondition)
  return .whileLoop condition (← statement)

def forStatement (expression : Parser Expr) (statement : Tally Stmt) : Tally Stmt := do
  lift (expectMark .leftParen .afterFor)
  let initializer ← lift (forInitializer expression)
  let condition ←
    if ← lift (check (· == .semicolon)) then pure none else some <$> lift expression
  lift (expectMark .semicolon .afterLoopCondition)
  let increment ←
    if ← lift (check (· == .rightParen)) then pure none else some <$> lift expression
  lift (expectMark .rightParen .afterForClauses)
  return .forLoop initializer condition increment (← statement)

mutual

def declaration : (depth : Nat) → (inFunction : Bool) → Tally (Option Stmt)
  | 0, _ => recover (lift failTooDeep)
  | depth + 1, inFunction => recover do
      if ← lift (accept .varWord) then lift (varDeclaration (expression depth .assignment))
      else if ← lift (accept .funWord) then funDeclaration (declaration depth true)
      else statement depth inFunction

def statement : (depth : Nat) → (inFunction : Bool) → Tally Stmt
  | 0, _ => lift failTooDeep
  | depth + 1, inFunction => do
      if ← lift (accept .printWord) then lift (printStatement (expression depth .assignment))
      else if ← lift (accept .leftBrace) then .block <$> block (declaration depth inFunction)
      else if ← lift (accept .ifWord) then
        ifStatement (expression depth .assignment) (statement depth inFunction)
      else if ← lift (accept .whileWord) then
        whileStatement (expression depth .assignment) (statement depth inFunction)
      else if ← lift (accept .forWord) then
        forStatement (expression depth .assignment) (statement depth inFunction)
      else lift do
        let index ← position
        match ← accept? (· == .returnWord) with
        | some keyword =>
            returnStatement inFunction (expression depth .assignment) keyword index
        | none => expressionStatement (expression depth .assignment)

end

def programAfter (depth : Nat) :
    (bound : List Token) → (done : List (Option Stmt)) → Tally (List (Option Stmt))
  | [], done => return done.reverse
  | _ :: bound, done => do
      if ← lift atEnd then return done.reverse
      programAfter depth bound ((← declaration depth false) :: done)

def parse (depth : Nat) (tokens : List Token) (eof : Token) :
    (List (Option Stmt) × List ParseError) × Nat :=
  match programAfter depth tokens [] (start tokens eof, 0) with
  | .ok items (s, count) => ((items, s.errors.toList), count)
  | .error _ (s, count) => (([], s.errors.toList), count)

end Tally

/-! ## Counting agrees with reading -/

theorem Tally.lift_ok {p : Parser α} {s s' : State} {a : α} {count : Nat} (h : p s = .ok a s') :
    Tally.lift p (s, count) = .ok a (s', count) := by
  simp only [Tally.lift, h]

theorem Tally.lift_error {p : Parser α} {s s' : State} {e : ParseError} {count : Nat}
    (h : p s = .error e s') : Tally.lift p (s, count) = .error e (s', count) := by
  simp only [Tally.lift, h]

theorem Tally.recover_of_ok {q : Tally α} {s s' : State × Nat} {a : α} (h : q s = .ok a s') :
    Tally.recover q s = .ok (some a) s' := by
  simp only [Tally.recover, tryCatch, tryCatchThe, MonadExceptOf.tryCatch, EStateM.tryCatch,
    map_eq h]

theorem Tally.recover_of_error {q : Tally α} {s : State × Nat} {m s' : State} {count : Nat}
    {e : ParseError} (h : q s = .error e (m, count)) (skips : synchronize m = .ok () s') :
    Tally.recover q s = .ok none (s', count) := by
  simp only [Tally.recover, tryCatch, tryCatchThe, MonadExceptOf.tryCatch, EStateM.tryCatch,
    Functor.map, EStateM.map, h]
  exact (bind_eq (lift_ok skips)).trans rfl

def dropped : Option α → Nat
  | some _ => 0
  | none => 1

theorem countP_dropped (item : Option α) (items : List (Option α)) :
    (item :: items).countP (·.isNone) = dropped item + items.countP (·.isNone) := by
  cases item <;> simp [dropped, Nat.add_comm]

/-- How a parser ends that starts from `s`, and the one that counts. The errors that stopped are
those counted and what `own` says of the value. -/
inductive Tally.Ends (nested : Bool) (own : α → Nat) (s : State) (count : Nat) :
    EStateM.Result ParseError State α → EStateM.Result ParseError (State × Nat) α → Prop
  | ok {a s' n} (leads : s.Leads nested (n + own a) s') :
      Ends nested own s count (.ok a s') (.ok a (s', count + n))
  | error {e m s' n} (leads : s.Leads nested n m) (raises : m.Raises e s') :
      Ends nested own s count (.error e s') (.error e (s', count + n))

namespace Tally.Ends

variable {nested : Bool} {own : α → Nat} {s m : State} {n count : Nat}
  {r : EStateM.Result ParseError State α} {r' : EStateM.Result ParseError (State × Nat) α}

theorem after (first : s.Leads nested n m) (h : Ends nested own m (count + n) r r') :
    Ends nested own s count r r' := by
  cases h with
  | ok leads =>
      rw [Nat.add_assoc]
      refine .ok ?_
      rw [Nat.add_assoc]
      exact first.trans leads
  | error leads raises =>
      rw [Nat.add_assoc]
      exact .error (first.trans leads) raises

theorem inside {t : Token} (reads : s.Reads [t] m) (brace : t.kind = .leftBrace)
    (h : Ends false own m count r r') : Ends nested own s count r r' := by
  cases h with
  | ok leads => exact .ok (.braced reads brace leads)
  | error leads raises => exact .error (.braced reads brace leads) raises

end Tally.Ends

/-- `q` reads as `p` does and counts, where there is `room` for the tokens that are left. -/
def Tallied (room : Nat) (nested : Bool) (own : α → Nat) (p : Parser α) (q : Tally α) : Prop :=
  ∀ (s : State) (count : Nat), 10 * s.rest.length ≤ room →
    Tally.Ends nested own s count (p s) (q (s, count))

namespace Tallied

variable {room : Nat} {nested : Bool} {own : α → Nat}

theorem lift {p : Parser α} (h : Steady room p) :
    Tallied room nested (fun _ => 0) p (Tally.lift p) := by
  intro s count fits
  have ended := h s fits
  simp only [Tally.lift]
  generalize p s = r at ended
  cases ended with
  | ok leads => exact .ok (n := 0) leads.weaken
  | error leads raises => exact .error (n := 0) leads.weaken raises

theorem pure (a : α) : Tallied room nested (fun _ => 0) (Pure.pure a) (Pure.pure a) :=
  fun s _ _ => .ok (n := 0) (.refl s)

theorem bind {p : Parser α} {q : Tally α} {f : α → Parser β} {g : α → Tally β} {own : β → Nat}
    (first : Tallied room nested (fun _ => 0) p q)
    (next : ∀ a, Tallied room nested own (f a) (g a)) :
    Tallied room nested own (p >>= f) (q >>= g) := by
  intro s count fits
  have ended := first s count fits
  simp only [Bind.bind, EStateM.bind]
  generalize p s = r at ended
  generalize q (s, count) = r' at ended
  cases ended with
  | @ok a m n leads =>
      exact (next a m (count + n) (by have := leads.length_le; omega)).after leads
  | error leads raises => exact .error leads raises

theorem map {p : Parser α} {q : Tally α} (f : α → β) (h : Tallied room nested (fun _ => 0) p q) :
    Tallied room nested (fun _ => 0) (f <$> p) (f <$> q) := by
  rw [map_eq_pure_bind, map_eq_pure_bind]
  exact h.bind fun a => .pure (f a)

theorem ite {c : Prop} [Decidable c] {p p' : Parser α} {q q' : Tally α}
    (yes : Tallied room nested own p q) (no : Tallied room nested own p' q') :
    Tallied room nested own (if c then p else p') (if c then q else q') := by
  split
  · exact yes
  · exact no

theorem accepting {kind : Token.Kind} {p p' : Parser α} {q q' : Tally α}
    (yes : ∀ {s m : State} {t : Token} (count : Nat), t.kind = kind → s.Reads [t] m →
      10 * m.rest.length + 10 ≤ room → Tally.Ends nested own s count (p m) (q (m, count)))
    (no : Tallied room nested own p' q') :
    Tallied room nested own (do if ← Parser.accept kind then p else p')
      (do if ← Tally.lift (Parser.accept kind) then q else q') := by
  intro s count fits
  rcases accept_cases kind s with ⟨t, m, same, reads, accepted⟩ | ⟨-, accepted⟩
  · have taken := reads.length_one
    rw [bind_eq accepted, bind_eq (Tally.lift_ok accepted), if_pos rfl, if_pos rfl]
    exact yes count same reads (by omega)
  · rw [bind_eq accepted, bind_eq (Tally.lift_ok accepted), if_neg Bool.false_ne_true,
      if_neg Bool.false_ne_true]
    exact no s count fits

theorem branch {kind : Token.Kind} {p p' : Parser α} {q q' : Tally α}
    (yes : ∀ less, less + 10 ≤ room → Tallied less nested own p q)
    (no : Tallied room nested own p' q') :
    Tallied room nested own (do if ← Parser.accept kind then p else p')
      (do if ← Tally.lift (Parser.accept kind) then q else q') :=
  accepting (fun count _ reads fits =>
    .after (n := 0) (.of_reads reads) (yes _ fits _ count le_rfl)) no

theorem braces {p p' : Parser α} {q q' : Tally α}
    (yes : ∀ less, less + 10 ≤ room → Tallied less false own p q)
    (no : Tallied room nested own p' q') :
    Tallied room nested own (do if ← Parser.accept .leftBrace then p else p')
      (do if ← Tally.lift (Parser.accept .leftBrace) then q else q') :=
  accepting (fun count brace reads fits => .inside reads brace (yes _ fits _ count le_rfl)) no

theorem afterBrace {place : ParseError.Place} {p : Parser α} {q : Tally α}
    (h : Tallied room false own p q) :
    Tallied room nested own (expectMark .leftBrace place >>= fun _ => p)
      (Tally.lift (expectMark .leftBrace place) >>= fun _ => q) := by
  intro s count fits
  rcases accept_cases .leftBrace s with ⟨t, m, brace, reads, -⟩ | ⟨no, -⟩
  · have read : expectMark .leftBrace place s = .ok () m := expectMark_reads .leftBrace reads brace
    have taken := reads.length_one
    rw [bind_eq read, bind_eq (Tally.lift_ok read)]
    exact .inside reads brace (h m count (by omega))
  · have read := expectMark_fails .leftBrace place no
    rw [fail_eq] at read
    rw [bind_error.mpr (.inl read), bind_error.mpr (.inl (Tally.lift_error read))]
    exact .error (n := 0) (.refl s) ⟨rfl, rfl, rfl, rfl⟩

theorem recover {p : Parser α} {q : Tally α} (h : Tallied room nested (fun _ => 0) p q) :
    Tallied room false dropped (recover p) (Tally.recover q) := by
  intro s count fits
  have ended := h s count fits
  cases read : p s with
  | ok a m =>
      rw [read] at ended
      rw [recover_of_ok read]
      cases read' : q (s, count) with
      | error e m' =>
          rw [read'] at ended
          cases ended
      | ok b m' =>
          rw [read'] at ended
          rw [Tally.recover_of_ok read']
          cases ended with
          | ok leads => exact .ok leads.unnest
  | error e m =>
      obtain ⟨s', skips, recovered⟩ := recover_of_error read
      rw [read] at ended
      rw [recovered]
      cases read' : q (s, count) with
      | ok b m' =>
          rw [read'] at ended
          cases ended
      | error e' m' =>
          rw [read'] at ended
          cases ended with
          | error leads raises =>
              rw [Tally.recover_of_error read' skips]
              exact .ok (leads.unnest.trans (.of_raises raises skips))

theorem declarationsAfter {d : Parser (Option Stmt)} {d' : Tally (Option Stmt)}
    (hd : Tallied room false dropped d d') (bound : List Token)
    (done : List Stmt) :
    Tallied room false (fun _ => 0) (declarationsAfter d bound done)
      (Tally.declarationsAfter d' bound done) := by
  induction bound generalizing done with
  | nil => exact .pure _
  | cons t bound ih =>
      refine (lift (.check _)).bind fun _ => .ite (.pure _) <|
        (lift .atEnd).bind fun _ => .ite (.pure _) ?_
      intro s count fits
      have ended := hd s count fits
      simp only [Bind.bind, EStateM.bind]
      generalize d s = r at ended
      generalize d' (s, count) = r' at ended
      cases ended with
      | error leads raises => exact .error leads raises
      | @ok o m n leads =>
          have fits : 10 * m.rest.length ≤ room := by
            have le := leads.length_le
            omega
          cases o with
          | some item => exact (ih (item :: done) m (count + n) fits).after leads
          | none => exact (ih done m (count + (n + 1)) fits).after leads

theorem block {d : Parser (Option Stmt)} {d' : Tally (Option Stmt)}
    (hd : Tallied room false dropped d d') :
    Tallied room false (fun _ => 0) (block d) (Tally.block d') :=
  (lift .remaining).bind fun bound => (declarationsAfter hd bound []).bind fun _ =>
    (lift (.expectMark _ _)).bind fun _ => .pure _

theorem funDeclaration {d : Parser (Option Stmt)} {d' : Tally (Option Stmt)}
    (hd : Tallied room false dropped d d') :
    Tallied room nested (fun _ => 0) (funDeclaration d) (Tally.funDeclaration d') :=
  (lift (.expectName _)).bind fun _ => (lift (.expectMark _ _)).bind fun _ =>
    (lift (.commaList _ (.expectName _))).bind fun _ => (lift (.expectMark _ _)).bind fun _ =>
      afterBrace <| (block hd).bind fun _ => .pure _

theorem clause {e : Parser Expr} {kinds : Token.Kind → Bool} {f : Option Expr → Parser β}
    {g : Option Expr → Tally β} {own : β → Nat} (he : Steady room e)
    (next : ∀ value, Tallied room nested own (f value) (g value)) :
    Tallied room nested own
      (do
        if ← Parser.check kinds then
          let value ← Pure.pure none
          f value
        else
          let value ← some <$> e
          f value)
      (do
        if ← Tally.lift (Parser.check kinds) then
          let value ← Pure.pure none
          g value
        else
          let value ← some <$> Tally.lift e
          g value) :=
  (lift (.check _)).bind fun _ => .ite ((pure _).bind next) (((lift he).map _).bind next)

section
variable {e : Parser Expr} {p : Parser Stmt} {q : Tally Stmt} (he : Steady room e)
  (hs : Tallied room nested (fun _ => 0) p q)
include he hs

theorem ifStatement : Tallied room nested (fun _ => 0) (ifStatement e p) (Tally.ifStatement e q) :=
  (lift (.expectMark _ _)).bind fun _ => (lift he).bind fun _ =>
    (lift (.expectMark _ _)).bind fun _ => hs.bind fun _ => (lift (.accept _)).bind fun _ =>
      .ite ((hs.map _).bind fun _ => .pure _) ((pure _).bind fun _ => .pure _)

theorem whileStatement :
    Tallied room nested (fun _ => 0) (whileStatement e p) (Tally.whileStatement e q) :=
  (lift (.expectMark _ _)).bind fun _ => (lift he).bind fun _ =>
    (lift (.expectMark _ _)).bind fun _ => hs.bind fun _ => .pure _

theorem forStatement :
    Tallied room nested (fun _ => 0) (forStatement e p) (Tally.forStatement e q) :=
  (lift (.expectMark _ _)).bind fun _ => (lift he.forInitializer).bind fun _ =>
    clause he fun _ => (lift (.expectMark _ _)).bind fun _ =>
      clause he fun _ => (lift (.expectMark _ _)).bind fun _ => hs.bind fun _ => .pure _

end

theorem declarationWith {e : Parser Expr} {d : Parser (Option Stmt)} {d' : Tally (Option Stmt)}
    {p : Parser Stmt} {q : Tally Stmt} (he : Steady room e)
    (hd : ∀ less, less + 10 ≤ room → Tallied less false dropped d d')
    (hs : Tallied room true (fun _ => 0) p q) :
    Tallied room true (fun _ => 0) (declarationWith e d p)
      (do
        if ← Tally.lift (Parser.accept .varWord) then Tally.lift (Parser.varDeclaration e)
        else if ← Tally.lift (Parser.accept .funWord) then Tally.funDeclaration d'
        else q) :=
  (lift (.accept _)).bind fun _ => .ite (lift he.varDeclaration) <|
    branch (fun less le => funDeclaration (hd less le)) hs

theorem declaration_statement (depth : Nat) (inFunction : Bool) :
    (∀ room, room + 12 ≤ depth → Tallied room false dropped
        (declaration depth inFunction) (Tally.declaration depth inFunction)) ∧
      ∀ room, room + 11 ≤ depth → Tallied room true (fun _ => 0) (statement depth inFunction)
        (Tally.statement depth inFunction) := by
  refine nesting_induction
    (D := fun n f d => ∀ room, room + 12 ≤ n → Tallied room false dropped d (Tally.declaration n f))
    (S := fun n f p => ∀ room, room + 11 ≤ n →
      Tallied room true (fun _ => 0) p (Tally.statement n f))
    ?tooDeep ?declares ?states depth inFunction
  case tooDeep => exact fun _ => ⟨fun room fits => by omega, fun room fits => by omega⟩
  case declares =>
    intro depth inFunction hd hs room fits
    exact recover (declarationWith (.expression depth _ (by simp only [height]; omega))
      (fun less le => hd less (by omega)) (hs room (by omega)))
  case states =>
    intro depth inFunction hd hs room fits
    have he : ∀ less, less ≤ room → Steady less (expression depth .assignment) :=
      fun less le => .expression depth .assignment (by simp only [height]; omega)
    refine branch (fun less le => lift (he less (by omega)).printStatement) ?_
    refine braces (fun less le => (block (hd less (by omega))).map _) ?_
    refine branch (fun less le => ifStatement (he less (by omega)) (hs less (by omega))) ?_
    refine branch (fun less le => whileStatement (he less (by omega)) (hs less (by omega))) ?_
    refine branch (fun less le => forStatement (he less (by omega)) (hs less (by omega))) ?_
    exact lift ((he room le_rfl).simpleStatement inFunction)

theorem construct (depth : Nat) (inFunction : Bool) (fits : room + 12 ≤ depth) :
    ∃ q, Tallied room true (fun _ => 0) (construct depth inFunction) q := by
  cases depth with
  | zero => omega
  | succ depth =>
      exact ⟨_, declarationWith (.expression depth _ (by simp only [height]; omega))
        (fun less le => (declaration_statement depth true).1 less (by omega))
        ((declaration_statement depth inFunction).2 room (by omega))⟩

theorem programAfter (depth : Nat) (bound : List Token) (done : List (Option Stmt)) {s : State}
    (fits : 10 * s.rest.length + 12 ≤ depth) (count : Nat) :
    ∃ items s' n, Parser.programAfter depth bound done s = .ok (done.reverse ++ items) s' ∧
      Tally.programAfter depth bound done (s, count) = .ok (done.reverse ++ items) (s', count + n) ∧
      s.Leads false (n + items.countP (·.isNone)) s' := by
  induction bound generalizing done s count with
  | nil => exact ⟨[], s, 0, by rw [List.append_nil]; rfl, by rw [List.append_nil]; rfl, .refl s⟩
  | cons t bound ih =>
      rw [Parser.programAfter, Tally.programAfter, bind_eq (atEnd_eq s),
        bind_eq (Tally.lift_ok (atEnd_eq s))]
      split
      · exact ⟨[], s, 0, by rw [List.append_nil]; rfl, by rw [List.append_nil]; rfl, .refl s⟩
      · have ended := (declaration_statement depth false).1 _ fits s count le_rfl
        obtain ⟨item, m, read⟩ := declaration_total depth false s
        rw [read] at ended
        rw [bind_eq read]
        generalize counted : Tally.declaration depth false (s, count) = r at ended
        cases ended with
        | @ok _ _ n leads =>
            rw [bind_eq counted]
            have le := leads.length_le
            obtain ⟨items, s', k, program, counting, leads'⟩ :=
              ih (item :: done) (s := m) (by omega) (count + n)
            refine ⟨item :: items, s', n + k, ?_, ?_, ?_⟩
            · rw [program, List.reverse_cons, List.append_assoc]
              rfl
            · rw [counting, List.reverse_cons, List.append_assoc, Nat.add_assoc]
              rfl
            · have both := leads.trans leads'
              rwa [countP_dropped, Nat.add_add_add_comm]

end Tallied

end Lox.Parser
