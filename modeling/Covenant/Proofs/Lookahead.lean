import Covenant.Proofs.Recognition

/-! How far the parser looks. It stops at a token, with a result or with an error: it has read
the tokens before that one, and those after it have no part in what it comes to. The notion is
that of a parser that stops from a cursor on, and it has a lemma for each way in which parsers
are put together. -/

namespace Covenant.Expr

/-- A cursor with an end ahead. -/
def Cursor.Ends (c : Cursor) : Prop := ∃ t ∈ c.rest, t.token.isEnd = true

/-- A primary is an expression of every level. -/
theorem Derives.of_primary {level : Level} {ts : List Token} {n : Nat} {e : Expr}
    (h : Derives .primary ts n e) : Derives level ts n e := by
  have hunary : Derives .unary ts n e := .tighter rfl h
  have hproduct : Derives .product ts n e := .tighter rfl hunary
  have hsum : Derives .sum ts n e := .tighter rfl hproduct
  have htest : Derives .test ts n e := .tighter rfl hsum
  have hrelation : Derives .relation ts n e := .tighter rfl htest
  have hequality : Derives .equality ts n e := .tighter rfl hrelation
  have hconjunction : Derives .conjunction ts n e := .tighter rfl hequality
  have hdisjunction : Derives .disjunction ts n e := .tighter rfl hconjunction
  cases level <;> assumption

namespace Cursor

variable {c : Cursor} {t : Located} {read after : List Located} {nesting : Nat}

theorem Ends.exists_cons (h : c.Ends) : ∃ t after, c.rest = t :: after := by
  obtain ⟨t, ht, -⟩ := h
  exact List.exists_cons_of_ne_nil (List.ne_nil_of_mem ht)

/-- The end is not among tokens of which none is an end. -/
theorem Ends.of_append (h : c.Ends) (hrest : c.rest = read ++ after)
    (hread : ∀ u ∈ read, u.token ≠ .eof) : (⟨after, nesting⟩ : Cursor).Ends := by
  obtain ⟨t, ht, hend⟩ := h
  rw [hrest] at ht
  rcases List.mem_append.1 ht with ht | ht
  · rw [Token.isEnd_eq_false (hread t ht)] at hend
    cases hend
  · exact ⟨t, ht, hend⟩

theorem Ends.append (h : (⟨after, nesting⟩ : Cursor).Ends) (read : List Located) :
    (⟨read ++ after, nesting⟩ : Cursor).Ends := by
  obtain ⟨t, ht, hend⟩ := h
  exact ⟨t, List.mem_append_right _ ht, hend⟩

/-- Past a token that is not an end. -/
theorem Ends.next (hc : c.Ends) (h : c.here.token ≠ .eof) :
    c.rest = c.here :: c.next.rest ∧ c.next.nesting = c.nesting ∧ c.next.Ends := by
  obtain ⟨rest, nesting⟩ := c
  obtain ⟨t, after, rfl⟩ : ∃ t after, rest = t :: after := hc.exists_cons
  have hafter : (⟨after, nesting⟩ : Cursor).Ends :=
    hc.of_append (List.singleton_append ..).symm (List.forall_mem_singleton.2 h)
  obtain ⟨u, after, rfl⟩ : ∃ u rest, after = u :: rest := hafter.exists_cons
  exact ⟨rfl, rfl, hafter⟩

theorem here_append (hrest : c.rest = read ++ t :: after) (after' : List Located) :
    (⟨read ++ t :: after', nesting⟩ : Cursor).here = c.here := by
  cases read <;> simp [Cursor.here, hrest]

theorem second_append {u : Located} (hrest : c.rest = u :: read ++ t :: after)
    (after' : List Located) :
    (⟨u :: read ++ t :: after', nesting⟩ : Cursor).second = c.second := by
  cases read <;> simp [Cursor.second, Cursor.next, Cursor.here, hrest]

end Cursor

namespace Parser

variable {α β : Type}

/-- What a parser comes to at a cursor. -/
def stoppedAt (c : Cursor) : Except ParseError α → EStateM.Result ParseError Cursor α
  | .ok a => .ok a c
  | .error e => .error e c

/-- From a cursor on, a parser reads these tokens and stops at the next one, whatever comes
after it up to an end. A token that is reported as unexpected is the one at which it stops. -/
structure StopsAt (p : Parser α) (c : Cursor) (read : List Located) (t : Located)
    (r : Except ParseError α) : Prop where
  rest : ∃ after, c.rest = read ++ t :: after
  ne_eof : ∀ u ∈ read, u.token ≠ .eof
  run : ∀ after, (⟨t :: after, c.nesting⟩ : Cursor).Ends →
    p ⟨read ++ t :: after, c.nesting⟩ = stoppedAt ⟨t :: after, c.nesting⟩ r
  reports : ∀ expected found column, r = .error (.unexpectedToken expected found column) →
    t.token = found ∧ t.column = column

/-- From a cursor on, a parser stops without a look at what comes after. -/
def Stops (p : Parser α) (c : Cursor) : Prop := ∃ read t r, StopsAt p c read t r

section
variable {p x : Parser α} {f : α → Parser β} {c : Cursor} {read : List Located} {t : Located}
  {r : Except ParseError α}

theorem StopsAt.run_eq (h : StopsAt p c read t r) (hc : c.Ends) :
    ∃ after, c.rest = read ++ t :: after ∧ p c = stoppedAt ⟨t :: after, c.nesting⟩ r := by
  obtain ⟨after, hrest⟩ := h.rest
  refine ⟨after, hrest, ?_⟩
  rw [← h.run after (hc.of_append hrest h.ne_eof), ← hrest]

/-- A parser that looks at the token at its place and does not read it. -/
theorem stops_of_still (hc : c.Ends) (r : Located → Except ParseError α)
    (hrun : ∀ t after, p ⟨t :: after, c.nesting⟩ = stoppedAt ⟨t :: after, c.nesting⟩ (r t))
    (hreports : ∀ t expected found column, r t = .error (.unexpectedToken expected found column) →
      t.token = found ∧ t.column = column) : Stops p c := by
  obtain ⟨t, after, hrest⟩ := hc.exists_cons
  exact ⟨[], t, r t, ⟨after, hrest⟩, nofun, fun after _ => hrun t after, hreports t⟩

theorem stops_pure (hc : c.Ends) (a : α) : Stops (pure a) c :=
  stops_of_still hc (fun _ => .ok a) (fun _ _ => rfl) fun _ _ _ _ h => by cases h

theorem stops_failExpected (hc : c.Ends) (expected : Expected) :
    Stops (failExpected (α := α) expected) c :=
  stops_of_still hc (fun t => .error (.unexpectedToken expected t.token t.column))
    (fun _ _ => rfl) fun t _ _ _ h => by
      cases h
      exact ⟨rfl, rfl⟩

theorem stops_failTooDeep (hc : c.Ends) (limit : Nat) : Stops (failTooDeep (α := α) limit) c :=
  stops_of_still hc (fun t => .error (.tooDeep limit t.column)) (fun _ _ => rfl)
    fun _ _ _ _ h => by cases h

theorem stops_node (hc : c.Ends) (tree : Expr) (below : Nat) : Stops (node tree below) c := by
  unfold node
  split
  · exact stops_pure hc _
  · exact stops_failTooDeep hc maxDepth

/-- Only the end of a text is never read. -/
theorem stopsAt_advance (hc : c.Ends) (h : c.here.token ≠ .eof) :
    ∃ t, StopsAt advance c [c.here] t (.ok ()) := by
  obtain ⟨hrest, -, hnext⟩ := hc.next h
  obtain ⟨t, after, hafter⟩ := hnext.exists_cons
  rw [hafter] at hrest
  exact ⟨t, ⟨after, hrest⟩, List.forall_mem_singleton.2 h, fun _ _ => rfl, nofun⟩

theorem stops_advance (hc : c.Ends) (h : c.here.token ≠ .eof) : Stops advance c := by
  obtain ⟨t, h⟩ := stopsAt_advance hc h
  exact ⟨_, t, _, h⟩

theorem StopsAt.bind (hx : StopsAt x c read t r) (hc : c.Ends)
    (hf : ∀ a c', c'.Ends → c'.nesting = c.nesting → x c = .ok a c' → Stops (f a) c') :
    ∃ more t' r', StopsAt (x >>= f) c (read ++ more) t' r' := by
  obtain ⟨after, hrest, hrun⟩ := hx.run_eq hc
  cases r with
  | error e =>
    refine ⟨[], t, .error e, ?_⟩
    rw [List.append_nil]
    exact ⟨hx.rest, hx.ne_eof, fun after h => bind_of_error (hx.run after h),
      fun _ _ _ h => hx.reports _ _ _ (congrArg Except.error (Except.error.inj h))⟩
  | ok a =>
    obtain ⟨read', t', r, hfa⟩ := hf a _ (hc.of_append hrest hx.ne_eof) rfl hrun
    obtain ⟨after', hrest'⟩ := hfa.rest
    refine ⟨read', t', r, ?_⟩
    -- the first parser stops at the first token that the second one reads, or where it stops
    cases read' with
    | nil =>
      cases hrest'
      rw [List.append_nil]
      refine ⟨hx.rest, hx.ne_eof, fun after hafter => ?_, hfa.reports⟩
      exact (bind_of_ok (hx.run after hafter)).trans (hfa.run after hafter)
    | cons _ read' =>
      cases hrest'
      refine ⟨⟨after', by simpa using hrest⟩, fun u hu => ?_, fun after hafter => ?_, hfa.reports⟩
      · rcases List.mem_append.1 hu with hu | hu
        · exact hx.ne_eof u hu
        · exact hfa.ne_eof u hu
      · rw [List.append_assoc]
        exact (bind_of_ok (hx.run _ (hafter.append (t :: read')))).trans (hfa.run after hafter)

theorem Stops.bind (hc : c.Ends) (hx : Stops x c)
    (hf : ∀ a c', c'.Ends → c'.nesting = c.nesting → x c = .ok a c' → Stops (f a) c') :
    Stops (x >>= f) c := by
  obtain ⟨read, t, r, hx⟩ := hx
  obtain ⟨more, t', r', h⟩ := hx.bind hc hf
  exact ⟨_, t', r', h⟩

theorem Stops.peek_bind {f : Token → Parser α} (h : Stops (f c.here.token) c) :
    Stops (peek >>= f) c := by
  obtain ⟨read, t, r, h⟩ := h
  refine ⟨read, t, r, h.rest, h.ne_eof, fun after hafter => ?_, h.reports⟩
  obtain ⟨after', hrest⟩ := h.rest
  rw [Parser.peek_bind, Cursor.here_append hrest]
  exact h.run after hafter

theorem stops_word (hc : c.Ends) (name : String) : Stops (word name) c := by
  refine .peek_bind ?_
  split
  next w htoken =>
    split
    · refine .bind hc (stops_advance hc (by simp [htoken])) fun _ c' hc' _ _ => stops_pure hc' true
    · exact stops_pure hc false
  next => exact stops_pure hc false

theorem Stops.nested (hc : c.Ends) (h : Stops p ⟨c.rest, c.nesting + 1⟩) :
    Stops (nested p) c := by
  obtain ⟨read, t, r, h⟩ := h
  by_cases hnesting : c.nesting < maxNesting
  · refine ⟨read, t, r, h.rest, h.ne_eof, fun after hafter => ?_, h.reports⟩
    have hrun := h.run after hafter
    simp only [Parser.nested, if_pos hnesting, hrun]
    cases r <;> rfl
  · obtain ⟨read, t, r, h⟩ := stops_failTooDeep (α := α) hc maxNesting
    refine ⟨read, t, r, h.rest, h.ne_eof, fun after hafter => ?_, h.reports⟩
    rw [Parser.nested, if_neg hnesting]
    exact h.run after hafter

/-! ### The grammar -/

theorem stops_chainFrom {operator : Token → Option BinaryOp} (heof : operator .eof = none)
    {p : Parser Parsed} (hp : ∀ c : Cursor, c.Ends → Stops p c) (fuel : Nat) (left : Parsed)
    (hc : c.Ends) : Stops (chainFrom operator p fuel left) c := by
  induction fuel generalizing left c with
  | zero => exact stops_pure hc left
  | succ fuel ih =>
    rw [chainFrom]
    refine .peek_bind ?_
    cases hop : operator c.here.token with
    | none => exact stops_pure hc left
    | some op =>
      have hne : c.here.token ≠ .eof := fun hend => by
        rw [hend, heof] at hop
        cases hop
      refine .bind hc (stops_advance hc hne) fun _ c hc _ _ => ?_
      refine .bind hc (hp c hc) fun right c hc _ _ => ?_
      exact .bind hc (stops_node hc _ _) fun both c hc _ _ => ih both hc

theorem stops_chain {operator : Token → Option BinaryOp} (heof : operator .eof = none)
    {p : Parser Parsed} (hp : ∀ c : Cursor, c.Ends → Stops p c) (c : Cursor) (hc : c.Ends) :
    Stops (chain operator p) c :=
  .bind hc (hp c hc) fun left _ hc _ _ => stops_chainFrom heof hp maxDepth left hc

theorem stops_testName (hc : c.Ends) : Stops testName c := by
  refine .bind hc (stops_word hc "empty") fun empty c hc _ _ => ?_
  cases empty
  · refine .bind hc (stops_word hc "boolean") fun boolean c hc _ _ => ?_
    cases boolean
    · refine .bind hc (stops_word hc "number") fun number c hc _ _ => ?_
      cases number
      · exact stops_failExpected hc .testName
      · exact stops_pure hc TypeTest.number
    · exact stops_pure hc TypeTest.boolean
  · exact stops_pure hc TypeTest.empty

theorem stops_tested {p : Parser Parsed} (hp : ∀ c : Cursor, c.Ends → Stops p c) (c : Cursor)
    (hc : c.Ends) : Stops (tested p) c := by
  refine .bind hc (hp c hc) fun subject c hc _ _ => ?_
  refine .bind hc (stops_word hc "is") fun test c hc _ _ => ?_
  cases test
  · exact stops_pure hc subject
  · refine .bind hc (stops_word hc "not") fun negated c hc _ _ => ?_
    refine .bind hc (stops_testName hc) fun kind c hc _ _ => ?_
    exact stops_node hc _ _

theorem stops_levels {p : Parser Parsed} (hp : ∀ c : Cursor, c.Ends → Stops p c) (c : Cursor)
    (hc : c.Ends) : Stops (levels p) c :=
  stops_chain rfl (stops_chain rfl (stops_chain rfl (stops_chain rfl (stops_tested
    (stops_chain rfl (stops_chain rfl hp)))))) c hc

theorem stops_operand (steps : Nat) (c : Cursor) (hc : c.Ends) : Stops (operand steps) c := by
  induction steps generalizing c with
  | zero => exact stops_failTooDeep hc maxNesting
  | succ steps ih =>
    rw [operand]
    refine .peek_bind ?_
    cases hop : unaryOp? c.here.token with
    | some op =>
      have hne : c.here.token ≠ .eof := fun hend => by
        rw [hend] at hop
        cases hop
      refine .bind hc (stops_advance hc hne) fun _ c hc _ _ => ?_
      refine .bind hc (.nested hc (ih _ hc)) fun inner c hc _ _ => ?_
      exact stops_node hc _ _
    | none =>
      cases hleaf : leaf? c.here.token with
      | some leaf =>
        have hne : c.here.token ≠ .eof := fun hend => by
          rw [hend] at hleaf
          cases hleaf
        exact .bind hc (stops_advance hc hne) fun _ c hc _ _ => stops_pure hc _
      | none =>
        dsimp only
        split
        next hparen =>
          refine .bind hc (stops_advance hc (by simp [hparen])) fun _ c hc _ _ => ?_
          refine .bind hc (.nested hc (stops_levels ih _ hc)) fun inner c hc _ _ => ?_
          refine .peek_bind ?_
          split
          next hclose =>
            refine .bind hc (stops_advance hc (by simp [hclose])) fun _ c hc _ _ => ?_
            exact stops_pure hc inner
          next => exact stops_failExpected hc .closingParen
        next => exact stops_failExpected hc .operand

theorem stops_expression (c : Cursor) (hc : c.Ends) : Stops expression c :=
  stops_levels (stops_operand _) c hc

/-! ### Statements -/

/-- A word is an expression, so no parser of expressions stops before it. -/
theorem StopsAt.ne_nil_of_word {w : String} {r : Except ParseError Parsed}
    (h : StopsAt expression c read t r) (hnesting : c.nesting = 0) (hw : c.here.token = .word w) :
    read ≠ [] := by
  rintro rfl
  obtain ⟨after, hrest⟩ := h.rest
  have ht : t.token = .word w := by rw [← hw, Cursor.here, hrest]; rfl
  -- the word alone is read as an expression
  have hat : (⟨[t, ⟨.eof, 0⟩], 0⟩ : Cursor).At 0 ([.word w] ++ []) :=
    ⟨rfl, by simp [sentence, ht, Token.isEnd], ⟨.eof, 0⟩, by simp, rfl⟩
  have hrun := h.run [⟨.eof, 0⟩] ⟨⟨.eof, 0⟩, by simp, rfl⟩
  rw [hnesting] at hrun
  rcases recognises_expression.complete hat (.of_primary (.leaf (.word w))) .nil with
    ⟨-, c', hc', hok⟩ | ⟨hdeep, -⟩
  · have heq := hok.symm.trans hrun
    cases r with
    | error => cases heq
    | ok =>
      cases heq
      have hend := hc'.here
      rw [Cursor.here, List.headD_cons, ht] at hend
      cases hend
  · exact hdeep ((Leaf.word w).within (Nat.zero_le _))

/-- An assignment after its field. -/
def assignTo (field : String) : Parser Statement := do
  advance
  return .assign field (← expression).tree

/-- What a statement is read as, by its first two tokens. -/
def statementOf (first second : Token) : Parser Statement :=
  match first, second with
  | .word field, .assign => do
    advance
    assignTo field
  | _, _ => return .expr (← expression).tree

theorem statement_eq_statementOf : statement c = statementOf c.here.token c.second.token c := rfl

theorem statementOf_of_ne_word {first : Token} (h : ∀ w, first ≠ .word w) (second : Token) :
    statementOf first second = (do return .expr (← expression).tree) := by
  cases first with
  | word w => exact absurd rfl (h w)
  | _ => rfl

theorem stops_assignTo (hc : c.Ends) (h : c.here.token ≠ .eof) (field : String) :
    Stops (assignTo field) c := by
  refine .bind hc (stops_advance hc h) fun _ c hc _ _ => ?_
  exact .bind hc (stops_expression c hc) fun e c hc _ _ => stops_pure hc _

/-- What follows the first two tokens is looked at only when the first of them, if it is a word,
has been read. -/
theorem stopsAt_statementOf (hc : c.Ends) (hnesting : c.nesting = 0) :
    ∃ read t r, StopsAt (statementOf c.here.token c.second.token) c read t r ∧
      ∀ w, c.here.token = .word w → read ≠ [] := by
  unfold statementOf
  split
  next field hfirst hsecond =>
    have hne : c.here.token ≠ .eof := by simp [hfirst]
    obtain ⟨t, hadvance⟩ := stopsAt_advance hc hne
    obtain ⟨more, t, r, h⟩ := hadvance.bind (f := fun _ => assignTo field) hc fun _ _ _ _ hrun => by
      cases hrun
      exact stops_assignTo (hc.next hne).2.2 (by rw [← Cursor.second, hsecond]; simp) field
    exact ⟨_, t, r, h, fun _ _ => by simp⟩
  next =>
    obtain ⟨read, t, r, hexpression⟩ := stops_expression c hc
    obtain ⟨more, t, r, h⟩ := hexpression.bind hc fun e c₁ hc₁ _ _ =>
      stops_pure hc₁ (Statement.expr e.tree)
    exact ⟨_, t, r, h, fun w hw => by simp [hexpression.ne_nil_of_word hnesting hw]⟩

theorem stops_statement (hc : c.Ends) (hnesting : c.nesting = 0) : Stops statement c := by
  obtain ⟨read, t, r, h, hword⟩ := stopsAt_statementOf hc hnesting
  refine ⟨read, t, r, h.rest, h.ne_eof, fun after hafter => ?_, h.reports⟩
  obtain ⟨after', hrest⟩ := h.rest
  rw [← h.run after hafter, statement_eq_statementOf, Cursor.here_append hrest]
  cases read with
  | nil =>
    have hne : ∀ w, c.here.token ≠ .word w := fun w hw => hword w hw rfl
    rw [statementOf_of_ne_word hne, statementOf_of_ne_word hne]
  | cons u read =>
    have hsecond : (⟨u :: read ++ t :: after, c.nesting⟩ : Cursor).second = c.second :=
      Cursor.second_append hrest after
    rw [hsecond]

/-! ### Programs -/

theorem stops_statementsFrom (steps : Nat) (read : List Statement) (hc : c.Ends)
    (hnesting : c.nesting = 0) : Stops (statementsFrom steps read) c := by
  induction steps generalizing c read with
  | zero => exact stops_pure hc read.reverse
  | succ steps ih =>
    rw [statementsFrom]
    refine .peek_bind ?_
    split
    next hsemicolon =>
      refine .bind hc (stops_advance hc (by simp [hsemicolon])) fun _ c hc hn _ => ?_
      exact ih read hc (hn.trans hnesting)
    next => exact stops_pure hc read.reverse
    next =>
      refine .bind hc (stops_statement hc hnesting) fun s c hc hn _ => .peek_bind ?_
      split
      next hsemicolon =>
        refine .bind hc (stops_advance hc (by simp [hsemicolon])) fun _ c hc hn' _ => ?_
        exact ih (s :: read) hc (hn'.trans (hn.trans hnesting))
      next => exact stops_pure hc (s :: read).reverse

/-- More steps than tokens make no difference. -/
theorem statementsFrom_succ {steps : Nat} (hsteps : c.rest.length ≤ steps) (hc : c.Ends)
    (hnesting : c.nesting = 0) (read : List Statement) :
    statementsFrom (steps + 1) read c = statementsFrom steps read c := by
  induction steps generalizing c read with
  | zero =>
    obtain ⟨t, after, hrest⟩ := hc.exists_cons
    rw [hrest] at hsteps
    cases hsteps
  | succ steps ih =>
    have hnext : ∀ {c : Cursor} (read : List Statement), c.Ends → c.nesting = 0 →
        c.rest.length ≤ steps + 1 → c.here.token = .semicolon →
        statementsFrom (steps + 1) read c.next = statementsFrom steps read c.next := by
      intro c read hc hnesting hsteps hsemicolon
      obtain ⟨hrest, hn, hc'⟩ := hc.next (by simp [hsemicolon])
      rw [hrest, List.length_cons] at hsteps
      exact ih (Nat.le_of_succ_le_succ hsteps) hc' (hn.trans hnesting) read
    by_cases hsemicolon : c.here.token = .semicolon
    · rw [statementsFrom_of_semicolon hsemicolon, statementsFrom_of_semicolon hsemicolon]
      exact hnext read hc hnesting hsteps hsemicolon
    by_cases hend : c.here.token = .eof
    · rw [statementsFrom_of_eof hend, statementsFrom_of_eof hend]
    rw [statementsFrom_of_statement hsemicolon hend, statementsFrom_of_statement hsemicolon hend]
    obtain ⟨done, t, r, hstatement⟩ := stops_statement hc hnesting
    obtain ⟨after, hrest, hrun⟩ := hstatement.run_eq hc
    cases r with
    | error e => rw [bind_of_error hrun, bind_of_error hrun]
    | ok s =>
      rw [bind_of_ok hrun, bind_of_ok hrun]
      by_cases hagain : (⟨t :: after, c.nesting⟩ : Cursor).here.token = .semicolon
      · rw [goOn_of_semicolon hagain, goOn_of_semicolon hagain]
        refine hnext _ (hc.of_append hrest hstatement.ne_eof) hnesting ?_ hagain
        rw [hrest, List.length_append] at hsteps
        exact Nat.le_trans (Nat.le_add_left _ _) hsteps
      · rw [goOn_of_ne hagain, goOn_of_ne hagain]

/-! ### Whole texts -/

theorem stops_finish (hc : c.Ends) : Stops finish c := by
  refine .peek_bind ?_
  split
  · exact stops_pure hc ()
  · exact stops_failExpected hc .finish

theorem stops_wholeExpression (hc : c.Ends) : Stops wholeExpression c := by
  refine .bind hc (stops_expression c hc) fun e c hc _ _ => ?_
  exact .bind hc (stops_finish hc) fun _ c hc _ _ => stops_pure hc e.tree

/-- A program that is read in so many steps at most. -/
def programWithin (steps : Nat) : Parser Program := do
  let statements ← statementsFrom steps []
  finish
  return statements

theorem wholeProgram_eq {steps : Nat} (hsteps : c.rest.length ≤ steps) (hc : c.Ends)
    (hnesting : c.nesting = 0) : wholeProgram c = programWithin steps c := by
  induction steps, hsteps using Nat.le_induction with
  | base => rfl
  | succ steps hle ih =>
    have hsucc := statementsFrom_succ hle hc hnesting []
    rw [ih, programWithin, programWithin]
    show EStateM.bind _ _ _ = EStateM.bind _ _ _
    rw [EStateM.bind, EStateM.bind, hsucc]

theorem stops_programWithin (steps : Nat) (hc : c.Ends) (hnesting : c.nesting = 0) :
    Stops (programWithin steps) c := by
  refine .bind hc (stops_statementsFrom steps [] hc hnesting) fun p c hc _ _ => ?_
  exact .bind hc (stops_finish hc) fun _ c hc _ _ => stops_pure hc p

theorem StopsAt.unique {p' : Parser α} {read' : List Located} {t' : Located}
    {r' : Except ParseError α} (h : StopsAt p c read t r) (h' : StopsAt p' c read' t' r')
    (hc : c.Ends) (heq : p c = p' c) : read = read' ∧ t = t' ∧ r = r' := by
  obtain ⟨after, hrest, hrun⟩ := h.run_eq hc
  obtain ⟨after', hrest', hrun'⟩ := h'.run_eq hc
  rw [hrun, hrun'] at heq
  have hat : t :: after = t' :: after' ∧ r = r' := by
    cases r <;> cases r' <;> cases heq <;> exact ⟨rfl, rfl⟩
  obtain ⟨ht, hr⟩ := hat
  rw [ht] at hrest
  exact ⟨List.append_cancel_right (hrest.symm.trans hrest'), (List.cons.inj ht).1, hr⟩

theorem stops_wholeProgram (hc : c.Ends) (hnesting : c.nesting = 0) : Stops wholeProgram c := by
  obtain ⟨read, t, r, h⟩ := stops_programWithin c.rest.length hc hnesting
  refine ⟨read, t, r, h.rest, h.ne_eof, fun after hafter => ?_, h.reports⟩
  -- enough steps for this text and for the one at hand
  let other : Cursor := ⟨read ++ t :: after, c.nesting⟩
  have hother : other.Ends := hafter.append read
  have hle := Nat.le_max_left c.rest.length other.rest.length
  have hle' := Nat.le_max_right c.rest.length other.rest.length
  obtain ⟨read', t', r', h'⟩ :=
    stops_programWithin (max c.rest.length other.rest.length) hc hnesting
  obtain ⟨rfl, rfl, rfl⟩ := h.unique h' hc (wholeProgram_eq hle hc hnesting)
  rw [← h'.run after hafter]
  exact wholeProgram_eq hle' hother hnesting

end

end Parser

end Covenant.Expr
