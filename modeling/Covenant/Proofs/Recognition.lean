import Covenant.Proofs.Reading
import Covenant.Proofs.Unambiguity

/-! The parser recognises the grammar: whole texts are read with the one tree that the grammar
assigns to them, refused as too deep if that tree is out of bounds, and refused if there is no
tree. -/

namespace Covenant.Expr

theorem recognises_expression : Recognises 0 0 Parser.expression .disjunction :=
  (recognises_operand maxNesting 0 (Nat.zero_add _)).levels

/-! ### Statements -/

namespace Parser

variable {c c' : Cursor}

theorem statement_eq : statement c =
    (match c.here.token, c.second.token with
    | .word field, .assign => do
      advance
      advance
      return .assign field (← expression).tree
    | _, _ => do return .expr (← expression).tree : Parser Statement) c := rfl

theorem statement_of_assign {field : String} (h : c.here.token = .word field)
    (hsecond : c.second.token = .assign) : statement c =
      (expression >>= fun e => (pure (.assign field e.tree) : Parser Statement)) c.next.next := by
  rw [statement_eq, h, hsecond]
  rfl

theorem statement_of_expression (h : ∀ field, c.here.token = .word field →
    c.second.token ≠ .assign) : statement c =
      (expression >>= fun e => (pure (.expr e.tree) : Parser Statement)) c := by
  rw [statement_eq]
  generalize c.here.token = first, c.second.token = second at h ⊢
  cases first with
  | word field =>
    cases second with
    | assign => exact absurd rfl (h field rfl)
    | _ => rfl
  | _ => rfl

end Parser

/-- What is left after a statement: nothing, or a semicolon and more. -/
def Closes (rest : List Token) : Prop := ∀ t ∈ rest.head?, t = .semicolon

theorem Closes.endsAt {rest : List Token} (h : Closes rest) {level : Level} :
    level.EndsAt rest := by
  cases rest with
  | nil => exact .nil
  | cons t rest =>
    rw [h t rfl]
    exact .semicolon

theorem Closes.headD_ne_assign {rest : List Token} (h : Closes rest) :
    rest.headD .eof ≠ .assign := by
  cases rest with
  | nil => simp
  | cons t rest =>
    rw [List.headD_cons, h t rfl]
    simp

theorem statement_sound {c c' : Cursor} {ts : List Token} {s : Statement} (hc : c.At 0 ts)
    (hrun : Parser.statement c = .ok s c') : ∃ us rest n, ts = us ++ rest ∧ c'.At 0 rest ∧
      DerivesStatement us n s ∧ Within 0 n s.tree := by
  by_cases hassign : ∃ field, c.here.token = .word field ∧ c.second.token = .assign
  · obtain ⟨field, hfield, hsecond⟩ := hassign
    rw [Parser.statement_of_assign hfield hsecond] at hrun
    rcases hc.cases with ⟨rfl, hend⟩ | ⟨us, rfl, hc₁⟩
    · rw [hend] at hfield
      cases hfield
    rcases hc₁.cases with ⟨rfl, hend⟩ | ⟨us, rfl, hc₂⟩
    · rw [Cursor.second, hend] at hsecond
      cases hsecond
    obtain ⟨x, c₃, hx, hpure⟩ := Parser.exists_of_bind_eq_ok hrun
    cases hpure
    obtain ⟨us, rest, rfl, hc', n, hderives, -, hwithin⟩ := recognises_expression.sound hc₂ hx
    rw [hfield, show c.next.here.token = .assign from hsecond]
    exact ⟨_, rest, n, rfl, hc', .assign hderives, hwithin⟩
  · rw [Parser.statement_of_expression fun field hf ha => hassign ⟨field, hf, ha⟩] at hrun
    obtain ⟨x, c₁, hx, hpure⟩ := Parser.exists_of_bind_eq_ok hrun
    cases hpure
    obtain ⟨us, rest, rfl, hc', n, hderives, -, hwithin⟩ := recognises_expression.sound hc hx
    exact ⟨us, rest, n, rfl, hc', .expr hderives, hwithin⟩

theorem statement_complete {c : Cursor} {us rest : List Token} {n : Nat} {s : Statement}
    (hc : c.At 0 (us ++ rest)) (hderives : DerivesStatement us n s) (hrest : Closes rest) :
    (Within 0 n s.tree ∧ ∃ c', c'.At 0 rest ∧ Parser.statement c = .ok s c') ∨
      (¬Within 0 n s.tree ∧ Parser.TooDeep (Parser.statement c)) := by
  cases hderives with
  | assign h =>
    rw [Parser.statement_of_assign hc.here hc.second]
    rcases recognises_expression.complete hc.next.next h hrest.endsAt with
      ⟨hwithin, c', hc', hrun⟩ | ⟨hwithin, hdeep⟩
    · exact .inl ⟨hwithin, c', hc', Parser.bind_of_ok hrun⟩
    · exact .inr ⟨hwithin, hdeep.bind⟩
  | expr h =>
    have hassign : c.second.token ≠ .assign := by
      cases us with
      | nil => exact absurd rfl h.ne_nil
      | cons t us =>
        rw [hc.second]
        cases us with
        | nil => exact hrest.headD_ne_assign
        | cons t' us =>
          intro ht'
          have hseparates := h.separates_eq_false t' (by simp)
          rw [show t' = .assign from ht'] at hseparates
          cases hseparates
    rw [Parser.statement_of_expression fun _ _ => hassign]
    rcases recognises_expression.complete hc h hrest.endsAt with
      ⟨hwithin, c', hc', hrun⟩ | ⟨hwithin, hdeep⟩
    · exact .inl ⟨hwithin, c', hc', Parser.bind_of_ok hrun⟩
    · exact .inr ⟨hwithin, hdeep.bind⟩

/-! ### Programs -/

namespace Parser

variable {c : Cursor} {steps : Nat} {read : List Statement}

/-- What comes after a statement. -/
def goOn (steps : Nat) (read : List Statement) (s : Statement) : Parser Program := do
  match ← peek with
  | .semicolon => do
    advance
    statementsFrom steps (s :: read)
  | _ => return (s :: read).reverse

theorem statementsFrom_of_semicolon (h : c.here.token = .semicolon) :
    statementsFrom (steps + 1) read c = statementsFrom steps read c.next := by
  rw [statementsFrom, peek_bind, h]
  rfl

theorem statementsFrom_of_eof (h : c.here.token = .eof) (steps : Nat) :
    statementsFrom steps read c = .ok read.reverse c := by
  cases steps with
  | zero => rfl
  | succ steps =>
    rw [statementsFrom, peek_bind, h]
    rfl

theorem statementsFrom_of_statement (h : c.here.token ≠ .semicolon) (hend : c.here.token ≠ .eof) :
    statementsFrom (steps + 1) read c = (statement >>= goOn steps read) c := by
  rw [statementsFrom, peek_bind]
  generalize c.here.token = t at h hend
  cases t with
  | semicolon => exact absurd rfl h
  | eof => exact absurd rfl hend
  | _ => rfl

theorem goOn_of_semicolon {s : Statement} (h : c.here.token = .semicolon) :
    goOn steps read s c = statementsFrom steps (s :: read) c.next := by
  rw [goOn, peek_bind, h]
  rfl

theorem goOn_of_ne {s : Statement} (h : c.here.token ≠ .semicolon) :
    goOn steps read s c = .ok (s :: read).reverse c := by
  rw [goOn, peek_bind]
  generalize c.here.token = t at h
  cases t with
  | semicolon => exact absurd rfl h
  | _ => rfl

end Parser

/-- The bounds on a program whose most enclosed token has `n` enclosures. -/
def WithinProgram (n : Nat) (p : Program) : Prop :=
  n ≤ maxNesting ∧ ∀ s ∈ p, s.tree.depth ≤ maxDepth

theorem statements_sound (steps : Nat) {c c' : Cursor} {ts : List Token} {read : List Statement}
    {p : Program} (hc : c.At 0 ts) (hrun : Parser.statementsFrom steps read c = .ok p c') :
    ∃ us rest n q, ts = us ++ rest ∧ c'.At 0 rest ∧ DerivesProgram us n q ∧
      p = read.reverse ++ q ∧ WithinProgram n q := by
  have hempty : WithinProgram 0 [] := ⟨Nat.zero_le _, by simp⟩
  induction steps generalizing c ts read with
  | zero =>
    cases hrun
    exact ⟨[], ts, 0, [], rfl, hc, .nil, (List.append_nil _).symm, hempty⟩
  | succ steps ih =>
    rcases hc.cases with ⟨rfl, hend⟩ | ⟨ts', rfl, hnext⟩
    · rw [Parser.statementsFrom_of_eof hend] at hrun
      cases hrun
      exact ⟨[], [], 0, [], rfl, hc, .nil, (List.append_nil _).symm, hempty⟩
    by_cases hsemicolon : c.here.token = .semicolon
    · rw [Parser.statementsFrom_of_semicolon hsemicolon] at hrun
      obtain ⟨us, rest, n, q, rfl, hc', hderives, rfl, hwithin⟩ := ih hnext hrun
      rw [hsemicolon]
      exact ⟨.semicolon :: us, rest, n, q, rfl, hc', .skip hderives, rfl, hwithin⟩
    rw [Parser.statementsFrom_of_statement hsemicolon hc.ne_eof] at hrun
    obtain ⟨s, c₁, hs, hrun⟩ := Parser.exists_of_bind_eq_ok hrun
    obtain ⟨us, rest, n, hts, hc₁, hderives, hnesting, hdepth⟩ := statement_sound hc hs
    rw [hts]
    rw [Nat.zero_add] at hnesting
    by_cases hagain : c₁.here.token = .semicolon
    · rw [Parser.goOn_of_semicolon hagain] at hrun
      rcases hc₁.cases with ⟨rfl, hend⟩ | ⟨rest, rfl, hc₂⟩
      · rw [hend] at hagain
        cases hagain
      obtain ⟨vs, rest, m, q, rfl, hc', hq, rfl, hwithin, hdepths⟩ := ih hc₂ hrun
      rw [hagain]
      exact ⟨us ++ .semicolon :: vs, rest, max n m, s :: q, by simp, hc', .next hderives hq,
        by simp, by omega, List.forall_mem_cons.2 ⟨hdepth, hdepths⟩⟩
    · rw [Parser.goOn_of_ne hagain] at hrun
      cases hrun
      exact ⟨us, rest, n, [s], rfl, hc₁, .last hderives, List.reverse_cons, hnesting,
        by simpa using hdepth⟩

/-- A statement begins neither with a semicolon nor at the end. -/
theorem DerivesStatement.here {us rest : List Token} {n : Nat} {s : Statement}
    (h : DerivesStatement us n s) {c : Cursor} (hc : c.At 0 (us ++ rest)) :
    c.here.token ≠ .semicolon ∧ c.here.token ≠ .eof := by
  cases us with
  | nil => exact absurd rfl h.ne_nil
  | cons t us =>
    have hhere : c.here.token = t := hc.here
    refine ⟨fun hsemicolon => h.semicolon_notMem ?_, hhere ▸ hc.ne_eof⟩
    rw [← hsemicolon, hhere]
    exact List.mem_cons_self

theorem statements_complete {us : List Token} {n : Nat} {q : Program}
    (hderives : DerivesProgram us n q) {steps : Nat} (hsteps : us.length ≤ steps) {c : Cursor}
    (hc : c.At 0 us) (read : List Statement) :
    (WithinProgram n q ∧ ∃ c', c'.At 0 [] ∧
        Parser.statementsFrom steps read c = .ok (read.reverse ++ q) c') ∨
      (¬WithinProgram n q ∧ Parser.TooDeep (Parser.statementsFrom steps read c)) := by
  induction hderives generalizing steps c read with
  | nil =>
    refine .inl ⟨⟨Nat.zero_le _, by simp⟩, c, hc, ?_⟩
    rw [Parser.statementsFrom_of_eof hc.here, List.append_nil]
  | skip h ih =>
    obtain ⟨steps, rfl⟩ : ∃ k, steps = k + 1 :=
      ⟨steps - 1, by rw [List.length_cons] at hsteps; omega⟩
    rw [Parser.statementsFrom_of_semicolon hc.here]
    exact ih (by simpa using hsteps) hc.next read
  | @last us n s h =>
    -- a statement has at least one token, so there is a step left to read it
    obtain ⟨steps, rfl⟩ : ∃ k, steps = k + 1 := by
      have hlength := List.length_pos_iff.2 h.ne_nil
      exact ⟨steps - 1, by omega⟩
    rw [← List.append_nil us] at hc
    rw [Parser.statementsFrom_of_statement (h.here hc).1 (h.here hc).2]
    rcases statement_complete hc h (by simp [Closes]) with
      ⟨hwithin, c', hc', hrun⟩ | ⟨hwithin, hdeep⟩
    · refine .inl ⟨⟨?_, by simpa using hwithin.2⟩, c', hc', ?_⟩
      · simpa using hwithin.1
      · rw [Parser.bind_of_ok hrun, Parser.goOn_of_ne (by rw [hc'.here]; simp), List.reverse_cons]
    · refine .inr ⟨fun hw => hwithin ⟨?_, hw.2 s (by simp)⟩, hdeep.bind⟩
      simpa using hw.1
  | @next us vs n m s q h hrest ih =>
    rw [List.length_append, List.length_cons] at hsteps
    obtain ⟨steps, rfl⟩ : ∃ k, steps = k + 1 := ⟨steps - 1, by omega⟩
    rw [Parser.statementsFrom_of_statement (h.here hc).1 (h.here hc).2]
    rcases statement_complete hc h (by simp [Closes]) with ⟨hs, c₁, hc₁, hrun⟩ | ⟨hs, hdeep⟩
    · rw [Parser.bind_of_ok hrun, Parser.goOn_of_semicolon hc₁.here]
      have hnesting := hs.1
      have hlength : vs.length ≤ steps := by omega
      rcases ih hlength hc₁.next (s :: read) with
        ⟨⟨hm, hdepths⟩, c', hc', hrun⟩ | ⟨hq, hdeep⟩
      · refine .inl ⟨⟨by omega, List.forall_mem_cons.2 ⟨hs.2, hdepths⟩⟩, c', hc', ?_⟩
        rw [hrun, List.reverse_cons, List.append_assoc]
        rfl
      · refine .inr ⟨fun hw => hq ⟨?_, fun t ht => hw.2 t (List.mem_cons_of_mem _ ht)⟩, hdeep⟩
        have hmax := hw.1
        omega
    · refine .inr ⟨fun hw => hs ⟨?_, hw.2 s List.mem_cons_self⟩, hdeep.bind⟩
      have hmax := hw.1
      omega

/-! ### Whole texts -/

namespace Parser

variable {c c' : Cursor} {nesting : Nat} {ts : List Token}

theorem finish_of_nil (hc : c.At nesting []) : finish c = .ok () c := by
  rw [finish, peek_bind, hc.here]
  rfl

theorem of_finish_eq_ok (hc : c.At nesting ts) (h : finish c = .ok () c') : ts = [] := by
  rcases hc.cases with ⟨hnil, -⟩ | ⟨us, rfl, -⟩
  · exact hnil
  · rw [finish, peek_bind] at h
    have hne := hc.ne_eof
    generalize c.here.token = t at h hne
    cases t with
    | eof => exact absurd rfl hne
    | _ => cases h

theorem result_of_ok {α : Type} {p : Parser α} {tokens : List Located} {a : α}
    (h : p ⟨tokens, 0⟩ = .ok a c) : result p tokens = .ok a := by
  rw [result, h]

end Parser

theorem sentence_concat_eof (tokens : List Located) (offset : Nat) :
    sentence (tokens ++ [⟨.eof, offset⟩]) = sentence tokens := by
  induction tokens with
  | nil => rfl
  | cons t tokens ih =>
    simp only [sentence, List.cons_append, List.map_cons, List.takeWhile_cons] at ih ⊢
    rw [ih]

theorem Cursor.at_start (tokens : List Located) (offset : Nat) :
    (⟨tokens ++ [⟨.eof, offset⟩], 0⟩ : Cursor).At 0 (sentence tokens) :=
  ⟨rfl, sentence_concat_eof tokens offset, ⟨.eof, offset⟩, by simp, rfl⟩

/-- The result of a parser on a text, when the grammar derives `a` from the text if
`derives n a`, with the most enclosed token under `n` parentheses and operators before an
operand, and `trees a` are the expressions in it. -/
structure Recognised {α : Type} (derives : Nat → α → Prop) (trees : α → List Expr)
    (result : Except ParseError α) : Prop where
  unique : ∀ n a n' a', derives n a → derives n' a' → n = n' ∧ a = a'
  /-- The result is what the grammar derives, -/
  accepted : ∀ n a, derives n a → n ≤ 64 → (∀ e ∈ trees a, e.depth ≤ 256) → result = .ok a
  /-- unless that is too deep, -/
  tooDeep : ∀ n a, derives n a → ¬(n ≤ 64 ∧ ∀ e ∈ trees a, e.depth ≤ 256) →
    ∃ limit column, result = .error (.tooDeep limit column)
  /-- or it derives nothing. -/
  refused : (∀ n a, ¬derives n a) → ∃ e, result = .error e

theorem Recognised.of_complete {α : Type} {derives : Nat → α → Prop} {trees : α → List Expr}
    {result : Except ParseError α}
    (unique : ∀ n a n' a', derives n a → derives n' a' → n = n' ∧ a = a')
    (sound : ∀ a, result = .ok a → ∃ n, derives n a)
    (complete : ∀ n a, derives n a →
      ((n ≤ 64 ∧ ∀ e ∈ trees a, e.depth ≤ 256) ∧ result = .ok a) ∨
      (¬(n ≤ 64 ∧ ∀ e ∈ trees a, e.depth ≤ 256) ∧
        ∃ limit column, result = .error (.tooDeep limit column))) :
    Recognised derives trees result where
  unique := unique
  accepted n a h hn htrees := by
    rcases complete n a h with ⟨-, hresult⟩ | ⟨hdeep, -⟩
    · exact hresult
    · exact absurd ⟨hn, htrees⟩ hdeep
  tooDeep n a h hdeep := by
    rcases complete n a h with ⟨hwithin, -⟩ | ⟨-, hresult⟩
    · exact absurd hwithin hdeep
    · exact hresult
  refused hnone := by
    cases hresult : result with
    | ok a =>
      obtain ⟨n, h⟩ := sound a hresult
      exact absurd h (hnone n a)
    | error e => exact ⟨e, rfl⟩

namespace Parser

theorem exists_of_result_eq_ok {α : Type} {p : Parser α} {tokens : List Located} {a : α}
    (h : result p tokens = .ok a) : ∃ c, p ⟨tokens, 0⟩ = .ok a c := by
  rw [result] at h
  split at h
  next b c hrun =>
    cases h
    exact ⟨c, hrun⟩
  next => cases h

/-- The result of a text that was given up because a bound was exceeded. -/
theorem TooDeep.result {α : Type} {p : Parser α} {tokens : List Located}
    (h : TooDeep (p ⟨tokens, 0⟩)) :
    ∃ limit column, p.result tokens = .error (.tooDeep limit column) := by
  obtain ⟨limit, column, c, hrun⟩ := h
  exact ⟨limit, column, by rw [Parser.result, hrun]⟩

end Parser

theorem wholeExpression_recognised (tokens : List Located) (offset : Nat) :
    Recognised (Derives .disjunction (sentence tokens)) (fun e => [e])
      (Parser.wholeExpression.result (tokens ++ [⟨.eof, offset⟩])) := by
  have hstart := Cursor.at_start tokens offset
  have hbounds : ∀ n e, (n ≤ 64 ∧ ∀ e' ∈ [e], e'.depth ≤ 256) ↔ Within 0 n e := fun n e => by
    simp [Within, maxNesting, maxDepth]
  refine .of_complete (fun _ _ _ _ h h' => h.unique h') (fun e hresult => ?_) fun n e h => ?_
  · obtain ⟨c, hrun⟩ := Parser.exists_of_result_eq_ok hresult
    obtain ⟨x, c₁, hx, hfinish⟩ := Parser.exists_of_bind_eq_ok hrun
    obtain ⟨_, c₂, hfinish, hpure⟩ := Parser.exists_of_bind_eq_ok hfinish
    cases hpure
    obtain ⟨us, rest, hts, hc₁, n, hderives, -⟩ := recognises_expression.sound hstart hx
    rw [Parser.of_finish_eq_ok hc₁ hfinish, List.append_nil] at hts
    exact ⟨n, hts ▸ hderives⟩
  · rw [← List.append_nil (sentence tokens)] at hstart
    rw [hbounds]
    rcases recognises_expression.complete hstart h .nil with
      ⟨hwithin, c, hc, hrun⟩ | ⟨hdeep, hrun⟩
    · refine .inl ⟨hwithin, Parser.result_of_ok (c := c) ?_⟩
      rw [Parser.wholeExpression, Parser.bind_of_ok hrun]
      exact Parser.bind_of_ok (Parser.finish_of_nil hc)
    · exact .inr ⟨hdeep, Parser.TooDeep.result hrun.bind⟩

theorem wholeProgram_recognised (tokens : List Located) (offset : Nat) :
    Recognised (DerivesProgram (sentence tokens)) (fun p => p.map Statement.tree)
      (Parser.wholeProgram.result (tokens ++ [⟨.eof, offset⟩])) := by
  have hstart := Cursor.at_start tokens offset
  have hbounds : ∀ n p, (n ≤ 64 ∧ ∀ e ∈ p.map Statement.tree, e.depth ≤ 256) ↔
      WithinProgram n p := fun n p => by simp [WithinProgram, maxNesting, maxDepth]
  refine .of_complete (fun _ _ _ _ h h' => h.unique h') (fun p hresult => ?_) fun n p h => ?_
  · obtain ⟨c, hrun⟩ := Parser.exists_of_result_eq_ok hresult
    obtain ⟨q, c₁, hq, hfinish⟩ := Parser.exists_of_bind_eq_ok
      (x := Parser.statementsFrom _ []) hrun
    obtain ⟨_, c₂, hfinish, hpure⟩ := Parser.exists_of_bind_eq_ok hfinish
    cases hpure
    obtain ⟨us, rest, n, q, hts, hc₁, hderives, rfl, -⟩ := statements_sound _ hstart hq
    rw [Parser.of_finish_eq_ok hc₁ hfinish, List.append_nil] at hts
    exact ⟨n, hts ▸ hderives⟩
  · have hlength : (sentence tokens).length ≤ (tokens ++ [(⟨.eof, offset⟩ : Located)]).length := by
      have hprefix : sentence tokens <+: tokens.map Located.token := List.takeWhile_prefix _
      have hle := hprefix.length_le
      rw [List.length_map] at hle
      rw [List.length_append]
      exact Nat.le_add_right_of_le hle
    rw [hbounds]
    rcases statements_complete h hlength hstart [] with ⟨hwithin, c, hc, hrun⟩ | ⟨hdeep, hrun⟩
    · refine .inl ⟨hwithin, Parser.result_of_ok (c := c) ?_⟩
      refine (Parser.bind_of_ok (x := Parser.statementsFrom _ []) hrun).trans ?_
      exact Parser.bind_of_ok (Parser.finish_of_nil hc)
    · exact .inr ⟨hdeep, Parser.TooDeep.result (hrun.bind (x := Parser.statementsFrom _ []))⟩

/-- The parser recognises the grammar, for single expressions and for programs: of the tokens
before the first `eof` the result is the one tree that the grammar derives from them, if its
bounds are kept, and an error otherwise. -/
theorem parser_recognises (tokens : List Located) (offset : Nat) :
    let text := tokens ++ [⟨.eof, offset⟩]
    Recognised (Derives .disjunction (sentence tokens)) (fun e => [e])
        (Parser.wholeExpression.result text) ∧
      Recognised (DerivesProgram (sentence tokens)) (fun p => p.map Statement.tree)
        (Parser.wholeProgram.result text) :=
  ⟨wholeExpression_recognised tokens offset, wholeProgram_recognised tokens offset⟩

end Covenant.Expr
