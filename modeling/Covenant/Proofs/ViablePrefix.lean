import Covenant.Proofs.Lookahead

/-! Where a text is refused. The token that an error of the grammar reports is the first that no
text of the grammar has in its place: the tokens before it begin such a text, and with it they
begin none. That they begin one is shown by what the parser still waits for at the places where
it can fail; that nothing goes on with the token, by the parser itself, which does not look
further and would refuse that text as well. -/

namespace Covenant.Expr

/-- The texts that are an expression of a level. -/
def Level.Has (level : Level) (ts : List Token) : Prop := ∃ n e, Derives level ts n e

/-- The texts that are a statement. -/
def IsStatement (ts : List Token) : Prop := ∃ n s, DerivesStatement ts n s

/-- The texts that are a program. -/
def IsProgram (ts : List Token) : Prop := ∃ n p, DerivesProgram ts n p

/-- The beginnings of the texts of a language. -/
def Begins (language : List Token → Prop) (ts : List Token) : Prop :=
  ∃ us, language us ∧ ts <+: us

/-- A result at a place before which, if it is an unexpected token, there is the beginning of a
text of the language. -/
def Refuses {α : Type} (language : List Token → Prop) (nesting : Nat) (ts : List Token)
    (r : EStateM.Result ParseError Cursor α) : Prop :=
  ∀ expected found column c, r = .error (.unexpectedToken expected found column) c →
    ∃ us rest, ts = us ++ rest ∧ c.At nesting rest ∧ Begins language us

section
variable {α β : Type} {language inner : List Token → Prop} {nesting : Nat} {us ts : List Token}

theorem Begins.of_append {more : List Token} (h : language (ts ++ more)) : Begins language ts :=
  ⟨_, h, List.prefix_append _ _⟩

theorem Begins.of_self (h : language ts) : Begins language ts := ⟨ts, h, List.prefix_rfl⟩

namespace Refuses

variable {r : EStateM.Result ParseError Cursor α} {x : Parser α} {f : α → Parser β} {c : Cursor}

theorem ok (a : α) : Refuses language nesting ts (.ok a c) := nofun

theorem of_tooDeep (h : Parser.TooDeep r) : Refuses language nesting ts r := by
  obtain ⟨_, _, _, h⟩ := h
  intro _ _ _ _ hr
  rw [h] at hr
  cases hr

/-- A part of a text whose surroundings are in place, or can be put there. -/
theorem inside (h : Refuses inner nesting ts r)
    (hinner : ∀ vs, inner vs → Begins language (us ++ vs)) :
    Refuses language nesting (us ++ ts) r := by
  intro _ _ _ _ hr
  obtain ⟨vs, rest, rfl, hc, ws, hws, hprefix⟩ := h _ _ _ _ hr
  obtain ⟨whole, hwhole, hbegins⟩ := hinner ws hws
  refine ⟨us ++ vs, rest, (List.append_assoc ..).symm, hc, whole, hwhole, ?_⟩
  exact ((List.prefix_append_right_inj us).2 hprefix).trans hbegins

theorem mono (h : Refuses inner nesting ts r) (hinner : ∀ vs, inner vs → language vs) :
    Refuses language nesting ts r := by
  show Refuses language nesting ([] ++ ts) r
  exact h.inside fun vs hvs => .of_self (hinner vs hvs)

theorem after (h : Refuses (fun vs => language (us ++ vs)) nesting ts r) :
    Refuses language nesting (us ++ ts) r :=
  h.inside fun _ hvs => .of_self hvs

theorem bind (hx : Refuses language nesting ts (x c))
    (hf : ∀ a c', x c = .ok a c' → Refuses language nesting ts (f a c')) :
    Refuses language nesting ts ((x >>= f) c) := by
  rcases hrun : x c with ⟨a, c'⟩ | ⟨e, c'⟩
  · rw [Parser.bind_of_ok hrun]
    exact hf a c' hrun
  · rw [Parser.bind_of_error hrun]
    intro _ _ _ _ hr
    cases hr
    exact hx _ _ _ _ hrun

theorem failExpected (hc : c.At nesting ts) (h : Begins language []) (expected : Expected) :
    Refuses language nesting ts (Parser.failExpected (α := α) expected c) := by
  intro _ _ _ _ hr
  cases hr
  exact ⟨[], ts, rfl, hc, h⟩

theorem node (tree : Expr) (below : Nat) :
    Refuses language nesting ts (Parser.node tree below c) := by
  rcases Nat.lt_or_ge below maxDepth with hlt | hge
  · rw [Parser.node_of_lt hlt]
    exact ok _
  · exact of_tooDeep (Parser.node_tooDeep hge)

theorem nested (hc : c.At nesting ts)
    (h : nesting < maxNesting → Refuses language (nesting + 1) ts (x ⟨c.rest, c.nesting + 1⟩)) :
    Refuses language nesting ts (Parser.nested x c) := by
  rw [Parser.nested, hc.nesting]
  split
  next hlt =>
    have hrefuses := h hlt
    rw [hc.nesting] at hrefuses
    rcases hrun : x ⟨c.rest, nesting + 1⟩ with ⟨a, c'⟩ | ⟨e, c'⟩
    · exact ok a
    · intro _ _ _ _ hr
      cases hr
      obtain ⟨us, rest, hts, hc', hbegins⟩ := hrefuses _ _ _ _ hrun
      exact ⟨us, rest, hts, hc'.shallower, hbegins⟩
  next => exact of_tooDeep (Parser.failTooDeep_tooDeep maxNesting)

end Refuses

end

/-- At a nesting, a parser fails only after the beginning of an expression of the level. -/
def Fails (nesting : Nat) (p : Parser Parsed) (level : Level) : Prop :=
  ∀ ⦃c : Cursor⦄ ⦃ts : List Token⦄, c.At nesting ts → Refuses level.Has nesting ts (p c)

/-! ### Levels -/

section
variable {outer inner : Nat} {p : Parser Parsed} {level next : Level}
  {operator : Token → Option BinaryOp}

theorem Level.Has.tighter (hnext : level.tighter? = some next) {ts : List Token}
    (h : next.Has ts) : level.Has ts := by
  obtain ⟨n, e, h⟩ := h
  exact ⟨n, e, .tighter hnext h⟩

theorem Level.Has.binary {ts us : List Token} {t : Token} {op : BinaryOp} (hl : level.Has ts)
    (hnext : level.tighter? = some next) (hop : Operator level t op) (hr : next.Has us) :
    level.Has (ts ++ t :: us) := by
  obtain ⟨_, _, hl⟩ := hl
  obtain ⟨_, _, hr⟩ := hr
  exact ⟨_, _, .binary hnext hop hl hr⟩

theorem Yields.has {ts : List Token} {x : Parsed} (h : Yields inner level ts x) :
    level.Has ts := by
  obtain ⟨n, h, -⟩ := h
  exact ⟨n, x.tree, h⟩

theorem Fails.chainFrom (h : Fails outer p next) (hp : Recognises outer inner p next)
    (hnext : level.tighter? = some next)
    (hop : ∀ t op, operator t = some op → Operator level t op) (fuel : Nat) {left : Parsed}
    {us ts : List Token} {c : Cursor} (hus : level.Has us) (hc : c.At outer ts) :
    Refuses level.Has outer (us ++ ts) (Parser.chainFrom operator p fuel left c) := by
  induction fuel generalizing left us ts c with
  | zero => exact .ok left
  | succ fuel ih =>
    cases hoperator : operator c.here.token with
    | none =>
      rw [Parser.chainFrom_of_eq_none hoperator]
      exact .ok left
    | some op =>
      rw [Parser.chainFrom_of_eq_some hoperator]
      have hop := hop _ _ hoperator
      rcases hc.cases with ⟨-, hend⟩ | ⟨vs, rfl, hc₁⟩
      · rw [hend] at hop
        cases hop
      rw [List.append_cons]
      refine .bind ((h hc₁).inside fun ws hws => .of_self ?_) fun right c₂ hright => ?_
      · rw [List.append_assoc]
        exact hus.binary hnext hop hws
      · obtain ⟨ws, rest, rfl, hc₂, hyields⟩ := hp.sound hc₁ hright
        refine .bind (.node _ _) fun both c₃ hnode => ?_
        obtain ⟨-, -, rfl⟩ := Parser.of_node_eq_ok hnode
        rw [← List.append_assoc, List.append_assoc us]
        exact ih (hus.binary hnext hop hyields.has) hc₂

theorem Fails.chain (h : Fails outer p next) (hp : Recognises outer inner p next)
    (hnext : level.tighter? = some next)
    (hop : ∀ t op, operator t = some op → Operator level t op) :
    Fails outer (Parser.chain operator p) level := by
  intro c ts hc
  refine .bind ((h hc).mono fun _ => .tighter hnext) fun left c₁ hleft => ?_
  obtain ⟨us, rest, rfl, hc₁, hyields⟩ := hp.sound hc hleft
  exact h.chainFrom hp hnext hop maxDepth (hyields.has.tighter hnext) hc₁

theorem Refuses.testName {language : List Token → Prop} {nesting : Nat} {ts : List Token}
    {c : Cursor} (hc : c.At nesting ts) (h : Begins language []) :
    Refuses language nesting ts (Parser.testName c) := by
  rw [Parser.testName_eq]
  split
  · exact .ok _
  split
  · exact .ok _
  split
  · exact .ok _
  · exact .failExpected hc h .testName

theorem Fails.tested (h : Fails outer p .sum) (hp : Recognises outer inner p .sum) :
    Fails outer (Parser.tested p) .test := by
  intro c ts hc
  rcases hrun : p c with ⟨subject, c₁⟩ | ⟨e, c₁⟩
  · obtain ⟨us, rest, rfl, hc₁, n, hderives, -⟩ := hp.sound hc hrun
    -- after the words of a test before its kind, some kind is still to come
    have hkind : ∀ {vs rest : List Token} {negated : Bool} {c₂ : Cursor},
        Test (vs ++ [.word TypeTest.empty.word]) .empty negated → c₂.At outer rest →
        Refuses Level.test.Has outer (us ++ vs ++ rest) ((Parser.testName >>= fun kind =>
          Parser.node (.test subject.tree kind negated) subject.depth) c₂) := by
      intro vs rest negated c₂ htest hc₂
      have hwhole : Level.test.Has (us ++ vs ++ [.word TypeTest.empty.word]) := by
        rw [List.append_assoc]
        exact ⟨_, _, .test hderives htest⟩
      exact .after (.bind (.testName hc₂ ⟨_, hwhole, List.nil_prefix⟩) fun _ _ _ => .node _ _)
    rw [Parser.tested_eq hrun]
    split
    next his =>
      rcases hc₁.cases with ⟨-, hend⟩ | ⟨rest, rfl, hc₂⟩
      · rw [hend] at his
        cases his
      rw [Token.isWord_iff.1 his]
      split
      next hnot =>
        rcases hc₂.cases with ⟨-, hend⟩ | ⟨rest, rfl, hc₃⟩
        · rw [hend] at hnot
          cases hnot
        rw [Token.isWord_iff.1 hnot, List.append_cons, List.append_cons, List.append_assoc us]
        exact hkind (.negated .empty) hc₃
      next =>
        rw [List.append_cons]
        exact hkind (.plain .empty) hc₂
    next => exact .ok subject
  · refine .bind ((h hc).mono fun _ => .tighter rfl) fun _ _ hok => ?_
    rw [hrun] at hok
    cases hok

theorem Fails.levels (h : Fails outer p .unary) (hp : Recognises outer inner p .unary) :
    Fails outer (Parser.levels p) .disjunction := by
  have hop := fun (level : Level) t op => (level.operator?_eq_some_iff t op).1
  have hproduct := hp.chain rfl ⟨_, _, .star⟩ Level.product.operator?_eq_some_iff
  have hsum := hproduct.chain rfl ⟨_, _, .plus⟩ Level.sum.operator?_eq_some_iff
  have hrelation := hsum.tested.chain rfl ⟨_, _, .less⟩ Level.relation.operator?_eq_some_iff
  have hequality := hrelation.chain rfl ⟨_, _, .equal⟩ Level.equality.operator?_eq_some_iff
  have hconjunction := hequality.chain rfl ⟨_, _, .and⟩ Level.conjunction.operator?_eq_some_iff
  have h := (h.chain hp rfl (hop .product)).chain hproduct rfl (hop .sum)
  have h := (h.tested hsum).chain hsum.tested rfl (hop .relation)
  have h := (h.chain hrelation rfl (hop .equality)).chain hequality rfl (hop .conjunction)
  exact h.chain hconjunction rfl (hop .disjunction)

end

/-! ### Operands -/

theorem Parser.close_of_ne {c : Cursor} (h : c.here.token ≠ .rightParen) (x : Parsed) :
    close x c = failExpected .closingParen c := by
  rw [close, peek_bind]
  generalize c.here.token = t at h
  cases t with
  | rightParen => exact absurd rfl h
  | _ => rfl

theorem Level.Has.null (level : Level) : level.Has [.null] :=
  ⟨0, .literal .null, .of_primary (.leaf .null)⟩

/-- Any place for an operand can be filled. -/
theorem begins_nil (level : Level) : Begins level.Has [] := ⟨_, .null level, List.nil_prefix⟩

theorem Refuses.close {language : List Token → Prop} {nesting : Nat} {ts : List Token}
    {c : Cursor} (hc : c.At nesting ts) (h : Begins language []) (x : Parsed) :
    Refuses language nesting ts (Parser.close x c) := by
  by_cases hclose : c.here.token = .rightParen
  · rw [Parser.close_of_eq hclose]
    exact .ok x
  · rw [Parser.close_of_ne hclose]
    exact .failExpected hc h .closingParen

theorem Fails.operand {nesting steps : Nat}
    (hinner : nesting < maxNesting → Fails (nesting + 1) (Parser.operand steps) .unary ∧
      Recognises (nesting + 1) (nesting + 1) (Parser.operand steps) .unary) :
    Fails nesting (Parser.operand (steps + 1)) .unary := by
  intro c ts hc
  cases hop : Parser.unaryOp? c.here.token with
  | some op =>
    rw [Parser.operand_of_unaryOp hop]
    have hop := (unaryOp?_eq_some_iff _ _).1 hop
    rcases hc.cases with ⟨-, hend⟩ | ⟨ts, rfl, hc₁⟩
    · rw [hend] at hop
      cases hop
    have hoperand : Refuses Level.unary.Has nesting ts
        (Parser.nested (Parser.operand steps) c.next) :=
      .nested hc₁ fun hlt => (hinner hlt).1 hc₁.deeper
    rw [← List.singleton_append]
    refine .bind (hoperand.inside fun us hus => .of_self ?_) fun _ _ _ => .node _ _
    obtain ⟨_, _, hus⟩ := hus
    exact ⟨_, _, .unary hop hus⟩
  | none =>
    cases hleaf : Parser.leaf? c.here.token with
    | some leaf =>
      rw [Parser.operand_of_leaf hop hleaf]
      exact .ok _
    | none =>
      by_cases hparen : c.here.token = .leftParen
      · rw [Parser.operand_of_leftParen hparen]
        rcases hc.cases with ⟨-, hend⟩ | ⟨ts, rfl, hc₁⟩
        · rw [hend] at hparen
          cases hparen
        rw [hparen]
        have hclosed : ∀ {us : List Token}, Level.disjunction.Has us →
            Level.unary.Has (.leftParen :: us ++ [.rightParen]) := by
          rintro us ⟨_, _, hus⟩
          exact ⟨_, _, .tighter rfl (.parens hus)⟩
        have hlevels : Refuses Level.disjunction.Has nesting ts
            (Parser.nested (Parser.levels (Parser.operand steps)) c.next) :=
          .nested hc₁ fun hlt => (hinner hlt).1.levels (hinner hlt).2 hc₁.deeper
        rw [← List.singleton_append]
        refine .bind (hlevels.inside fun us hus => .of_append (hclosed hus)) fun inner c₂ hrun => ?_
        obtain ⟨us, rest, rfl, hc₂, hyields⟩ :=
          (Recognises.nested fun hlt => (hinner hlt).2.levels).sound hc₁ hrun
        rw [List.singleton_append, ← List.cons_append]
        exact .after (.close hc₂ ⟨[.rightParen], hclosed hyields.has, List.nil_prefix⟩ inner)
      · rw [Parser.operand_of_other hop hleaf hparen]
        exact .failExpected hc (begins_nil _) .operand

/-- An operand fails only after the beginning of one, at every nesting. -/
theorem fails_operand (steps nesting : Nat) (h : nesting + steps = maxNesting) :
    Fails nesting (Parser.operand (steps + 1)) .unary := by
  induction steps generalizing nesting with
  | zero => exact .operand fun hlt => by omega
  | succ steps ih =>
    exact .operand fun _ => ⟨ih (nesting + 1) (by omega),
      recognises_operand steps (nesting + 1) (by omega)⟩

theorem fails_expression : Fails 0 Parser.expression .disjunction :=
  (fails_operand maxNesting 0 (Nat.zero_add _)).levels
    (recognises_operand maxNesting 0 (Nat.zero_add _))

/-! ### Statements and programs -/

variable {c : Cursor} {ts : List Token}

theorem IsStatement.expr (h : Level.disjunction.Has ts) : IsStatement ts := by
  obtain ⟨n, e, h⟩ := h
  exact ⟨n, .expr e, .expr h⟩

theorem IsStatement.assign (h : Level.disjunction.Has ts) (field : String) :
    IsStatement ([.word field, .assign] ++ ts) := by
  obtain ⟨n, e, h⟩ := h
  exact ⟨n, .assign field e, .assign h⟩

theorem refuses_statement (hc : c.At 0 ts) :
    Refuses IsStatement 0 ts (Parser.statement c) := by
  by_cases hassign : ∃ field, c.here.token = .word field ∧ c.second.token = .assign
  · obtain ⟨field, hfield, hsecond⟩ := hassign
    rw [Parser.statement_of_assign hfield hsecond]
    rcases hc.cases with ⟨-, hend⟩ | ⟨us, rfl, hc₁⟩
    · rw [hend] at hfield
      cases hfield
    rcases hc₁.cases with ⟨-, hend⟩ | ⟨us, rfl, hc₂⟩
    · rw [Cursor.second, hend] at hsecond
      cases hsecond
    rw [hfield, show c.next.here.token = .assign from hsecond]
    have hexpression : Refuses IsStatement 0 ([.word field, .assign] ++ us)
        (Parser.expression c.next.next) :=
      (fails_expression hc₂).inside fun vs hvs => .of_self (.assign hvs field)
    exact hexpression.bind fun e _ _ => .ok _
  · rw [Parser.statement_of_expression fun field hf ha => hassign ⟨field, hf, ha⟩]
    exact ((fails_expression hc).mono fun _ => .expr).bind fun e _ _ => .ok _

theorem IsProgram.next {us : List Token} (h : IsStatement ts) (hrest : IsProgram us) :
    IsProgram (ts ++ [.semicolon] ++ us) := by
  obtain ⟨_, _, h⟩ := h
  obtain ⟨_, _, hrest⟩ := hrest
  rw [← List.append_cons]
  exact ⟨_, _, .next h hrest⟩

theorem IsProgram.last (h : IsStatement ts) : IsProgram ts := by
  obtain ⟨_, _, h⟩ := h
  exact ⟨_, _, .last h⟩

theorem IsProgram.skip (h : IsProgram ts) : IsProgram ([.semicolon] ++ ts) := by
  obtain ⟨_, _, h⟩ := h
  exact ⟨_, _, .skip h⟩

theorem refuses_statementsFrom (steps : Nat) (read : List Statement) (hc : c.At 0 ts) :
    Refuses IsProgram 0 ts (Parser.statementsFrom steps read c) := by
  induction steps generalizing c ts read with
  | zero => exact .ok read.reverse
  | succ steps ih =>
    rcases hc.cases with ⟨-, hend⟩ | ⟨us, rfl, hc₁⟩
    · rw [Parser.statementsFrom_of_eof hend]
      exact .ok read.reverse
    by_cases hsemicolon : c.here.token = .semicolon
    · rw [Parser.statementsFrom_of_semicolon hsemicolon, hsemicolon]
      rw [← List.singleton_append]
      exact (ih read hc₁).inside fun vs hvs => .of_self hvs.skip
    rw [Parser.statementsFrom_of_statement hsemicolon hc.ne_eof]
    refine .bind ((refuses_statement hc).mono fun _ => .last) fun s c₂ hs => ?_
    obtain ⟨us, rest, n, hts, hc₂, hderives, -⟩ := statement_sound hc hs
    rw [hts]
    by_cases hagain : c₂.here.token = .semicolon
    · rw [Parser.goOn_of_semicolon hagain]
      rcases hc₂.cases with ⟨-, hend⟩ | ⟨rest, rfl, hc₃⟩
      · rw [hend] at hagain
        cases hagain
      rw [hagain, List.append_cons]
      exact (ih (s :: read) hc₃).inside fun vs hvs => .of_self (.next ⟨n, s, hderives⟩ hvs)
    · rw [Parser.goOn_of_ne hagain]
      exact .ok _

/-! ### Whole texts -/

theorem Refuses.finish {language : List Token → Prop} {us : List Token} (hc : c.At 0 ts)
    (hus : language us) : Refuses language 0 (us ++ ts) (Parser.finish c) := by
  rw [Parser.finish, Parser.peek_bind]
  have hstays : Refuses (fun vs => language (us ++ vs)) 0 ts
      (Parser.failExpected (α := Unit) .finish c) :=
    .failExpected hc ⟨[], by rwa [List.append_nil], List.nil_prefix⟩ .finish
  cases c.here.token with
  | eof => exact .ok ()
  | _ => exact hstays.after

theorem refuses_wholeExpression (hc : c.At 0 ts) :
    Refuses Level.disjunction.Has 0 ts (Parser.wholeExpression c) := by
  refine .bind (fails_expression hc) fun e c₁ hrun => ?_
  obtain ⟨us, rest, rfl, hc₁, hyields⟩ := recognises_expression.sound hc hrun
  exact .bind (.finish hc₁ hyields.has) fun _ _ _ => .ok e.tree

theorem refuses_wholeProgram (hc : c.At 0 ts) :
    Refuses IsProgram 0 ts (Parser.wholeProgram c) := by
  have hstatements := refuses_statementsFrom c.rest.length [] hc
  refine .bind (x := Parser.statementsFrom _ []) hstatements fun p c₁ hrun => ?_
  obtain ⟨us, rest, n, q, rfl, hc₁, hderives, -⟩ := statements_sound _ hc hrun
  exact .bind (.finish hc₁ ⟨n, q, hderives⟩) fun _ _ _ => .ok p

theorem DerivesStatement.ne_eof {n : Nat} {s : Statement} (h : DerivesStatement ts n s) :
    ∀ t ∈ ts, t ≠ .eof := by
  have hexpression : ∀ {us : List Token} {e : Expr}, Derives .disjunction us n e →
      ∀ t ∈ us, t ≠ .eof := by
    rintro us e h t ht rfl
    cases h.separates_eq_false _ ht
  cases h with
  | assign h => exact List.forall_mem_cons.2 ⟨nofun, List.forall_mem_cons.2 ⟨nofun, hexpression h⟩⟩
  | expr h => exact hexpression h

theorem DerivesProgram.ne_eof {n : Nat} {p : Program} (h : DerivesProgram ts n p) :
    ∀ t ∈ ts, t ≠ .eof := by
  induction h with
  | nil => nofun
  | skip _ ih => exact List.forall_mem_cons.2 ⟨nofun, ih⟩
  | last h => exact h.ne_eof
  | next h _ ih =>
    intro t ht
    rcases List.mem_append.1 ht with ht | ht
    · exact h.ne_eof t ht
    · exact List.forall_mem_cons.2 ⟨nofun, ih⟩ t ht

/-- What the grammar derives is not refused for one of its tokens. -/
theorem Recognised.ne_unexpected {α : Type} {derives : Nat → α → Prop} {trees : α → List Expr}
    {result : Except ParseError α} (h : Recognised derives trees result)
    (hderives : ∃ n a, derives n a) {expected : Expected} {found : Token} {column : Nat} :
    result ≠ .error (.unexpectedToken expected found column) := by
  obtain ⟨n, a, hderives⟩ := hderives
  by_cases hwithin : n ≤ 64 ∧ ∀ e ∈ trees a, e.depth ≤ 256
  · rw [h.accepted n a hderives hwithin.1 hwithin.2]
    exact nofun
  · obtain ⟨limit, column, hresult⟩ := h.tooDeep n a hderives hwithin
    rw [hresult]
    exact nofun

/-- The first token that is wrong: the tokens before it begin a text of the language, and no
text of the language, with an `eof` after it, begins with these and with the token. -/
structure FirstWrong (language : List Token → Prop) (before : List Located) (t : Located) :
    Prop where
  begins : Begins language (before.map Located.token)
  wrong : ¬∃ us, language us ∧ before.map Located.token ++ [t.token] <+: us ++ [.eof]

theorem firstWrong_of_stops {α : Type} {p : Parser α} {language : List Token → Prop}
    (hends : ∀ us, language us → ∀ t ∈ us, t ≠ .eof)
    (hreads : ∀ tokens offset, language (sentence tokens) → ∀ expected found column,
      p.result (tokens ++ [⟨.eof, offset⟩]) ≠ .error (.unexpectedToken expected found column))
    {tokens : List Located} {offset : Nat} (hstops : p.Stops ⟨tokens ++ [⟨.eof, offset⟩], 0⟩)
    (hrefuses : Refuses language 0 (sentence tokens) (p ⟨tokens ++ [⟨.eof, offset⟩], 0⟩))
    {expected : Expected} {found : Token} {column : Nat}
    (h : p.result (tokens ++ [⟨.eof, offset⟩]) =
      .error (.unexpectedToken expected found column)) :
    ∃ before t after, tokens ++ [⟨.eof, offset⟩] = before ++ t :: after ∧ t.token = found ∧
      t.column = column ∧ FirstWrong language before t := by
  obtain ⟨before, t, r, hstop⟩ := hstops
  have hat := Cursor.at_start tokens offset
  obtain ⟨after, hrest, hrun⟩ := hstop.run_eq hat.ends
  obtain rfl : r = .error (.unexpectedToken expected found column) := by
    rw [Parser.result, hrun] at h
    cases r <;> exact h
  obtain ⟨hfound, hcolumn⟩ := hstop.reports _ _ _ rfl
  refine ⟨before, t, after, hrest, hfound, hcolumn, ?_, ?_⟩
  · obtain ⟨us, rest, hus, hc, hbegins⟩ := hrefuses _ _ _ _ hrun
    have hsentence := hat.ahead
    rw [show (⟨tokens ++ [⟨.eof, offset⟩], 0⟩ : Cursor).rest = before ++ t :: after from hrest,
      sentence_append hstop.ne_eof, hc.ahead, hus] at hsentence
    rwa [List.append_cancel_right hsentence]
  · rintro ⟨us, hus, more, hmore⟩
    -- the parser would stop in that text as it does in this one
    have hlocated : (before ++ t :: more.map fun u => ⟨u, 0⟩).map Located.token = us ++ [.eof] := by
      rw [← hmore]
      simp [Function.comp_def]
    obtain ⟨others, last, hsplit, hothers, hlast⟩ := List.map_eq_append_iff.1 hlocated
    obtain ⟨⟨_, offset'⟩, rfl, rfl⟩ := List.map_eq_singleton_iff.1 hlast
    have hother : sentence others = us := by
      rw [sentence_eq_map fun u hu => ?_, hothers]
      exact hends us hus _ (hothers ▸ List.mem_map_of_mem hu)
    have hother' : (⟨others ++ [⟨.eof, offset'⟩], 0⟩ : Cursor).Ends :=
      (Cursor.at_start others offset').ends
    have hagain := hstop.run _ (hother'.of_append hsplit.symm hstop.ne_eof)
    rw [hsplit] at hagain
    refine hreads others offset' (hother ▸ hus) expected found column ?_
    rw [Parser.result, hagain]
    rfl

/-- A text is refused exactly where it goes wrong. Whenever the parser reports a token that it
did not expect, for an expression or for a program, the tokens before that one begin a text of
the grammar, bounds aside, and no text of the grammar begins with them and with the token. -/
theorem refused_at_first_wrong (tokens : List Located) (offset : Nat) (expected : Expected)
    (found : Token) (column : Nat) :
    let text := tokens ++ [⟨.eof, offset⟩]
    (Parser.wholeExpression.result text = .error (.unexpectedToken expected found column) →
      ∃ before t after, text = before ++ t :: after ∧ t.token = found ∧ t.column = column ∧
        FirstWrong Level.disjunction.Has before t) ∧
    (Parser.wholeProgram.result text = .error (.unexpectedToken expected found column) →
      ∃ before t after, text = before ++ t :: after ∧ t.token = found ∧ t.column = column ∧
        FirstWrong IsProgram before t) := by
  intro text
  have hat := Cursor.at_start tokens offset
  refine ⟨fun h => ?_, fun h => ?_⟩
  · refine firstWrong_of_stops ?_ ?_ (Parser.stops_wholeExpression hat.ends)
      (refuses_wholeExpression hat) h
    · rintro us ⟨_, _, hus⟩ t ht rfl
      cases hus.separates_eq_false _ ht
    · intro tokens offset hus _ _ _
      exact (wholeExpression_recognised tokens offset).ne_unexpected hus
  · refine firstWrong_of_stops ?_ ?_ (Parser.stops_wholeProgram hat.ends rfl)
      (refuses_wholeProgram hat) h
    · rintro us ⟨_, _, hus⟩
      exact hus.ne_eof
    · intro tokens offset hus _ _ _
      exact (wholeProgram_recognised tokens offset).ne_unexpected hus

theorem refused_at_second_test :
    let tokens : List Located :=
      [⟨.word "x", 0⟩, ⟨.word "is", 2⟩, ⟨.word "empty", 5⟩, ⟨.word "is", 11⟩]
    let text := tokens ++ [⟨.eof, 13⟩]
    Parser.wholeExpression.result text = .error (.unexpectedToken .finish (.word "is") 12) ∧
      ∃ before t after, text = before ++ t :: after ∧ t.token = .word "is" ∧ t.column = 12 ∧
        FirstWrong Level.disjunction.Has before t := by
  intro tokens text
  have hresult : Parser.wholeExpression.result text =
      .error (.unexpectedToken .finish (.word "is") 12) := by
    with_unfolding_all rfl
  exact ⟨hresult, (refused_at_first_wrong tokens 13 _ _ _).1 hresult⟩

end Covenant.Expr
