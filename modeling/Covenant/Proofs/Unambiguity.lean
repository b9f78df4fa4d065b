import Covenant.Proofs.Grammar

/-! The grammar assigns at most one tree to a text. Two expressions of a level that read from
the same place and both end where the level ends are the same; this is proved level by level,
with the expressions in parentheses and behind operators being shorter. -/

namespace Covenant.Expr

/-- Of two expressions of a level at the front of the same tokens, the first with at most
`size` tokens, neither goes on where the other ends. -/
def Decodes (size : Nat) (level : Level) : Prop :=
  ∀ ⦃ts ts' rest rest' : List Token⦄ ⦃n n' : Nat⦄ ⦃e e' : Expr⦄, Derives level ts n e →
    Derives level ts' n' e' → ts.length ≤ size → ts ++ rest = ts' ++ rest' →
    level.EndsAt rest → level.EndsAt rest' → ts = ts' ∧ n = n' ∧ e = e'

/-- The operators of a level and their right operands, taken one after the other to a left
operand that is already there. -/
inductive Chain (level next : Level) : Nat → Expr → List Token → Nat → Expr → Prop
  | nil (n : Nat) (e : Expr) : Chain level next n e [] n e
  | cons {n m k : Nat} {l r e : Expr} {t : Token} {op : BinaryOp} {us vs : List Token}
    (hop : Operator level t op) (hr : Derives next us m r)
    (h : Chain level next (max n m) (.binary op l r) vs k e) :
    Chain level next n l (t :: (us ++ vs)) k e

namespace Chain

variable {level next : Level} {n m k : Nat} {l e : Expr} {vs : List Token}

theorem concat {r : Expr} {t : Token} {op : BinaryOp} {us : List Token}
    (h : Chain level next n l vs k e) (hop : Operator level t op) (hr : Derives next us m r) :
    Chain level next n l (vs ++ t :: us) (max k m) (.binary op e r) := by
  induction h with
  | nil n e => simpa using Chain.cons hop hr (.nil _ _)
  | cons hop' hr' h ih =>
    rw [List.cons_append, List.append_assoc]
    exact .cons hop' hr' ih

theorem of_derives (hnext : level.tighter? = some next) (hlevel : ∃ t op, Operator level t op)
    {ts : List Token} (h : Derives level ts n e) :
    ∃ us m s vs, Derives next us m s ∧ Chain level next m s vs n e ∧ ts = us ++ vs := by
  refine h.chain_induction hnext hlevel (motive := fun ts n e => ∃ us m s vs,
    Derives next us m s ∧ Chain level next m s vs n e ∧ ts = us ++ vs) ?_ ?_
  · intro ts n e h
    exact ⟨ts, n, e, [], h, .nil n e, (List.append_nil ts).symm⟩
  · rintro _ us' t _ m' op _ r _ ⟨us, m, s, vs, h, hchain, rfl⟩ hop hr
    exact ⟨us, m, s, vs ++ t :: us', h, hchain.concat hop hr, List.append_assoc ..⟩

/-- After an operand of a chain comes an operator of the chain, or its end. -/
theorem endsAt (h : Chain level next n l vs k e) (hnext : level.tighter? = some next)
    {rest : List Token} (hrest : level.EndsAt rest) : next.EndsAt (vs ++ rest) := by
  cases h with
  | nil => exact hrest.tighter hnext
  | cons hop => exact .operator hop hnext

theorem unique {size : Nat} (hnext : level.tighter? = some next) (hd : Decodes size next)
    {k' : Nat} {e' : Expr} {vs' rest rest' : List Token} (h : Chain level next n l vs k e)
    (h' : Chain level next n l vs' k' e') (hsize : vs.length ≤ size)
    (heq : vs ++ rest = vs' ++ rest') (hrest : level.EndsAt rest)
    (hrest' : level.EndsAt rest') : vs = vs' ∧ k = k' ∧ e = e' := by
  induction h generalizing vs' with
  | nil n l =>
    cases h' with
    | nil => exact ⟨rfl, rfl, rfl⟩
    | cons hop =>
      rw [List.nil_append] at heq
      exact absurd (.operator hop) (heq ▸ hrest)
  | @cons n m k l r e t op us vs hop hr h ih =>
    cases h' with
    | nil =>
      rw [List.nil_append] at heq
      exact absurd (.operator hop) (heq.symm ▸ hrest')
    | @cons _ m' _ _ r' _ t' op' us' vs' hop' hr' h' =>
      have hlength : us.length + vs.length + 1 ≤ size := by simpa using hsize
      rw [List.cons_append, List.cons_append, List.append_assoc, List.append_assoc] at heq
      obtain ⟨rfl, htail⟩ := List.cons.inj heq
      obtain ⟨-, rfl⟩ := hop.unique hop'
      obtain ⟨rfl, rfl, rfl⟩ := hd hr hr' (by omega) htail (h.endsAt hnext hrest)
        (h'.endsAt hnext hrest')
      obtain ⟨rfl, rfl, rfl⟩ := ih h' (by omega) (List.append_cancel_left htail)
      exact ⟨rfl, rfl, rfl⟩

end Chain

/-! ### Level by level -/

namespace Decodes

variable {size : Nat}

theorem chain {level next : Level} (h : Decodes size next) (hnext : level.tighter? = some next)
    (hlevel : ∃ t op, Operator level t op) : Decodes size level := by
  intro ts ts' rest rest' n n' e e' hts hts' hsize heq hrest hrest'
  obtain ⟨us, m, s, vs, hs, hchain, rfl⟩ := Chain.of_derives hnext hlevel hts
  obtain ⟨us', m', s', vs', hs', hchain', rfl⟩ := Chain.of_derives hnext hlevel hts'
  rw [List.length_append] at hsize
  rw [List.append_assoc, List.append_assoc] at heq
  obtain ⟨rfl, rfl, rfl⟩ := h hs hs' (by omega) heq (hchain.endsAt hnext hrest)
    (hchain'.endsAt hnext hrest')
  obtain ⟨rfl, rfl, rfl⟩ := hchain.unique hnext h hchain' (by omega)
    (List.append_cancel_left heq) hrest hrest'
  exact ⟨rfl, rfl, rfl⟩

end Decodes

theorem TypeTest.word_inj {kind kind' : TypeTest} (h : kind.word = kind'.word) :
    kind = kind' := by
  cases kind <;> cases kind' <;> first | rfl | exact absurd h (by decide)

theorem Test.unique {us us' rest rest' : List Token} {kind kind' : TypeTest}
    {negated negated' : Bool} (h : Test us kind negated) (h' : Test us' kind' negated')
    (heq : us ++ rest = us' ++ rest') : us = us' ∧ kind = kind' ∧ negated = negated' := by
  cases h <;> cases h' <;>
    simp only [List.cons_append, List.cons.injEq, Token.word.injEq, true_and] at heq
  case plain.plain =>
    obtain rfl := TypeTest.word_inj heq.1
    exact ⟨rfl, rfl, rfl⟩
  case plain.negated => exact absurd heq.1 (TypeTest.word_ne_not _)
  case negated.plain => exact absurd heq.1.symm (TypeTest.word_ne_not _)
  case negated.negated =>
    obtain rfl := TypeTest.word_inj heq.1
    exact ⟨rfl, rfl, rfl⟩

theorem Decodes.test {size : Nat} (h : Decodes size .sum) : Decodes size .test := by
  intro ts ts' rest rest' n n' e e' hts hts' hsize heq hrest hrest'
  rcases hts.test_cases with hts | ⟨us, vs, s, kind, negated, rfl, hs, htest, rfl⟩ <;>
    rcases hts'.test_cases with hts' | ⟨us', vs', s', kind', negated', rfl, hs', htest', rfl⟩
  · exact h hts hts' hsize heq (hrest.tighter rfl) (hrest'.tighter rfl)
  · rw [List.append_assoc] at heq
    obtain ⟨rfl, -, -⟩ := h hts hs' hsize heq (hrest.tighter rfl) (.test htest')
    rw [List.append_cancel_left heq] at hrest
    exact absurd hrest htest'.not_endsAt
  · rw [List.append_assoc] at heq
    rw [List.length_append] at hsize
    obtain ⟨rfl, -, -⟩ := h hs hts' (by omega) heq (.test htest) (hrest'.tighter rfl)
    rw [← List.append_cancel_left heq] at hrest'
    exact absurd hrest' htest.not_endsAt
  · rw [List.append_assoc, List.append_assoc] at heq
    rw [List.length_append] at hsize
    obtain ⟨rfl, rfl, rfl⟩ := h hs hs' (by omega) heq (.test htest) (.test htest')
    obtain ⟨rfl, rfl, rfl⟩ := htest.unique htest' (List.append_cancel_left heq)
    exact ⟨rfl, rfl, rfl⟩

/-! ### Operands -/

theorem Leaf.unique {t : Token} {e e' : Expr} (h : Leaf t e) (h' : Leaf t e') : e = e' := by
  cases h <;> cases h' <;> rfl

theorem Prefix.unique {t : Token} {op op' : UnaryOp} (h : Prefix t op) (h' : Prefix t op') :
    op = op' := by
  cases h <;> cases h' <;> rfl

/-- A primary does not begin with an operator. -/
theorem Prefix.not_primary {t : Token} {op : UnaryOp} (h : Prefix t op) {ts us rest : List Token}
    {n : Nat} {e : Expr} (hts : Derives .primary ts n e) : ts ++ rest ≠ t :: us := by
  intro heq
  rcases hts.primary_cases with ⟨t', rfl, -, hleaf⟩ | ⟨us', m, rfl, -, -⟩
  · obtain ⟨rfl, -⟩ := List.cons.inj heq
    cases h <;> cases hleaf
  · obtain ⟨rfl, -⟩ := List.cons.inj heq
    cases h

namespace Decodes

variable {size : Nat}

theorem primary (h : Decodes size .disjunction) : Decodes (size + 1) .primary := by
  intro ts ts' rest rest' n n' e e' hts hts' hsize heq hrest hrest'
  rcases hts.primary_cases with ⟨t, rfl, rfl, hleaf⟩ | ⟨us, m, rfl, rfl, hus⟩ <;>
    rcases hts'.primary_cases with ⟨t', rfl, rfl, hleaf'⟩ | ⟨us', m', rfl, rfl, hus'⟩
  · obtain ⟨rfl, -⟩ := List.cons.inj heq
    exact ⟨rfl, rfl, hleaf.unique hleaf'⟩
  · obtain ⟨rfl, -⟩ := List.cons.inj heq
    cases hleaf
  · obtain ⟨rfl, -⟩ := List.cons.inj heq
    cases hleaf'
  · have hlength : us.length + 1 ≤ size := by simpa using hsize
    rw [List.cons_append, List.cons_append, List.append_assoc, List.append_assoc] at heq
    obtain ⟨rfl, rfl, rfl⟩ := h hus hus' (by omega) (List.cons.inj heq).2 .rightParen .rightParen
    exact ⟨rfl, rfl, rfl⟩

theorem unary (h : Decodes size .unary) (hprimary : Decodes (size + 1) .primary) :
    Decodes (size + 1) .unary := by
  intro ts ts' rest rest' n n' e e' hts hts' hsize heq hrest hrest'
  rcases hts.unary_cases with hts | ⟨t, us, m, op, s, rfl, rfl, hop, hus, rfl⟩ <;>
    rcases hts'.unary_cases with hts' | ⟨t', us', m', op', s', rfl, rfl, hop', hus', rfl⟩
  · exact hprimary hts hts' hsize heq (hrest.tighter rfl) (hrest'.tighter rfl)
  · exact absurd heq (hop'.not_primary hts)
  · exact absurd heq.symm (hop.not_primary hts')
  · rw [List.length_cons] at hsize
    rw [List.cons_append, List.cons_append] at heq
    obtain ⟨rfl, htail⟩ := List.cons.inj heq
    obtain rfl := hop.unique hop'
    obtain ⟨rfl, rfl, rfl⟩ := h hus hus' (by omega) htail hrest hrest'
    exact ⟨rfl, rfl, rfl⟩

end Decodes

theorem decodes (size : Nat) (level : Level) : Decodes size level := by
  induction size generalizing level with
  | zero =>
    intro ts ts' rest rest' n n' e e' hts _ hsize
    exact absurd (List.length_eq_zero_iff.1 (Nat.le_zero.1 hsize)) hts.ne_nil
  | succ size ih =>
    have hprimary := (ih .disjunction).primary
    have hunary := (ih .unary).unary hprimary
    -- from here on each level comes from the tighter one, at the same size
    have hproduct : Decodes (size + 1) .product := hunary.chain rfl ⟨_, _, .star⟩
    have hsum : Decodes (size + 1) .sum := hproduct.chain rfl ⟨_, _, .plus⟩
    have htest := hsum.test
    have hrelation : Decodes (size + 1) .relation := htest.chain rfl ⟨_, _, .less⟩
    have hequality : Decodes (size + 1) .equality := hrelation.chain rfl ⟨_, _, .equal⟩
    have hconjunction : Decodes (size + 1) .conjunction := hequality.chain rfl ⟨_, _, .and⟩
    have hdisjunction : Decodes (size + 1) .disjunction := hconjunction.chain rfl ⟨_, _, .or⟩
    cases level <;> assumption

theorem Derives.unique {level : Level} {ts : List Token} {n n' : Nat} {e e' : Expr}
    (h : Derives level ts n e) (h' : Derives level ts n' e') : n = n' ∧ e = e' :=
  (decodes ts.length level h h' (Nat.le_refl _) rfl .nil .nil).2

/-! ### Programs -/

namespace DerivesStatement

variable {ts : List Token} {n : Nat} {s : Statement}

theorem ne_nil (h : DerivesStatement ts n s) : ts ≠ [] := by
  cases h with
  | assign => simp
  | expr h => exact h.ne_nil

/-- No semicolon stands in a statement. -/
theorem semicolon_notMem (h : DerivesStatement ts n s) : .semicolon ∉ ts := by
  intro hmem
  cases h with
  | assign h =>
    have hts := h.separates_eq_false .semicolon (by simpa using hmem)
    cases hts
  | expr h =>
    have hts := h.separates_eq_false .semicolon hmem
    cases hts

theorem unique {n' : Nat} {s' : Statement} (h : DerivesStatement ts n s)
    (h' : DerivesStatement ts n' s') : n = n' ∧ s = s' := by
  cases h with
  | assign h =>
    cases h' with
    | assign h' =>
      obtain ⟨rfl, rfl⟩ := h.unique h'
      exact ⟨rfl, rfl⟩
    | expr h' =>
      have hts := h'.separates_eq_false .assign (by simp)
      cases hts
  | expr h =>
    cases h' with
    | assign =>
      have hts := h.separates_eq_false .assign (by simp)
      cases hts
    | expr h' =>
      obtain ⟨rfl, rfl⟩ := h.unique h'
      exact ⟨rfl, rfl⟩

end DerivesStatement

/-- The first semicolon of a text stands at one place. -/
theorem append_semicolon_inj {ts ts' us us' : List Token} (hts : .semicolon ∉ ts)
    (hts' : .semicolon ∉ ts') (h : ts ++ .semicolon :: us = ts' ++ .semicolon :: us') :
    ts = ts' ∧ us = us' := by
  induction ts generalizing ts' with
  | nil =>
    cases ts' with
    | nil => exact ⟨rfl, (List.cons.inj h).2⟩
    | cons t ts' =>
      obtain ⟨rfl, -⟩ := List.cons.inj h
      simp at hts'
  | cons t ts ih =>
    cases ts' with
    | nil =>
      obtain ⟨rfl, -⟩ := List.cons.inj h
      simp at hts
    | cons t' ts' =>
      rw [List.cons_append, List.cons_append] at h
      obtain ⟨rfl, htail⟩ := List.cons.inj h
      rw [List.mem_cons, not_or] at hts hts'
      obtain ⟨rfl, rfl⟩ := ih hts.2 hts'.2 htail
      exact ⟨rfl, rfl⟩

theorem DerivesProgram.unique {ts : List Token} {n n' : Nat} {p p' : Program}
    (h : DerivesProgram ts n p) (h' : DerivesProgram ts n' p') : n = n' ∧ p = p' := by
  induction h generalizing n' p' with
  | nil =>
    generalize hts : ([] : List Token) = ts at h'
    cases h' with
    | nil => exact ⟨rfl, rfl⟩
    | skip | next => simp at hts
    | last h => exact absurd hts.symm h.ne_nil
  | @skip us n p h ih =>
    generalize hts : Token.semicolon :: us = ts at h'
    cases h' with
    | nil => simp at hts
    | skip h' =>
      cases hts
      exact ih h'
    | last h' => exact absurd (hts ▸ List.mem_cons_self) h'.semicolon_notMem
    | next h' =>
      have heq := append_semicolon_inj List.not_mem_nil h'.semicolon_notMem hts
      exact absurd heq.1.symm h'.ne_nil
  | @last us n s h =>
    cases h' with
    | nil => exact absurd rfl h.ne_nil
    | skip => exact absurd List.mem_cons_self h.semicolon_notMem
    | last h' =>
      obtain ⟨rfl, rfl⟩ := h.unique h'
      exact ⟨rfl, rfl⟩
    | next => exact absurd (by simp) h.semicolon_notMem
  | @next us vs n m s p h hrest ih =>
    generalize hts : us ++ Token.semicolon :: vs = ts at h'
    cases h' with
    | nil => simp at hts
    | skip =>
      have heq := append_semicolon_inj h.semicolon_notMem List.not_mem_nil hts
      exact absurd heq.1 h.ne_nil
    | last h' => exact absurd (by simp [← hts]) h'.semicolon_notMem
    | next h' hrest' =>
      obtain ⟨rfl, rfl⟩ := append_semicolon_inj h.semicolon_notMem h'.semicolon_notMem hts
      obtain ⟨rfl, rfl⟩ := h.unique h'
      obtain ⟨rfl, rfl⟩ := ih hrest'
      exact ⟨rfl, rfl⟩

end Covenant.Expr
