import Covenant.Expr.Eval
import Covenant.Proofs.Lexing
import Covenant.Proofs.Recognition

/-! Programs one after another. The text of two programs with a semicolon between them is the
text of the program that has the statements of the one and then those of the other. Running it
is running the one and then, on the state that is left, the other, unless the first fails. -/

namespace Covenant.Expr

/-- A result that is no error is what the grammar derives, within the bounds. -/
theorem Recognised.exists_of_eq_ok {α : Type} {derives : Nat → α → Prop} {trees : α → List Expr}
    {result : Except ParseError α} (h : Recognised derives trees result) {a : α}
    (hresult : result = .ok a) :
    ∃ n, derives n a ∧ n ≤ 64 ∧ ∀ e ∈ trees a, e.depth ≤ 256 := by
  by_cases hnone : ∀ n b, ¬derives n b
  · obtain ⟨e, herror⟩ := h.refused hnone
    rw [herror] at hresult
    cases hresult
  · obtain ⟨n, b, hderives⟩ : ∃ n b, derives n b := by simpa using hnone
    by_cases hbounds : n ≤ 64 ∧ ∀ e ∈ trees b, e.depth ≤ 256
    · rw [h.accepted n b hderives hbounds.1 hbounds.2] at hresult
      cases hresult
      exact ⟨n, hderives, hbounds⟩
    · obtain ⟨_, _, herror⟩ := h.tooDeep n b hderives hbounds
      rw [herror] at hresult
      cases hresult

/-- Two programs with a semicolon between them. -/
theorem DerivesProgram.append {ts us : List Token} {n m : Nat} {p q : Program}
    (hp : DerivesProgram ts n p) (hq : DerivesProgram us m q) :
    DerivesProgram (ts ++ .semicolon :: us) (max n m) (p ++ q) := by
  induction hp with
  | nil =>
    rw [Nat.zero_max]
    exact .skip hq
  | skip _ ih => exact .skip ih
  | last h => exact .next h hq
  | next h _ ih =>
    rw [List.append_assoc, Nat.max_assoc]
    exact .next h ih

end Covenant.Expr

namespace Covenant.Program

open Covenant.Expr

/-- The programs that texts write: the grammar derives them from the tokens, within the
bounds. -/
theorem parse_eq_ok_iff {text : String} {p : Program} : parse text = .ok p ↔
    ∃ ts n, Lexes 0 text.toList ts ∧ DerivesProgram (ts.map Located.token) n p ∧ n ≤ 64 ∧
      ∀ s ∈ p, s.tree.depth ≤ 256 := by
  have hparse : ∀ {ts : List Located}, Lexes 0 text.toList ts →
      Recognised (DerivesProgram (ts.map Located.token)) (fun p => p.map Statement.tree)
        (parse text) := by
    intro ts hts
    rw [parse, tokenize_of_lexes hts, ← sentence_eq_map hts.ne_eof]
    exact wholeProgram_recognised ts _
  constructor
  · intro h
    cases htokens : tokenize text with
    | error e =>
      rw [parse, htokens] at h
      cases h
    | ok tokens =>
      obtain ⟨ts, hts, -⟩ := exists_lexes_of_tokenize htokens
      obtain ⟨n, hderives, hn, hdepth⟩ := (hparse hts).exists_of_eq_ok h
      exact ⟨ts, n, hts, hderives, hn, by simpa using hdepth⟩
  · rintro ⟨ts, n, hts, hderives, hn, hdepth⟩
    exact (hparse hts).accepted n p hderives hn (by simpa using hdepth)

theorem parse_append {text other : String} {p q : Program} (hp : parse text = .ok p)
    (hq : parse other = .ok q) : parse (text ++ ";" ++ other) = .ok (p ++ q) := by
  rw [parse_eq_ok_iff] at hp hq ⊢
  obtain ⟨ts, n, hts, hp, hn, hdepth⟩ := hp
  obtain ⟨us, m, hus, hq, hm, hdepth'⟩ := hq
  obtain ⟨us', hus', htokens⟩ : ∃ us', Lexes (text.toList.length + 1) other.toList us' ∧
      us'.map Located.token = us.map Located.token := by
    refine ⟨_, Nat.zero_add _ ▸ hus.shift (text.toList.length + 1), ?_⟩
    rw [List.map_map]
    rfl
  have hsemicolon : Lexes text.toList.length (';' :: other.toList)
      (⟨.semicolon, text.toList.length⟩ :: us') :=
    .token (by decide) (.symbol _ .semicolon) hus'
  refine ⟨ts ++ ⟨.semicolon, text.toList.length⟩ :: us', max n m, ?_, ?_, Nat.max_le.2 ⟨hn, hm⟩,
    List.forall_mem_append.2 ⟨hdepth, hdepth'⟩⟩
  · rw [String.toList_append, String.toList_append, List.append_assoc]
    exact hts.append (Nat.zero_add _ ▸ hsemicolon) (.cons (by decide) _)
  · rw [List.map_append, List.map_cons, htokens]
    exact hp.append hq

/-! ### Runs -/

theorem runFrom_append (locals : Bag) (p q : Program) (last : Value) (s : State) :
    runFrom locals last (p ++ q) s =
      match runFrom locals last p s with
      | (.ok v, s') => runFrom locals v q s'
      | (.error e, s') => (.error e, s') := by
  induction p generalizing last s with
  | nil => rfl
  | cons stmt rest ih =>
    rw [List.cons_append, runFrom, runFrom]
    cases stmt.run locals s with
    | error e => rfl
    | ok r => exact ih r.1 r.2

/-- The value before a program is only that of a run without statements. -/
theorem runFrom_eq (locals : Bag) (last : Value) (p : Program) (s : State) :
    runFrom locals last p s = if p.isEmpty then (.ok last, s) else run locals p s := by
  cases p <;> rfl

/-- The text of two programs with a semicolon between them is that of the two in one, which
runs as the first and then, unless that fails, the second. -/
theorem parse_and_run_append :
    (∀ (text other : String) (p q : Program), parse text = .ok p → parse other = .ok q →
      parse (text ++ ";" ++ other) = .ok (p ++ q)) ∧
    ∀ (p q : Program) (locals : Bag) (s : State), run locals (p ++ q) s =
      match run locals p s with
      | (.error e, s') => (.error e, s')
      | (.ok v, s') => if q.isEmpty then (.ok v, s') else run locals q s' := by
  refine ⟨fun _ _ _ _ hp hq => parse_append hp hq, fun p q locals s => ?_⟩
  rw [run, runFrom_append, ← run]
  rcases run locals p s with ⟨_ | v, s'⟩
  · rfl
  · exact runFrom_eq locals v q s'

/-- A semicolon within a string does not end a statement. -/
theorem parse_and_run_append_quoted : parse ("n=1" ++ ";" ++ "\";\"") =
    .ok [.assign "n" (.literal (.integer 1)), .expr (.literal (.string ";"))] :=
  parse_and_run_append.1 "n=1" "\";\"" [.assign "n" (.literal (.integer 1))]
    [.expr (.literal (.string ";"))] (by with_unfolding_all rfl) (by with_unfolding_all rfl)

end Covenant.Program
