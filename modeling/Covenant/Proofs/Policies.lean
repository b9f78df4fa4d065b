import Covenant.Proofs.History

/-! The two policies side by side. What a call does has nothing to do with the policy, which is
asked only when the call has ended. So the run that a violation ends and the run that goes on
after violations make the same calls up to the first that does not return. -/

namespace Covenant

/-- Whether a call ended with the value of its body. -/
def Record.returned (r : Record) : Bool :=
  match r.outcome with
  | .returned _ => true
  | _ => false

def Stage.returned (s : Stage) : Bool := s.record.returned

/-- A list up to its first item that is not `p`, and with it; all of the list if there is none. -/
def throughFirstNot {α : Type} (p : α → Bool) (xs : List α) : List α :=
  xs.take (xs.findIdx (fun x => !p x) + 1)

section
variable {α β : Type} {p : α → Bool}

theorem throughFirstNot_cons_of_pos {x : α} (xs : List α) (h : p x = true) :
    throughFirstNot p (x :: xs) = x :: throughFirstNot p xs := by
  simp [throughFirstNot, List.findIdx_cons, h]

theorem throughFirstNot_cons_of_neg {x : α} (xs : List α) (h : p x = false) :
    throughFirstNot p (x :: xs) = [x] := by
  simp [throughFirstNot, List.findIdx_cons, h]

theorem map_throughFirstNot (f : β → α) (xs : List β) :
    (throughFirstNot (fun x => p (f x)) xs).map f = throughFirstNot p (xs.map f) := by
  rw [throughFirstNot, throughFirstNot, List.map_take, List.findIdx_map]
  rfl

end

namespace Outcome

variable {outcome : Outcome}

theorem stops?_raise_eq_none_iff : outcome.stops? .raise = none ↔ ∃ v, outcome = .returned v := by
  simp [stops?_eq_none_iff]

/-- Only a violation is for the policy to decide. -/
theorem stops?_eq_of_ne_violated (h : ∀ v, outcome ≠ .violated v) (policy other : Policy) :
    outcome.stops? policy = outcome.stops? other := by
  cases outcome with
  | returned | failed => rfl
  | violated v => exact absurd rfl (h v)

end Outcome

theorem Record.returned_iff (r : Record) : r.returned = true ↔ ∃ v, r.outcome = .returned v := by
  rw [returned]
  cases r.outcome <;> simp

namespace Compiled

variable (c : Compiled) (mode : Mode)

/-- The policy has no part in a call. -/
theorem stage_withPolicy (policy : Policy) (index : Nat) (arguments : List Value)
    (w : World State) :
    (c.withPolicy policy).stage mode index arguments w = c.stage mode index arguments w := rfl

theorem withPolicy_policy (policy : Policy) : (c.withPolicy policy).policy = policy := rfl

theorem stages_withPolicy_cons (policy : Policy) (index : Nat) (arguments : List Value)
    (rest : List (List Value)) (w : World State) :
    (c.withPolicy policy).stages mode index (arguments :: rest) w =
      c.stage mode index arguments w ::
        if (c.stage mode index arguments w).record.outcome.stops? policy = none then
          (c.withPolicy policy).stages mode (index + 1) rest (c.stage mode index arguments w).after
        else [] := by
  rw [stages, stage_withPolicy, withPolicy_policy]
  cases (c.stage mode index arguments w).record.outcome.stops? policy <;> rfl

/-- The calls of the run that a violation ends are those of the other run up to the first that
does not return. -/
theorem stages_raise (index : Nat) (calls : List (List Value)) (w : World State) :
    (c.withPolicy .raise).stages mode index calls w =
      throughFirstNot Stage.returned
        ((c.withPolicy .proceed).stages mode index calls w) := by
  induction calls generalizing index w with
  | nil => rfl
  | cons arguments rest ih =>
    rw [stages_withPolicy_cons, stages_withPolicy_cons]
    cases hreturned : (c.stage mode index arguments w).returned with
    | true =>
      have hraise := Outcome.stops?_raise_eq_none_iff.2 ((Record.returned_iff _).1 hreturned)
      have hproceed : (c.stage mode index arguments w).record.outcome.stops? .proceed = none :=
        Outcome.stops?_eq_none_iff.2 (.inl ((Record.returned_iff _).1 hreturned))
      rw [if_pos hraise, if_pos hproceed, throughFirstNot_cons_of_pos _ hreturned, ih]
    | false =>
      have hraise : (c.stage mode index arguments w).record.outcome.stops? .raise ≠ none := by
        intro hnone
        have htrue : (c.stage mode index arguments w).returned = true :=
          (Record.returned_iff _).2 (Outcome.stops?_raise_eq_none_iff.1 hnone)
        rw [hreturned] at htrue
        cases htrue
      rw [if_neg hraise, throughFirstNot_cons_of_neg _ hreturned]

/-- Without a violation there is nothing to decide. -/
theorem stages_eq_of_unviolated (index : Nat) (calls : List (List Value)) (w : World State)
    (h : ∀ s ∈ (c.withPolicy .raise).stages mode index calls w, ∀ v,
      s.record.outcome ≠ .violated v) :
    (c.withPolicy .raise).stages mode index calls w =
      (c.withPolicy .proceed).stages mode index calls w := by
  induction calls generalizing index w with
  | nil => rfl
  | cons arguments rest ih =>
    rw [stages_withPolicy_cons] at h ⊢
    rw [stages_withPolicy_cons]
    obtain ⟨hfirst, hrest⟩ := List.forall_mem_cons.1 h
    rw [Outcome.stops?_eq_of_ne_violated hfirst .raise .proceed] at hrest ⊢
    split at hrest
    next hnext => rw [if_pos hnext, if_pos hnext, ih _ _ hrest]
    next hstop => rw [if_neg hstop, if_neg hstop]

end Compiled

/-- What is true of the run `r` that a violation ends and of the run `r'` that goes on after
violations, when they make the same calls from the same world and end in the worlds `after` and
`after'`. -/
structure Compiled.Alike (c : Compiled) (calls : List (List Value)) (times : Nat)
    (w : World State) (r r' : Report) (after after' : World State) : Prop where
  /-- The records are those of the other run up to the first that did not return, and with it. -/
  records : r.calls = throughFirstNot Record.returned r'.calls
  /-- So are the calls themselves, with all that was seen of them. -/
  history : (c.withPolicy .raise).history calls times w =
    throughFirstNot Stage.returned ((c.withPolicy .proceed).history calls times w)
  /-- The records are those of the calls. -/
  recorded : r'.calls = ((c.withPolicy .proceed).history calls times w).map Stage.record
  /-- The run ends where the other one was after these calls. -/
  ended : after = Stage.last (c.opened calls times w) (throughFirstNot Stage.returned
    ((c.withPolicy .proceed).history calls times w))
  final : r.finalState = after.state.fields
  /-- Without a violation in one of them, the runs are the same. -/
  unviolated : (∀ record ∈ r.calls, ∀ v, record.outcome ≠ .violated v) ∨
    (∀ record ∈ r'.calls, ∀ v, record.outcome ≠ .violated v) → r = r' ∧ after = after'
  /-- A failure with no violation before it ends both with the same error. -/
  failed : ∀ (k : Nat) record error, r'.calls[k]? = some record →
    record.outcome = .failed error → (∀ earlier ∈ r'.calls.take k, ∀ v,
      earlier.outcome ≠ .violated v) →
    r = r' ∧ after = after' ∧ r'.calls.length = k + 1 ∧ r'.error = some error

namespace Compiled

variable (c : Compiled)

theorem history_raise (calls : List (List Value)) (times : Nat) (w : World State) :
    (c.withPolicy .raise).history calls times w =
      throughFirstNot Stage.returned ((c.withPolicy .proceed).history calls times w) :=
  c.stages_raise c.mode 0 (c.requested calls times) (c.opened calls times w)

/-- Without a violation in the run that it would end, both runs come to the same. -/
theorem reported_eq_of_unviolated {calls : List (List Value)} {times : Nat} {w : World State}
    (h : ∀ s ∈ (c.withPolicy .raise).history calls times w, ∀ v,
      s.record.outcome ≠ .violated v) :
    (c.withPolicy .raise).reported (c.opened calls times w)
        ((c.withPolicy .raise).history calls times w) =
      (c.withPolicy .proceed).reported (c.opened calls times w)
        ((c.withPolicy .proceed).history calls times w) := by
  have hhistory : (c.withPolicy .raise).history calls times w =
      (c.withPolicy .proceed).history calls times w :=
    c.stages_eq_of_unviolated c.mode 0 (c.requested calls times) (c.opened calls times w) h
  rw [hhistory] at h ⊢
  have hstop : (c.withPolicy .raise).stop? ((c.withPolicy .proceed).history calls times w) =
      (c.withPolicy .proceed).stop? ((c.withPolicy .proceed).history calls times w) := by
    rw [stop?, stop?, withPolicy_policy, withPolicy_policy]
    cases hlast : ((c.withPolicy .proceed).history calls times w).getLast? with
    | none => rfl
    | some last =>
      exact Outcome.stops?_eq_of_ne_violated (h last (List.mem_of_getLast? hlast)) ..
  rw [reported, reported, hstop]
  rfl

/-- A failure is the last thing of a run. -/
theorem length_stages_of_failed (mode : Mode) {index : Nat} {calls : List (List Value)}
    {w : World State} {k : Nat} {s : Stage} {error : String}
    (hs : (c.stages mode index calls w)[k]? = some s) (hfailed : s.record.outcome = .failed error) :
    (c.stages mode index calls w).length = k + 1 := by
  obtain ⟨hlt, -⟩ := List.getElem?_eq_some_iff.1 hs
  have hlast : ¬k + 1 < (c.stages mode index calls w).length := by
    intro hk
    have hnone := c.stops?_of_lt mode hs hk
    rw [hfailed] at hnone
    cases hnone
  omega

theorem stop?_of_failed (mode : Mode) {index : Nat} {calls : List (List Value)}
    {w : World State} {k : Nat} {s : Stage} {error : String}
    (hs : (c.stages mode index calls w)[k]? = some s) (hfailed : s.record.outcome = .failed error) :
    c.stop? (c.stages mode index calls w) = some error := by
  rw [stop?, List.getLast?_eq_getElem?, c.length_stages_of_failed mode hs hfailed,
    Nat.add_sub_cancel, hs, Option.bind_some, hfailed]
  rfl

/-- If no call before a failure is violated, none is. -/
theorem unviolated_of_failed (mode : Mode) {index : Nat} {calls : List (List Value)}
    {w : World State} {k : Nat} {s : Stage} {error : String}
    (hs : (c.stages mode index calls w)[k]? = some s) (hfailed : s.record.outcome = .failed error)
    (hearlier : ∀ earlier ∈ ((c.stages mode index calls w).map Stage.record).take k, ∀ v,
      earlier.outcome ≠ .violated v) :
    ∀ t ∈ c.stages mode index calls w, ∀ v, t.record.outcome ≠ .violated v := by
  intro t ht
  obtain ⟨i, hi⟩ := List.mem_iff_getElem?.1 ht
  have hlast : i ≤ k := by
    have hlength := c.length_stages_of_failed mode hs hfailed
    obtain ⟨hlt, -⟩ := List.getElem?_eq_some_iff.1 hi
    omega
  rcases Nat.lt_or_eq_of_le hlast with hlt | rfl
  · have hmem : ((c.stages mode index calls w).map Stage.record)[i]? = some t.record := by
      rw [List.getElem?_map, hi, Option.map_some]
    exact hearlier _ (List.mem_of_getElem? ((List.getElem?_take_of_lt hlt).trans hmem))
  · cases hs.symm.trans hi
    rw [hfailed]
    exact nofun

/-- The two policies have the same run up to the first call that does not return, and the same
run altogether if no condition is violated in it. -/
theorem run_alike (calls : List (List Value)) (times : Nat) (w : World State) :
    ∃ r r' after after', (c.withPolicy .raise).run calls times w = (.ok r, after) ∧
      (c.withPolicy .proceed).run calls times w = (.ok r', after') ∧
      c.Alike calls times w r r' after after' := by
  refine ⟨_, _, _, _, run_eq _ _ _ _, run_eq _ _ _ _, ?_⟩
  have hhistory := c.history_raise calls times w
  have hsubset : (c.withPolicy .raise).history calls times w ⊆
      (c.withPolicy .proceed).history calls times w := by
    rw [hhistory]
    exact List.take_subset ..
  constructor
  case records =>
    simp only [reported]
    rw [hhistory]
    exact map_throughFirstNot (p := Record.returned) Stage.record _
  case history => exact hhistory
  case recorded => rfl
  case ended => rw [← hhistory]; rfl
  case final => rfl
  case unviolated =>
    intro h
    refine Prod.ext_iff.1 (c.reported_eq_of_unviolated fun s hs => ?_)
    rcases h with h | h
    · exact h _ (List.mem_map_of_mem hs)
    · exact h _ (List.mem_map_of_mem (hsubset hs))
  case failed =>
    intro k record error hrecord hfailed hearlier
    simp only [reported] at hrecord hearlier
    obtain ⟨s, hs, rfl⟩ := Option.map_eq_some_iff.1 (List.getElem?_map .. ▸ hrecord)
    have hlength := (c.withPolicy .proceed).length_stages_of_failed _ hs hfailed
    have hstop := (c.withPolicy .proceed).stop?_of_failed _ hs hfailed
    have hunviolated := (c.withPolicy .proceed).unviolated_of_failed _ hs hfailed hearlier
    have hsame := c.reported_eq_of_unviolated fun t ht => hunviolated t (hsubset ht)
    exact ⟨congrArg Prod.fst hsame, congrArg Prod.snd hsame, (List.length_map _).trans hlength,
      hstop⟩

end Compiled

end Covenant
