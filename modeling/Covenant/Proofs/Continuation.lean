import Covenant.Proofs.Ledger

/-! One run after another. Between calls a contract keeps nothing but the state. So a run can be
cut in two anywhere: its calls up to the cut are those of a first run, and the others are, but
for their numbers, those of a second run that starts where the first one ended. If the first run
is ended by one of its calls, there is nothing after it. -/

namespace Covenant.Compiled

variable (c : Compiled)

/-- What stops a run stops every longer one; otherwise the calls go on from the state reached. -/
theorem ledger_append (index : Nat) (xs ys : List (List Value)) (s : State) :
    c.ledger index (xs ++ ys) s =
      match c.halt? (c.ledger index xs s) with
      | some _ => c.ledger index xs s
      | none => c.ledger index xs s ++
        c.ledger (index + xs.length) ys (Posting.last s (c.ledger index xs s)) := by
  induction xs generalizing index s with
  | nil => rfl
  | cons arguments rest ih =>
    rw [List.cons_append]
    cases hstop : (c.posting index arguments s).record.outcome.stops? c.policy with
    | some error =>
      have hhalt : c.halt? [c.posting index arguments s] = some error := hstop
      rw [c.ledger_cons_of_stop _ hstop, c.ledger_cons_of_stop _ hstop, hhalt]
    | none =>
      have hlength : index + (arguments :: rest).length = index + 1 + rest.length := by
        rw [List.length_cons]
        omega
      rw [c.ledger_cons_of_next _ hstop, c.ledger_cons_of_next _ hstop, ih,
        c.halt?_cons_of_next _ hstop, Posting.last_cons, hlength]
      cases c.halt? (c.ledger (index + 1) rest (c.posting index arguments s).state) <;> rfl

/-- The number of the first call has no part in a run but to count from it. -/
theorem ledger_shift (k index : Nat) (calls : List (List Value)) (s : State) :
    c.ledger (index + k) calls s = (c.ledger index calls s).map (Posting.shift k) := by
  induction calls generalizing index s with
  | nil => rfl
  | cons arguments rest ih =>
    have hfirst : c.posting (index + k) arguments s = (c.posting index arguments s).shift k := rfl
    have houtcome : (c.posting (index + k) arguments s).record.outcome =
        (c.posting index arguments s).record.outcome := rfl
    cases hstop : (c.posting index arguments s).record.outcome.stops? c.policy with
    | some error =>
      rw [c.ledger_cons_of_stop rest hstop, c.ledger_cons_of_stop rest (houtcome ▸ hstop), hfirst,
        List.map_singleton]
    | none =>
      rw [c.ledger_cons_of_next rest hstop, c.ledger_cons_of_next rest (houtcome ▸ hstop), hfirst,
        Nat.add_right_comm, ih, List.map_cons]
      rfl

theorem requested_append (xs ys : List (List Value)) (m n : Nat) :
    c.requested (xs ++ ys) (m + n) = c.requested xs m ++ c.requested ys n := by
  rw [requested, requested, requested]
  cases c.mode with
  | direct => rfl
  | deferred arguments _ => exact List.replicate_append_replicate.symm

/-- The report of calls and then of others, if none of the first has ended the run. -/
theorem summary_append {ps : List Posting} (qs : List Posting) (k : Nat) (s : State)
    (h : c.halt? ps = none) : c.summary s (ps ++ qs.map (Posting.shift k)) =
      { c.summary (Posting.last s ps) qs with
        calls := ps.map Posting.record ++ (qs.map Posting.record).map (Record.shift k) } := by
  simp only [summary, c.halt?_append _ _ h, c.halt?_map (Posting.shift k) fun _ => rfl,
    Posting.last_append, Posting.last_map_shift, List.map_append, Posting.map_record_shift]

/-- Some calls, others after them, and a run of both: if none of the first calls ends the run,
the run of both has the records of the first and the renumbered records of the second run, and
ends as the second; if one does, it is the first run. -/
theorem run_append (xs ys : List (List Value)) (m n : Nat) (w : World State) :
    ∃ first middle second last whole after, c.run xs m w = (.ok first, middle) ∧
      c.run ys n middle = (.ok second, last) ∧
      c.run (xs ++ ys) (m + n) w = (.ok whole, after) ∧
      (first.error = none → after.state = last.state ∧ whole = { second with
        calls := first.calls ++ second.calls.map (Record.shift (c.requested xs m).length) }) ∧
      (first.error ≠ none → after.state = middle.state ∧ whole = first) := by
  obtain ⟨middle, hfirst, hmiddle⟩ := c.run_summary xs m w
  obtain ⟨last, hsecond, hlast⟩ := c.run_summary ys n middle
  obtain ⟨after, hwhole, hafter⟩ := c.run_summary (xs ++ ys) (m + n) w
  have hledger := c.ledger_append 0 (c.requested xs m) (c.requested ys n) w.state
  rw [← requested_append, ← hmiddle] at hledger
  refine ⟨_, middle, _, last, _, after, hfirst, hsecond, hwhole, fun hnone => ?_, fun hsome => ?_⟩
  · have hhalt : c.halt? (c.ledger 0 (c.requested xs m) w.state) = none := hnone
    rw [hhalt, c.ledger_shift] at hledger
    rw [hafter, hlast, hledger, Posting.last_append, Posting.last_map_shift, ← hmiddle]
    refine ⟨rfl, ?_⟩
    rw [c.summary_append _ _ _ hhalt, ← hmiddle]
    rfl
  · obtain ⟨error, herror⟩ := Option.ne_none_iff_exists'.1 hsome
    have hhalt : c.halt? (c.ledger 0 (c.requested xs m) w.state) = some error := herror
    rw [hhalt] at hledger
    rw [hafter, hmiddle, hledger]
    exact ⟨rfl, rfl⟩

end Covenant.Compiled
