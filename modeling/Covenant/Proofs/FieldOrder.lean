import Covenant.Proofs.Canonical
import Covenant.Proofs.Changes
import Covenant.Proofs.Conversions

/-! The order of fields, from the text of a manifest to the end of its runs. A text may write the
fields of its objects in any order; they are read in the order of their names, compiled into a
state in that order, and kept in it by every call. So the states of a run are in order without
anybody having to look at them. -/

namespace Covenant

namespace Manifest

theorem Settled.proper {depth : Nat} {j : Json} (h : Settled depth j) : j.Proper :=
  Json.proper_of_ofDocument? h.readable.sound h.means

end Manifest

theorem State.ordered_ofJson {j : Json} (h : j.Proper) :
    (Value.object (State.ofJson j).fields).Ordered := by
  have hordered := Value.ordered_ofJson h
  rw [State.ofJson]
  split
  next fields hfields => rwa [hfields] at hordered
  next => exact ⟨.nil, trivial⟩

namespace Compiled

variable {text : String} {m : Manifest} {c : Compiled}

/-- The state of a manifest that a text writes starts with its fields in order, and with those
of every object in them. -/
theorem ordered_start (hm : Manifest.parse text = .ok m) (hc : m.compile = .ok c) :
    (Value.object c.start.state.fields).Ordered := by
  obtain ⟨-, -, -, -, hinitial, -⟩ := Manifest.compile_eq_ok_iff.1 hc
  change (Value.object c.initial.fields).Ordered
  rw [hinitial]
  exact State.ordered_ofJson (Manifest.canonical_of_parse hm).state.proper

/-- In every run of such a manifest the states before and after every call are in order. -/
theorem ordered_history (hm : Manifest.parse text = .ok m) (hc : m.compile = .ok c)
    (calls : List (List Value)) (times : Nat) :
    ∀ s ∈ c.history calls times c.start, s.before.state.Ordered ∧ s.after.state.Ordered := by
  intro s hs
  have hopened : (c.opened calls times c.start).state.Ordered := by
    rw [c.opened_state]
    exact (ordered_start hm hc).1
  obtain ⟨k, hk⟩ := List.mem_iff_getElem?.1 hs
  have hbefore := c.ordered_before c.mode hopened hk
  exact ⟨hbefore, c.ordered_after c.mode hs hbefore⟩

end Compiled

end Covenant
