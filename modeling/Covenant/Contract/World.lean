import Covenant.Journal.Event

/-! The world in which contracts run: a state of any type, and a journal. An act is a step in
it that may read and change the state and note events; noting an event leaves the state as it
is, and a step on the state alone leaves the journal as it is. -/

namespace Covenant

/-- A state, and the events noted so far, newest first. -/
structure World (σ : Type) where
  state : σ
  journal : List Journal.Event

/-- A step that may read and change the state and note events. -/
abbrev Act (σ : Type) := StateM (World σ)

namespace Act

variable {σ α : Type}

def note (e : Journal.Event) : Act σ Unit :=
  modify fun w => { w with journal := e :: w.journal }

def readState : Act σ σ := return (← get).state

/-- A step on the state alone. -/
def onState (step : σ → α × σ) : Act σ α := fun w =>
  let (a, s) := step w.state
  (a, { w with state := s })

@[simp] theorem note_run (e : Journal.Event) (w : World σ) :
    note e w = ((), ⟨w.state, e :: w.journal⟩) := rfl

@[simp] theorem readState_run (w : World σ) : readState w = (w.state, w) := rfl

@[simp] theorem onState_run (step : σ → α × σ) (w : World σ) :
    onState step w = ((step w.state).1, ⟨(step w.state).2, w.journal⟩) := rfl

end Act

end Covenant
