import Covenant.Proofs.Binary64
import Covenant.Proofs.Compilation

/-! The changes in the records of a run. They are found by comparing the states before and after
a call, not by watching what is written. Still nothing is missed: writing the new values of all
records, one record after another, into the state in which the run began leads through the states
in which its calls ended. The comparison takes the two zeros for the same, so the states agree but
for the signs of zeros. -/

namespace Covenant

/-! ### Fields in order -/

namespace Fields

variable {α : Type} {a b : Fields α}

theorem Ordered.nodup (h : Ordered a) : a.Nodup := by
  refine List.nodup_iff_pairwise_ne.2 (List.Pairwise.imp ?_ h)
  rintro p _ hlt rfl
  exact String.lt_irrefl _ hlt

/-- Fields in order are known by what is found in them. -/
theorem Ordered.eq_of_get? (ha : Ordered a) (hb : Ordered b)
    (h : ∀ name, get? name a = get? name b) : a = b := by
  have hperm : a.Perm b := by
    refine (List.perm_ext_iff_of_nodup ha.nodup hb.nodup).2 fun pair => ?_
    rw [← get?_eq_some_iff ha, ← get?_eq_some_iff hb, h]
  exact hperm.eq_of_pairwise (fun _ _ _ _ hlt hgt => absurd hgt (String.lt_asymm hlt)) ha hb

end Fields

/-! ### Zeros without their signs -/

namespace Value

mutual

/-- The value with every zero in it made the positive one. -/
def unsigned : Value → Value
  | float x => float (if x == 0.0 then 0.0 else x)
  | array items => array (unsignedItems items)
  | object fields => object (unsignedFields fields)
  | v => v

def unsignedItems : List Value → List Value
  | [] => []
  | v :: rest => unsigned v :: unsignedItems rest

def unsignedFields : List (String × Value) → List (String × Value)
  | [] => []
  | (name, v) :: rest => (name, unsigned v) :: unsignedFields rest

end

mutual

/-- What the comparison takes for the same differs in the signs of zeros at most. -/
theorem unsigned_eq_of_same {v w : Value} (h : same v w = true) : unsigned v = unsigned w := by
  cases v <;> cases w <;> simp only [same, Bool.false_eq_true] at h
  case null.null => rfl
  case boolean.boolean a b => rw [LawfulBEq.eq_of_beq h]
  case integer.integer a b => rw [LawfulBEq.eq_of_beq h]
  case string.string a b => rw [LawfulBEq.eq_of_beq h]
  case array.array a b => rw [unsigned, unsigned, unsignedItems_eq_of_same h]
  case object.object a b => rw [unsigned, unsigned, unsignedFields_eq_of_same h]
  case float.float a b =>
    have hzero : ∀ {x : Float}, x = 0.0 ∨ x = -0.0 → (x == 0.0) = true := by
      rintro x (rfl | rfl) <;> decide
    rw [unsigned, unsigned]
    rcases Binary64.eq_of_beq h with rfl | ⟨ha, hb⟩
    · rfl
    · rw [if_pos (hzero ha), if_pos (hzero hb)]

theorem unsignedItems_eq_of_same {v w : List Value} (h : sameItems v w = true) :
    unsignedItems v = unsignedItems w := by
  match v, w with
  | [], [] => rfl
  | v :: vs, w :: ws =>
    rw [sameItems, Bool.and_eq_true] at h
    rw [unsignedItems, unsignedItems, unsigned_eq_of_same h.1, unsignedItems_eq_of_same h.2]

theorem unsignedFields_eq_of_same {v w : List (String × Value)} (h : sameFields v w = true) :
    unsignedFields v = unsignedFields w := by
  match v, w with
  | [], [] => rfl
  | (j, v) :: vs, (k, w) :: ws =>
    rw [sameFields, Bool.and_eq_true, Bool.and_eq_true] at h
    rw [unsignedFields, unsignedFields, unsigned_eq_of_same h.1.2, unsignedFields_eq_of_same h.2,
      LawfulBEq.eq_of_beq h.1.1]

end

theorem get?_unsignedFields (name : String) (fields : Fields Value) :
    Fields.get? name (unsignedFields fields) = (fields.get? name).map unsigned := by
  induction fields with
  | nil => rfl
  | cons pair rest ih =>
    obtain ⟨key, v⟩ := pair
    rw [unsignedFields, Fields.get?_cons, Fields.get?_cons, ih]
    split <;> rfl

theorem map_fst_unsignedFields (fields : Fields Value) :
    (unsignedFields fields).map Prod.fst = fields.map Prod.fst := by
  induction fields with
  | nil => rfl
  | cons pair rest ih => rw [unsignedFields, List.map_cons, List.map_cons, ih]

end Value

namespace State

/-- The fields stand in the order of their names, each once. -/
def Ordered (s : State) : Prop := Fields.Ordered s.fields

def unsigned (s : State) : State := ⟨Value.unsignedFields s.fields⟩

/-- Every field of the one state is a field of the other. -/
def Keeps (before after : State) : Prop :=
  ∀ name, (before.get? name).isSome = true → (after.get? name).isSome = true

theorem Ordered.set {s : State} (h : s.Ordered) (name : String) (v : Value) :
    (s.set name v).Ordered :=
  Fields.ordered_insert name v h

theorem Ordered.unsigned {s : State} (h : s.Ordered) : s.unsigned.Ordered := by
  have hnames : (s.fields.map Prod.fst).Pairwise (· < ·) := List.pairwise_map.2 h
  rw [← Value.map_fst_unsignedFields] at hnames
  exact List.pairwise_map.1 hnames

theorem get?_unsigned (s : State) (name : String) :
    s.unsigned.get? name = (s.get? name).map Value.unsigned :=
  Value.get?_unsignedFields name s.fields

/-- States that agree field by field, but for the signs of zeros. -/
theorem unsigned_eq_of_get? {s t : State} (hs : s.Ordered) (ht : t.Ordered)
    (h : ∀ name, (s.get? name).map Value.unsigned = (t.get? name).map Value.unsigned) :
    s.unsigned = t.unsigned := by
  have hfields : s.unsigned.fields = t.unsigned.fields := by
    refine Fields.Ordered.eq_of_get? hs.unsigned ht.unsigned fun name => ?_
    have hname := h name
    rwa [← get?_unsigned, ← get?_unsigned] at hname
  exact congrArg State.mk hfields

theorem Keeps.refl (s : State) : s.Keeps s := fun _ h => h

theorem Keeps.set {s t : State} (h : s.Keeps t) (name : String) (v : Value) :
    s.Keeps (t.set name v) := by
  intro other hother
  rw [get?_set]
  split
  · rfl
  · exact h other hother

/-! ### The changes of one call -/

/-- The state after the new values of changes have been written. -/
def replay (s : State) (changes : List Change) : State :=
  changes.foldl (fun s change => s.set change.field change.new) s

theorem replay_append (s : State) (xs ys : List Change) :
    s.replay (xs ++ ys) = (s.replay xs).replay ys :=
  List.foldl_append

theorem Ordered.replay {s : State} (h : s.Ordered) (changes : List Change) :
    (s.replay changes).Ordered := by
  induction changes generalizing s with
  | nil => exact h
  | cons change rest ih => exact ih (h.set change.field change.new)

theorem get?_replay_of_notMem (s : State) {changes : List Change} {name : String}
    (h : name ∉ changes.map Change.field) : (s.replay changes).get? name = s.get? name := by
  induction changes generalizing s with
  | nil => rfl
  | cons change rest ih =>
    rw [List.map_cons, List.mem_cons, not_or] at h
    obtain ⟨hne, hrest⟩ := h
    change ((s.set change.field change.new).replay rest).get? name = _
    rw [ih _ hrest, get?_set, if_neg (Ne.symm hne)]

theorem get?_replay_of_mem (s : State) {changes : List Change}
    (hnodup : (changes.map Change.field).Nodup) {change : Change} (h : change ∈ changes) :
    (s.replay changes).get? change.field = some change.new := by
  induction changes generalizing s with
  | nil => cases h
  | cons first rest ih =>
    obtain ⟨hfirst, hrest⟩ := List.nodup_cons.1 hnodup
    change ((s.set first.field first.new).replay rest).get? change.field = _
    rcases List.mem_cons.1 h with rfl | h
    · rw [get?_replay_of_notMem _ hfirst, get?_set, if_pos rfl]
    · exact ih _ hrest h

/-- What a list of changes says about the states before and after a call. -/
structure Listing (before after : State) (changes : List Change) : Prop where
  /-- A field is listed at most once. -/
  nodup : (changes.map Change.field).Nodup
  /-- First come the fields that were there, with the values that they had, in the order of their
  names, and then the new ones, also in order and with null for the value that they had not. -/
  split : ∃ updates additions, changes = updates ++ additions ∧
    updates.Pairwise (fun x y => x.field < y.field) ∧
    additions.Pairwise (fun x y => x.field < y.field) ∧
    (∀ change ∈ updates, before.get? change.field = some change.old) ∧
    ∀ change ∈ additions, before.get? change.field = none ∧ change.old = .null
  /-- Every field that is listed is there after the call, with the value that is listed. -/
  new : ∀ change ∈ changes, after.get? change.field = some change.new
  /-- A field that is not listed has kept its value, but for the signs of zeros. -/
  kept : ∀ name, name ∉ changes.map Change.field →
    (before.get? name).map Value.unsigned = (after.get? name).map Value.unsigned

section
variable {before after : State}

theorem mem_updates_iff (hbefore : before.Ordered) (hkeeps : before.Keeps after)
    {change : Change} :
    change ∈ before.fields.filterMap (Change.ofField? after.fields) ↔
      before.get? change.field = some change.old ∧ after.get? change.field = some change.new ∧
        change.new.same change.old = false := by
  rw [List.mem_filterMap]
  constructor
  · rintro ⟨⟨name, old⟩, hmem, hchange⟩
    have hold : before.get? name = some old := (Fields.get?_eq_some_iff hbefore).2 hmem
    obtain ⟨new, hnew⟩ := Option.isSome_iff_exists.1 (hkeeps name (by rw [hold]; rfl))
    have hnew' : Fields.get? name after.fields = some new := hnew
    simp only [Change.ofField?, hnew'] at hchange
    split at hchange
    · cases hchange
    next hsame =>
      cases hchange
      exact ⟨hold, hnew, by simpa using hsame⟩
  · rintro ⟨hold, hnew, hsame⟩
    have hnew' : Fields.get? change.field after.fields = some change.new := hnew
    refine ⟨(change.field, change.old), Fields.mem_of_get?_eq_some hold, ?_⟩
    simp [Change.ofField?, hnew', hsame]

theorem mem_additions_iff (hafter : after.Ordered) {change : Change} :
    change ∈ after.fields.filterMap (Change.ofNewField? before.fields) ↔
      before.get? change.field = none ∧ change.old = .null ∧
        after.get? change.field = some change.new := by
  rw [List.mem_filterMap]
  constructor
  · rintro ⟨⟨name, new⟩, hmem, hchange⟩
    have hnew : after.get? name = some new := (Fields.get?_eq_some_iff hafter).2 hmem
    rw [Change.ofNewField?] at hchange
    split at hchange
    · cases hchange
    next hnone =>
      cases hchange
      exact ⟨hnone, rfl, hnew⟩
  · rintro ⟨hnone, hold, hnew⟩
    have hnone' : Fields.get? change.field before.fields = none := hnone
    refine ⟨(change.field, change.new), Fields.mem_of_get?_eq_some hnew, ?_⟩
    obtain ⟨field, old, new⟩ := change
    cases hold
    simp [Change.ofNewField?, hnone']

/-- Changes taken from fields in order, each under its own name, are in order. -/
theorem pairwise_filterMap {fields : Fields Value} (h : Fields.Ordered fields)
    {f : String × Value → Option Change}
    (hf : ∀ pair change, f pair = some change → change.field = pair.1) :
    (fields.filterMap f).Pairwise fun x y => x.field < y.field := by
  rw [List.pairwise_filterMap]
  refine h.imp ?_
  intro p q hlt x hx y hy
  rwa [hf p x hx, hf q y hy]

theorem changes_listing (hbefore : before.Ordered) (hafter : after.Ordered)
    (hkeeps : before.Keeps after) : Listing before after (before.changes after) := by
  have hupdates : (before.fields.filterMap (Change.ofField? after.fields)).Pairwise
      fun x y => x.field < y.field := by
    refine pairwise_filterMap hbefore fun pair change h => ?_
    rw [Change.ofField?] at h
    split at h
    · split at h <;> cases h
      rfl
    · cases h
      rfl
  have hadditions : (after.fields.filterMap (Change.ofNewField? before.fields)).Pairwise
      fun x y => x.field < y.field := by
    refine pairwise_filterMap hafter fun pair change h => ?_
    rw [Change.ofNewField?] at h
    split at h <;> cases h
    rfl
  have hne : ∀ {x y : Change}, x.field < y.field → x.field ≠ y.field :=
    fun hlt heq => String.lt_irrefl _ (heq ▸ hlt)
  constructor
  case nodup =>
    rw [changes, List.map_append, List.nodup_append]
    refine ⟨List.pairwise_map.2 (hupdates.imp hne), List.pairwise_map.2 (hadditions.imp hne), ?_⟩
    intro x hx y hy
    obtain ⟨update, hupdate, rfl⟩ := List.mem_map.1 hx
    obtain ⟨addition, haddition, rfl⟩ := List.mem_map.1 hy
    rintro heq
    have hold := ((mem_updates_iff hbefore hkeeps).1 hupdate).1
    rw [heq, ((mem_additions_iff hafter).1 haddition).1] at hold
    cases hold
  case split =>
    refine ⟨_, _, rfl, hupdates, hadditions, fun change h => ?_, fun change h => ?_⟩
    · exact ((mem_updates_iff hbefore hkeeps).1 h).1
    · obtain ⟨hnone, hold, -⟩ := (mem_additions_iff hafter).1 h
      exact ⟨hnone, hold⟩
  case new =>
    intro change h
    rcases List.mem_append.1 h with h | h
    · exact ((mem_updates_iff hbefore hkeeps).1 h).2.1
    · exact ((mem_additions_iff hafter).1 h).2.2
  case kept =>
    intro name h
    have hlisted : ∀ change ∈ before.changes after, change.field ≠ name :=
      fun change hmem heq => h (List.mem_map.2 ⟨change, hmem, heq⟩)
    cases hnew : after.get? name with
    | none =>
      cases hold : before.get? name with
      | none => rfl
      | some old =>
        have hsome := hkeeps name (by rw [hold]; rfl)
        rw [hnew] at hsome
        cases hsome
    | some new =>
      cases hold : before.get? name with
      | none =>
        have hmem := (mem_additions_iff hafter).2
          (show before.get? (Change.mk name .null new).field = none ∧ _ from ⟨hold, rfl, hnew⟩)
        exact absurd rfl (hlisted _ (List.mem_append_right _ hmem))
      | some old =>
        cases hsame : new.same old with
        | true => exact congrArg some (Value.unsigned_eq_of_same hsame).symm
        | false =>
          have hmem := (mem_updates_iff hbefore hkeeps).2
            (show before.get? (Change.mk name old new).field = some old ∧ _ from
              ⟨hold, hnew, hsame⟩)
          exact absurd rfl (hlisted _ (List.mem_append_left _ hmem))

/-- Replaying the changes of a call from a state like the one before it leads to a state like the
one after it. -/
theorem Listing.replay {changes : List Change} (h : Listing before after changes)
    (hafter : after.Ordered) {s : State} (hs : s.Ordered)
    (heq : s.unsigned = before.unsigned) :
    (s.replay changes).unsigned = after.unsigned := by
  refine unsigned_eq_of_get? (hs.replay changes) hafter fun name => ?_
  by_cases hname : name ∈ changes.map Change.field
  · obtain ⟨change, hmem, rfl⟩ := List.mem_map.1 hname
    rw [get?_replay_of_mem s h.nodup hmem, h.new change hmem]
  · rw [get?_replay_of_notMem s hname, ← h.kept name hname, ← get?_unsigned, heq, get?_unsigned]

end

end State

/-! ### Runs -/

/-- What writing fields keeps, a program keeps. -/
theorem Program.run_induction {P : State → Prop} (hset : ∀ s name v, P s → P (s.set name v))
    (locals : Bag) (p : Program) {s : State} (h : P s) : P (p.run locals s).2 := by
  suffices hfrom : ∀ last, P (p.runFrom locals last s).2 from hfrom .null
  induction p generalizing s with
  | nil => exact fun _ => h
  | cons stmt rest ih =>
    intro last
    rw [runFrom]
    cases stmt with
    | assign field e =>
      rw [Statement.run]
      cases e.eval locals s with
      | error _ => exact h
      | ok v => exact ih (hset s field v h) v
    | expr e =>
      rw [Statement.run]
      cases e.eval locals s with
      | error _ => exact h
      | ok v => exact ih h v

namespace Compiled

variable (c : Compiled)

theorem reference_induction {P : State → Prop} (hset : ∀ s name v, P s → P (s.set name v))
    (arguments : List Value) {s : State} (h : P s) : P (c.reference arguments s).state := by
  have hbody := Program.run_induction hset (bind c.parameters arguments) c.body h
  have hcourse := c.reference_course arguments s
  generalize c.reference arguments s = r at hcourse ⊢
  cases hcourse with
  | blocked => exact h
  | failed _ body | broken _ body | returned _ body => rwa [body] at hbody

variable (mode : Mode) {index : Nat} {calls : List (List Value)} {w : World State}

theorem last_take_succ {k : Nat} {s : Stage} (hs : (c.stages mode index calls w)[k]? = some s) :
    Stage.last w ((c.stages mode index calls w).take (k + 1)) = s.after := by
  rw [List.take_add_one, hs, Stage.last, Option.toList_some, List.getLast?_concat]
  rfl

theorem ordered_after {s : Stage} (hs : s ∈ c.stages mode index calls w)
    (h : s.before.state.Ordered) : s.after.state.Ordered := by
  rw [(c.refers_of_mem mode hs).state]
  exact c.reference_induction (fun _ name v h => h.set name v) _ h

/-- The states between the calls of a run have their fields in order if the first has. -/
theorem ordered_last (hw : w.state.Ordered) (k : Nat) :
    (Stage.last w ((c.stages mode index calls w).take k)).state.Ordered := by
  induction k with
  | zero => exact hw
  | succ k ih =>
    cases hs : (c.stages mode index calls w)[k]? with
    | none => simpa [List.take_add_one, hs] using ih
    | some s =>
      rw [← c.before_eq_last mode hs] at ih
      rw [c.last_take_succ mode hs]
      exact c.ordered_after mode (List.mem_of_getElem? hs) ih

theorem ordered_before (hw : w.state.Ordered) {k : Nat} {s : Stage}
    (hs : (c.stages mode index calls w)[k]? = some s) : s.before.state.Ordered := by
  rw [c.before_eq_last mode hs]
  exact c.ordered_last mode hw k

theorem keeps_after {s : Stage} (hs : s ∈ c.stages mode index calls w) :
    s.before.state.Keeps s.after.state := by
  rw [(c.refers_of_mem mode hs).state]
  exact c.reference_induction (fun _ name v h => h.set name v) _ (.refl _)

theorem stage_listing (hw : w.state.Ordered) {k : Nat} {s : Stage}
    (hs : (c.stages mode index calls w)[k]? = some s) :
    State.Listing s.before.state s.after.state s.record.changes := by
  have hmem := List.mem_of_getElem? hs
  have hbefore := c.ordered_before mode hw hs
  have hrefers := c.refers_of_mem mode hmem
  rw [hrefers.changes, ← hrefers.state]
  exact State.changes_listing hbefore (c.ordered_after mode hmem hbefore) (c.keeps_after mode hmem)

/-- Replaying the records of the first calls leads to the state in which these calls ended. -/
theorem replay_stages (hw : w.state.Ordered) (k : Nat) :
    (w.state.replay ((((c.stages mode index calls w).map Stage.record).take k).flatMap
        Record.changes)).unsigned =
      (Stage.last w ((c.stages mode index calls w).take k)).state.unsigned := by
  induction k with
  | zero => rfl
  | succ k ih =>
    rw [List.take_add_one, List.getElem?_map]
    cases hs : (c.stages mode index calls w)[k]? with
    | none =>
      rw [List.take_add_one, hs]
      simpa using ih
    | some s =>
      have hbefore := c.before_eq_last mode hs
      have hafter := c.ordered_after mode (List.mem_of_getElem? hs) (c.ordered_before mode hw hs)
      rw [← hbefore] at ih
      rw [c.last_take_succ mode hs, Option.map_some, Option.toList_some, List.flatMap_append,
        List.flatMap_singleton, State.replay_append]
      exact (c.stage_listing mode hw hs).replay hafter (hw.replay _) ih

/-- What the changes in the records `r.calls` say of the calls that were made. -/
structure Replayed (c : Compiled) (stages : List Stage) (w : World State) (r : Report) : Prop where
  records : r.calls = stages.map Stage.record
  /-- The changes of a call are those from the state before it to the state after it. -/
  listed : ∀ s ∈ stages, State.Listing s.before.state s.after.state s.record.changes
  /-- The records up to a call lead to the state in which the call ended. -/
  after : ∀ (k : Nat) s, stages[k]? = some s →
    (w.state.replay ((r.calls.take (k + 1)).flatMap Record.changes)).unsigned =
      s.after.state.unsigned
  /-- All records lead to the final state. -/
  final : (w.state.replay (r.calls.flatMap Record.changes)).unsigned =
    State.unsigned ⟨r.finalState⟩

/-- Every run of a contract on a state with its fields in order can be replayed from the changes
in its records, and leaves a state of this kind to the next run. -/
theorem run_replayed (c : Compiled) (calls : List (List Value)) (times : Nat) (w : World State)
    (hw : w.state.Ordered) : ∃ r after, c.run calls times w = (.ok r, after) ∧
      r.finalState = after.state.fields ∧ after.state.Ordered ∧
      c.Replayed (c.history calls times w) w r := by
  have hopened : (c.opened calls times w).state.Ordered := by rwa [c.opened_state]
  have hreplay := @replay_stages c c.mode 0 (c.requested calls times) _ hopened
  have hordered := @ordered_last c c.mode 0 (c.requested calls times) _ hopened
  rw [c.opened_state] at hreplay
  refine ⟨_, _, c.run_eq calls times w, rfl, ?_, ?_⟩
  · have hall := hordered (c.history calls times w).length
    rwa [history, List.take_length] at hall
  constructor
  case records => rfl
  case listed =>
    intro s hs
    obtain ⟨k, hk⟩ := List.mem_iff_getElem?.1 hs
    exact c.stage_listing c.mode hopened hk
  case after =>
    intro k s hs
    have hk := hreplay (k + 1)
    rwa [c.last_take_succ c.mode hs] at hk
  case final =>
    have hall := hreplay (c.history calls times w).length
    rwa [history, List.take_length, ← List.length_map, List.take_length] at hall

/-- The counter goes from 0 to 1 and from 1 to 2. -/
theorem run_replayed_counter : Manifest.compiledCounter.start.state.Ordered ∧
    ∃ r after, Manifest.compiledCounter.run [[.integer 1], [.integer 1]] 0
        Manifest.compiledCounter.start = (.ok r, after) ∧ after.state.Ordered ∧
      r.calls.map Record.changes =
        [[⟨"n", .integer 0, .integer 1⟩], [⟨"n", .integer 1, .integer 2⟩]] ∧
      ((State.mk [("n", .integer 0)]).replay (r.calls.flatMap Record.changes)).unsigned =
        State.unsigned ⟨r.finalState⟩ := by
  have hstart : Manifest.compiledCounter.start.state.Ordered := List.pairwise_singleton _ _
  obtain ⟨r, after, hrun, -, hafter, hreplayed⟩ :=
    run_replayed _ [[.integer 1], [.integer 1]] 0 _ hstart
  have hchanges : (Manifest.compiledCounter.run [[.integer 1], [.integer 1]] 0
      Manifest.compiledCounter.start).1.map (fun r => r.calls.map Record.changes) =
      .ok [[⟨"n", .integer 0, .integer 1⟩], [⟨"n", .integer 1, .integer 2⟩]] := by
    with_unfolding_all rfl
  rw [hrun] at hchanges
  exact ⟨hstart, r, after, hrun, hafter, Except.ok.inj hchanges, hreplayed.final⟩

end Compiled

end Covenant
