/-! Named fields in the order of their names, each name once. Names are ordered by their
code points. The view of a list of fields is its lookup `get?`; writing a field changes the
view at that name only (`get?_insert`) and keeps the order (`ordered_insert`). -/

namespace Covenant

abbrev Fields (α : Type) := List (String × α)

namespace Fields

variable {α β : Type}

def get? (name : String) : Fields α → Option α
  | [] => none
  | (key, value) :: rest => if key = name then some value else get? name rest

/-- Writes one field: in place where the name is there, else before the first larger name. -/
def insert (name : String) (value : α) : Fields α → Fields α
  | [] => [(name, value)]
  | (key, old) :: rest =>
    if key = name then (name, value) :: rest
    else if name < key then (name, value) :: (key, old) :: rest
    else (key, old) :: insert name value rest

/-- The fields of a list of pairs, a later pair replacing an earlier one of its name. -/
def ofList (pairs : List (String × α)) : Fields α :=
  pairs.foldl (fun fields pair => fields.insert pair.1 pair.2) []

def Ordered (fields : Fields α) : Prop := fields.Pairwise fun a b => a.1 < b.1

@[simp] theorem get?_nil (name : String) : get? name ([] : Fields α) = none := rfl

@[simp] theorem get?_cons (name key : String) (value : α) (rest : Fields α) :
    get? name ((key, value) :: rest) = if key = name then some value else get? name rest := rfl

theorem get?_insert_self (name : String) (value : α) (fields : Fields α) :
    get? name (insert name value fields) = some value := by
  induction fields with
  | nil => simp [insert]
  | cons pair rest ih =>
    obtain ⟨key, old⟩ := pair
    rw [insert]
    split
    · simp
    · split <;> simp_all

theorem get?_insert_of_ne {name other : String} (h : other ≠ name) (value : α)
    (fields : Fields α) : get? other (insert name value fields) = get? other fields := by
  have h' : name ≠ other := fun e => h e.symm
  induction fields with
  | nil => simp [insert, h']
  | cons pair rest ih =>
    obtain ⟨key, old⟩ := pair
    rw [insert]
    split
    · simp_all
    · split <;> simp_all

theorem get?_insert (name other : String) (value : α) (fields : Fields α) :
    get? other (insert name value fields) =
      if name = other then some value else get? other fields := by
  by_cases h : name = other
  · subst h; simp [get?_insert_self]
  · rw [get?_insert_of_ne fun e => h e.symm, if_neg h]

theorem mem_of_get?_eq_some {name : String} {value : α} {fields : Fields α}
    (h : get? name fields = some value) : (name, value) ∈ fields := by
  induction fields with
  | nil => simp at h
  | cons pair rest ih =>
    obtain ⟨key, old⟩ := pair
    rw [get?_cons] at h
    split at h
    next e =>
      cases h
      rw [e]
      exact List.mem_cons_self
    next => exact List.mem_cons_of_mem _ (ih h)

/-! ### Order -/

theorem lt_of_not_lt_of_ne {a b : String} (h : ¬a < b) (h' : b ≠ a) : b < a := by
  by_cases hb : b < a
  · exact hb
  · exact absurd (String.le_antisymm (String.not_lt.1 h) (String.not_lt.1 hb)) h'

theorem mem_insert {name : String} {value : α} {fields : Fields α} {pair : String × α}
    (h : pair ∈ insert name value fields) : pair = (name, value) ∨ pair ∈ fields := by
  induction fields with
  | nil => exact .inl (List.mem_singleton.1 h)
  | cons first rest ih =>
    obtain ⟨key, old⟩ := first
    rw [insert] at h
    split at h
    · rcases List.mem_cons.1 h with h | h
      · exact .inl h
      · exact .inr (List.mem_cons_of_mem _ h)
    · split at h
      · exact List.mem_cons.1 h
      · rcases List.mem_cons.1 h with h | h
        · exact .inr (h ▸ List.mem_cons_self)
        · exact (ih h).imp_right (List.mem_cons_of_mem _)

theorem ordered_insert (name : String) (value : α) {fields : Fields α} (h : Ordered fields) :
    Ordered (insert name value fields) := by
  induction fields with
  | nil => exact List.pairwise_singleton _ _
  | cons first rest ih =>
    obtain ⟨key, old⟩ := first
    obtain ⟨hfirst, hrest⟩ := List.pairwise_cons.1 h
    rw [insert]
    split
    next e => exact List.pairwise_cons.2 ⟨fun p hp => e ▸ hfirst p hp, hrest⟩
    next hne =>
      split
      next hlt =>
        refine List.pairwise_cons.2 ⟨fun p hp => ?_, h⟩
        rcases List.mem_cons.1 hp with rfl | hp
        · exact hlt
        · exact String.lt_trans hlt (hfirst p hp)
      next hnot =>
        refine List.pairwise_cons.2 ⟨fun p hp => ?_, ih hrest⟩
        rcases mem_insert hp with rfl | hp
        · exact lt_of_not_lt_of_ne hnot hne
        · exact hfirst p hp

theorem ordered_ofList (pairs : List (String × α)) : Ordered (ofList pairs) := by
  suffices h : ∀ fields : Fields α, Ordered fields →
      Ordered (pairs.foldl (fun fields pair => fields.insert pair.1 pair.2) fields) from
    h [] List.Pairwise.nil
  induction pairs with
  | nil => exact fun _ h => h
  | cons pair rest ih => exact fun _ h => ih _ (ordered_insert _ _ h)

/-- In order, a field is found exactly where it stands. -/
theorem get?_eq_some_iff {name : String} {value : α} {fields : Fields α} (h : Ordered fields) :
    get? name fields = some value ↔ (name, value) ∈ fields := by
  refine ⟨mem_of_get?_eq_some, fun hm => ?_⟩
  induction fields with
  | nil => simp at hm
  | cons first rest ih =>
    obtain ⟨key, old⟩ := first
    obtain ⟨hfirst, hrest⟩ := List.pairwise_cons.1 h
    rw [get?_cons]
    rcases List.mem_cons.1 hm with e | hm
    · cases e
      simp
    · have hlt := hfirst _ hm
      rw [if_neg fun e => String.lt_irrefl _ (e ▸ hlt)]
      exact ih hrest hm

end Fields

end Covenant
