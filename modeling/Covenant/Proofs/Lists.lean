import Mathlib.Data.List.Forall2

/-! Lists item by item. A function that goes through a list one item after another is a map, a
map that can fail, or a condition on every item; two lists that match are read from either
side. -/

namespace Covenant

section
variable {α β : Type}

/-- What goes through a list item by item is a map. -/
theorem eq_map_of_cons (f : List α → List β) {g : α → β} (hnil : f [] = [])
    (hcons : ∀ x xs, f (x :: xs) = g x :: f xs) (xs : List α) : f xs = xs.map g := by
  induction xs with
  | nil => exact hnil
  | cons x xs ih => rw [hcons, ih, List.map_cons]

theorem eq_mapM_of_cons (f : List α → Option (List β)) {g : α → Option β} (hnil : f [] = some [])
    (hcons : ∀ x xs, f (x :: xs) = do return (← g x) :: (← f xs)) (xs : List α) :
    f xs = xs.mapM g := by
  induction xs with
  | nil => exact hnil
  | cons x xs ih => rw [hcons, ih, List.mapM_cons]

theorem iff_forall_of_cons (p : List α → Prop) {q : α → Prop} (hnil : p [])
    (hcons : ∀ x xs, p (x :: xs) ↔ q x ∧ p xs) {xs : List α} : p xs ↔ ∀ x ∈ xs, q x := by
  induction xs with
  | nil => simpa using hnil
  | cons x xs ih => rw [hcons, ih, List.forall_mem_cons]

/-- Items are taken to results one by one. -/
theorem mapM_eq_some_iff {f : α → Option β} {xs : List α} {ys : List β} :
    xs.mapM f = some ys ↔ List.Forall₂ (fun x y => f x = some y) xs ys := by
  induction xs generalizing ys with
  | nil =>
    rw [List.forall₂_nil_left_iff]
    exact ⟨fun h => (Option.some.inj h).symm, fun h => congrArg some h.symm⟩
  | cons x xs ih =>
    rw [List.mapM_cons, List.forall₂_cons_left_iff]
    simp only [Option.bind_eq_bind, Option.bind_eq_some_iff, ih, Option.pure_def, Option.some.injEq,
      exists_and_left]
    exact exists_congr fun y => and_congr_right fun _ =>
      exists_congr fun ys' => and_congr_right fun _ => eq_comm

/-- What is made of each result can be made of the list of them. -/
theorem mapM_eq_map_mapM {γ : Type} {f : α → Option γ} {g : α → Option β} {k : β → γ}
    {xs : List α} (h : ∀ x ∈ xs, f x = (g x).map k) : xs.mapM f = (xs.mapM g).map (List.map k) := by
  induction xs with
  | nil => rfl
  | cons x xs ih =>
    obtain ⟨hx, hxs⟩ := List.forall_mem_cons.1 h
    rw [List.mapM_cons, List.mapM_cons, hx, ih hxs]
    cases g x <;> cases xs.mapM g <;> rfl

theorem exists_forall₂ {r : α → β → Prop} {xs : List α} (h : ∀ x ∈ xs, ∃ y, r x y) :
    ∃ ys, List.Forall₂ r xs ys := by
  induction xs with
  | nil => exact ⟨[], .nil⟩
  | cons x xs ih =>
    obtain ⟨⟨y, hy⟩, hxs⟩ := List.forall_mem_cons.1 h
    obtain ⟨ys, hys⟩ := ih hxs
    exact ⟨y :: ys, .cons hy hys⟩

theorem exists_of_forall₂ {r : α → β → Prop} {xs : List α} {ys : List β}
    (h : List.Forall₂ r xs ys) {i : Nat} {y : β} (hy : ys[i]? = some y) :
    ∃ x, xs[i]? = some x ∧ r x y := by
  induction h generalizing i with
  | nil => cases hy
  | cons hr _ ih =>
    cases i with
    | zero =>
      cases hy
      exact ⟨_, rfl, hr⟩
    | succ i => exact ih hy

theorem exists_of_mem_right {r : α → β → Prop} {xs : List α} {ys : List β}
    (h : List.Forall₂ r xs ys) {y : β} (hy : y ∈ ys) : ∃ x ∈ xs, r x y := by
  obtain ⟨i, hi⟩ := List.getElem?_of_mem hy
  obtain ⟨x, hx, hxy⟩ := exists_of_forall₂ h hi
  exact ⟨x, List.mem_of_getElem? hx, hxy⟩

theorem exists_mapM_eq_some_iff {f : α → Option β} {xs : List α} :
    (∃ ys, xs.mapM f = some ys) ↔ ∀ x ∈ xs, ∃ y, f x = some y := by
  simp only [mapM_eq_some_iff]
  refine ⟨fun ⟨ys, hys⟩ x hx => ?_, exists_forall₂⟩
  obtain ⟨y, -, hy⟩ := exists_of_mem_right hys.flip hx
  exact ⟨y, hy⟩

end

end Covenant
