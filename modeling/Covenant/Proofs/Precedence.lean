import Covenant.Proofs.Compilation

/-! Which structural error a contract is refused with. Every error says something of an outline on
its own, and the errors have an order: what is wrong with the target comes first, then what is
wrong with the shape of a list, and only then what is wrong with a tuple's predicate, within each
of these list by list. An outline is refused with the first error that is true of it. So the
validator asks only the target and the first items of tuples whether they are callable, and what
comes after a first item does not matter. -/

namespace Covenant

namespace Json

theorem isArray_iff {j : Json} : j.isArray = true ↔ ∃ items, j = array items := by
  cases j <;> simp [isArray]

theorem items_of_not_isArray {j : Json} (h : j.isArray = false) : j.items = [] := by
  cases j with
  | array items => cases h
  | _ => rfl

end Json

namespace Outline

/-! ### The order of errors -/

/-- The errors about the shapes of lists. -/
def shapeErrors : List StructuralError :=
  [.notAnArray .precondition, .notAnArray .postcondition, .notAnArray .invariant,
    .notAnArrayOfArrays .precondition, .notAnArrayOfArrays .postcondition,
    .notAnArrayOfArrays .invariant]

def predicateErrors : List StructuralError :=
  [.missingPredicate .precondition, .missingPredicate .postcondition, .missingPredicate .invariant]

/-- All structural errors; an earlier one outranks a later one. -/
def precedence : List StructuralError := .targetNotCallable :: shapeErrors ++ predicateErrors

/-- What an error says of an outline. -/
def Says (callable : Json → Bool) (o : Outline) : StructuralError → Prop
  | .targetNotCallable => callable o.target = false
  | .notAnArray kind => ¬∃ items, o.lists.get kind = .array items
  | .notAnArrayOfArrays kind => ∃ item ∈ (o.lists.get kind).items, ¬∃ parts, item = .array parts
  | .missingPredicate kind => ∃ tuple ∈ (o.lists.get kind).items, ¬tuple.Leads callable

/-- The validator's question for an error. -/
def asks (callable : Json → Bool) (o : Outline) : StructuralError → Bool
  | .targetNotCallable => !callable o.target
  | .notAnArray kind => !(o.lists.get kind).isArray
  | .notAnArrayOfArrays kind => !(o.lists.get kind).items.all Json.isArray
  | .missingPredicate kind =>
    !(o.lists.get kind).items.all fun tuple => tuple.items.head?.any callable

section
variable {callable : Json → Bool} {o : Outline}

theorem asks_iff {e : StructuralError} : o.asks callable e = true ↔ o.Says callable e := by
  cases e with
  | targetNotCallable => simp [asks, Says]
  | notAnArray kind => simp [asks, Says, ← Json.isArray_iff]
  | notAnArrayOfArrays kind => simp [asks, Says, ← Json.isArray_iff]
  | missingPredicate kind =>
    have hleads : ∀ tuple : Json,
        tuple.Leads callable ↔ tuple.items.head?.any callable = true := by
      intro tuple
      rw [Json.leads_iff, and_iff_right_iff_imp]
      intro h
      by_contra hnone
      rw [Json.items_of_not_isArray (Bool.eq_false_iff.2 hnone)] at h
      cases h
    simp only [asks, Says, hleads]
    simp

theorem asks_eq_false_iff {e : StructuralError} :
    o.asks callable e = false ↔ ¬o.Says callable e := by
  rw [← asks_iff, Bool.not_eq_true]

/-- The validator goes through the errors in their order. -/
theorem fault?_eq : o.fault? callable = precedence.find? (o.asks callable) := by
  have hparts : precedence = [.targetNotCallable] ++ listOrder.map .notAnArray ++
      listOrder.map .notAnArrayOfArrays ++ listOrder.map .missingPredicate := rfl
  rw [hparts]
  simp only [List.find?_append, List.find?_map, fault?, Option.orElse_eq_orElse,
    Option.orElse_eq_or, Option.or_assoc]
  congr 1
  rw [List.find?_singleton, asks]
  cases callable o.target <;> rfl

theorem validate_eq_error_iff {e : StructuralError} :
    o.validate callable = .error e ↔ precedence.find? (o.asks callable) = some e := by
  rw [validate, fault?_eq]
  cases precedence.find? (o.asks callable) <;> simp

end

/-! ### What the validator does not look at -/

/-- The values that are asked whether they are callable. -/
def heads (o : Outline) : List Json :=
  o.target :: listOrder.flatMap fun kind =>
    (o.lists.get kind).items.filterMap fun tuple => tuple.items.head?

/-- Two items that are the same, or two tuples with the same first item. -/
inductive SameHead : Json → Json → Prop
  | refl (j : Json) : SameHead j j
  | tuples (head : Json) (rest rest' : List Json) :
    SameHead (.array (head :: rest)) (.array (head :: rest'))

/-- Two lists that are the same, or match item by item. -/
inductive SameHeads : Json → Json → Prop
  | refl (j : Json) : SameHeads j j
  | lists {items items' : List Json} (h : List.Forall₂ SameHead items items') :
    SameHeads (.array items) (.array items')

/-- The outlines differ at most in what comes after the first items of tuples. -/
structure Resembles (o o' : Outline) : Prop where
  target : o'.target = o.target
  lists : ∀ kind, SameHeads (o.lists.get kind) (o'.lists.get kind)

theorem SameHead.isArray_eq {a b : Json} (h : SameHead a b) : b.isArray = a.isArray := by
  cases h <;> rfl

theorem SameHead.head?_eq {a b : Json} (h : SameHead a b) : b.items.head? = a.items.head? := by
  cases h <;> rfl

theorem SameHeads.isArray_eq {a b : Json} (h : SameHeads a b) : b.isArray = a.isArray := by
  cases h <;> rfl

theorem SameHeads.forall₂ {a b : Json} (h : SameHeads a b) :
    List.Forall₂ SameHead a.items b.items := by
  cases h with
  | refl => exact List.forall₂_same.2 fun j _ => .refl j
  | lists h => exact h

theorem all_eq_of_forall₂ {p q : Json → Bool} {xs ys : List Json}
    (h : List.Forall₂ SameHead xs ys) (hpq : ∀ x ∈ xs, ∀ y, SameHead x y → q y = p x) :
    ys.all q = xs.all p := by
  induction h with
  | nil => rfl
  | cons hxy _ ih =>
    obtain ⟨hx, hxs⟩ := List.forall_mem_cons.1 hpq
    rw [List.all_cons, List.all_cons, hx _ hxy, ih hxs]

theorem mem_heads {o : Outline} {kind : Kind} {tuple head : Json}
    (htuple : tuple ∈ (o.lists.get kind).items) (hhead : tuple.items.head? = some head) :
    head ∈ o.heads := by
  apply List.mem_cons_of_mem
  rw [List.mem_flatMap]
  refine ⟨kind, by cases kind <;> decide, ?_⟩
  exact List.mem_filterMap.2 ⟨tuple, htuple, hhead⟩

/-- The questions have the same answers where the outlines resemble one another and the values that
are asked are callable alike. -/
theorem asks_congr {callable callable' : Json → Bool} {o o' : Outline} (h : o.Resembles o')
    (hcallable : ∀ j ∈ o.heads, callable' j = callable j) :
    o'.asks callable' = o.asks callable := by
  funext e
  cases e with
  | targetNotCallable => rw [asks, asks, h.target, hcallable o.target List.mem_cons_self]
  | notAnArray kind => rw [asks, asks, (h.lists kind).isArray_eq]
  | notAnArrayOfArrays kind =>
    rw [asks, asks, all_eq_of_forall₂ (h.lists kind).forall₂ fun _ _ _ hxy => hxy.isArray_eq]
  | missingPredicate kind =>
    rw [asks, asks, all_eq_of_forall₂ (h.lists kind).forall₂]
    intro x hx y hxy
    rw [hxy.head?_eq]
    cases hhead : x.items.head? with
    | none => rfl
    | some head => exact hcallable head (mem_heads hx hhead)

/-! ### The verdict -/

/-- What is true of the validator's verdict on an outline. -/
structure Ranked (callable : Json → Bool) (o : Outline) : Prop where
  accepts : o.validate callable = .ok () ↔
    callable o.target = true ∧ ∀ kind, ∃ items, o.lists.get kind = .array items ∧
      ∀ tuple ∈ items, ∃ head rest, tuple = .array (head :: rest) ∧ callable head = true
  /-- The error is the first that is true of the outline. -/
  refuses : ∀ e, o.validate callable = .error e ↔
    ∃ graver lesser, precedence = graver ++ e :: lesser ∧ o.Says callable e ∧
      ∀ e' ∈ graver, ¬o.Says callable e'
  /-- Only where all lists are lists of tuples is a predicate missed. -/
  shaped : ∀ kind, o.validate callable = .error (.missingPredicate kind) →
    ∀ other, ∃ tuples : List (List Json), o.lists.get other = .array (tuples.map .array)
  /-- What is not asked, or comes after the first item of a tuple, does not matter. -/
  blind : ∀ callable' o', o.Resembles o' → (∀ j ∈ o.heads, callable' j = callable j) →
    o'.validate callable' = o.validate callable

/-- Where a predicate is missed, no shape error is true. -/
theorem not_says_of_missingPredicate {callable : Json → Bool} {o : Outline} {kind : Kind}
    (h : o.validate callable = .error (.missingPredicate kind)) {e : StructuralError}
    (he : e ∈ shapeErrors) : ¬o.Says callable e := by
  rw [validate_eq_error_iff, precedence, List.find?_append] at h
  cases hshape : (StructuralError.targetNotCallable :: shapeErrors).find? (o.asks callable) with
  | some first =>
    rw [hshape] at h
    cases h
    refine absurd (List.mem_of_find?_eq_some hshape) ?_
    cases kind <;> decide
  | none =>
    have hno := List.find?_eq_none.1 hshape e (List.mem_cons_of_mem _ he)
    rwa [asks_iff] at hno

/-- Lists of which no shape error is true. -/
theorem exists_tuples {callable : Json → Bool} {o : Outline} {kind : Kind}
    (harray : ¬o.Says callable (.notAnArray kind))
    (harrays : ¬o.Says callable (.notAnArrayOfArrays kind)) :
    ∃ tuples : List (List Json), o.lists.get kind = .array (tuples.map .array) := by
  obtain ⟨items, hitems⟩ := not_not.1 harray
  simp only [Says, hitems, Json.items, not_exists, not_and, not_forall, not_not] at harrays
  have htuples : ∃ tuples : List (List Json), items = tuples.map .array := by
    clear hitems
    induction items with
    | nil => exact ⟨[], rfl⟩
    | cons item items ih =>
      obtain ⟨⟨parts, rfl⟩, hrest⟩ := List.forall_mem_cons.1 harrays
      obtain ⟨tuples, rfl⟩ := ih hrest
      exact ⟨parts :: tuples, rfl⟩
  obtain ⟨tuples, rfl⟩ := htuples
  exact ⟨tuples, hitems⟩

/-- The verdict on every outline, whatever counts as callable. -/
theorem validate_ranked (callable : Json → Bool) (o : Outline) : o.Ranked callable where
  accepts := by
    rw [validate_eq_ok_iff, fault?_eq_none_iff]
    rfl
  refuses e := by
    rw [validate_eq_error_iff, List.find?_eq_some_iff_append]
    simp only [asks_iff, Bool.not_eq_true', asks_eq_false_iff]
    constructor
    · rintro ⟨he, graver, lesser, hparts, hgraver⟩
      exact ⟨graver, lesser, hparts, he, hgraver⟩
    · rintro ⟨graver, lesser, hparts, he, hgraver⟩
      exact ⟨he, graver, lesser, hparts, hgraver⟩
  shaped kind h other := by
    apply exists_tuples
    · exact not_says_of_missingPredicate h (by cases other <;> decide)
    · exact not_says_of_missingPredicate h (by cases other <;> decide)
  blind callable' o' h hcallable := by
    rw [validate, validate, fault?_eq, fault?_eq, asks_congr h hcallable]

/-- An item of the last list that is no tuple outranks a predicate that is missed in the first. -/
example : Outline.validate (fun j => j.string?.isSome) ⟨.string "f",
      { preconditions := .array [.array [.null]]
        postconditions := .array []
        invariants := .array [.integer 1] }⟩ = .error (.notAnArrayOfArrays .invariant) := rfl

end Outline

end Covenant
