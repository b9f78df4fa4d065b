import Covenant.Proofs.Decoding
import Mathlib.Data.List.Perm.Lattice

/-! The order of members has no meaning. Where no object has two members of one name, two
documents that differ in the order of members, at whatever depth, mean the same, and every
decoder of single fields answers the same for them. -/

namespace Covenant

namespace Fields

variable {α : Type}

theorem insert_perm {name : String} {fields : Fields α} (h : ∀ p ∈ fields, p.1 ≠ name)
    (value : α) : (insert name value fields).Perm ((name, value) :: fields) := by
  induction fields with
  | nil => exact .refl _
  | cons pair rest ih =>
    obtain ⟨key, old⟩ := pair
    obtain ⟨hkey, hrest⟩ := List.forall_mem_cons.1 h
    rw [insert, if_neg hkey]
    split
    · exact .refl _
    · exact ((ih hrest).cons _).trans (.swap _ _ _)

/-- Pairs with different names are only put in order. -/
theorem ofList_perm {pairs : List (String × α)} (h : (pairs.map Prod.fst).Nodup) :
    (ofList pairs).Perm pairs := by
  suffices hstep : ∀ before : Fields α, ((before ++ pairs).map Prod.fst).Nodup →
      (pairs.foldl (fun fields pair => fields.insert pair.1 pair.2) before).Perm
        (before ++ pairs) from hstep [] h
  clear h
  induction pairs with
  | nil => simp
  | cons pair rest ih =>
    intro before h
    have hnew : ∀ p ∈ before, p.1 ≠ pair.1 := by
      intro p hp
      rw [List.map_append, List.nodup_append] at h
      exact h.2.2 p.1 (List.mem_map_of_mem hp) pair.1 (by simp)
    have hstep : (insert pair.1 pair.2 before ++ rest).Perm (before ++ pair :: rest) :=
      ((insert_perm hnew pair.2).append_right rest).trans List.perm_middle.symm
    exact (ih _ ((hstep.map _).nodup_iff.2 h)).trans hstep

/-- So the order in which they are given has no meaning. -/
theorem ofList_eq_of_perm {a b : List (String × α)} (hab : a.Perm b)
    (h : (a.map Prod.fst).Nodup) : ofList a = ofList b := by
  have hperm : (ofList a).Perm (ofList b) :=
    (ofList_perm h).trans (hab.trans (ofList_perm ((hab.map _).nodup_iff.1 h)).symm)
  refine List.Perm.eq_of_pairwise (fun p q _ _ hpq hqp => ?_) (ordered_ofList a)
    (ordered_ofList b) hperm
  exact absurd (String.lt_trans hpq hqp) (String.lt_irrefl _)

end Fields

namespace Document

/-- No object has two members of one name; for all objects in a document, `All Distinct`. -/
def Distinct : Document → Prop
  | object members => (members.map Prod.fst).Nodup
  | _ => True

/-- The documents differ in the order of the members of one object. -/
inductive Reordered : Document → Document → Prop
  | here {as bs : List (String × Document)} (h : as.Perm bs) : Reordered (object as) (object bs)
  | item {a b : Document} (before after : List Document) (h : Reordered a b) :
    Reordered (array (before ++ a :: after)) (array (before ++ b :: after))
  | member {a b : Document} (before after : List (String × Document)) (name : String)
    (h : Reordered a b) : Reordered (object (before ++ (name, a) :: after))
      (object (before ++ (name, b) :: after))

namespace Reordered

variable {a b : Document}

theorem symm (h : Reordered a b) : Reordered b a := by
  induction h with
  | here h => exact .here h.symm
  | item before after _ ih => exact .item before after ih
  | member before after name _ ih => exact .member before after name ih

theorem distinct (h : Reordered a b) (ha : a.All Distinct) : b.All Distinct := by
  induction h with
  | here h =>
    obtain ⟨hnames, hmembers⟩ := all_object.1 ha
    exact all_object.2 ⟨(h.map _).nodup_iff.1 hnames, fun m hm => hmembers m (h.mem_iff.2 hm)⟩
  | item before after _ ih =>
    simp only [all_array, List.forall_mem_append, List.forall_mem_cons] at ha ⊢
    exact ⟨trivial, ha.2.1, ih ha.2.2.1, ha.2.2.2⟩
  | member before after name _ ih =>
    simp only [all_object, List.forall_mem_append, List.forall_mem_cons] at ha ⊢
    refine ⟨?_, ha.2.1, ih ha.2.2.1, ha.2.2.2⟩
    simpa [Distinct] using ha.1

theorem ofDocument?_of_perm {as bs : List (String × Document)} (h : as.Perm bs)
    (has : (as.map Prod.fst).Nodup) {depth : Nat} {j : Json}
    (hj : Json.ofDocument? depth (object as) = some j) :
    Json.ofDocument? depth (object bs) = some j := by
  obtain ⟨k, pairs, rfl, rfl, hpairs⟩ := Json.ofDocument?_object_eq_some_iff.1 hj
  obtain ⟨pairs', hpairs', hperm⟩ := List.perm_comp_forall₂ h.symm hpairs
  refine Json.ofDocument?_object_eq_some_iff.2 ⟨k, pairs', rfl, ?_, hpairs'⟩
  have hnames : List.Forall₂ (· = ·) (as.map Prod.fst) (pairs.map Prod.fst) := by
    rw [List.forall₂_map_left_iff, List.forall₂_map_right_iff]
    refine hpairs.imp fun m p hp => ?_
    obtain ⟨j, -, rfl⟩ := Option.map_eq_some_iff.1 hp
    rfl
  rw [List.forall₂_eq_eq_eq] at hnames
  rw [Fields.ofList_eq_of_perm hperm.symm (hnames ▸ has)]

/-- Reordered documents mean the same. -/
theorem ofDocument?_eq (h : Reordered a b) (ha : a.All Distinct) (depth : Nat) :
    Json.ofDocument? depth a = Json.ofDocument? depth b := by
  induction h generalizing depth with
  | here h =>
    have hnames := (all_object.1 ha).1
    exact Option.ext fun j => ⟨ofDocument?_of_perm h hnames,
      ofDocument?_of_perm h.symm ((h.map _).nodup_iff.1 hnames)⟩
  | item before after _ ih =>
    simp only [all_array, List.forall_mem_append, List.forall_mem_cons] at ha
    simp only [Json.ofDocument?, Json.ofItems?_eq, List.mapM_append, List.mapM_cons, ih ha.2.2.1]
  | member before after name _ ih =>
    simp only [all_object, List.forall_mem_append, List.forall_mem_cons] at ha
    simp only [Json.ofDocument?, Json.ofMembers?_eq, List.mapM_append, List.mapM_cons,
      ih ha.2.2.1]

end Reordered

end Document

/-! ### Decoders of fields -/

open Document (Distinct Reordered)

section
variable {α : Type}

/-- The decoder answers the same for reordered documents. -/
def Blind (item : Decoder α) : Prop :=
  ∀ ⦃a b⦄, a.All Distinct → Reordered a b → ∀ depth, item depth a = item depth b

theorem blind_json : Blind Decoder.json := fun _ _ ha h depth => h.ofDocument?_eq ha depth

theorem blind_string : Blind Decoder.string := by
  intro a b _ h depth
  cases h <;> rfl

theorem blind_boolean : Blind Decoder.boolean := by
  intro a b _ h depth
  cases h <;> rfl

theorem blind_natural : Blind Decoder.natural := by
  intro a b _ h depth
  cases h <;> rfl

theorem choice_object (alternatives : List (String × α)) {members : List (String × Document)}
    (h : ∀ name, members ≠ [(name, .null)]) (depth : Nat) :
    Decoder.choice alternatives depth (.object members) = none := by
  unfold Decoder.choice
  split
  next heq => cases heq
  next heq =>
    cases heq
    exact absurd rfl (h _)
  next => rfl

theorem blind_choice (alternatives : List (String × α)) : Blind (Decoder.choice alternatives) := by
  intro a b _ h depth
  cases h with
  | @here as bs h =>
    by_cases hnull : ∃ name, as = [(name, .null)]
    · obtain ⟨name, rfl⟩ := hnull
      rw [List.singleton_perm.1 h]
    · have hbs : ∀ name, bs ≠ [(name, .null)] := by
        rintro name rfl
        exact hnull ⟨name, List.perm_singleton.1 h⟩
      rw [choice_object _ (fun name e => hnull ⟨name, e⟩), choice_object _ hbs]
  | item before after h => cases depth <;> rfl
  | @member a b before after name h =>
    -- the one member has a container for its value, so it names nothing
    have hne : ∀ c, c ≠ .null → ∀ other, before ++ (name, c) :: after ≠ [(other, .null)] := by
      intro c hc other e
      have hmem : (name, c) ∈ before ++ (name, c) :: after := by simp
      rw [e, List.mem_singleton] at hmem
      exact hc (Prod.mk.inj hmem).2
    have hnull : a ≠ .null ∧ b ≠ .null := by cases h <;> simp
    rw [choice_object _ (hne a hnull.1), choice_object _ (hne b hnull.2)]

theorem find?_eq_some_iff_mem {members : List (String × Document)}
    (h : (members.map Prod.fst).Nodup) {name : String} {m : String × Document} :
    members.find? (fun m => m.1 = name) = some m ↔ m ∈ members ∧ m.1 = name := by
  refine ⟨fun hfind => ⟨List.mem_of_find?_eq_some hfind, by simpa using List.find?_some hfind⟩, ?_⟩
  rintro ⟨hm, rfl⟩
  induction members with
  | nil => exact absurd hm List.not_mem_nil
  | cons first rest ih =>
    obtain ⟨hfirst, hrest⟩ := List.nodup_cons.1 h
    rcases List.mem_cons.1 hm with rfl | hm
    · simp
    · have hne : first.1 ≠ m.1 := fun e => hfirst (e ▸ List.mem_map_of_mem hm)
      rw [List.find?_cons_of_neg (by simpa using hne)]
      exact ih hrest hm

/-- A field is the same in records with the same members. -/
theorem field_eq_of_perm (item : Decoder α) {as bs : List (String × Document)} (h : as.Perm bs)
    (has : (as.map Prod.fst).Nodup) (name : String) (absent : Option α) (depth : Nat) :
    Decoder.field name item absent depth as = Decoder.field name item absent depth bs := by
  have hfind : as.find? (fun m => m.1 = name) = bs.find? (fun m => m.1 = name) := by
    refine Option.ext fun m => ?_
    rw [find?_eq_some_iff_mem has, find?_eq_some_iff_mem ((h.map _).nodup_iff.1 has), h.mem_iff]
  rw [Decoder.field, Decoder.field, hfind]

theorem field_eq_of_reordered {item : Decoder α} (hitem : Blind item)
    {as bs : List (String × Document)} (h : Reordered (.object as) (.object bs))
    (has : (Document.object as).All Distinct) (name : String) (absent : Option α) (depth : Nat) :
    Decoder.field name item absent depth as = Decoder.field name item absent depth bs := by
  obtain ⟨hnames, hmembers⟩ := Document.all_object.1 has
  cases h with
  | here h => exact field_eq_of_perm item h hnames name absent depth
  | @member a b before after other h =>
    have hitem : ∀ depth, item depth a = item depth b := hitem (hmembers (other, a) (by simp)) h
    simp only [Decoder.field, List.find?_append, List.find?_cons]
    by_cases hname : other = name
    · cases before.find? (fun m => m.1 = name) <;> simp [hname, hitem]
    · simp [hname]

end

end Covenant
