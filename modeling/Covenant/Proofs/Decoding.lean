import Covenant.Json.Decoder
import Covenant.Proofs.Documents

/-! Decoding documents. A decoder answers with a datum for a document when it does so at every
depth that the nesting of the document does not pass. A container is decoded from its parts,
and a record from its members. -/

namespace Covenant

namespace Fields

variable {α β : Type}

theorem insert_of_forall_lt {name : String} {fields : Fields α} (h : ∀ p ∈ fields, p.1 < name)
    (value : α) : insert name value fields = fields ++ [(name, value)] := by
  induction fields with
  | nil => rfl
  | cons pair rest ih =>
    obtain ⟨key, old⟩ := pair
    obtain ⟨hkey, hrest⟩ := List.forall_mem_cons.1 h
    have hne : key ≠ name := fun e => String.lt_irrefl _ (e ▸ hkey)
    have hnot : ¬name < key := fun hlt => String.lt_irrefl _ (String.lt_trans hlt hkey)
    rw [insert, if_neg hne, if_neg hnot, ih hrest, List.cons_append]

/-- Fields in order are taken in as they are. -/
theorem ofList_of_ordered {fields : Fields α} (h : Ordered fields) : ofList fields = fields := by
  suffices hstep : ∀ before : Fields α, Ordered (before ++ fields : Fields α) →
      fields.foldl (fun fields pair => fields.insert pair.1 pair.2) before =
        (before ++ fields : Fields α) from hstep [] h
  clear h
  induction fields with
  | nil => simp
  | cons pair rest ih =>
    intro before h
    have hlt : ∀ p ∈ before, p.1 < pair.1 := fun p hp =>
      (List.pairwise_append.1 h).2.2 p hp pair List.mem_cons_self
    rw [List.foldl_cons, insert_of_forall_lt hlt, ih]
    · simp
    · simpa using h

theorem mem_ofList {pairs : List (String × α)} {pair : String × α} (h : pair ∈ ofList pairs) :
    pair ∈ pairs := by
  suffices hstep : ∀ before : Fields α,
      pair ∈ pairs.foldl (fun fields pair => fields.insert pair.1 pair.2) before →
        pair ∈ before ∨ pair ∈ pairs from (hstep [] h).resolve_left List.not_mem_nil
  clear h
  induction pairs with
  | nil => exact fun _ h => .inl h
  | cons first rest ih =>
    intro before h
    rcases ih _ h with h | h
    · rcases mem_insert h with rfl | h
      · exact .inr List.mem_cons_self
      · exact .inl h
    · exact .inr (List.mem_cons_of_mem _ h)

theorem ordered_map {fields : Fields α} (h : Ordered fields) (f : α → β) :
    Ordered (fields.map fun p => (p.1, f p.2) : Fields β) :=
  List.Pairwise.map _ (fun _ _ hlt => hlt) h

theorem insert_map (name : String) (value : α) (fields : Fields α) (f : α → β) :
    insert name (f value) (fields.map fun p => (p.1, f p.2)) =
      (insert name value fields).map fun p => (p.1, f p.2) := by
  induction fields with
  | nil => rfl
  | cons pair rest ih =>
    obtain ⟨key, old⟩ := pair
    rw [List.map_cons, insert, insert, ih]
    split
    · rfl
    · split <;> rfl

/-- Values can be changed before or after they are taken in. -/
theorem ofList_map (pairs : List (String × α)) (f : α → β) :
    ofList (pairs.map fun p => (p.1, f p.2)) = (ofList pairs).map fun p => (p.1, f p.2) := by
  suffices hstep : ∀ before : Fields α,
      (pairs.map fun p => (p.1, f p.2)).foldl
          (fun (fields : Fields β) pair => fields.insert pair.1 pair.2)
          (before.map fun p => (p.1, f p.2)) =
        (pairs.foldl (fun fields pair => fields.insert pair.1 pair.2) before).map
          fun p => (p.1, f p.2) from hstep []
  induction pairs with
  | nil => exact fun _ => rfl
  | cons pair rest ih =>
    intro before
    rw [List.map_cons, List.foldl_cons, List.foldl_cons, ← ih, ← insert_map]

end Fields

/-! ### Nesting -/

namespace Document

mutual

/-- The most levels of arrays and objects around a part. -/
def depth : Document → Nat
  | array items => itemsDepth items + 1
  | object members => membersDepth members + 1
  | _ => 0

def itemsDepth : List Document → Nat
  | [] => 0
  | d :: rest => max (depth d) (itemsDepth rest)

def membersDepth : List (String × Document) → Nat
  | [] => 0
  | (_, d) :: rest => max (depth d) (membersDepth rest)

end

theorem itemsDepth_le_iff {items : List Document} {n : Nat} :
    itemsDepth items ≤ n ↔ ∀ d ∈ items, d.depth ≤ n :=
  iff_forall_of_cons (fun items => itemsDepth items ≤ n) (Nat.zero_le n) fun _ _ => Nat.max_le

theorem membersDepth_le_iff {members : List (String × Document)} {n : Nat} :
    membersDepth members ≤ n ↔ ∀ m ∈ members, m.2.depth ≤ n :=
  iff_forall_of_cons (fun members => membersDepth members ≤ n) (Nat.zero_le n) fun _ _ => Nat.max_le

theorem depth_array_le_iff {items : List Document} {n : Nat} :
    (array items).depth ≤ n ↔ ∃ k, n = k + 1 ∧ ∀ d ∈ items, d.depth ≤ k := by
  simp only [← itemsDepth_le_iff, depth]
  exact ⟨fun h => ⟨n - 1, by omega⟩, fun ⟨k, hk, h⟩ => by omega⟩

theorem depth_object_le_iff {members : List (String × Document)} {n : Nat} :
    (object members).depth ≤ n ↔ ∃ k, n = k + 1 ∧ ∀ m ∈ members, m.2.depth ≤ k := by
  simp only [← membersDepth_le_iff, depth]
  exact ⟨fun h => ⟨n - 1, by omega⟩, fun ⟨k, hk, h⟩ => by omega⟩

theorem depth_object_le_of_cons {m : String × Document} {rest : List (String × Document)} {n : Nat}
    (h : (object (m :: rest)).depth ≤ n) : (object rest).depth ≤ n := by
  obtain ⟨k, rfl, hmembers⟩ := depth_object_le_iff.1 h
  exact depth_object_le_iff.2 ⟨k, rfl, (List.forall_mem_cons.1 hmembers).2⟩

end Document

/-! ### Decoders -/

section
variable {α β γ : Type}

theorem mapM_eq_some_map {f : α → Option β} {g : α → β} {xs : List α}
    (h : ∀ x ∈ xs, f x = some (g x)) : xs.mapM f = some (xs.map g) := by
  rw [mapM_eq_some_iff, List.forall₂_map_right_iff, List.forall₂_same]
  exact h

/-- The document is decoded as the datum wherever its nesting is allowed. -/
def Decodes (item : Decoder α) (x : α) (d : Document) : Prop :=
  ∀ depth, d.depth ≤ depth → item depth d = some x

namespace Decodes

variable {item : Decoder α} {f : γ → Document} {g : γ → α}

theorem list {xs : List γ} (h : ∀ x ∈ xs, Decodes item (g x) (f x)) :
    Decodes (Decoder.list item) (xs.map g) (.array (xs.map f)) := by
  intro depth hdepth
  obtain ⟨depth, rfl, hitems⟩ := Document.depth_array_le_iff.1 hdepth
  rw [Decoder.list, List.mapM_map]
  exact mapM_eq_some_map fun x hx => h x hx depth (hitems _ (List.mem_map_of_mem hx))

theorem fields {fs : Fields γ} (hordered : Fields.Ordered fs)
    (h : ∀ p ∈ fs, Decodes item (g p.2) (f p.2)) :
    Decodes (Decoder.fields item) (fs.map fun p => (p.1, g p.2))
      (.object (fs.map fun p => (p.1, f p.2))) := by
  intro depth hdepth
  obtain ⟨depth, rfl, hmembers⟩ := Document.depth_object_le_iff.1 hdepth
  have hfields : fs.mapM (fun p => (item depth (f p.2)).map (p.1, ·)) =
      some (fs.map fun p => (p.1, g p.2)) :=
    mapM_eq_some_map fun p hp => by
      rw [h p hp depth (hmembers _ (List.mem_map_of_mem hp)), Option.map_some]
  rw [Decoder.fields, List.mapM_map]
  change (fs.mapM fun p => (item depth (f p.2)).map (p.1, ·)).map Fields.ofList = _
  rw [hfields, Option.map_some, Fields.ofList_of_ordered (Fields.ordered_map hordered g)]

theorem string (s : String) : Decodes Decoder.string s (.string s) := fun _ _ => rfl

theorem boolean (b : Bool) : Decodes Decoder.boolean b (.boolean b) := fun _ _ => rfl

theorem natural {n : Nat} (h : n < 2 ^ 64) : Decodes Decoder.natural n (.integer n) :=
  fun _ _ => if_pos h

/-- An absent text is null. -/
theorem optionalString (s : Option String) :
    Decodes (Decoder.optional Decoder.string) s (s.elim .null .string) := by
  intro depth _
  cases s <;> rfl

/-- A field of a record is decoded from the member of its name. -/
theorem field {x : α} {d : Document} (h : Decodes item x d) (name : String) {depth : Nat}
    {members : List (String × Document)} (hdepth : (Document.object members).depth ≤ depth)
    (absent : Option α) (hmember : members.find? (fun m => m.1 = name) = some (name, d)) :
    Decoder.field name item absent depth members = some x := by
  obtain ⟨depth, rfl, hmembers⟩ := Document.depth_object_le_iff.1 hdepth
  rw [Decoder.field, hmember]
  exact h depth (hmembers _ (List.mem_of_find?_eq_some hmember))

end Decodes

/-- The members of a record, where no field comes twice. -/
theorem members?_object {members : List (String × Document)} {depth : Nat}
    (hdepth : (Document.object members).depth ≤ depth) (names : List String)
    (hnames : ∀ name ∈ names, members.countP (fun m => m.1 = name) ≤ 1) (least : Nat) :
    Decoder.members? names least depth (.object members) = some members := by
  obtain ⟨depth, rfl, -⟩ := Document.depth_object_le_iff.1 hdepth
  rw [Decoder.members?, if_pos]
  simpa using hnames

end

/-! ### What a document means -/

namespace Json

theorem ofItems?_eq (depth : Nat) (items : List Document) :
    ofItems? depth items = items.mapM (ofDocument? depth) :=
  eq_mapM_of_cons (ofItems? depth) rfl (fun _ _ => rfl) items

theorem ofMembers?_eq (depth : Nat) (members : List (String × Document)) :
    ofMembers? depth members =
      members.mapM fun m => (ofDocument? depth m.2).map (m.1, ·) := by
  refine eq_mapM_of_cons (ofMembers? depth) rfl (fun m rest => ?_) members
  rw [ofMembers?]
  cases ofDocument? depth m.2 <;> rfl

theorem itemsToDocument_eq (items : List Json) : itemsToDocument items = items.map toDocument :=
  eq_map_of_cons itemsToDocument rfl (fun _ _ => rfl) _

theorem fieldsToDocument_eq (fields : List (String × Json)) :
    fieldsToDocument fields = fields.map fun p => (p.1, p.2.toDocument) :=
  eq_map_of_cons fieldsToDocument rfl (fun _ _ => rfl) _

theorem ofDocument?_array_eq_some_iff {depth : Nat} {ds : List Document} {j : Json} :
    ofDocument? depth (.array ds) = some j ↔ ∃ k js, depth = k + 1 ∧ j = .array js ∧
      List.Forall₂ (fun d j => ofDocument? k d = some j) ds js := by
  simp only [ofDocument?, ofItems?_eq, ← mapM_eq_some_iff]
  cases depth with
  | zero => simp
  | succ k =>
    rw [if_neg k.succ_ne_zero, Nat.add_sub_cancel, Option.map_eq_some_iff]
    constructor
    · rintro ⟨js, hjs, rfl⟩
      exact ⟨k, js, rfl, rfl, hjs⟩
    · rintro ⟨_, js, ⟨⟩, rfl, hjs⟩
      exact ⟨js, hjs, rfl⟩

theorem ofDocument?_object_eq_some_iff {depth : Nat} {members : List (String × Document)}
    {j : Json} : ofDocument? depth (.object members) = some j ↔ ∃ k pairs, depth = k + 1 ∧
      j = .object (Fields.ofList pairs) ∧
      List.Forall₂ (fun m p => (ofDocument? k m.2).map (m.1, ·) = some p) members pairs := by
  simp only [ofDocument?, ofMembers?_eq, ← mapM_eq_some_iff]
  cases depth with
  | zero => simp
  | succ k =>
    rw [if_neg k.succ_ne_zero, Nat.add_sub_cancel, Option.map_eq_some_iff]
    constructor
    · rintro ⟨pairs, hpairs, rfl⟩
      exact ⟨k, pairs, rfl, rfl, hpairs⟩
    · rintro ⟨_, pairs, ⟨⟩, rfl, hpairs⟩
      exact ⟨pairs, hpairs, rfl⟩

/-- A readable document means something where its nesting is allowed. -/
theorem exists_ofDocument? {d : Document} (h : d.Readable) {depth : Nat}
    (hdepth : d.depth ≤ depth) : ∃ j, ofDocument? depth d = some j := by
  induction d using Document.induction generalizing depth with
  | array items ih =>
    obtain ⟨k, rfl, hitems⟩ := Document.depth_array_le_iff.1 hdepth
    obtain ⟨js, hjs⟩ := exists_forall₂ fun d hd =>
      ih d hd (Document.readable_array.1 h d hd) (hitems d hd)
    exact ⟨_, ofDocument?_array_eq_some_iff.2 ⟨k, js, rfl, rfl, hjs⟩⟩
  | object members ih =>
    obtain ⟨k, rfl, hmembers⟩ := Document.depth_object_le_iff.1 hdepth
    have hparts : ∀ m ∈ members, ∃ p, (ofDocument? k m.2).map (m.1, ·) = some p := by
      intro m hm
      obtain ⟨j, hj⟩ := ih m hm (Document.readable_object.1 h m hm) (hmembers m hm)
      exact ⟨(m.1, j), by rw [hj, Option.map_some]⟩
    obtain ⟨pairs, hpairs⟩ := exists_forall₂ hparts
    exact ⟨_, ofDocument?_object_eq_some_iff.2 ⟨k, pairs, rfl, rfl, hpairs⟩⟩
  | void => exact absurd h id
  | _ => exact ⟨_, rfl⟩

/-- What a sound document means is written as a readable document, which means the same. -/
theorem toDocument_of_ofDocument? {d : Document} (h : d.Sound) {depth : Nat} {j : Json}
    (hj : ofDocument? depth d = some j) : j.toDocument.Readable ∧ j.toDocument.depth ≤ depth ∧
      ofDocument? depth j.toDocument = some j := by
  induction d using Document.induction generalizing depth j with
  | array items ih =>
    obtain ⟨k, js, rfl, rfl, hjs⟩ := ofDocument?_array_eq_some_iff.1 hj
    have hitems : ∀ j ∈ js, j.toDocument.Readable ∧ j.toDocument.depth ≤ k ∧
        ofDocument? k j.toDocument = some j := by
      intro j hj
      obtain ⟨d, hd, hdj⟩ := exists_of_mem_right hjs hj
      exact ih d hd (Document.sound_array.1 h d hd) hdj
    rw [toDocument, itemsToDocument_eq]
    refine ⟨Document.readable_array.2 ?_, Document.depth_array_le_iff.2 ⟨k, rfl, ?_⟩,
      ofDocument?_array_eq_some_iff.2 ⟨k, js, rfl, rfl, ?_⟩⟩
    · exact List.forall_mem_map.2 fun j hj => (hitems j hj).1
    · exact List.forall_mem_map.2 fun j hj => (hitems j hj).2.1
    · rw [List.forall₂_map_left_iff, List.forall₂_same]
      exact fun j hj => (hitems j hj).2.2
  | object members ih =>
    obtain ⟨k, pairs, rfl, rfl, hpairs⟩ := ofDocument?_object_eq_some_iff.1 hj
    have hfields : ∀ p ∈ Fields.ofList pairs, p.2.toDocument.Readable ∧ p.2.toDocument.depth ≤ k ∧
        ofDocument? k p.2.toDocument = some p.2 := by
      intro p hp
      obtain ⟨m, hm, hmp⟩ := exists_of_mem_right hpairs (Fields.mem_ofList hp)
      obtain ⟨j, hj, rfl⟩ := Option.map_eq_some_iff.1 hmp
      exact ih m hm (Document.sound_object.1 h m hm) hj
    rw [toDocument, fieldsToDocument_eq]
    refine ⟨Document.readable_object.2 ?_, Document.depth_object_le_iff.2 ⟨k, rfl, ?_⟩,
      ofDocument?_object_eq_some_iff.2 ⟨k, Fields.ofList pairs, rfl, ?_, ?_⟩⟩
    · exact List.forall_mem_map.2 fun p hp => (hfields p hp).1
    · exact List.forall_mem_map.2 fun p hp => (hfields p hp).2.1
    · rw [Fields.ofList_of_ordered (Fields.ordered_ofList pairs)]
    · rw [List.forall₂_map_left_iff, List.forall₂_same]
      intro p hp
      rw [(hfields p hp).2.2, Option.map_some]
  | void => cases hj
  | integer n | float x =>
    cases hj
    exact ⟨h.resolve_right (by simp), Nat.zero_le _, rfl⟩
  | _ =>
    cases hj
    exact ⟨trivial, Nat.zero_le _, rfl⟩

end Json

end Covenant
