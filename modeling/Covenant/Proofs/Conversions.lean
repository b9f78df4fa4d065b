import Covenant.Proofs.NearestFloat
import Covenant.Proofs.RoundTrip

/-! Values and JSON in two ways. A value is decoded by trying the variants one after another, and
it is also converted from JSON by one recursion; it is written as a document of its own, and it is
also converted to JSON and written as that. Either way comes to the same. Going to JSON and back
loses the floats that are no finite numbers, and going from JSON and back rounds the integers that
do not fit in 64 bits with a sign; nothing else changes. -/

namespace Covenant

/-! ### One variant after another -/

namespace Decoder

variable {α : Type}

/-- The answer of the first decoder that has one. -/
def firstOf (variants : List (Decoder α)) : Decoder α := fun depth d =>
  variants.findSome? fun item => item depth d

def map {β : Type} (f : α → β) (item : Decoder α) : Decoder β := fun depth d =>
  (item depth d).map f

theorem firstOf_nil (depth : Nat) (d : Document) :
    firstOf ([] : List (Decoder α)) depth d = none := rfl

theorem firstOf_cons (item : Decoder α) (rest : List (Decoder α)) (depth : Nat) (d : Document) :
    firstOf (item :: rest) depth d = (item depth d).or (firstOf rest depth d) := by
  unfold firstOf
  rw [List.findSome?_cons]
  cases item depth d <;> rfl

def unit : Decoder Unit
  | _, .null => some ()
  | _, _ => none

/-- Integers of 64 bits with a sign. -/
def integer : Decoder Int64
  | _, .integer n =>
    if Int64.minValue.toInt ≤ n ∧ n ≤ Int64.maxValue.toInt then some (Int64.ofInt n) else none
  | _, _ => none

/-- Floats, and integers as floats. -/
def float : Decoder Float
  | _, .float x => some x
  | _, .integer n => some (Float.ofInt n)
  | _, _ => none

theorem list_eq_none (item : Decoder α) (depth : Nat) {d : Document}
    (h : ∀ items, d ≠ .array items) : list item depth d = none := by
  unfold list
  split
  · exact absurd rfl (h _)
  · rfl

theorem fields_eq_none (item : Decoder α) (depth : Nat) {d : Document}
    (h : ∀ members, d ≠ .object members) : fields item depth d = none := by
  unfold fields
  split
  · exact absurd rfl (h _)
  · rfl

end Decoder

namespace Value

/-- The variants of a value in the order in which they are tried. The parts of a collection are
values again. -/
def variants : List (Decoder Value) :=
  [Decoder.unit.map fun _ => null, Decoder.boolean.map boolean, Decoder.integer.map integer,
    Decoder.float.map float, Decoder.string.map string, (Decoder.list decode).map array,
    (Decoder.fields decode).map object]

theorem decode_eq_firstOf : decode = Decoder.firstOf variants := by
  funext depth d
  unfold variants
  simp only [Decoder.firstOf_cons, Decoder.firstOf_nil, Decoder.map]
  cases d with
  | array items =>
    rw [decode_array, Decoder.fields_eq_none decode depth (by simp)]
    simp [Decoder.unit, Decoder.boolean, Decoder.integer, Decoder.float, Decoder.string]
  | object members =>
    rw [decode_object, Decoder.list_eq_none decode depth (by simp)]
    simp [Decoder.unit, Decoder.boolean, Decoder.integer, Decoder.float, Decoder.string]
  | integer n =>
    change some (ofInt n) = _
    simp only [ofInt, Decoder.unit, Decoder.boolean, Decoder.integer, Decoder.float]
    split <;> rfl
  | void =>
    rw [Decoder.list_eq_none decode depth (by simp), Decoder.fields_eq_none decode depth (by simp)]
    rfl
  | _ => rfl

end Value

/-! ### JSON in parts -/

namespace Json

/-- Induction on the nesting: a collection is reached from its parts. -/
@[elab_as_elim]
theorem induction {motive : Json → Prop} (null : motive null)
    (boolean : ∀ b, motive (boolean b)) (integer : ∀ n, motive (integer n))
    (float : ∀ x, motive (float x)) (string : ∀ s, motive (string s))
    (array : ∀ items, (∀ j ∈ items, motive j) → motive (array items))
    (object : ∀ fields, (∀ p ∈ fields, motive p.2) → motive (object fields))
    (j : Json) : motive j := by
  refine @Json.rec motive (fun items => ∀ j ∈ items, motive j)
    (fun fields => ∀ p ∈ fields, motive p.2) (fun p => motive p.2) null boolean integer float
    string array object ?_ ?_ ?_ ?_ (fun _ _ hj => hj) j
  · simp
  · exact fun j rest hj hrest => List.forall_mem_cons.2 ⟨hj, hrest⟩
  · simp
  · exact fun p rest hp hrest => List.forall_mem_cons.2 ⟨hp, hrest⟩

mutual

/-- The integers in the value fit in 64 bits, with a sign or without one, its floats are finite,
and the fields of its objects are in the order of their names. -/
def Proper : Json → Prop
  | integer n => Fits n
  | float x => x.isFinite = true
  | array items => ProperItems items
  | object fields => Fields.Ordered fields ∧ ProperFields fields
  | _ => True

def ProperItems : List Json → Prop
  | [] => True
  | j :: rest => Proper j ∧ ProperItems rest

def ProperFields : Fields Json → Prop
  | [] => True
  | (_, j) :: rest => Proper j ∧ ProperFields rest

end

mutual

/-- The value with the nearest float for every integer that does not fit in 64 bits with a
sign. -/
def rounded : Json → Json
  | integer n => if Int64.maxValue.toInt < n then float (Float.ofInt n) else integer n
  | array items => array (roundedItems items)
  | object fields => object (roundedFields fields)
  | null => null
  | boolean b => boolean b
  | float x => float x
  | string s => string s

def roundedItems : List Json → List Json
  | [] => []
  | j :: rest => rounded j :: roundedItems rest

def roundedFields : Fields Json → Fields Json
  | [] => []
  | (name, j) :: rest => (name, rounded j) :: roundedFields rest

end

theorem properItems_iff {items : List Json} : ProperItems items ↔ ∀ j ∈ items, j.Proper :=
  iff_forall_of_cons ProperItems trivial fun _ _ => Iff.rfl

theorem properFields_iff {fields : Fields Json} :
    ProperFields fields ↔ ∀ p ∈ fields, p.2.Proper :=
  iff_forall_of_cons ProperFields trivial fun _ _ => Iff.rfl

theorem roundedItems_eq (items : List Json) : roundedItems items = items.map rounded :=
  eq_map_of_cons roundedItems rfl (fun _ _ => rfl) _

theorem roundedFields_eq (fields : Fields Json) :
    roundedFields fields = fields.map fun p => (p.1, p.2.rounded) :=
  eq_map_of_cons roundedFields rfl (fun _ _ => rfl) _

/-- What is read is proper: the fields of an object are put in order as they are read. -/
theorem proper_of_ofDocument? {d : Document} (h : d.Sound) {depth : Nat} {j : Json}
    (hj : ofDocument? depth d = some j) : j.Proper := by
  induction d using Document.induction generalizing depth j with
  | array items ih =>
    obtain ⟨k, js, rfl, rfl, hjs⟩ := ofDocument?_array_eq_some_iff.1 hj
    refine properItems_iff.2 fun j hj => ?_
    obtain ⟨d, hd, hdj⟩ := exists_of_mem_right hjs hj
    exact ih d hd (Document.sound_array.1 h d hd) hdj
  | object members ih =>
    obtain ⟨k, pairs, rfl, rfl, hpairs⟩ := ofDocument?_object_eq_some_iff.1 hj
    refine ⟨Fields.ordered_ofList pairs, properFields_iff.2 fun p hp => ?_⟩
    obtain ⟨m, hm, hmp⟩ := exists_of_mem_right hpairs (Fields.mem_ofList hp)
    obtain ⟨j, hj, rfl⟩ := Option.map_eq_some_iff.1 hmp
    exact ih m hm (Document.sound_object.1 h m hm) hj
  | void => cases hj
  | integer n | float x =>
    cases hj
    exact h.resolve_right (by simp)
  | _ =>
    cases hj
    exact trivial

/-- A proper value is what its document means. -/
theorem decodes {j : Json} (h : j.Proper) : Decodes ofDocument? j j.toDocument := by
  induction j using induction with
  | array items ih =>
    intro depth hdepth
    rw [toDocument, itemsToDocument_eq] at hdepth ⊢
    obtain ⟨k, rfl, hitems⟩ := Document.depth_array_le_iff.1 hdepth
    refine ofDocument?_array_eq_some_iff.2 ⟨k, items, rfl, rfl, ?_⟩
    rw [List.forall₂_map_left_iff, List.forall₂_same]
    intro j hj
    exact ih j hj (properItems_iff.1 h j hj) k (hitems _ (List.mem_map_of_mem hj))
  | object fields ih =>
    intro depth hdepth
    rw [toDocument, fieldsToDocument_eq] at hdepth ⊢
    obtain ⟨k, rfl, hmembers⟩ := Document.depth_object_le_iff.1 hdepth
    refine ofDocument?_object_eq_some_iff.2 ⟨k, fields, rfl, ?_, ?_⟩
    · rw [Fields.ofList_of_ordered h.1]
    · rw [List.forall₂_map_left_iff, List.forall₂_same]
      intro p hp
      have hpart := ih p hp (properFields_iff.1 h.2 p hp) k (hmembers _ (List.mem_map_of_mem hp))
      rw [hpart, Option.map_some]
  | _ => exact fun _ _ => rfl

end Json

/-! ### Between values and JSON -/

namespace Value

theorem ofJsonItems_eq (items : List Json) : ofJsonItems items = items.map ofJson :=
  eq_map_of_cons ofJsonItems rfl (fun _ _ => rfl) _

theorem ofJsonFields_eq (fields : Fields Json) :
    ofJsonFields fields = fields.map fun p => (p.1, ofJson p.2) :=
  eq_map_of_cons ofJsonFields rfl (fun _ _ => rfl) _

theorem toJsonItems_eq (items : List Value) : toJsonItems items = items.map toJson :=
  eq_map_of_cons toJsonItems rfl (fun _ _ => rfl) _

theorem toJsonFields_eq (fields : Fields Value) :
    toJsonFields fields = fields.map fun p => (p.1, p.2.toJson) :=
  eq_map_of_cons toJsonFields rfl (fun _ _ => rfl) _

/-- What is decoded from a document is the value of what the document means. -/
theorem decode_eq_ofDocument? (depth : Nat) (d : Document) :
    decode depth d = (Json.ofDocument? depth d).map ofJson := by
  induction d using Document.induction generalizing depth with
  | array items ih =>
    cases depth with
    | zero => rfl
    | succ k =>
      simp only [decode, Json.ofDocument?, if_neg k.succ_ne_zero, Nat.add_sub_cancel,
        decodeItems_eq, Json.ofItems?_eq]
      rw [mapM_eq_map_mapM fun d hd => ih d hd k, Option.map_map, Option.map_map]
      congr 1
      funext js
      simp only [Function.comp_apply, ofJson, ofJsonItems_eq]
  | object members ih =>
    cases depth with
    | zero => rfl
    | succ k =>
      have hparts : ∀ m ∈ members, (decode k m.2).map (m.1, ·) =
          ((Json.ofDocument? k m.2).map (m.1, ·)).map fun p => (p.1, ofJson p.2) := by
        intro m hm
        rw [ih m hm k, Option.map_map, Option.map_map]
        rfl
      simp only [decode, Json.ofDocument?, if_neg k.succ_ne_zero, Nat.add_sub_cancel,
        decodeMembers_eq, Json.ofMembers?_eq]
      rw [mapM_eq_map_mapM hparts, Option.map_map, Option.map_map]
      congr 1
      funext fields
      simp only [Function.comp_apply, ofJson, ofJsonFields_eq, Fields.ofList_map]
  | _ => rfl

theorem toDocument_toJson (v : Value) : v.toJson.toDocument = v.toDocument.finite := by
  induction v using induction with
  | array items ih =>
    rw [toJson, toDocument, Json.toDocument, Document.finite, toJsonItems_eq, itemsToDocument_eq,
      Json.itemsToDocument_eq, Document.finiteItems_eq, List.map_map, List.map_map]
    congr 1
    exact List.map_congr_left ih
  | object fields ih =>
    rw [toJson, toDocument, Json.toDocument, Document.finite, toJsonFields_eq, fieldsToDocument_eq,
      Json.fieldsToDocument_eq, Document.finiteMembers_eq, List.map_map, List.map_map]
    congr 1
    refine List.map_congr_left fun p hp => ?_
    rw [Function.comp_apply, Function.comp_apply, ih p hp]
  | float x =>
    rw [toJson, toDocument, Document.finite]
    split <;> rfl
  | _ => rfl

theorem ofJson_toJson (v : Value) : ofJson v.toJson = v.finite := by
  induction v using induction with
  | array items ih =>
    rw [toJson, ofJson, finite, toJsonItems_eq, ofJsonItems_eq, finiteItems_eq, List.map_map]
    congr 1
    exact List.map_congr_left ih
  | object fields ih =>
    rw [toJson, ofJson, finite, toJsonFields_eq, ofJsonFields_eq, finiteFields_eq, List.map_map]
    congr 1
    refine List.map_congr_left fun p hp => ?_
    rw [Function.comp_apply, ih p hp]
  | float x =>
    rw [toJson, finite]
    split <;> rfl
  | integer n => exact ofInt_toInt n
  | _ => rfl

theorem toJson_ofInt {n : Int} (h : Json.Fits n) : (ofInt n).toJson = (Json.integer n).rounded := by
  obtain ⟨hlow, hhigh⟩ := h
  have hmin : Int64.minValue.toInt = -2 ^ 63 := Int64.toInt_minValue
  have hmax : Int64.maxValue.toInt = 2 ^ 63 - 1 := Int64.toInt_maxValue
  unfold ofInt
  rw [Json.rounded]
  by_cases hlarge : Int64.maxValue.toInt < n
  · obtain ⟨r, hr, -⟩ := Binary64.nearest_ofInt (show 2 ^ 63 ≤ n by omega) hhigh
    rw [if_pos hlarge, if_neg (by omega), toJson, if_pos (Binary64.isFinite_of_rational? hr)]
  · rw [if_neg hlarge, if_pos (by omega), toJson, Int64.toInt_ofInt_of_le (by omega) (by omega)]

theorem ordered_ofInt (n : Int) : (ofInt n).Ordered := by
  rw [ofInt]
  split <;> exact trivial

theorem ordered_ofJson {j : Json} (h : j.Proper) : (ofJson j).Ordered := by
  induction j using Json.induction with
  | array items ih =>
    rw [ofJson, ofJsonItems_eq]
    refine orderedItems_iff.2 (List.forall_mem_map.2 fun j hj => ?_)
    exact ih j hj (Json.properItems_iff.1 h j hj)
  | object fields ih =>
    rw [ofJson, ofJsonFields_eq]
    refine ⟨Fields.ordered_map h.1 _, orderedFields_iff.2 (List.forall_mem_map.2 fun p hp => ?_)⟩
    exact ih p hp (Json.properFields_iff.1 h.2 p hp)
  | integer n => exact ordered_ofInt n
  | _ => exact trivial

/-- The values that are read are those that can be read again. -/
theorem ordered_of_decode {d : Document} (h : d.Sound) {depth : Nat} {v : Value}
    (hv : decode depth d = some v) : v.Ordered := by
  rw [decode_eq_ofDocument?] at hv
  obtain ⟨j, hj, rfl⟩ := Option.map_eq_some_iff.1 hv
  exact ordered_ofJson (Json.proper_of_ofDocument? h hj)

theorem toJson_ofJson {j : Json} (h : j.Proper) : (ofJson j).toJson = j.rounded := by
  induction j using Json.induction with
  | array items ih =>
    rw [ofJson, toJson, Json.rounded, ofJsonItems_eq, toJsonItems_eq, Json.roundedItems_eq,
      List.map_map]
    congr 1
    exact List.map_congr_left fun j hj => ih j hj (Json.properItems_iff.1 h j hj)
  | object fields ih =>
    rw [ofJson, toJson, Json.rounded, ofJsonFields_eq, toJsonFields_eq, Json.roundedFields_eq,
      List.map_map]
    congr 1
    refine List.map_congr_left fun p hp => ?_
    rw [Function.comp_apply, ih p hp (Json.properFields_iff.1 h.2 p hp)]
  | integer n => exact toJson_ofInt h
  | float x => exact if_pos h
  | _ => rfl

/-- What is true of the two ways from JSON to values and of the two ways back. -/
structure Conversions (j : Json) (v : Value) : Prop where
  /-- The variants of a value are tried one after another. -/
  variants : decode = Decoder.firstOf variants
  /-- Reading a text as a value is reading it as JSON and converting that. -/
  read : ∀ text, codec.read? text = (Json.parse? text).map ofJson
  decoded : ∀ depth, j.toDocument.depth ≤ depth → decode depth j.toDocument = some (ofJson j)
  compact : v.toDocument.compact = v.toJson.compact
  pretty : v.toDocument.pretty = v.toJson.pretty
  /-- Floats that are no finite numbers are lost on the way to JSON, and nothing else. -/
  to_of : ofJson v.toJson = v.finite
  /-- Integers that do not fit in 64 bits with a sign are rounded on the way from JSON, and nothing
  else changes. -/
  of_to : (ofJson j).toJson = j.rounded
  /-- No float is nearer to an integer that is rounded than the one put in its place. -/
  nearest : ∀ n, Json.Fits n → Int64.maxValue.toInt < n → Binary64.Nearest n (Float.ofInt n)

/-- The two ways between JSON and values agree, in either direction. -/
theorem conversions_agree (j : Json) (hj : j.Proper) (v : Value) : Conversions j v where
  variants := decode_eq_firstOf
  read text := by
    change (Document.parse? text).bind (decode Document.maxDepth) = _
    rw [Json.parse?, funext (decode_eq_ofDocument? Document.maxDepth)]
    cases Document.parse? text <;> rfl
  decoded depth hdepth := by
    rw [decode_eq_ofDocument?, Json.decodes hj depth hdepth, Option.map_some]
  compact := by
    rw [Json.compact, toDocument_toJson, Document.compact_finite]
  pretty := by
    rw [Json.pretty, toDocument_toJson, Document.pretty, Document.pretty, Document.prettyAt_finite]
  to_of := ofJson_toJson v
  of_to := toJson_ofJson hj
  nearest n hn hlarge := by
    have hmax : Int64.maxValue.toInt = 2 ^ 63 - 1 := Int64.toInt_maxValue
    exact Binary64.nearest_ofInt (by omega) hn.2

/-- The largest integer of 64 bits is rounded up to 2 to the 64, and an infinity is lost. -/
theorem conversions_agree_nested :
    (Json.object [("big", .integer 18446744073709551615), ("list", .array [.integer 1])]).Proper ∧
    (ofJson (.object
        [("big", .integer 18446744073709551615), ("list", .array [.integer 1])])).toJson =
      .object [("big", .float 18446744073709551616.0), ("list", .array [.integer 1])] ∧
    ofJson (object [("a", array [float (1 / 0), integer 1])]).toJson =
      object [("a", array [null, integer 1])] := by
  have hproper : (Json.object
      [("big", .integer 18446744073709551615), ("list", .array [.integer 1])]).Proper := by
    refine ⟨List.pairwise_pair.2 (by decide), ?_, ⟨?_, trivial⟩, trivial⟩ <;>
      constructor <;> decide
  obtain ⟨-, -, -, -, -, hback, hrounded, -⟩ :=
    conversions_agree _ hproper (object [("a", array [float (1 / 0), integer 1])])
  refine ⟨hproper, hrounded.trans ?_, hback.trans ?_⟩ <;> with_unfolding_all rfl

end Value

end Covenant
