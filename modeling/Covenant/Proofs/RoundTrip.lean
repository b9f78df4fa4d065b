import Covenant.Manifest.Report
import Covenant.Proofs.Decoding
import Covenant.Proofs.Printing

/-! What is written as JSON comes back: values, states, changes, violations, outcomes, records
and reports. Only a float that is no finite number is lost, since its text is null; it comes
back as null, wherever it stands, and everything else comes back as it was. -/

namespace Covenant

/-! ### Documents -/

namespace Document

mutual

/-- The document with null for every float that is no finite number. -/
def finite : Document → Document
  | float x => if x.isFinite then float x else null
  | array items => array (finiteItems items)
  | object members => object (finiteMembers members)
  | null => null
  | boolean b => boolean b
  | integer n => integer n
  | string s => string s
  | void => void

def finiteItems : List Document → List Document
  | [] => []
  | d :: rest => finite d :: finiteItems rest

def finiteMembers : List (String × Document) → List (String × Document)
  | [] => []
  | (name, d) :: rest => (name, finite d) :: finiteMembers rest

end

theorem finiteItems_eq (items : List Document) : finiteItems items = items.map finite :=
  eq_map_of_cons finiteItems rfl (fun _ _ => rfl) _

theorem finiteMembers_eq (members : List (String × Document)) :
    finiteMembers members = members.map fun m => (m.1, m.2.finite) :=
  eq_map_of_cons finiteMembers rfl (fun _ _ => rfl) _

/-- The part is one that a text can write, or a float. -/
def Typed : Document → Prop
  | integer n => Json.Fits n
  | void => False
  | _ => True

theorem readable_finite {d : Document} (h : d.All Typed) : d.finite.Readable := by
  induction d using induction with
  | array items ih =>
    rw [finite, finiteItems_eq]
    exact readable_array.2 (List.forall_mem_map.2 fun d hd => ih d hd ((all_array.1 h).2 d hd))
  | object members ih =>
    rw [finite, finiteMembers_eq]
    exact readable_object.2 (List.forall_mem_map.2 fun m hm => ih m hm ((all_object.1 h).2 m hm))
  | float x =>
    rw [finite]
    split
    next hx => exact hx
    next => exact trivial
  | integer n => exact h
  | void => exact h
  | _ => exact trivial

theorem depth_finite_le {d : Document} {n : Nat} (h : d.depth ≤ n) : d.finite.depth ≤ n := by
  induction d using induction generalizing n with
  | array items ih =>
    obtain ⟨k, rfl, hitems⟩ := depth_array_le_iff.1 h
    rw [finite, finiteItems_eq]
    exact depth_array_le_iff.2
      ⟨k, rfl, List.forall_mem_map.2 fun d hd => ih d hd (hitems d hd)⟩
  | object members ih =>
    obtain ⟨k, rfl, hmembers⟩ := depth_object_le_iff.1 h
    rw [finite, finiteMembers_eq]
    exact depth_object_le_iff.2
      ⟨k, rfl, List.forall_mem_map.2 fun m hm => ih m hm (hmembers m hm)⟩
  | float x =>
    rw [finite]
    split <;> exact Nat.zero_le n
  | _ => exact Nat.zero_le n

theorem compact_finite (d : Document) : d.finite.compact = d.compact := by
  induction d using induction with
  | array items ih =>
    rw [finite, compact, compact, finiteItems_eq, compactItems_eq, compactItems_eq, List.map_map]
    congr 3
    exact List.map_congr_left ih
  | object members ih =>
    rw [finite, compact, compact, finiteMembers_eq, compactMembers_eq, compactMembers_eq,
      List.map_map]
    congr 3
    refine List.map_congr_left fun m hm => ?_
    rw [Function.comp_apply, ih m hm]
  | float x =>
    rw [finite]
    split
    next => rfl
    next hx => rw [compact, compact, floatText, if_neg hx]
  | _ => rfl

theorem prettyAt_finite (d : Document) (level : Nat) :
    d.finite.prettyAt level = d.prettyAt level := by
  induction d using induction generalizing level with
  | array items ih =>
    rw [finite, prettyAt, prettyAt, finiteItems_eq, prettyItems_eq, prettyItems_eq, List.map_map]
    congr 1
    exact List.map_congr_left fun d hd => ih d hd (level + 1)
  | object members ih =>
    rw [finite, prettyAt, prettyAt, finiteMembers_eq, prettyMembers_eq, prettyMembers_eq,
      List.map_map]
    congr 1
    refine List.map_congr_left fun m hm => ?_
    rw [Function.comp_apply, ih m hm]
  | float x =>
    rw [finite]
    split
    next => rfl
    next hx => rw [prettyAt, prettyAt, floatText, if_neg hx]
  | _ => rfl

end Document

/-! ### Codecs -/

/-- How data of a type are written and read. `finite` is a datum as it can come back, and
`Proper` is what holds of every datum of the type. -/
structure Codec (α : Type) where
  toDocument : α → Document
  decode : Decoder α
  finite : α → α
  Proper : α → Prop

namespace Codec

variable {α : Type}

/-- The datum that a text writes. -/
def read? (c : Codec α) (text : String) : Option α :=
  (Document.parse? text).bind (c.decode Document.maxDepth)

/-- A datum that is not nested too deeply is read back from its compact text and from its pretty
text, and is written as the same texts again. -/
def RoundTrips (c : Codec α) : Prop :=
  ∀ x, c.Proper x → (c.toDocument x).depth ≤ Document.maxDepth →
    c.read? (c.toDocument x).compact = some (c.finite x) ∧
    c.read? (c.toDocument x).pretty = some (c.finite x) ∧
    (c.toDocument (c.finite x)).compact = (c.toDocument x).compact ∧
    (c.toDocument (c.finite x)).pretty = (c.toDocument x).pretty

/-- What makes the data come back. -/
structure Faithful (c : Codec α) : Prop where
  typed : ∀ x, c.Proper x → (c.toDocument x).All Document.Typed
  finite : ∀ x, c.toDocument (c.finite x) = (c.toDocument x).finite
  decodes : ∀ x, c.Proper x → Decodes c.decode (c.finite x) (c.toDocument x).finite

theorem Faithful.roundTrips {c : Codec α} (h : c.Faithful) : c.RoundTrips := by
  intro x hx hdepth
  obtain ⟨hcompact, hpretty⟩ := Document.parse?_printed (Document.readable_finite (h.typed x hx))
  have hdecode := h.decodes x hx Document.maxDepth (Document.depth_finite_le hdepth)
  rw [Document.compact_finite] at hcompact
  rw [Document.pretty, Document.prettyAt_finite, ← Document.pretty] at hpretty
  refine ⟨?_, ?_, ?_, ?_⟩
  · rw [read?, hcompact, Option.bind_some, hdecode]
  · rw [read?, hpretty, Option.bind_some, hdecode]
  · rw [h.finite, Document.compact_finite]
  · rw [h.finite, Document.pretty, Document.prettyAt_finite, Document.pretty]

end Codec

/-! ### Lists -/

section
variable {α : Type} {f : α → Document} {g : α → α} {xs : List α}

theorem typed_list (h : ∀ x ∈ xs, (f x).All Document.Typed) :
    (Document.array (xs.map f)).All Document.Typed :=
  Document.all_array.2 ⟨trivial, List.forall_mem_map.2 h⟩

theorem finite_list (h : ∀ x, f (g x) = (f x).finite) (xs : List α) :
    (xs.map g).map f = Document.finiteItems (xs.map f) := by
  rw [Document.finiteItems_eq, List.map_map, List.map_map]
  exact List.map_congr_left fun x _ => h x

theorem decodes_list {item : Decoder α} (h : ∀ x ∈ xs, Decodes item (g x) (f x).finite) :
    Decodes (Decoder.list item) (xs.map g) (.array (Document.finiteItems (xs.map f))) := by
  rw [Document.finiteItems_eq, List.map_map]
  exact Decodes.list h

end

/-! ### Values -/

namespace Value

/-- Induction on the nesting: a collection is reached from its parts. -/
@[elab_as_elim]
theorem induction {motive : Value → Prop} (null : motive null)
    (boolean : ∀ b, motive (boolean b)) (integer : ∀ n, motive (integer n))
    (float : ∀ x, motive (float x)) (string : ∀ s, motive (string s))
    (array : ∀ items, (∀ v ∈ items, motive v) → motive (array items))
    (object : ∀ fields, (∀ p ∈ fields, motive p.2) → motive (object fields))
    (v : Value) : motive v := by
  refine @Value.rec motive (fun items => ∀ v ∈ items, motive v)
    (fun fields => ∀ p ∈ fields, motive p.2) (fun p => motive p.2) null boolean integer float
    string array object ?_ ?_ ?_ ?_ (fun _ _ hv => hv) v
  · simp
  · exact fun v rest hv hrest => List.forall_mem_cons.2 ⟨hv, hrest⟩
  · simp
  · exact fun p rest hp hrest => List.forall_mem_cons.2 ⟨hp, hrest⟩

mutual

/-- The value with null for every float that is no finite number. -/
def finite : Value → Value
  | float x => if x.isFinite then float x else null
  | array items => array (finiteItems items)
  | object fields => object (finiteFields fields)
  | null => null
  | boolean b => boolean b
  | integer n => integer n
  | string s => string s

def finiteItems : List Value → List Value
  | [] => []
  | v :: rest => finite v :: finiteItems rest

def finiteFields : Fields Value → Fields Value
  | [] => []
  | (name, v) :: rest => (name, finite v) :: finiteFields rest

end

mutual

/-- The fields of every object in the value are in the order of their names. -/
def Ordered : Value → Prop
  | array items => OrderedItems items
  | object fields => Fields.Ordered fields ∧ OrderedFields fields
  | _ => True

def OrderedItems : List Value → Prop
  | [] => True
  | v :: rest => Ordered v ∧ OrderedItems rest

def OrderedFields : Fields Value → Prop
  | [] => True
  | (_, v) :: rest => Ordered v ∧ OrderedFields rest

end

theorem finiteItems_eq (items : List Value) : finiteItems items = items.map finite :=
  eq_map_of_cons finiteItems rfl (fun _ _ => rfl) _

theorem finiteFields_eq (fields : Fields Value) :
    finiteFields fields = fields.map fun p => (p.1, p.2.finite) :=
  eq_map_of_cons finiteFields rfl (fun _ _ => rfl) _

theorem itemsToDocument_eq (items : List Value) :
    itemsToDocument items = items.map toDocument :=
  eq_map_of_cons itemsToDocument rfl (fun _ _ => rfl) _

theorem fieldsToDocument_eq (fields : Fields Value) :
    fieldsToDocument fields = fields.map fun p => (p.1, p.2.toDocument) :=
  eq_map_of_cons fieldsToDocument rfl (fun _ _ => rfl) _

theorem orderedItems_iff {items : List Value} : OrderedItems items ↔ ∀ v ∈ items, v.Ordered :=
  iff_forall_of_cons OrderedItems trivial fun _ _ => Iff.rfl

theorem orderedFields_iff {fields : Fields Value} :
    OrderedFields fields ↔ ∀ p ∈ fields, p.2.Ordered :=
  iff_forall_of_cons OrderedFields trivial fun _ _ => Iff.rfl

theorem fits_toInt (n : Int64) : Json.Fits n.toInt := by
  have hlow := n.le_toInt
  have hhigh := n.toInt_lt
  constructor <;> omega

theorem ofInt_toInt (n : Int64) : ofInt n.toInt = integer n := by
  rw [ofInt, if_pos ⟨n.minValue_le_toInt, n.toInt_le⟩, Int64.ofInt_toInt]

theorem typed (v : Value) : v.toDocument.All Document.Typed := by
  induction v using induction with
  | array items ih =>
    rw [toDocument, itemsToDocument_eq]
    exact Document.all_array.2 ⟨trivial, List.forall_mem_map.2 ih⟩
  | object fields ih =>
    rw [toDocument, fieldsToDocument_eq]
    exact Document.all_object.2 ⟨trivial, List.forall_mem_map.2 ih⟩
  | integer n => exact fits_toInt n
  | _ => exact trivial

theorem toDocument_finite (v : Value) : v.finite.toDocument = v.toDocument.finite := by
  induction v using induction with
  | array items ih =>
    rw [finite, toDocument, toDocument, Document.finite, finiteItems_eq, itemsToDocument_eq,
      itemsToDocument_eq, Document.finiteItems_eq, List.map_map, List.map_map]
    congr 1
    exact List.map_congr_left ih
  | object fields ih =>
    rw [finite, toDocument, toDocument, Document.finite, finiteFields_eq, fieldsToDocument_eq,
      fieldsToDocument_eq, Document.finiteMembers_eq, List.map_map, List.map_map]
    congr 1
    refine List.map_congr_left fun p hp => ?_
    rw [Function.comp_apply, Function.comp_apply, ih p hp]
  | float x =>
    rw [finite, toDocument, Document.finite]
    split <;> rfl
  | _ => rfl

theorem decodeItems_eq (depth : Nat) (items : List Document) :
    decodeItems depth items = items.mapM (decode depth) :=
  eq_mapM_of_cons (decodeItems depth) rfl (fun _ _ => rfl) items

theorem decodeMembers_eq (depth : Nat) (members : List (String × Document)) :
    decodeMembers depth members = members.mapM fun m => (decode depth m.2).map (m.1, ·) := by
  refine eq_mapM_of_cons (decodeMembers depth) rfl (fun m rest => ?_) members
  rw [decodeMembers]
  cases decode depth m.2 <;> rfl

theorem decode_array (depth : Nat) (items : List Document) : decode depth (.array items) =
    (Decoder.list decode depth (.array items)).map array := by
  cases depth with
  | zero => rfl
  | succ depth => rw [decode, if_neg depth.succ_ne_zero, decodeItems_eq]; rfl

theorem decode_object (depth : Nat) (members : List (String × Document)) :
    decode depth (.object members) =
      (Decoder.fields decode depth (.object members)).map object := by
  cases depth with
  | zero => rfl
  | succ depth =>
    rw [decode, if_neg depth.succ_ne_zero, decodeMembers_eq, Decoder.fields, Option.map_map]
    rfl

theorem decodes_fields_of_forall {fields : Fields Value} (hordered : Fields.Ordered fields)
    (h : ∀ p ∈ fields, Decodes decode p.2.finite p.2.toDocument.finite) :
    Decodes (Decoder.fields decode) (finiteFields fields)
      (.object (Document.finiteMembers (fieldsToDocument fields))) := by
  rw [finiteFields_eq, fieldsToDocument_eq, Document.finiteMembers_eq, List.map_map]
  exact Decodes.fields (f := fun v => v.toDocument.finite) (g := finite) hordered h

theorem decodes_items {items : List Value}
    (h : ∀ v ∈ items, Decodes decode v.finite v.toDocument.finite) :
    Decodes (Decoder.list decode) (finiteItems items)
      (.array (Document.finiteItems (itemsToDocument items))) := by
  rw [finiteItems_eq, itemsToDocument_eq]
  exact decodes_list h

theorem decodes {v : Value} (h : v.Ordered) : Decodes decode v.finite v.toDocument.finite := by
  induction v using induction with
  | array items ih =>
    have hitems := decodes_items fun v hv => ih v hv (orderedItems_iff.1 h v hv)
    intro depth hdepth
    rw [finite, toDocument, Document.finite, decode_array, hitems depth hdepth, Option.map_some]
  | object fields ih =>
    have hfields := decodes_fields_of_forall h.1 fun p hp => ih p hp (orderedFields_iff.1 h.2 p hp)
    intro depth hdepth
    rw [finite, toDocument, Document.finite, decode_object, hfields depth hdepth, Option.map_some]
  | float x =>
    intro depth _
    rw [finite, toDocument, Document.finite]
    split <;> rfl
  | integer n => exact fun _ _ => congrArg some (ofInt_toInt n)
  | _ => exact fun _ _ => rfl

def codec : Codec Value := ⟨toDocument, decode, finite, Ordered⟩

theorem faithful : codec.Faithful := ⟨fun v _ => typed v, toDocument_finite, fun _ => decodes⟩

/-- The fields of a state, or of a report. -/
theorem decodes_fields {fields : Fields Value} (h : (object fields).Ordered) :
    Decodes (Decoder.fields decode) (finiteFields fields)
      (.object (Document.finiteMembers (fieldsToDocument fields))) :=
  decodes_fields_of_forall h.1 fun p hp => decodes (orderedFields_iff.1 h.2 p hp)

theorem fieldsToDocument_finite (fields : Fields Value) : fieldsToDocument (finiteFields fields) =
    Document.finiteMembers (fieldsToDocument fields) := by
  have hobject := toDocument_finite (object fields)
  exact Document.object.inj hobject

theorem itemsToDocument_finite (items : List Value) : itemsToDocument (finiteItems items) =
    Document.finiteItems (itemsToDocument items) := by
  have harray := toDocument_finite (array items)
  exact Document.array.inj harray

end Value

/-! ### Records -/

namespace State

def finite (s : State) : State := ⟨Value.finiteFields s.fields⟩

def codec : Codec State := ⟨toDocument, decode, finite, fun s => (Value.object s.fields).Ordered⟩

theorem decodes {s : State} (h : (Value.object s.fields).Ordered) :
    Decodes decode s.finite s.toDocument.finite := by
  intro depth hdepth
  have hdoc : s.toDocument.finite = .object
    [("fields", .object (Document.finiteMembers (Value.fieldsToDocument s.fields)))] := rfl
  rw [hdoc] at hdepth ⊢
  have hms := members?_object hdepth ["fields"] (by simp) 1
  have hfields := (Value.decodes_fields h).field "fields" hdepth none (by simp)
  simp only [decode, hms, hfields, Option.bind_eq_bind, Option.bind_some, Option.pure_def, finite]

theorem faithful : codec.Faithful where
  typed s _ := ⟨trivial, Value.typed (.object s.fields), trivial⟩
  finite s := by
    change (State.finite s).toDocument = s.toDocument.finite
    rw [State.finite, toDocument, Value.fieldsToDocument_finite]
    rfl
  decodes _ := decodes

end State

namespace Change

def finite (c : Change) : Change := ⟨c.field, c.old.finite, c.new.finite⟩

def Proper (c : Change) : Prop := c.old.Ordered ∧ c.new.Ordered

def codec : Codec Change := ⟨toDocument, decode, finite, Proper⟩

theorem decodes {c : Change} (h : c.Proper) : Decodes decode c.finite c.toDocument.finite := by
  intro depth hdepth
  have hdoc : c.toDocument.finite = .object [("field", .string c.field),
    ("old_value", c.old.toDocument.finite), ("new_value", c.new.toDocument.finite)] := rfl
  rw [hdoc] at hdepth ⊢
  have hms := members?_object hdepth ["field", "old_value", "new_value"] (by simp) 3
  have hfield := (Decodes.string c.field).field "field" hdepth none (by simp)
  have hold := (Value.decodes h.1).field "old_value" hdepth none (by simp)
  have hnew := (Value.decodes h.2).field "new_value" hdepth none (by simp)
  simp only [decode, hms, hfield, hold, hnew, Option.bind_eq_bind, Option.bind_some,
    Option.pure_def, finite]

theorem typed (c : Change) : c.toDocument.All Document.Typed :=
  ⟨trivial, trivial, c.old.typed, c.new.typed, trivial⟩

theorem toDocument_finite (c : Change) : c.finite.toDocument = c.toDocument.finite := by
  rw [finite, toDocument, c.old.toDocument_finite, c.new.toDocument_finite]
  rfl

theorem faithful : codec.Faithful := ⟨fun c _ => c.typed, toDocument_finite, fun _ => decodes⟩

end Change

namespace Violation

def codec : Codec Violation := ⟨toDocument, decode, id, fun v => v.index < 2 ^ 64⟩

theorem decodesWith {kind : Decoder Kind} {v : Violation}
    (hkind : Decodes kind v.kind (.string v.kind.name)) (h : v.index < 2 ^ 64) :
    Decodes (decodeWith kind) v v.toDocument := by
  intro depth hdepth
  rw [toDocument, toMembers] at hdepth ⊢
  have hms := members?_object hdepth ["kind", "index", "message"] (by simp) 3
  have hk := hkind.field "kind" hdepth none (by simp)
  have hindex := (Decodes.natural h).field "index" hdepth none (by simp)
  have hmessage := (Decodes.string v.message).field "message" hdepth none (by simp)
  simp only [decodeWith, hms, hk, hindex, hmessage, Option.bind_eq_bind, Option.bind_some,
    Option.pure_def]

theorem typed {v : Violation} (h : v.index < 2 ^ 64) : v.toDocument.All Document.Typed :=
  ⟨trivial, trivial, Json.fits_of_lt h, trivial, trivial⟩

theorem decodes_choice (k : Kind) : Decodes Kind.decode k (.string k.name) := by
  intro depth _
  cases k <;> cases depth <;> rfl

theorem decodes_looseChoice (k : Kind) :
    Decodes (Decoder.looseChoice Kind.names) k (.string k.name) := by
  intro depth _
  cases k <;> cases depth <;> rfl

theorem faithful : codec.Faithful where
  typed _ := typed
  finite _ := rfl
  decodes v := decodesWith (decodes_choice v.kind)

end Violation

namespace Outcome

def finite : Outcome → Outcome
  | returned v => returned v.finite
  | violated v => violated v
  | failed e => failed e

def Proper : Outcome → Prop
  | returned v => v.Ordered
  | violated v => v.index < 2 ^ 64
  | failed _ => True

def codec : Codec Outcome := ⟨toDocument, decode, finite, Proper⟩

theorem typed {o : Outcome} (h : o.Proper) : o.toDocument.All Document.Typed := by
  cases o with
  | returned v => exact ⟨trivial, trivial, v.typed, trivial⟩
  | violated v => exact ⟨trivial, trivial, (Violation.typed h).2⟩
  | failed e => exact ⟨trivial, trivial, trivial, trivial⟩

theorem toDocument_finite (o : Outcome) : o.finite.toDocument = o.toDocument.finite := by
  cases o with
  | returned v =>
    rw [finite, toDocument, v.toDocument_finite]
    rfl
  | violated v => rfl
  | failed e => rfl

/-- What stands beside the status is read under the status. -/
theorem decode_status {status : String} {rest : List (String × Document)}
    (hrest : ∀ m ∈ rest, m.1 ≠ "status")
    (hreadable : (Document.object (("status", .string status) :: rest)).Readable) {depth : Nat}
    (hdepth : (Document.object (("status", .string status) :: rest)).depth ≤ depth) :
    decode depth (.object (("status", .string status) :: rest)) =
      decodeRest status depth (.object rest) := by
  -- the outcome is taken in as a whole before its status is looked at
  obtain ⟨j, hj⟩ := Json.exists_ofDocument? hreadable hdepth
  have hpartition : (("status", Document.string status) :: rest).partition
      (fun m => m.1 = "status") = ([("status", .string status)], rest) := by
    have hout : rest.filter (fun m => m.1 = "status") = [] :=
      List.filter_eq_nil_iff.2 fun m hm => by simpa using hrest m hm
    have hin : rest.filter (fun m => !decide (m.1 = "status")) = rest :=
      List.filter_eq_self.2 fun m hm => by simpa using hrest m hm
    rw [List.partition_eq_filter_filter]
    simp [hout, Function.comp_def, hin]
  rw [decode, hj]
  simp only [Option.bind_eq_bind, Option.bind_some, hpartition]

theorem decodes {o : Outcome} (h : o.Proper) : Decodes decode o.finite o.toDocument.finite := by
  intro depth hdepth
  have hreadable := Document.readable_finite (typed h)
  cases o with
  | returned v =>
    have hdoc : (returned v).toDocument.finite =
      .object [("status", .string "returned"), ("value", v.toDocument.finite)] := rfl
    rw [hdoc] at hdepth hreadable ⊢
    have hrest : (Document.object [("value", v.toDocument.finite)]).depth ≤ depth :=
      Document.depth_object_le_of_cons hdepth
    have hms := members?_object hrest ["value"] (by simp) 1
    have hvalue := (Value.decodes h).field "value" hrest none (by simp)
    rw [decode_status (by simp) hreadable hdepth, decodeRest, hms]
    simp only [hvalue, Option.bind_eq_bind, Option.bind_some, Option.pure_def, finite]
  | violated v =>
    have hdoc : (violated v).toDocument.finite =
      .object (("status", .string "violated") :: v.toMembers) := rfl
    rw [hdoc] at hdepth hreadable ⊢
    have hrest : (Document.object v.toMembers).depth ≤ depth :=
      Document.depth_object_le_of_cons hdepth
    have hv := Violation.decodesWith (Violation.decodes_looseChoice v.kind) h depth hrest
    rw [decode_status (by simp [Violation.toMembers]) hreadable hdepth, decodeRest]
    change (Violation.decodeWith _ depth v.toDocument).bind _ = _
    rw [hv]
    rfl
  | failed e =>
    have hdoc : (failed e).toDocument.finite =
      .object [("status", .string "failed"), ("error", .string e)] := rfl
    rw [hdoc] at hdepth hreadable ⊢
    have hrest : (Document.object [("error", .string e)]).depth ≤ depth :=
      Document.depth_object_le_of_cons hdepth
    have hms := members?_object hrest ["error"] (by simp) 1
    have herror := (Decodes.string e).field "error" hrest none (by simp)
    rw [decode_status (by simp) hreadable hdepth, decodeRest, hms]
    simp only [herror, Option.bind_eq_bind, Option.bind_some, Option.pure_def, finite]

theorem faithful : codec.Faithful := ⟨fun _ => typed, toDocument_finite, fun _ => decodes⟩

end Outcome

namespace Record

def finite (r : Record) : Record :=
  ⟨r.index, Value.finiteItems r.arguments, r.outcome.finite, r.changes.map Change.finite⟩

structure Proper (r : Record) : Prop where
  index : r.index < 2 ^ 64
  arguments : ∀ v ∈ r.arguments, v.Ordered
  outcome : r.outcome.Proper
  changes : ∀ c ∈ r.changes, c.Proper

def codec : Codec Record := ⟨toDocument, decode, finite, Proper⟩

theorem typed {r : Record} (h : r.Proper) : r.toDocument.All Document.Typed :=
  ⟨trivial, Json.fits_of_lt h.index, (Value.array r.arguments).typed, Outcome.typed h.outcome,
    typed_list fun c _ => c.typed, trivial⟩

theorem toDocument_finite (r : Record) : r.finite.toDocument = r.toDocument.finite := by
  rw [finite, toDocument, Value.itemsToDocument_finite, r.outcome.toDocument_finite,
    finite_list Change.toDocument_finite]
  rfl

theorem decodes {r : Record} (h : r.Proper) : Decodes decode r.finite r.toDocument.finite := by
  intro depth hdepth
  have hdoc : r.toDocument.finite = .object [("index", .integer r.index),
    ("args", .array (Document.finiteItems (Value.itemsToDocument r.arguments))),
    ("outcome", r.outcome.toDocument.finite),
    ("changes", .array (Document.finiteItems (r.changes.map Change.toDocument)))] := rfl
  rw [hdoc] at hdepth ⊢
  have hms := members?_object hdepth ["index", "args", "outcome", "changes"] (by simp) 4
  have hindex := (Decodes.natural h.index).field "index" hdepth none (by simp)
  have hargs := (Value.decodes_items fun v hv => Value.decodes (h.arguments v hv)).field "args"
    hdepth none (by simp)
  have houtcome := (Outcome.decodes h.outcome).field "outcome" hdepth none (by simp)
  have hchanges := (decodes_list fun c hc => Change.decodes (h.changes c hc)).field "changes"
    hdepth none (by simp)
  simp only [decode, hms, hindex, hargs, houtcome, hchanges, Option.bind_eq_bind,
    Option.bind_some, Option.pure_def, finite]

theorem faithful : codec.Faithful := ⟨fun _ => typed, toDocument_finite, fun _ => decodes⟩

end Record

namespace Report

def finite (r : Report) : Report :=
  ⟨r.name, r.fingerprint, r.success, r.calls.map Record.finite, Value.finiteFields r.finalState,
    r.error⟩

structure Proper (r : Report) : Prop where
  calls : ∀ c ∈ r.calls, c.Proper
  finalState : (Value.object r.finalState).Ordered

def codec : Codec Report := ⟨toDocument, decode, finite, Proper⟩

theorem typed {r : Report} (h : r.Proper) : r.toDocument.All Document.Typed := by
  refine ⟨trivial, trivial, trivial, trivial, typed_list fun c hc => Record.typed (h.calls c hc),
    (Value.object r.finalState).typed, ?_, trivial⟩
  cases r.error <;> exact trivial

theorem toDocument_finite (r : Report) : r.finite.toDocument = r.toDocument.finite := by
  rw [finite, toDocument, Value.fieldsToDocument_finite, finite_list Record.toDocument_finite]
  cases h : r.error <;> simp only [toDocument, Document.finite, Document.finiteMembers, h]

theorem decodes {r : Report} (h : r.Proper) : Decodes decode r.finite r.toDocument.finite := by
  intro depth hdepth
  have hdoc : r.toDocument.finite = .object [("name", .string r.name),
    ("fingerprint", .string r.fingerprint), ("success", .boolean r.success),
    ("calls", .array (Document.finiteItems (r.calls.map Record.toDocument))),
    ("final_state", .object (Document.finiteMembers (Value.fieldsToDocument r.finalState))),
    ("error", r.error.elim .null .string)] := by
    cases h : r.error <;> simp only [toDocument, Document.finite, Document.finiteMembers, h] <;> rfl
  rw [hdoc] at hdepth ⊢
  have hms := members?_object hdepth
    ["name", "fingerprint", "success", "calls", "final_state", "error"] (by simp) 6
  have hname := (Decodes.string r.name).field "name" hdepth none (by simp)
  have hfingerprint := (Decodes.string r.fingerprint).field "fingerprint" hdepth none (by simp)
  have hsuccess := (Decodes.boolean r.success).field "success" hdepth none (by simp)
  have hcalls := (decodes_list fun c hc => Record.decodes (h.calls c hc)).field "calls" hdepth none
    (by simp)
  have hstate := (Value.decodes_fields h.finalState).field "final_state" hdepth none (by simp)
  have herror := (Decodes.optionalString r.error).field "error" hdepth (some none) (by simp)
  simp only [decode, hms, hname, hfingerprint, hsuccess, hcalls, hstate, herror,
    Option.bind_eq_bind, Option.bind_some, Option.pure_def, finite]

theorem faithful : codec.Faithful := ⟨fun _ => typed, toDocument_finite, fun _ => decodes⟩

end Report

/-- Values, states, changes, violations, outcomes, records and reports come back from their
texts with null for each float that is no finite number, and with nothing else changed. -/
theorem data_round_trips : Value.codec.RoundTrips ∧ State.codec.RoundTrips ∧
    Change.codec.RoundTrips ∧ Violation.codec.RoundTrips ∧ Outcome.codec.RoundTrips ∧
    Record.codec.RoundTrips ∧ Report.codec.RoundTrips :=
  ⟨Value.faithful.roundTrips, State.faithful.roundTrips, Change.faithful.roundTrips,
    Violation.faithful.roundTrips, Outcome.faithful.roundTrips, Record.faithful.roundTrips,
    Report.faithful.roundTrips⟩

/-- A report of a call that left an infinite total, and of a violated one. -/
def lossyReport : Report where
  name := "totals"
  fingerprint := "00"
  success := true
  calls := [
    ⟨0, [.integer 1, .float 1], .returned (.array [.float (1 / 0), .integer 2]),
      [⟨"total", .float 0, .float (1 / 0)⟩]⟩,
    ⟨1, [], .violated ⟨.precondition, 0, "no call"⟩, []⟩]
  finalState := [("count", .integer 1), ("total", .float (1 / 0))]
  error := none

theorem data_round_trips_lossyReport :
    Report.codec.read? lossyReport.toDocument.pretty = some { lossyReport with
      calls := [
        ⟨0, [.integer 1, .float 1], .returned (.array [.null, .integer 2]),
          [⟨"total", .float 0, .null⟩]⟩,
        ⟨1, [], .violated ⟨.precondition, 0, "no call"⟩, []⟩]
      finalState := [("count", .integer 1), ("total", .null)] } := by
  have hproper : lossyReport.Proper := by
    refine ⟨List.forall_mem_cons.2 ⟨⟨by decide, ?_, ?_, ?_⟩, List.forall_mem_cons.2
      ⟨⟨by decide, ?_, ?_, ?_⟩, fun _ h => absurd h List.not_mem_nil⟩⟩, ?_, ?_⟩
    · simp [Value.Ordered]
    · simp [Outcome.Proper, Value.Ordered, Value.OrderedItems]
    · simp [Change.Proper, Value.Ordered]
    · simp
    · exact Nat.two_pow_pos 64
    · simp
    · exact List.pairwise_pair.2 (by decide)
    · exact ⟨trivial, trivial, trivial⟩
  obtain ⟨-, hpretty, -⟩ := data_round_trips.2.2.2.2.2.2 lossyReport hproper (by decide)
  refine hpretty.trans ?_
  rfl

end Covenant
