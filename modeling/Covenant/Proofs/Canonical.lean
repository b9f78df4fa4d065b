import Covenant.Manifest.Codec
import Covenant.Proofs.Printing
import Covenant.Proofs.Rearrangement

/-! Manifests and their texts. A text can write a manifest with other blanks, with members in
another order, with members that are not known, and with fields spelled out that it could have
left to their defaults: it is the same manifest, and it has the same fingerprint. The canonical
text of a manifest writes it, so manifests with the same canonical text are the same. -/

namespace Covenant.Manifest

open Document (Distinct Reordered)

/-- The manifest of the empty object. -/
def blank : Manifest where
  name := ""
  state := .null
  outline := ⟨.null, ⟨.null, .null, .null⟩⟩
  shape := .plain
  policy := .raise
  deferred := false
  deferredArguments := .null
  delay := 0

/-! ### Decoding from the members -/

/-- The manifest that the known members of an object write. -/
def ofMembers (depth : Nat) (members : List (String × Document)) : Option Manifest := do
  let part {α : Type} (name : String) (item : Decoder α) (absent : α) :=
    Decoder.field name item (some absent) depth members
  return {
    name := ← part "name" Decoder.string ""
    state := ← part "state" Decoder.json .null
    outline := ← Outline.ofMembers depth members
    shape := ← part "shape" Shape.decode .plain
    policy := ← part "on_violation" Policy.decode .raise
    deferred := ← part "async" Decoder.boolean false
    deferredArguments := ← part "async_args" Decoder.json .null
    delay := ← part "delay_ms" Decoder.natural 0 }

/-- The members that are not known mean something all the same. -/
def UnknownMean (depth : Nat) (members : List (String × Document)) : Prop :=
  ∀ m ∈ members, m.1 ∉ fieldNames → ∃ j, Json.ofDocument? depth m.2 = some j

theorem countP_le_one {members : List (String × Document)} (h : (members.map Prod.fst).Nodup)
    (name : String) : members.countP (fun m => m.1 = name) ≤ 1 := by
  have hcount := List.nodup_iff_count_le_one.1 h name
  rw [List.count, List.countP_map] at hcount
  refine Nat.le_trans (Nat.le_of_eq (List.countP_congr fun m _ => ?_)) hcount
  simp

theorem decode_eq_some_iff {members : List (String × Document)} {depth : Nat} {m : Manifest} :
    decode (depth + 1) (.object members) = some m ↔
      (∀ name ∈ fieldNames, members.countP (fun m => m.1 = name) ≤ 1) ∧
        UnknownMean depth members ∧ ofMembers (depth + 1) members = some m := by
  have hunknown : (∃ js, (members.filter fun m => !fieldNames.contains m.1).mapM
      (fun m => Json.ofDocument? depth m.2) = some js) ↔ UnknownMean depth members := by
    rw [exists_mapM_eq_some_iff]
    simp [UnknownMean]
  have hdecode : decode (depth + 1) (.object members) =
      (Decoder.members? fieldNames 0 (depth + 1) (.object members)).bind fun members =>
        ((members.filter fun m => !fieldNames.contains m.1).mapM fun m =>
          Json.ofDocument? depth m.2).bind fun _ => ofMembers (depth + 1) members := rfl
  rw [hdecode, Decoder.members?]
  split
  next hcount =>
    have hcount' : ∀ name ∈ fieldNames, members.countP (fun m => m.1 = name) ≤ 1 := by
      simpa using hcount
    rw [Option.bind_some, Option.bind_eq_some_iff, exists_and_right, hunknown,
      and_iff_right hcount']
  next hcount => simpa using fun h => absurd h (by simpa using hcount)

theorem decode_object_eq_some_iff {members : List (String × Document)}
    (h : (members.map Prod.fst).Nodup) {depth : Nat} {m : Manifest} :
    decode (depth + 1) (.object members) = some m ↔
      UnknownMean depth members ∧ ofMembers (depth + 1) members = some m := by
  rw [decode_eq_some_iff, and_iff_right fun name _ => countP_le_one h name]

/-! ### Presentations -/

theorem ofMembers_congr {depth : Nat} {as bs : List (String × Document)}
    (h : ∀ {α : Type} (item : Decoder α) (name : String) (absent : Option α), Blind item →
      Decoder.field name item absent depth as = Decoder.field name item absent depth bs) :
    ofMembers depth as = ofMembers depth bs := by
  simp only [ofMembers, Outline.ofMembers, h _ _ _ blind_string, h _ _ _ blind_json,
    h _ _ _ blind_boolean, h _ _ _ blind_natural,
    h Shape.decode _ _ (blind_choice Shape.names), h Policy.decode _ _ (blind_choice Policy.names)]

theorem decode_perm {as bs : List (String × Document)} (h : as.Perm bs)
    (has : (as.map Prod.fst).Nodup) (depth : Nat) :
    decode (depth + 1) (.object as) = decode (depth + 1) (.object bs) := by
  have hmean : UnknownMean depth as ↔ UnknownMean depth bs := by
    simp only [UnknownMean, h.mem_iff]
  have hfields : ofMembers (depth + 1) as = ofMembers (depth + 1) bs :=
    ofMembers_congr fun item name absent _ => field_eq_of_perm item h has name absent _
  refine Option.ext fun m => ?_
  rw [decode_object_eq_some_iff has, hmean, hfields,
    decode_object_eq_some_iff ((h.map _).nodup_iff.1 has)]

/-- The order of members has no meaning, at whatever depth. -/
theorem decode_reordered {a b : Document} (h : Reordered a b) (ha : a.All Distinct)
    (depth : Nat) : decode (depth + 1) a = decode (depth + 1) b := by
  have hb := h.distinct ha
  have hab := h
  cases h with
  | here h => exact decode_perm h (Document.all_object.1 ha).1 depth
  | item before after h => rfl
  | @member a b before after name h =>
    have hpart := (Document.all_object.1 ha).2 (name, a) (by simp)
    have hmean : UnknownMean depth (before ++ (name, a) :: after) ↔
        UnknownMean depth (before ++ (name, b) :: after) := by
      simp only [UnknownMean, List.forall_mem_append, List.forall_mem_cons,
        h.ofDocument?_eq hpart depth]
    have hfields : ofMembers (depth + 1) (before ++ (name, a) :: after) =
        ofMembers (depth + 1) (before ++ (name, b) :: after) :=
      ofMembers_congr fun _ name absent hitem => field_eq_of_reordered hitem hab ha name absent _
    refine Option.ext fun m => ?_
    rw [decode_object_eq_some_iff (Document.all_object.1 ha).1, hmean, hfields,
      decode_object_eq_some_iff (Document.all_object.1 hb).1]

theorem decode_rearranged {a b : Document} (h : Relation.ReflTransGen Reordered a b)
    (ha : a.All Distinct) (depth : Nat) : decode (depth + 1) a = decode (depth + 1) b := by
  suffices hboth : b.All Distinct ∧ decode (depth + 1) a = decode (depth + 1) b from hboth.2
  induction h with
  | refl => exact ⟨ha, rfl⟩
  | tail _ hstep ih => exact ⟨hstep.distinct ih.1, ih.2.trans (decode_reordered hstep ih.1 depth)⟩

/-- A member that can be added to a manifest: one that is not known, or a field with what it
is when it is absent. -/
def Spare (e : String × Document) : Prop := e.1 ∉ fieldNames ∨ e ∈ blank.toMembers

theorem field_append {α : Type} (item : Decoder α) {name : String} (absent : Option α)
    {members : List (String × Document)} {e : String × Document}
    (hfresh : e.1 ∉ members.map Prod.fst) {depth : Nat}
    (habsent : e.1 = name → item depth e.2 = absent) :
    Decoder.field name item absent (depth + 1) (members ++ [e]) =
      Decoder.field name item absent (depth + 1) members := by
  rw [Decoder.field, Decoder.field, List.find?_append]
  by_cases hname : e.1 = name
  · have hnone : members.find? (fun m => m.1 = name) = none := by
      refine List.find?_eq_none.2 fun m hm => ?_
      have hne : m.1 ≠ e.1 := fun heq => hfresh (heq ▸ List.mem_map_of_mem hm)
      simpa [← hname] using hne
    rw [hnone]
    simp [hname, habsent hname]
  · simp [hname]

theorem names_toMembers (m : Manifest) : m.toMembers.map Prod.fst =
    ["name", "state", "fn", "preconditions", "postconditions", "invariants", "shape",
      "on_violation", "async", "async_args", "delay_ms"] := rfl

theorem nodup_toMembers (m : Manifest) : (m.toMembers.map Prod.fst).Nodup := by
  rw [names_toMembers]
  decide

theorem mem_fieldNames {m : Manifest} {name : String} {d : Document}
    (h : (name, d) ∈ m.toMembers) : name ∈ fieldNames := by
  have hnames : ∀ name ∈ m.toMembers.map Prod.fst, name ∈ fieldNames := by
    rw [names_toMembers]
    decide
  exact hnames name (List.mem_map.2 ⟨_, h, rfl⟩)

/-- A spare member of a name that is known has the value that stands for its absence. -/
theorem Spare.eq_of_mem {e : String × Document} (he : Spare e) {d : Document}
    (hd : (e.1, d) ∈ blank.toMembers) : e.2 = d := by
  have hmem : e ∈ blank.toMembers :=
    he.resolve_left fun hunknown => hunknown (mem_fieldNames hd)
  have heq : e = (e.1, d) :=
    List.inj_on_of_nodup_map (nodup_toMembers blank) hmem hd rfl
  exact congrArg Prod.snd heq

/-- A spare member changes nothing. -/
theorem ofMembers_append_spare {members : List (String × Document)} {e : String × Document}
    (he : Spare e) (hfresh : e.1 ∉ members.map Prod.fst) (depth : Nat) :
    ofMembers (depth + 1) (members ++ [e]) = ofMembers (depth + 1) members := by
  have hfield : ∀ {α : Type} (item : Decoder α) (absent : α) (name : String) (d : Document),
      (name, d) ∈ blank.toMembers → item depth d = some absent →
      Decoder.field name item (some absent) (depth + 1) (members ++ [e]) =
        Decoder.field name item (some absent) (depth + 1) members := by
    intro α item absent name d hd hitem
    refine field_append item (some absent) hfresh fun hname => ?_
    rw [he.eq_of_mem (hname ▸ hd), hitem]
  have hnull : ∀ name, (name, Document.null) ∈ blank.toMembers →
      Decoder.field name Decoder.json (some .null) (depth + 1) (members ++ [e]) =
        Decoder.field name Decoder.json (some .null) (depth + 1) members :=
    fun name hd => hfield Decoder.json .null name .null hd rfl
  have hname := hfield Decoder.string "" "name" (.string "") (by simp [blank, toMembers]) rfl
  have hshape := hfield Shape.decode .plain "shape" (.string "plain")
    (by simp [blank, toMembers, Shape.name]) rfl
  have hpolicy := hfield Policy.decode .raise "on_violation" (.string "raise")
    (by simp [blank, toMembers, Policy.name]) rfl
  have hasync := hfield Decoder.boolean false "async" (.boolean false)
    (by simp [blank, toMembers]) rfl
  have hdelay := hfield Decoder.natural 0 "delay_ms" (.integer 0) (by simp [blank, toMembers]) rfl
  have hnulls : ∀ name ∈ ["state", "fn", "preconditions", "postconditions", "invariants",
      "async_args"], (name, Document.null) ∈ blank.toMembers := by
    simp [blank, toMembers, Outline.toMembers, Json.toDocument]
  simp only [List.forall_mem_cons] at hnulls
  obtain ⟨hstate, hfn, hpre, hpost, hinv, hargs, -⟩ := hnulls
  simp only [ofMembers, Outline.ofMembers, hname, hshape, hpolicy, hasync, hdelay, hnull _ hstate,
    hnull _ hfn, hnull _ hpre, hnull _ hpost, hnull _ hinv, hnull _ hargs]

theorem ofMembers_append {members extra : List (String × Document)}
    (hextra : ∀ e ∈ extra, Spare e) (h : ((members ++ extra).map Prod.fst).Nodup) (depth : Nat) :
    ofMembers (depth + 1) (members ++ extra) = ofMembers (depth + 1) members := by
  induction extra generalizing members with
  | nil => rw [List.append_nil]
  | cons e rest ih =>
    obtain ⟨he, hrest⟩ := List.forall_mem_cons.1 hextra
    have hfresh : e.1 ∉ members.map Prod.fst := by
      rw [List.map_append, List.nodup_append] at h
      exact fun hmem => h.2.2 _ hmem _ (by simp) rfl
    rw [List.append_cons] at h ⊢
    rw [ih hrest h, ofMembers_append_spare he hfresh]

/-- Spare members change nothing, as long as all of them mean something. -/
theorem decode_append_spare {members extra : List (String × Document)}
    (hextra : ∀ e ∈ extra, Spare e) (h : ((members ++ extra).map Prod.fst).Nodup) {depth : Nat}
    {m : Manifest} : decode (depth + 1) (.object (members ++ extra)) = some m ↔
      decode (depth + 1) (.object members) = some m ∧
        ∀ e ∈ extra, ∃ j, Json.ofDocument? depth e.2 = some j := by
  have hmembers : (members.map Prod.fst).Nodup := by
    rw [List.map_append, List.nodup_append] at h
    exact h.1
  have hblank : ∀ e ∈ blank.toMembers, ∃ j, Json.ofDocument? depth e.2 = some j := by
    simp [blank, toMembers, Outline.toMembers, Json.toDocument, Json.ofDocument?]
  have hmean : UnknownMean depth (members ++ extra) ↔ UnknownMean depth members ∧
      ∀ e ∈ extra, ∃ j, Json.ofDocument? depth e.2 = some j := by
    rw [UnknownMean, List.forall_mem_append]
    refine and_congr_right fun _ => forall₂_congr fun e he => ?_
    exact ⟨fun hunknown => (hextra e he).elim hunknown (hblank e), fun hj _ => hj⟩
  rw [decode_object_eq_some_iff h, decode_object_eq_some_iff hmembers, hmean,
    ofMembers_append hextra h, and_right_comm]

/-! ### The canonical text -/

/-- The value is what its document means, and a text can write it. -/
structure Settled (depth : Nat) (j : Json) : Prop where
  readable : j.toDocument.Readable
  depth_le : j.toDocument.depth ≤ depth
  means : Json.ofDocument? depth j.toDocument = some j

/-- What holds of every manifest that a text writes. -/
structure Canonical (depth : Nat) (m : Manifest) : Prop where
  state : Settled depth m.state
  target : Settled depth m.outline.target
  preconditions : Settled depth m.outline.lists.preconditions
  postconditions : Settled depth m.outline.lists.postconditions
  invariants : Settled depth m.outline.lists.invariants
  deferredArguments : Settled depth m.deferredArguments
  delay : m.delay < 2 ^ 64

theorem settled_of_field {members : List (String × Document)} (h : ∀ m ∈ members, m.2.Sound)
    {name : String} {depth : Nat} {j : Json}
    (hj : Decoder.field name Decoder.json (some .null) (depth + 1) members = some j) :
    Settled depth j := by
  rw [Decoder.field] at hj
  split at hj
  next m hm =>
    have hsound := h m (List.mem_of_find?_eq_some hm)
    obtain ⟨hreadable, hdepth, hmeans⟩ := Json.toDocument_of_ofDocument? hsound hj
    exact ⟨hreadable, hdepth, hmeans⟩
  next =>
    cases hj
    exact ⟨trivial, Nat.zero_le _, rfl⟩

theorem lt_of_field {members : List (String × Document)} {name : String} {depth n : Nat}
    (h : Decoder.field name Decoder.natural (some 0) depth members = some n) : n < 2 ^ 64 := by
  rw [Decoder.field] at h
  split at h
  next m _ =>
    unfold Decoder.natural at h
    split at h
    next =>
      split at h
      next hlt =>
        cases h
        exact hlt
      next => cases h
    next => cases h
  next =>
    cases h
    exact Nat.two_pow_pos 64

theorem canonical_of_decode {members : List (String × Document)}
    (h : (Document.object members).Sound) {depth : Nat} {m : Manifest}
    (hm : decode (depth + 1) (.object members) = some m) : m.Canonical depth := by
  have hsound := Document.sound_object.1 h
  obtain ⟨-, -, hm⟩ := decode_eq_some_iff.1 hm
  simp only [ofMembers, Outline.ofMembers, Option.bind_eq_bind, Option.bind_eq_some_iff,
    Option.pure_def, Option.some.injEq] at hm
  obtain ⟨_, -, state, hstate, _, ⟨target, htarget, pre, hpre, post, hpost, inv, hinv, rfl⟩,
    _, -, _, -, _, -, arguments, harguments, delay, hdelay, rfl⟩ := hm
  exact {
    state := settled_of_field hsound hstate
    target := settled_of_field hsound htarget
    preconditions := settled_of_field hsound hpre
    postconditions := settled_of_field hsound hpost
    invariants := settled_of_field hsound hinv
    deferredArguments := settled_of_field hsound harguments
    delay := lt_of_field hdelay }

theorem parse_eq_ok_iff {text : String} {m : Manifest} : parse text = .ok m ↔
    ∃ d, Document.parse? text = some d ∧ decode Document.maxDepth d = some m := by
  rw [parse, ← Option.bind_eq_some_iff]
  split
  next found hfound => rw [hfound, Except.ok.injEq, Option.some.injEq]
  next hnone => simp [hnone]

theorem canonical_of_parse {text : String} {m : Manifest} (h : parse text = .ok m) :
    m.Canonical (Document.maxDepth - 1) := by
  obtain ⟨d, hd, hm⟩ := parse_eq_ok_iff.1 h
  cases d with
  | object members => exact canonical_of_decode (Document.sound_of_parse? hd) hm
  | _ => cases hm

/-- The text `b` writes what the text `a` writes, with the members `extra` added to those of the
manifest, and with the members of any objects in another order. No object has two members of
one name. -/
def Restates (extra : List (String × Document)) (a b : String) : Prop :=
  ∃ members d, Document.parse? a = some (.object members) ∧ Document.parse? b = some d ∧
    (Document.object (members ++ extra)).All Distinct ∧
    Relation.ReflTransGen Reordered (.object (members ++ extra)) d

/-- The restated text writes a manifest exactly when the other does and all that is added means
something. -/
theorem Restates.parse_eq_ok_iff {extra : List (String × Document)} {a b : String}
    (h : Restates extra a b) (hextra : ∀ e ∈ extra, Spare e) (m : Manifest) :
    parse b = .ok m ↔ parse a = .ok m ∧
      ∀ e ∈ extra, ∃ j, Json.ofDocument? (Document.maxDepth - 1) e.2 = some j := by
  obtain ⟨members, d, ha, hb, hdistinct, hrearranged⟩ := h
  have hdecode : decode Document.maxDepth d =
      decode Document.maxDepth (.object (members ++ extra)) :=
    (decode_rearranged hrearranged hdistinct (Document.maxDepth - 1)).symm
  simp only [Manifest.parse_eq_ok_iff, ha, hb, Option.some.injEq, exists_eq_left', hdecode]
  exact decode_append_spare hextra (Document.all_object.1 hdistinct).1

end Covenant.Manifest
