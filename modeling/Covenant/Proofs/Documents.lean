import Covenant.Proofs.Lexemes
import Covenant.Proofs.Lists
import Covenant.Proofs.Numerals

/-! Documents in parts. A document is readable when its numbers have numerals and all of it
denotes something. What a text writes is sound: it has such numbers only, though some of it may
denote nothing. -/

namespace Covenant

namespace Document

/-! ### Documents in parts -/

/-- Induction on the nesting: a container is reached from its parts. -/
@[elab_as_elim]
theorem induction {motive : Document → Prop} (null : motive null)
    (boolean : ∀ b, motive (boolean b)) (integer : ∀ n, motive (integer n))
    (float : ∀ x, motive (float x)) (string : ∀ s, motive (string s)) (void : motive void)
    (array : ∀ items, (∀ d ∈ items, motive d) → motive (array items))
    (object : ∀ members, (∀ m ∈ members, motive m.2) → motive (object members))
    (d : Document) : motive d := by
  refine @Document.rec motive (fun items => ∀ d ∈ items, motive d)
    (fun members => ∀ m ∈ members, motive m.2) (fun m => motive m.2) null boolean integer float
    string array object void ?_ ?_ ?_ ?_ (fun _ _ hd => hd) d
  · simp
  · exact fun d rest hd hrest => List.forall_mem_cons.2 ⟨hd, hrest⟩
  · simp
  · exact fun m rest hm hrest => List.forall_mem_cons.2 ⟨hm, hrest⟩

mutual

/-- The predicate holds of the document and of everything in it. -/
def All (P : Document → Prop) : Document → Prop
  | array items => P (array items) ∧ AllItems P items
  | object members => P (object members) ∧ AllMembers P members
  | null => P null
  | boolean b => P (boolean b)
  | integer n => P (integer n)
  | float x => P (float x)
  | string s => P (string s)
  | void => P void

def AllItems (P : Document → Prop) : List Document → Prop
  | [] => True
  | d :: rest => All P d ∧ AllItems P rest

def AllMembers (P : Document → Prop) : List (String × Document) → Prop
  | [] => True
  | (_, d) :: rest => All P d ∧ AllMembers P rest

end

theorem allItems_iff {P : Document → Prop} {items : List Document} :
    AllItems P items ↔ ∀ d ∈ items, All P d :=
  iff_forall_of_cons (AllItems P) trivial fun _ _ => Iff.rfl

theorem allMembers_iff {P : Document → Prop} {members : List (String × Document)} :
    AllMembers P members ↔ ∀ m ∈ members, All P m.2 :=
  iff_forall_of_cons (AllMembers P) trivial fun _ _ => Iff.rfl

theorem all_array {P : Document → Prop} {items : List Document} :
    All P (array items) ↔ P (array items) ∧ ∀ d ∈ items, All P d := by
  rw [All, allItems_iff]

theorem all_object {P : Document → Prop} {members : List (String × Document)} :
    All P (object members) ↔ P (object members) ∧ ∀ m ∈ members, All P m.2 := by
  rw [All, allMembers_iff]

/-- The part is one that a text can write: an integer in the range of numerals, a finite float,
and nothing void. -/
def Plain : Document → Prop
  | integer n => Json.Fits n
  | float x => x.isFinite = true
  | void => False
  | _ => True

/-- Everything in the document can be written. -/
def Readable : Document → Prop := All Plain

theorem readable_array {items : List Document} :
    Readable (array items) ↔ ∀ d ∈ items, Readable d := by
  rw [Readable, all_array]
  exact and_iff_right trivial

theorem readable_object {members : List (String × Document)} :
    Readable (object members) ↔ ∀ m ∈ members, Readable m.2 := by
  rw [Readable, all_object]
  exact and_iff_right trivial

/-- Everything in the document is written by some text, but may denote nothing. -/
def Sound : Document → Prop := All fun d => d.Plain ∨ d = void

theorem sound_array {items : List Document} :
    Sound (array items) ↔ ∀ d ∈ items, Sound d := by
  rw [Sound, all_array]
  exact and_iff_right (.inl trivial)

theorem sound_object {members : List (String × Document)} :
    Sound (object members) ↔ ∀ m ∈ members, Sound m.2 := by
  rw [Sound, all_object]
  exact and_iff_right (.inl trivial)

theorem Readable.sound {d : Document} (h : d.Readable) : d.Sound := by
  induction d using Document.induction with
  | array items ih => exact sound_array.2 fun d hd => ih d hd (readable_array.1 h d hd)
  | object members ih => exact sound_object.2 fun m hm => ih m hm (readable_object.1 h m hm)
  | _ => exact .inl h

/-! ### What texts write -/

theorem sound_of_token? {c : Char} {cs : List Char} {d : Document} {width : Nat}
    (h : Json.token? c cs = some (.leaf d, width)) : d.Sound := by
  unfold Json.token? at h
  split at h
  case h_7 =>
    obtain ⟨found, -, heq⟩ := Option.map_eq_some_iff.1 h
    cases heq
  case h_8 | h_9 | h_10 =>
    split at h
    · cases h
      exact .inl trivial
    · cases h
  case h_11 =>
    obtain ⟨n, -, heq⟩ := Option.map_eq_some_iff.1 h
    cases heq
    obtain hvoid | ⟨k, hk, heq⟩ | ⟨x, hx, heq⟩ := n.toDocument_cases
    · rw [hvoid]
      exact .inr rfl
    · rw [heq]
      exact .inl hk
    · rw [heq]
      exact .inl hx
  -- the brackets, the comma and the colon
  all_goals cases h

/-- What has been read so far at the place. -/
def Place.Sound : Place → Prop
  | value => True
  | member before => ∀ m ∈ before, m.2.Sound
  | after d => d.Sound

def Frame.Sound : Frame → Prop
  | items before => ∀ d ∈ before, d.Sound
  | members before _ => ∀ m ∈ before, m.2.Sound

theorem sound_ofString (s : Option String) : (ofString s).Sound := by
  cases s with
  | none => exact .inr rfl
  | some s => exact .inl trivial

theorem sound_ofMembers {members : List (Option String × Document)}
    (h : ∀ m ∈ members, m.2.Sound) : (ofMembers members).Sound := by
  unfold ofMembers
  split
  next found hfound =>
    refine sound_object.2 fun m hm => ?_
    obtain ⟨n, hn, hnm⟩ := exists_of_mem_right (mapM_eq_some_iff.1 hfound) hm
    obtain ⟨name, -, rfl⟩ := Option.map_eq_some_iff.1 hnm
    exact h n (List.mem_reverse.1 hn)
  next => exact .inr rfl

/-- The reader only puts together what it has kept at its place and on its stack. -/
theorem sound_of_read? {place : Place} {stack : List Frame} {ts : List Json.Token} {d : Document}
    (h : read? place stack ts = some d) (hts : ∀ t ∈ ts, ∀ e, t = .leaf e → e.Sound)
    (hplace : place.Sound) (hstack : ∀ f ∈ stack, f.Sound) : d.Sound := by
  fun_induction read? place stack ts
  case case12 e =>
    cases h
    exact hplace
  case case13 => cases h
  all_goals simp only [List.forall_mem_cons] at hts hstack
  case case1 stack e rest ih => exact ih h hts.2 (hts.1 e rfl) hstack
  case case2 stack s rest ih => exact ih h hts.2 (sound_ofString s) hstack
  case case3 stack rest ih => exact ih h hts.2.2 (sound_array.2 (by simp)) hstack
  case case4 stack rest _ ih =>
    exact ih h hts.2 trivial (List.forall_mem_cons.2 ⟨fun _ h => absurd h List.not_mem_nil, hstack⟩)
  case case5 stack rest ih => exact ih h hts.2.2 (sound_object.2 (by simp)) hstack
  case case6 stack rest _ ih => exact ih h hts.2 (fun _ h => absurd h List.not_mem_nil) hstack
  case case7 before stack name rest ih =>
    exact ih h hts.2.2 trivial (List.forall_mem_cons.2 ⟨hplace, hstack⟩)
  case case8 e before stack rest ih =>
    have hitems : Frame.Sound (.items (e :: before)) := List.forall_mem_cons.2 ⟨hplace, hstack.1⟩
    exact ih h hts.2 trivial (List.forall_mem_cons.2 ⟨hitems, hstack.2⟩)
  case case9 e before stack rest ih =>
    refine ih h hts.2 (sound_array.2 fun d hd => ?_) hstack.2
    rcases List.mem_cons.1 (List.mem_reverse.1 hd) with rfl | hd
    · exact hplace
    · exact hstack.1 d hd
  case case10 e before name stack rest ih =>
    exact ih h hts.2 (List.forall_mem_cons.2 ⟨hplace, hstack.1⟩) hstack.2
  case case11 e before name stack rest ih =>
    have hmembers : ∀ m ∈ (name, e) :: before, m.2.Sound :=
      List.forall_mem_cons.2 ⟨hplace, hstack.1⟩
    exact ih h hts.2 (sound_ofMembers hmembers) hstack.2

/-- What a text writes is sound. -/
theorem sound_of_parse? {text : String} {d : Document} (h : parse? text = some d) : d.Sound := by
  obtain ⟨ts, hts, hd⟩ := Option.bind_eq_some_iff.1 h
  obtain ⟨ls, -, rfl⟩ := Json.tokens?_eq_some_iff.1 hts
  refine sound_of_read? hd (fun t ht e he => ?_) trivial (by simp)
  obtain ⟨l, -, rfl⟩ := List.mem_map.1 ht
  exact sound_of_token? (he ▸ l.reads)

end Document

end Covenant
