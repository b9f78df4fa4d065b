import Covenant.Proofs.History
import Covenant.Proofs.Lists

/-! What compiling a manifest comes to, stated without the compiler. Its parts are looked at
one after another, the shape of the contract first, and each may have a fault. Compiling
succeeds exactly when no part has one, and its error is that of the first that has. The tests
that it comes to stand in their lists as the tuples that describe them do. -/

namespace Covenant

/-! ### Computations that can fail -/

/-- The error with which a computation fails. -/
def failure? {ε α : Type} : Except ε α → Option ε
  | .ok _ => none
  | .error e => some e

section
variable {ε ε' α β : Type}

theorem failure?_eq_none_iff {x : Except ε α} : failure? x = none ↔ ∃ a, x = .ok a := by
  cases x <;> simp [failure?]

theorem failure?_eq_some_iff {x : Except ε α} {e : ε} : failure? x = some e ↔ x = .error e := by
  cases x <;> simp [failure?]

theorem failure?_mapError (f : ε → ε') (x : Except ε α) :
    failure? (x.mapError f) = (failure? x).map f := by
  cases x <;> rfl

/-- What comes next can fail only if what comes first does not. -/
theorem failure?_bind {x : Except ε α} {f : α → Except ε β} {next : Option ε}
    (h : ∀ a, failure? (f a) = next) : failure? (x >>= f) = (failure? x).or next := by
  cases x with
  | ok a => exact h a
  | error e => rfl

theorem failure?_bind_pure (x : Except ε α) (f : α → β) :
    failure? (x >>= fun a => pure (f a)) = failure? x := by
  cases x <;> rfl

theorem findSome?_cons_eq_or (f : α → Option β) (x : α) (xs : List α) :
    (x :: xs).findSome? f = (f x).or (xs.findSome? f) := by
  rw [List.findSome?_cons]
  cases f x <;> rfl

theorem findSome?_flatMap (f : α → Option β) (g : ε → List α) (xs : List ε) :
    (xs.flatMap g).findSome? f = xs.findSome? fun x => (g x).findSome? f := by
  induction xs with
  | nil => rfl
  | cons x xs ih => rw [List.flatMap_cons, List.findSome?_append, ih, findSome?_cons_eq_or]

theorem failure?_mapM (f : α → Except ε β) (xs : List α) :
    failure? (xs.mapM f) = xs.findSome? fun x => failure? (f x) := by
  induction xs with
  | nil => rfl
  | cons x xs ih =>
    rw [List.mapM_cons, findSome?_cons_eq_or, ← ih]
    exact failure?_bind fun y => failure?_bind_pure _ _

theorem bind_eq_ok_iff {x : Except ε α} {f : α → Except ε β} {b : β} :
    x >>= f = .ok b ↔ ∃ a, x = .ok a ∧ f a = .ok b := by
  cases x with
  | ok a => exact ⟨fun h => ⟨a, rfl, h⟩, fun ⟨_, rfl, h⟩ => h⟩
  | error e => exact ⟨nofun, nofun⟩

theorem mapError_eq_ok_iff {f : ε → ε'} {x : Except ε α} {a : α} :
    x.mapError f = .ok a ↔ x = .ok a := by
  cases x <;> simp [Except.mapError]

/-- Items are taken to results one by one. -/
theorem mapM_eq_ok_iff {f : α → Except ε β} {xs : List α} {ys : List β} :
    xs.mapM f = .ok ys ↔ List.Forall₂ (fun x y => f x = .ok y) xs ys := by
  induction xs generalizing ys with
  | nil =>
    rw [List.forall₂_nil_left_iff]
    exact ⟨fun h => (Except.ok.inj h).symm, fun h => congrArg Except.ok h.symm⟩
  | cons x xs ih =>
    rw [List.mapM_cons, bind_eq_ok_iff, List.forall₂_cons_left_iff]
    refine exists_congr fun y => ?_
    simp only [bind_eq_ok_iff, ih, exists_and_left]
    refine and_congr_right fun _ => exists_congr fun ys' => and_congr_right fun _ => ?_
    exact ⟨fun h => (Except.ok.inj h).symm, fun h => congrArg Except.ok h.symm⟩

end

/-! ### What the validator accepts -/

/-- Whether a value has the text of something callable. -/
def Json.callable (j : Json) : Bool := j.source?.isSome

/-- The text of what is callable is that of the tuple that starts with it. -/
theorem Json.exists_source {head : Json} (h : head.callable = true) (rest : List Json) :
    ∃ source, head.source? = some source ∧
      (head :: rest).head?.bind Json.source? = some source := by
  obtain ⟨source, hsource⟩ := Option.isSome_iff_exists.1 h
  exact ⟨source, hsource, hsource⟩

/-- A tuple that starts with something callable. -/
def Json.Leads (callable : Json → Bool) (tuple : Json) : Prop :=
  ∃ head rest, tuple = .array (head :: rest) ∧ callable head = true

theorem Json.leads_iff {callable : Json → Bool} {tuple : Json} :
    tuple.Leads callable ↔ tuple.isArray = true ∧ tuple.items.head?.any callable = true := by
  constructor
  · rintro ⟨head, rest, rfl, hhead⟩
    exact ⟨rfl, hhead⟩
  · rintro ⟨harray, hhead⟩
    cases tuple with
    | array items =>
      cases items with
      | nil => cases hhead
      | cons head rest => exact ⟨head, rest, rfl, hhead⟩
    | _ => cases harray

namespace Outline

variable {callable : Json → Bool} {o : Outline}

theorem find?_listOrder_eq_none_iff {bad : Kind → Bool} :
    listOrder.find? bad = none ↔ ∀ kind, bad kind = false := by
  rw [List.find?_eq_none]
  constructor
  · intro h kind
    rw [← Bool.not_eq_true]
    exact h kind (by cases kind <;> decide)
  · intro h kind _
    rw [h kind]
    exact Bool.false_ne_true

/-- The validator accepts a callable target and lists of tuples that start with something
callable. -/
theorem fault?_eq_none_iff : o.fault? callable = none ↔
    callable o.target = true ∧ ∀ kind, ∃ items, o.lists.get kind = .array items ∧
      ∀ tuple ∈ items, tuple.Leads callable := by
  have htarget : (if callable o.target then none else some StructuralError.targetNotCallable) =
      none ↔ callable o.target = true := by simp
  simp only [fault?, Option.orElse_eq_orElse, Option.orElse_eq_or, Option.or_eq_none_iff, htarget,
    Option.map_eq_none_iff, find?_listOrder_eq_none_iff, Bool.not_eq_false', List.all_eq_true]
  rw [← forall_and, ← forall_and]
  refine and_congr_right fun _ => forall_congr' fun kind => ?_
  cases o.lists.get kind with
  | array items => simp [Json.isArray, Json.items, Json.leads_iff, forall_and]
  | _ => simp [Json.isArray]

end Outline

/-! ### What a manifest says -/

namespace Manifest

/-- The names that a target's parameters are; nothing or null in their place is none. -/
inductive Parameters : Option Json → List String → Prop
  | absent : Parameters none []
  | null : Parameters (some .null) []
  | names (names : List String) : Parameters (some (.array (names.map .string))) names

/-- The arguments that stand in a place of a tuple; nothing or null there is none. -/
inductive Arguments : Option Json → Bag → Prop
  | absent : Arguments none []
  | null : Arguments (some .null) []
  | fields (fields : List (String × Json)) :
    Arguments (some (.object fields)) (Value.ofJsonFields fields)

/-- The test that a tuple describes. -/
inductive Describes : Shape → Json → Test → Prop
  | plain {head : Json} {rest : List Json} {source : String} {e : Expr}
    (hsource : head.source? = some source) (he : Expr.parse source = .ok e) :
    Describes .plain (.array (head :: rest)) ⟨e, none, message? rest[0]?⟩
  | withArguments {head : Json} {rest : List Json} {source : String} {e : Expr} {bag : Bag}
    (hsource : head.source? = some source) (he : Expr.parse source = .ok e)
    (hbag : Arguments rest[0]? bag) :
    Describes .withArguments (.array (head :: rest)) ⟨e, some bag, message? rest[1]?⟩

/-- The parts of a manifest that may have a fault. -/
inductive Part
  | outline
  | parameters
  | body
  | predicate (tuple : Json)
  | arguments (tuple : Json)

def partsOf (tuple : Json) : List Part := [.predicate tuple, .arguments tuple]

/-- The parts in the order in which they are looked at. -/
def parts (m : Manifest) : List Part :=
  [.outline, .parameters, .body] ++
    Outline.listOrder.flatMap fun kind => (m.outline.lists.get kind).items.flatMap partsOf

/-- Parameters are no array, or there is a first one that is no string. -/
def parametersFault? : Option Json → Option ManifestError
  | none | some .null => none
  | some (.array items) =>
    (items.find? fun item => item.string?.isNone).map .parameterNotString
  | some other => some (.parametersNotArray other)

def argumentsFault? : Option Json → Option ManifestError
  | none | some .null | some (.object _) => none
  | some other => some (.argumentsNotObject other)

def fault? (m : Manifest) : Part → Option Error
  | .outline => (m.outline.fault? Json.callable).map .structural
  | .parameters => (parametersFault? (m.outline.target.field? "params")).map .manifest
  | .body =>
    m.outline.target.source?.bind fun source => (failure? (Program.parse source)).map .parse
  | .predicate tuple =>
    (tuple.items.head?.bind Json.source?).bind fun source =>
      (failure? (Expr.parse source)).map .parse
  | .arguments tuple =>
    match m.shape with
    | .plain => none
    | .withArguments => (argumentsFault? tuple.items[1]?).map .manifest

structure WellFormed (m : Manifest) : Prop where
  outline : m.outline.validate Json.callable = .ok ()
  parameters : ∃ names, Parameters (m.outline.target.field? "params") names
  body : ∃ source p, m.outline.target.source? = some source ∧ Program.parse source = .ok p
  predicates : ∀ kind, ∀ tuple ∈ (m.outline.lists.get kind).items, ∃ source e,
    tuple.items.head?.bind Json.source? = some source ∧ Expr.parse source = .ok e
  arguments : m.shape = .withArguments → ∀ kind, ∀ tuple ∈ (m.outline.lists.get kind).items,
    ∃ bag, Arguments tuple.items[1]? bag

/-! ### Parameters and arguments -/

theorem parameter_eq_ok_iff {item : Json} {name : String} :
    parameter item = .ok name ↔ item = .string name := by
  cases item <;> simp [parameter]

theorem parameters_eq_ok_iff {target : Json} {names : List String} :
    parameters target = .ok names ↔ Parameters (target.field? "params") names := by
  rw [parameters]
  split
  next h =>
    rw [h]
    exact ⟨fun h => Except.ok.inj h ▸ .absent, fun | .absent => rfl⟩
  next h =>
    rw [h]
    exact ⟨fun h => Except.ok.inj h ▸ .null, fun | .null => rfl⟩
  next items h =>
    have hitems : items.mapM parameter = .ok names ↔ items = names.map .string := by
      simp only [mapM_eq_ok_iff, parameter_eq_ok_iff]
      rw [← List.forall₂_map_right_iff, List.forall₂_eq_eq_eq]
    rw [h, hitems]
    exact ⟨fun h => h ▸ .names names, fun | .names _ => rfl⟩
  next other hnull harray h =>
    rw [h]
    refine ⟨nofun, fun hparameters => ?_⟩
    cases hparameters with
    | null => exact absurd rfl hnull
    | names names => exact absurd rfl (harray _)

theorem failure?_parameters (target : Json) :
    failure? (parameters target) = parametersFault? (target.field? "params") := by
  rw [parameters]
  split
  next h => rw [h]; rfl
  next h => rw [h]; rfl
  next items h =>
    rw [h, failure?_mapM, parametersFault?]
    clear h
    induction items with
    | nil => rfl
    | cons item items ih =>
      rw [findSome?_cons_eq_or]
      cases item with
      | string => exact ih
      | _ => rfl
  next other hnull harray h =>
    rw [h]
    cases other with
    | null => exact absurd rfl hnull
    | array => exact absurd rfl (harray _)
    | _ => rfl

theorem arguments_eq_ok_iff {item : Option Json} {bag : Bag} :
    arguments item = .ok bag ↔ Arguments item bag := by
  constructor
  · intro h
    rcases item with _ | item
    · cases h
      exact .absent
    · cases item with
      | null =>
        cases h
        exact .null
      | object fields =>
        cases h
        exact .fields fields
      | _ => cases h
  · rintro (_ | _ | _) <;> rfl

theorem failure?_arguments (item : Option Json) :
    failure? (arguments item) = argumentsFault? item := by
  rcases item with _ | item
  · rfl
  · cases item <;> rfl

/-! ### Tests -/

section
variable {shape : Shape} {head : Json} {rest : List Json} {t : Test}

theorem test_eq_ok_iff (hhead : head.callable = true) :
    test shape (head :: rest) = .ok t ↔ Describes shape (.array (head :: rest)) t := by
  obtain ⟨source, hsource, hget⟩ := Json.exists_source hhead rest
  rw [test, hget, Option.getD_some, bind_eq_ok_iff]
  simp only [mapError_eq_ok_iff]
  cases shape with
  | plain =>
    constructor
    · rintro ⟨e, he, h⟩
      cases h
      exact .plain hsource he
    · intro h
      cases h with
      | plain hsource' he =>
        cases hsource.symm.trans hsource'
        exact ⟨_, he, rfl⟩
  | withArguments =>
    simp only [bind_eq_ok_iff, mapError_eq_ok_iff, arguments_eq_ok_iff]
    constructor
    · rintro ⟨e, he, bag, hbag, h⟩
      cases h
      exact .withArguments hsource he hbag
    · intro h
      cases h with
      | withArguments hsource' he hbag =>
        cases hsource.symm.trans hsource'
        exact ⟨_, he, _, hbag, rfl⟩

theorem failure?_test (m : Manifest) (hhead : head.callable = true) :
    failure? (test m.shape (head :: rest)) =
      (partsOf (.array (head :: rest))).findSome? m.fault? := by
  obtain ⟨source, -, hget⟩ := Json.exists_source hhead rest
  have hpredicate : failure? ((Expr.parse source).mapError Error.parse) =
      m.fault? (.predicate (.array (head :: rest))) := by
    rw [failure?_mapError, fault?, Json.items, hget, Option.bind_some]
  rw [partsOf, findSome?_cons_eq_or, findSome?_cons_eq_or, List.findSome?_nil, Option.or_none,
    ← hpredicate, test, hget, Option.getD_some]
  refine failure?_bind fun e => ?_
  rw [fault?]
  cases m.shape with
  | plain => rfl
  | withArguments =>
    refine (failure?_bind_pure _ _).trans ?_
    rw [failure?_mapError, failure?_arguments]
    rfl

end

/-! ### Lists of tests -/

section
variable {shape : Shape} {items : List Json}
  (h : ∀ tuple ∈ items, tuple.Leads Json.callable)

include h

theorem tests_eq_ok_iff {ts : List Test} :
    tests shape (.array items) = .ok ts ↔ List.Forall₂ (Describes shape) items ts := by
  rw [tests, mapM_eq_ok_iff, tuples, Json.items]
  induction items generalizing ts with
  | nil => simp
  | cons item items ih =>
    obtain ⟨⟨head, rest, rfl, hhead⟩, hitems⟩ := List.forall_mem_cons.1 h
    simp only [Json.array?, List.filterMap_cons, List.forall₂_cons_left_iff, ih hitems,
      test_eq_ok_iff hhead]

theorem failure?_tests (m : Manifest) :
    failure? (tests m.shape (.array items)) = (items.flatMap partsOf).findSome? m.fault? := by
  rw [tests, failure?_mapM, tuples, Json.items]
  induction items with
  | nil => rfl
  | cons item items ih =>
    obtain ⟨⟨head, rest, rfl, hhead⟩, hitems⟩ := List.forall_mem_cons.1 h
    rw [List.flatMap_cons, List.findSome?_append, ← ih hitems, ← failure?_test m hhead]
    exact findSome?_cons_eq_or ..

end

/-! ### Manifests -/

variable (m : Manifest)

theorem fault?_outline_eq_none_iff : m.fault? .outline = none ↔
    m.outline.target.callable = true ∧ ∀ kind, ∃ items, m.outline.lists.get kind = .array items ∧
      ∀ tuple ∈ items, tuple.Leads Json.callable := by
  rw [fault?, Option.map_eq_none_iff, Outline.fault?_eq_none_iff]

theorem failure?_validate :
    failure? ((m.outline.validate Json.callable).mapError Error.structural) =
      m.fault? .outline := by
  rw [failure?_mapError, Outline.validate, fault?]
  cases m.outline.fault? Json.callable <;> rfl

theorem failure?_body (h : m.outline.target.callable = true) :
    failure? ((Program.parse (m.outline.target.source?.getD "")).mapError Error.parse) =
      m.fault? .body := by
  obtain ⟨source, hsource⟩ := Option.isSome_iff_exists.1 h
  rw [failure?_mapError, fault?, hsource, Option.getD_some, Option.bind_some]

theorem findSome?_parts : m.parts.findSome? m.fault? =
    (m.fault? .outline).or ((m.fault? .parameters).or ((m.fault? .body).or
      (Outline.listOrder.findSome? fun kind =>
        ((m.outline.lists.get kind).items.flatMap partsOf).findSome? m.fault?))) := by
  rw [parts, List.findSome?_append, findSome?_flatMap]
  simp only [findSome?_cons_eq_or, List.findSome?_nil, Option.or_none, Option.or_assoc]

/-- The compiler fails with the fault of the first part that has one. -/
theorem failure?_compile : failure? m.compile = m.parts.findSome? m.fault? := by
  refine (failure?_bind fun _ => rfl).trans ?_
  change (failure? ((m.outline.validate Json.callable).mapError Error.structural)).or _ = _
  rw [failure?_validate, findSome?_parts]
  -- only for a valid outline are the steps of the compiler those of the parts: for another one
  -- it would fall back on empty texts and pass over items
  cases hvalid : m.fault? .outline with
  | some e => rfl
  | none =>
    obtain ⟨htarget, hlists⟩ := m.fault?_outline_eq_none_iff.1 hvalid
    have hparameters : failure? ((parameters m.outline.target).mapError Error.manifest) =
        m.fault? .parameters := by
      rw [failure?_mapError, failure?_parameters, fault?]
    have htests : ∀ kind, failure? (tests m.shape (m.outline.lists.get kind)) =
        ((m.outline.lists.get kind).items.flatMap partsOf).findSome? m.fault? := by
      intro kind
      obtain ⟨items, hitems, hleads⟩ := hlists kind
      rw [hitems]
      exact failure?_tests hleads m
    rw [Option.none_or, Option.none_or, ← hparameters, ← failure?_body m htarget]
    refine failure?_bind fun names => failure?_bind fun body => ?_
    simp only [Outline.listOrder, findSome?_cons_eq_or, ← htests]
    refine failure?_bind fun _ => failure?_bind fun _ => ?_
    exact (failure?_bind_pure _ _).trans (Option.or_none ..).symm

/-! ### Well-formed manifests -/

theorem forall_mem_parts {p : Part → Prop} : (∀ part ∈ m.parts, p part) ↔
    p .outline ∧ p .parameters ∧ p .body ∧
      ∀ kind, ∀ tuple ∈ (m.outline.lists.get kind).items,
        p (.predicate tuple) ∧ p (.arguments tuple) := by
  have horder : ∀ kind, kind ∈ Outline.listOrder := by
    intro kind
    cases kind <;> decide
  simp only [parts, partsOf, List.cons_append, List.nil_append, List.forall_mem_cons,
    List.forall_mem_flatMap, horder, forall_true_left, List.not_mem_nil]
  simp

theorem fault?_parameters_eq_none_iff : m.fault? .parameters = none ↔
    ∃ names, Parameters (m.outline.target.field? "params") names := by
  rw [fault?, Option.map_eq_none_iff, ← failure?_parameters, failure?_eq_none_iff]
  exact exists_congr fun names => parameters_eq_ok_iff

theorem fault?_body_eq_none_iff (h : m.outline.target.callable = true) :
    m.fault? .body = none ↔
      ∃ source p, m.outline.target.source? = some source ∧ Program.parse source = .ok p := by
  obtain ⟨source, hsource⟩ := Option.isSome_iff_exists.1 h
  rw [fault?, hsource, Option.bind_some, Option.map_eq_none_iff, failure?_eq_none_iff]
  simp

theorem fault?_predicate_eq_none_iff {tuple : Json} (h : tuple.Leads Json.callable) :
    m.fault? (.predicate tuple) = none ↔ ∃ source e,
      tuple.items.head?.bind Json.source? = some source ∧ Expr.parse source = .ok e := by
  obtain ⟨head, rest, rfl, hhead⟩ := h
  obtain ⟨source, -, hget⟩ := Json.exists_source hhead rest
  rw [fault?, Json.items, hget, Option.bind_some, Option.map_eq_none_iff, failure?_eq_none_iff]
  simp

theorem fault?_arguments_eq_none_iff (tuple : Json) : m.fault? (.arguments tuple) = none ↔
    (m.shape = .withArguments → ∃ bag, Arguments tuple.items[1]? bag) := by
  rw [fault?]
  cases m.shape with
  | plain => simp
  | withArguments =>
    rw [Option.map_eq_none_iff, ← failure?_arguments, failure?_eq_none_iff]
    simp only [arguments_eq_ok_iff, forall_true_left]

theorem validate_outline_iff :
    m.outline.validate Json.callable = .ok () ↔ m.fault? .outline = none := by
  rw [Outline.validate_eq_ok_iff, fault?, Option.map_eq_none_iff]

variable {m}

theorem leads_of_mem (h : m.fault? .outline = none) {kind : Kind} {tuple : Json}
    (htuple : tuple ∈ (m.outline.lists.get kind).items) : tuple.Leads Json.callable := by
  obtain ⟨items, hitems, hleads⟩ := (m.fault?_outline_eq_none_iff.1 h).2 kind
  rw [hitems] at htuple
  exact hleads tuple htuple

/-- A manifest is well formed if no part of it has a fault. -/
theorem wellFormed_iff : m.WellFormed ↔ ∀ part ∈ m.parts, m.fault? part = none := by
  rw [forall_mem_parts]
  constructor
  · intro h
    have hvalid := m.validate_outline_iff.1 h.outline
    have htarget := (m.fault?_outline_eq_none_iff.1 hvalid).1
    refine ⟨hvalid, m.fault?_parameters_eq_none_iff.2 h.parameters,
      (m.fault?_body_eq_none_iff htarget).2 h.body, fun kind tuple htuple => ⟨?_, ?_⟩⟩
    · rw [m.fault?_predicate_eq_none_iff (leads_of_mem hvalid htuple)]
      exact h.predicates kind tuple htuple
    · rw [fault?_arguments_eq_none_iff]
      exact fun hshape => h.arguments hshape kind tuple htuple
  · rintro ⟨hvalid, hparameters, hbody, htuples⟩
    have htarget := (m.fault?_outline_eq_none_iff.1 hvalid).1
    constructor
    case outline => exact m.validate_outline_iff.2 hvalid
    case parameters => exact m.fault?_parameters_eq_none_iff.1 hparameters
    case body => exact (m.fault?_body_eq_none_iff htarget).1 hbody
    case predicates =>
      intro kind tuple htuple
      exact (m.fault?_predicate_eq_none_iff (leads_of_mem hvalid htuple)).1
        (htuples kind tuple htuple).1
    case arguments =>
      intro hshape kind tuple htuple
      exact (m.fault?_arguments_eq_none_iff tuple).1 (htuples kind tuple htuple).2 hshape

theorem exists_compile_iff : (∃ c, m.compile = .ok c) ↔ m.WellFormed := by
  rw [wellFormed_iff, ← List.findSome?_eq_none_iff, ← failure?_compile, failure?_eq_none_iff]

/-! ### What a manifest becomes -/

/-- A compiled manifest has the target and the conditions that the manifest says. -/
structure Becomes (m : Manifest) (c : Compiled) : Prop where
  parameters : Parameters (m.outline.target.field? "params") c.parameters
  body : ∃ source, m.outline.target.source? = some source ∧ Program.parse source = .ok c.body
  /-- Each list has one test for each tuple, the one that the tuple describes. -/
  tests : ∀ kind, ∃ tuples, m.outline.lists.get kind = .array tuples ∧
    List.Forall₂ (Describes m.shape) tuples (c.tests.get kind)

theorem becomes_of_compile {c : Compiled} (h : m.compile = .ok c) : m.Becomes c := by
  simp only [compile, bind_eq_ok_iff, mapError_eq_ok_iff] at h
  obtain ⟨⟨⟩, hvalid, names, hnames, body, hbody, preconditions, hpreconditions,
    postconditions, hpostconditions, invariants, hinvariants, hc⟩ := h
  obtain ⟨htarget, hlists⟩ := Outline.fault?_eq_none_iff.1 (Outline.validate_eq_ok_iff.1 hvalid)
  cases hc
  constructor
  case parameters => exact parameters_eq_ok_iff.1 hnames
  case body =>
    obtain ⟨source, hsource⟩ := Option.isSome_iff_exists.1 htarget
    rw [hsource] at hbody
    exact ⟨source, hsource, hbody⟩
  case tests =>
    intro kind
    obtain ⟨items, hitems, hleads⟩ := hlists kind
    refine ⟨items, hitems, (tests_eq_ok_iff hleads).1 ?_⟩
    rw [← hitems]
    cases kind with
    | precondition => exact hpreconditions
    | postcondition => exact hpostconditions
    | invariant => exact hinvariants

theorem Describes.leads {shape : Shape} {tuple : Json} {t : Test} (h : Describes shape tuple t) :
    tuple.Leads Json.callable := by
  cases h with
  | plain hsource | withArguments hsource =>
    exact ⟨_, _, rfl, Option.isSome_iff_exists.2 ⟨_, hsource⟩⟩

theorem leads_of_describes {shape : Shape} {tuples : List Json} {ts : List Test}
    (h : List.Forall₂ (Describes shape) tuples ts) : ∀ tuple ∈ tuples, tuple.Leads Json.callable :=
  ((List.forall₂_and_left _ _).1 (h.imp fun _ _ hd => ⟨hd.leads, hd⟩)).1

namespace Becomes

variable {c : Compiled}

theorem validate_outline (h : m.Becomes c) : m.outline.validate Json.callable = .ok () := by
  rw [Outline.validate_eq_ok_iff, Outline.fault?_eq_none_iff]
  constructor
  · obtain ⟨source, hsource, -⟩ := h.body
    exact Option.isSome_iff_exists.2 ⟨source, hsource⟩
  · intro kind
    obtain ⟨tuples, hlist, htests⟩ := h.tests kind
    exact ⟨tuples, hlist, leads_of_describes htests⟩

theorem tests_eq (h : m.Becomes c) (kind : Kind) :
    Manifest.tests m.shape (m.outline.lists.get kind) = .ok (c.tests.get kind) := by
  obtain ⟨tuples, hlist, htests⟩ := h.tests kind
  rw [hlist]
  exact (tests_eq_ok_iff (leads_of_describes htests)).2 htests

end Becomes

/-- The way in which the calls of a manifest are made. -/
def mode (m : Manifest) : Mode :=
  if m.deferred then .deferred (Value.listOfJson m.deferredArguments) m.delay else .direct

/-- A manifest compiles to what it becomes; all else is taken over from it. -/
theorem compile_eq_ok_iff {c : Compiled} : m.compile = .ok c ↔
    m.Becomes c ∧ c.name = m.name ∧ c.fingerprint = m.fingerprint ∧ c.policy = m.policy ∧
      c.initial = State.ofJson m.state ∧ c.mode = m.mode := by
  constructor
  · intro h
    refine ⟨becomes_of_compile h, ?_⟩
    simp only [compile, bind_eq_ok_iff] at h
    obtain ⟨_, _, _, _, _, _, _, _, _, _, _, _, hc⟩ := h
    cases hc
    exact ⟨rfl, rfl, rfl, rfl, rfl⟩
  · rintro ⟨h, hname, hfingerprint, hpolicy, hinitial, hmode⟩
    obtain ⟨source, hsource, hbody⟩ := h.body
    simp only [compile, bind_eq_ok_iff, mapError_eq_ok_iff]
    refine ⟨(), h.validate_outline, c.parameters, parameters_eq_ok_iff.2 h.parameters, c.body, ?_,
      c.tests.preconditions, h.tests_eq .precondition, c.tests.postconditions,
      h.tests_eq .postcondition, c.tests.invariants, h.tests_eq .invariant, ?_⟩
    · rw [hsource]
      exact hbody
    · rw [← hname, ← hfingerprint, ← hpolicy, ← hinitial]
      change Except.ok { c with mode := m.mode } = _
      rw [← hmode]

/-- A counter that goes on in steps as long as it is small. -/
def counter : Manifest where
  name := "counter"
  state := .object [("n", .integer 0)]
  outline :=
    { target := .object [("body", .string "n=n+by"), ("params", .array [.string "by"])]
      lists :=
        { preconditions := .array [.array [.string "n<2", .string "full"]]
          postconditions := .array []
          invariants := .array [.array [.string "0<=n"]] } }
  shape := .plain
  policy := .raise
  deferred := false
  deferredArguments := .null
  delay := 0

/-- What the counter compiles to. -/
def compiledCounter : Compiled where
  name := "counter"
  fingerprint := counter.fingerprint
  policy := .raise
  initial := ⟨[("n", .integer 0)]⟩
  parameters := ["by"]
  body := [.assign "n" (.binary (.arithmetic .add) (.name "n") (.name "by"))]
  tests :=
    { preconditions :=
        [⟨.binary (.relation .less) (.name "n") (.literal (.integer 2)), none, some "full"⟩]
      postconditions := []
      invariants :=
        [⟨.binary (.relation .lessEqual) (.literal (.integer 0)) (.name "n"), none, none⟩] }
  mode := .direct

theorem compile_counter : counter.compile = .ok compiledCounter := by
  have hsmall : Expr.parse "n<2" =
      .ok (.binary (.relation .less) (.name "n") (.literal (.integer 2))) := by
    with_unfolding_all rfl
  have hpositive : Expr.parse "0<=n" =
      .ok (.binary (.relation .lessEqual) (.literal (.integer 0)) (.name "n")) := by
    with_unfolding_all rfl
  have htokens : Expr.tokenize "n=n+by" = .ok [⟨.word "n", 0⟩, ⟨.assign, 1⟩, ⟨.word "n", 2⟩,
      ⟨.plus, 3⟩, ⟨.word "by", 4⟩, ⟨.eof, 6⟩] := by
    with_unfolding_all rfl
  have hstep : Program.parse "n=n+by" =
      .ok [.assign "n" (.binary (.arithmetic .add) (.name "n") (.name "by"))] := by
    rw [Program.parse, htokens]
    with_unfolding_all rfl
  refine compile_eq_ok_iff.2 ⟨⟨.names ["by"], ⟨"n=n+by", rfl, hstep⟩, fun kind => ?_⟩,
    rfl, rfl, rfl, rfl, rfl⟩
  cases kind with
  | precondition => exact ⟨_, rfl, .cons (.plain rfl hsmall) .nil⟩
  | invariant => exact ⟨_, rfl, .cons (.plain rfl hpositive) .nil⟩
  | postcondition => exact ⟨_, rfl, .nil⟩

/-- The index of a violation is the place of the tuple that describes what is violated. -/
theorem Becomes.tuple_of_violation? {c : Compiled} (h : m.Becomes c) {kinds : List Kind}
    {s : State} {v : Violation} (hv : c.violation? kinds s = some v) :
    ∃ tuples tuple t, m.outline.lists.get v.kind = .array tuples ∧
      tuples[v.index]? = some tuple ∧ Describes m.shape tuple t ∧
        v.message = t.messageFor v.kind := by
  obtain ⟨kind, -, hkind⟩ := List.exists_of_findSome?_eq_some hv
  obtain ⟨rfl, t, ht, -, hmessage⟩ := Test.exists_of_violation? hkind
  obtain ⟨tuples, hlist, htests⟩ := h.tests v.kind
  obtain ⟨tuple, htuple, hdescribes⟩ := exists_of_forall₂ htests ht
  exact ⟨tuples, tuple, t, hlist, htuple, hdescribes, hmessage⟩

/-- What the compiler makes of a manifest. -/
structure Judged (m : Manifest) : Prop where
  accepts : (∃ c, m.compile = .ok c) ↔ m.WellFormed
  validates : m.validate = .ok () ↔ m.WellFormed
  becomes : ∀ c, m.compile = .ok c → m.Becomes c
  /-- A violation in a report is about the tuple at its index, under either policy. -/
  reports : ∀ c, m.compile = .ok c → ∀ policy calls times w r after,
    (c.withPolicy policy).run calls times w = (.ok r, after) →
      ∀ record ∈ r.calls, ∀ v, record.outcome = .violated v →
        ∃ tuples tuple t, m.outline.lists.get v.kind = .array tuples ∧
          tuples[v.index]? = some tuple ∧ Describes m.shape tuple t ∧
            v.message = t.messageFor v.kind
  /-- The error is that of the first part with a fault. -/
  refuses : ∀ e, m.compile = .error e ↔
    ∃ earlier part later, m.parts = earlier ++ part :: later ∧ m.fault? part = some e ∧
      ∀ p ∈ earlier, m.fault? p = none
  invalidates : ∀ e, m.validate = .error e ↔ m.compile = .error e

/-- A manifest compiles exactly if it is well formed, and then to what it says; otherwise the
error is that of the first part with a fault. -/
theorem compile_judged (m : Manifest) : m.Judged where
  accepts := exists_compile_iff
  validates := by
    rw [← exists_compile_iff, validate]
    cases m.compile <;> simp [Except.map]
  becomes _ h := becomes_of_compile h
  reports c hc policy calls times w r after hrun record hrecord v hviolated := by
    have hbecomes : m.Becomes (c.withPolicy policy) :=
      have h := becomes_of_compile hc
      ⟨h.parameters, h.body, h.tests⟩
    rw [Compiled.run_eq] at hrun
    cases hrun
    obtain ⟨s, hs, rfl⟩ := List.mem_map.1 hrecord
    have hrefers := (c.withPolicy policy).refers_of_mem _ hs
    obtain ⟨kinds, s', -, hv⟩ := (Compiled.reference_course _ _ _).exists_of_violated
      (hrefers.outcome.symm.trans hviolated)
    exact hbecomes.tuple_of_violation? hv
  refuses e := by
    rw [← failure?_eq_some_iff, failure?_compile, List.findSome?_eq_some_iff]
  invalidates e := by
    rw [validate]
    cases m.compile <;> simp [Except.map]

end Manifest

end Covenant
