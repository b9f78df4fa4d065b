import Covenant.Proofs.Compilation
import Covenant.Proofs.Ledger
import Covenant.Proofs.Names

/-! Wordings of a manifest. Something callable is written as a text or as an object with the text
as its body. What a tuple leaves out can also be written as null or empty, items beyond those that
its shape reads are not looked at, and conditions without arguments can be written in either
shape. Manifests that differ in their wording only have the same runs. A condition with arguments
holds where its predicate alone holds on the state overridden by them. -/

namespace Covenant

/-! ### Computations that agree -/

/-- Both computations fail with the same error, or both have results, which are related. -/
inductive Agreed {ε α β : Type} (r : α → β → Prop) : Except ε α → Except ε β → Prop
  | ok {a : α} {b : β} (h : r a b) : Agreed r (.ok a) (.ok b)
  | error (e : ε) : Agreed r (.error e) (.error e)

namespace Agreed

variable {ε α β γ δ : Type} {r : α → β → Prop} {s : γ → δ → Prop}

theorem of_eq {x y : Except ε α} (h : y = x) : Agreed (fun a b => b = a) x y := by
  subst h
  cases y with
  | ok a => exact .ok rfl
  | error e => exact .error e

theorem bind {x : Except ε α} {y : Except ε β} {f : α → Except ε γ} {g : β → Except ε δ}
    (h : Agreed r x y) (hf : ∀ a b, r a b → Agreed s (f a) (g b)) :
    Agreed s (x >>= f) (y >>= g) := by
  cases h with
  | ok h => exact hf _ _ h
  | error e => exact .error e

theorem mapM {f : α → Except ε γ} {g : β → Except ε δ} {xs : List α} {ys : List β}
    (h : List.Forall₂ (fun x y => Agreed s (f x) (g y)) xs ys) :
    Agreed (List.Forall₂ s) (xs.mapM f) (ys.mapM g) := by
  induction h with
  | nil => exact .ok .nil
  | cons hhead _ ih =>
    rw [List.mapM_cons, List.mapM_cons]
    exact hhead.bind fun _ _ hfirst => ih.bind fun _ _ hrest => .ok (.cons hfirst hrest)

theorem eq_error_iff {x : Except ε α} {y : Except ε β} (h : Agreed r x y) (e : ε) :
    y = .error e ↔ x = .error e := by
  cases h with
  | ok => exact ⟨nofun, nofun⟩
  | error => rw [Except.error.injEq, Except.error.injEq]

theorem exists_of_eq_ok {x : Except ε α} {y : Except ε β} {a : α} (h : Agreed r x y)
    (hx : x = .ok a) : ∃ b, y = .ok b ∧ r a b := by
  cases h with
  | ok h =>
    cases hx
    exact ⟨_, rfl, h⟩
  | error => cases hx

end Agreed

/-! ### Wordings -/

namespace Manifest

/-- The wordings of something callable: its text, and the objects with the text as their body. -/
inductive Calls (source : String) : Json → Prop
  | text : Calls source (.string source)
  | object {fields : List (String × Json)} (h : Fields.get? "body" fields = some (.string source)) :
    Calls source (.object fields)

inductive NoParameters : Option Json → Prop
  | absent : NoParameters none
  | null : NoParameters (some .null)
  | empty : NoParameters (some (.array []))

inductive NoArguments : Option Json → Prop
  | absent : NoArguments none
  | null : NoArguments (some .null)
  | empty : NoArguments (some (.object []))

/-- Nothing, the empty text and whatever is not a text are no message. -/
def NoMessage (item : Option Json) : Prop := ∀ text, item = some (.string text) → text = ""

/-- A callable without parameters. -/
structure Targets (source : String) (target : Json) : Prop where
  calls : Calls source target
  parameters : NoParameters (target.field? "params")

/-- The same, or two of the given wordings. -/
def Interchanged {α : Type} (wordings : α → Prop) (a b : α) : Prop :=
  b = a ∨ wordings a ∧ wordings b

/-- What stands in the place of the arguments, in a tuple with the given items after its
predicate. -/
def argumentsItem : Shape → List Json → Option Json
  | .plain, _ => none
  | .withArguments, rest => rest[0]?

def messageItem : Shape → List Json → Option Json
  | .plain, rest => rest[0]?
  | .withArguments, rest => rest[1]?

/-- Two tuples, each in a shape of its own. What is no tuple with a first item has one wording. -/
inductive TupleReworded (shape shape' : Shape) : Json → Json → Prop
  | array {source : String} {head head' : Json} {rest rest' : List Json}
    (hpredicate : Interchanged (Calls source) head head')
    (harguments : Interchanged NoArguments (argumentsItem shape rest) (argumentsItem shape' rest'))
    (hmessage : Interchanged NoMessage (messageItem shape rest) (messageItem shape' rest')) :
    TupleReworded shape shape' (.array (head :: rest)) (.array (head' :: rest'))
  | other {tuple : Json} (h : ∀ head rest, tuple ≠ .array (head :: rest)) :
    TupleReworded shape shape' tuple tuple

inductive ListReworded (shape shape' : Shape) : Json → Json → Prop
  | array {tuples tuples' : List Json}
    (h : List.Forall₂ (TupleReworded shape shape') tuples tuples') :
    ListReworded shape shape' (.array tuples) (.array tuples')
  | other {list : Json} (h : list.isArray = false) : ListReworded shape shape' list list

/-- Two manifests that differ in their wording only; it may be that their shapes differ. -/
structure Reworded (m m' : Manifest) : Prop where
  target : ∃ source, Interchanged (Targets source) m.outline.target m'.outline.target
  lists : ∀ kind, ListReworded m.shape m'.shape (m.outline.lists.get kind)
    (m'.outline.lists.get kind)
  name : m'.name = m.name
  state : m'.state = m.state
  policy : m'.policy = m.policy
  deferred : m'.deferred = m.deferred
  deferredArguments : m'.deferredArguments = m.deferredArguments
  delay : m'.delay = m.delay

end Manifest

/-! ### Contracts that match -/

/-- Two tests that hold on the same states and are reported with the same messages. -/
structure Test.Matches (t t' : Test) : Prop where
  expr : t'.expr = t.expr
  arguments : t'.arguments.getD [] = t.arguments.getD []
  message : t'.message = t.message

/-- Two contracts that differ only in how their tests come by their arguments. -/
structure Compiled.Matches (c c' : Compiled) : Prop where
  name : c'.name = c.name
  policy : c'.policy = c.policy
  initial : c'.initial = c.initial
  parameters : c'.parameters = c.parameters
  body : c'.body = c.body
  mode : c'.mode = c.mode
  tests : ∀ kind, List.Forall₂ Test.Matches (c.tests.get kind) (c'.tests.get kind)

namespace Manifest

section
variable {source : String} {j j' : Json}

theorem Calls.source? (h : Calls source j) : j.source? = some source := by
  cases h with
  | text => rfl
  | object h => rw [Json.source?, h]; rfl

theorem Interchanged.source? (h : Interchanged (Calls source) j j') : j'.source? = j.source? := by
  rcases h with rfl | ⟨h, h'⟩
  · rfl
  · rw [h.source?, h'.source?]

theorem NoParameters.parameters {item : Option Json} (h : NoParameters item) :
    Parameters item [] := by
  cases h with
  | absent => exact .absent
  | null => exact .null
  | empty => exact .names []

theorem Interchanged.target (h : Interchanged (Targets source) j j') :
    j'.source? = j.source? ∧ parameters j' = parameters j := by
  rcases h with rfl | ⟨h, h'⟩
  · exact ⟨rfl, rfl⟩
  · rw [h.calls.source?, h'.calls.source?, parameters_eq_ok_iff.2 h.parameters.parameters,
      parameters_eq_ok_iff.2 h'.parameters.parameters]
    exact ⟨rfl, rfl⟩

end

section
variable {item item' : Option Json}

theorem Interchanged.arguments_eq (h : Interchanged NoArguments item item') :
    arguments item' = arguments item := by
  have hnone : ∀ {item}, NoArguments item → arguments item = .ok [] := by
    intro item h
    cases h <;> rfl
  rcases h with rfl | ⟨h, h'⟩
  · rfl
  · rw [hnone h, hnone h']

theorem NoMessage.message?_eq (h : NoMessage item) : message? item = none := by
  rcases item with _ | item
  · rfl
  · cases item with
    | string text =>
      obtain rfl := h text rfl
      rfl
    | _ => rfl

theorem Interchanged.message?_eq (h : Interchanged NoMessage item item') :
    message? item' = message? item := by
  rcases h with rfl | ⟨h, h'⟩
  · rfl
  · rw [h.message?_eq, h'.message?_eq]

end

/-! ### Tuples and their tests -/

/-- What a test has as its arguments. -/
def heldArguments : Shape → Bag → Option Bag
  | .plain, _ => none
  | .withArguments, bag => some bag

/-- The test that a shape makes of what its tuple has in the places that it reads. -/
theorem test_eq (shape : Shape) (head : Json) (rest : List Json) :
    test shape (head :: rest) = do
      let e ← (Expr.parse (head.source?.getD "")).mapError .parse
      let bag ← (arguments (argumentsItem shape rest)).mapError .manifest
      return ⟨e, heldArguments shape bag, message? (messageItem shape rest)⟩ := by
  cases shape <;> rfl

theorem getD_heldArguments {shape : Shape} {rest : List Json} {bag : Bag}
    (h : arguments (argumentsItem shape rest) = .ok bag) :
    (heldArguments shape bag).getD [] = bag := by
  cases shape with
  | plain => exact Except.ok.inj h
  | withArguments => rfl

/-- The empty text is no predicate, in either shape. -/
theorem exists_test_nil : ∃ e, ∀ shape, test shape [] = .error e := by
  obtain ⟨e, he⟩ : ∃ e, Expr.parse "" = .error e := ⟨_, by with_unfolding_all rfl⟩
  refine ⟨.parse e, fun shape => ?_⟩
  have hsource : ((([] : List Json).head?.bind Json.source?).getD "") = "" := rfl
  rw [test, hsource, he]
  rfl

section
variable {shape shape' : Shape}

/-- Tuples have tests that match, or none of them has one. -/
theorem TupleReworded.tests {tuple tuple' : Json} (h : TupleReworded shape shape' tuple tuple') :
    (tuple.array? = none ∧ tuple'.array? = none) ∨ ∃ items items', tuple.array? = some items ∧
      tuple'.array? = some items' ∧
      Agreed Test.Matches (test shape items) (test shape' items') := by
  cases h with
  | @array source head head' rest rest' hpredicate harguments hmessage =>
    refine .inr ⟨_, _, rfl, rfl, ?_⟩
    rw [test_eq, test_eq, hpredicate.source?, hmessage.message?_eq]
    refine (Agreed.of_eq rfl).bind ?_
    rintro e _ rfl
    have heq := harguments.arguments_eq
    rw [heq]
    cases hbag : arguments (argumentsItem shape rest) with
    | error e => exact .error _
    | ok bag =>
      refine .ok ⟨rfl, ?_, rfl⟩
      rw [getD_heldArguments hbag, getD_heldArguments (heq.trans hbag)]
  | other h =>
    cases tuple with
    | array items =>
      cases items with
      | nil =>
        -- the validator refuses an empty tuple, but the compiler is not told so here
        obtain ⟨e, he⟩ := exists_test_nil
        refine .inr ⟨[], [], rfl, rfl, ?_⟩
        rw [he, he]
        exact .error e
      | cons head rest => exact absurd rfl (h head rest)
    | _ => exact .inl ⟨rfl, rfl⟩

theorem ListReworded.tests {list list' : Json} (h : ListReworded shape shape' list list') :
    Agreed (List.Forall₂ Test.Matches) (Manifest.tests shape list)
      (Manifest.tests shape' list') := by
  cases h with
  | other h =>
    cases list with
    | array => cases h
    | _ => exact .ok .nil
  | array h =>
    apply Agreed.mapM
    rw [tuples, tuples, Json.items, Json.items]
    induction h with
    | nil => exact .nil
    | cons hfirst _ ih =>
      -- what is no tuple is passed over in both lists
      rcases hfirst.tests with ⟨hnone, hnone'⟩ | ⟨items, items', hitems, hitems', htests⟩
      · rwa [List.filterMap_cons_none hnone, List.filterMap_cons_none hnone']
      · rw [List.filterMap_cons_some hitems, List.filterMap_cons_some hitems']
        exact .cons htests ih

/-! ### The shape of a contract -/

theorem TupleReworded.isArray {tuple tuple' : Json} (h : TupleReworded shape shape' tuple tuple') :
    tuple'.isArray = tuple.isArray := by
  cases h <;> rfl

theorem TupleReworded.leads {tuple tuple' : Json} (h : TupleReworded shape shape' tuple tuple') :
    tuple'.items.head?.any Json.callable = tuple.items.head?.any Json.callable := by
  cases h with
  | array hpredicate => exact congrArg Option.isSome hpredicate.source?
  | other => rfl

theorem ListReworded.isArray {list list' : Json} (h : ListReworded shape shape' list list') :
    list'.isArray = list.isArray := by
  cases h <;> rfl

/-- What is the same for reworded tuples is true of all in one list or in the other. -/
theorem ListReworded.all {list list' : Json} (h : ListReworded shape shape' list list')
    {p : Json → Bool}
    (hp : ∀ tuple tuple', TupleReworded shape shape' tuple tuple' → p tuple' = p tuple) :
    list'.items.all p = list.items.all p := by
  cases h with
  | other => rfl
  | array h =>
    rw [Json.items, Json.items]
    induction h with
    | nil => rfl
    | cons hfirst _ ih => rw [List.all_cons, List.all_cons, hp _ _ hfirst, ih]

end

variable {m m' : Manifest}

theorem Reworded.validate_outline (h : m.Reworded m') :
    m'.outline.validate Json.callable = m.outline.validate Json.callable := by
  obtain ⟨source, htarget⟩ := h.target
  have hcallable : m'.outline.target.callable = m.outline.target.callable :=
    congrArg Option.isSome htarget.target.1
  have harray := fun kind => (h.lists kind).isArray
  have harrays := fun kind => (h.lists kind).all fun _ _ ht => ht.isArray
  have hlead := fun kind => (h.lists kind).all fun _ _ ht => ht.leads
  simp only [Outline.validate, Outline.fault?, hcallable, harray, harrays, hlead]

/-! ### Compiling reworded manifests -/

/-- Either both manifests compile, to contracts that match, or both fail with the same error. -/
theorem Reworded.compile (h : m.Reworded m') :
    Agreed (fun c c' => c.Matches c') m.compile m'.compile := by
  obtain ⟨source, htarget⟩ := h.target
  obtain ⟨hsource, hparameters⟩ := htarget.target
  have htests := fun kind => (h.lists kind).tests
  rw [Manifest.compile, Manifest.compile, hparameters, hsource]
  refine (Agreed.of_eq (congrArg (Except.mapError Error.structural) h.validate_outline)).bind
    fun _ _ _ => ?_
  refine (Agreed.of_eq rfl).bind ?_
  rintro parameters _ rfl
  refine (Agreed.of_eq rfl).bind ?_
  rintro body _ rfl
  refine (htests .precondition).bind fun _ _ hpreconditions => ?_
  refine (htests .postcondition).bind fun _ _ hpostconditions => ?_
  refine (htests .invariant).bind fun _ _ hinvariants => .ok ?_
  constructor
  case name => exact h.name
  case policy => exact h.policy
  case initial => exact congrArg State.ofJson h.state
  case parameters => rfl
  case body => rfl
  case mode => rw [h.deferred, h.deferredArguments, h.delay]
  case tests =>
    intro kind
    cases kind with
    | precondition => exact hpreconditions
    | postcondition => exact hpostconditions
    | invariant => exact hinvariants

end Manifest

/-! ### Runs of contracts that match -/

namespace Test

variable {t t' : Test} {ts ts' : List Test}

theorem Matches.holds_eq (h : t.Matches t') (s : State) : t'.holds s = t.holds s := by
  rw [holds, holds, h.expr, h.arguments]

theorem Matches.messageFor_eq (h : t.Matches t') (kind : Kind) :
    t'.messageFor kind = t.messageFor kind := by
  rw [messageFor, messageFor, h.message]

theorem firstFailing_eq_of_matches (h : List.Forall₂ Matches ts ts') (s : State) :
    firstFailing ts' s = firstFailing ts s := by
  induction h with
  | nil => rfl
  | cons hfirst _ ih => rw [firstFailing_cons, firstFailing_cons, hfirst.holds_eq, ih]

theorem violation?_eq_of_matches (h : List.Forall₂ Matches ts ts') (kind : Kind) (s : State) :
    violation? kind ts' s = violation? kind ts s := by
  rw [violation?, violation?, firstFailing_eq_of_matches h]
  -- the place is one of both lists, wherever it comes from
  generalize firstFailing ts s = place
  have hmessage : ts'[place]?.map (messageFor · kind) = ts[place]?.map (messageFor · kind) := by
    induction h generalizing place with
    | nil => rfl
    | cons hfirst _ ih =>
      cases place with
      | zero => exact congrArg some (hfirst.messageFor_eq kind)
      | succ place => exact ih place
  have h := congrArg (Option.map fun message => (⟨kind, place, message⟩ : Violation)) hmessage
  rwa [Option.map_map, Option.map_map] at h

end Test

namespace Compiled

variable {c c' : Compiled}

theorem Matches.violation?_eq (h : c.Matches c') (kinds : List Kind) (s : State) :
    c'.violation? kinds s = c.violation? kinds s := by
  have htests := fun kind => Test.violation?_eq_of_matches (h.tests kind) kind s
  simp only [violation?, htests]

theorem Matches.posting_eq (h : c.Matches c') (index : Nat) (arguments : List Value) (s : State) :
    c'.posting index arguments s = c.posting index arguments s := by
  simp only [posting, reference, h.violation?_eq, h.body, h.parameters]
  cases c.violation? [.precondition, .invariant] s with
  | some v => rfl
  | none =>
    rcases c.body.run (bind c.parameters arguments) s with ⟨e | value, s'⟩
    · rfl
    · cases hafter : c.violation? [.invariant, .postcondition] s' <;> simp only [hafter]

theorem Matches.withPolicy (h : c.Matches c') (policy : Policy) :
    (c.withPolicy policy).Matches (c'.withPolicy policy) :=
  ⟨h.name, rfl, h.initial, h.parameters, h.body, h.mode, h.tests⟩

theorem Matches.start_eq (h : c.Matches c') : c'.start = c.start := by
  rw [start, start, h.initial, h.name, h.mode]

/-- Contracts that match have the same runs. -/
theorem Matches.run_eq (h : c.Matches c') (calls : List (List Value)) (times : Nat)
    (w : World State) : ∃ r after after', c.run calls times w = (.ok r, after) ∧
      c'.run calls times w = (.ok { r with fingerprint := c'.fingerprint }, after') ∧
      after'.state = after.state := by
  have hrequested : c'.requested calls times = c.requested calls times := by
    rw [requested, requested, h.mode]
  refine c.run_of_ledger c' h.name h.policy ?_
  rw [hrequested]
  exact c.ledger_congr c' (fun _ => True) h.policy
    (fun index arguments s _ => h.posting_eq index arguments s) fun _ _ => trivial

end Compiled

/-- What is true of the contracts of two manifests that differ in their wording only. -/
structure Compiled.Indistinct (c c' : Compiled) : Prop where
  start : c'.start = c.start
  mode : c'.mode = c.mode
  /-- Name, records, success, error and final state of the reports are the same. -/
  runs : ∀ policy calls times w, ∃ r after after',
    (c.withPolicy policy).run calls times w = (.ok r, after) ∧
      (c'.withPolicy policy).run calls times w =
        (.ok { r with fingerprint := c'.fingerprint }, after') ∧
      after'.state = after.state

namespace Manifest

/-- A test with arguments holds where its predicate alone holds on the state overridden by
them. -/
theorem holds_withArguments {source : String} {e : Expr} {bag : Bag} {head head' : Json}
    {rest : List Json} (rest' : List Json) (hparse : Expr.parse source = .ok e)
    (hhead : Calls source head) (hhead' : Calls source head') (hbag : Arguments rest[0]? bag) :
    ∃ t t', test .withArguments (head :: rest) = .ok t ∧ test .plain (head' :: rest') = .ok t' ∧
      ∀ w : World State, (t.toCondition.holds w).1 =
        (t'.toCondition.holds ⟨w.state.overriddenBy bag, w.journal⟩).1 := by
  refine ⟨⟨e, some bag, message? rest[1]?⟩, ⟨e, none, message? rest'[0]?⟩, ?_, ?_, fun w => ?_⟩
  · rw [test_eq, hhead.source?, Option.getD_some, hparse, argumentsItem,
      arguments_eq_ok_iff.2 hbag]
    rfl
  · rw [test_eq, hhead'.source?, Option.getD_some, hparse]
    rfl
  · have heval : e.eval bag w.state = e.eval [] (w.state.overriddenBy bag) :=
      Expr.eval_congr fun x _ => (Expr.lookup_overriddenBy bag w.state x).symm
    rw [(Test.holds_toCondition _ _).1, (Test.holds_toCondition _ _).1]
    simp only [Test.holds, Option.getD_some, Option.getD_none, heval]

/-- Manifests that differ in their wording only fail with the same errors, and compile to
contracts with the same runs. A condition with arguments holds where its predicate alone holds on
the state overridden by them. -/
theorem compile_reworded {m m' : Manifest} (h : m.Reworded m') :
    (∀ e, m'.compile = .error e ↔ m.compile = .error e) ∧
    (∀ c, m.compile = .ok c → ∃ c', m'.compile = .ok c' ∧ c.Indistinct c') ∧
    ∀ source e bag head head' rest rest', Expr.parse source = .ok e → Calls source head →
      Calls source head' → Arguments rest[0]? bag →
      ∃ t t', test .withArguments (head :: rest) = .ok t ∧
        test .plain (head' :: rest') = .ok t' ∧ ∀ w : World State, (t.toCondition.holds w).1 =
          (t'.toCondition.holds ⟨w.state.overriddenBy bag, w.journal⟩).1 := by
  refine ⟨h.compile.eq_error_iff, fun c hc => ?_, fun _ _ _ _ _ _ rest' hparse hhead hhead' hbag =>
    holds_withArguments rest' hparse hhead hhead' hbag⟩
  obtain ⟨c', hc', hmatches⟩ := h.compile.exists_of_eq_ok hc
  refine ⟨c', hc', hmatches.start_eq, hmatches.mode, fun policy calls times w => ?_⟩
  exact (hmatches.withPolicy policy).run_eq calls times w

/-- A counter that goes on by one. -/
def terseCounter : Manifest :=
  { counter with outline := { counter.outline with target := .string "n=n+1" } }

/-- The same in the other shape, with objects for its texts, and with all that can be left out. -/
def wordyCounter : Manifest where
  name := "counter"
  state := .object [("n", .integer 0)]
  outline :=
    { target := .object [("body", .string "n=n+1"), ("params", .null)]
      lists :=
        { preconditions := .array
            [.array [.object [("body", .string "n<2")], .object [], .string "full", .integer 7]]
          postconditions := .array []
          invariants := .array [.array [.string "0<=n", .null, .boolean true]] } }
  shape := .withArguments
  policy := .raise
  deferred := false
  deferredArguments := .null
  delay := 0

theorem terseCounter_reworded : terseCounter.Reworded wordyCounter := by
  constructor
  case target => exact ⟨"n=n+1", .inr ⟨⟨.text, .absent⟩, ⟨.object rfl, .null⟩⟩⟩
  case lists =>
    intro kind
    cases kind with
    | precondition =>
      refine .array (.cons (.array (.inr ⟨.text, .object rfl⟩) ?_ (.inl rfl)) .nil)
      exact .inr ⟨.absent, .empty⟩
    | invariant =>
      refine .array (.cons (.array (.inr ⟨.text, .text⟩) (.inr ⟨.absent, .null⟩) ?_) .nil)
      refine .inr ⟨?_, ?_⟩ <;> intro text htext <;> cases htext
    | postcondition => exact .array .nil
  all_goals rfl

/-- What the terse counter compiles to. -/
def compiledTerseCounter : Compiled :=
  { compiledCounter with
    fingerprint := terseCounter.fingerprint
    parameters := []
    body := [.assign "n" (.binary (.arithmetic .add) (.name "n") (.literal (.integer 1)))] }

theorem compile_terseCounter : terseCounter.compile = .ok compiledTerseCounter := by
  have htokens : Expr.tokenize "n=n+1" = .ok [⟨.word "n", 0⟩, ⟨.assign, 1⟩, ⟨.word "n", 2⟩,
      ⟨.plus, 3⟩, ⟨.integer 1, 4⟩, ⟨.eof, 5⟩] := by
    with_unfolding_all rfl
  have hstep : Program.parse "n=n+1" = .ok compiledTerseCounter.body := by
    rw [Program.parse, htokens]
    with_unfolding_all rfl
  exact compile_eq_ok_iff.2 ⟨⟨.absent, ⟨_, rfl, hstep⟩,
    (becomes_of_compile compile_counter).tests⟩, rfl, rfl, rfl, rfl, rfl⟩

/-- The counter is full after two steps, in one wording and in the other. A condition of it that
brings its own `n` does not look at the counter. -/
theorem compile_reworded_counter : terseCounter.Reworded wordyCounter ∧
    (∃ c' r after, terseCounter.compile = .ok compiledTerseCounter ∧
      wordyCounter.compile = .ok c' ∧
      (c'.withPolicy .raise).run [[], [], []] 0 c'.start = (.ok r, after) ∧
      r.calls = [
        ⟨0, [], .returned (.integer 1), [⟨"n", .integer 0, .integer 1⟩]⟩,
        ⟨1, [], .returned (.integer 2), [⟨"n", .integer 1, .integer 2⟩]⟩,
        ⟨2, [], .violated ⟨.precondition, 0, "full"⟩, []⟩] ∧
      r.error = some "full" ∧ after.state = ⟨[("n", .integer 2)]⟩) ∧
    ∃ t, test .withArguments [.string "n<2", .object [("n", .integer 5)]] = .ok t ∧
      ∀ w : World State, (t.toCondition.holds w).1 = false := by
  have hreport : ((compiledTerseCounter.withPolicy .raise).run [[], [], []] 0
      compiledTerseCounter.start).1 = .ok ⟨"counter", terseCounter.fingerprint, false,
        [⟨0, [], .returned (.integer 1), [⟨"n", .integer 0, .integer 1⟩]⟩,
          ⟨1, [], .returned (.integer 2), [⟨"n", .integer 1, .integer 2⟩]⟩,
          ⟨2, [], .violated ⟨.precondition, 0, "full"⟩, []⟩],
        [("n", .integer 2)], some "full"⟩ := by
    with_unfolding_all rfl
  have hstate : ((compiledTerseCounter.withPolicy .raise).run [[], [], []] 0
      compiledTerseCounter.start).2.state = ⟨[("n", .integer 2)]⟩ := by
    with_unfolding_all rfl
  have hsmall : Expr.parse "n<2" =
      .ok (.binary (.relation .less) (.name "n") (.literal (.integer 2))) := by
    with_unfolding_all rfl
  obtain ⟨-, hruns, htest⟩ := compile_reworded terseCounter_reworded
  obtain ⟨c', hc', h⟩ := hruns _ compile_terseCounter
  obtain ⟨r, after, after', hrun, hrun', hafter⟩ :=
    h.runs .raise [[], [], []] 0 compiledTerseCounter.start
  obtain ⟨t, t', ht, ht', hholds⟩ := htest _ _ _ _ (.string "n<2")
    [.object [("n", .integer 5)]] [] hsmall .text .text (.fields [("n", .integer 5)])
  refine ⟨terseCounter_reworded, ⟨c', _, after', compile_terseCounter, hc',
    h.start.symm ▸ hrun', ?_⟩, t, ht, fun w => ?_⟩
  · rw [hrun] at hreport hstate
    cases hreport
    exact ⟨rfl, rfl, hafter.trans hstate⟩
  · obtain rfl : t' = ⟨_, none, none⟩ := by
      rw [test_eq, Json.source?, Option.getD_some, hsmall] at ht'
      exact (Except.ok.inj ht').symm
    have hvalue : Expr.eval [] (w.state.overriddenBy [("n", .integer 5)])
        (.binary (.relation .less) (.name "n") (.literal (.integer 2))) = .ok (.boolean false) :=
      (Expr.eval_congr fun x _ => Expr.lookup_overriddenBy _ _ x).trans rfl
    rw [hholds, (Test.holds_toCondition _ _).1, ← Bool.not_eq_true, Test.holds_iff]
    intro htrue
    cases hvalue.symm.trans htrue

end Manifest

end Covenant
