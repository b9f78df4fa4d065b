import Covenant.Cli.Response
import Covenant.Proofs.Compilation
import Covenant.Proofs.Ledger

/-! The command that runs a manifest and prints the report as JSON. It reads the file, the
manifest in it and the arguments of the calls in that order, and then compiles the manifest; the
first of these that goes wrong decides the exit code. If none does, the command does what the
library does: the text on the first output is that of the library's report, and the report tells
the exit code and whether there is an error line. -/

namespace Covenant.Cli

/-! ### The command line -/

/-- An option and its value in one argument. -/
def spelled (option text : String) : String := "--" ++ option ++ "=" ++ text

theorem items?_joined {option : String} (hoption : option ∈ valuedOptions) (text : String)
    (rest : List String) : items? (spelled option text :: rest) =
      (items? rest).map (.value option text :: ·) := by
  have hlist : (spelled option text).toList =
      '-' :: '-' :: (option.toList ++ '=' :: text.toList) := by
    simp [spelled]
  have hsign : ∀ c ∈ option.toList, c ≠ '=' := by
    simp only [valuedOptions, List.mem_cons, List.not_mem_nil, or_false] at hoption
    rcases hoption with rfl | rfl <;> simp
  have hne : ∀ other : String, '=' ∉ other.toList → spelled option text ≠ other := by
    rintro other hother rfl
    rw [hlist] at hother
    simp at hother
  have hswitch : looksLikeSwitch (spelled option text) = true := by
    rw [looksLikeSwitch, hlist]
    rfl
  have hwaiting : waiting? (spelled option text) = none := by
    rw [waiting?, List.find?_eq_none]
    intro other hother
    simp only [valuedOptions, List.mem_cons, List.not_mem_nil, or_false] at hother
    simp only [decide_eq_true_eq]
    rcases hother with rfl | rfl <;> exact hne _ (by decide)
  have hname : String.ofList ((option.toList ++ '=' :: text.toList).takeWhile (· ≠ '=')) = option := by
    rw [List.takeWhile_append_of_pos (by simpa using hsign)]
    simp
  have htext : (option.toList ++ '=' :: text.toList).dropWhile (· ≠ '=') = '=' :: text.toList := by
    rw [List.dropWhile_append_of_pos (by simpa using hsign)]
    simp
  have hjoined : joined? (spelled option text) = some (.value option text) := by
    rw [joined?, hlist]
    simp only [hname, htext]
    simp [hoption]
  rw [items?.eq_def]
  simp only [hne "--" (by decide), hswitch, hwaiting, hjoined, if_false, Bool.not_true,
    Bool.false_eq_true]

/-- The command line that asks for a JSON run. -/
def runLine (arguments : List String) (policy : Option Policy) (file : String) : List String :=
  "run" :: "--json" :: (arguments.map (spelled "args") ++
    ((policy.toList.map fun p => spelled "on-violation" p.name) ++ ["--", file]))

theorem items?_map_joined {α : Type} {option : String} (hoption : option ∈ valuedOptions)
    (f : α → String) (xs : List α) (rest : List String) :
    items? ((xs.map fun x => spelled option (f x)) ++ rest) =
      (items? rest).map ((xs.map fun x => .value option (f x)) ++ ·) := by
  induction xs with
  | nil => simp
  | cons x xs ih =>
    rw [List.map_cons, List.cons_append, items?_joined hoption, ih, Option.map_map]
    rfl

theorem items?_runLine (arguments : List String) (policy : Option Policy) (file : String) :
    items? (runLine arguments policy file).tail =
      some (.switch "json" :: (arguments.map (.value "args") ++
        ((policy.toList.map fun p => .value "on-violation" p.name) ++ [.operand file]))) := by
  have hoperand : items? ["--", file] = some [.operand file] := by
    rw [items?.eq_def]
    simp
  have hrest : items? (arguments.map (spelled "args") ++
      ((policy.toList.map fun p => spelled "on-violation" p.name) ++ ["--", file])) =
      some (arguments.map (.value "args") ++
        ((policy.toList.map fun p => .value "on-violation" p.name) ++ [.operand file])) := by
    have hpolicies := items?_map_joined (show "on-violation" ∈ valuedOptions by decide) Policy.name
      policy.toList ["--", file]
    rw [hoperand, Option.map_some] at hpolicies
    have harguments := items?_map_joined (show "args" ∈ valuedOptions by decide) id arguments
      ((policy.toList.map fun p => spelled "on-violation" p.name) ++ ["--", file])
    rwa [hpolicies, Option.map_some] at harguments
  have hswitch : looksLikeSwitch "--json" = true := by decide
  have hwaiting : waiting? "--json" = none := by decide
  have hjoined : joined? "--json" = none := by decide
  have hswitches : switches? "--json" = some [.switch "json"] := by rfl
  rw [runLine, List.tail_cons, items?.eq_def]
  simp only [hswitch, hwaiting, hjoined, hswitches, hrest]
  rfl

theorem foldlM_add?_arguments (g : Given) (texts : List String) :
    (texts.map (Item.value "args")).foldlM Given.add? g =
      some { g with arguments := g.arguments ++ texts } := by
  induction texts generalizing g with
  | nil => simp
  | cons text rest ih =>
    rw [List.map_cons, List.foldlM_cons]
    change (((rest.map (Item.value "args")).foldlM Given.add?
      { g with arguments := g.arguments ++ [text] } : Option Given)) = _
    rw [ih]
    simp

theorem ofArguments?_runLine (arguments : List String) (policy : Option Policy) {file : String}
    (hfile : file ≠ "") : Request.ofArguments? (runLine arguments policy file) =
      some (.invoke ⟨false, 0, .run file arguments policy true⟩) := by
  have hgiven : Given.ofItems? (.switch "json" :: (arguments.map (.value "args") ++
        ((policy.toList.map fun p => .value "on-violation" p.name) ++ [.operand file]))) =
      some ⟨0, 0, 1, arguments, policy.toList.map Policy.name, [file]⟩ := by
    rw [Given.ofItems?, List.foldlM_cons]
    change ((List.foldlM Given.add? { Given.empty with json := 1 } _ : Option Given) >>= _) = _
    rw [List.foldlM_append, foldlM_add?_arguments]
    cases policy <;> rfl
  have hcommand : Given.command? ⟨0, 0, 1, arguments, policy.toList.map Policy.name, [file]⟩ "run" =
      some (.run file arguments policy true) := by
    have hpolicy : Given.policy? ⟨0, 0, 1, arguments, policy.toList.map Policy.name, [file]⟩ =
        some policy := by
      rcases policy with _ | _ | _ <;> rfl
    simp [Given.command?, Given.file?, hfile, hpolicy]
  have hitems := items?_runLine arguments policy file
  rw [runLine, List.tail_cons] at hitems
  have hswitch : looksLikeSwitch "run" = false := by decide
  rw [runLine, Request.ofArguments?, Request.afterItems?, hswitch, if_neg Bool.false_ne_true,
    Request.ofCommand?, hitems]
  simp only [Option.bind_eq_bind, Option.bind_some, hgiven, hcommand]
  rfl

/-! ### Errors on the second output -/

theorem errorLine_inj {a b : String} (h : errorLine a = errorLine b) : a = b := by
  have hlist := congrArg String.toList h
  rw [errorLine, errorLine, String.toList_append, String.toList_append] at hlist
  exact String.toList_inj.1 (List.append_cancel_left hlist)

/-- A line of the journal starts with its level. -/
theorem errorLine_notMem_lines (filter : Journal.Filter) (events : List Journal.Event)
    (message : String) : errorLine message ∉ Journal.lines filter events := by
  intro h
  obtain ⟨e, -, he⟩ := List.mem_map.1 h
  have hhead := congrArg (fun s => s.toList.head?) he
  rw [Journal.Event.line, errorLine] at hhead
  cases e <;> simp [Journal.Event.level, Journal.Level.name] at hhead

/-! ### The calls that are asked for -/

/-- The text of the arguments of one call is that of an array. -/
def Writes (text : String) (arguments : List Value) : Prop :=
  ∃ items, Json.parse? text = some (.array items) ∧ arguments = items.map Value.ofJson

/-- The calls that texts ask for: one for each text, and one without arguments if there is no
text. -/
def Asks (texts : List String) (calls : List (List Value)) : Prop :=
  ∃ given, List.Forall₂ Writes texts given ∧ calls = if texts.isEmpty then [[]] else given

theorem callArguments_eq_ok_iff {text : String} {arguments : List Value} :
    callArguments text = .ok arguments ↔ Writes text arguments := by
  rw [callArguments, Writes]
  rcases Json.parse? text with _ | j
  · simp
  · cases j with
    | array items =>
      simp only [Except.ok.injEq, Option.some.injEq, Json.array.injEq, exists_eq_left', eq_comm]
    | null | boolean | integer | float | string | object => simp

theorem calls_eq_ok_iff {texts : List String} {cs : List (List Value)} :
    calls texts = .ok cs ↔ Asks texts cs := by
  rw [calls, bind_eq_ok_iff, Asks]
  refine exists_congr fun given => ?_
  rw [mapM_eq_ok_iff]
  simp only [callArguments_eq_ok_iff]
  refine and_congr_right fun hgiven => ?_
  have hempty : given.isEmpty = texts.isEmpty := by
    cases hgiven <;> rfl
  rw [hempty]
  exact ⟨fun h => (Except.ok.inj h).symm, fun h => congrArg Except.ok h.symm⟩

theorem Asks.length {texts : List String} {cs : List (List Value)} (h : Asks texts cs) :
    cs.length = max 1 texts.length := by
  obtain ⟨given, hgiven, rfl⟩ := h
  cases hgiven with
  | nil => rfl
  | cons _ hrest =>
    have hlength := hrest.length_eq
    simp [hlength]

/-! ### The library -/

/-- A run as the library makes it: with the given calls, or with the calls deferred and as many
times. -/
def libraryRun (deferred : Bool) (calls : List (List Value)) (times : Nat) (c : Compiled) :
    Act State (Except RunError Report) :=
  if deferred then c.executeDeferred times else c.execute calls

/-- The text of the report of such a run of the manifest that a text writes. -/
def libraryText (deferred : Bool) (text : String) (calls : List (List Value)) (times : Nat)
    (policy : Option Policy) : Except Error String :=
  if deferred then Manifest.executeDeferred text times policy
  else Manifest.execute text calls policy

theorem load_eq {text : String} {m : Manifest} {c : Compiled} (hm : Manifest.parse text = .ok m)
    (hc : m.compile = .ok c) (policy : Option Policy) :
    Manifest.load text policy = .ok (policy.elim c c.withPolicy) := by
  rw [Manifest.load, hm]
  change m.compile >>= _ = _
  rw [hc]
  cases policy <;> rfl

theorem libraryText_eq {text : String} {policy : Option Policy} {c : Compiled} {r : Report}
    {after : World State} {deferred : Bool} {calls : List (List Value)} {times : Nat}
    (hload : Manifest.load text policy = .ok c)
    (hrun : libraryRun deferred calls times c c.start = (.ok r, after)) :
    libraryText deferred text calls times policy = .ok r.toDocument.pretty := by
  cases deferred with
  | false =>
    change c.execute calls c.start = _ at hrun
    change Manifest.load text policy >>= _ = _
    rw [hload]
    change Manifest.output c (c.execute calls) = _
    rw [Manifest.output, hrun]
    rfl
  | true =>
    change c.executeDeferred times c.start = _ at hrun
    change Manifest.load text policy >>= _ = _
    rw [hload]
    change Manifest.output c (c.executeDeferred times) = _
    rw [Manifest.output, hrun]
    rfl

/-- The command makes the calls that are asked for, or as many deferred ones; what it notes before
them has no part in the report. -/
theorem runCalls_summary (c : Compiled) (given : Bool) (calls : List (List Value))
    (w : World State) : ∃ after, runCalls c given calls w =
      (.ok (c.summary w.state (c.ledger 0 (c.requested calls calls.length) w.state)), after) := by
  cases h : c.mode with
  | direct =>
    obtain ⟨after, hrun, -⟩ := c.run_summary calls calls.length w
    rw [Compiled.run, h] at hrun
    exact ⟨after, by rw [runCalls, h]; exact hrun⟩
  | deferred arguments delay =>
    -- the journal may say that the arguments are not used
    have hnoted : ∃ w', w'.state = w.state ∧
        runCalls c given calls w = c.executeDeferred calls.length w' := by
      rw [runCalls, h]
      cases given with
      | false => exact ⟨w, rfl, rfl⟩
      | true => exact ⟨⟨w.state, .argumentsIgnored :: w.journal⟩, rfl, rfl⟩
    obtain ⟨w', hstate, hcalls⟩ := hnoted
    obtain ⟨after, hrun, -⟩ := c.run_summary calls calls.length w'
    rw [Compiled.run, h, hstate] at hrun
    exact ⟨after, hcalls.trans hrun⟩

/-- The mode of a contract is the one in which the command runs it, so it never comes to the error
of a run in the other mode. -/
theorem exists_runCalls (c : Compiled) (given : Bool) {deferred : Bool}
    (hmode : deferred = true ↔ c.mode ≠ .direct) (calls : List (List Value)) (w : World State) :
    ∃ r after after', runCalls c given calls w = (.ok r, after) ∧
      libraryRun deferred calls calls.length c w = (.ok r, after') := by
  obtain ⟨after, hrun⟩ := runCalls_summary c given calls w
  obtain ⟨after', hlibrary, -⟩ := c.run_summary calls calls.length w
  refine ⟨_, after, after', hrun, ?_⟩
  rw [← hlibrary, libraryRun, Compiled.run]
  cases h : c.mode with
  | direct =>
    obtain rfl : deferred = false := by simpa [h] using hmode
    rfl
  | deferred arguments delay =>
    obtain rfl : deferred = true := by simpa [h] using hmode
    rfl

theorem deferred_iff_mode {m : Manifest} {c : Compiled} (h : m.compile = .ok c)
    (policy : Option Policy) : m.deferred = true ↔ (policy.elim c c.withPolicy).mode ≠ .direct := by
  have hmode : (policy.elim c c.withPolicy).mode = m.mode := by
    rw [← (Manifest.compile_eq_ok_iff.1 h).2.2.2.2.2]
    cases policy <;> rfl
  rw [hmode, Manifest.mode]
  cases m.deferred <;> simp

/-! ### The command -/

/-- What the command answers to a file and to what else it is given. -/
structure Agrees (content : FileContent) (arguments : List String) (policy : Option Policy)
    (response : Response) : Prop where
  unreadable : ∀ reason, content = .error reason → response.exit = 2 ∧ response.output = []
  undecodable : ∀ text e, content = .ok text → Manifest.parse text = .error e →
    response.exit = 1 ∧ response.output = []
  /-- What is no array is found even if the manifest would not compile. -/
  malformed : ∀ text m, content = .ok text → Manifest.parse text = .ok m →
    (∃ a ∈ arguments, ∀ values, ¬Writes a values) → response.exit = 2 ∧ response.output = []
  refused : ∀ text m calls e, content = .ok text → Manifest.parse text = .ok m →
    Asks arguments calls → m.compile = .error e → response.exit = 1 ∧ response.output = []
  /-- The answer is that of the library; neither comes to the error of a run in the wrong mode. -/
  runs : ∀ text m calls c, content = .ok text → Manifest.parse text = .ok m →
    Asks arguments calls → m.compile = .ok c → ∃ loaded r after after',
      Manifest.load text policy = .ok loaded ∧
      runCalls loaded (!arguments.isEmpty) calls loaded.start = (.ok r, after) ∧
      libraryRun m.deferred calls (max 1 arguments.length) loaded loaded.start = (.ok r, after') ∧
      libraryText m.deferred text calls (max 1 arguments.length) policy =
        .ok r.toDocument.pretty ∧
      response.outputText = r.toDocument.pretty ++ "\n" ∧
      response.exit = (if r.success then 0 else 1) ∧
      ∀ message, errorLine message ∈ response.errors ↔ r.error = some message

theorem calls_eq_error_iff {texts : List String} :
    (∃ message, calls texts = .error message) ↔ ∃ a ∈ texts, ∀ values, ¬Writes a values := by
  constructor
  · rintro ⟨message, h⟩
    by_contra hnone
    push Not at hnone
    -- then every text writes the arguments of a call
    obtain ⟨given, hgiven⟩ := exists_forall₂ hnone
    have hok := calls_eq_ok_iff.2 ⟨given, hgiven, rfl⟩
    rw [h] at hok
    cases hok
  · rintro ⟨a, ha, hbad⟩
    cases h : calls texts with
    | error message => exact ⟨message, rfl⟩
    | ok cs =>
      obtain ⟨given, hgiven, -⟩ := calls_eq_ok_iff.1 h
      obtain ⟨i, hi⟩ := List.getElem?_of_mem ha
      obtain ⟨values, -, hvalues⟩ := exists_of_forall₂ hgiven.flip hi
      exact absurd hvalues (hbad values)

theorem answer_agrees (quiet : Bool) (verbosity : Nat) (filter : Journal.Filter) (file : String)
    (content : FileContent) (arguments : List String) (policy : Option Policy) :
    Agrees content arguments policy
      (answer ⟨quiet, verbosity, .run file arguments policy true⟩ filter content) where
  unreadable := by
    rintro reason rfl
    exact ⟨rfl, rfl⟩
  undecodable := by
    rintro text e rfl hm
    simp only [answer, run, hm]
    exact ⟨rfl, rfl⟩
  malformed := by
    rintro text m rfl hm hbad
    obtain ⟨message, hcalls⟩ := calls_eq_error_iff.2 hbad
    simp only [answer, run, hm, hcalls, and_self]
  refused := by
    rintro text m calls e rfl hm hasks hc
    simp only [answer, run, hm, calls_eq_ok_iff.2 hasks, hc, invalid, Bool.false_eq_true,
      if_false, and_self]
  runs := by
    rintro text m cs c rfl hm hasks hc
    have hload := load_eq hm hc policy
    obtain ⟨r, after, after', hrun, hlibrary⟩ := exists_runCalls (policy.elim c c.withPolicy)
      (!arguments.isEmpty) (deferred_iff_mode hc policy) cs (policy.elim c c.withPolicy).start
    rw [hasks.length] at hlibrary
    have hresponse : answer ⟨quiet, verbosity, .run file arguments policy true⟩ filter (.ok text) =
        runResponse quiet true (Journal.lines filter after.journal.reverse) (.ok r) := by
      simp only [answer, run, hm, calls_eq_ok_iff.2 hasks, hc, hrun]
    rw [hresponse]
    refine ⟨_, r, after, after', hload, hrun, hlibrary, libraryText_eq hload hlibrary, ?_, rfl,
      fun message => ?_⟩
    · simp [runResponse, Response.outputText, String.join]
    · constructor
      · intro h
        rcases List.mem_append.1 h with h | h
        · exact absurd h (errorLine_notMem_lines _ _ _)
        · obtain ⟨other, hother, heq⟩ := List.mem_map.1 h
          rw [← errorLine_inj heq]
          exact Option.mem_toList.1 hother
      · intro h
        refine List.mem_append_right _ (List.mem_map.2 ⟨message, ?_, rfl⟩)
        exact Option.mem_toList.2 h

/-- The command does what the library does, and says where it stops before that, on the command
line for a JSON run and on every other that asks for one. -/
theorem respond_agrees (read : String → Id FileContent) (log : Option String)
    (arguments : List String) (policy : Option Policy) {file : String} (hfile : file ≠ "") :
    Agrees (read file) arguments policy (respond read log (runLine arguments policy file)) ∧
      ∀ quiet verbosity line, Request.ofArguments? line =
          some (.invoke ⟨quiet, verbosity, .run file arguments policy true⟩) →
        Agrees (read file) arguments policy (respond read log line) := by
  have hevery : ∀ quiet verbosity line, Request.ofArguments? line =
      some (.invoke ⟨quiet, verbosity, .run file arguments policy true⟩) →
        Agrees (read file) arguments policy (respond read log line) := by
    intro quiet verbosity line hline
    rw [respond, hline]
    exact answer_agrees quiet verbosity _ file (read file) arguments policy
  exact ⟨hevery false 0 _ (ofArguments?_runLine arguments policy hfile), hevery⟩

/-- A counter as the text of a file. -/
def counterText : String :=
  "\x7b\"fn\": \x7b\"body\": \"n=n+by\", \"params\": [\"by\"]\x7d, \"state\": \x7b\"n\": 0\x7d, " ++
    "\"preconditions\": [[\"n<10\"]], \"postconditions\": [], \"invariants\": [[\"n>=0\"]]\x7d"

theorem respond_counter :
    Agrees (.ok counterText) ["[7]", "[8]", "[9]"] none
        (respond (m := Id) (fun _ => .ok counterText) none
          (runLine ["[7]", "[8]", "[9]"] none "counter.json")) ∧
      (respond (m := Id) (fun _ => .ok counterText) none
        (runLine ["[7]", "[8]", "[9]"] none "counter.json")).exit = 1 :=
  ⟨(respond_agrees (fun _ => .ok counterText) none _ _ (by decide)).1, by decide +kernel⟩

end Covenant.Cli
