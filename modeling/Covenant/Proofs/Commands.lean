import Covenant.Proofs.CommandLine
import Covenant.Proofs.Printing

/-! The commands on one file agree on what a valid manifest is: a text that is decoded and whose
manifest compiles. Validation succeeds exactly on these, and on these a run gets as far as its
calls; on any other text both answer with the same error line. The hash needs a text that is
decoded, and is the fingerprint in the report of a run. -/

namespace Covenant.Cli

/-- A command line that asks for a command. -/
def Requests (line : List String) (quiet : Bool) (command : Command) : Prop :=
  ∃ verbosity, Request.ofArguments? line = some (.invoke ⟨quiet, verbosity, command⟩)

theorem Requests.respond_eq {line : List String} {quiet : Bool} {command : Command}
    (h : Requests line quiet command) {file : String} (hfile : command.file? = some file)
    (read : String → Id FileContent) (log : Option String) :
    ∃ verbosity filter, respond read log line =
      answer ⟨quiet, verbosity, command⟩ filter (read file) := by
  obtain ⟨verbosity, h⟩ := h
  refine ⟨verbosity, Journal.Filter.choose log verbosity, ?_⟩
  rw [respond, h]
  simp only [hfile]
  rfl

/-! ### Valid manifests -/

/-- Why a text is no valid manifest: it is not decoded, or what it writes does not compile. -/
inductive Refused (text : String) : Error → Prop
  | undecodable {e : ManifestError} (h : Manifest.parse text = .error e) :
    Refused text (.manifest e)
  | uncompilable {m : Manifest} {e : Error} (hm : Manifest.parse text = .ok m)
    (h : m.compile = .error e) : Refused text e

theorem load_of_refused {text : String} {e : Error} (h : Refused text e)
    (policy : Option Policy) : Manifest.load text policy = .error e := by
  cases h with
  | undecodable h =>
    rw [Manifest.load, h]
    rfl
  | uncompilable hm h =>
    rw [Manifest.load, hm]
    change Manifest.compile _ >>= _ = _
    rw [h]
    rfl

/-- A text is refused, or what it writes can be run. -/
theorem refused_or_loads (text : String) : (∃ e, Refused text e) ∨
    ∃ m c, Manifest.parse text = .ok m ∧ m.compile = .ok c := by
  cases hm : Manifest.parse text with
  | error e => exact .inl ⟨_, .undecodable hm⟩
  | ok m =>
    cases hc : m.compile with
    | error e => exact .inl ⟨e, .uncompilable hm hc⟩
    | ok c => exact .inr ⟨m, c, rfl, hc⟩

/-! ### Reports of validations -/

/-- What the report of a validation says. -/
def validationDocument (error : Option Error) : Document :=
  .object
    [("errors", .integer (if error.isSome then 1 else 0)),
     ("messages", .array (error.toList.map fun e => .string e.message)),
     ("valid", .boolean error.isNone)]

theorem parse?_validationReport (error : Option Error) :
    Document.parse? (validationReport error) = some (validationDocument error) := by
  refine (Document.parse?_printed ?_).2
  have hcount : Json.Fits (if error.isSome then 1 else 0) := by
    split <;> exact Json.fits_of_lt (by norm_num)
  have hmessages : ∀ d ∈ error.toList.map fun e => Document.string e.message, d.Readable := by
    rintro d hd
    obtain ⟨e, -, rfl⟩ := List.mem_map.1 hd
    trivial
  rw [Document.readable_object]
  simp only [List.forall_mem_cons, Document.readable_array]
  exact ⟨hcount, hmessages, trivial, by simp⟩

/-- The response prints a report of a validation, and nothing else. -/
def Reports (response : Response) (error : Option Error) : Prop :=
  ∃ report, response.output = [report] ∧ Document.parse? report = some (validationDocument error)

/-! ### Runs that make calls -/

/-- The response to a run that has come to its calls: the contract has been loaded and has made
calls, and the response says how they went. -/
def Executes (content : FileContent) (arguments : List String) (policy : Option Policy)
    (json : Bool) (response : Response) : Prop :=
  ∃ text calls c r after quiet filter, content = .ok text ∧ Asks arguments calls ∧
    Manifest.load text policy = .ok c ∧
    runCalls c (!arguments.isEmpty) calls c.start = (.ok r, after) ∧ r.calls ≠ [] ∧
    response = runResponse quiet json (Journal.lines filter after.journal.reverse) (.ok r)

theorem ledger_ne_nil (c : Compiled) (index : Nat) {calls : List (List Value)} (h : calls ≠ [])
    (s : State) : c.ledger index calls s ≠ [] := by
  cases calls with
  | nil => exact absurd rfl h
  | cons arguments rest =>
    rw [Compiled.ledger]
    split <;> exact List.cons_ne_nil _ _

theorem requested_ne_nil (c : Compiled) {calls : List (List Value)} (h : calls ≠ []) :
    c.requested calls calls.length ≠ [] := by
  rw [Compiled.requested]
  split
  · exact h
  · simpa using h

/-- There is always a call to make, so a run makes one. -/
theorem exists_runCalls_calls (c : Compiled) {arguments : List String}
    {calls : List (List Value)} (h : Asks arguments calls) (given : Bool) (w : World State) :
    ∃ r after, runCalls c given calls w = (.ok r, after) ∧ r.calls ≠ [] ∧
      r.fingerprint = c.fingerprint := by
  obtain ⟨after, hrun⟩ := runCalls_summary c given calls w
  have hcalls : calls ≠ [] := by
    have hlength := h.length
    rintro rfl
    rw [List.length_nil] at hlength
    omega
  refine ⟨_, after, hrun, fun hnone => ?_, rfl⟩
  exact ledger_ne_nil c 0 (requested_ne_nil c hcalls) w.state (List.map_eq_nil_iff.1 hnone)

/-! ### The commands -/

/-- What the commands answer to a file: the validation, a run, and the hash. -/
structure Agreement (content : FileContent) (arguments : List String) (policy : Option Policy)
    (reported printed : Bool) (validated ran hashed : Response) : Prop where
  unreadable : ∀ reason, content = .error reason →
    validated.exit = 2 ∧ ran.exit = 2 ∧ hashed.exit = 2
  /-- The manifest is valid if it can be run, whatever the arguments and the policy. -/
  valid_iff : ∀ calls, Asks arguments calls →
    (validated.exit = 0 ↔ Executes content arguments policy printed ran)
  valid : validated.exit = 0 → reported = true → Reports validated none
  invalid : ∀ text e, content = .ok text → Refused text e →
    validated.exit = 1 ∧ validated.errors = [errorLine e.message] ∧
      (reported = true → Reports validated (some e)) ∧
      ∀ calls, Asks arguments calls →
        ran.exit = 1 ∧ ran.errors = [errorLine e.message] ∧ ran.output = []
  /-- The arguments are not looked at before the text is decoded. -/
  undecodable : ∀ text e, content = .ok text → Manifest.parse text = .error e →
    ran.exit = 1 ∧ ran.errors = validated.errors
  hash_fails : hashed.exit ≠ 0 ↔ (∃ reason, content = .error reason) ∨
    ∃ text e, content = .ok text ∧ Manifest.parse text = .error e
  fingerprint : printed = true → ran.output ≠ [] → ∃ r : Report,
    ran.output = [r.toDocument.pretty] ∧ hashed.exit = 0 ∧ hashed.output = [r.fingerprint]

section
variable {i : Invocation} {filter : Journal.Filter} {file : String} {json : Bool} {text : String}

theorem validate_of_refused {e : Error} (h : Refused text e) :
    validate i filter file json text = invalid json e := by
  rw [validate, load_of_refused h]

theorem validate_of_compile {m : Manifest} {c : Compiled} (hm : Manifest.parse text = .ok m)
    (hc : m.compile = .ok c) : (validate i filter file json text).exit = 0 ∧
      (json = true → (validate i filter file json text).output = [validationReport none]) := by
  rw [validate, load_eq hm hc none]
  exact ⟨rfl, fun hjson => if_pos hjson⟩

variable {arguments : List String} {policy : Option Policy}

theorem run_of_undecodable {e : ManifestError} (hm : Manifest.parse text = .error e) :
    run i filter arguments policy json text = invalid false (.manifest e) := by
  rw [run, hm]

theorem run_of_refused {e : Error} (h : Refused text e) {cs : List (List Value)}
    (hasks : Asks arguments cs) : run i filter arguments policy json text = invalid false e := by
  cases h with
  | undecodable hm => exact run_of_undecodable hm
  | uncompilable hm hc => simp only [run, hm, calls_eq_ok_iff.2 hasks, hc]

variable (i filter json policy) in
/-- The report of the run has the fingerprint of the manifest: the policy is no part of it. -/
theorem run_of_compile {m : Manifest} {c : Compiled} (hm : Manifest.parse text = .ok m)
    (hc : m.compile = .ok c) {cs : List (List Value)} (hasks : Asks arguments cs) :
    ∃ r after, runCalls (policy.elim c c.withPolicy) (!arguments.isEmpty) cs
        (policy.elim c c.withPolicy).start = (.ok r, after) ∧ r.calls ≠ [] ∧
      r.fingerprint = m.fingerprint ∧ run i filter arguments policy json text =
        runResponse i.quiet json (Journal.lines filter after.journal.reverse) (.ok r) := by
  obtain ⟨r, after, hrun, hcalls, hfingerprint⟩ := exists_runCalls_calls
    (policy.elim c c.withPolicy) hasks (!arguments.isEmpty) (policy.elim c c.withPolicy).start
  have hkept : (policy.elim c c.withPolicy).fingerprint = m.fingerprint := by
    rw [← (Manifest.compile_eq_ok_iff.1 hc).2.2.1]
    cases policy <;> rfl
  refine ⟨r, after, hrun, hcalls, hfingerprint.trans hkept, ?_⟩
  simp only [run, hm, calls_eq_ok_iff.2 hasks, hc, hrun]

/-- Whatever keeps a run from its calls is no output. -/
theorem exists_of_run_output_ne_nil (h : (run i filter arguments policy json text).output ≠ []) :
    ∃ m c cs, Manifest.parse text = .ok m ∧ m.compile = .ok c ∧ Asks arguments cs := by
  cases hm : Manifest.parse text with
  | error e => exact absurd (by rw [run, hm]; rfl) h
  | ok m =>
    cases hcalls : calls arguments with
    | error message => exact absurd (by simp only [run, hm, hcalls]) h
    | ok cs =>
      have hasks := calls_eq_ok_iff.1 hcalls
      cases hc : m.compile with
      | error e => exact absurd (by rw [run_of_refused (.uncompilable hm hc) hasks]; rfl) h
      | ok c => exact ⟨m, c, cs, rfl, hc, hasks⟩

end

theorem hash_exit_ne_zero_iff {text : String} :
    (hash text).exit ≠ 0 ↔ ∃ e, Manifest.parse text = .error e := by
  rw [hash]
  cases Manifest.parse text <;> simp [invalid]

theorem answers_agree {content : FileContent} {file : String} {arguments : List String}
    {policy : Option Policy} {reported printed quiet quiet' quiet'' : Bool}
    {verbosity verbosity' verbosity'' : Nat} {filter filter' filter'' : Journal.Filter} :
    Agreement content arguments policy reported printed
      (answer ⟨quiet, verbosity, .validate file reported⟩ filter content)
      (answer ⟨quiet', verbosity', .run file arguments policy printed⟩ filter' content)
      (answer ⟨quiet'', verbosity'', .hash file⟩ filter'' content) where
  unreadable := by
    rintro reason rfl
    exact ⟨rfl, rfl, rfl⟩
  valid_iff := by
    intro cs hasks
    cases content with
    | error reason =>
      refine iff_of_false (fun h => by cases h) ?_
      rintro ⟨_, _, _, _, _, _, _, hcontent, -⟩
      cases hcontent
    | ok text =>
      rcases refused_or_loads text with ⟨e, he⟩ | ⟨m, c, hm, hc⟩
      · -- a manifest that is refused is not loaded under any policy
        simp only [answer, validate_of_refused he]
        refine iff_of_false (fun h => by cases h) ?_
        rintro ⟨_, _, _, _, _, _, _, hcontent, -, hload, -⟩
        cases hcontent
        rw [load_of_refused he] at hload
        cases hload
      · refine iff_of_true (validate_of_compile hm hc).1 ?_
        obtain ⟨r, after, hrun, hcalls, -, hresponse⟩ :=
          run_of_compile ⟨quiet', verbosity', .run file arguments policy printed⟩ filter' printed
            policy hm hc hasks
        have hload := load_eq hm hc policy
        exact ⟨text, cs, _, r, after, quiet', filter', rfl, hasks, hload, hrun, hcalls, hresponse⟩
  valid := by
    intro hexit hreported
    cases content with
    | error reason => cases hexit
    | ok text =>
      rcases refused_or_loads text with ⟨e, he⟩ | ⟨m, c, hm, hc⟩
      · simp only [answer, validate_of_refused he] at hexit
        cases hexit
      · exact ⟨_, (validate_of_compile hm hc).2 hreported, parse?_validationReport none⟩
  invalid := by
    rintro text e rfl he
    simp only [answer, validate_of_refused he]
    refine ⟨rfl, rfl, fun hreported => ?_, fun cs hasks => ?_⟩
    · exact ⟨_, if_pos hreported, parse?_validationReport (some e)⟩
    · rw [run_of_refused he hasks]
      exact ⟨rfl, rfl, rfl⟩
  undecodable := by
    rintro text e rfl hm
    simp only [answer, run_of_undecodable hm, validate_of_refused (.undecodable hm)]
    exact ⟨rfl, rfl⟩
  hash_fails := by
    cases content with
    | error reason => exact iff_of_true (fun h => by cases h) (.inl ⟨reason, rfl⟩)
    | ok text => simpa [answer] using hash_exit_ne_zero_iff
  fingerprint := by
    rintro rfl houtput
    cases content with
    | error reason => exact absurd rfl houtput
    | ok text =>
      obtain ⟨m, c, cs, hm, hc, hasks⟩ := exists_of_run_output_ne_nil houtput
      obtain ⟨r, after, -, -, hfingerprint, hresponse⟩ :=
        run_of_compile ⟨quiet', verbosity', .run file arguments policy true⟩ filter' true policy
          hm hc hasks
      have hhashed : hash text = ⟨0, [m.fingerprint], []⟩ := by rw [hash, hm]
      refine ⟨r, congrArg Response.output hresponse, congrArg Response.exit hhashed, ?_⟩
      rw [hfingerprint]
      exact congrArg Response.output hhashed

/-- The commands agree on what a valid manifest is, on all command lines that ask for them. -/
theorem commands_agree (read : String → Id FileContent) (log : Option String) {file : String}
    {arguments : List String} {policy : Option Policy} {reported printed : Bool}
    {validating running hashing : List String} {quiet quiet' quiet'' : Bool}
    (hvalidating : Requests validating quiet (.validate file reported))
    (hrunning : Requests running quiet' (.run file arguments policy printed))
    (hhashing : Requests hashing quiet'' (.hash file)) :
    Agreement (read file) arguments policy reported printed (respond read log validating)
      (respond read log running) (respond read log hashing) := by
  obtain ⟨verbosity, filter, hvalidated⟩ := hvalidating.respond_eq rfl read log
  obtain ⟨verbosity', filter', hran⟩ := hrunning.respond_eq rfl read log
  obtain ⟨verbosity'', filter'', hhashed⟩ := hhashing.respond_eq rfl read log
  rw [hvalidated, hran, hhashed]
  exact answers_agree

/-- The counter is valid, so the hash is the fingerprint that a run prints. -/
theorem commands_agree_counter :
    Requests ["validate", "--json", "counter.json"] false (.validate "counter.json" true) ∧
      Requests (runLine ["[7]"] none "counter.json") false
        (.run "counter.json" ["[7]"] none true) ∧
      Requests ["hash", "counter.json"] false (.hash "counter.json") ∧
      Agreement (.ok counterText) ["[7]"] none true true
        (respond (m := Id) (fun _ => .ok counterText) none ["validate", "--json", "counter.json"])
        (respond (m := Id) (fun _ => .ok counterText) none (runLine ["[7]"] none "counter.json"))
        (respond (m := Id) (fun _ => .ok counterText) none ["hash", "counter.json"]) := by
  have hvalidating : Requests ["validate", "--json", "counter.json"] false
      (.validate "counter.json" true) := ⟨0, by with_unfolding_all rfl⟩
  have hrunning : Requests (runLine ["[7]"] none "counter.json") false
      (.run "counter.json" ["[7]"] none true) := ⟨0, ofArguments?_runLine _ _ (by decide)⟩
  have hhashing : Requests ["hash", "counter.json"] false (.hash "counter.json") :=
    ⟨0, by with_unfolding_all rfl⟩
  exact ⟨hvalidating, hrunning, hhashing,
    commands_agree (fun _ => .ok counterText) none hvalidating hrunning hhashing⟩

end Covenant.Cli
