import Wheelwork.CommandLine
import Wheelwork.Proofs.Budget
import Wheelwork.Proofs.Cuts
import Wheelwork.Proofs.Unread

/-!
Reports and exit codes do not contradict each other. Behind it stand two facts about loading: the
complaints keep the first errors of all that they count, so where there is an error there is one to
show, and a program is missing exactly if an error was counted.
-/
namespace Wheelwork

namespace Diagnostics

def Capped (ds : Diagnostics) : Prop := ds.errors.size = min cap ds.totalErrors

variable {ds other : Diagnostics}

theorem capped_empty : empty.Capped := rfl

theorem Capped.pushError (capped : ds.Capped) (d : Diagnostic) : (ds.pushError d).Capped := by
  unfold Capped at capped ⊢
  unfold Diagnostics.pushError
  by_cases room : ds.errors.size < cap
  · simp only [room, ↓reduceIte, Array.size_push]
    omega
  · simp only [room, ↓reduceIte]
    omega

theorem Capped.pushWarning (capped : ds.Capped) (d : Diagnostic) : (ds.pushWarning d).Capped :=
  capped

theorem Capped.pushErrors (capped : ds.Capped) (more : List Diagnostic) :
    (more.foldl Diagnostics.pushError ds).Capped := by
  induction more generalizing ds with
  | nil => exact capped
  | cons d more ih => exact ih (capped.pushError d)

theorem Capped.shows (capped : ds.Capped) (wrong : ds.hasErrors = true) :
    ∃ first, ds.errors[0]? = some first := by
  have counted : 0 < ds.totalErrors := by simpa [hasErrors] using wrong
  have kept : 0 < ds.errors.size := by
    rw [capped]
    exact Nat.lt_min.mpr ⟨by decide, counted⟩
  exact ⟨_, Array.getElem?_eq_getElem kept⟩

theorem pushWarnings_errors (ds : Diagnostics) (more : List Diagnostic) :
    (more.foldl Diagnostics.pushWarning ds).errors = ds.errors ∧
      (more.foldl Diagnostics.pushWarning ds).totalErrors = ds.totalErrors := by
  induction more generalizing ds with
  | nil => exact ⟨rfl, rfl⟩
  | cons d more ih => exact ih (ds.pushWarning d)

theorem extend_totalErrors (ds : Diagnostics) (capped : other.Capped) :
    (ds.extend other).totalErrors = ds.totalErrors + other.totalErrors := by
  have kept : other.errors.size ≤ other.totalErrors := by
    rw [capped]
    exact Nat.min_le_right _ _
  simp only [extend, ← Array.foldl_toList, pushWarnings_errors, Lexer.totalErrors_foldl,
    Array.length_toList]
  omega

theorem extend_errors (ds other : Diagnostics) :
    (ds.extend other).errors.toList =
      ds.errors.toList ++ other.errors.toList.take (cap - ds.errors.size) := by
  simp only [extend, ← Array.foldl_toList, pushWarnings_errors, Lexer.errors_foldl]

theorem Capped.extend (capped : ds.Capped) (capped' : other.Capped) :
    (ds.extend other).Capped := by
  have size : (ds.extend other).errors.size =
      ds.errors.size + min (cap - ds.errors.size) other.errors.size := by
    rw [← Array.length_toList, extend_errors, List.length_append, List.length_take,
      Array.length_toList, Array.length_toList]
  unfold Capped at capped capped' ⊢
  rw [size, extend_totalErrors ds capped', capped, capped']
  omega

end Diagnostics

theorem Lexer.lex_capped (source : Source) : (lex source).2.Capped :=
  Diagnostics.capped_empty.pushErrors _

namespace Assembly

variable (source : Source)

theorem add_capped {s : State} (capped : s.diagnostics.Capped)
    (read : Except (Problem × Span) Line) : (add source s read).diagnostics.Capped := by
  cases read with
  | error complaint => exact capped.pushError _
  | ok line =>
    simp only [add]
    split
    · unfold noteDefinition
      simp only
      split
      · exact capped
      · exact capped.pushWarning _
    · exact capped

theorem addLines_capped {s : State} (capped : s.diagnostics.Capped) (tokens : List Token) :
    (addLines source s tokens).diagnostics.Capped := by
  fun_induction addLines source s tokens with
  | case1 s => exact capped
  | case2 => exact capped
  | case3 s token rest newline ih => exact ih capped
  | case4 => exact capped
  | case5 s token rest _ _ _ ih => exact ih (add_capped source capped _)

theorem assemble_capped (tokens : List Token) : (assemble source tokens).2.Capped :=
  addLines_capped source Diagnostics.capped_empty tokens

theorem assemble_none {tokens : List Token} :
    (assemble source tokens).1 = none ↔ (assemble source tokens).2.hasErrors = true := by
  simp [assemble]

end Assembly

namespace Load

variable (source : Source)

theorem capped : (load source).diagnostics.Capped := by
  unfold load
  simp only
  split
  · exact Lexer.lex_capped source
  · exact (Lexer.lex_capped source).extend (Assembly.assemble_capped source _)

theorem program_none :
    (load source).program = none ↔ (load source).diagnostics.hasErrors = true := by
  unfold load
  simp only
  split
  · rename_i wrong
    simp [wrong]
  · rename_i sound
    have none : (Lexer.lex source).2.totalErrors = 0 := by simpa [Diagnostics.hasErrors] using sound
    rw [Assembly.assemble_none, Diagnostics.hasErrors, Diagnostics.hasErrors,
      Diagnostics.extend_totalErrors _ (Assembly.assemble_capped source _), none, Nat.zero_add]

end Load

namespace Report

/-- A report that contradicts neither itself nor the check of the source text. -/
structure Coherent (r : Report) (source : Source) (limit : Option Nat) : Prop where
  success : r.success = true ↔ r.exit = .endOfStream ∨ r.exit = .returned
  error : r.error.isSome = true ↔ r.success = false
  crash : r.crash.isSome = true ↔ r.exit = .fault
  crashError : ∀ c, r.crash = some c → r.error = some c.display
  diagnostics : r.diagnostics.hasErrors = true ↔ r.exit = .loadFailed
  checked : (check source).hasErrors = true ↔ r.exit = .loadFailed
  fingerprint : r.fingerprint = none ↔ r.exit = .loadFailed
  idle : r.exit = .loadFailed → r.steps = 0
  spent : r.exit = .stepLimit → limit = some r.steps

variable {source : Source}

/-- An error was counted, so one is kept, and the report has it to tell. -/
theorem ofFailedLoad_coherent (missing : (load source).program = none) (limit : Option Nat) :
    (ofFailedLoad (load source).diagnostics).Coherent source limit := by
  have wrong := (Load.program_none source).mp missing
  obtain ⟨first, shown⟩ := (Load.capped source).shows wrong
  constructor
  · simp [ofFailedLoad]
  · simp [ofFailedLoad, shown]
  · simp [ofFailedLoad]
  · simp [ofFailedLoad]
  · exact iff_of_true wrong rfl
  · exact iff_of_true wrong rfl
  · exact iff_of_true rfl rfl
  · exact fun _ => rfl
  · intro stopped
    cases stopped

theorem ofRun_exit (result : Except RunError Exit) (steps : Nat) (diagnostics : Diagnostics)
    (fingerprint : Option String) :
    let r := ofRun result steps diagnostics fingerprint
    (r.success = true ↔ r.exit = .endOfStream ∨ r.exit = .returned) ∧
      (r.error.isSome = true ↔ r.success = false) ∧ (r.crash.isSome = true ↔ r.exit = .fault) ∧
      (∀ c, r.crash = some c → r.error = some c.display) ∧ r.exit ≠ .loadFailed ∧
      (r.exit = .stepLimit → ∃ bound, result = .error (.stepLimit bound)) := by
  cases result with
  | ok exit => cases exit <;> simp [ofRun, ExitReason.ofExit]
  | error error => cases error <;> simp [ofRun, RunError.message]

theorem ofRun_kept (result : Except RunError Exit) (steps : Nat) (diagnostics : Diagnostics)
    (fingerprint : Option String) :
    let r := ofRun result steps diagnostics fingerprint
    r.steps = steps ∧ r.diagnostics = diagnostics ∧ r.fingerprint = fingerprint := by
  cases result with
  | ok exit => exact ⟨rfl, rfl, rfl⟩
  | error error => cases error <;> exact ⟨rfl, rfl, rfl⟩

theorem ofRun_coherent {p : Program} (loaded : (load source).program = some p)
    {result : Except RunError Exit} {steps : Nat} {limit : Option Nat}
    (spent : ∀ bound, result = .error (.stepLimit bound) → limit = some steps) :
    (ofRun result steps (load source).diagnostics (load source).fingerprint).Coherent source
      limit := by
  obtain ⟨success, error, crash, crashError, ran, stopped⟩ :=
    ofRun_exit result steps (load source).diagnostics (load source).fingerprint
  obtain ⟨sameSteps, sameDiagnostics, sameFingerprint⟩ :=
    ofRun_kept result steps (load source).diagnostics (load source).fingerprint
  have found : ¬ (load source).program = none := by simp [loaded]
  have sound := mt (Load.program_none source).mpr found
  have marked : (load source).fingerprint ≠ none := by simp [Load.fingerprint, loaded]
  refine ⟨success, error, crash, crashError, ?_, iff_of_false sound ran, ?_,
    fun failed => absurd failed ran, ?_⟩
  · rw [sameDiagnostics]
    exact iff_of_false sound ran
  · rw [sameFingerprint]
    exact iff_of_false marked ran
  · intro ended
    obtain ⟨bound, same⟩ := stopped ended
    rw [sameSteps]
    exact spent bound same

end Report

section Runs

variable {σ : Type} [Host σ] {source : Source} {p : Program} {limit : Option Nat} {host : σ}

theorem runSource_failed (missing : (load source).program = none) (host : σ) (limit : Option Nat) :
    runSource source host limit = some (.ofFailedLoad (load source).diagnostics, host) := by
  simp only [runSource, missing]

theorem runSource_loaded (loaded : (load source).program = some p) (host : σ)
    (limit : Option Nat) :
    runSource source host limit = (Session.start p limit host).run.map fun (t, result) =>
      (.ofRun result t.machine.steps (load source).diagnostics (load source).fingerprint,
        t.host) := by
  have begun : Session.run ⟨.start p limit, host⟩ = (Session.start p limit host).run := rfl
  simp only [runSource, loaded, begun]
  cases (Session.start p limit host).run <;> rfl

theorem runSource_coherent {report : Report} {left : σ}
    (reported : runSource source host limit = some (report, left)) :
    report.Coherent source limit := by
  cases loaded : (load source).program with
  | none =>
    rw [runSource_failed loaded] at reported
    cases reported
    exact Report.ofFailedLoad_coherent loaded limit
  | some p =>
    rw [runSource_loaded loaded] at reported
    obtain ⟨⟨t, result⟩, ran, same⟩ := Option.map_eq_some_iff.mp reported
    cases same
    apply Report.ofRun_coherent loaded
    rintro bound rfl
    -- A machine that is stopped has made as many steps as its limit says.
    obtain ⟨given, steps⟩ := Session.finishes_spent (Session.run_eq_some_iff.mp ran)
      (fun most _ => Nat.zero_le most)
    exact given.trans (congrArg some steps.symm)

theorem loadFailed_iff {report : Report} {left : σ}
    (reported : runSource source host limit = some (report, left)) :
    report.exit = .loadFailed ↔ (load source).program = none := by
  rw [← (runSource_coherent reported).checked, check, Load.program_none]

/-- There is no report only on a run without a limit that never ends. -/
theorem runSource_none :
    runSource source host limit = none ↔ limit = none ∧
      ∃ p, (load source).program = some p ∧
        ∀ n, ((Session.start p none host).after n).step.2 = .running := by
  cases loaded : (load source).program with
  | none => simp [runSource_failed loaded]
  | some p =>
    simp only [runSource_loaded loaded, Option.map_eq_none_iff, Option.some.injEq,
      exists_eq_left']
    cases limit with
    | none => simp [Session.run_eq_none_iff]
    | some most =>
      obtain ⟨t, result, ends⟩ :=
        Session.limited_finishes (s := Session.start p (some most) host) rfl
      simp [ends.run]

end Runs

/-- With its limit the page always has an answer. -/
theorem Playground.run_isSome (source input : String) : (run source input).isSome = true := by
  cases reported : runSource ⟨sourceName, source⟩
      ({ input := (Text.inputLines input.toList).map String.ofList } : Console)
      (some stepLimit) with
  | none => cases (runSource_none.mp reported).1
  | some ended =>
    simp only [run, runInMemory, reported, Option.bind_eq_bind, Option.bind_some]
    split <;> rfl

namespace Outcome

theorem ofReport_code (r : Report) (stdout : String) :
    (ofReport r stdout).code = 0 ↔ r.exit = .endOfStream ∨ r.exit = .returned := by
  unfold ofReport
  cases r.exit <;> simp

theorem ofCheck_code (file : String) (l : Load) : (ofCheck file l).code = 0 ↔ l.program ≠ none := by
  unfold ofCheck
  cases l.program with
  | none => exact iff_of_false Nat.one_ne_zero (not_not_intro rfl)
  | some p => exact iff_of_true rfl (Option.some_ne_none p)

theorem ofDump_code (emit : Emit) (l : Load) : (ofDump emit l).code = 0 ↔ l.program ≠ none := by
  unfold ofDump
  cases l.program with
  | none => exact iff_of_false Nat.one_ne_zero (not_not_intro rfl)
  | some p => exact iff_of_true rfl (Option.some_ne_none p)

end Outcome

section Commands

variable {source : Source} {args : List String} {read : String → Except ReadError String}
  (stdin : List UInt8)

theorem run_code {limit : Option Nat} (readable : read source.name = .ok source.text)
    (parsed : Command.parse? args = some (.run source.name limit)) :
    (commandLine args read stdin).map (·.code == 0) =
      (runSource source (Terminal.ofBytes stdin) limit).map (·.1.success) := by
  simp only [commandLine, parsed, Command.execute, readable]
  cases reported : runSource source (Terminal.ofBytes stdin) limit with
  | none => simp [reported]
  | some ended =>
    have code : ((Outcome.ofReport ended.1 ended.2.output).code == 0) = ended.1.success := by
      rw [Bool.eq_iff_iff, beq_iff_eq, (runSource_coherent reported).success]
      exact Outcome.ofReport_code _ _
    simp [reported, code]

theorem check_code (readable : read source.name = .ok source.text)
    (parsed : Command.parse? args = some (.check source.name)) :
    ∃ outcome, commandLine args read stdin = some outcome ∧
      (outcome.code = 0 ↔ (load source).program ≠ none) := by
  refine ⟨.ofCheck source.name (load source), ?_, Outcome.ofCheck_code _ _⟩
  simp [commandLine, parsed, Command.execute, readable]

theorem dump_code {emit : Emit} (readable : read source.name = .ok source.text)
    (parsed : Command.parse? args = some (.dump source.name emit)) :
    ∃ outcome, commandLine args read stdin = some outcome ∧
      (outcome.code = 0 ↔ (load source).program ≠ none) := by
  refine ⟨.ofDump emit (load source), ?_, Outcome.ofDump_code _ _⟩
  simp [commandLine, parsed, Command.execute, readable]

end Commands

/-- Every report is coherent, and there is one unless the text loads and its run without a limit
never ends. A text that does not load asks nothing of the host. On a file that holds the text, the
command that runs it ends when the run does and succeeds if its report says so; the commands that
only load it always end, and they succeed unless a report says that loading failed. -/
theorem reports_are_coherent {σ : Type} [Host σ] (source : Source) (host : σ)
    (limit : Option Nat) :
    (∀ report left, runSource source host limit = some (report, left) →
      report.Coherent source limit ∧
      (report.exit = .loadFailed → left = host ∧
        runSource source ({ inner := host } : Recorded σ) limit =
          some (report, { inner := host, calls := [] }))) ∧
    (runSource source host limit = none ↔ limit = none ∧
      ∃ p, (load source).program = some p ∧
        ∀ n, ((Session.start p none host).after n).step.2 = .running) ∧
    ∀ args read stdin, read source.name = .ok source.text →
      (∀ bound, Command.parse? args = some (.run source.name bound) →
        (commandLine args read stdin).map (·.code == 0) =
          (runSource source (Terminal.ofBytes stdin) bound).map (·.1.success)) ∧
      ((Command.parse? args = some (.check source.name) ∨
          ∃ emit, Command.parse? args = some (.dump source.name emit)) →
        ∃ outcome, commandLine args read stdin = some outcome ∧
          (outcome.code = 0 ↔ ∀ report left, runSource source host limit = some (report, left) →
            report.exit ≠ .loadFailed)) := by
  refine ⟨?_, runSource_none, ?_⟩
  · intro report left reported
    refine ⟨runSource_coherent reported, ?_⟩
    intro failed
    have missing := (loadFailed_iff reported).mp failed
    rw [runSource_failed missing] at reported
    cases reported
    exact ⟨rfl, runSource_failed missing _ limit⟩
  · intro args read stdin readable
    refine ⟨fun bound parsed => run_code stdin readable parsed, ?_⟩
    intro parsed
    have loads : (load source).program ≠ none ↔
        ∀ report left, runSource source host limit = some (report, left) →
          report.exit ≠ .loadFailed := by
      constructor
      · intro found report left reported
        exact mt (loadFailed_iff reported).mp found
      · intro reports missing
        exact reports _ _ (runSource_failed missing host limit) rfl
    rw [← loads]
    rcases parsed with checks | ⟨emit, dumps⟩
    · exact check_code stdin readable checks
    · exact dump_code stdin readable dumps

def circling : Program := ⟨#[{ opcode := .jmp, line := 1 }]⟩

theorem circling_runs (n : Nat) :
    (Session.start circling none ({} : Console)).after n =
      ⟨{ Machine.start circling none with steps := n }, {}⟩ := by
  induction n with
  | zero => rfl
  | succ n ih =>
    change ((Session.start circling none ({} : Console)).after n).step.1 = _
    rw [ih]
    rfl

def unwound : Program := ⟨#[{ opcode := .add, int := 1, line := 1 }]⟩

theorem endings_coherent :
    let crash : Crash := ⟨.emptyWheel, 0, { opcode := .add, int := 1, line := 1 }⟩
    (∃ report, runSource ⟨"a", "FOO"⟩ ({ input := ["7"] } : Console) none =
        some (report, { input := ["7"] }) ∧ report.exit = .loadFailed ∧ report.success = false ∧
        report.steps = 0 ∧ report.fingerprint = none) ∧
      (∃ outcome, commandLine ["check", "a"] (fun _ => .ok "FOO") [] = some outcome ∧
        outcome.code ≠ 0) ∧
      (∃ outcome, commandLine ["dump", "--emit=json", "a"] (fun _ => .ok "FOO") [] = some outcome ∧
        outcome.code ≠ 0) ∧
      runSource ⟨"a", "JMP 0"⟩ ({} : Console) none = none ∧
      (∃ report left, runSource ⟨"a", "JMP 0"⟩ ({} : Console) (some 2) = some (report, left) ∧
        report.exit = .stepLimit ∧ report.steps = 2) ∧
      (commandLine ["run", "a", "--step-limit", "2"] (fun _ => .ok "JMP 0") []).map (·.code == 0) =
        some false ∧
      ∃ report left, runSource ⟨"a", "ADD 1"⟩ ({} : Console) none = some (report, left) ∧
        report.crash = some crash ∧ report.error = some crash.display := by
  have missing : (load ⟨"a", "FOO"⟩).program = none := by with_unfolding_all rfl
  have jumps : (load ⟨"a", "JMP 0"⟩).program = some circling := by with_unfolding_all rfl
  have adds : (load ⟨"a", "ADD 1"⟩).program = some unwound := by with_unfolding_all rfl
  have checks : Command.parse? ["check", "a"] = some (.check "a") := by with_unfolding_all rfl
  have dumps : Command.parse? ["dump", "--emit=json", "a"] = some (.dump "a" .json) := by
    with_unfolding_all rfl
  have runs : Command.parse? ["run", "a", "--step-limit", "2"] = some (.run "a" (some 2)) := by
    with_unfolding_all rfl
  have stopped : ∀ {σ : Type} [Host σ] (host : σ),
      (Session.start circling (some 2) host).Finishes
        ((Session.start circling (some 2) host).after 2) (.error (.stepLimit 2)) :=
    fun host => ⟨3, rfl⟩
  have fails : (Session.start unwound none ({} : Console)).Finishes
      ((Session.start unwound none ({} : Console)).after 1)
      (.error (.fatal ⟨.emptyWheel, 0, { opcode := .add, int := 1, line := 1 }⟩)) := ⟨1, rfl⟩
  intro crash
  obtain ⟨reports, _, commands⟩ :=
    reports_are_coherent ⟨"a", "FOO"⟩ ({ input := ["7"] } : Console) none
  have refused := runSource_failed missing ({ input := ["7"] } : Console) none
  obtain ⟨coherent, _⟩ := reports _ _ refused
  obtain ⟨outcome, checked, code⟩ :=
    (commands ["check", "a"] (fun _ => .ok "FOO") [] rfl).2 (.inl checks)
  obtain ⟨outcome', dumped, code'⟩ :=
    (commands ["dump", "--emit=json", "a"] (fun _ => .ok "FOO") [] rfl).2 (.inr ⟨.json, dumps⟩)
  have endless := (reports_are_coherent ⟨"a", "JMP 0"⟩ ({} : Console) none).2.1.mpr
    ⟨rfl, circling, jumps, fun n => by rw [circling_runs]; rfl⟩
  obtain ⟨limited, _, commands'⟩ := reports_are_coherent ⟨"a", "JMP 0"⟩ ({} : Console) (some 2)
  have spent := runSource_loaded jumps ({} : Console) (some 2)
  rw [(stopped ({} : Console)).run, Option.map_some] at spent
  have run := (commands' ["run", "a", "--step-limit", "2"] (fun _ => .ok "JMP 0") [] rfl).1
    (some 2) runs
  rw [runSource_loaded jumps, (stopped (Terminal.ofBytes [])).run] at run
  have failed := runSource_loaded adds ({} : Console) none
  rw [fails.run, Option.map_some] at failed
  have told := ((reports_are_coherent ⟨"a", "ADD 1"⟩ ({} : Console) none).1 _ _ failed).1
  refine ⟨⟨_, refused, rfl, rfl, coherent.idle rfl, coherent.fingerprint.mpr rfl⟩,
    ⟨outcome, checked, ?_⟩, ⟨outcome', dumped, ?_⟩, endless, ⟨_, _, spent, rfl, ?_⟩, run, _, _,
    failed, rfl, told.crashError crash rfl⟩
  · intro succeeds
    exact code.mp succeeds _ _ refused rfl
  · intro succeeds
    exact code'.mp succeeds _ _ refused rfl
  · exact (Option.some.inj ((limited _ _ spent).1.spent rfl)).symm

end Wheelwork
