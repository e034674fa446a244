import Wheelwork.Proofs.Budget

/-!
Hosts that refuse a line. Lines are written and read before anything else is done, and which lines
these are does not depend on the number of instructions dispatched so far. So a refused step has
been counted and no more, and it can be taken again, however often the host has refused it.
-/
namespace Wheelwork

def Effect.Asks : Effect → Prop
  | .print _ _ | .ask _ _ _ => True
  | .go _ | .pause _ _ | .exit _ _ | .fault _ _ | .spent _ _ => False

/-- The host refuses what it is asked for, for this reason. -/
inductive Effect.Refused {σ : Type} [Host σ] (h : σ) (reason : HostError) : Effect → Prop where
  | print {lines : List String} (m : Machine)
      (unwritten : (Host.writeLines lines h).1 = .error reason) : Refused h reason (.print lines m)
  | ask {prompt : Option String} (i : Instruction) (m : Machine)
      (unread : (Host.askLine prompt h).1 = .error reason) : Refused h reason (.ask prompt i m)

theorem Machine.progress_not_failed (m : Machine) (error : RunError) :
    m.progress ≠ .failed error := by
  unfold progress
  split <;> simp

theorem Machine.settle_not_refused (m : Machine) (result : Except Crash Machine)
    (reason : HostError) : (m.settle result).2 ≠ .failed (.host reason) := by
  cases result with
  | ok m' => exact m'.progress_not_failed _
  | error crash => simp [settle]

namespace Machine

variable {m : Machine} {i : Instruction}

def idled (m : Machine) (count : Nat) : Machine := { m with steps := m.steps + count }

theorem counted_idled (m : Machine) (count : Nat) :
    (m.idled count).counted = m.counted.idled count := by
  simp only [idled, counted, Nat.add_right_comm]

theorem store_asks_nothing (m : Machine) (i : Instruction) (result : Except Fault Value) :
    ¬ (m.store i result).Asks := by
  intro asks
  unfold store at asks
  split at asks
  · exact asks
  · split at asks <;> exact asks

theorem call_asks_nothing (m : Machine) (i : Instruction) : ¬ (m.call i).Asks := by
  intro asks
  unfold call at asks
  split at asks
  · exact asks
  · simp only at asks
    split at asks
    · exact asks
    · split at asks <;> exact asks

theorem delay_asks_nothing (m : Machine) (i : Instruction) : ¬ (m.delay i).Asks := by
  intro asks
  unfold delay at asks
  split at asks
  · split at asks <;> exact asks
  · exact asks

theorem opcode_of_asks (asks : (m.perform i).Asks) :
    i.opcode ∈ Opcode.writers ∨ i.opcode = .inp := by
  unfold perform at asks
  cases op : i.opcode with
  | out | argview | dbgprintv | dbgprintc => simp [Opcode.writers]
  | inp => exact .inr rfl
  | newv | jmp | jiz | errh =>
    simp only [op] at asks
    exact asks.elim
  | movvw =>
    simp only [op, withWheel] at asks
    split at asks <;> exact asks.elim
  | whldirv | whldirc | addarg | define =>
    simp only [op] at asks
    split at asks <;> exact asks.elim
  | cmp =>
    simp only [op, cmp] at asks
    split at asks <;> exact asks.elim
  | add | sub | mul | div =>
    simp only [op] at asks
    exact absurd asks (store_asks_nothing _ _ _)
  | call =>
    simp only [op] at asks
    exact absurd asks (call_asks_nothing m i)
  | ret =>
    simp only [op, ret] at asks
    split at asks <;> exact asks.elim
  | del =>
    simp only [op] at asks
    exact absurd asks (delay_asks_nothing m i)

theorem perform_idled (asks : (m.perform i).Asks) (count : Nat) :
    (m.idled count).perform i = (m.perform i).map fun _ => m.idled count := by
  rcases opcode_of_asks asks with writer | op
  · simp only [Opcode.writers, List.mem_cons, List.not_mem_nil, or_false] at writer
    rcases writer with op | op | op | op
    · have wheel : (m.idled count).wheel = m.wheel := rfl
      simp only [perform, op, out, wheel] at asks ⊢
      split
      · rfl
      · cases under : m.wheel.current with
        | ok v => rfl
        | error cause =>
          rename_i plain
          simp only [plain, under] at asks
          exact asks.elim
    · simp only [perform, op]
      rfl
    · simp only [perform, op]
      rfl
    · simp only [perform, op]
      rfl
  · have wheel : (m.idled count).wheel = m.wheel := rfl
    simp only [perform, op, wheel] at asks ⊢
    split
    · rename_i empty
      simp only [empty] at asks
      exact asks.elim
    · rfl

theorem turn_of_asks (asks : m.turn.Asks) :
    ∃ i, m.Dispatches i ∧ m.turn = m.counted.perform i := by
  by_cases busy : ∃ i, m.Dispatches i
  · obtain ⟨i, dispatches⟩ := busy
    refine ⟨i, dispatches, ?_⟩
    rw [turn_of_dispatches dispatches] at asks ⊢
    rcases perform_accounted m.counted i with ⟨cause, q, raised⟩ | ⟨sound, _⟩
    · rw [dispatch_raised raised] at asks
      rcases recover_cases (m.counted.requeue q) ⟨cause, m.cursor, i⟩ with
        fatal | ⟨handler, _, _, handled⟩
      · rw [fatal] at asks
        exact asks.elim
      · rw [handled] at asks
        exact asks.elim
    · exact dispatch_sound sound
  · rcases turn_idle (not_exists.mp busy) with ended | ⟨limit, spent⟩
    · rw [ended] at asks
      exact asks.elim
    · rw [spent] at asks
      exact asks.elim

/-- A turn that asks for lines asks for the same after steps that were counted only, as long as
the limit is not reached. -/
theorem turn_idled (asks : m.turn.Asks) (count : Nat)
    (room : ∀ limit, m.limit = some limit → (m.idled count).steps < limit) :
    (m.idled count).turn = m.turn.map fun _ => m.counted.idled count := by
  obtain ⟨i, dispatches, turned⟩ := turn_of_asks asks
  have again : (m.idled count).Dispatches i := ⟨dispatches.1, room⟩
  rw [turned] at asks ⊢
  have performed := perform_idled asks count
  have sound : ∀ crash m', (m.counted.idled count).perform i ≠ .fault crash m' := by
    intro crash m' failed
    rw [performed] at failed
    cases given : m.counted.perform i with
    | print | ask => simp [given, Effect.map] at failed
    | go | pause | exit | fault | spent => simp [given, Effect.Asks] at asks
  rw [← counted_idled] at sound
  rw [turn_of_dispatches again, dispatch_sound sound, counted_idled]
  exact performed

theorem settle_idled (m : Machine) (i : Instruction) (line : String) (count : Nat) :
    ((m.idled count).settle ((m.idled count).answer i line)).1 =
        (m.settle (m.answer i line)).1.idled count ∧
      ((m.idled count).settle ((m.idled count).answer i line)).2 =
        (m.settle (m.answer i line)).2 := by
  have wheel : (m.idled count).wheel = m.wheel := rfl
  simp only [answer, wheel]
  cases m.wheel.setCurrent (.ofInput line) with
  | ok w => exact ⟨rfl, rfl⟩
  | error cause =>
    have program : (m.idled count).program.get? ((m.idled count).cursor + 1) =
        m.program.get? (m.cursor + 1) := rfl
    simp only [recover, program]
    cases m.program.get? (m.cursor + 1) with
    | none => exact ⟨rfl, rfl⟩
    | some handler =>
      simp only
      split
      · exact ⟨rfl, rfl⟩
      · split <;> exact ⟨rfl, rfl⟩

theorem turn_waits (asks : m.turn.Asks) :
    (∃ lines, m.turn = .print lines m.counted) ∨
      ∃ prompt i, m.turn = .ask prompt i m.counted := by
  obtain ⟨i, dispatches, _⟩ := turn_of_asks asks
  have waits : m.turn = m.turn.map fun _ => m.counted := turn_idled asks 0 dispatches.2
  cases turned : m.turn with
  | print lines m' =>
    rw [turned] at waits
    exact .inl ⟨lines, waits⟩
  | ask prompt i m' =>
    rw [turned] at waits
    exact .inr ⟨prompt, i, waits⟩
  | go | pause | exit | fault | spent => simp [turned, Effect.Asks] at asks

end Machine

namespace Session

variable {σ : Type} [Host σ] {s : Session σ} {m : Machine} {reason : HostError}

theorem step_print_cases {lines : List String} (turned : s.machine.turn = .print lines m) :
    (∃ reason, (Host.writeLines lines s.host).1 = .error reason ∧ s.step.1.machine = m ∧
      s.step.2 = .failed (.host reason)) ∨
    (Host.writeLines lines s.host).1 = .ok () ∧ s.step.1.machine = m.advance ∧
      s.step.2 = m.advance.progress := by
  obtain ⟨m, h⟩ := s
  simp only at turned
  simp only [step_mk, turned]
  rcases Host.writeLines lines h with ⟨reason | done, h'⟩
  · exact .inl ⟨reason, rfl, rfl, rfl⟩
  · exact .inr ⟨rfl, rfl, rfl⟩

theorem step_ask_cases {prompt : Option String} {i : Instruction}
    (turned : s.machine.turn = .ask prompt i m) :
    (∃ reason, (Host.askLine prompt s.host).1 = .error reason ∧ s.step.1.machine = m ∧
      s.step.2 = .failed (.host reason)) ∨
    ∃ line, (Host.askLine prompt s.host).1 = .ok line ∧
      s.step.1.machine = (m.settle (m.answer i line)).1 ∧
      s.step.2 = (m.settle (m.answer i line)).2 := by
  obtain ⟨m, h⟩ := s
  simp only at turned
  simp only [step_mk, turned]
  rcases Host.askLine prompt h with ⟨reason | line, h'⟩
  · exact .inl ⟨reason, rfl, rfl, rfl⟩
  · exact .inr ⟨line, rfl, rfl, rfl⟩

theorem step_refused (refused : s.machine.turn.Refused s.host reason) :
    s.step.2 = .failed (.host reason) := by
  generalize turned : s.machine.turn = effect at refused
  cases refused with
  | print m unwritten =>
    rcases step_print_cases turned with ⟨other, same, _, failed⟩ | ⟨written, _⟩
    · rw [unwritten, Except.error.injEq] at same
      rw [failed, same]
    · simp [unwritten] at written
  | ask i m unread =>
    rcases step_ask_cases turned with ⟨other, same, _, failed⟩ | ⟨line, read, _⟩
    · rw [unread, Except.error.injEq] at same
      rw [failed, same]
    · simp [unread] at read

theorem asks_of_failed (failed : s.step.2 = .failed (.host reason)) : s.machine.turn.Asks := by
  rw [show s = ⟨s.machine, s.host⟩ from rfl, step_mk] at failed
  cases turned : s.machine.turn with
  | print | ask => trivial
  | go m =>
    simp only [turned] at failed
    exact absurd failed (m.progress_not_failed _)
  | pause millis m =>
    simp only [turned] at failed
    exact absurd failed (m.advance.progress_not_failed _)
  | exit | fault | spent => simp [turned] at failed

theorem step_failed (failed : s.step.2 = .failed (.host reason)) :
    s.step.1.machine = s.machine.counted := by
  rcases Machine.turn_waits (asks_of_failed failed) with ⟨lines, turned⟩ | ⟨prompt, i, turned⟩
  · rcases step_print_cases turned with ⟨_, _, stays, _⟩ | ⟨_, _, served⟩
    · exact stays
    · exact absurd (served.symm.trans failed) (Machine.progress_not_failed _ _)
  · rcases step_ask_cases turned with ⟨_, _, stays, _⟩ | ⟨line, _, _, served⟩
    · exact stays
    · exact absurd (served.symm.trans failed) (Machine.settle_not_refused _ _ _)

theorem after_failed {n : Nat}
    (failed : ∀ k < n, ∃ reason, (s.after k).step.2 = .failed (.host reason)) :
    (s.after n).machine = s.machine.idled n := by
  induction n with
  | zero => rfl
  | succ n ih =>
    obtain ⟨reason, last⟩ := failed n (Nat.lt_succ_self n)
    have before := ih fun k earlier => failed k (Nat.lt_succ_of_lt earlier)
    change (s.after n).step.1.machine = _
    rw [step_failed last, before]
    rfl

/-- A step that the host refuses leaves the machine as it was, but for the count of its steps. After
any number of refusals, if steps are left, a host that serves the machine takes it where a host that
never refused would have taken it in the first place, given the same line where one is read. -/
theorem refused_steps_can_be_retried (s : Session σ) :
    (∀ reason, s.step.2 = .failed (.host reason) →
      s.step.1.machine = { s.machine with steps := s.machine.steps + 1 }) ∧
    ∀ n, (∀ k ≤ n, ∃ reason, (s.after k).step.2 = .failed (.host reason)) →
      (∀ limit, s.machine.limit = some limit → (s.after (n + 1)).machine.steps < limit) →
      ∀ {τ υ : Type} [Host τ] [Host υ] (working : τ) (unfailing : υ),
        let again := (⟨(s.after (n + 1)).machine, working⟩ : Session τ).step
        let once := (⟨s.machine, unfailing⟩ : Session υ).step
        (∀ reason, again.2 ≠ .failed (.host reason)) →
        (∀ reason, once.2 ≠ .failed (.host reason)) →
        (∀ prompt i m, s.machine.turn = .ask prompt i m →
          (Host.askLine prompt working).1 = (Host.askLine prompt unfailing).1) →
        again.1.machine = { once.1.machine with steps := once.1.machine.steps + (n + 1) } ∧
          again.2 = once.2 := by
  refine ⟨fun reason failed => step_failed failed, ?_⟩
  intro n failed room τ υ _ _ working unfailing again once served unrefused sameLine
  obtain ⟨reason, first⟩ := failed 0 (Nat.zero_le n)
  have asks : s.machine.turn.Asks := asks_of_failed first
  have idled : (s.after (n + 1)).machine = s.machine.idled (n + 1) :=
    after_failed fun k earlier => failed k (Nat.le_of_lt_succ earlier)
  rw [idled] at room
  have turned := Machine.turn_idled asks (n + 1) room
  rw [← idled] at turned
  rcases Machine.turn_waits asks with ⟨lines, given⟩ | ⟨prompt, i, given⟩
  · rw [given] at turned
    rcases step_print_cases (s := ⟨_, working⟩) turned with ⟨r, _, _, bad⟩ | ⟨_, here, result⟩
    · exact absurd bad (served r)
    · rcases step_print_cases (s := ⟨_, unfailing⟩) given with ⟨r, _, _, bad⟩ | ⟨_, there, result'⟩
      · exact absurd bad (unrefused r)
      · exact ⟨by rw [here, there]; rfl, by rw [result, result']; rfl⟩
  · rw [given] at turned
    have same := sameLine prompt i _ given
    rcases step_ask_cases (s := ⟨_, working⟩) turned with ⟨r, _, _, bad⟩ | ⟨line, read, here, result⟩
    · exact absurd bad (served r)
    · rcases step_ask_cases (s := ⟨_, unfailing⟩) given with
        ⟨r, _, _, bad⟩ | ⟨line', read', there, result'⟩
      · exact absurd bad (unrefused r)
      · obtain rfl : line = line' := by
          have lines : Except.ok line = Except.ok line' := read.symm.trans (same.trans read')
          exact Except.ok.inj lines
        obtain ⟨machine, progress⟩ := Machine.settle_idled s.machine.counted i line (n + 1)
        exact ⟨by rw [here, there]; exact machine, by rw [result, result']; exact progress⟩

def asking : Program :=
  ⟨#[{ opcode := .newv, int := 1 }, { opcode := .inp, text := "name?" }]⟩

def deaf : Rationed Console := { inner := { input := ["7"] }, reads := some 0 }

def unanswered : Session (Rationed Console) := (start asking (some 4) deaf).after 1

theorem unanswered_retried :
    let again := (⟨(unanswered.after 2).machine,
      ({ (unanswered.after 2).host with reads := none } : Rationed Console)⟩ : Session _).step
    let once := (⟨unanswered.machine, ({ input := ["7"] } : Console)⟩ : Session _).step
    unanswered.step.2 = .failed (.host ⟨"read refused"⟩) ∧
      unanswered.step.1.machine = { unanswered.machine with steps := 2 } ∧
      (unanswered.after 2).host.inner.output = #["name?", "name?"] ∧
      again.1.machine = { once.1.machine with steps := once.1.machine.steps + 2 } ∧
      again.2 = once.2 ∧ once.1.machine.wheel.values = #[.integer 7] := by
  intro again once
  have first : unanswered.step.2 = .failed (.host ⟨"read refused"⟩) := rfl
  have second : (unanswered.after 1).step.2 = .failed (.host ⟨"read refused"⟩) := rfl
  have failed : ∀ k ≤ 1, ∃ reason, (unanswered.after k).step.2 = .failed (.host reason) := by
    intro k early
    rcases Nat.le_one_iff_eq_zero_or_eq_one.mp early with rfl | rfl
    · exact ⟨_, first⟩
    · exact ⟨_, second⟩
  have room : ∀ limit, unanswered.machine.limit = some limit →
      (unanswered.after 2).machine.steps < limit := by
    intro limit bound
    obtain rfl : 4 = limit := Option.some.inj bound
    decide
  have served : again.2 = .finished .endOfStream := by with_unfolding_all rfl
  have unrefused : once.2 = .finished .endOfStream := by with_unfolding_all rfl
  obtain ⟨stays, retried⟩ := refused_steps_can_be_retried unanswered
  have led := retried 1 failed room
    ({ (unanswered.after 2).host with reads := none } : Rationed Console)
    ({ input := ["7"] } : Console) (fun _ bad => by cases served.symm.trans bad)
    (fun _ bad => by cases unrefused.symm.trans bad)
    (by
      intro prompt i m turned
      obtain ⟨rfl, _⟩ := Effect.ask.inj turned
      rfl)
  exact ⟨first, stays _ first, rfl, led.1, led.2, by with_unfolding_all rfl⟩

end Session
end Wheelwork
