import Wheelwork.Proofs.Recovery

/-!
Programs that only go forward. With no call and no change of direction, and with jumps and handlers
that land at a later index of the program, every step that goes on moves the cursor on. The distance
to the end of the program therefore bounds the run, whatever the host does.
-/
namespace Wheelwork

/-- Nothing in the program sends the cursor back or around. -/
structure Program.ForwardOnly (p : Program) : Prop where
  uncalled : ∀ i ∈ p.instructions, i.opcode ≠ .call
  unturned : ∀ i ∈ p.instructions, i.opcode ≠ .whldirc
  jumps : ∀ index i, p.get? index = some i → i.opcode = .jmp ∨ i.opcode = .jiz →
    0 < i.int.toInt ∧ i.int.toInt < (p.size : Int) - index
  /-- The steps of a handler count from the instruction before it. -/
  handlers : ∀ index i, p.get? index = some i → i.opcode = .errh → 1 ≤ index →
    0 < i.int.toInt ∧ i.int.toInt < (p.size : Int) - (index - 1)

namespace Machine

structure Forward (p : Program) (m : Machine) : Prop where
  program : m.program = p
  direction : m.direction = .forward
  calls : m.calls = []

variable {p : Program} {m m' : Machine} {i handler : Instruction}

theorem relative_forward (direction : m.direction = .forward) {steps : Int64}
    (positive : 0 < steps.toInt) (inside : steps.toInt < (m.program.size : Int) - m.cursor) :
    (m.relative steps : Int) = m.cursor + steps.toInt := by
  have distance : Ring.displacement m.direction steps = steps.toInt := by
    simp [Ring.displacement, direction, Direction.sign]
  have whole : ((m.cursor : Int) + steps.toInt) % (m.program.size : Int) =
      m.cursor + steps.toInt := Int.emod_eq_of_lt (by omega) (by omega)
  simp only [relative, Ring.index, distance, whole]
  omega

theorem afterReturn_gt {target : Nat} (closed : m.afterReturn? = some target) :
    m.cursor < target := by
  simp only [afterReturn?, Option.map_eq_some_iff] at closed
  obtain ⟨offset, _, rfl⟩ := closed
  omega

theorem landing_gt (onward : m.program.ForwardOnly) (direction : m.direction = .forward)
    (next : m.program.get? (m.cursor + 1) = some handler) (op : handler.opcode = .errh)
    (kind : FaultKind) : m.cursor < m.landing handler kind := by
  unfold landing
  split
  · have bounds := onward.handlers _ _ next op (Nat.le_add_left 1 m.cursor)
    have lands := relative_forward direction bounds.1 (by omega)
    omega
  · omega

/-- A move through a forward-only program takes the cursor on, unless the instruction waits for the
host, ends the run or fails. -/
theorem Forward.move (forward : m.Forward p) (onward : p.ForwardOnly)
    (current : m.program.get? m.cursor = some i) (moved : Move m i m') :
    m'.Forward p ∧ (m.cursor < m'.cursor ∨
      (i.opcode ∈ Opcode.writers ∨ i.opcode ∈ [.ret, .inp]) ∨ ∃ cause q, m.Raises i cause q) := by
  obtain ⟨rfl, direction, idle⟩ := forward
  have member : i ∈ m.program.instructions := Array.mem_of_getElem? current
  cases moved with
  | stay op => exact ⟨⟨rfl, direction, idle⟩, .inr (.inl op)⟩
  | work => exact ⟨⟨rfl, direction, idle⟩, .inl (Nat.lt_succ_self m.cursor)⟩
  | jump op =>
    have bounds := onward.jumps _ _ current (op.imp_right And.left)
    have lands := relative_forward direction bounds.1 bounds.2
    have later : m.cursor < m.relative i.int := by omega
    exact ⟨⟨rfl, direction, idle⟩, .inl later⟩
  | skip _ closed => exact ⟨⟨rfl, direction, idle⟩, .inl (afterReturn_gt closed)⟩
  | crash raised => exact ⟨⟨rfl, direction, idle⟩, .inr (.inr ⟨_, _, raised⟩)⟩
  | recover raised => exact ⟨⟨rfl, direction, idle⟩, .inr (.inr ⟨_, _, raised⟩)⟩
  | miss _ _ _ next handles =>
    exact ⟨⟨rfl, direction, idle⟩, .inl (landing_gt onward direction next handles _)⟩
  | leave _ pending => simp [idle] at pending
  | steer op => exact absurd op (onward.unturned i member)
  | enter op => exact absurd op (onward.uncalled i member)

theorem Forward.counted (forward : m.Forward p) : m.counted.Forward p :=
  ⟨forward.program, forward.direction, forward.calls⟩

theorem inside_of_running (going : m.progress = .running) : m.cursor < m.program.size := by
  unfold progress at going
  split at going
  · simp at going
  · rename_i within
    simpa [atEnd] using within

theorem asks_of_opcode (op : i.opcode ∈ Opcode.writers ∨ i.opcode = .inp)
    (sound : ∀ crash m', m.perform i ≠ .fault crash m') : (m.perform i).Asks := by
  have asks : (m.perform i).Asks ∨ ∃ cause, m.perform i = m.fail i cause := by
    simp only [Opcode.writers, List.mem_cons, List.not_mem_nil, or_false] at op
    rcases op with (op | op | op | op) | op
    · simp only [perform, op, out]
      split
      · exact .inl trivial
      · cases m.wheel.current with
        | ok v => exact .inl trivial
        | error cause => exact .inr ⟨cause, rfl⟩
    · simp only [perform, op]
      exact .inl trivial
    · simp only [perform, op]
      exact .inl trivial
    · simp only [perform, op]
      exact .inl trivial
    · simp only [perform, op]
      split
      · exact .inr ⟨_, rfl⟩
      · exact .inl trivial
  rcases asks with asks | ⟨cause, failed⟩
  · exact asks
  · exact absurd failed (sound _ _)

end Machine

namespace Session

variable {σ : Type} [Host σ] {s : Session σ} {p : Program} {i : Instruction}

theorem progress_of_running (going : s.step.2 = .running) :
    s.step.1.machine.progress = .running := by
  obtain ⟨m, h⟩ := s
  rw [step_mk] at going ⊢
  cases turned : m.turn with
  | go | pause =>
    simp only [turned] at going ⊢
    exact going
  | print lines m =>
    simp only [turned] at going ⊢
    split at going
    · exact going
    · simp at going
  | ask prompt i m =>
    simp only [turned] at going ⊢
    split at going
    · rename_i line _ _
      cases stored : m.answer i line with
      | ok m' =>
        rw [stored] at going
        exact going
      | error crash => simp [stored, Machine.settle] at going
    · simp at going
  | exit | fault | spent => simp [turned] at going

theorem step_served (onward : p.ForwardOnly) (forward : s.machine.Forward p)
    (asks : s.machine.turn.Asks) (going : s.step.2 = .running) :
    s.machine.cursor < s.step.1.machine.cursor := by
  obtain ⟨rfl, direction, _⟩ := forward
  rcases Machine.turn_waits asks with ⟨lines, turned⟩ | ⟨prompt, i, turned⟩
  · rcases step_print_cases turned with ⟨reason, _, _, failed⟩ | ⟨_, served, _⟩
    · simp [failed] at going
    · rw [served]
      exact Nat.lt_succ_self s.machine.cursor
  · rcases step_ask_cases turned with ⟨reason, _, _, failed⟩ | ⟨line, _, served, told⟩
    · simp [failed] at going
    · rw [served]
      cases stored : s.machine.counted.answer i line with
      | error crash => simp [told, stored, Machine.settle] at going
      | ok m' =>
        rcases Machine.answer_cases stored with rfl | ⟨cause, handler, _, next, handles, rfl⟩
        · exact Nat.lt_succ_self s.machine.cursor
        · exact Machine.landing_gt (m := s.machine.counted) onward direction next handles _

theorem step_returned (dispatches : s.machine.Dispatches i) (op : i.opcode = .ret)
    (idle : s.machine.calls = []) : s.step.2 = .finished .returned := by
  have performed : s.machine.counted.perform i = .exit .returned s.machine.counted := by
    have none : s.machine.counted.calls = [] := idle
    simp only [Machine.perform, op, Machine.ret, none]
  have turned := Machine.turn_of_dispatches dispatches
  rw [Machine.dispatch_sound (by simp [performed]), performed] at turned
  rw [show s = ⟨s.machine, s.host⟩ from rfl, step_mk, turned]

theorem step_past_fault {crash : Crash} (onward : p.ForwardOnly)
    (forward : s.machine.Forward p) (dispatches : s.machine.Dispatches i)
    (fails : s.Faults i crash) (going : s.step.2 = .running) :
    s.machine.cursor < s.step.1.machine.cursor := by
  by_cases guarded : ∃ handler, s.machine.program.get? (s.machine.cursor + 1) = some handler ∧
      handler.opcode = .errh
  · obtain ⟨handler, next, op⟩ := guarded
    obtain ⟨rfl, direction, _⟩ := forward
    obtain ⟨q, h, stepped⟩ := step_handled dispatches fails next op
    rw [stepped]
    exact Machine.landing_gt onward direction next op crash.cause.kind
  · have other : ∀ handler, s.machine.program.get? (s.machine.cursor + 1) = some handler →
        handler.opcode ≠ .errh := by
      intro handler next op
      exact guarded ⟨handler, next, op⟩
    obtain ⟨q, h, stepped⟩ := step_unhandled dispatches fails other
    simp [stepped] at going

theorem step_onward (onward : p.ForwardOnly) (forward : s.machine.Forward p)
    (going : s.step.2 = .running) : s.machine.cursor < s.step.1.machine.cursor := by
  obtain ⟨i, dispatches⟩ := dispatches_of_running going
  rcases Machine.perform_accounted s.machine.counted i with ⟨cause, q, raised⟩ | ⟨sound, _⟩
  · exact step_past_fault onward forward dispatches (.raised raised) going
  · rcases (forward.counted.move onward dispatches.1 (step_move dispatches)).2 with
      later | op | ⟨cause, q, raised⟩
    · exact later
    · -- What may stay has been served by the host, for a return would have ended the run.
      have served : i.opcode ∈ Opcode.writers ∨ i.opcode = .inp := by
        rcases op with writer | other
        · exact .inl writer
        · simp only [List.mem_cons, List.not_mem_nil, or_false] at other
          rcases other with ret | inp
          · simp [step_returned dispatches ret forward.calls] at going
          · exact .inr inp
      have asks : s.machine.turn.Asks := by
        rw [Machine.turn_of_dispatches dispatches, Machine.dispatch_sound sound]
        exact Machine.asks_of_opcode served sound
      exact step_served onward forward asks going
    · exact absurd raised (sound _ _)

theorem after_forward (onward : p.ForwardOnly) (forward : s.machine.Forward p) (n : Nat) :
    (s.after n).machine.Forward p :=
  after_keeps (fun dispatches moved forward => (forward.counted.move onward dispatches.1 moved).1)
    forward n

theorem runFor_forward (onward : p.ForwardOnly) (forward : s.machine.Forward p)
    (inside : s.machine.cursor < p.size) {fuel : Nat} (enough : p.size - s.machine.cursor ≤ fuel) :
    ∃ t result, s.runFor fuel = (t, some result) := by
  induction fuel generalizing s with
  | zero => omega
  | succ fuel ih =>
    cases told : s.step.2.result? with
    | some result => exact ⟨s.step.1, result, runFor_over fuel told⟩
    | none =>
      have going := Progress.running_of_result told
      have later := step_onward onward forward going
      have next : s.step.1.machine.Forward p := after_forward onward forward 1
      have within := Machine.inside_of_running (progress_of_running going)
      rw [next.program] at within
      rw [runFor_going fuel told]
      exact ih next within (by omega)

theorem start_ends (onward : p.ForwardOnly) (host : σ) :
    ∃ t result, (start p none host).runFor (max 1 p.size) = (t, some result) ∧
      t.machine.steps ≤ p.size := by
  by_cases empty : p.size = 0
  · have ended : (start p none host).machine.program.get? 0 = none :=
      Array.getElem?_eq_none (Nat.le_of_eq empty)
    have stepped := step_ended (s := start p none host) ended
    rw [empty, Nat.max_zero, runFor_over 0 (by rw [stepped]; rfl), stepped]
    exact ⟨_, _, rfl, Nat.zero_le 0⟩
  · rw [Nat.max_eq_right (Nat.pos_of_ne_zero empty)]
    obtain ⟨t, result, ends⟩ := runFor_forward (s := start p none host) onward ⟨rfl, rfl, rfl⟩
      (Nat.pos_of_ne_zero empty) (Nat.sub_le p.size 0)
    have few := (runFor_steps (start p none host) p.size).2
    rw [ends] at few
    exact ⟨t, result, ends, Nat.le_trans few (Nat.le_of_eq (Nat.zero_add p.size))⟩

/-- A forward-only program comes to an end without a limit, on every host: no more instructions are
dispatched than the program has, and every step that does not end the run moves the cursor on. -/
theorem forward_programs_end {p : Program} (onward : p.ForwardOnly) (host : σ) :
    (∃ t result, (start p none host).run = some (t, result) ∧ t.machine.steps ≤ p.size ∧
      ∀ limit, result ≠ .error (.stepLimit limit)) ∧
    ∀ n, ((start p none host).after n).step.2 = .running →
      ((start p none host).after n).machine.cursor <
        ((start p none host).after (n + 1)).machine.cursor := by
  constructor
  · obtain ⟨t, result, ends, few⟩ := start_ends onward host
    have finishes : (start p none host).Finishes t result := ⟨_, ends⟩
    exact ⟨t, result, finishes.run, few, finishes_unspent (s := start p none host) rfl finishes⟩
  · intro n going
    exact step_onward onward (after_forward onward ⟨rfl, rfl, rfl⟩ n) going

def winding : Program :=
  ⟨#[{ opcode := .movvw, int := 1 }, { opcode := .errh, int := 2 }, { opcode := .jiz, int := 2 },
    { opcode := .out, text := "unreached" }, { opcode := .define, text := "f" }, { opcode := .ret },
    { opcode := .movvw, int := 1 }, { opcode := .errh, int := 4, text := "DIVISION_BY_ZERO" },
    { opcode := .jmp, int := 2 }, { opcode := .out, text := "unreached" },
    { opcode := .out, text := "end" }]⟩

theorem winding_ends :
    winding.ForwardOnly ∧ ∃ t, (start winding none ({} : Console)).run = some (t, .ok .endOfStream) ∧
      t.machine.steps = 6 ∧ t.machine.steps ≤ winding.size := by
  have onward : winding.ForwardOnly := by
    refine ⟨by simp [winding], by simp [winding], ?_, ?_⟩
    · intro index i found
      have inside : index < 11 := Program.lt_of_get found
      interval_cases index <;> cases found <;> decide
    · intro index i found
      have inside : index < 11 := Program.lt_of_get found
      interval_cases index <;> cases found <;> decide
  obtain ⟨⟨t, result, ran, few, _⟩, _⟩ := forward_programs_end onward ({} : Console)
  have known : (start winding none ({} : Console)).Finishes
      ((start winding none {}).runFor 6).1 (.ok .endOfStream) := finishes_of_exit (by decide +kernel)
  have steps : ((start winding none ({} : Console)).runFor 6).1.machine.steps = 6 := by
    decide +kernel
  obtain ⟨same, ended⟩ := (run_eq_some_iff.mp ran).unique known
  rw [← same] at steps
  exact ⟨onward, t, ended ▸ ran, steps, few⟩

end Session
end Wheelwork
