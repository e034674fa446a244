import Wheelwork.Proofs.Hosts
import Wheelwork.Proofs.Recasting

/-!
The fraction and the source line of an instruction are carried along and never read. `bare` takes
both away from a program; every turn of the machine commutes with it, so programs that are the same
without them take a machine the same way. A crash still tells the line.
-/
namespace Wheelwork

namespace Instruction

def bare (i : Instruction) : Instruction := { i with float := 0, line := 0 }

theorem bare_eq_iff {i j : Instruction} : i.bare = j.bare ↔ i.Alike j := by
  constructor
  · intro same
    simp only [bare, mk.injEq, true_and] at same
    exact ⟨same.1, same.2.1, same.2.2.1, same.2.2.2.1⟩
  · rintro ⟨opcode, int, text, args⟩
    simp only [bare, opcode, int, text, args]

end Instruction

namespace Program

/-- Programs of the same instructions, whatever the fractions and the source lines. -/
structure Alike (p q : Program) : Prop where
  size : p.size = q.size
  each : ∀ {n i j}, p.get? n = some i → q.get? n = some j → i.Alike j

def bare (p : Program) : Program := ⟨p.instructions.map Instruction.bare⟩

theorem get_bare (p : Program) (n : Nat) : p.bare.get? n = (p.get? n).map Instruction.bare := by
  simp [get?, bare]

theorem size_bare (p : Program) : p.bare.size = p.size := by simp [size, bare]

theorem handler_bare (p : Program) (n : Nat) : p.bare.handler? n = p.handler? n := by
  simp only [handler?, get_bare]
  cases p.get? n with
  | none => rfl
  | some i => rfl

theorem Alike.bare_eq {p q : Program} (alike : p.Alike q) : p.bare = q.bare := by
  have arrays : p.instructions.map Instruction.bare = q.instructions.map Instruction.bare := by
    apply map_eq alike.size
    intro n i j one other
    exact Instruction.bare_eq_iff.mpr (alike.each one other)
  exact congrArg Program.mk arrays

theorem functions_bare (p : Program) : FunctionTable.ofProgram p.bare = .ofProgram p := by
  simp only [FunctionTable.ofProgram, bare, Array.toList_map, List.zipIdx_map, List.foldl_map]
  rfl

end Program

def Recast.bare : Recast := { program := Program.bare, instruction := Instruction.bare }

namespace Machine

variable (m : Machine) (i : Instruction)

theorem start_bare (p : Program) (limit : Option Nat) :
    start p.bare limit = (start p limit).recast .bare := by
  simp [start, recast, Recast.bare, Program.functions_bare]

theorem afterReturn_bare : (m.recast .bare).afterReturn? = m.afterReturn? := by
  simp only [afterReturn?, recast, Recast.bare, Program.bare, Array.toList_map, ← List.map_drop,
    List.findIdx?_map]
  rfl

theorem renderProgram_bare : (m.recast .bare).renderProgram = m.renderProgram := by
  simp only [renderProgram, recast, Recast.bare, Program.bare, Array.toList_map, List.map_map]
  rfl

theorem dispatch_bare : (m.recast .bare).dispatch i.bare = (m.dispatch i).recast .bare :=
  dispatch_recast (r := .bare) m ⟨rfl, rfl, rfl, rfl⟩ (Program.size_bare m.program)
    (afterReturn_bare m) (fun _ => renderProgram_bare m) (Program.handler_bare m.program _)

theorem turn_bare : (m.recast .bare).turn = m.turn.recast .bare := by
  have program : (m.recast .bare).program = m.program.bare := rfl
  have cursor : (m.recast .bare).cursor = m.cursor := rfl
  have limit : (m.recast .bare).limit = m.limit := rfl
  have steps : (m.recast .bare).steps = m.steps := rfl
  simp only [turn, program, cursor, limit, steps, Program.get_bare]
  cases m.program.get? m.cursor with
  | none => rfl
  | some i =>
    simp only [Option.map_some]
    cases m.limit with
    | none => exact dispatch_bare m i
    | some limit =>
      simp only
      split
      · rfl
      · exact dispatch_bare m i

structure Alike (m m' : Machine) : Prop where
  functions : m.functions = m'.functions
  limit : m.limit = m'.limit
  cursor : m.cursor = m'.cursor
  direction : m.direction = m'.direction
  frames : m.frames = m'.frames
  calls : m.calls = m'.calls
  queue : m.queue = m'.queue
  steps : m.steps = m'.steps

theorem alike_of_bare {m m' : Machine} (same : m.recast .bare = m'.recast .bare) : m.Alike m' := by
  simp only [recast, mk.injEq] at same
  obtain ⟨_, functions, limit, cursor, direction, frames, calls, queue, steps⟩ := same
  exact ⟨functions, limit, cursor, direction, frames, calls, queue, steps⟩

end Machine

namespace Progress

def Alike : Progress → Progress → Prop
  | .failed (.fatal c), .failed (.fatal d) =>
    c.cause = d.cause ∧ c.cursor = d.cursor ∧ c.instruction.Alike d.instruction
  | p, q => p = q

theorem alike_of_bare {p q : Progress} (same : p.recast .bare = q.recast .bare) : p.Alike q := by
  rcases p with _ | exit | ⟨c | limit | e⟩ <;> rcases q with _ | exit' | ⟨d | limit' | e'⟩ <;>
    simp_all [recast, Alike, Crash.recast, Recast.bare, Instruction.bare_eq_iff]

end Progress

inductive HostCall where
  | write (line : String)
  | read
  | sleep (millis : Nat)

/-- A host that takes down what it is asked to do. -/
structure Recorded (σ : Type) where
  inner : σ
  calls : List HostCall := []

instance {σ : Type} [Host σ] : Host (Recorded σ) where
  writeLine line r :=
    let (result, inner) := Host.writeLine line r.inner
    (result, ⟨inner, r.calls ++ [.write line]⟩)
  readLine r :=
    let (result, inner) := Host.readLine r.inner
    (result, ⟨inner, r.calls ++ [.read]⟩)
  sleep millis r := ⟨Host.sleep millis r.inner, r.calls ++ [.sleep millis]⟩

theorem recorded_matches {σ τ : Type} [Host σ] [Host τ] {R : σ → τ → Prop}
    (alike : Host.Matches R) :
    Host.Matches fun (h : Recorded σ) (k : Recorded τ) => h.calls = k.calls ∧ R h.inner k.inner := by
  constructor
  · rintro h k ⟨calls, inner⟩ line
    obtain ⟨same, next⟩ := alike.write inner line
    exact ⟨same, congrArg (· ++ [.write line]) calls, next⟩
  · rintro h k ⟨calls, inner⟩
    obtain ⟨same, next⟩ := alike.read inner
    exact ⟨same, congrArg (· ++ [.read]) calls, next⟩
  · rintro h k ⟨calls, inner⟩ millis
    exact ⟨congrArg (· ++ [.sleep millis]) calls, alike.sleep inner millis⟩

namespace Session

variable {σ τ : Type}

theorem start_bare (p : Program) (limit : Option Nat) (host : σ) :
    start p.bare limit host = (start p limit host).recast .bare := by
  rw [start, Machine.start_bare]
  rfl

variable [Host σ] [Host τ]

theorem step_bare (s : Session σ) :
    (s.recast .bare).step = (s.step.1.recast .bare, s.step.2.recast .bare) :=
  step_recast (Program.size_bare s.machine.program) (Program.handler_bare s.machine.program _)
    (Machine.turn_bare s.machine)

theorem after_bare (s : Session σ) (n : Nat) :
    (s.recast .bare).after n = (s.after n).recast .bare := by
  induction n with
  | zero => rfl
  | succ n ih =>
    change ((s.recast .bare).after n).step.1 = (s.after n).step.1.recast .bare
    rw [ih, step_bare]

def recorded (s : Session σ) : Session (Recorded σ) := ⟨s.machine, { inner := s.host }⟩

def hostCalls (s : Session σ) (n : Nat) : List HostCall := (s.recorded.after n).host.calls

theorem hostCalls_matches {R : σ → τ → Prop} (hosts : Host.Matches R) {s : Session σ}
    {t : Session τ} (same : s.machine = t.machine) (begun : R s.host t.host) (n : Nat) :
    s.hostCalls n = t.hostCalls n :=
  (after_matches (recorded_matches hosts) (s := s.recorded) (t := t.recorded) same
    ⟨rfl, begun⟩ n).2.1

theorem hostCalls_bare (s : Session σ) (n : Nat) :
    (s.recast .bare).hostCalls n = s.hostCalls n := by
  have same : ((s.recorded.recast .bare).after n).host = (s.recorded.after n).host := by
    rw [after_bare]
    rfl
  exact congrArg Recorded.calls same

/-- Programs that differ in fractions and source lines only, on hosts that behave the same, are run
in the same way: after any number of steps the machines are alike, the hosts have been asked for
the same, and the next step comes to the same, but for the line that a crash tells. -/
theorem fractions_and_lines_unread {R : σ → τ → Prop} (hosts : Host.Matches R) {h : σ} {k : τ}
    (begun : R h k) {p q : Program} (alike : p.Alike q) (limit : Option Nat) (n : Nat) :
    let s := start p limit h
    let t := start q limit k
    (s.after n).machine.Alike (t.after n).machine ∧ s.hostCalls n = t.hostCalls n ∧
      R (s.after n).host (t.after n).host ∧ (s.after n).step.2.Alike (t.after n).step.2 := by
  intro s t
  -- Both hosts first under the one program, then both programs on the one host.
  let u := start p limit k
  have bare : u.recast .bare = t.recast .bare := by
    rw [← start_bare, ← start_bare, alike.bare_eq]
  obtain ⟨machine, host⟩ := after_matches hosts (s := s) (t := u) rfl begun n
  have result := (step_matches hosts machine host).2.2
  have after : (u.after n).recast .bare = (t.after n).recast .bare := by
    rw [← after_bare, bare, after_bare]
  have sameHost : (u.after n).host = (t.after n).host := by
    have same := congrArg Session.host after
    exact same
  have stepped : (u.after n).step.2.recast .bare = (t.after n).step.2.recast .bare := by
    have both := congrArg Session.step after
    rw [step_bare, step_bare] at both
    exact congrArg Prod.snd both
  refine ⟨?_, ?_, ?_, ?_⟩
  · rw [machine]
    have same := congrArg Session.machine after
    exact Machine.alike_of_bare same
  · rw [hostCalls_matches hosts (t := u) rfl begun, ← hostCalls_bare u, bare, hostCalls_bare t]
  · rw [← sameHost]
    exact host
  · rw [result]
    exact Progress.alike_of_bare stepped

def failing (x : Float) (line : UInt32) : Program :=
  ⟨#[{ opcode := .newv, text := "a", float := x, line }, { opcode := .del, int := 5, float := x },
    { opcode := .out, line := line + 1 }, { opcode := .add, int := 1, line := line + 2 }]⟩

theorem failing_alike (x y : Float) (line line' : UInt32) :
    (failing x line).Alike (failing y line') := by
  refine ⟨rfl, ?_⟩
  intro n i j one other
  simp only [Program.get?, failing] at one other
  rcases n with _ | _ | _ | _ | n <;> simp at one other <;> subst one <;> subst other <;>
    exact ⟨rfl, rfl, rfl, rfl⟩

theorem failing_unread :
    (failing 1.5 7).Alike (failing 0 40) ∧
      ((start (failing 1.5 7) none ({} : Console)).after 3).machine.Alike
        ((start (failing 0 40) none ({} : Console)).after 3).machine ∧
      (start (failing 0 40) none ({} : Console)).hostCalls 3 = [.sleep 5, .write "a"] ∧
      (start (failing 1.5 7) none ({} : Console)).hostCalls 3 = [.sleep 5, .write "a"] ∧
      ((start (failing 1.5 7) none ({} : Console)).after 3).step.2 =
        .failed (.fatal ⟨.notNumeric (.text "a"), 3, { opcode := .add, int := 1, line := 9 }⟩) ∧
      ((start (failing 0 40) none ({} : Console)).after 3).step.2 =
        .failed (.fatal ⟨.notNumeric (.text "a"), 3, { opcode := .add, int := 1, line := 42 }⟩) := by
  have alike := failing_alike 1.5 0 7 40
  obtain ⟨machine, calls, _, _⟩ := fractions_and_lines_unread (Host.matches_refl Console)
    (h := {}) rfl alike none 3
  have known : (start (failing 0 40) none ({} : Console)).hostCalls 3 = [.sleep 5, .write "a"] := rfl
  exact ⟨alike, machine, known, calls.trans known, rfl, rfl⟩

end Session
end Wheelwork
