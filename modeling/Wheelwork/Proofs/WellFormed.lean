import Wheelwork.Proofs.Queue
import Wheelwork.Proofs.Steps

/-!
Well-formed machines. Every wheel has its cursor in place, every pending call has a frame of its
own and an address after a call, and every function begins inside the program. Fresh machines are
well-formed and moves keep them so; therefore no access of a run is ever out of range.
-/
namespace Wheelwork

/-- The cursor stands on a value, or at the start of an empty wheel. -/
def Wheel.Seated (w : Wheel) : Prop := w.cursor < w.size ∨ w.size = 0 ∧ w.cursor = 0

theorem Ring.index_lt {size : Nat} (filled : 0 < size) (position : Nat) (direction : Direction)
    (steps : Int64) : Ring.index position direction steps size < size := by
  have lower := Int.emod_nonneg ((position : Int) + displacement direction steps)
    (show (size : Int) ≠ 0 by omega)
  have upper := Int.emod_lt_of_pos ((position : Int) + displacement direction steps)
    (show (0 : Int) < size by omega)
  unfold Ring.index
  omega

namespace Wheel

theorem filled_iff (w : Wheel) : w.isEmpty = false ↔ 0 < w.size := by
  simp [isEmpty, size, Array.size_pos_iff]

theorem current_of_lt {w : Wheel} (inside : w.cursor < w.size) : ∃ v, w.current = .ok v := by
  have slot : w.values[w.cursor]? = some w.values[w.cursor] := Array.getElem?_eq_getElem inside
  exact ⟨w.values[w.cursor], by simp [current, slot]⟩

theorem seated_lt {w : Wheel} (seated : w.Seated) (filled : w.isEmpty = false) :
    w.cursor < w.size := by
  have some := (filled_iff w).mp filled
  rcases seated with inside | ⟨none, _⟩
  · exact inside
  · omega

theorem seated_current {w : Wheel} (seated : w.Seated) (filled : w.isEmpty = false) :
    ∃ v, w.current = .ok v := current_of_lt (seated_lt seated filled)

theorem seated_setCurrent {w : Wheel} (seated : w.Seated) (filled : w.isEmpty = false)
    (v : Value) : w.setCurrent v = .ok (w.put v) := by
  obtain ⟨held, under⟩ := seated_current seated filled
  simp only [setCurrent, under]

theorem seated_ofValues (values : List Value) : (ofValues values).Seated := by
  cases values with
  | nil => exact .inr ⟨rfl, rfl⟩
  | cons v vs => exact .inl (by simp [ofValues, size])

theorem seated_push {w : Wheel} (seated : w.Seated) (v : Value) : (w.push v).Seated := by
  left
  simp only [push, size, Array.size_push]
  rcases seated with inside | ⟨_, origin⟩
  · exact Nat.lt_succ_of_lt inside
  · omega

theorem seated_put {w : Wheel} (seated : w.Seated) (v : Value) : (w.put v).Seated := by
  simpa [Seated, put, size] using seated

theorem rotate_ok {w w' : Wheel} {steps : Int64} (moved : w.rotate steps = .ok w') :
    0 < w.size ∧ w'.cursor < w'.size := by
  unfold rotate at moved
  split at moved
  · simp at moved
  · rename_i filled
    have some : 0 < w.size := (filled_iff w).mp (by simpa using filled)
    simp only [Except.ok.injEq] at moved
    subst moved
    exact ⟨some, Ring.index_lt some _ _ _⟩

end Wheel

namespace FunctionTable

theorem insertions_source (name : String) (f : FunctionEntry) (definitions : List (Instruction × Nat))
    (t : FunctionTable)
    (found : (definitions.foldl (fun t (i, index) => insertDefinition t i index) t)[name]? = some f) :
    t[name]? = some f ∨ ∃ d ∈ definitions,
      d.1.opcode = .define ∧ d.1.text = name ∧ f = ⟨d.2 + 1, d.1.int⟩ := by
  -- The table is generalised: a definition may replace an entry that an earlier one has made.
  induction definitions generalizing t with
  | nil => exact .inl found
  | cons d rest ih =>
    rcases ih (insertDefinition t d.1 d.2) found with earlier | ⟨later, member, source⟩
    · unfold insertDefinition at earlier
      split at earlier
      · rename_i define
        rw [Std.TreeMap.getElem?_insert] at earlier
        split at earlier
        · rename_i same
          simp only [Option.some.injEq] at earlier
          exact .inr ⟨d, by simp, define, by simpa using same, earlier.symm⟩
        · exact .inl earlier
      · exact .inl earlier
    · exact .inr ⟨later, List.mem_cons_of_mem d member, source⟩

theorem ofProgram_source {p : Program} {name : String} {f : FunctionEntry}
    (found : (ofProgram p)[name]? = some f) :
    ∃ index i, p.get? index = some i ∧ i.opcode = .define ∧ i.text = name ∧
      f = ⟨index + 1, i.int⟩ := by
  rcases insertions_source name f _ ∅ found with empty | ⟨⟨i, index⟩, member, source⟩
  · simp at empty
  · rw [List.mk_mem_zipIdx_iff_getElem?] at member
    exact ⟨index, i, by simpa [Program.get?] using member, source⟩

end FunctionTable

theorem Program.lt_of_get {p : Program} {index : Nat} {i : Instruction}
    (found : p.get? index = some i) : index < p.size := by
  obtain ⟨inside, _⟩ := Array.getElem?_eq_some_iff.mp found
  exact inside

theorem FunctionTable.ofProgram_entry {p : Program} {name : String} {f : FunctionEntry}
    (found : (ofProgram p)[name]? = some f) : 1 ≤ f.entry ∧ f.entry ≤ p.size := by
  obtain ⟨index, i, present, _, _, rfl⟩ := ofProgram_source found
  have inside := Program.lt_of_get present
  exact ⟨Nat.succ_le_succ (Nat.zero_le index), inside⟩

namespace Machine

def ReturnsTo (m : Machine) (address : Nat) : Prop :=
  1 ≤ address ∧ address ≤ m.program.size ∧
    ∃ i, m.program.get? (address - 1) = some i ∧ i.opcode = .call

structure WellFormed (m : Machine) : Prop where
  depth : m.frames.depth = m.calls.length + 1
  seated : ∀ w ∈ m.frames.toList, w.Seated
  cursor : m.cursor ≤ m.program.size
  returns : ∀ address ∈ m.calls, m.ReturnsTo address
  entries : ∀ (name : String) (f : FunctionEntry), m.functions[name]? = some f →
    1 ≤ f.entry ∧ f.entry ≤ m.program.size

/-- The accesses that the instructions make and that could go wrong. -/
structure InRange (m : Machine) : Prop where
  /-- The active wheel is the last of a stack that is never empty. -/
  active : 1 ≤ m.frames.depth ∧ m.frames.toList.reverse[m.frames.depth - 1]? = some m.wheel
  /-- The stretch after the instruction under the cursor lies in the program. -/
  body : ∀ i, m.program.get? m.cursor = some i → m.cursor + 1 ≤ m.program.size
  /-- Jumps go around a program that is not empty, and land in it. -/
  jump : ∀ i, m.program.get? m.cursor = some i →
    0 < m.program.size ∧ ∀ steps, m.relative steps < m.program.size
  landing : ∀ handler, m.program.get? (m.cursor + 1) = some handler →
    ∀ kind, m.landing handler kind ≤ m.program.size
  /-- A wheel that holds values has one under its cursor. -/
  slot : m.wheel.isEmpty = false → m.wheel.cursor < m.wheel.size ∧ ∃ v, m.wheel.current = .ok v
  rotated : ∀ steps w, m.wheel.rotate steps = .ok w → 0 < m.wheel.size ∧ w.cursor < w.size
  /-- Values are taken from a queue that has as many. -/
  taken : ∀ count taken, m.queue.drain count = .ok taken → count ≤ m.queue.toList.length
  /-- A line that was asked for has a place. -/
  answered : ∀ prompt i m', m.turn = .ask prompt i m' →
    ∀ line, m'.answer i line = .ok (m'.mapWheel (·.put (.ofInput line))).advance
  /-- A return takes off a wheel above the global one. -/
  popped : m.calls ≠ [] → ∃ frames, m.frames.pop? = some (m.wheel, frames)

theorem relative_lt {m : Machine} {i : Instruction} (current : m.program.get? m.cursor = some i)
    (steps : Int64) : m.relative steps < m.program.size :=
  Ring.index_lt (Nat.zero_lt_of_lt (Program.lt_of_get current)) _ _ _

theorem afterReturn_le {m : Machine} {target : Nat} (closed : m.afterReturn? = some target) :
    target ≤ m.program.size := by
  simp only [afterReturn?, Option.map_eq_some_iff] at closed
  obtain ⟨offset, found, rfl⟩ := closed
  have inside := (List.findIdx?_eq_some_iff_getElem.mp found).1
  simp only [List.length_drop, Array.length_toList] at inside
  unfold Program.size
  omega

theorem landing_le {m : Machine} {handler : Instruction}
    (next : m.program.get? (m.cursor + 1) = some handler) (kind : FaultKind) :
    m.landing handler kind ≤ m.program.size := by
  have inside := Program.lt_of_get next
  unfold landing
  split
  · exact Nat.le_of_lt (Ring.index_lt (by omega) _ _ _)
  · omega

theorem popped_of_call {m : Machine} (depth : m.frames.depth = m.calls.length + 1)
    (pending : m.calls ≠ []) :
    m.frames.pop? = some (m.wheel, m.remaining) ∧ m.frames.below = m.remaining.toList := by
  have calls := List.length_pos_iff.mpr pending
  unfold Frames.depth at depth
  cases stack : m.frames.below with
  | nil =>
    rw [stack] at depth
    simp only [List.length_nil] at depth
    omega
  | cons w below =>
    have popped : m.frames.pop? = some (m.wheel, ⟨w, below⟩) := by simp [Frames.pop?, stack, wheel]
    have rest : m.remaining = ⟨w, below⟩ := by simp [remaining, popped]
    rw [rest]
    exact ⟨popped, rfl⟩

theorem WellFormed.top {m : Machine} (wf : m.WellFormed) : m.wheel.Seated :=
  wf.seated m.wheel (by simp [wheel, Frames.toList])

theorem WellFormed.answered {m m' : Machine} {i : Instruction} {prompt : Option String}
    (wf : m.WellFormed) (asked : m.turn = .ask prompt i m') (line : String) :
    m'.answer i line = .ok (m'.mapWheel (·.put (.ofInput line))).advance := by
  obtain ⟨_, rfl, filled⟩ := turn_ask asked
  have placed : m.counted.wheel.setCurrent (.ofInput line) =
      .ok (m.counted.wheel.put (.ofInput line)) := Wheel.seated_setCurrent wf.top filled _
  simp only [answer, placed]
  rfl

theorem WellFormed.in_range {m : Machine} (wf : m.WellFormed) : m.InRange where
  active := ⟨by simp [Frames.depth], by simp [Frames.depth, Frames.toList, wheel]⟩
  body _ current := Program.lt_of_get current
  jump _ current := ⟨Nat.zero_lt_of_lt (Program.lt_of_get current), relative_lt current⟩
  landing _ next kind := landing_le next kind
  slot filled := ⟨Wheel.seated_lt wf.top filled, Wheel.seated_current wf.top filled⟩
  rotated _ _ moved := Wheel.rotate_ok moved
  taken _ _ drained := (ArgQueue.drain_ok drained).1
  answered _ _ _ asked := wf.answered asked
  popped pending := ⟨m.remaining, (popped_of_call wf.depth pending).1⟩

theorem start_well_formed (program : Program) (limit : Option Nat) :
    (start program limit).WellFormed where
  depth := rfl
  seated w member := by
    simp only [start, Frames.toList, List.mem_singleton] at member
    subst member
    exact .inr ⟨rfl, rfl⟩
  cursor := Nat.zero_le _
  returns := by simp [start]
  entries _ _ found := FunctionTable.ofProgram_entry found

theorem works_seated {m : Machine} {i : Instruction} {w : Wheel} {q : ArgQueue}
    (done : Works m i w q) (seated : m.wheel.Seated) : w.Seated := by
  cases done with
  | pass => exact seated
  | append => exact Wheel.seated_push seated _
  | rotate _ moved => exact .inl (Wheel.rotate_ok moved).2
  | reverse => exact seated
  | stage => exact seated
  | compare => exact seated
  | compute => exact Wheel.seated_put seated _
  | wait => exact seated
  | answer => exact Wheel.seated_put seated _

/-- A move inside one frame: the stacks stay and the cursor goes somewhere in the program. -/
theorem WellFormed.within_frame {m m' : Machine} (wf : m.WellFormed)
    (program : m'.program = m.program) (functions : m'.functions = m.functions)
    (calls : m'.calls = m.calls) (below : m'.frames.below = m.frames.below)
    (seated : m'.wheel.Seated) (cursor : m'.cursor ≤ m.program.size) : m'.WellFormed where
  depth := by simpa [Frames.depth, below, calls] using wf.depth
  seated w member := by
    simp only [Frames.toList, below, List.mem_cons] at member
    rcases member with rfl | lower
    · exact seated
    · exact wf.seated w (List.mem_cons_of_mem _ lower)
  cursor := program ▸ cursor
  returns address member := by
    simpa [ReturnsTo, program] using wf.returns address (calls ▸ member)
  entries name f found := by
    rw [program]
    exact wf.entries name f (functions ▸ found)

theorem WellFormed.enter {m : Machine} {i : Instruction} {f : FunctionEntry} (wf : m.WellFormed)
    (current : m.program.get? m.cursor = some i) (op : i.opcode = .call)
    (found : m.functions.find i.text = .ok f) (arguments : List Value) (q : ArgQueue) :
    (m.enter f.entry arguments q).WellFormed where
  depth := by
    have depth := wf.depth
    simp only [Frames.depth] at depth
    simp [Machine.enter, Frames.push, Frames.depth, depth]
  seated w member := by
    simp only [Machine.enter, Frames.push, Frames.toList, List.mem_cons] at member
    rcases member with rfl | lower
    · exact Wheel.seated_ofValues arguments
    · exact wf.seated w (by simpa [Frames.toList] using lower)
  cursor := by
    unfold FunctionTable.find at found
    split at found
    · rename_i entry
      simp only [Except.ok.injEq] at found
      subst found
      exact (wf.entries _ _ entry).2
    · simp at found
  returns address member := by
    simp only [Machine.enter, List.mem_cons] at member
    rcases member with rfl | earlier
    · exact ⟨by omega, Program.lt_of_get current, i, current, op⟩
    · exact wf.returns address earlier
  entries := wf.entries

theorem WellFormed.leave {m : Machine} {target : Nat} {calls : List Nat} (wf : m.WellFormed)
    (pending : m.calls = target :: calls) :
    WellFormed { m with frames := m.remaining, calls := calls, cursor := target } := by
  have below := (popped_of_call wf.depth (by simp [pending])).2
  refine ⟨?_, ?_, ?_, ?_, wf.entries⟩
  · have depth := wf.depth
    rw [Frames.depth, below, pending] at depth
    simpa [Frames.depth, Frames.toList] using depth
  · intro w member
    exact wf.seated w (List.mem_cons_of_mem _ (below ▸ member))
  · exact (wf.returns target (by simp [pending])).2.1
  · intro address member
    exact wf.returns address (by simp [pending, member])

theorem WellFormed.move {m m' : Machine} {i : Instruction} (wf : m.WellFormed)
    (current : m.program.get? m.cursor = some i) (moved : Move m i m') : m'.WellFormed := by
  have top := wf.top
  have inside := Program.lt_of_get current
  -- Only a call and a return touch the stacks below the active wheel.
  cases moved with
  | stay => exact wf
  | work done => exact wf.within_frame rfl rfl rfl rfl (works_seated done top) inside
  | steer => exact wf.within_frame rfl rfl rfl rfl top inside
  | jump => exact wf.within_frame rfl rfl rfl rfl top (Nat.le_of_lt (relative_lt current _))
  | skip _ closed => exact wf.within_frame rfl rfl rfl rfl top (afterReturn_le closed)
  | enter op found => exact wf.enter current op found _ _
  | leave _ pending => exact wf.leave pending
  | crash => exact wf.within_frame rfl rfl rfl rfl top wf.cursor
  | recover _ next => exact wf.within_frame rfl rfl rfl rfl top (landing_le next _)
  | miss _ _ _ next => exact wf.within_frame rfl rfl rfl rfl top (landing_le next _)

theorem WellFormed.counted {m : Machine} (wf : m.WellFormed) : m.counted.WellFormed :=
  ⟨wf.depth, wf.seated, wf.cursor, wf.returns, wf.entries⟩

end Machine

namespace Session

variable {σ : Type} [Host σ]

theorem after_well_formed {s : Session σ} (begun : s.machine.WellFormed) (n : Nat) :
    (s.after n).machine.WellFormed :=
  after_keeps (fun dispatches moved wf => wf.counted.move dispatches.1 moved) begun n

theorem Reachable.well_formed {s : Session σ} (reachable : s.Reachable) :
    s.machine.WellFormed := by
  obtain ⟨program, limit, host, n, rfl⟩ := reachable
  exact after_well_formed (Machine.start_well_formed program limit) n

/-- Every state of every run is well-formed, and every access made from it is in range. -/
theorem every_state_well_formed (program : Program) (limit : Option Nat) (host : σ) (n : Nat) :
    ((start program limit host).after n).machine.WellFormed ∧
      ((start program limit host).after n).machine.InRange := by
  have wf := after_well_formed (s := start program limit host)
    (Machine.start_well_formed program limit) n
  exact ⟨wf, wf.in_range⟩

end Session
end Wheelwork
