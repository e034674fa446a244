import Mathlib
import Wheelwork.Proofs.Conservation
import Wheelwork.Proofs.Recovery

/-!
Circular addressing. The integers act on the slots of a ring, and a move in a direction of travel is
the action of its signed distance. Words of 128 bits are wide enough to compute it for any position
and size of 64 bits. So whatever a wheel is told to do by instructions that turn it and instructions
that set its direction, it ends where the exact sum of the signed steps leads.
-/
namespace Wheelwork

namespace Ring

abbrev Wide := BitVec 128

namespace Wide

def add? (a b : Wide) : Option Wide := if a.saddOverflow b then none else some (a + b)

def mul? (a b : Wide) : Option Wide := if a.smulOverflow b then none else some (a * b)

/-- The remainder that is not negative; a division by zero has none, nor has that of the least word
by minus one. -/
def remainder? (a n : Wide) : Option Wide :=
  if n = 0 ∨ a = BitVec.intMin 128 ∧ n = -1 then none
  else if (a.srem n).slt 0 then add? (a.srem n) n.abs
  else some (a.srem n)

end Wide

/-- The slot as computed in words, none if a step of the computation has no result. -/
def wideIndex? (position : UInt64) (direction : Direction) (steps : Int64) (size : UInt64) :
    Option UInt64 := do
  let distance ← Wide.mul? (.ofInt 128 direction.sign) (steps.toBitVec.signExtend 128)
  let target ← Wide.add? (position.toBitVec.setWidth 128) distance
  let slot ← Wide.remainder? target (size.toBitVec.setWidth 128)
  some ⟨slot.setWidth 64⟩

namespace Wide

variable {a b n : Wide}

theorem add_exact (low : -2 ^ 127 ≤ a.toInt + b.toInt) (high : a.toInt + b.toInt < 2 ^ 127) :
    ∃ c, add? a b = some c ∧ c.toInt = a.toInt + b.toInt := by
  have fits : ¬ a.saddOverflow b = true := by
    simp only [BitVec.saddOverflow, Bool.or_eq_true, decide_eq_true_eq]
    omega
  exact ⟨a + b, if_neg fits, BitVec.toInt_add_of_not_saddOverflow fits⟩

theorem mul_exact (low : -2 ^ 127 ≤ a.toInt * b.toInt) (high : a.toInt * b.toInt < 2 ^ 127) :
    ∃ c, mul? a b = some c ∧ c.toInt = a.toInt * b.toInt := by
  have fits : ¬ a.smulOverflow b = true := by
    simp only [BitVec.smulOverflow, Bool.or_eq_true, decide_eq_true_eq]
    omega
  exact ⟨a * b, if_neg fits, BitVec.toInt_mul_of_not_smulOverflow fits⟩

theorem remainder_exact (positive : 0 < n.toInt) :
    ∃ c, remainder? a n = some c ∧ c.toInt = a.toInt % n.toInt := by
  have divides : ¬ (n = 0 ∨ a = BitVec.intMin 128 ∧ n = -1) := by
    rintro (rfl | ⟨_, rfl⟩)
    · exact absurd positive (by decide)
    · exact absurd positive (by decide)
  have rest : (a.srem n).toInt = a.toInt.tmod n.toInt := BitVec.toInt_srem a n
  have lower := Int.emod_nonneg a.toInt (Int.ne_of_gt positive)
  have upper := Int.emod_lt_of_pos a.toInt positive
  have size : n.abs = n := by
    have plain : n.msb = false := by
      rw [BitVec.msb_eq_toInt, decide_eq_false_iff_not]
      omega
    simp [BitVec.abs, plain]
  have zero : (0 : Wide).toInt = 0 := rfl
  have least : -2 ^ 127 ≤ (a.srem n).toInt := BitVec.le_toInt (a.srem n)
  have most : n.toInt < 2 ^ 127 := BitVec.toInt_lt (x := n)
  -- A truncated remainder that is negative lies one ring below the floored one.
  rw [Int.tmod_eq_emod] at rest
  simp only [remainder?, if_neg divides, BitVec.slt_iff_toInt_lt, zero, size]
  split
  · rename_i negative
    obtain ⟨c, sum, exact_sum⟩ := add_exact (a := a.srem n) (b := n) (by omega) (by omega)
    refine ⟨c, sum, ?_⟩
    split at rest <;> omega
  · refine ⟨_, rfl, ?_⟩
    split at rest <;> omega

theorem toInt_widened (n : UInt64) : (n.toBitVec.setWidth 128).toInt = n.toNat := by
  have small : n.toNat < 2 ^ 64 := n.toNat_lt
  rw [BitVec.toInt_setWidth, UInt64.toNat_toBitVec, Int.bmod_eq_of_le] <;> omega

theorem toNat_narrowed {a : Wide} {k : Nat} (value : a.toInt = k) (small : k < 2 ^ 64) :
    (a.setWidth 64).toNat = k := by
  rw [BitVec.toInt_eq_toNat_cond] at value
  rw [BitVec.toNat_setWidth]
  split at value <;> omega

end Wide

section Computed

variable (direction : Direction) (steps : Int64)

theorem displacement_bounds :
    -2 ^ 63 ≤ displacement direction steps ∧ displacement direction steps ≤ 2 ^ 63 := by
  have least : -2 ^ 63 ≤ steps.toInt := steps.le_toInt
  have most : steps.toInt < 2 ^ 63 := steps.toInt_lt
  cases direction <;> simp only [displacement, Direction.sign] <;> omega

theorem wide_displacement :
    ∃ distance, Wide.mul? (.ofInt 128 direction.sign) (steps.toBitVec.signExtend 128) =
      some distance ∧ distance.toInt = displacement direction steps := by
  have sign : (BitVec.ofInt 128 direction.sign).toInt = direction.sign := by
    cases direction <;> rfl
  have count : (steps.toBitVec.signExtend 128).toInt = steps.toInt := by
    rw [BitVec.toInt_signExtend_of_le (by omega), Int64.toInt_toBitVec]
  have product : (BitVec.ofInt 128 direction.sign).toInt * (steps.toBitVec.signExtend 128).toInt =
      displacement direction steps := by rw [sign, count, displacement]
  have reach := displacement_bounds direction steps
  rw [← product] at reach ⊢
  exact Wide.mul_exact (by omega) (by omega)

theorem wideIndex_exact (position : UInt64) {size : UInt64} (filled : 0 < size) :
    ∃ slot, wideIndex? position direction steps size = some slot ∧
      slot.toNat = index position.toNat direction steps size.toNat := by
  have place : position.toNat < 2 ^ 64 := position.toNat_lt
  have slots : size.toNat < 2 ^ 64 := size.toNat_lt
  have some : 0 < size.toNat := filled
  have reach := displacement_bounds direction steps
  obtain ⟨distance, moved, distance_eq⟩ := wide_displacement direction steps
  have start := Wide.toInt_widened position
  have ring := Wide.toInt_widened size
  obtain ⟨target, reached, target_eq⟩ :=
    Wide.add_exact (a := position.toBitVec.setWidth 128) (b := distance) (by omega) (by omega)
  obtain ⟨slot, landed, slot_eq⟩ :=
    Wide.remainder_exact (a := target) (n := size.toBitVec.setWidth 128) (by omega)
  refine ⟨⟨slot.setWidth 64⟩, by simp [wideIndex?, moved, reached, landed], ?_⟩
  have exact_slot : slot.toInt = index position.toNat direction steps size.toNat := by
    rw [slot_eq, target_eq, start, ring, distance_eq, index_eq some,
      Int.fmod_eq_emod_of_nonneg _ (Int.natCast_nonneg _), displacement]
  have inside := index_lt some position.toNat direction steps
  exact Wide.toNat_narrowed exact_slot (by omega)

end Computed

section Action

variable {size : Nat}

def shift (position : Nat) (distance : Int) (size : Nat) : Nat :=
  (((position : Int) + distance) % (size : Int)).toNat

theorem shift_cast (filled : 0 < size) (position : Nat) (distance : Int) :
    (shift position distance size : Int) = (position + distance) % size := by
  have nonnegative := Int.emod_nonneg (position + distance) (show (size : Int) ≠ 0 by omega)
  exact Int.toNat_of_nonneg nonnegative

theorem shift_lt (filled : 0 < size) (position : Nat) (distance : Int) :
    shift position distance size < size := by
  have upper := Int.emod_lt_of_pos (position + distance) (show (0 : Int) < size by omega)
  have value := shift_cast filled position distance
  omega

theorem shift_zero {position : Nat} (inside : position < size) :
    shift position 0 size = position := by
  have value := shift_cast (Nat.zero_lt_of_lt inside) position 0
  rw [Int.add_zero, Int.emod_eq_of_lt (by omega) (by omega)] at value
  omega

theorem shift_shift (filled : 0 < size) (position : Nat) (j k : Int) :
    shift (shift position j size) k size = shift position (j + k) size := by
  have first := shift_cast filled position j
  have second := shift_cast filled (shift position j size) k
  have both := shift_cast filled position (j + k)
  rw [first, Int.emod_add_emod, Int.add_assoc] at second
  omega

theorem shift_eq_iff (filled : 0 < size) (position : Nat) (j k : Int) :
    shift position j size = shift position k size ↔ j ≡ k [ZMOD size] := by
  have one := shift_cast filled position j
  have other := shift_cast filled position k
  constructor
  · intro same
    apply Int.ModEq.add_left_cancel' (position : Int)
    rw [Int.ModEq, ← one, ← other, same]
  · intro congruent
    have same : (position + j) % (size : Int) = (position + k) % size := congruent.add_left position
    omega

@[ext]
structure Slot (size : Nat) where
  place : Nat
  inside : place < size

namespace Slot

theorem filled (p : Slot size) : 0 < size := Nat.zero_lt_of_lt p.inside

instance : VAdd Int (Slot size) where
  vadd distance p := ⟨shift p.place distance size, shift_lt p.filled p.place distance⟩

@[simp]
theorem vadd_place (distance : Int) (p : Slot size) :
    (distance +ᵥ p).place = shift p.place distance size := rfl

instance : AddAction Int (Slot size) where
  zero_vadd := by
    intro p
    ext
    exact shift_zero p.inside
  add_vadd := by
    intro j k p
    ext
    simp only [vadd_place, shift_shift p.filled, Int.add_comm]

variable (p : Slot size)

theorem vadd_eq_iff (j k : Int) : j +ᵥ p = k +ᵥ p ↔ j ≡ k [ZMOD size] := by
  rw [Slot.ext_iff, vadd_place, vadd_place, shift_eq_iff p.filled]

theorem vadd_emod (k : Int) : (k % size) +ᵥ p = k +ᵥ p :=
  (vadd_eq_iff p _ k).mpr (Int.mod_modEq k size)

end Slot

theorem index_place (p : Slot size) (direction : Direction) (steps : Int64) :
    index p.place direction steps size = (displacement direction steps +ᵥ p).place := rfl

theorem index_index (p : Slot size) (d e : Direction) (a b : Int64) :
    index (index p.place d a size) e b size =
      ((displacement d a + displacement e b) % size +ᵥ p).place := by
  rw [Slot.vadd_emod, Int.add_comm, add_vadd, index_place, index_place]

end Action
end Ring

namespace Instruction

def Circles (i : Instruction) : Prop := i.opcode = .movvw ∨ i.opcode = .whldirv

def heading (i : Instruction) (d : Direction) : Direction :=
  if i.opcode = .whldirv then (Direction.ofArg? i.int).getD d else d

def signedSteps (i : Instruction) (d : Direction) : Int :=
  if i.opcode = .movvw then d.sign * i.int.toInt else 0

end Instruction

def heading (d : Direction) (code : List Instruction) : Direction :=
  code.foldl (fun d i => i.heading d) d

/-- The signed steps of instructions, each in the direction that the ones before it have left. -/
def signedSteps : Direction → List Instruction → List Int
  | _, [] => []
  | d, i :: code => i.signedSteps d :: signedSteps (i.heading d) code

theorem signedSteps_append (d : Direction) (code more : List Instruction) :
    signedSteps d (code ++ more) = signedSteps d code ++ signedSteps (heading d code) more := by
  induction code generalizing d with
  | nil => rfl
  | cons i code ih =>
    simp only [List.cons_append, signedSteps, ih]
    rfl

namespace Wheel

/-- The wheel with its cursor at the exact sum of the signed steps from where it was. -/
def circled (w : Wheel) (code : List Instruction) : Wheel :=
  { w with
    cursor := Ring.shift w.cursor (signedSteps w.direction code).sum w.size
    direction := heading w.direction code }

variable {w : Wheel}

theorem circled_inside (filled : 0 < w.size) (code : List Instruction) :
    (w.circled code).cursor < (w.circled code).size := Ring.shift_lt filled _ _

theorem circled_nil (inside : w.cursor < w.size) : w.circled [] = w := by
  simp [circled, signedSteps, heading, Ring.shift_zero inside]

theorem circled_single (w : Wheel) (i : Instruction) :
    w.circled [i] =
      { w with
        cursor := Ring.shift w.cursor (i.signedSteps w.direction) w.size
        direction := i.heading w.direction } := by
  simp [circled, signedSteps, heading]

theorem circled_append (filled : 0 < w.size) (code more : List Instruction) :
    (w.circled code).circled more = w.circled (code ++ more) := by
  have size : (w.circled code).size = w.size := rfl
  have cursor : (w.circled code).cursor =
      Ring.shift w.cursor (signedSteps w.direction code).sum w.size := rfl
  have direction : (w.circled code).direction = heading w.direction code := rfl
  have values : (w.circled code).values = w.values := rfl
  have flag : (w.circled code).flag = w.flag := rfl
  rw [circled, size, cursor, direction, values, flag, Ring.shift_shift filled, ← List.sum_append,
    ← signedSteps_append, circled, heading, heading, heading, List.foldl_append]

theorem circled_rotate {i : Instruction} (inside : w.cursor < w.size) (op : i.opcode = .movvw) :
    w.rotate i.int = .ok (w.circled [i]) := by
  have filled : w.isEmpty = false := (filled_iff w).mpr (Nat.zero_lt_of_lt inside)
  simp only [rotate, filled, circled_single, Instruction.signedSteps, Instruction.heading, op]
  rfl

theorem circled_setDirection {i : Instruction} (inside : w.cursor < w.size)
    (op : i.opcode = .whldirv) :
    w.circled [i] = w.setDirection ((Direction.ofArg? i.int).getD w.direction) := by
  simp [circled_single, setDirection, Instruction.signedSteps, Instruction.heading, op,
    Ring.shift_zero inside]

end Wheel

namespace Machine

variable {m : Machine} {i : Instruction}

theorem perform_circles (circles : i.Circles) (inside : m.wheel.cursor < m.wheel.size) :
    m.perform i = .go (m.having (m.wheel.circled [i]) m.queue).advance ∨
      i.opcode = .whldirv ∧ Direction.ofArg? i.int = none ∧
        m.Raises i (.badDirection i.int) m.queue := by
  rcases circles with op | op
  · left
    simp only [perform, op, Wheel.circled_rotate inside op]
    rfl
  · cases named : Direction.ofArg? i.int with
    | none =>
      refine .inr ⟨op, rfl, ?_⟩
      simp only [Raises, perform, op, named]
      rfl
    | some d =>
      left
      rw [Wheel.circled_setDirection inside op]
      simp only [perform, op, named]
      rfl

end Machine

namespace Session

variable {σ : Type} [Host σ] {s : Session σ} {i : Instruction}

/-- All instructions dispatched in the first steps of a run, in order. -/
def performed (s : Session σ) : Nat → List Instruction
  | 0 => []
  | n + 1 => s.performed n ++ (s.after n).machine.next?.toList

theorem performed_add (s : Session σ) (n k : Nat) :
    s.performed (n + k) = s.performed n ++ (s.after n).performed k := by
  induction k with
  | zero => simp [performed]
  | succ k ih =>
    rw [← Nat.add_assoc, performed, ih, performed, after_add, List.append_assoc]

theorem step_circles (dispatches : s.machine.Dispatches i) (circles : i.Circles)
    (inside : s.machine.wheel.cursor < s.machine.wheel.size) :
    s.step.1 = ⟨(s.machine.counted.having (s.machine.wheel.circled [i]) s.machine.queue).advance,
        s.host⟩ ∨
      i.opcode = .whldirv ∧ Direction.ofArg? i.int = none ∧
        s.step.1.machine.wheel = s.machine.wheel := by
  obtain ⟨m, h⟩ := s
  rcases Machine.perform_circles (m := m.counted) circles inside with gone | ⟨op, unnamed, raised⟩
  · left
    have turned : m.turn = .go (m.counted.having (m.wheel.circled [i]) m.queue).advance := by
      rw [Machine.turn_of_dispatches dispatches, Machine.dispatch_sound (by simp [gone]), gone]
      rfl
    simp only [step_mk, turned]
  · obtain ⟨target, stepped⟩ := step_raised (s := ⟨m, h⟩) dispatches raised
    refine .inr ⟨op, unnamed, ?_⟩
    rw [stepped]
    rfl

theorem step_circled (dispatches : s.machine.Dispatches i) (circles : i.Circles)
    (inside : s.machine.wheel.cursor < s.machine.wheel.size) :
    s.step.1.machine.wheel = s.machine.wheel.circled [i] := by
  rcases step_circles dispatches circles inside with gone | ⟨op, unnamed, same⟩
  · rw [gone]
    rfl
  · rw [same, Wheel.circled_setDirection inside op, unnamed]
    rfl

theorem after_circled (inside : s.machine.wheel.cursor < s.machine.wheel.size) (n : Nat)
    (circles : ∀ i ∈ s.performed n, i.Circles) :
    (s.after n).machine.wheel = s.machine.wheel.circled (s.performed n) := by
  -- The wheel keeps its size, so the bound on the cursor holds again after every step.
  have filled := Nat.zero_lt_of_lt inside
  induction n with
  | zero => exact (Wheel.circled_nil inside).symm
  | succ n ih =>
    have before := ih fun i member => circles i (List.mem_append_left _ member)
    have along : (s.after n).machine.wheel.cursor < (s.after n).machine.wheel.size := by
      rw [before]
      exact Wheel.circled_inside filled _
    change (s.after n).step.1.machine.wheel = _
    cases next : (s.after n).machine.next? with
    | none =>
      have idle : ∀ i, ¬ (s.after n).machine.Dispatches i := by
        intro i dispatches
        simp [Machine.next_iff.mpr dispatches] at next
      rw [step_idle idle, before, performed, next]
      simp
    | some i =>
      have own : i.Circles := circles i (by simp [performed, next])
      rw [step_circled (Machine.next_iff.mp next) own along, before, Wheel.circled_append filled,
        performed, next]
      rfl

theorem performed_written {code : List Instruction}
    (inside : s.machine.wheel.cursor < s.machine.wheel.size)
    (written : ∀ k i, code[k]? = some i →
      s.machine.program.get? (s.machine.cursor + k) = some i)
    (circles : ∀ i ∈ code, i.Circles)
    (named : ∀ i ∈ code, i.opcode = .whldirv → i.int = 1 ∨ i.int = -1)
    (within : ∀ limit, s.machine.limit = some limit → s.machine.steps + code.length ≤ limit) :
    s.performed code.length = code := by
  induction code generalizing s with
  | nil => rfl
  | cons i code ih =>
    have dispatches : s.machine.Dispatches i := by
      refine ⟨written 0 i rfl, ?_⟩
      intro limit bound
      have room := within limit bound
      rw [List.length_cons] at room
      omega
    have known : i.opcode = .whldirv → Direction.ofArg? i.int ≠ none := by
      intro op
      rcases named i List.mem_cons_self op with one | one <;> simp [Direction.ofArg?, one]
    rcases step_circles dispatches (circles i List.mem_cons_self) inside with
      gone | ⟨op, unnamed, _⟩
    · have later : (s.after 1).performed code.length = code := by
        change s.step.1.performed code.length = code
        rw [gone]
        apply ih
        · exact Wheel.circled_inside (Nat.zero_lt_of_lt inside) [i]
        · intro k j found
          have place := written (k + 1) j found
          rw [← Nat.add_assoc, Nat.add_right_comm] at place
          exact place
        · exact fun j member => circles j (List.mem_cons_of_mem i member)
        · exact fun j member => named j (List.mem_cons_of_mem i member)
        · intro limit bound
          have room := within limit bound
          rw [List.length_cons] at room
          change s.machine.steps + 1 + code.length ≤ limit
          omega
      have first : s.performed 1 = [i] := by
        simp [performed, after, Machine.next_iff.mpr dispatches]
      rw [List.length_cons, Nat.add_comm, performed_add, first, later]
      rfl
    · exact absurd unnamed (known op)

end Session

namespace Ring

/-- A slot computed in words is the exact floored remainder, moves compose as their signed distances
add up, and distances lead to one slot if and only if they are congruent. Hence instructions that
turn the active wheel or set its direction, however they come to be dispatched, leave its cursor at
the exact sum of the signed steps and change neither values nor flag. -/
theorem addressing_is_exact :
    (∀ (position size : UInt64) (d : Direction) (steps : Int64), 0 < size →
      ∃ slot, wideIndex? position d steps size = some slot ∧
        slot.toNat = index position.toNat d steps size.toNat ∧
        (slot.toNat : Int) = Int.fmod (position.toNat + d.sign * steps.toInt) size.toNat ∧
        slot < size) ∧
    (∀ (size : Nat) (p : Slot size) (d e : Direction) (a b : Int64),
      index (index p.place d a size) e b size =
        ((d.sign * a.toInt + e.sign * b.toInt) % size +ᵥ p).place ∧
      index (index p.place .forward a size) .backward a size = p.place ∧
      (index p.place d a size = index p.place e b size ↔
        d.sign * a.toInt ≡ e.sign * b.toInt [ZMOD size])) ∧
    (∀ (size : Nat) (p : Slot size) (j k : Int),
      ((k +ᵥ p).place : Int) = Int.fmod (p.place + k) size ∧
      (j +ᵥ p = k +ᵥ p ↔ j ≡ k [ZMOD size])) ∧
    ∀ (σ : Type) [Host σ] (s : Session σ), s.machine.wheel.cursor < s.machine.wheel.size →
      (∀ n, (∀ i ∈ s.performed n, i.Circles) →
        let w := s.machine.wheel
        let turned := (s.after n).machine.wheel
        (turned.cursor : Int) =
          Int.fmod (w.cursor + (signedSteps w.direction (s.performed n)).sum) w.size ∧
        turned.values = w.values ∧ turned.flag = w.flag) ∧
      ∀ code : List Instruction,
        (∀ k i, code[k]? = some i → s.machine.program.get? (s.machine.cursor + k) = some i) →
        (∀ i ∈ code, i.Circles ∧ (i.opcode = .whldirv → i.int = 1 ∨ i.int = -1)) →
        (∀ limit, s.machine.limit = some limit → s.machine.steps + code.length ≤ limit) →
        s.performed code.length = code := by
  have floored : ∀ (size : Nat) (k : Int), Int.fmod k size = k % size :=
    fun size k => Int.fmod_eq_emod_of_nonneg k (Int.natCast_nonneg size)
  refine ⟨?_, ?_, ?_, ?_⟩
  · intro position size d steps filled
    obtain ⟨slot, computed, same⟩ := wideIndex_exact d steps position filled
    have some : 0 < size.toNat := filled
    refine ⟨slot, computed, same, ?_, ?_⟩
    · rw [same, index_eq some]
    · rw [UInt64.lt_iff_toNat_lt, same]
      exact index_lt some _ _ _
  · intro size p d e a b
    refine ⟨index_index p d e a b, ?_, ?_⟩
    · have back : displacement .forward a + displacement .backward a = 0 := by
        simp [displacement, Direction.sign]
      rw [index_index, back, Int.zero_emod, zero_vadd]
    · exact shift_eq_iff p.filled p.place _ _
  · intro size p j k
    refine ⟨?_, p.vadd_eq_iff j k⟩
    rw [floored, Slot.vadd_place, shift_cast p.filled]
  · intro σ _ s inside
    refine ⟨?_, ?_⟩
    · intro n circles w turned
      have circled : turned = w.circled (s.performed n) := Session.after_circled inside n circles
      refine ⟨?_, by rw [circled]; rfl, by rw [circled]; rfl⟩
      rw [floored, circled]
      exact shift_cast (Nat.zero_lt_of_lt inside) _ _
    · intro code written sound within
      exact Session.performed_written inside written (fun i member => (sound i member).1)
        (fun i member => (sound i member).2) within

def farTurns : List Instruction :=
  [{ opcode := .whldirv, int := -1 }, { opcode := .movvw, int := Int64.minValue },
    { opcode := .movvw, int := Int64.minValue }, { opcode := .whldirv, int := 1 },
    { opcode := .movvw, int := Int64.maxValue }]

def farProgram : Program :=
  ⟨#[{ opcode := .newv, int := 7 }, { opcode := .newv, int := 8 }, { opcode := .newv, int := 9 }] ++
    farTurns.toArray⟩

def farTurning : Session Console := (Session.start farProgram (some 8) {}).after 3

theorem far_turns_exact :
    (∃ slot, wideIndex? 18446744073709551615 .backward Int64.minValue 3 = some slot ∧
      slot.toNat = 2) ∧
    farTurning.performed 5 = farTurns ∧
    (signedSteps .forward farTurns).sum = 27670116110564327423 ∧
    (farTurning.after 5).machine.wheel.cursor = 2 ∧
    (farTurning.after 5).machine.wheel.values = #[.integer 7, .integer 8, .integer 9] := by
  obtain ⟨computed, _, _, sessions⟩ := addressing_is_exact
  obtain ⟨slot, found, _, value, _⟩ := computed 18446744073709551615 3 .backward Int64.minValue
    (by decide)
  obtain ⟨turns, straight⟩ := sessions Console farTurning (by decide +kernel)
  have performed : farTurning.performed 5 = farTurns := by
    apply straight farTurns
    · intro k i member
      have place : farProgram.get? (3 + k) = farTurns[k]? := by
        simp [farProgram, Program.get?, Nat.add_comm 3]
      exact place.trans member
    · simp [farTurns, Instruction.Circles]
    · intro limit bound
      have eight : some 8 = some limit := bound
      cases eight
      decide +kernel
  obtain ⟨cursor, values, _⟩ := turns 5 (by simp [performed, farTurns, Instruction.Circles])
  rw [performed] at cursor
  have slot_two : Int.fmod ((18446744073709551615 : UInt64).toNat +
      Direction.backward.sign * Int64.minValue.toInt) (3 : UInt64).toNat = 2 := by decide +kernel
  have cursor_two : Int.fmod (farTurning.machine.wheel.cursor +
      (signedSteps farTurning.machine.wheel.direction farTurns).sum)
      farTurning.machine.wheel.size = 2 := by decide +kernel
  refine ⟨⟨slot, found, ?_⟩, performed, by decide +kernel, ?_, values⟩
  · omega
  · omega

end Ring
end Wheelwork
