import Wheelwork.Proofs.Atomicity

/-!
What stands in the way of an arithmetic instruction. Of several obstacles the first one in a fixed
order decides the kind of the fault, and a handler can tell. Without an obstacle the operands are
integers, and their result replaces the value under the cursor and nothing else.
-/
namespace Wheelwork

namespace Wheel

variable {w : Wheel}

theorem current_iff {v : Value} : w.current = .ok v ↔ w.values[w.cursor]? = some v := by
  unfold current
  split <;> simp [*]

theorem empty_current (empty : w.isEmpty = true) : w.current = .error .emptyWheel := by
  have none : w.values = #[] := by simpa [isEmpty] using empty
  simp [current, none]

theorem seated_of_current {v : Value} (under : w.current = .ok v) :
    w.Seated ∧ w.isEmpty = false := by
  obtain ⟨inside, _⟩ := Array.getElem?_eq_some_iff.mp (current_iff.mp under)
  refine ⟨.inl inside, ?_⟩
  cases empty : w.isEmpty with
  | true => cases under.symm.trans (empty_current empty)
  | false => rfl

structure Swapped (w w' : Wheel) (v : Value) : Prop where
  slot : w'.values[w.cursor]? = some v
  others : ∀ k ≠ w.cursor, w'.values[k]? = w.values[k]?
  size : w'.size = w.size
  cursor : w'.cursor = w.cursor
  direction : w'.direction = w.direction
  flag : w'.flag = w.flag

theorem swapped_put (inside : w.cursor < w.size) (v : Value) : w.Swapped (w.put v) v where
  slot := Array.getElem?_setIfInBounds_self_of_lt inside
  others k other := by simp [put, Array.getElem?_setIfInBounds_ne other.symm]
  size := by simp [put, size]
  cursor := rfl
  direction := rfl
  flag := rfl

end Wheel

namespace Arithmetic

/-- The first obstacle to an instruction that takes so many queued values. -/
def queuedObstacle? (a : Arithmetic) (count : Int64) (w : Wheel) (queued : List Value) :
    Option FaultKind :=
  let taken := queued.take count.toInt.toNat
  if count < 0 then some .badArgument
  else if count = 0 ∧ a ≠ .add ∨ (queued.length : Int) < count.toInt then some .notEnoughArgs
  else if ∃ v ∈ taken, v.integer? = none then some .arithmeticError
  else if a = .div ∧ ∃ v ∈ taken.tail, v.integer? = some 0 then some .divisionByZero
  else if w.isEmpty then some .emptyWheel
  else none

def literalObstacle? (w : Wheel) : Option FaultKind :=
  if w.isEmpty then some .emptyWheel
  else if w.values[w.cursor]?.bind Value.integer? = none then some .numericDataRequired
  else none

def wheelObstacle? (a : Arithmetic) (w : Wheel) : Option FaultKind :=
  if w.isEmpty then some (if a = .add ∨ a = .mul then .emptyWheel else .notEnoughArgs)
  else if ∃ v ∈ w.values.toList, v.integer? = none then some .numericDataRequired
  else if a = .div ∧ ∃ v ∈ w.values.toList.tail, v.integer? = some 0 then some .divisionByZero
  else none

def obstacle? (a : Arithmetic) (i : Instruction) (w : Wheel) (queued : List Value) :
    Option FaultKind :=
  if i.args then a.queuedObstacle? i.int w queued
  else if i.int ≠ 0 ∧ (a = .add ∨ a = .mul) then literalObstacle? w
  else a.wheelObstacle? w

/-- The integers that an instruction works on. -/
inductive Operands (a : Arithmetic) (i : Instruction) (w : Wheel) (queued : List Value) :
    List Int64 → Prop where
  | queued {xs : List Int64} (args : i.args = true) (count : (xs.length : Int) = i.int.toInt)
      (taken : queued.take xs.length = xs.map .integer) : Operands a i w queued xs
  | literal {n : Int64} (args : i.args = false) (op : i.int ≠ 0 ∧ (a = .add ∨ a = .mul))
      (under : w.current = .ok (.integer n)) : Operands a i w queued [n, i.int]
  | whole {xs : List Int64} (args : i.args = false) (op : ¬ (i.int ≠ 0 ∧ (a = .add ∨ a = .mul)))
      (values : w.values.toList = xs.map .integer) : Operands a i w queued xs

variable {a : Arithmetic} {i : Instruction} {w : Wheel} {q : ArgQueue} {xs : List Int64} {v : Value}

theorem integers_cases (flaw : Value → Fault) (vs : List Value) :
    (∃ xs : List Int64, vs = xs.map .integer ∧ integers flaw vs = .ok xs) ∨
      ∃ v ∈ vs, v.integer? = none ∧ integers flaw vs = .error (flaw v) := by
  induction vs with
  | nil => exact .inl ⟨[], rfl, rfl⟩
  | cons v vs ih =>
    cases v with
    | text s => exact .inr ⟨.text s, by simp, rfl, rfl⟩
    | float x => exact .inr ⟨.float x, by simp, rfl, rfl⟩
    | integer n =>
      rcases ih with ⟨xs, rfl, read⟩ | ⟨v, member, unfit, failed⟩
      · exact .inl ⟨n :: xs, rfl, by simp [integers, read]⟩
      · exact .inr ⟨v, List.mem_cons_of_mem _ member, unfit, by simp [integers, failed]⟩

theorem all_integers (xs : List Int64) : ¬ ∃ v ∈ xs.map Value.integer, v.integer? = none := by
  simp [Value.integer?]

theorem zero_divisor (xs : List Int64) :
    (∃ v ∈ (xs.map Value.integer).tail, v.integer? = some 0) ↔ 0 ∈ xs.tail := by
  rw [← List.map_tail]
  constructor
  · rintro ⟨v, member, zero⟩
    obtain ⟨n, inside, rfl⟩ := List.mem_map.mp member
    obtain rfl : n = 0 := Option.some.inj zero
    exact inside
  · intro member
    exact ⟨.integer 0, List.mem_map_of_mem member, rfl⟩

theorem least_le (filled : xs ≠ []) : a.least ≤ xs.length := by
  have positive := List.length_pos_iff.mpr filled
  cases a <;> simp only [least] <;> omega

theorem ofQueued_cases (enough : a.least ≤ xs.length) :
    (a = .div ∧ 0 ∈ xs.tail) ∧ a.ofQueued xs = .error .divisionByZero ∨
      ¬ (a = .div ∧ 0 ∈ xs.tail) ∧ ∃ n, a.ofQueued xs = .ok (.integer n) := by
  cases a with
  | add => simp [ofQueued]
  | mul => simp [ofQueued]
  | sub =>
    cases xs with
    | nil => simp [least] at enough
    | cons x xs => simp [ofQueued, difference, Except.map]
  | div =>
    cases xs with
    | nil => simp [least] at enough
    | cons x xs => by_cases zero : 0 ∈ xs <;> simp [ofQueued, quotient, zero, Except.map]

theorem ofWheel_cases (filled : xs ≠ []) :
    (a = .div ∧ 0 ∈ xs.tail) ∧ a.ofWheel xs = .error .divisionByZero ∨
      ¬ (a = .div ∧ 0 ∈ xs.tail) ∧ ∃ v, a.ofWheel xs = .ok v := by
  cases xs with
  | nil => exact absurd rfl filled
  | cons x xs =>
    cases a with
    | add => simp [ofWheel, ofQueued]
    | sub => simp [ofWheel, ofQueued, difference, Except.map]
    | mul => simp [ofWheel, ofQueued]
    | div => by_cases zero : 0 ∈ xs <;> simp [ofWheel, ratio, zero, Except.map]

theorem result_kind (computed : (if i.args then a.ofQueued xs else a.ofWheel xs) = .ok v) :
    if a = .div ∧ i.args = false then ∃ x, v = .float x else ∃ n, v = .integer n := by
  have integer : ∀ b : Arithmetic, b.ofQueued xs = .ok v → ∃ n, v = .integer n := by
    intro b given
    cases b with
    | add => exact ⟨_, (Except.ok.inj given).symm⟩
    | mul => exact ⟨_, (Except.ok.inj given).symm⟩
    | sub =>
      cases found : difference xs <;> simp [ofQueued, found, Except.map] at given
      exact ⟨_, given.symm⟩
    | div =>
      cases found : quotient xs <;> simp [ofQueued, found, Except.map] at given
      exact ⟨_, given.symm⟩
  cases args : i.args with
  | true =>
    rw [if_pos args] at computed
    simpa using integer a computed
  | false =>
    simp only [args, Bool.false_eq_true, ↓reduceIte] at computed
    cases a with
    | add => simpa using integer .add computed
    | sub => simpa using integer .sub computed
    | mul => simpa using integer .mul computed
    | div =>
      cases found : ratio xs <;> simp [ofWheel, found, Except.map] at computed
      exact ⟨_, computed.symm⟩

theorem claim_negative (negative : i.int < 0) : a.claim i q = .error (.negativeCount i.int) := by
  simp [claim, negative]

theorem claim_few (natural : ¬ i.int < 0)
    (few : i.int = 0 ∧ a ≠ .add ∨ (q.toList.length : Int) < i.int.toInt) :
    ∃ cause, a.claim i q = .error cause ∧ cause.kind = .notEnoughArgs := by
  unfold claim
  rw [if_neg natural]
  split
  · exact ⟨_, rfl, rfl⟩
  · rename_i enough
    cases drained : q.drain i.int.toInt.toNat with
    | error cause =>
      refine ⟨cause, rfl, ?_⟩
      rw [(ArgQueue.drain_error drained).1]
      rfl
    | ok taken =>
      have inside := (ArgQueue.drain_ok drained).1
      exfalso
      rcases few with ⟨zero, other⟩ | short
      · apply enough
        cases a <;> simp_all [least]
      · omega

theorem claim_enough (natural : ¬ i.int < 0)
    (enough : ¬ (i.int = 0 ∧ a ≠ .add ∨ (q.toList.length : Int) < i.int.toInt)) :
    ∃ rest, a.claim i q = .ok (q.toList.take i.int.toInt.toNat, rest) ∧
      rest.toList = q.toList.drop i.int.toInt.toNat ∧
      a.least ≤ (q.toList.take i.int.toInt.toNat).length ∧
      ((q.toList.take i.int.toInt.toNat).length : Int) = i.int.toInt := by
  rw [not_or] at enough
  have lower : 0 ≤ i.int.toInt := by
    simpa [Int64.lt_iff_toInt_lt] using natural
  have least : a.least ≤ i.int.toInt.toNat := by
    by_cases zero : i.int = 0
    · have add : a = .add := Decidable.not_not.mp fun other => enough.1 ⟨zero, other⟩
      simp [add, Arithmetic.least]
    · have positive : i.int.toInt ≠ 0 := by
        intro same
        exact zero (Int64.toInt_inj.mp (by simpa using same))
      cases a <;> simp only [Arithmetic.least] <;> omega
  have length : (q.toList.take i.int.toInt.toNat).length = i.int.toInt.toNat := by
    rw [List.length_take]
    omega
  rw [length]
  unfold claim
  rw [if_neg natural, if_neg (Nat.not_lt.mpr least)]
  cases drained : q.drain i.int.toInt.toNat with
  | error cause =>
    have short := (ArgQueue.drain_error drained).2
    omega
  | ok taken =>
    obtain ⟨taken, rest⟩ := taken
    obtain ⟨_, rfl, dropped⟩ := ArgQueue.drain_ok drained
    exact ⟨rest, rfl, dropped, least, by omega⟩

theorem compute_refused {cause : Fault} (args : i.args = true)
    (claimed : a.claim i q = .error cause) : a.compute i w q = (.error cause, q) := by
  simp only [compute, args, ↓reduceIte, claimed]

theorem compute_unfit {cause : Fault} {taken : List Value} {rest : ArgQueue} (args : i.args = true)
    (claimed : a.claim i q = .ok (taken, rest))
    (failed : integers .badOperand taken = .error cause) :
    a.compute i w q = (.error cause, rest) := by
  simp only [compute, args, ↓reduceIte, claimed, failed]

theorem compute_fit {taken : List Value} {rest : ArgQueue} (args : i.args = true)
    (claimed : a.claim i q = .ok (taken, rest)) (read : integers .badOperand taken = .ok xs) :
    a.compute i w q = (a.ofQueued xs, rest) := by
  simp only [compute, args, ↓reduceIte, claimed, read]

theorem compute_literal (args : i.args = false) (op : i.int ≠ 0 ∧ (a = .add ∨ a = .mul)) :
    a.compute i w q = (w.currentInteger.bind fun n => a.ofWheel [n, i.int], q) := by
  obtain ⟨nonzero, rfl | rfl⟩ := op
  · cases under : w.currentInteger <;>
      simp [compute, args, direct, withLiteral?, nonzero, under, Except.map, Except.bind, ofWheel,
        ofQueued, sum]
  · cases under : w.currentInteger <;>
      simp [compute, args, direct, withLiteral?, nonzero, under, Except.map, Except.bind, ofWheel,
        ofQueued, product]

theorem compute_whole (args : i.args = false) (op : ¬ (i.int ≠ 0 ∧ (a = .add ∨ a = .mul))) :
    a.compute i w q = (a.overWheel w, q) := by
  have direct : a.direct i w = a.overWheel w := by
    unfold Arithmetic.direct
    cases a <;> simp_all [withLiteral?]
  simp [compute, args, direct]

theorem overWheel_cases (filled : w.isEmpty = false) :
    (∃ xs : List Int64, w.values.toList = xs.map .integer ∧ a.overWheel w = a.ofWheel xs) ∨
      ∃ v ∈ w.values.toList, v.integer? = none ∧ a.overWheel w = .error (.notNumeric v) := by
  rcases integers_cases .notNumeric w.values.toList with
    ⟨xs, values, read⟩ | ⟨v, member, unfit, failed⟩
  · exact .inl ⟨xs, values, by simp [overWheel, filled, read]⟩
  · exact .inr ⟨v, member, unfit, by simp [overWheel, filled, failed]⟩

theorem whenEmpty_kind (a : Arithmetic) :
    a.whenEmpty.kind = if a = .add ∨ a = .mul then .emptyWheel else .notEnoughArgs := by
  cases a <;> rfl

end Arithmetic

namespace Machine

variable {m : Machine} {i : Instruction} {a : Arithmetic} {cause : Fault} {v old : Value}
  {q : ArgQueue}

theorem perform_arithmetic (op : i.opcode = a.opcode) : m.perform i = m.arithmetic i a := by
  unfold perform
  rw [op]
  cases a <;> rfl

theorem raises_of_compute (op : i.opcode = a.opcode)
    (computed : a.compute i m.wheel m.queue = (.error cause, q)) : m.Raises i cause q := by
  unfold Raises
  rw [perform_arithmetic op, arithmetic, computed]
  rfl

theorem raises_of_absent (op : i.opcode = a.opcode)
    (computed : a.compute i m.wheel m.queue = (.ok v, q)) (absent : m.wheel.current = .error cause) :
    m.Raises i cause q := by
  have same : wheel { m with queue := q } = m.wheel := rfl
  unfold Raises
  rw [perform_arithmetic op, arithmetic, computed]
  simp only [store, same, absent]
  rfl

theorem perform_stores (op : i.opcode = a.opcode)
    (computed : a.compute i m.wheel m.queue = (.ok v, q)) (under : m.wheel.current = .ok old) :
    m.perform i = .go (m.having (m.wheel.put v) q).advance := by
  have same : wheel { m with queue := q } = m.wheel := rfl
  rw [perform_arithmetic op, arithmetic, computed]
  simp only [store, same, under]
  rfl

/-- What becomes of an arithmetic instruction: it fails with a fault of this kind, or it stores the
result of its operands. -/
inductive Outcome (m : Machine) (i : Instruction) (a : Arithmetic) : Option FaultKind → Prop where
  | fails {cause : Fault} {q : ArgQueue} (raised : m.Raises i cause q) :
      Outcome m i a (some cause.kind)
  | stores {xs : List Int64} {v : Value} {q : ArgQueue}
      (operands : a.Operands i m.wheel m.queue.toList xs) (enough : a.least ≤ xs.length)
      (sound : ¬ (a = .div ∧ 0 ∈ xs.tail))
      (computed : (if i.args then a.ofQueued xs else a.ofWheel xs) = .ok v)
      (inside : m.wheel.cursor < m.wheel.size)
      (stored : m.perform i = .go (m.having (m.wheel.put v) q).advance)
      (left : q.toList = m.queue.toList.drop (if i.args then i.int.toInt.toNat else 0)) :
      Outcome m i a none

theorem fails_with {kind : FaultKind} (raised : m.Raises i cause q) (same : cause.kind = kind) :
    Outcome m i a (some kind) := same ▸ .fails raised

theorem stores_filled {xs : List Int64} (op : i.opcode = a.opcode) (seated : m.wheel.Seated)
    (filled : m.wheel.isEmpty = false) (operands : a.Operands i m.wheel m.queue.toList xs)
    (enough : a.least ≤ xs.length) (sound : ¬ (a = .div ∧ 0 ∈ xs.tail))
    (result : (if i.args then a.ofQueued xs else a.ofWheel xs) = .ok v)
    (computed : a.compute i m.wheel m.queue = (.ok v, q))
    (left : q.toList = m.queue.toList.drop (if i.args then i.int.toInt.toNat else 0)) :
    Outcome m i a none := by
  obtain ⟨old, under⟩ := Wheel.seated_current seated filled
  exact .stores operands enough sound result (Wheel.seated_lt seated filled)
    (perform_stores op computed under) left

theorem queued_outcome (op : i.opcode = a.opcode) (seated : m.wheel.Seated)
    (args : i.args = true) :
    Outcome m i a (a.queuedObstacle? i.int m.wheel m.queue.toList) := by
  unfold Arithmetic.queuedObstacle?
  simp only
  split
  · rename_i negative
    have claimed : a.claim i m.queue = _ := Arithmetic.claim_negative negative
    exact .fails (raises_of_compute op (Arithmetic.compute_refused args claimed))
  · rename_i natural
    split
    · rename_i few
      obtain ⟨cause, claimed, kind⟩ := Arithmetic.claim_few natural few
      exact fails_with (raises_of_compute op (Arithmetic.compute_refused args claimed)) kind
    · rename_i enough
      obtain ⟨rest, claimed, dropped, least, count⟩ := Arithmetic.claim_enough natural enough
      -- From here on the claimed values are gone, whether they turn out to be fit or not.
      generalize given : m.queue.toList.take i.int.toInt.toNat = taken at *
      rcases Arithmetic.integers_cases .badOperand taken with
        ⟨xs, rfl, read⟩ | ⟨v, member, unfit, failed⟩
      · rw [if_neg (Arithmetic.all_integers xs)]
        rw [List.length_map] at least count
        have computed : a.compute i m.wheel m.queue = (a.ofQueued xs, rest) :=
          Arithmetic.compute_fit args claimed read
        simp only [Arithmetic.zero_divisor]
        rcases Arithmetic.ofQueued_cases least with ⟨zero, failed⟩ | ⟨sound, n, result⟩
        · rw [if_pos zero]
          rw [failed] at computed
          exact .fails (raises_of_compute op computed)
        · rw [if_neg sound]
          rw [result] at computed
          split
          · rename_i empty
            exact .fails (raises_of_absent op computed (Wheel.empty_current empty))
          · rename_i filled
            have length : i.int.toInt.toNat = xs.length := by omega
            have operands : a.Operands i m.wheel m.queue.toList xs :=
              .queued args count (length ▸ given)
            exact stores_filled op seated (by simpa using filled) operands least sound
              (by rw [if_pos args, result]) computed (by rw [if_pos args, dropped])
      · rw [if_pos ⟨v, member, unfit⟩]
        exact .fails (raises_of_compute op (Arithmetic.compute_unfit args claimed failed))

theorem literal_outcome (op : i.opcode = a.opcode) (seated : m.wheel.Seated)
    (args : i.args = false) (literal : i.int ≠ 0 ∧ (a = .add ∨ a = .mul)) :
    Outcome m i a (Arithmetic.literalObstacle? m.wheel) := by
  have computed : a.compute i m.wheel m.queue = _ := Arithmetic.compute_literal args literal
  unfold Arithmetic.literalObstacle?
  split
  · rename_i empty
    rw [Wheel.currentInteger, Wheel.empty_current empty] at computed
    exact .fails (raises_of_compute op computed)
  · rename_i filled
    rw [Bool.not_eq_true] at filled
    obtain ⟨v, under⟩ := Wheel.seated_current seated filled
    rw [Wheel.current_iff.mp under, Option.bind_some]
    rw [Wheel.currentInteger, under] at computed
    cases v with
    | text s => exact .fails (raises_of_compute op computed)
    | float x => exact .fails (raises_of_compute op computed)
    | integer n =>
      have operands : a.Operands i m.wheel m.queue.toList [n, i.int] :=
        .literal args literal under
      have noDivision : ¬ (a = .div ∧ 0 ∈ [n, i.int].tail) := by
        rintro ⟨rfl, _⟩
        simp at literal
      have nonempty : [n, i.int] ≠ [] := List.cons_ne_nil n [i.int]
      rcases Arithmetic.ofWheel_cases (a := a) nonempty with ⟨zero, _⟩ | ⟨_, v, result⟩
      · exact absurd zero noDivision
      · have stored : a.compute i m.wheel m.queue = (.ok v, m.queue) :=
          computed.trans (congrArg (fun r => (r, m.queue)) result)
        exact stores_filled op seated filled operands (Arithmetic.least_le nonempty) noDivision
          (by simpa [args] using result) stored (by simp [args])

theorem whole_outcome (op : i.opcode = a.opcode) (seated : m.wheel.Seated)
    (args : i.args = false) (whole : ¬ (i.int ≠ 0 ∧ (a = .add ∨ a = .mul))) :
    Outcome m i a (a.wheelObstacle? m.wheel) := by
  have computed : a.compute i m.wheel m.queue = _ := Arithmetic.compute_whole args whole
  unfold Arithmetic.wheelObstacle?
  split
  · rename_i empty
    rw [Arithmetic.overWheel, if_pos empty] at computed
    exact fails_with (raises_of_compute op computed) a.whenEmpty_kind
  · rename_i filled
    rw [Bool.not_eq_true] at filled
    rcases Arithmetic.overWheel_cases (a := a) filled with
      ⟨xs, values, folded⟩ | ⟨v, member, unfit, failed⟩
    · rw [values, if_neg (Arithmetic.all_integers xs)]
      rw [folded] at computed
      have nonempty : xs ≠ [] := by
        rintro rfl
        have none : m.wheel.values = #[] := by simpa using values
        simp [Wheel.isEmpty, none] at filled
      simp only [Arithmetic.zero_divisor]
      rcases Arithmetic.ofWheel_cases nonempty with ⟨zero, failed⟩ | ⟨sound, v, result⟩
      · rw [if_pos zero]
        rw [failed] at computed
        exact .fails (raises_of_compute op computed)
      · rw [if_neg sound]
        rw [result] at computed
        exact stores_filled op seated filled (.whole args whole values)
          (Arithmetic.least_le nonempty) sound (by simpa [args] using result) computed
          (by simp [args])
    · rw [if_pos ⟨v, member, unfit⟩]
      rw [failed] at computed
      exact .fails (raises_of_compute op computed)

theorem arithmetic_outcome (op : i.opcode = a.opcode) (seated : m.wheel.Seated) :
    Outcome m i a (a.obstacle? i m.wheel m.queue.toList) := by
  unfold Arithmetic.obstacle?
  split
  · rename_i args
    exact queued_outcome op seated args
  · rename_i plain
    have args : i.args = false := by simpa using plain
    split
    · rename_i literal
      exact literal_outcome op seated args literal
    · rename_i whole
      exact whole_outcome op seated args whole

/-- An arithmetic instruction on a wheel whose cursor is in place fails with the kind of its first
obstacle, and leaves the wheel alone; without one it replaces the value under the cursor, by an
integer or by the ratio of the whole wheel, and takes from the queue what it was told to. -/
theorem first_obstacle_decides (op : i.opcode = a.opcode) (seated : m.wheel.Seated) :
    (∀ kind, (∃ cause q, m.Raises i cause q ∧ cause.kind = kind) ↔
      a.obstacle? i m.wheel m.queue.toList = some kind) ∧
    (a.obstacle? i m.wheel m.queue.toList = none → ∃ v w q,
      m.perform i = .go (m.having w q).advance ∧ m.wheel.Swapped w v ∧
      (if a = .div ∧ i.args = false then ∃ x, v = .float x else ∃ n, v = .integer n) ∧
      q.toList = m.queue.toList.drop (if i.args then i.int.toInt.toNat else 0)) := by
  have outcome := arithmetic_outcome op seated
  generalize a.obstacle? i m.wheel m.queue.toList = obstacle at outcome
  cases outcome with
  | @fails cause q raised =>
    constructor
    · intro kind
      constructor
      · rintro ⟨other, rest, also, rfl⟩
        have same := also.symm.trans raised
        rw [Effect.fault.injEq, Crash.mk.injEq] at same
        rw [same.1.1]
      · intro same
        exact ⟨cause, q, raised, Option.some.inj same⟩
    · intro none
      cases none
  | @stores xs v q operands enough sound computed inside stored left =>
    constructor
    · intro kind
      constructor
      · rintro ⟨cause, rest, raised, _⟩
        cases stored.symm.trans raised
      · intro same
        cases same
    · intro _
      exact ⟨v, m.wheel.put v, q, stored, Wheel.swapped_put inside v,
        Arithmetic.result_kind computed, left⟩

def holding (values queued : List Value) : Machine :=
  { start ⟨#[]⟩ none with frames := { active := .ofValues values }, queue := { front := queued } }

theorem obstacles_ranked :
    let divide : Instruction := { opcode := .div, int := 2, args := true }
    let full := holding [.text "x"] [.integer 7, .integer 2, .text "y"]
    (∃ cause q, (holding [] [.integer 5, .integer 0]).Raises divide cause q ∧
      cause.kind = .divisionByZero) ∧
    (∃ cause q, (holding [] [.text "x", .integer 0]).Raises divide cause q ∧
      cause.kind = .arithmeticError) ∧
    ∃ v w q, full.perform divide = .go (full.having w q).advance ∧ w.values[0]? = some v ∧
      (∃ n, v = .integer n) ∧ q.toList = [.text "y"] := by
  intro divide full
  have divides : divide.opcode = Arithmetic.opcode .div := rfl
  obtain ⟨zero, _⟩ := first_obstacle_decides (m := holding [] [.integer 5, .integer 0]) divides
    (Wheel.seated_ofValues [])
  obtain ⟨unfit, _⟩ := first_obstacle_decides (m := holding [] [.text "x", .integer 0]) divides
    (Wheel.seated_ofValues [])
  obtain ⟨_, stores⟩ := first_obstacle_decides (m := full) divides
    (Wheel.seated_ofValues [.text "x"])
  obtain ⟨v, w, q, stored, swapped, integer, left⟩ := stores (by decide)
  exact ⟨(zero _).mpr (by decide), (unfit _).mpr (by decide), v, w, q, stored, swapped.slot,
    integer, left⟩

end Machine
end Wheelwork
