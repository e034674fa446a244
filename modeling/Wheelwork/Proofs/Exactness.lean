import Mathlib
import Wheelwork.Proofs.Precedence

/-!
Arithmetic that wraps at every step against arithmetic over all integers that is brought back into
64 bits once, at the end. For sums, products and differences the two agree. A quotient needs no
wrapping at all: dividing in turn is dividing by the product, however large that is, unless the
dividend is the least integer.
-/
namespace Wheelwork

theorem tdiv_tdiv (n d e : Int) : (n.tdiv d).tdiv e = n.tdiv (d * e) := by
  have natural : ∀ n d e : Nat, ((n : Int).tdiv d).tdiv e = (n : Int).tdiv (d * e) := by
    intro n d e
    rw [← Int.ofNat_tdiv, ← Int.ofNat_tdiv, ← Int.natCast_mul, ← Int.ofNat_tdiv,
      Nat.div_div_eq_div_mul]
  -- Signs move out of both sides alike.
  obtain ⟨n, rfl | rfl⟩ := n.eq_nat_or_neg <;> obtain ⟨d, rfl | rfl⟩ := d.eq_nat_or_neg <;>
    obtain ⟨e, rfl | rfl⟩ := e.eq_nat_or_neg <;>
    simp only [Int.neg_tdiv, Int.tdiv_neg, Int.neg_mul, Int.mul_neg, Int.neg_neg, natural]

namespace Arithmetic

def wrap (n : Int) : Int := n.bmod (2 ^ 64)

/-- One division toward zero. Only the least integer by `-1` has a quotient beyond 64 bits. -/
def divided (n d : Int) : Int := if n = -2 ^ 63 ∧ d = -1 then -2 ^ 63 else n.tdiv d

/-- The result over integers of any size, wrapped at the end or not at all. -/
def ofIntegers : Arithmetic → List Int → Int
  | .add, ns => wrap ns.sum
  | .mul, ns => wrap ns.prod
  | .sub, n :: ns => wrap (n - ns.sum)
  | .div, n :: ns => if n = -2 ^ 63 then ns.foldl divided n else n.tdiv ns.prod
  | _, [] => 0

variable {a : Arithmetic} {i : Instruction} {w : Wheel} {queued : List Value} {xs ys : List Int64}
  {v : Value}

theorem foldl_wrap {f : Int64 → Int64 → Int64} {g : Int → Int → Int}
    (step : ∀ x y, (f x y).toInt = wrap (g x.toInt y.toInt))
    (absorbs : ∀ n d, wrap (g (wrap n) d) = wrap (g n d)) (x : Int64) (xs : List Int64) :
    (xs.foldl f x).toInt = wrap ((xs.map Int64.toInt).foldl g x.toInt) := by
  have wrapped : wrap x.toInt = x.toInt := Int64.toInt_bmod x
  -- First out of the machine integers, wrapping at each step, then all wrapping to the end.
  calc (xs.foldl f x).toInt
      = (xs.map Int64.toInt).foldl (fun n d => wrap (g n d)) x.toInt := by
        rw [List.foldl_map]
        exact (List.foldl_hom Int64.toInt fun x y => (step x y).symm).symm
    _ = wrap ((xs.map Int64.toInt).foldl g x.toInt) := by
        conv_lhs => rw [← wrapped]
        exact List.foldl_hom wrap absorbs

theorem sum_exact (xs : List Int64) : (sum xs).toInt = wrap (xs.map Int64.toInt).sum := by
  rw [sum, foldl_wrap Int64.toInt_add (fun _ _ => Int.bmod_add_bmod), List.sum_eq_foldl]
  rfl

theorem product_exact (xs : List Int64) : (product xs).toInt = wrap (xs.map Int64.toInt).prod := by
  rw [product, foldl_wrap Int64.toInt_mul (fun _ _ => Int.bmod_mul_bmod), List.prod_eq_foldl]
  rfl

theorem foldl_sub (n : Int) (ns : List Int) : ns.foldl (· - ·) n = n - ns.sum := by
  induction ns generalizing n with
  | nil => simp
  | cons d ns ih =>
    rw [List.foldl_cons, ih, List.sum_cons]
    omega

theorem difference_exact (x : Int64) (xs : List Int64) :
    (xs.foldl (· - ·) x).toInt = wrap (x.toInt - (xs.map Int64.toInt).sum) := by
  rw [foldl_wrap Int64.toInt_sub (fun _ _ => Int.bmod_sub_bmod), foldl_sub]

theorem div_exact (x y : Int64) : (x / y).toInt = divided x.toInt y.toInt := by
  by_cases edge : x = Int64.minValue ∧ y = -1
  · obtain ⟨rfl, rfl⟩ := edge
    decide
  · have inside : ¬ (x.toInt = -2 ^ 63 ∧ y.toInt = -1) := by
      rintro ⟨least, unit⟩
      exact edge ⟨Int64.toInt_inj.mp (least.trans Int64.toInt_minValue.symm),
        Int64.toInt_inj.mp unit⟩
    rw [divided, if_neg inside]
    by_cases least : x = Int64.minValue
    · exact Int64.toInt_div_of_ne_right x y fun unit => edge ⟨least, unit⟩
    · exact Int64.toInt_div_of_ne_left x y least

/-- Away from the least integer no quotient wraps, for none is further from zero than its
dividend. -/
theorem foldl_divided (ns : List Int) (n : Int) (small : n.natAbs < 2 ^ 63) :
    ns.foldl divided n = n.tdiv ns.prod := by
  induction ns generalizing n with
  | nil => simp
  | cons d ns ih =>
    have plain : divided n d = n.tdiv d := if_neg (by omega)
    have shrinks := Int.natAbs_tdiv_le_natAbs n d
    rw [List.foldl_cons, plain, ih _ (by omega), tdiv_tdiv, List.prod_cons]

theorem quotient_exact (x : Int64) (xs : List Int64) :
    (xs.foldl (· / ·) x).toInt = ofIntegers .div ((x :: xs).map Int64.toInt) := by
  have folded : (xs.foldl (· / ·) x).toInt = (xs.map Int64.toInt).foldl divided x.toInt := by
    rw [List.foldl_map]
    exact (List.foldl_hom Int64.toInt fun x y => (div_exact x y).symm).symm
  rw [folded, List.map_cons, ofIntegers]
  split
  · rfl
  · rename_i other
    have lower := x.le_toInt
    have upper := x.toInt_lt
    exact foldl_divided _ _ (by omega)

theorem ofQueued_exact (computed : a.ofQueued xs = .ok v) :
    ∃ r : Int64, v = .integer r ∧ r.toInt = a.ofIntegers (xs.map Int64.toInt) := by
  cases a with
  | add => exact ⟨sum xs, (Except.ok.inj computed).symm, sum_exact xs⟩
  | mul => exact ⟨product xs, (Except.ok.inj computed).symm, product_exact xs⟩
  | sub =>
    cases xs with
    | nil => cases computed
    | cons x xs => exact ⟨_, (Except.ok.inj computed).symm, difference_exact x xs⟩
  | div =>
    cases xs with
    | nil => cases computed
    | cons x xs =>
      simp only [ofQueued, quotient] at computed
      split at computed
      · cases computed
      · exact ⟨_, (Except.ok.inj computed).symm, quotient_exact x xs⟩

theorem ofIntegers_perm {ns ms : List Int} (perm : ns.Perm ms)
    (first : a = .sub ∨ a = .div → ns.head? = ms.head?)
    (greater : a = .div → ns.head? ≠ some (-2 ^ 63)) : a.ofIntegers ns = a.ofIntegers ms := by
  cases a with
  | add => exact congrArg wrap perm.sum_eq
  | mul => exact congrArg wrap perm.prod_eq
  | sub =>
    cases ns with
    | nil => rw [List.nil_perm.mp perm]
    | cons n ns =>
      cases ms with
      | nil => cases first (.inl rfl)
      | cons m ms =>
        obtain rfl : n = m := Option.some.inj (first (.inl rfl))
        rw [ofIntegers, ofIntegers, perm.cons_inv.sum_eq]
  | div =>
    cases ns with
    | nil => rw [List.nil_perm.mp perm]
    | cons n ns =>
      cases ms with
      | nil => cases first (.inr rfl)
      | cons m ms =>
        obtain rfl : n = m := Option.some.inj (first (.inr rfl))
        have above : n ≠ -2 ^ 63 := fun least => greater rfl (congrArg some least)
        rw [ofIntegers, ofIntegers, if_neg above, if_neg above, perm.cons_inv.prod_eq]

theorem Operands.unique (one : a.Operands i w queued xs) (other : a.Operands i w queued ys) :
    xs = ys := by
  have injective : ∀ x y : Int64, Value.integer x = Value.integer y → x = y := by
    intro x y same
    exact Value.integer.inj same
  cases one with
  | queued args count taken =>
    cases other with
    | queued _ count' taken' =>
      have length : xs.length = ys.length := by omega
      rw [length, taken'] at taken
      exact ((List.map_inj_right injective).mp taken).symm
    | literal plain => simp [args] at plain
    | whole plain => simp [args] at plain
  | literal plain op under =>
    cases other with
    | queued args => simp [plain] at args
    | literal _ _ under' =>
      rw [under] at under'
      rw [injective _ _ (Except.ok.inj under')]
    | whole _ none => exact absurd op none
  | whole plain op values =>
    cases other with
    | queued args => simp [plain] at args
    | literal _ some => exact absurd some op
    | whole _ _ values' =>
      exact (List.map_inj_right injective).mp (values.symm.trans values')

theorem Operands.unobstructed (operands : a.Operands i w queued xs) (enough : a.least ≤ xs.length)
    (sound : ¬ (a = .div ∧ 0 ∈ xs.tail)) (filled : w.isEmpty = false) :
    a.obstacle? i w queued = none := by
  unfold obstacle?
  cases operands with
  | queued args count taken =>
    have number : i.int.toInt.toNat = xs.length := by omega
    have natural : ¬ i.int < 0 := by
      rw [Int64.lt_iff_toInt_lt, Int64.toInt_zero]
      omega
    have present : xs.length ≤ queued.length := by
      have length := congrArg List.length taken
      rw [List.length_take, List.length_map] at length
      omega
    have served : ¬ (i.int = 0 ∧ a ≠ .add ∨ (queued.length : Int) < i.int.toInt) := by
      rintro (⟨zero, other⟩ | few)
      · rw [zero, Int64.toInt_zero] at count
        cases a <;> simp only [least] at enough <;> first | exact other rfl | omega
      · omega
    rw [if_pos args]
    simp only [queuedObstacle?, if_neg natural, if_neg served, number, taken, zero_divisor,
      if_neg (all_integers xs), if_neg sound, filled]
    rfl
  | literal args op under =>
    rw [if_neg (by simp [args]), if_pos op]
    simp [literalObstacle?, filled, Wheel.current_iff.mp under, Value.integer?]
  | whole args op values =>
    rw [if_neg (by simp [args]), if_neg op]
    simp only [wheelObstacle?, filled, values, zero_divisor, if_neg (all_integers xs),
      if_neg sound]
    rfl

end Arithmetic

namespace Machine

variable {m m' k : Machine} {i : Instruction} {a : Arithmetic} {xs : List Int64} {n : Int}

theorem current_of_go (op : i.opcode = a.opcode) (performed : m.perform i = .go m') :
    ∃ v, m.wheel.current = .ok v := by
  have unfailing : ∀ cause q, ¬ m.Raises i cause q := by
    intro cause q raised
    cases performed.symm.trans raised
  rcases computed : a.compute i m.wheel m.queue with ⟨cause | v, q⟩
  · exact absurd (raises_of_compute op computed) (unfailing cause q)
  · cases under : m.wheel.current with
    | error cause => exact absurd (raises_of_absent op computed under) (unfailing cause q)
    | ok old => exact ⟨old, rfl⟩

theorem outcome_of_go (op : i.opcode = a.opcode) (performed : m.perform i = .go m') :
    Outcome m i a none := by
  obtain ⟨v, under⟩ := current_of_go op performed
  have outcome := arithmetic_outcome op (Wheel.seated_of_current under).1
  cases found : a.obstacle? i m.wheel m.queue.toList with
  | none =>
    rw [found] at outcome
    exact outcome
  | some kind =>
    rw [found] at outcome
    cases outcome with
    | fails raised => cases performed.symm.trans raised

def Shows (m : Machine) (n : Int) : Prop :=
  ∃ r : Int64, m.wheel.current = .ok (.integer r) ∧ r.toInt = n

theorem Shows.current_eq (one : m.Shows n) (other : k.Shows n) :
    m.wheel.current = k.wheel.current := by
  obtain ⟨r, under, rfl⟩ := one
  obtain ⟨t, below, same⟩ := other
  rw [under, below, Int64.toInt_inj.mp same]

structure Folds (m : Machine) (i : Instruction) (a : Arithmetic) (xs : List Int64) (m' : Machine) :
    Prop where
  op : i.opcode = a.opcode
  integral : a = .div → i.args = true
  operands : a.Operands i m.wheel m.queue.toList xs
  performed : m.perform i = .go m'

theorem Folds.shows (folds : m.Folds i a xs m') : m'.Shows (a.ofIntegers (xs.map Int64.toInt)) := by
  cases outcome_of_go folds.op folds.performed with
  | @stores ys v q operands enough sound computed inside stored left =>
    obtain rfl : xs = ys := folds.operands.unique operands
    have result : a.ofQueued xs = .ok v := by
      cases args : i.args with
      | true => rwa [if_pos args] at computed
      | false =>
        rw [if_neg (by simp [args])] at computed
        cases a with
        | div => cases args.symm.trans (folds.integral rfl)
        | add => exact computed
        | sub => exact computed
        | mul => exact computed
    obtain ⟨r, rfl, same⟩ := Arithmetic.ofQueued_exact result
    obtain rfl := Effect.go.inj (folds.performed.symm.trans stored)
    exact ⟨r, Wheel.current_iff.mpr (Wheel.swapped_put inside _).slot, same⟩

/-- An arithmetic instruction succeeds exactly where its operands are there and sound, and there is
a value to replace. What it then leaves under the cursor is the exact result of the operands; their
order matters for the first one of a difference or a quotient only, and for all divisors of the
least integer. -/
theorem folds_are_exact (op : i.opcode = a.opcode) :
    ((∃ m', m.perform i = .go m') ↔ (∃ v, m.wheel.current = .ok v) ∧
      ∃ xs, a.Operands i m.wheel m.queue.toList xs ∧ a.least ≤ xs.length ∧
        ¬ (a = .div ∧ 0 ∈ xs.tail)) ∧
    ∀ xs m', m.Folds i a xs m' → m'.Shows (a.ofIntegers (xs.map Int64.toInt)) ∧
      ∀ (k k' : Machine) (j : Instruction) (ys : List Int64), k.Folds j a ys k' → xs.Perm ys →
        (a = .sub ∨ a = .div → xs.head? = ys.head?) →
        (a = .div → xs.head? ≠ some Int64.minValue) →
        m'.wheel.current = k'.wheel.current := by
  refine ⟨⟨?_, ?_⟩, ?_⟩
  · rintro ⟨m', performed⟩
    cases outcome_of_go op performed with
    | @stores xs v q operands enough sound computed inside stored left =>
      exact ⟨current_of_go op performed, xs, operands, enough, sound⟩
  · rintro ⟨⟨v, under⟩, xs, operands, enough, sound⟩
    obtain ⟨seated, filled⟩ := Wheel.seated_of_current under
    have outcome := arithmetic_outcome op seated
    rw [operands.unobstructed enough sound filled] at outcome
    cases outcome with
    | stores _ _ _ _ _ stored _ => exact ⟨_, stored⟩
  · intro xs m' folds
    refine ⟨folds.shows, ?_⟩
    intro k k' j ys others perm first greater
    have same : a.ofIntegers (xs.map Int64.toInt) = a.ofIntegers (ys.map Int64.toInt) := by
      apply Arithmetic.ofIntegers_perm (perm.map Int64.toInt)
      · intro ordered
        rw [List.head?_map, List.head?_map, first ordered]
      · intro division least
        rw [List.head?_map, ← Int64.toInt_minValue] at least
        obtain ⟨x, head, same⟩ := Option.map_eq_some_iff.mp least
        exact greater division (Int64.toInt_inj.mp same ▸ head)
    exact folds.shows.current_eq (same ▸ others.shows)

def folding (a : Arithmetic) (xs : List Int64) : Effect :=
  (holding [.text "x"] (xs.map .integer)).perform
    { opcode := a.opcode, int := .ofNat xs.length, args := true }

theorem edges_fold_exactly :
    (∃ m', folding .add [Int64.maxValue, 1, 1] = .go m' ∧ m'.Shows (-2 ^ 63 + 1)) ∧
    (∃ m', folding .div [Int64.maxValue, 0x4000000000000000, -8] = .go m' ∧ m'.Shows 0) ∧
    (∃ m' k', folding .div [-7, 2, -3] = .go m' ∧ folding .div [-7, -3, 2] = .go k' ∧
      m'.Shows 1 ∧ m'.wheel.current = k'.wheel.current) ∧
    (∃ m', folding .div [Int64.minValue, -1, 2] = .go m' ∧ m'.Shows (-2 ^ 62)) ∧
    ∃ m', folding .div [Int64.minValue, 2, -1] = .go m' ∧ m'.Shows (2 ^ 62) := by
  have folds : ∀ a xs, (xs.length : Int) = (Int64.ofNat xs.length).toInt → a.least ≤ xs.length →
      ¬ (a = .div ∧ 0 ∈ xs.tail) → ∃ m', (holding [.text "x"] (xs.map .integer)).Folds
        { opcode := a.opcode, int := .ofNat xs.length, args := true } a xs m' := by
    intro a xs count enough sound
    have operands : a.Operands { opcode := a.opcode, int := .ofNat xs.length, args := true }
        (Wheel.ofValues [.text "x"]) (holding [.text "x"] (xs.map .integer)).queue.toList xs :=
      .queued rfl count (by simp [holding, ArgQueue.toList, List.take_of_length_le])
    obtain ⟨performs, _⟩ := folds_are_exact (m := holding [.text "x"] (xs.map .integer))
      (i := { opcode := a.opcode, int := .ofNat xs.length, args := true }) rfl
    obtain ⟨m', performed⟩ := performs.mpr ⟨⟨.text "x", rfl⟩, xs, operands, enough, sound⟩
    exact ⟨m', rfl, fun _ => rfl, operands, performed⟩
  obtain ⟨full, added⟩ := folds .add [Int64.maxValue, 1, 1] (by decide) (by decide) (by decide)
  obtain ⟨tiny, divided⟩ :=
    folds .div [Int64.maxValue, 0x4000000000000000, -8] (by decide) (by decide) (by decide)
  obtain ⟨left, one⟩ := folds .div [-7, 2, -3] (by decide) (by decide) (by decide)
  obtain ⟨right, other⟩ := folds .div [-7, -3, 2] (by decide) (by decide) (by decide)
  obtain ⟨early, first⟩ := folds .div [Int64.minValue, -1, 2] (by decide) (by decide) (by decide)
  obtain ⟨late, last⟩ := folds .div [Int64.minValue, 2, -1] (by decide) (by decide) (by decide)
  obtain ⟨shown, ordered⟩ := (folds_are_exact one.op).2 _ _ one
  exact ⟨⟨full, added.performed, ((folds_are_exact added.op).2 _ _ added).1⟩,
    ⟨tiny, divided.performed, ((folds_are_exact divided.op).2 _ _ divided).1⟩,
    ⟨left, right, one.performed, other.performed, shown,
      ordered _ _ _ _ other (by decide) (by decide) (by decide)⟩,
    ⟨early, first.performed, ((folds_are_exact first.op).2 _ _ first).1⟩,
    ⟨late, last.performed, ((folds_are_exact last.op).2 _ _ last).1⟩⟩

end Machine
end Wheelwork
