import Wheelwork.Proofs.JsonText
import Wheelwork.Proofs.Listing
import Wheelwork.Proofs.Scaling

/-!
Programs read back from their JSON text. All of an instruction but its fraction comes back as it
was. A fraction comes back as the value that its numeral is read as, and one that is no number does
not come back at all.
-/
namespace Wheelwork

namespace Json

def reread? (x : Float) : Option Float := (float x).float?

/-- A finite value whose numeral is read without rounding twice. -/
def Exact (x : Float) : Prop := ∃ n, Numeral.ofFloat? numbers x = some n ∧ n.Short

theorem reread_finite {x : Float} (finite : Numeral.magnitude x < Decimal.infinityBits) :
    ∃ y, reread? x = some y ∧ (Exact x → y = x) := by
  obtain ⟨n, y, shown, value, exact⟩ := Numeral.ofFloat_value finite
  refine ⟨y, by simp [reread?, float, shown, float?, value], ?_⟩
  rintro ⟨other, same, short⟩
  obtain rfl := Option.some.inj (shown.symm.trans same)
  exact exact short

theorem reread_infinite {x : Float} (infinite : ¬ Numeral.magnitude x < Decimal.infinityBits) :
    reread? x = none := by
  simp [reread?, float, Numeral.ofFloat?, infinite, float?]

theorem ofInt_isWord {n : ℤ} (fits : n.natAbs < UInt64.size) : (Numeral.ofInt n).isWord = true := by
  simp [Numeral.ofInt, Numeral.isWord, fits]

theorem int64_int (n : Int64) : int64? (int n.toInt) = some n := by
  have low : -9223372036854775808 ≤ n.toInt := n.minValue_le_toInt
  have high : n.toInt ≤ 9223372036854775807 := n.toInt_le
  have word : (Numeral.ofInt n.toInt).isWord = true := by
    refine ofInt_isWord ?_
    simp only [UInt64.size]
    omega
  have whole : (Numeral.ofInt n.toInt).whole = n.toInt.natAbs := rfl
  simp only [int, int64?, word, whole, Bool.not_true, Bool.false_eq_true, ↓reduceIte]
  by_cases negative : n.toInt < 0
  · have sign : (Numeral.ofInt n.toInt).negative = true := decide_eq_true negative
    have some : n.toInt.natAbs ≠ 0 := by omega
    have value : -(n.toInt.natAbs : ℤ) = n.toInt := by omega
    rw [sign, if_pos rfl, if_neg some, value, Lexer.toInt64_toInt]
  · have sign : (Numeral.ofInt n.toInt).negative = false := decide_eq_false negative
    have value : (n.toInt.natAbs : ℤ) = n.toInt := by omega
    rw [sign, if_neg Bool.false_ne_true, value, Lexer.toInt64_toInt]

theorem uint32_int (n : UInt32) : uint32? (int n.toNat) = some n := by
  have inside : n.toNat < UInt32.size := n.toNat_lt
  have word : (Numeral.ofInt n.toNat).isWord = true :=
    ofInt_isWord (Nat.lt_trans inside (by decide))
  have sign : ¬ (n.toNat : ℤ) < 0 := by omega
  simp only [int, uint32?, word]
  simp [Numeral.ofInt, sign, inside]

theorem float_plain (x : Float) : Plain (float x) := by
  unfold float
  split
  · rename_i n shown
    simp only [Numeral.ofFloat?] at shown
    split at shown
    · obtain rfl := Option.some.inj shown
      exact Numeral.ofDecimal_fraction _ _ _
    · cases shown
  · trivial

end Json

namespace Instruction

theorem json_plain (i : Instruction) : i.json.Plain := by
  simp [json, Json.Plain, Json.PlainFields, Json.int, Numeral.ofInt, Json.float_plain]

theorem ofJson_json (i : Instruction) :
    ofJson? i.json = (Json.reread? i.float).map fun x => { i with float := x } := by
  unfold Json.reread?
  cases back : (Json.float i.float).float? <;>
    simp [ofJson?, json, Json.record?, Json.field?, Opcode.ofJson?, ofMnemonic_mnemonic,
      Json.int64_int, Json.uint32_int, Json.string?, Json.bool?, back]

def Reread (i j : Instruction) : Prop :=
  ∃ x, Json.reread? i.float = some x ∧ j = { i with float := x }

end Instruction

namespace Program

theorem json_plain (p : Program) : p.json.Plain := by
  have items : Json.PlainItems (p.instructions.toList.map Instruction.json) := by
    induction p.instructions.toList with
    | nil => trivial
    | cons i rest ih => exact ⟨i.json_plain, ih⟩
  exact ⟨items, trivial⟩

theorem mapM_json {is js : List Instruction} :
    (is.map Instruction.json).mapM Instruction.ofJson? = some js ↔
      List.Forall₂ Instruction.Reread is js := by
  induction is generalizing js with
  | nil => simp [eq_comm]
  | cons i is ih =>
    rw [List.map_cons, List.mapM_cons, Instruction.ofJson_json]
    cases back : Json.reread? i.float with
    | none => simp [List.forall₂_cons_left_iff, Instruction.Reread, back]
    | some x =>
      rw [List.forall₂_cons_left_iff]
      simp only [← ih]
      cases (is.map Instruction.json).mapM Instruction.ofJson? with
      | none => simp
      | some rest => simp [Instruction.Reread, back, eq_comm]

/-- What comes back from the JSON text of a program, and when anything does. -/
theorem ofJsonText_iff {p q : Program} :
    ofJsonText? p.json.compress = some q ↔
      List.Forall₂ Instruction.Reread p.instructions.toList q.instructions.toList := by
  rw [ofJsonText?, Json.read_compress p.json_plain, Option.bind_some, ← mapM_json]
  obtain ⟨js⟩ := q
  cases read : (p.instructions.toList.map Instruction.json).mapM Instruction.ofJson? with
  | none => simp [json, ofJson?, Json.record?, Json.field?, Json.array?, read]
  | some found =>
    have array : found.toArray = js ↔ found = js.toList := by
      constructor
      · rintro rfl
        rfl
      · rintro rfl
        exact Array.toArray_toList
    simpa [json, ofJson?, Json.record?, Json.field?, Json.array?, read] using array

end Program

end Wheelwork
