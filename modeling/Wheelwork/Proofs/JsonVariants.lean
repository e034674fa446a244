import Wheelwork.Proofs.ProgramJson

/-!
Programs without fractions are read back from their JSON text as they were. The order of the fields
of an instruction does not matter, and a field that holds its default may be missing. So the bytes
that a fingerprint is taken of belong to one such program only.
-/
namespace Wheelwork

namespace Json

section Fields

variable {α : Type} {key : String} {decode : Json → Option α} {absent : Option α}
  {fields kept : List (String × Json)}

theorem field_perm (same : fields.Perm kept) :
    field? key decode absent fields = field? key decode absent kept := by
  have found := same.filter fun f => f.1 == key
  unfold field?
  generalize fields.filter (fun f => f.1 == key) = one at found ⊢
  generalize kept.filter (fun f => f.1 == key) = other at found ⊢
  rcases one with _ | ⟨a, _ | ⟨b, more⟩⟩
  · rw [List.nil_perm.mp found]
  · rw [List.singleton_perm.mp found]
  · -- a key that occurs twice is refused in any order
    have long := found.length_eq
    rcases other with _ | ⟨c, _ | ⟨d, rest⟩⟩
    · simp at long
    · simp at long
    · rfl

/-- A field that occurs once is read the same from a part of the fields, if it is missing there only
where its value is the one that an absent field stands for. -/
theorem field_kept {value : Json} {a : α}
    (once : fields.filter (fun f => f.1 == key) = [(key, value)]) (part : kept.Sublist fields)
    (read : decode value = some a) (missing : (key, value) ∉ kept → absent = some a) :
    field? key decode absent kept = some a := by
  have found := part.filter fun f => f.1 == key
  rw [once, List.sublist_singleton] at found
  unfold field?
  rcases found with none | one
  · rw [none]
    apply missing
    intro member
    have present : (key, value) ∈ kept.filter (fun f => f.1 == key) := by simpa using member
    simp [none] at present
  · rw [one]
    exact read

end Fields

theorem plainFields_iff {fields : List (String × Json)} :
    PlainFields fields ↔ ∀ f ∈ fields, Plain f.2 := by
  induction fields with
  | nil => simp [PlainFields]
  | cons f rest ih => simp [PlainFields, ih]

theorem reread_zero : reread? 0 = some 0 := by
  have exact : Exact 0 :=
    ⟨⟨false, 0, ['0'], none⟩, by decide +kernel, by decide +kernel, by decide +kernel⟩
  obtain ⟨x, read, same⟩ := reread_finite (x := 0) (by decide +kernel)
  rw [read, same exact]

end Json

namespace Instruction

variable {i : Instruction} {j : Json} {key : String}

def Idle (i : Instruction) : String → Prop
  | "int_arg" => i.int = 0
  | "text_arg" => i.text = ""
  | "float_arg" => i.float = 0
  | "args_flag" => i.args = false
  | "line" => i.line = 0
  | _ => False

/-- The JSON form of the instruction with its fields in any order, where fields that hold their
default may be left out. -/
def Variant (i : Instruction) (j : Json) : Prop :=
  ∃ all kept fields, i.json = .object all ∧ kept.Sublist all ∧
    (∀ f ∈ all, f ∉ kept → i.Idle f.1) ∧ fields.Perm kept ∧ j = .object fields

theorem json_variant (i : Instruction) : i.Variant i.json :=
  ⟨_, _, _, rfl, .refl _, fun _ member absent => absurd member absent, .refl _, rfl⟩

theorem Variant.plain (variant : i.Variant j) : j.Plain := by
  obtain ⟨all, kept, fields, form, part, _, order, rfl⟩ := variant
  have whole : Json.PlainFields all := by
    have plain := i.json_plain
    rwa [form] at plain
  have each := Json.plainFields_iff.mp whole
  apply Json.plainFields_iff.mpr
  intro f member
  exact each f (part.subset (order.subset member))

theorem Variant.ofJson (variant : i.Variant j) (whole : i.float = 0) : ofJson? j = some i := by
  obtain ⟨all, kept, fields, form, part, idle, order, rfl⟩ := variant
  simp only [json, Json.object.injEq] at form
  subst form
  simp only [List.forall_mem_cons] at idle
  obtain ⟨required, plain, empty, _, unset, unknown, _⟩ := idle
  have opcode : Json.field? "opcode" Opcode.ofJson? none kept = some i.opcode := by
    have read : Opcode.ofJson? (.string i.opcode.mnemonic) = some i.opcode :=
      ofMnemonic_mnemonic i.opcode
    exact Json.field_kept rfl part read fun missing => (required missing).elim
  have int : Json.field? "int_arg" Json.int64? (some 0) kept = some i.int := by
    refine Json.field_kept rfl part (Json.int64_int i.int) ?_
    intro missing
    have zero : i.int = 0 := plain missing
    rw [zero]
  have text : Json.field? "text_arg" Json.string? (some "") kept = some i.text := by
    have read : Json.string? (.string i.text) = some i.text := rfl
    refine Json.field_kept rfl part read ?_
    intro missing
    have none : i.text = "" := empty missing
    rw [none]
  have float : Json.field? "float_arg" Json.float? (some 0) kept = some i.float := by
    rw [whole] at part ⊢
    exact Json.field_kept rfl part Json.reread_zero fun _ => rfl
  have args : Json.field? "args_flag" Json.bool? (some false) kept = some i.args := by
    have read : Json.bool? (.bool i.args) = some i.args := rfl
    refine Json.field_kept rfl part read ?_
    intro missing
    have clear : i.args = false := unset missing
    rw [clear]
  have line : Json.field? "line" Json.uint32? (some 0) kept = some i.line := by
    refine Json.field_kept rfl part (Json.uint32_int i.line) ?_
    intro missing
    have zero : i.line = 0 := unknown missing
    rw [zero]
  simp only [ofJson?, Json.record?, Option.bind_eq_bind, Option.bind_some, Json.field_perm order,
    opcode, int, text, float, args, line]

end Instruction

namespace Program

variable {p q : Program} {text : String}

def Fractionless (p : Program) : Prop := ∀ i ∈ p.instructions, i.float = 0

def Variant (p : Program) (text : String) : Prop :=
  ∃ items, List.Forall₂ Instruction.Variant p.instructions.toList items ∧
    text = (Json.object [("instructions", .array items)]).compress

theorem json_variant (p : Program) : p.Variant p.json.compress := by
  refine ⟨p.instructions.toList.map Instruction.json, ?_, rfl⟩
  rw [List.forall₂_map_right_iff, List.forall₂_same]
  intro i _
  exact i.json_variant

theorem variants_plain {is : List Instruction} {items : List Json}
    (variants : List.Forall₂ Instruction.Variant is items) : Json.PlainItems items := by
  induction variants with
  | nil => trivial
  | cons variant _ ih => exact ⟨variant.plain, ih⟩

theorem variants_ofJson {is : List Instruction} {items : List Json}
    (variants : List.Forall₂ Instruction.Variant is items) (whole : ∀ i ∈ is, i.float = 0) :
    items.mapM Instruction.ofJson? = some is := by
  induction variants with
  | nil => rfl
  | cons variant _ ih =>
    rw [List.forall_mem_cons] at whole
    rw [List.mapM_cons, variant.ofJson whole.1, ih whole.2]
    rfl

theorem Variant.read (variant : p.Variant text) (whole : p.Fractionless) :
    ofJsonText? text = some p := by
  obtain ⟨items, variants, rfl⟩ := variant
  have plain : (Json.object [("instructions", .array items)]).Plain :=
    ⟨variants_plain variants, trivial⟩
  have each : ∀ i ∈ p.instructions.toList, i.float = 0 := by simpa [Fractionless] using whole
  have read := variants_ofJson variants each
  rw [ofJsonText?, Json.read_compress plain, Option.bind_some]
  simp [ofJson?, Json.record?, Json.field?, Json.array?, read]

/-- A program without fractions is what its JSON text is read as, and every variant of that text.
Hence the bytes that are hashed for its fingerprint are those of no other such program. -/
theorem json_reads_back (whole : p.Fractionless) :
    ofJsonText? p.json.compress = some p ∧ (∀ text, p.Variant text → ofJsonText? text = some p) ∧
      ∀ q : Program, q.Fractionless → p.json.compress.toUTF8 = q.json.compress.toUTF8 → p = q := by
  have own := p.json_variant.read whole
  refine ⟨own, fun text variant => variant.read whole, ?_⟩
  intro q other same
  have texts : p.json.compress = q.json.compress := by
    rw [String.toUTF8_eq_toByteArray, String.toUTF8_eq_toByteArray] at same
    exact String.toByteArray_inj.mp same
  have read := q.json_variant.read other
  rw [← texts, own] at read
  exact Option.some.inj read

def escapedProgram (line : UInt32) : Program :=
  ⟨#[{ opcode := .newv, int := Int64.minValue, text := "\"\\/\n\x01é😀", line },
    { opcode := .ret, args := true }]⟩

theorem escaped_fractionless (line : UInt32) : (escapedProgram line).Fractionless := by
  simp [Fractionless, escapedProgram]

theorem escaped_program_reads_back :
    (escapedProgram 4294967295).Fractionless ∧
      ofJsonText? ("\x7b\"instructions\":[\x7b\"line\":4294967295,\"args_flag\":false," ++
        "\"float_arg\":0.0,\"text_arg\":\"\\\"\\\\/\\n\\u0001é😀\"," ++
        "\"int_arg\":-9223372036854775808,\"opcode\":\"NEWV\"\x7d," ++
        "\x7b\"args_flag\":true,\"opcode\":\"RET\",\"line\":0\x7d]\x7d") =
          some (escapedProgram 4294967295) ∧
      (escapedProgram 4294967295).json.compress.toUTF8 ≠
        (escapedProgram 7).json.compress.toUTF8 := by
  have whole := escaped_fractionless 4294967295
  have turned : Instruction.Variant
      { opcode := .newv, int := Int64.minValue, text := "\"\\/\n\x01é😀", line := 4294967295 }
      (.object [("line", Json.int 4294967295), ("args_flag", .bool false),
        ("float_arg", Json.float 0), ("text_arg", .string "\"\\/\n\x01é😀"),
        ("int_arg", Json.int (-9223372036854775808)), ("opcode", .string "NEWV")]) :=
    ⟨_, _, _, rfl, .refl _, fun _ member absent => absurd member absent, List.reverse_perm _, rfl⟩
  have cut : Instruction.Variant { opcode := .ret, args := true }
      (.object [("args_flag", .bool true), ("opcode", .string "RET"), ("line", Json.int 0)]) := by
    refine ⟨_, [("opcode", .string "RET"), ("args_flag", .bool true), ("line", Json.int 0)], _, rfl,
      ?_, ?_, .swap _ _ _, rfl⟩
    · exact .cons_cons _ (.cons _ (.cons _ (.cons _ (.refl _))))
    · simp [Instruction.Idle, Opcode.mnemonic]
  obtain ⟨_, variants, unique⟩ := json_reads_back whole
  refine ⟨whole, variants _ ?_, ?_⟩
  · exact ⟨[_, _], .cons turned (.cons cut .nil), by decide +kernel⟩
  · intro same
    have equal := unique (escapedProgram 7) (escaped_fractionless 7) same
    simp [escapedProgram] at equal

end Program

end Wheelwork
