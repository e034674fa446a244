import Mathlib
import Wheelwork.Proofs.Bracketing
import Wheelwork.Proofs.Cuts

/-!
Functions that are defined more than once. The table of a program, built from all its instructions,
keeps the last definition of a name; the assembly, which goes through the lines once, remembers the
first one and warns of each that follows it. So there are as many definitions as names and warnings
together, and a call goes to the last definition of its name however often that was warned of.
-/
namespace Wheelwork

def Instruction.Defines (i : Instruction) (name : String) : Prop :=
  i.opcode = .define ∧ i.text = name

instance (i : Instruction) (name : String) : Decidable (i.Defines name) :=
  inferInstanceAs (Decidable (i.opcode = .define ∧ i.text = name))

namespace Definition

structure First (is : List Instruction) (name : String) (k : Nat) (i : Instruction) : Prop where
  found : is[k]? = some i
  defines : i.Defines name
  earlier : ∀ j < k, ∀ other ∈ is[j]?, ¬ other.Defines name

structure Last (is : List Instruction) (name : String) (k : Nat) (i : Instruction) : Prop where
  found : is[k]? = some i
  defines : i.Defines name
  later : ∀ j > k, ∀ other ∈ is[j]?, ¬ other.Defines name

def names (is : List Instruction) : List String :=
  (is.filter fun i => i.opcode = .define).map Instruction.text

/-- The indices of the definitions whose name has been defined before. -/
def repeats (is : List Instruction) : List Nat :=
  (List.range is.length).filter fun k =>
    is[k]?.any fun i => i.opcode = .define ∧ i.text ∈ names (is.take k)

/-- The warning is about `i`, which defines a name again, and cites the first definition `j`. Of the
lines of a source an instruction keeps 32 bits. -/
structure Cites (lineCount : Nat) (w : Diagnostic) (i j : Instruction) : Prop where
  code : w.code = 300
  severity : w.severity = .warning
  line : i.line = UInt32.ofNat w.span.line
  within : w.span.line ≤ lineCount
  cited : ∃ line ≤ lineCount, j.line = UInt32.ofNat line ∧
    w.message = "Function '" ++ i.text ++ "' is already defined on line " ++ toString line

def Warned (lineCount : Nat) (is : List Instruction) (w : Diagnostic) (k : Nat) : Prop :=
  ∃ i first j, is[k]? = some i ∧ i.opcode = .define ∧ First is i.text first j ∧ first < k ∧
    Cites lineCount w i j

variable {is : List Instruction} {i j : Instruction} {name : String} {k lineCount : Nat}
  {w : Diagnostic}

theorem First.snoc (first : First is name k j) (i : Instruction) : First (is ++ [i]) name k j := by
  have inside := (List.getElem?_eq_some_iff.mp first.found).1
  refine ⟨(List.getElem?_append_left inside).trans first.found, first.defines, ?_⟩
  intro n before other found
  rw [List.getElem?_append_left (Nat.lt_trans before inside)] at found
  exact first.earlier n before other found

theorem first_new (fresh : ∀ other ∈ is, ¬ other.Defines name) (defines : i.Defines name) :
    First (is ++ [i]) name is.length i := by
  refine ⟨List.getElem?_concat_length, defines, ?_⟩
  intro n before other found
  rw [List.getElem?_append_left before] at found
  exact fresh other (List.mem_of_getElem? found)

theorem last_snoc_same (defines : i.Defines name) :
    Last (is ++ [i]) name k j ↔ k = is.length ∧ j = i := by
  constructor
  · intro last
    have inside := (List.getElem?_eq_some_iff.mp last.found).1
    rw [List.length_append, List.length_singleton] at inside
    rcases Nat.lt_succ_iff_lt_or_eq.mp inside with early | rfl
    · exact absurd defines (last.later is.length early i List.getElem?_concat_length)
    · exact ⟨rfl, Option.some.inj (last.found.symm.trans List.getElem?_concat_length)⟩
  · rintro ⟨rfl, rfl⟩
    refine ⟨List.getElem?_concat_length, defines, ?_⟩
    intro n after other found
    have inside := (List.getElem?_eq_some_iff.mp found).1
    rw [List.length_append, List.length_singleton] at inside
    omega

theorem last_snoc_other (other : ¬ i.Defines name) :
    Last (is ++ [i]) name k j ↔ Last is name k j := by
  constructor
  · intro last
    have found := last.found
    rcases Nat.lt_or_ge k is.length with inside | beyond
    · rw [List.getElem?_append_left inside] at found
      refine ⟨found, last.defines, ?_⟩
      intro n after d later
      have within := (List.getElem?_eq_some_iff.mp later).1
      exact last.later n after d ((List.getElem?_append_left within).trans later)
    · rw [List.getElem?_append_right beyond] at found
      obtain rfl := List.mem_singleton.mp (List.mem_of_getElem? found)
      exact absurd last.defines other
  · intro last
    have inside := (List.getElem?_eq_some_iff.mp last.found).1
    refine ⟨(List.getElem?_append_left inside).trans last.found, last.defines, ?_⟩
    intro n after d found
    rcases Nat.lt_or_ge n is.length with within | beyond
    · rw [List.getElem?_append_left within] at found
      exact last.later n after d found
    · rw [List.getElem?_append_right beyond] at found
      obtain rfl := List.mem_singleton.mp (List.mem_of_getElem? found)
      exact other

theorem exists_last : (∃ k i, Last is name k i) ↔ ∃ i ∈ is, i.Defines name := by
  constructor
  · rintro ⟨k, i, last⟩
    exact ⟨i, List.mem_of_getElem? last.found, last.defines⟩
  · induction is using List.reverseRecOn with
    | nil => simp
    | append_singleton is i ih =>
      rintro ⟨d, member, defines⟩
      by_cases same : i.Defines name
      · exact ⟨is.length, i, (last_snoc_same same).mpr ⟨rfl, rfl⟩⟩
      · rcases List.mem_append.mp member with old | new
        · obtain ⟨k, j, last⟩ := ih ⟨d, old, defines⟩
          exact ⟨k, j, (last_snoc_other same).mpr last⟩
        · obtain rfl := List.mem_singleton.mp new
          exact absurd defines same

theorem mem_names : name ∈ names is ↔ ∃ i ∈ is, i.Defines name := by
  simp [names, Instruction.Defines, and_assoc]

theorem names_snoc : names (is ++ [i]) = names is ++ if i.opcode = .define then [i.text] else [] := by
  by_cases op : i.opcode = .define <;> simp [names, op]

theorem names_length (is : List Instruction) :
    (names is).length = is.countP fun i => i.opcode = .define := by
  rw [names, List.length_map, List.countP_eq_length_filter]

theorem repeats_snoc : repeats (is ++ [i]) =
    repeats is ++ if i.opcode = .define ∧ i.text ∈ names is then [is.length] else [] := by
  have early : ∀ k ∈ List.range is.length,
      ((is ++ [i])[k]?.any fun d => d.opcode = .define ∧ d.text ∈ names ((is ++ [i]).take k)) =
        is[k]?.any fun d => d.opcode = .define ∧ d.text ∈ names (is.take k) := by
    intro k member
    have inside := List.mem_range.mp member
    rw [List.getElem?_append_left inside, List.take_append_of_le_length (Nat.le_of_lt inside)]
  unfold repeats
  rw [List.length_append, List.length_singleton, List.range_succ, List.filter_append,
    List.filter_congr early]
  congr 1
  by_cases again : i.opcode = .define ∧ i.text ∈ names is <;> simp [again]

theorem Warned.snoc (warned : Warned lineCount is w k) (i : Instruction) :
    Warned lineCount (is ++ [i]) w k := by
  obtain ⟨d, first, j, found, op, isFirst, before, cites⟩ := warned
  have inside := (List.getElem?_eq_some_iff.mp found).1
  exact ⟨d, first, j, (List.getElem?_append_left inside).trans found, op, isFirst.snoc i, before,
    cites⟩

end Definition

namespace FunctionTable

open Definition

variable {name : String} {f : FunctionEntry}

theorem ofProgram_snoc (is : List Instruction) (i : Instruction) :
    ofProgram ⟨(is ++ [i]).toArray⟩ = insertDefinition (ofProgram ⟨is.toArray⟩) i is.length := by
  simp [ofProgram, List.zipIdx_append]

/-- The table has for each name the last definition. -/
theorem entry_iff (is : List Instruction) :
    (ofProgram ⟨is.toArray⟩)[name]? = some f ↔
      ∃ k i, Last is name k i ∧ f = ⟨k + 1, i.int⟩ := by
  induction is using List.reverseRecOn with
  | nil =>
    constructor
    · intro found
      simp [ofProgram] at found
    · rintro ⟨k, i, last, _⟩
      cases last.found
  | append_singleton is i ih =>
    rw [ofProgram_snoc]
    unfold insertDefinition
    by_cases same : i.Defines name
    · obtain ⟨op, rfl⟩ := same
      rw [if_pos op, Std.TreeMap.getElem?_insert_self]
      constructor
      · intro found
        cases found
        exact ⟨is.length, i, (last_snoc_same ⟨op, rfl⟩).mpr ⟨rfl, rfl⟩, rfl⟩
      · rintro ⟨k, j, last, rfl⟩
        obtain ⟨rfl, rfl⟩ := (last_snoc_same ⟨op, rfl⟩).mp last
        rfl
    · have kept : (if i.opcode = .define then
          (ofProgram ⟨is.toArray⟩).insert i.text ⟨is.length + 1, i.int⟩
          else ofProgram ⟨is.toArray⟩)[name]? = (ofProgram ⟨is.toArray⟩)[name]? := by
        split
        · rename_i op
          have differs : ¬ compare i.text name = .eq := by
            rw [compare_eq_iff_eq]
            intro text
            exact same ⟨op, text⟩
          rw [Std.TreeMap.getElem?_insert, if_neg differs]
        · rfl
      rw [kept, ih]
      simp only [last_snoc_other same]

theorem find_ok {t : FunctionTable} : t.find name = .ok f ↔ t[name]? = some f := by
  unfold find
  split <;> simp [*]

theorem find_iff (p : Program) :
    (ofProgram p).find name = .ok f ↔
      ∃ k i, Last p.instructions.toList name k i ∧ f = ⟨k + 1, i.int⟩ := by
  rw [find_ok]
  exact entry_iff p.instructions.toList

theorem found_iff (p : Program) :
    (∃ f, (ofProgram p).find name = .ok f) ↔ ∃ i ∈ p.instructions.toList, i.Defines name := by
  rw [← exists_last]
  constructor
  · rintro ⟨f, found⟩
    obtain ⟨k, i, last, _⟩ := (find_iff p).mp found
    exact ⟨k, i, last⟩
  · rintro ⟨k, i, last⟩
    exact ⟨⟨k + 1, i.int⟩, (find_iff p).mpr ⟨k, i, last, rfl⟩⟩

theorem names_ordered (t : FunctionTable) : t.names.Pairwise (· < ·) :=
  Std.TreeMap.ordered_keys.imp fun before => compare_lt_iff_lt.mp before

theorem mem_names_iff (p : Program) :
    name ∈ (ofProgram p).names ↔ ∃ i ∈ p.instructions.toList, i.Defines name := by
  rw [names, Std.TreeMap.mem_keys, Std.TreeMap.mem_iff_isSome_getElem?, Option.isSome_iff_exists,
    ← found_iff]
  simp only [find_ok]

theorem size_eq (p : Program) :
    (ofProgram p).size = (Definition.names p.instructions.toList).toFinset.card := by
  have same : (ofProgram p).names.toFinset = (Definition.names p.instructions.toList).toFinset := by
    ext name
    rw [List.mem_toFinset, List.mem_toFinset, mem_names_iff, Definition.mem_names]
  have distinct : (ofProgram p).names.Nodup := Std.TreeMap.nodup_keys
  rw [← same, List.toFinset_card_of_nodup distinct, names, Std.TreeMap.length_keys]

end FunctionTable

namespace Assembly

open Definition

variable {source : Source} {rs : List Row} {r : Row} {name : String} {lineCount : Nat}

theorem instructions_snoc {i : Instruction} (rs : List Row) (read : r.reading = .ok i) :
    (rs ++ [r]).filterMap Row.instruction? = rs.filterMap Row.instruction? ++ [i] := by
  have given : r.instruction? = some i := by simp [Row.instruction?, read, Except.toOption]
  rw [filterMap_snoc, given]
  rfl

@[elab_as_elim]
theorem sound_induction {motive : (rs : List Row) → complaints rs = [] → Prop}
    (nil : motive [] rfl)
    (snoc : ∀ rs r i (before : complaints rs = []) (all : complaints (rs ++ [r]) = []),
      r.reading = .ok i → motive rs before → motive (rs ++ [r]) all)
    (rs : List Row) (sound : complaints rs = []) : motive rs sound := by
  induction rs using List.reverseRecOn with
  | nil => exact nil
  | append_singleton rs r ih =>
    have parts := sound
    rw [complaints, filterMap_snoc, List.append_eq_nil_iff] at parts
    obtain ⟨before, quiet⟩ := parts
    cases read : r.reading with
    | error complaint => simp [Row.complaint?, read] at quiet
    | ok i => exact snoc rs r i before sound read (ih before)

theorem definitions_snoc {i : Instruction} (rs : List Row) (read : r.reading = .ok i) :
    definitions (rs ++ [r]) =
      definitions rs ++ if i.opcode = .define then [(i.text, r.textSpan)] else [] := by
  rw [definitions, filterMap_snoc, ← definitions]
  by_cases op : i.opcode = .define <;> simp [Row.definition?, read, op]

theorem definitions_names (sound : complaints rs = []) :
    (definitions rs).map Prod.fst = names (rs.filterMap Row.instruction?) := by
  induction rs, sound using sound_induction with
  | nil => rfl
  | snoc rs r i _ _ read ih =>
    rw [definitions_snoc rs read, instructions_snoc rs read, names_snoc, List.map_append, ih]
    by_cases op : i.opcode = .define <;> simp [op]

theorem find_isSome (sound : complaints rs = []) :
    (((definitions rs).find? fun d => d.1 = name).isSome = true) ↔
      name ∈ names (rs.filterMap Row.instruction?) := by
  rw [← definitions_names sound, List.find?_isSome, List.mem_map]
  simp

theorem warnings_sound {i : Instruction} (sound : complaints rs = []) (read : r.reading = .ok i) :
    (i.opcode = .define ∧ i.text ∈ names (rs.filterMap Row.instruction?) ∧
      ∃ d, (definitions rs).find? (fun d => d.1 = i.text) = some d ∧
        warnings source (rs ++ [r]) =
          warnings source rs ++ [(Problem.redefined i.text d.2.line).locate source r.textSpan]) ∨
    ¬ (i.opcode = .define ∧ i.text ∈ names (rs.filterMap Row.instruction?)) ∧
      warnings source (rs ++ [r]) = warnings source rs := by
  have room : (complaints rs).length < Diagnostics.cap := by simp [sound, Diagnostics.cap]
  rw [warnings_snoc, warning?, if_pos room]
  by_cases op : i.opcode = .define
  · have named : r.definition? = some (i.text, r.textSpan) := by simp [Row.definition?, read, op]
    rw [named, ← find_isSome sound]
    cases known : (definitions rs).find? fun d => d.1 = i.text with
    | none => exact .inr ⟨by simp, by simp [known]⟩
    | some d => exact .inl ⟨op, rfl, d, rfl, by simp [known]⟩
  · have unnamed : r.definition? = none := by simp [Row.definition?, read, op]
    exact .inr ⟨fun again => op again.1, by simp [unnamed]⟩

theorem warnings_and_names (sound : complaints rs = []) :
    (warnings source rs).length + (names (rs.filterMap Row.instruction?)).toFinset.card =
      (names (rs.filterMap Row.instruction?)).length := by
  induction rs, sound using sound_induction with
  | nil => rfl
  | snoc rs r i sound _ read ih =>
    rw [instructions_snoc rs read, names_snoc, List.toFinset_append, List.length_append]
    rcases warnings_sound sound read with ⟨op, known, d, _, warned⟩ | ⟨fresh, silent⟩
    · have same : (names (rs.filterMap Row.instruction?)).toFinset ∪ [i.text].toFinset =
          (names (rs.filterMap Row.instruction?)).toFinset := by
        simpa using known
      rw [warned, if_pos op, same, List.length_append, List.length_singleton, List.length_singleton]
      omega
    · rw [silent]
      by_cases op : i.opcode = .define
      · have new : i.text ∉ (names (rs.filterMap Row.instruction?)).toFinset := by
          intro known
          exact fresh ⟨op, List.mem_toFinset.mp known⟩
        have one : [i.text].toFinset = {i.text} := rfl
        rw [if_pos op, one, Finset.union_singleton, Finset.card_insert_of_notMem new,
          List.length_singleton]
        omega
      · simpa [op] using ih

def Row.Placed (lineCount : Nat) (r : Row) : Prop :=
  r.textSpan.line = r.head.span.line ∧ r.head.span.line ≤ lineCount

theorem line_of_reading {i : Instruction} (read : r.reading = .ok i) :
    i.line = UInt32.ofNat r.head.span.line := by
  obtain ⟨_, opcode, _, _, rfl⟩ := Row.reading_ok read
  rfl

theorem find_first {d : String × Span} (sound : complaints rs = [])
    (placed : ∀ r ∈ rs, r.Placed lineCount)
    (found : (definitions rs).find? (fun d => d.1 = name) = some d) :
    ∃ k j, First (rs.filterMap Row.instruction?) name k j ∧
      j.line = UInt32.ofNat d.2.line ∧ d.2.line ≤ lineCount := by
  induction rs, sound using sound_induction with
  | nil => cases found
  | snoc rs r i sound _ read ih =>
    have earlier : ∀ r ∈ rs, r.Placed lineCount := by
      intro r member
      exact placed r (List.mem_append_left _ member)
    rw [definitions_snoc rs read, List.find?_append] at found
    rw [instructions_snoc rs read]
    cases old : (definitions rs).find? fun d => d.1 = name with
    | some other =>
      rw [old, Option.some_or] at found
      cases found
      obtain ⟨k, j, first, line⟩ := ih earlier old
      exact ⟨k, j, first.snoc i, line⟩
    | none =>
      rw [old, Option.none_or] at found
      have fresh : ∀ other ∈ rs.filterMap Row.instruction?, ¬ other.Defines name := by
        intro other member defines
        have known := (find_isSome sound).mpr (mem_names.mpr ⟨other, member, defines⟩)
        rw [old] at known
        cases known
      by_cases op : i.opcode = .define
      · rw [if_pos op, List.find?_singleton] at found
        obtain ⟨same, given⟩ := Option.ite_none_right_eq_some.mp found
        cases given
        obtain ⟨inLine, within⟩ := placed r (by simp)
        refine ⟨_, i, first_new fresh ⟨op, by simpa using same⟩, ?_, ?_⟩
        · rw [line_of_reading read, inLine]
        · rw [inLine]
          exact within
      · rw [if_neg op] at found
        cases found

/-- The warnings are about the definitions that are not the first of their names, one by one. -/
theorem warnings_cite (sound : complaints rs = []) (placed : ∀ r ∈ rs, r.Placed lineCount) :
    List.Forall₂ (Warned lineCount (rs.filterMap Row.instruction?)) (warnings source rs)
      (repeats (rs.filterMap Row.instruction?)) := by
  induction rs, sound using sound_induction with
  | nil => exact .nil
  | snoc rs r i sound _ read ih =>
    have earlier : ∀ r ∈ rs, r.Placed lineCount := by
      intro r member
      exact placed r (List.mem_append_left _ member)
    have old := (ih earlier).imp fun w k warned => warned.snoc i
    rw [instructions_snoc rs read, repeats_snoc]
    rcases warnings_sound sound read with ⟨op, known, d, found, warned⟩ | ⟨fresh, silent⟩
    · obtain ⟨first, j, isFirst, line, within⟩ := find_first sound earlier found
      obtain ⟨inLine, last⟩ := placed r (by simp)
      have cites : Cites lineCount
          ((Problem.redefined i.text d.2.line).locate source r.textSpan) i j := by
        refine ⟨rfl, rfl, ?_, ?_, d.2.line, within, line, rfl⟩
        · exact (line_of_reading read).trans (congrArg UInt32.ofNat inLine.symm)
        · exact inLine.symm ▸ last
      rw [warned, if_pos ⟨op, known⟩]
      refine List.rel_append old (.cons ?_ .nil)
      exact ⟨i, first, j, List.getElem?_concat_length, op, isFirst.snoc i,
        (List.getElem?_eq_some_iff.mp isFirst.found).1, cites⟩
    · rw [silent, if_neg fresh, List.append_nil]
      exact old

theorem textSpan_line (inLine : ∀ t ∈ r.arguments, t.span.line = r.head.span.line) :
    r.textSpan.line = r.head.span.line := by
  unfold Row.textSpan
  cases given : r.lastText? with
  | none => rfl
  | some last =>
    obtain ⟨t, own, said⟩ := List.mem_filterMap.mp (List.mem_of_getLast? given)
    obtain ⟨_, _, rfl⟩ := Option.map_eq_some_iff.mp said
    exact inLine t own

theorem rows_inLine (text : List Char) :
    ∀ r ∈ rows (Lexer.tokens text), ∀ t ∈ r.arguments, t.span.line = r.head.span.line := by
  have single : ∀ raw : List Char, '\n' ∉ raw →
      ∀ r ∈ rows (Lexer.tokens raw), ∀ t ∈ r.arguments, t.span.line = r.head.span.line := by
    intro raw oneLine r member t own
    have first : ∀ t ∈ Lexer.tokens raw, t.span.line = 1 := by
      intro t own
      rw [(Lexer.read_textCuts raw).1, Text.splitLines_line oneLine, Lexer.textCuts] at own
      obtain ⟨x, cut, given⟩ := List.mem_filterMap.mp own
      obtain ⟨kind, _, rfl⟩ := Option.map_eq_some_iff.mp given
      exact (Lexer.cuts_past x cut).1
    have inside := row_mem member
    rw [first t (inside t (List.mem_cons_of_mem _ own)), first r.head (head_mem member)]
  induction text using Text.text_induction with
  | line raw oneLine => exact single raw oneLine
  | broken raw more oneLine ih =>
    obtain ⟨place, cut⟩ := Lexer.tokens_join raw more
    intro r member t own
    rw [cut, rows_append, rows_down, List.mem_append] at member
    rcases member with early | late
    · exact single raw oneLine r early t own
    · obtain ⟨r, original, rfl⟩ := List.mem_map.mp late
      obtain ⟨t, old, rfl⟩ := List.mem_map.mp own
      exact congrArg (· + _) (ih r original t old)

theorem rows_placed (source : Source) :
    ∀ r ∈ rows (Lexer.tokens source.text.toList), r.Placed source.lineCount := by
  intro r member
  refine ⟨textSpan_line (rows_inLine _ r member), ?_⟩
  obtain ⟨x, found, given⟩ := List.mem_filterMap.mp (head_mem member)
  have within := (Lexer.scan_tokens ⟨1, 1⟩ source.text.toList x found r.head given).2
  rw [Source.lineCount, Nat.add_comm]
  exact within

end Assembly

namespace Diagnostics

variable (ds : Diagnostics) (more : List Diagnostic)

theorem pushErrors_warnings :
    (more.foldl pushError ds).warnings = ds.warnings ∧
      (more.foldl pushError ds).totalWarnings = ds.totalWarnings := by
  induction more generalizing ds with
  | nil => exact ⟨rfl, rfl⟩
  | cons d more ih => exact ih (ds.pushError d)

theorem pushWarnings_warnings :
    (more.foldl pushWarning ds).warnings.toList = ds.warnings.toList ++ more ∧
      (more.foldl pushWarning ds).totalWarnings = ds.totalWarnings + more.length := by
  induction more generalizing ds with
  | nil => simp
  | cons d more ih =>
    obtain ⟨kept, counted⟩ := ih (ds.pushWarning d)
    rw [List.foldl_cons, kept, counted, List.length_cons]
    simp only [pushWarning, Array.toList_push, List.append_assoc, List.singleton_append, true_and]
    omega

theorem extend_warnings (other : Diagnostics) :
    (ds.extend other).warnings.toList = ds.warnings.toList ++ other.warnings.toList ∧
      (ds.extend other).totalWarnings = ds.totalWarnings + other.warnings.toList.length := by
  simp only [extend, ← Array.foldl_toList, pushWarnings_warnings, pushErrors_warnings, and_self]

end Diagnostics

namespace Load

open Assembly

theorem warnings_eq {source : Source} {p : Program} (loaded : (load source).program = some p) :
    (load source).diagnostics.warnings.toList =
        warnings source (rows (Lexer.tokens source.text.toList)) ∧
      (load source).diagnostics.totalWarnings =
        (warnings source (rows (Lexer.tokens source.text.toList))).length := by
  obtain ⟨sound, _⟩ := program_iff.mp loaded
  have quiet := (List.append_eq_nil_iff.mp sound).1
  obtain ⟨kept, counted⟩ := Diagnostics.empty.extend_warnings
    (report source (rows (Lexer.tokens source.text.toList)))
  rw [load_quiet quiet]
  exact ⟨kept, counted.trans (Nat.zero_add _)⟩

theorem warnings_counted {source : Source} {p : Program} (loaded : (load source).program = some p) :
    (load source).diagnostics.totalWarnings + (FunctionTable.ofProgram p).size =
      p.instructions.toList.countP fun i => i.opcode = .define := by
  obtain ⟨sound, rfl⟩ := program_iff.mp loaded
  have clean := (List.append_eq_nil_iff.mp sound).2
  rw [(warnings_eq loaded).2, FunctionTable.size_eq, ← Definition.names_length]
  exact warnings_and_names clean

end Load

namespace Session

open Definition

variable {σ : Type} [Host σ]

theorem after_functions (p : Program) (limit : Option Nat) (host : σ) (n : Nat) :
    ((start p limit host).after n).machine.functions = .ofProgram p := by
  have moves : ∀ {m m' : Machine} {i : Instruction}, m.Dispatches i →
      Machine.Move m.counted i m' → m.functions = .ofProgram p → m'.functions = .ofProgram p := by
    intro m m' i _ moved kept
    cases moved <;> exact kept
  exact after_keeps moves rfl n

theorem call_enters {p : Program} {limit : Option Nat} {host : σ} {n : Nat} {i : Instruction}
    (dispatches : ((start p limit host).after n).machine.Dispatches i) (op : i.opcode = .call)
    (sound : ∀ crash m, ((start p limit host).after n).machine.counted.perform i ≠ .fault crash m) :
    ∃ k d, Last p.instructions.toList i.text k d ∧
      ((start p limit host).after (n + 1)).machine.cursor = k + 1 := by
  rcases (step_move dispatches).of_call op with ⟨f, _, _, found, _, entered⟩ | ⟨_, _, raised⟩
  · have known : (FunctionTable.ofProgram p).find i.text = .ok f := by
      rw [← after_functions p limit host n]
      exact found
    obtain ⟨k, d, last, rfl⟩ := (FunctionTable.find_iff p).mp known
    refine ⟨k, d, last, ?_⟩
    change ((start p limit host).after n).step.1.machine.cursor = k + 1
    rw [entered]
    rfl
  · exact absurd raised (sound _ _)

end Session

open Definition in
/-- A name is resolved to its last definition, by the table and by every call, and its earlier
definitions are what the warnings about a source text tell. -/
theorem definitions_resolved :
    (∀ (p : Program) (name : String),
      ((∃ f, (FunctionTable.ofProgram p).find name = .ok f) ↔
        ∃ i ∈ p.instructions.toList, i.Defines name) ∧
      (∀ f, (FunctionTable.ofProgram p).find name = .ok f ↔
        ∃ k i, Last p.instructions.toList name k i ∧ f = ⟨k + 1, i.int⟩) ∧
      (name ∈ (FunctionTable.ofProgram p).names ↔ ∃ i ∈ p.instructions.toList, i.Defines name) ∧
      (FunctionTable.ofProgram p).names.Pairwise (· < ·)) ∧
    ∀ (source : Source) (p : Program), (load source).program = some p →
      (load source).diagnostics.totalWarnings + (FunctionTable.ofProgram p).size =
        (p.instructions.toList.countP fun i => i.opcode = .define) ∧
      (load source).diagnostics.totalWarnings = (load source).diagnostics.warnings.size ∧
      List.Forall₂ (Warned source.lineCount p.instructions.toList)
        (load source).diagnostics.warnings.toList (repeats p.instructions.toList) ∧
      ∀ (σ : Type) [Host σ] (host : σ) (limit : Option Nat) (n : Nat) (i : Instruction),
        ((Session.start p limit host).after n).machine.Dispatches i → i.opcode = .call →
        (∀ crash m,
          ((Session.start p limit host).after n).machine.counted.perform i ≠ .fault crash m) →
        ∃ k d, Last p.instructions.toList i.text k d ∧
          ((Session.start p limit host).after (n + 1)).machine.cursor = k + 1 := by
  constructor
  · intro p name
    exact ⟨FunctionTable.found_iff p, fun f => FunctionTable.find_iff p,
      FunctionTable.mem_names_iff p, FunctionTable.names_ordered _⟩
  · intro source p loaded
    obtain ⟨kept, counted⟩ := Load.warnings_eq loaded
    refine ⟨Load.warnings_counted loaded, ?_, ?_, ?_⟩
    · rw [counted, ← kept, Array.length_toList]
    · obtain ⟨sound, rfl⟩ := Load.program_iff.mp loaded
      rw [kept]
      exact Assembly.warnings_cite (List.append_eq_nil_iff.mp sound).2
        (Assembly.rows_placed source)
    · intro σ _ host limit n i dispatches op sound
      exact Session.call_enters dispatches op sound

def requoted : Source := ⟨"main.whl", "DEF f 1\nRET\nDEF \"f\" 2\nRET\nCALL f"⟩

def requotedProgram : Program :=
  ⟨#[{ opcode := .define, int := 1, text := "f", line := 1 }, { opcode := .ret, line := 2 },
    { opcode := .define, int := 2, text := "f", line := 3 }, { opcode := .ret, line := 4 },
    { opcode := .call, text := "f", line := 5 }]⟩

open Definition in
theorem requoted_resolved :
    (load requoted).program = some requotedProgram ∧
      (load requoted).diagnostics.totalWarnings +
        (FunctionTable.ofProgram requotedProgram).size = 2 ∧
      List.Forall₂ (Warned 5 requotedProgram.instructions.toList)
        (load requoted).diagnostics.warnings.toList [2] ∧
      ∃ k d, Last requotedProgram.instructions.toList "f" k d ∧
        ((Session.start requotedProgram none ({} : Console)).after 3).machine.cursor = k + 1 := by
  have loaded : (load requoted).program = some requotedProgram := by with_unfolding_all rfl
  obtain ⟨counted, _, warned, enters⟩ := definitions_resolved.2 requoted requotedProgram loaded
  have called : ∃ m, ((Session.start requotedProgram none ({} : Console)).after
      2).machine.counted.perform { opcode := .call, text := "f", line := 5 } = .go m := ⟨_, rfl⟩
  refine ⟨loaded, counted, warned, ?_⟩
  refine enters Console {} none 2 { opcode := .call, text := "f", line := 5 }
    (Machine.dispatches_unlimited rfl rfl) rfl ?_
  obtain ⟨m, gone⟩ := called
  simp [gone]

end Wheelwork
