import Wheelwork.Proofs.Definitions
import Wheelwork.Proofs.Reports

/-!
Merging collections of complaints. A collection is told by all errors and all warnings that went
into it, in order: the first errors are kept, as many as there is room for, all are counted, and
warnings are all kept. In these terms to extend a collection is to append, also where one of the
two, or both, have dropped errors.
-/
namespace Wheelwork

inductive Complaint where
  | error (d : Diagnostic)
  | warning (d : Diagnostic)

namespace Complaint

def error? : Complaint → Option Diagnostic
  | .error d => some d
  | .warning _ => none

def warning? : Complaint → Option Diagnostic
  | .error _ => none
  | .warning d => some d

end Complaint

namespace Diagnostics

def push (ds : Diagnostics) : Complaint → Diagnostics
  | .error d => ds.pushError d
  | .warning d => ds.pushWarning d

def collect (pushes : List Complaint) : Diagnostics := pushes.foldl push empty

/-- Collections that are made from the empty one by pushes and merges, in any order. -/
inductive Built : Diagnostics → Prop where
  | empty : Built empty
  | error {ds : Diagnostics} (built : Built ds) (d : Diagnostic) : Built (ds.pushError d)
  | warning {ds : Diagnostics} (built : Built ds) (d : Diagnostic) : Built (ds.pushWarning d)
  | extend {ds other : Diagnostics} (built : Built ds) (built' : Built other) :
      Built (ds.extend other)

def holding (errors warnings : List Diagnostic) : Diagnostics where
  errors := (errors.take cap).toArray
  warnings := warnings.toArray
  totalErrors := errors.length
  totalWarnings := warnings.length

variable {ds other : Diagnostics} {errors warnings errors' warnings' : List Diagnostic}

theorem capped_holding : (holding errors warnings).Capped := by
  simp [Capped, holding]

theorem eq_holding (kept : ds.errors.toList = errors.take cap) (all : ds.warnings.toList = warnings)
    (counted : ds.totalErrors = errors.length) (counted' : ds.totalWarnings = warnings.length) :
    ds = holding errors warnings := by
  obtain ⟨⟨es⟩, ⟨ws⟩, total, total'⟩ := ds
  simp only at kept all counted counted'
  subst kept all counted counted'
  rfl

/-- Two cuts at the cap, of the second part and then of both, are one. -/
theorem take_cap (errors errors' : List Diagnostic) :
    errors.take cap ++ (errors'.take cap).take (cap - (errors.take cap).length) =
      (errors ++ errors').take cap := by
  have room : min (cap - min cap errors.length) cap = cap - errors.length := by omega
  rw [List.take_take, List.length_take, room, List.take_append]

theorem extend_holding :
    (holding errors warnings).extend (holding errors' warnings') =
      holding (errors ++ errors') (warnings ++ warnings') := by
  obtain ⟨all, counted⟩ := extend_warnings (holding errors warnings) (holding errors' warnings')
  apply eq_holding
  · rw [extend_errors]
    exact take_cap errors errors'
  · exact all
  · rw [extend_totalErrors _ capped_holding, List.length_append]
    rfl
  · rw [counted, List.length_append]
    rfl

theorem pushError_eq_extend (ds : Diagnostics) (d : Diagnostic) :
    ds.pushError d = ds.extend (holding [d] []) := rfl

theorem pushWarning_eq_extend (ds : Diagnostics) (d : Diagnostic) :
    ds.pushWarning d = ds.extend (holding [] [d]) := rfl

theorem Built.holding (built : ds.Built) : ∃ errors warnings, ds = holding errors warnings := by
  induction built with
  | empty => exact ⟨[], [], rfl⟩
  | error _ d ih =>
    obtain ⟨errors, warnings, rfl⟩ := ih
    exact ⟨_, _, (pushError_eq_extend _ d).trans extend_holding⟩
  | warning _ d ih =>
    obtain ⟨errors, warnings, rfl⟩ := ih
    exact ⟨_, _, (pushWarning_eq_extend _ d).trans extend_holding⟩
  | extend _ _ ih ih' =>
    obtain ⟨errors, warnings, rfl⟩ := ih
    obtain ⟨errors', warnings', rfl⟩ := ih'
    exact ⟨_, _, extend_holding⟩

theorem foldl_push (pushes : List Complaint) :
    pushes.foldl push (holding errors warnings) =
      holding (errors ++ pushes.filterMap Complaint.error?)
        (warnings ++ pushes.filterMap Complaint.warning?) := by
  induction pushes generalizing errors warnings with
  | nil => simp
  | cons c pushes ih =>
    cases c with
    | error d =>
      rw [List.foldl_cons, push, pushError_eq_extend, extend_holding, ih]
      simp [List.filterMap_cons, Complaint.error?, Complaint.warning?]
    | warning d =>
      rw [List.foldl_cons, push, pushWarning_eq_extend, extend_holding, ih]
      simp [List.filterMap_cons, Complaint.error?, Complaint.warning?]

theorem collect_eq (pushes : List Complaint) :
    collect pushes =
      holding (pushes.filterMap Complaint.error?) (pushes.filterMap Complaint.warning?) :=
  @foldl_push [] [] pushes

theorem collect_append (xs ys : List Complaint) :
    (collect xs).extend (collect ys) = collect (xs ++ ys) := by
  rw [collect_eq, collect_eq, collect_eq, extend_holding, List.filterMap_append,
    List.filterMap_append]

/-- In every collection the first errors are kept up to the cap, all warnings are kept, and what is
kept was counted, so that no count of dropped errors is negative. Merging what two sequences of
pushes made gives what one sequence after the other makes. Hence merging is associative with the
empty collection as its unit, and the totals alone tell whether a merge has errors and is full. -/
theorem merging_concatenates :
    (∀ ds, Built ds → ds.errors.size = min cap ds.totalErrors ∧
      ds.warnings.size = ds.totalWarnings ∧ ds.errors.size ≤ ds.totalErrors) ∧
    (∀ xs ys, (collect xs).extend (collect ys) = collect (xs ++ ys)) ∧
    (∀ a b c, Built a → Built b → Built c →
      (a.extend b).extend c = a.extend (b.extend c)) ∧
    (∀ ds, Built ds → ds.extend empty = ds ∧ empty.extend ds = ds) ∧
    ∀ a b, Built a → Built b →
      (a.extend b).isFull = decide (cap ≤ a.totalErrors + b.totalErrors) ∧
      (a.extend b).hasErrors = decide (0 < a.totalErrors + b.totalErrors) := by
  refine ⟨?_, collect_append, ?_, ?_, ?_⟩
  · intro ds built
    obtain ⟨errors, warnings, rfl⟩ := built.holding
    have kept : (holding errors warnings).errors.size = min cap errors.length := capped_holding
    exact ⟨kept, rfl, kept ▸ Nat.min_le_right cap errors.length⟩
  · intro a b c builtA builtB builtC
    obtain ⟨_, _, rfl⟩ := builtA.holding
    obtain ⟨_, _, rfl⟩ := builtB.holding
    obtain ⟨_, _, rfl⟩ := builtC.holding
    simp only [extend_holding, List.append_assoc]
  · intro ds built
    obtain ⟨errors, warnings, rfl⟩ := built.holding
    have unit : empty = holding [] [] := rfl
    simp only [unit, extend_holding, List.append_nil, List.nil_append, and_self]
  · intro a b builtA builtB
    obtain ⟨_, _, rfl⟩ := builtA.holding
    obtain ⟨_, _, rfl⟩ := builtB.holding
    rw [isFull, hasErrors, extend_totalErrors _ capped_holding]
    exact ⟨rfl, rfl⟩

theorem built_collect (pushes : List Complaint) : Built (collect pushes) := by
  have built : ∀ {ds}, Built ds → Built (pushes.foldl push ds) := by
    induction pushes with
    | nil => exact id
    | cons c pushes ih =>
      intro ds built
      cases c with
      | error d => exact ih (built.error d)
      | warning d => exact ih (built.warning d)
  exact built .empty

def slip : Diagnostic := Problem.unterminatedString.locate ⟨"a", "OUT \"x"⟩ ⟨1, 5, 6⟩

theorem overfull_merges :
    let few := collect [.error slip, .warning slip]
    let many := collect (List.replicate 25 (.error slip))
    (few.extend many).errors.size = 20 ∧ (few.extend many).totalErrors = 26 ∧
      (few.extend many).isFull = true ∧
      (many.extend few).extend many = many.extend (few.extend many) := by
  intro few many
  have builtFew : Built few := built_collect _
  have builtMany : Built many := built_collect _
  obtain ⟨kept, merged, assoc, _, totals⟩ := merging_concatenates
  have total : (few.extend many).totalErrors = 26 := by
    rw [merged]
    rfl
  refine ⟨?_, total, (totals few many builtFew builtMany).1, ?_⟩
  case refine_2 => exact assoc _ _ _ builtMany builtFew builtMany
  rw [(kept _ (builtFew.extend builtMany)).1, total]
  rfl

end Diagnostics
end Wheelwork
