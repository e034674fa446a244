import Wheelwork.ArgQueue

/-!
The argument queue as the list of its values, oldest first. Later proofs see the two halves of the
queue only through `toList`.
-/
namespace Wheelwork.ArgQueue

theorem toList_push (q : ArgQueue) (v : Value) : (q.push v).toList = q.toList ++ [v] := by
  simp [push, toList]

theorem pop_ok {q rest : ArgQueue} {v : Value} (popped : q.pop = .ok (v, rest)) :
    q.toList = v :: rest.toList := by
  unfold pop at popped
  cases ready : q.front with
  | cons w front =>
    simp only [ready, Except.ok.injEq, Prod.mk.injEq] at popped
    obtain ⟨rfl, rfl⟩ := popped
    simp [toList, ready]
  | nil =>
    cases turned : q.back.reverse with
    | nil => simp [ready, turned] at popped
    | cons w front =>
      simp only [ready, turned, Except.ok.injEq, Prod.mk.injEq] at popped
      obtain ⟨rfl, rfl⟩ := popped
      simp [toList, ready, turned]

theorem pop_error {q : ArgQueue} {cause : Fault} (failed : q.pop = .error cause) :
    cause = .noArgument ∧ q.toList = [] := by
  unfold pop at failed
  cases ready : q.front with
  | cons w front => simp [ready] at failed
  | nil =>
    cases turned : q.back.reverse with
    | cons w front => simp [ready, turned] at failed
    | nil =>
      simp only [ready, turned, Except.error.injEq] at failed
      exact ⟨failed.symm, by simp [toList, ready, turned]⟩

theorem take_some {q rest : ArgQueue} {count : Nat} {taken : List Value}
    (found : q.take? count = some (taken, rest)) :
    count ≤ q.toList.length ∧ taken = q.toList.take count ∧ rest.toList = q.toList.drop count := by
  unfold take? at found
  simp only at found
  split at found
  · rename_i ready
    have inside : count ≤ q.front.length := by
      rw [List.length_take] at ready
      omega
    simp only [Option.some.injEq, Prod.mk.injEq] at found
    obtain ⟨rfl, rfl⟩ := found
    -- The front half alone has enough, so the back half stays as it is.
    refine ⟨by simp [toList]; omega, ?_, ?_⟩
    · simp [toList, List.take_append_of_le_length inside]
    · simp [toList, List.drop_append_of_le_length inside]
  · split at found
    · rename_i enough
      simp only [Option.some.injEq, Prod.mk.injEq] at found
      obtain ⟨rfl, rfl⟩ := found
      exact ⟨enough, rfl, by simp [toList]⟩
    · simp at found

theorem take_none {q : ArgQueue} {count : Nat} (missing : q.take? count = none) :
    q.toList.length < count := by
  unfold take? at missing
  simp only at missing
  split at missing
  · simp at missing
  · split at missing
    · simp at missing
    · rename_i few
      omega

theorem drain_ok {q rest : ArgQueue} {count : Nat} {taken : List Value}
    (drained : q.drain count = .ok (taken, rest)) :
    count ≤ q.toList.length ∧ taken = q.toList.take count ∧ rest.toList = q.toList.drop count := by
  unfold drain at drained
  split at drained
  · rename_i found
    simp only [Except.ok.injEq] at drained
    subst drained
    exact take_some found
  · simp at drained

theorem drain_error {q : ArgQueue} {count : Nat} {cause : Fault}
    (failed : q.drain count = .error cause) :
    cause = .queueShort count q.size ∧ q.toList.length < count := by
  unfold drain at failed
  split at failed
  · simp at failed
  · rename_i missing
    simp only [Except.error.injEq] at failed
    exact ⟨failed.symm, take_none missing⟩

end Wheelwork.ArgQueue
