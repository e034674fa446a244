import Wheelwork.Proofs.Steps

/-!
Hosts that a machine cannot tell apart. All that a machine sees of its host is which calls succeed
and what values the lines read stand for; two hosts that agree on this take a machine the same way,
step by step. The terminal and the console agree on every input text, though they cut the ends off
its lines differently.
-/
namespace Wheelwork

def entered (line : Option String) : Value := .ofInput (line.getD "")

theorem map_eq_map {ε α β : Type} {f : α → β} {a b : Except ε α} (same : a.map f = b.map f) :
    (∃ e, a = .error e ∧ b = .error e) ∨ ∃ x y, a = .ok x ∧ b = .ok y ∧ f x = f y := by
  cases a with
  | error e =>
    cases b with
    | error e' =>
      obtain rfl : e = e' := by simpa [Except.map] using same
      exact .inl ⟨e, rfl, rfl⟩
    | ok y => simp [Except.map] at same
  | ok x =>
    cases b with
    | error e' => simp [Except.map] at same
    | ok y => exact .inr ⟨x, y, rfl, rfl, by simpa [Except.map] using same⟩

namespace Host

variable {σ τ : Type} [Host σ] [Host τ]

/-- Hosts that are so related behave the same, and stay so related. -/
structure Matches (R : σ → τ → Prop) : Prop where
  write : ∀ {h k}, R h k → ∀ line,
    (writeLine line h).1 = (writeLine line k).1 ∧ R (writeLine line h).2 (writeLine line k).2
  read : ∀ {h k}, R h k →
    (readLine h).1.map entered = (readLine k).1.map entered ∧ R (readLine h).2 (readLine k).2
  sleep : ∀ {h k}, R h k → ∀ millis, R (Host.sleep millis h) (Host.sleep millis k)

theorem matches_refl (σ : Type) [Host σ] : Matches (Eq : σ → σ → Prop) := by
  constructor
  · rintro h _ rfl line
    exact ⟨rfl, rfl⟩
  · rintro h _ rfl
    exact ⟨rfl, rfl⟩
  · rintro h _ rfl millis
    rfl

variable {R : σ → τ → Prop} {h : σ} {k : τ}

theorem writeLines_matches (alike : Matches R) (begun : R h k) (lines : List String) :
    (writeLines lines h).1 = (writeLines lines k).1 ∧
      R (writeLines lines h).2 (writeLines lines k).2 := by
  induction lines generalizing h k with
  | nil => exact ⟨rfl, begun⟩
  | cons line lines ih =>
    obtain ⟨same, next⟩ := alike.write begun line
    rw [writeLines_cons, writeLines_cons]
    generalize writeLine line h = one at same next ⊢
    generalize writeLine line k = other at same next ⊢
    obtain ⟨result, h'⟩ := one
    obtain ⟨result', k'⟩ := other
    obtain rfl : result = result' := same
    cases result with
    | error e => exact ⟨rfl, next⟩
    | ok done => exact ih next

theorem askLine_matches (alike : Matches R) (begun : R h k) (prompt : Option String) :
    (askLine prompt h).1.map Value.ofInput = (askLine prompt k).1.map Value.ofInput ∧
      R (askLine prompt h).2 (askLine prompt k).2 := by
  obtain ⟨same, next⟩ := writeLines_matches alike begun prompt.toList
  rw [askLine_eq, askLine_eq]
  generalize writeLines prompt.toList h = one at same next ⊢
  generalize writeLines prompt.toList k = other at same next ⊢
  obtain ⟨result, h'⟩ := one
  obtain ⟨result', k'⟩ := other
  obtain rfl : result = result' := same
  cases result with
  | error e => exact ⟨rfl, next⟩
  | ok done =>
    obtain ⟨answer, last⟩ := alike.read next
    simp only at answer last ⊢
    generalize readLine h' = one at answer last ⊢
    generalize readLine k' = other at answer last ⊢
    obtain ⟨line, h''⟩ := one
    obtain ⟨line', k''⟩ := other
    rcases map_eq_map answer with ⟨e, rfl, rfl⟩ | ⟨x, y, rfl, rfl, value⟩
    · exact ⟨rfl, last⟩
    · exact ⟨congrArg Except.ok value, last⟩

end Host

namespace Session

variable {σ τ : Type} [Host σ] [Host τ] {R : σ → τ → Prop} {s : Session σ} {t : Session τ}

theorem step_matches (alike : Host.Matches R) (same : s.machine = t.machine)
    (begun : R s.host t.host) :
    s.step.1.machine = t.step.1.machine ∧ R s.step.1.host t.step.1.host ∧ s.step.2 = t.step.2 := by
  obtain ⟨m, h⟩ := s
  obtain ⟨m', k⟩ := t
  obtain rfl : m = m' := same
  rw [step_mk, step_mk]
  cases m.turn with
  | go m => exact ⟨rfl, begun, rfl⟩
  | print lines m =>
    obtain ⟨result, next⟩ := Host.writeLines_matches alike begun lines
    simp only at result next ⊢
    generalize Host.writeLines lines h = one at result next ⊢
    generalize Host.writeLines lines k = other at result next ⊢
    obtain ⟨one, h'⟩ := one
    obtain ⟨other, k'⟩ := other
    obtain rfl : one = other := result
    cases one with
    | error e => exact ⟨rfl, next, rfl⟩
    | ok done => exact ⟨rfl, next, rfl⟩
  | ask prompt i m =>
    obtain ⟨result, next⟩ := Host.askLine_matches alike begun prompt
    simp only at result next ⊢
    generalize Host.askLine prompt h = one at result next ⊢
    generalize Host.askLine prompt k = other at result next ⊢
    obtain ⟨one, h'⟩ := one
    obtain ⟨other, k'⟩ := other
    rcases map_eq_map result with ⟨e, rfl, rfl⟩ | ⟨line, line', rfl, rfl, value⟩
    · exact ⟨rfl, next, rfl⟩
    · have answer : m.answer i line = m.answer i line' := by
        unfold Machine.answer
        rw [value]
      simp only [answer]
      exact ⟨trivial, next, trivial⟩
  | pause millis m => exact ⟨rfl, alike.sleep begun millis, rfl⟩
  | exit how m => exact ⟨rfl, begun, rfl⟩
  | fault crash m => exact ⟨rfl, begun, rfl⟩
  | spent limit m => exact ⟨rfl, begun, rfl⟩

theorem after_matches (alike : Host.Matches R) (same : s.machine = t.machine)
    (begun : R s.host t.host) (n : Nat) :
    (s.after n).machine = (t.after n).machine ∧ R (s.after n).host (t.after n).host := by
  induction n with
  | zero => exact ⟨same, begun⟩
  | succ n ih =>
    obtain ⟨machine, host, _⟩ := step_matches alike ih.1 ih.2
    exact ⟨machine, host⟩

end Session

namespace Text

theorem dropEndWhile_append {p : Char → Bool} (cs : List Char) {tail : List Char}
    (all : ∀ c ∈ tail, p c = true) : dropEndWhile p (cs ++ tail) = dropEndWhile p cs := by
  have reversed : ∀ c ∈ tail.reverse, p c = true := by
    intro c member
    exact all c (List.mem_reverse.mp member)
  unfold dropEndWhile
  rw [List.reverse_append, List.dropWhile_append_of_pos reversed]

theorem trim_append (cs : List Char) {tail : List Char} (blank : ∀ c ∈ tail, isBlank c = true) :
    trim (cs ++ tail) = trim cs := by
  induction cs with
  | nil =>
    have gone : (tail ++ []).dropWhile isBlank = [] := List.dropWhile_append_of_pos blank
    rw [List.append_nil] at gone
    simp [trim, gone]
  | cons c cs ih =>
    cases first : isBlank c with
    | true => simpa [trim, first] using ih
    | false =>
      simp only [trim, trimEnd, List.cons_append, List.dropWhile_cons, first]
      exact dropEndWhile_append (c :: cs) blank

theorem dropEndWhile_split (p : Char → Bool) (cs : List Char) :
    ∃ tail, cs = dropEndWhile p cs ++ tail ∧ ∀ c ∈ tail, p c = true := by
  refine ⟨(cs.reverse.takeWhile p).reverse, ?_, ?_⟩
  · rw [dropEndWhile, ← List.reverse_append, List.takeWhile_append_dropWhile, List.reverse_reverse]
  · intro c member
    exact List.all_eq_true.mp List.all_takeWhile c (List.mem_reverse.mp member)

theorem dropLineEnd_split (cs : List Char) :
    ∃ tail, cs = dropLineEnd cs ++ tail ∧ ∀ c ∈ tail, isBlank c = true := by
  have feedBlank : isBlank '\n' = true := rfl
  have carriageBlank : isBlank '\r' = true := rfl
  by_cases feed : cs.getLast? = some '\n'
  · obtain ⟨content, rfl⟩ := List.getLast?_eq_some_iff.mp feed
    by_cases carriage : content.getLast? = some '\r'
    · obtain ⟨line, rfl⟩ := List.getLast?_eq_some_iff.mp carriage
      exact ⟨['\r', '\n'], by simp [dropLineEnd], by simp [feedBlank, carriageBlank]⟩
    · exact ⟨['\n'], by simp [dropLineEnd, carriage], by simp [feedBlank]⟩
  · exact ⟨[], by simp [dropLineEnd, feed], by simp⟩

end Text

namespace Terminal

theorem content_trim (line : List Char) :
    Text.trim (Text.dropEndWhile isLineEnd line) = Text.trim line := by
  obtain ⟨tail, split, ends⟩ := Text.dropEndWhile_split isLineEnd line
  have blank : ∀ c ∈ tail, Text.isBlank c = true := by
    intro c member
    have either := ends c member
    simp only [isLineEnd, Bool.or_eq_true, beq_iff_eq] at either
    rcases either with rfl | rfl
    · rfl
    · rfl
  conv => rhs; rw [split]
  exact (Text.trim_append _ blank).symm

theorem lines_entered (line : List Char) :
    Value.ofInput (content (String.ofList line)) =
      Value.ofInput (String.ofList (Text.dropLineEnd line)) := by
  obtain ⟨tail, split, blank⟩ := Text.dropLineEnd_split line
  have same : Text.trim (Text.dropEndWhile isLineEnd line) = Text.trim (Text.dropLineEnd line) := by
    rw [content_trim]
    conv => lhs; rw [split]
    exact Text.trim_append _ blank
  simp only [Value.ofInput, content, String.toList_ofList, same]

def Mirrors (t : Terminal) (c : Console) : Prop :=
  (∃ lines : List (List Char), t.input = lines.map (fun line => some (String.ofList line)) ∧
    c.input = lines.map fun line => String.ofList (Text.dropLineEnd line)) ∧
  t.output = String.join (c.output.toList.map (· ++ "\n"))

theorem mirrors_matches : Host.Matches Mirrors := by
  constructor
  · rintro t c ⟨input, output⟩ line
    refine ⟨rfl, input, ?_⟩
    simp [Host.writeLine, output, String.append_assoc]
  · rintro t c ⟨⟨lines, input, fed⟩, output⟩
    cases lines with
    | nil =>
      simp only [List.map_nil] at input fed
      simp only [Host.readLine, input, fed, true_and]
      exact ⟨⟨[], input, fed⟩, output⟩
    | cons line lines =>
      simp only [List.map_cons] at input fed
      simp only [Host.readLine, input, fed]
      exact ⟨congrArg Except.ok (lines_entered line), ⟨lines, rfl, rfl⟩, output⟩
  · rintro t c ⟨input, output⟩ millis
    exact ⟨input, output⟩

theorem ofBytes_text (text : String) : ofBytes text.toUTF8.data.toList = ofText text := by
  have bytes : text.toUTF8.data.toList.toByteArray = text.toUTF8 := by
    apply ByteArray.ext
    rw [List.data_toByteArray, Array.toArray_toList]
  have read : String.fromUTF8? text.toUTF8 = some text := by
    rw [String.toUTF8_eq_toByteArray, String.fromUTF8?, dif_pos text.isValidUTF8]
    rfl
  simp only [ofBytes, bytes, read]

end Terminal

namespace Session

/-- A terminal with a text for its standard input and a console with the lines of that text take a
machine the same way: each step comes to the same and leaves the same machine, and what stands on
the terminal are the lines on the console. -/
theorem terminal_and_console_agree (program : Program) (limit : Option Nat) (text : String)
    (n : Nat) :
    let input := (Text.inputLines text.toList).map String.ofList
    let s := (start program limit (Terminal.ofBytes text.toUTF8.data.toList)).after n
    let t := (start program limit ({ input } : Console)).after n
    s.machine = t.machine ∧ s.step.2 = t.step.2 ∧
      s.host.output = String.join (t.host.output.toList.map (· ++ "\n")) := by
  intro input s t
  have begun : Terminal.Mirrors (Terminal.ofBytes text.toUTF8.data.toList) { input } := by
    rw [Terminal.ofBytes_text]
    exact ⟨⟨Text.chunks (· == '\n') text.toList, rfl, by simp [input, Text.inputLines]⟩, rfl⟩
  obtain ⟨machine, host⟩ := after_matches
    (s := start program limit (Terminal.ofBytes text.toUTF8.data.toList))
    (t := start program limit ({ input } : Console)) Terminal.mirrors_matches rfl begun n
  exact ⟨machine, (step_matches Terminal.mirrors_matches machine host).2.2, host.2⟩

end Session
end Wheelwork
