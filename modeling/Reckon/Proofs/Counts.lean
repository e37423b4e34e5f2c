import Reckon.Proofs.Nesting
import Reckon.Proofs.Verdict

set_option autoImplicit false

namespace Reckon

section Failing

variable {config config' : Config} {lineNumber : Nat}

theorem isError_interpret_iff {line : Text} :
    (interpret config lineNumber line).isError ↔
      (∃ c ∈ line, isAccepted c = false) ∨
        (config.mode = .evaluate ∧ ∃ f, evaluate config.maxDepth line = .error f) := by
  cases hc : complaint? line with
  | some c =>
    have hrejected : ∃ c ∈ line, isAccepted c = false := by
      by_contra hno
      rw [complaint?_eq_none_iff.mpr (by simpa using hno)] at hc
      cases hc
    simp [interpret_eq_lexical_iff.mpr hc, Outcome.isError, hrejected]
  | none =>
    have haccepted : ¬ ∃ c ∈ line, isAccepted c = false := by
      simpa using complaint?_eq_none_iff.mp hc
    simp only [interpret, hc, haccepted, false_or]
    cases config.mode with
    | list => simp [Outcome.isError]
    | evaluate => cases evaluate config.maxDepth line <;> simp [Outcome.isError]

theorem rejected_chomp_iff {line : Text} :
    (∃ c ∈ chomp line, isAccepted c = false) ↔ ∃ c ∈ line, isAccepted c = false := by
  unfold chomp
  split
  · next hlast =>
    obtain ⟨front, rfl⟩ := List.getLast?_eq_some_iff.mp hlast
    have hnewline : isAccepted '\n' = true := rfl
    simp [or_and_right, exists_or, hnewline]
  · rfl

theorem fails_iff {line : Bytes} :
    fails config line ↔ isBlank (Utf8.decode line) = false ∧
      ((∃ c ∈ Utf8.decode line, isAccepted c = false) ∨
        (config.mode = .evaluate ∧ ∃ f,
          evaluate config.maxDepth (chomp (Utf8.decode line)) = .error f)) := by
  rw [fails, Bool.and_eq_true, isError_interpret_iff, rejected_chomp_iff, Bool.not_eq_true']

theorem fails_mono {line : Bytes} (hmode : config.mode = .evaluate)
    (hdepth : config'.mode = .evaluate → config.maxDepth ≤ config'.maxDepth)
    (h : fails config' line) :
    fails config line := by
  rw [fails_iff] at h ⊢
  obtain ⟨hblank, hrejected | ⟨hmode', f, hf⟩⟩ := h
  · exact ⟨hblank, .inl hrejected⟩
  · refine ⟨hblank, .inr ⟨hmode, ?_⟩⟩
    rcases evaluate_limit (chomp (Utf8.decode line)) (hdepth hmode') with heq | ⟨place, hdeep⟩
    · exact ⟨f, heq ▸ hf⟩
    · exact ⟨_, hdeep⟩

theorem failed_le_failed (lines : List Bytes) (hmode : config.mode = .evaluate)
    (hdepth : config'.mode = .evaluate → config.maxDepth ≤ config'.maxDepth) :
    (Summary.ofLines config' lines).failed ≤ (Summary.ofLines config lines).failed :=
  List.countP_mono_left fun _ _ h => fails_mono hmode hdepth h

theorem failed_le_reported (config : Config) (lines : List Bytes) :
    (Summary.ofLines config lines).failed ≤
      (Summary.ofLines config lines).lines - (Summary.ofLines config lines).skipped := by
  have hsplit :=
    List.length_eq_countP_add_countP (fun line => isBlank (Utf8.decode line)) (l := lines)
  have hle : lines.countP (fails config) ≤ lines.countP (fun line => !isBlank (Utf8.decode line)) :=
    List.countP_mono_left fun line _ h => by simp [(fails_iff.mp h).1]
  simp only [Summary.ofLines]
  simp only [Bool.not_eq_true, Bool.decide_eq_false] at hsplit
  omega

end Failing

/-- What a run counts of an input. The lines are its newlines, and one more if the last line has
none; how many are blank does not depend on the configuration. A listing fails the lines that are
not blank and have a character that is no part of the language; evaluation fails these and perhaps
others, no more of them under a higher limit, and never a blank one. -/
theorem run_counts (bytes : Bytes) :
    ∃ lines skipped, ∃ failed : Config → Nat,
      (∀ config, (completeRun config bytes).1 = .ok ⟨lines, skipped, failed config⟩) ∧
      lines = bytes.count newline + (if Whole bytes then 0 else 1) ∧
      skipped = (splitLines bytes).countP (fun line => isBlank (Utf8.decode line)) ∧
      (∀ depth, failed ⟨.list, depth⟩ = (splitLines bytes).countP fun line =>
        !isBlank (Utf8.decode line) && (Utf8.decode line).any fun c => !isAccepted c) ∧
      ∀ depth d d', d ≤ d' →
        failed ⟨.list, depth⟩ ≤ failed ⟨.evaluate, d'⟩ ∧
        failed ⟨.evaluate, d'⟩ ≤ failed ⟨.evaluate, d⟩ ∧
        failed ⟨.evaluate, d⟩ ≤ lines - skipped := by
  refine ⟨_, _, fun config => (Summary.ofLines config (splitLines bytes)).failed,
    fun config => by rw [completeRun_eq]; rfl, length_splitLines bytes, rfl, ?_, ?_⟩
  · intro depth
    apply List.countP_congr
    intro line _
    simp [fails_iff]
  · intro depth d d' h
    exact ⟨failed_le_failed _ rfl (by simp), failed_le_failed _ rfl fun _ => h,
      failed_le_reported _ _⟩

/-- A malformed line, a blank one, one that nests two deep, one without an operand and one without a
newline. -/
theorem run_counts_strict :
    ∃ lines skipped, ∃ failed : Config → Nat,
      (∀ config, (completeRun config (Utf8.encode "x;\n\n((1));\n1+;\n2;".toList)).1 =
        .ok ⟨lines, skipped, failed config⟩) ∧
      lines = 5 ∧ skipped = 1 ∧
      failed ⟨.list, 0⟩ = 1 ∧ failed ⟨.evaluate, 2⟩ = 2 ∧ failed ⟨.evaluate, 1⟩ = 3 ∧
      failed ⟨.list, 0⟩ ≤ failed ⟨.evaluate, 2⟩ ∧ failed ⟨.evaluate, 2⟩ ≤ failed ⟨.evaluate, 1⟩ ∧
      failed ⟨.evaluate, 1⟩ ≤ lines - skipped := by
  obtain ⟨lines, skipped, failed, hrun, -, -, -, hle⟩ :=
    run_counts (Utf8.encode "x;\n\n((1));\n1+;\n2;".toList)
  have hlisted : (completeRun ⟨.list, 0⟩ (Utf8.encode "x;\n\n((1));\n1+;\n2;".toList)).1 =
      .ok ⟨5, 1, 1⟩ := by
    decide +kernel
  have hhigh : (completeRun ⟨.evaluate, 2⟩ (Utf8.encode "x;\n\n((1));\n1+;\n2;".toList)).1 =
      .ok ⟨5, 1, 2⟩ := by
    decide +kernel
  have hlow : (completeRun ⟨.evaluate, 1⟩ (Utf8.encode "x;\n\n((1));\n1+;\n2;".toList)).1 =
      .ok ⟨5, 1, 3⟩ := by
    decide +kernel
  rw [hrun, Except.ok.injEq, Summary.mk.injEq] at hlisted hhigh hlow
  exact ⟨lines, skipped, failed, hrun, hlisted.1, hlisted.2.1, hlisted.2.2, hhigh.2.2, hlow.2.2,
    hle 0 1 2 (by decide)⟩

end Reckon
