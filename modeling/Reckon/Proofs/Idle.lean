import Reckon.Proofs.Lockstep
import Reckon.Proofs.Nesting
import Reckon.Proofs.Places

/-!
Marks that are written with an `=` and read without it. Main statement: a space in place of every
such `=` changes nothing, neither the value of a line nor the place of its failure. The characters
after the `=` are cut into lexemes as before, since a lexeme never goes on over a space and only a
mark goes on with an `=`.
-/

set_option autoImplicit false

namespace Reckon

/-- Whether a kind is read as a mark without the `=` that it was written with. -/
def Kind.hasIdleEqual : Kind → Bool
  | mark m true => !m.extendsToComparison
  | _ => false

def idleEqualAt (ts : List Token) (offset : Nat) : Bool :=
  ts.any (fun t => t.kind.hasIdleEqual && t.location.offset + 1 == offset)

def blankOut (out : Nat → Bool) : Nat → Text → Text
  | _, [] => []
  | offset, c :: s => (if out offset then ' ' else c) :: blankOut out (offset + c.utf8Size) s

/-- A line with a space in place of every `=` that is not read. -/
def blankIdle (line : Text) : Text := blankOut (idleEqualAt (tokens line)) 0 line

section BlankOut

variable {out out' : Nat → Bool} {n : Nat} {s t : Text}

theorem blankOut_append :
    blankOut out n (s ++ t) = blankOut out n s ++ blankOut out (n + byteLength s) t := by
  induction s generalizing n with
  | nil => rfl
  | cons c s ih => simp only [List.cons_append, blankOut, ih, byteLength_cons, Nat.add_assoc]

theorem blankOut_congr (h : ∀ k, n ≤ k → k < n + byteLength s → out k = out' k) :
    blankOut out n s = blankOut out' n s := by
  induction s generalizing n with
  | nil => rfl
  | cons c s ih =>
    have hpos := c.utf8Size_pos
    simp only [byteLength_cons] at h
    rw [blankOut, blankOut, h n (Nat.le_refl n) (by omega)]
    rw [ih (fun k hk hlt => h k (by omega) (by omega))]

theorem blankOut_false : blankOut (fun _ => false) n s = s := by
  induction s generalizing n with
  | nil => rfl
  | cons c s ih =>
    rw [blankOut, ih]
    rfl

theorem blankOut_eq_self (h : ∀ k, n ≤ k → k < n + byteLength s → out k = false) :
    blankOut out n s = s := by
  rw [blankOut_congr h, blankOut_false]

end BlankOut

def Lexeme.blankIdle (l : Lexeme) : Text :=
  if l.kind.hasIdleEqual then l.text.dropLast ++ [' '] else l.text

theorem Lexeme.WellFormed.of_idleEqual {l : Lexeme} (h : l.WellFormed) (hl : l.kind.hasIdleEqual) :
    ∃ m : Mark, m.extendsToComparison = false ∧ l = ⟨.mark m true, [m.toChar, '=']⟩ := by
  cases h with
  | number | word | bare | stray => cases hl
  | extended m => exact ⟨m, by simpa [Kind.hasIdleEqual] using hl, rfl⟩

theorem Mark.utf8Size_toChar (m : Mark) : m.toChar.utf8Size = 1 := by cases m <;> rfl

theorem Lexeme.WellFormed.byteLength_idle {l : Lexeme} (h : l.WellFormed)
    (hl : l.kind.hasIdleEqual) :
    byteLength l.text = 2 := by
  obtain ⟨m, -, rfl⟩ := h.of_idleEqual hl
  simp [m.utf8Size_toChar, show '='.utf8Size = 1 from rfl]

theorem Lexeme.WellFormed.blankOut_eq {l : Lexeme} {out : Nat → Bool} {n : Nat} (h : l.WellFormed)
    (hout : ∀ k, n ≤ k → k < n + byteLength l.text → out k = (l.kind.hasIdleEqual && n + 1 == k)) :
    blankOut out n l.text = l.blankIdle := by
  cases hl : l.kind.hasIdleEqual with
  | false =>
    rw [Lexeme.blankIdle, hl]
    apply blankOut_eq_self
    intro k hk hlt
    rw [hout k hk hlt, hl, Bool.false_and]
  | true =>
    have hlen := h.byteLength_idle hl
    have h₀ : out n = false := by simp [hout n (by omega) (by omega)]
    have h₁ : out (n + 1) = true := by simp [hout (n + 1) (by omega) (by omega), hl]
    obtain ⟨m, hm, rfl⟩ := h.of_idleEqual hl
    simp [blankOut, m.utf8Size_toChar, h₀, h₁, Lexeme.blankIdle, hl]

namespace Cursor

variable {c d : Cursor} {blanks rest : Text} {l : Lexeme}

def blankIdle (c : Cursor) : Text := blankOut (idleEqualAt c.tokens) c.here.offset c.rest

theorem offset_le_of_mem {t : Token} (h : t ∈ c.tokens) : c.here.offset ≤ t.location.offset := by
  obtain ⟨k, hk, rfl⟩ := List.mem_iff_getElem.mp h
  have ht := (tokenAt_of_lt hk).1
  rw [List.getElem?_eq_getElem hk] at ht
  rw [Option.some.inj ht]
  exact Nat.le_trans c.offset_le_next.1 (c.offset_tokenAt_mono (Nat.zero_le k))

theorem idleEqualAt_eq_false {offset : Nat} (h : offset ≤ c.here.offset) :
    idleEqualAt c.tokens offset = false := by
  rw [idleEqualAt, List.any_eq_false]
  intro t ht
  have hle := offset_le_of_mem ht
  simp only [Bool.and_eq_true, beq_iff_eq, not_and]
  omega

theorem head?_blankIdle : c.blankIdle.head? = c.rest.head? := by
  unfold blankIdle
  cases c.rest with
  | nil => rfl
  | cons x s =>
    rw [blankOut, idleEqualAt_eq_false (Nat.le_refl _)]
    rfl

theorem Faces.offset_next (h : c.Faces blanks l rest) :
    c.next.2.here.offset = c.here.offset + byteLength blanks + byteLength l.text := by
  rw [h.next_eq]
  show ((c.here.after blanks).after l.text).offset = _
  rw [Location.offset_after, Location.offset_after]

theorem Faces.idleEqualAt_eq (h : c.Faces blanks l rest) (k : Nat) :
    idleEqualAt c.tokens k =
      (l.kind.hasIdleEqual && c.here.offset + byteLength blanks + 1 == k ||
        idleEqualAt c.next.2.tokens k) := by
  rw [idleEqualAt, tokens_of_not_stop h.not_stop, List.any_cons, idleEqualAt,
    ← Location.offset_after]
  have ht : c.next.1 = ⟨l.kind, l.text, c.here.after blanks⟩ := by rw [h.next_eq]
  rw [ht]

theorem Faces.blankIdle_eq (h : c.Faces blanks l rest) :
    c.blankIdle = blanks ++ l.blankIdle ++ c.next.2.blankIdle := by
  have hnext := h.offset_next
  have hat := h.idleEqualAt_eq
  have hlater : ∀ k, k ≤ c.next.2.here.offset → idleEqualAt c.next.2.tokens k = false :=
    fun _ hk => idleEqualAt_eq_false hk
  have hrest : c.next.2.rest = rest := by rw [h.next_eq]
  have hblanks : blankOut (idleEqualAt c.tokens) c.here.offset blanks = blanks := by
    apply blankOut_eq_self
    intro k hk hlt
    rw [hat, hlater k (by omega)]
    simp only [Bool.or_false, Bool.and_eq_false_iff, beq_eq_false_iff_ne]
    omega
  have hlexeme : blankOut (idleEqualAt c.tokens) (c.here.offset + byteLength blanks) l.text =
      l.blankIdle := by
    apply h.wellFormed.blankOut_eq
    intro k _ hlt
    rw [hat, hlater k (by omega), Bool.or_false]
  have hafter : blankOut (idleEqualAt c.tokens) c.next.2.here.offset rest = c.next.2.blankIdle := by
    rw [blankIdle, hrest]
    apply blankOut_congr
    intro k hk _
    have hout : (l.kind.hasIdleEqual && c.here.offset + byteLength blanks + 1 == k) = false := by
      cases hl : l.kind.hasIdleEqual with
      | false => rfl
      | true =>
        have hlen := h.wellFormed.byteLength_idle hl
        rw [Bool.true_and, beq_eq_false_iff_ne]
        omega
    rw [hat, hout, Bool.false_or]
  rw [blankIdle, h.text_eq, blankOut_append, blankOut_append, hblanks, hlexeme, byteLength_append,
    ← Nat.add_assoc, ← hnext, hafter]

/-- A cursor before the same text without its idle `=`. It may have blanks to skip that the other
one has passed. -/
structure Trails (d c : Cursor) (blanks : Text) : Prop where
  text_eq : d.rest = blanks ++ c.blankIdle
  blank : ∀ x ∈ blanks, separates x
  here_eq : d.here.after blanks = c.here

theorem Trails.next_of_stop (h : d.Trails c blanks) (hc : c.next.1.isStop = true) :
    c.next.1.Similar d.next.1 ∧ c.next.1.location = d.next.1.location ∧
      d.next.2.Trails c.next.2 [] := by
  have hblank := stop_iff.mp hc
  have hsame : c.blankIdle = c.rest := by
    apply blankOut_eq_self
    intro k _ _
    rw [tokens_of_stop hc]
    rfl
  have hd : ∀ x ∈ d.rest, separates x := by
    intro x hx
    rw [h.text_eq, hsame] at hx
    rcases List.mem_append.mp hx with hx | hx
    · exact h.blank x hx
    · exact hblank x hx
  have hspot : d.here.after d.rest = c.here.after c.rest := by
    rw [h.text_eq, hsame, Location.after_append, h.here_eq]
  rw [next_of_blank hblank, next_of_blank hd, hspot]
  exact ⟨.of_stop rfl rfl, rfl, rfl, by simp, rfl⟩

theorem Trails.next_of_faces {blanks' : Text} (h : d.Trails c blanks)
    (hc : c.Faces blanks' l rest) :
    c.next.1.Similar d.next.1 ∧ c.next.1.location = d.next.1.location ∧
      ∃ blanks, d.next.2.Trails c.next.2 blanks := by
  have htext : d.rest = blanks ++ blanks' ++ l.blankIdle ++ c.next.2.blankIdle := by
    rw [h.text_eq, hc.blankIdle_eq]
    simp only [List.append_assoc]
  have hblank : ∀ x ∈ blanks ++ blanks', separates x := by
    intro x hx
    rcases List.mem_append.mp hx with hx | hx
    · exact h.blank x hx
    · exact hc.blank x hx
  have hspot : d.here.after (blanks ++ blanks') = c.here.after blanks' := by
    rw [Location.after_append, h.here_eq]
  have hfirst : c.next.2.blankIdle.head? = rest.head? := by rw [head?_blankIdle, hc.next_eq]
  cases hl : l.kind.hasIdleEqual with
  | false =>
    have hd : d.Faces (blanks ++ blanks') l c.next.2.blankIdle := by
      refine ⟨?_, hblank, hc.wellFormed, ?_⟩
      · simpa [Lexeme.blankIdle, hl] using htext
      · rw [hfirst]
        exact hc.longest
    rw [hd.next_eq, hspot, hc.next_eq]
    exact ⟨⟨rfl, fun _ => rfl⟩, rfl, [], rfl, by simp, rfl⟩
  | true =>
    -- the space that is left after the mark is one more blank before the next lexeme
    obtain ⟨m, hm, rfl⟩ := hc.wellFormed.of_idleEqual hl
    have hd : d.Faces (blanks ++ blanks') ⟨.mark m false, [m.toChar]⟩
        (' ' :: c.next.2.blankIdle) := by
      refine ⟨?_, hblank, .bare m, ?_⟩
      · simpa [Lexeme.blankIdle, hl] using htext
      · simp [Lexeme.goesOn]
    rw [hd.next_eq, hspot, hc.next_eq]
    refine ⟨⟨?_, ?_⟩, rfl, [' '], rfl, ?_, rfl⟩
    · simp [Kind.head, hm]
    · intro hn
      cases hn
    · simp [separates]

theorem Trails.next (h : d.Trails c blanks) :
    c.next.1.Similar d.next.1 ∧ c.next.1.location = d.next.1.location ∧
      ∃ blanks, d.next.2.Trails c.next.2 blanks := by
  cases hs : c.next.1.isStop with
  | true =>
    obtain ⟨ht, hl, hn⟩ := h.next_of_stop hs
    exact ⟨ht, hl, [], hn⟩
  | false =>
    obtain ⟨blanks', hc⟩ := exists_faces hs
    exact h.next_of_faces hc

theorem Trails.skip (h : d.Trails c blanks) (n : Nat) :
    ∃ blanks, (d.skip n).Trails (c.skip n) blanks := by
  induction n generalizing c d blanks with
  | zero => exact ⟨blanks, h⟩
  | succ n ih =>
    obtain ⟨-, -, blanks', hn⟩ := h.next
    exact ih hn

theorem Trails.parallel (h : d.Trails c blanks) : c.Parallel Eq d := by
  intro k _
  obtain ⟨blanks', hk⟩ := h.skip k
  obtain ⟨ht, hl, -⟩ := hk.next
  exact ⟨ht, hl⟩

end Cursor

/-- An extended mark that is no comparison is exactly the bare mark: with a space in place of its
`=` a line has the same value, or the same failure at the same place. -/
theorem evaluate_blankIdle (limit : Nat) (line : Text) :
    evaluate limit (blankIdle line) = evaluate limit line := by
  have h : (Cursor.start 1 (blankIdle line)).Trails (Cursor.start 1 line) [] := ⟨rfl, by simp, rfl⟩
  have hx : Parallel Eq Eq (evaluate limit line) (evaluate limit (blankIdle line)) :=
    Lookahead.statement_parallel h.parallel
  exact hx.eq.symm

example : blankIdle "(=7+==;==1)==2".toList = "( 7+ =; =1) =2".toList := by decide +kernel

end Reckon
