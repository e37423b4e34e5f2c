import Mathlib.Algebra.Ring.Nat
import Mathlib.Data.List.DropRight
import Mathlib.Data.List.Induction
import Reckon.Proofs.Lexemes

set_option autoImplicit false

namespace Reckon

def byteLength : Text → Nat
  | [] => 0
  | c :: s => c.utf8Size + byteLength s

@[simp] theorem byteLength_nil : byteLength [] = 0 := rfl

@[simp] theorem byteLength_cons (c : Char) (s : Text) :
    byteLength (c :: s) = c.utf8Size + byteLength s := rfl

@[simp] theorem byteLength_append (s t : Text) :
    byteLength (s ++ t) = byteLength s + byteLength t := by
  induction s with
  | nil => simp
  | cons c s ih => simp [ih, Nat.add_assoc]

theorem length_le_byteLength (s : Text) : s.length ≤ byteLength s := by
  induction s with
  | nil => exact Nat.le_refl 0
  | cons c s ih =>
    have hpos := c.utf8Size_pos
    simp only [List.length_cons, byteLength_cons]
    omega

def lastLine (s : Text) : Text := s.rtakeWhile (· != '\n')

theorem lastLine_concat (s : Text) (c : Char) :
    lastLine (s ++ [c]) = if c = '\n' then [] else lastLine s ++ [c] := by
  rw [lastLine, List.rtakeWhile_concat]
  by_cases h : c = '\n' <;> simp [h, lastLine]

theorem lastLine_append (s t : Text) :
    lastLine (s ++ t) = if '\n' ∈ t then lastLine t else lastLine s ++ t := by
  induction t using List.reverseRecOn with
  | nil => simp
  | append_singleton t c ih =>
    rw [← List.append_assoc, lastLine_concat, lastLine_concat, ih]
    by_cases h : c = '\n'
    · simp [h]
    · by_cases ht : '\n' ∈ t <;> simp [h, ht, Ne.symm h]

namespace Location

theorem after_concat (p : Location) (s : Text) (c : Char) :
    p.after (s ++ [c]) = (p.after s).step c := by
  simp [after]

theorem offset_after (p : Location) (s : Text) : (p.after s).offset = p.offset + byteLength s := by
  induction s using List.reverseRecOn with
  | nil => rfl
  | append_singleton s c ih =>
    rw [after_concat, byteLength_append, step]
    split <;> simp [ih, Nat.add_assoc]

theorem after_start {n : Nat} (hn : n < 2 ^ 64) (s : Text) : (start n).after s =
    ⟨(n + s.count '\n') % 2 ^ 64, 1 + (lastLine s).length, byteLength s⟩ := by
  induction s using List.reverseRecOn with
  | nil =>
    rw [List.count_nil, Nat.add_zero, Nat.mod_eq_of_lt hn]
    rfl
  | append_singleton s c ih =>
    rw [after_concat, ih, step, lastLine_concat]
    split
    · next h => simp [h, Nat.add_assoc]
    · next h => simp [h, Nat.add_assoc]

example : (start (2 ^ 64 - 1)).after "a\n".toList = ⟨0, 1, 2⟩ := by decide

/-- A place of `s` as a place of the text that has `before` in front of `s`. Only on the first line
of `s`, up to its first newline, do the columns go on from those of the last line before it. -/
def moved (before s : Text) (p : Location) : Location :=
  ⟨(p.line + before.count '\n') % 2 ^ 64,
    if p.offset ≤ byteLength (s.takeWhile (· != '\n')) then p.column + (lastLine before).length
      else p.column,
    p.offset + byteLength before⟩

theorem byteLength_le_firstLine_iff {w s : Text} (h : w <+: s) :
    byteLength w ≤ byteLength (s.takeWhile (· != '\n')) ↔ '\n' ∉ w := by
  have hline : ∀ u : Text, '\n' ∉ u → ∀ c ∈ u, (c != '\n') = true := by
    intro u hu c hc
    simpa using fun h : c = '\n' => hu (h ▸ hc)
  obtain ⟨t, rfl⟩ := h
  constructor
  · intro hle hmem
    obtain ⟨u, v, rfl, hu⟩ := List.eq_append_cons_of_mem hmem
    have hpos := Char.utf8Size_pos '\n'
    rw [List.append_assoc, List.takeWhile_append_of_pos (hline u hu), List.cons_append,
      List.takeWhile_cons_of_neg (by simp)] at hle
    simp only [byteLength_append, byteLength_cons, byteLength_nil] at hle
    omega
  · intro hw
    rw [List.takeWhile_append_of_pos (hline w hw), byteLength_append]
    exact Nat.le_add_right _ _

theorem moved_after_start {before w s : Text} (h : w <+: s) :
    ((start 1).after w).moved before s = (start 1).after (before ++ w) := by
  have hone : 1 < 2 ^ 64 := by decide
  simp only [after_start hone, moved, lastLine_append, List.count_append, byteLength_append,
    byteLength_le_firstLine_iff h, mk.injEq]
  refine ⟨?_, ?_, by omega⟩
  · rw [Nat.mod_add_mod, Nat.add_assoc, Nat.add_comm (w.count '\n')]
  · by_cases hw : '\n' ∈ w
    · simp [hw]
    · have hline : lastLine w = w := by simpa [lastLine, hw] using lastLine_append [] w
      simp only [hw, hline, not_false_eq_true, if_true, if_false, List.length_append]
      omega

end Location

namespace Cursor

variable {c : Cursor}

theorem next_of_blank (h : ∀ x ∈ c.rest, separates x) :
    c.next = (⟨.stop, [], c.here.after c.rest⟩, ⟨c.here.after c.rest, []⟩) := by
  simp only [next, List.takeWhile_eq_self_iff.mpr h, List.dropWhile_eq_nil_iff.mpr h]

theorem exists_passed_next (c : Cursor) :
    ∃ w, c.rest = w ++ c.next.1.lexeme ++ c.next.2.rest ∧ c.next.1.location = c.here.after w ∧
      c.next.2.here = c.next.1.location.after c.next.1.lexeme := by
  cases hs : c.next.1.isStop with
  | true =>
    rw [next_of_blank (stop_iff.mp hs)]
    exact ⟨c.rest, by simp, rfl, rfl⟩
  | false =>
    obtain ⟨blanks, hf⟩ := exists_faces hs
    refine ⟨blanks, hf.text_eq, ?_⟩
    rw [hf.next_eq]
    exact ⟨rfl, rfl⟩

theorem exists_passed (c : Cursor) (n : Nat) :
    ∃ w, c.rest = w ++ (c.skip n).rest ∧ (c.skip n).here = c.here.after w := by
  induction n generalizing c with
  | zero => exact ⟨[], rfl, rfl⟩
  | succ n ih =>
    obtain ⟨w, hrest, hloc, hhere⟩ := c.exists_passed_next
    obtain ⟨w', hrest', hhere'⟩ := ih c.next.2
    refine ⟨w ++ c.next.1.lexeme ++ w', ?_, ?_⟩
    · rw [hrest, hrest', skip]
      simp only [List.append_assoc]
    · rw [skip, hhere', hhere, hloc, Location.after_append, Location.after_append]

theorem length_rest_skip (c : Cursor) (n : Nat) : (c.skip n).rest.length ≤ c.rest.length := by
  obtain ⟨w, hrest, -⟩ := c.exists_passed n
  rw [hrest, List.length_append]
  omega

end Cursor

end Reckon
