import Mathlib.Data.List.Infix
import Reckon.Proofs.Acceptance
import Reckon.Proofs.Places

set_option autoImplicit false

namespace Reckon

def Mark.lexeme (m : Mark) : Lexeme := ⟨.mark m false, [m.toChar]⟩

section Cuttings

variable {s : Text} {m : Mark}

def Cutting.concat (cut : Cutting s) (m : Mark) (hm : m ≠ .equal) : Cutting (s ++ [m.toChar]) where
  front := cut.front
  parts := cut.parts ++ [(m.lexeme, [])]
  text_eq := by
    have htext := congrArg (· ++ [m.toChar]) cut.text_eq
    simpa [spread, Mark.lexeme] using htext
  blank := by
    obtain ⟨hfront, hblank⟩ := List.forall_mem_cons.mp cut.blank
    rw [List.map_append, List.forall_mem_cons, List.forall_mem_append]
    exact ⟨hfront, hblank, by simp⟩
  wellFormed := by
    rw [List.forall_mem_append]
    exact ⟨cut.wellFormed, by simpa using .bare m⟩
  apart := by
    refine List.isChain_append.mpr ⟨cut.apart, List.isChain_singleton _, ?_⟩
    rintro p - _ ⟨⟩ -
    simp [Lexeme.Fuses, Mark.lexeme, Mark.toChar_ne_equal hm]

def Cutting.cons (cut : Cutting s) (m : Mark) (hs : s.head? ≠ some '=') :
    Cutting (m.toChar :: s) where
  front := []
  parts := (m.lexeme, cut.front) :: cut.parts
  text_eq := by
    have htext := congrArg (m.toChar :: ·) cut.text_eq
    simpa [spread, Mark.lexeme] using htext
  blank := List.forall_mem_cons.mpr ⟨by simp, cut.blank⟩
  wellFormed := List.forall_mem_cons.mpr ⟨.bare m, cut.wellFormed⟩
  apart := by
    refine List.isChain_cons.mpr ⟨?_, cut.apart⟩
    intro q hq (hnil : cut.front = [])
    obtain ⟨parts, hparts⟩ := List.head?_eq_some_iff.mp hq
    have hqw : q.1.WellFormed := cut.wellFormed q (List.mem_of_head? hq)
    rw [← cut.text_eq, hparts, hnil, List.nil_append, head?_spread hqw] at hs
    simp [Lexeme.Fuses, Mark.lexeme, hs]

theorem Cutting.lexemes_eq_tokens (cut : Cutting s) : cut.lexemes = (tokens s).map Token.spelling :=
  lexemes_eq (c := .start 1 s) cut

theorem map_spelling_concat (s : Text) (hm : m ≠ .equal) :
    (tokens (s ++ [m.toChar])).map Token.spelling =
      (tokens s).map Token.spelling ++ [m.lexeme] := by
  obtain ⟨cut⟩ : Nonempty (Cutting s) := (Cursor.start 1 s).nonempty_cutting
  calc (tokens (s ++ [m.toChar])).map Token.spelling
    _ = (cut.concat m hm).lexemes := (Cutting.lexemes_eq_tokens _).symm
    _ = cut.lexemes ++ [m.lexeme] := by simp [Cutting.lexemes, Cutting.concat]
    _ = (tokens s).map Token.spelling ++ [m.lexeme] := by rw [cut.lexemes_eq_tokens]

theorem map_spelling_cons (hs : s.head? ≠ some '=') (m : Mark) :
    (tokens (m.toChar :: s)).map Token.spelling = m.lexeme :: (tokens s).map Token.spelling := by
  obtain ⟨cut⟩ : Nonempty (Cutting s) := (Cursor.start 1 s).nonempty_cutting
  calc (tokens (m.toChar :: s)).map Token.spelling
    _ = (cut.cons m hs).lexemes := (Cutting.lexemes_eq_tokens _).symm
    _ = m.lexeme :: cut.lexemes := rfl
    _ = m.lexeme :: (tokens s).map Token.spelling := by rw [cut.lexemes_eq_tokens]

theorem map_spelling_grouped (hs : s.head? ≠ some '=') :
    (tokens ('(' :: s ++ [')', ';'])).map Token.spelling =
      (Mark.opening.lexeme :: (tokens s).map Token.spelling ++ [Mark.closing.lexeme]) ++
        [Mark.semicolon.lexeme] := by
  have hhead : (s ++ [Mark.closing.toChar] ++ [Mark.semicolon.toChar]).head? ≠ some '=' := by
    cases s with
    | nil => decide
    | cons x s => exact hs
  have hopened := map_spelling_cons hhead .opening
  rw [map_spelling_concat _ (by decide), map_spelling_concat _ (by decide)] at hopened
  simpa [Mark.toChar] using hopened

end Cuttings

section Counting

variable {m : Mark} {l : Lexeme}

theorem count_flatMap_text {ls : List Lexeme} (h : ∀ l ∈ ls, l.WellFormed)
    (hm : m.extendsToComparison = false) :
    (ls.flatMap Lexeme.text).count m.toChar =
      (ls.map Lexeme.token).countP (fun t => t.actsAs (.mark m false)) := by
  induction ls with
  | nil => rfl
  | cons l ls ih =>
    obtain ⟨hl, hls⟩ := List.forall_mem_cons.mp h
    have hcount : l.text.count m.toChar = if l.token.actsAs (.mark m false) then 1 else 0 := by
      simp [hl.count_mark hm, Token.actsAs, Lexeme.token]
    rw [List.flatMap_cons, List.count_append, hcount, ih hls, List.map_cons, List.countP_cons]
    exact Nat.add_comm _ _

theorem exists_prefix_text {s : Text} (n : Nat) :
    ∃ w, w <+: s ∧ (((tokens s).take n).map Token.spelling).flatMap Lexeme.text =
      w.filter (fun c => !separates c) := by
  obtain ⟨w, hw, -⟩ := (Cursor.start 1 s).exists_passed n
  refine ⟨w, ⟨_, hw.symm⟩, ?_⟩
  have hall : (tokens s).flatMap Token.lexeme = s.filter (fun c => !separates c) :=
    (Cursor.start 1 s).flatMap_lexeme
  have hlater : ((tokens s).drop n).flatMap Token.lexeme =
      ((Cursor.start 1 s).skip n).rest.filter (fun c => !separates c) := by
    rw [← Cursor.flatMap_lexeme, Cursor.tokens_skip]
    rfl
  have hsplit : s.filter (fun c => !separates c) = w.filter (fun c => !separates c) ++
      ((Cursor.start 1 s).skip n).rest.filter (fun c => !separates c) := by
    rw [← List.filter_append]
    exact congrArg _ hw
  rw [← List.take_append_drop n (tokens s), List.flatMap_append, hlater, hsplit,
    List.append_cancel_right_eq] at hall
  rw [List.flatMap_map]
  exact hall

theorem balance_nonneg_of_inits {s : Text} {x : List Token}
    (hb : ∀ p ∈ s.inits, p.count ')' ≤ p.count '(')
    (hx : x <+: ((tokens s).map Token.spelling).map Lexeme.token) : 0 ≤ balance x := by
  obtain ⟨w, hw, htext⟩ := exists_prefix_text (s := s) x.length
  have hx : x = (((tokens s).take x.length).map Token.spelling).map Lexeme.token := by
    rw [List.map_take, List.map_take]
    exact List.prefix_iff_eq_take.mp hx
  have hcount : ∀ m : Mark, m.extendsToComparison = false →
      w.count m.toChar = x.countP (fun t => t.actsAs (.mark m false)) := by
    intro m hm
    have hwf : ∀ l ∈ ((tokens s).take x.length).map Token.spelling, l.WellFormed := by
      intro l hl
      exact wellFormed_of_mem_spelling (List.map_subset _ (List.take_subset _ _) hl)
    rw [hx, ← count_flatMap_text hwf hm, htext, List.count_filter]
    simp [m.toChar_not_run]
  have hopening : w.count '(' = _ := hcount .opening rfl
  have hclosing : w.count ')' = _ := hcount .closing rfl
  have hle := hb w ((List.mem_inits w s).mpr hw)
  unfold balance
  omega

theorem not_semicolon_of_not_mem {s : Text} (hs : ';' ∉ s) (h : l ∈ (tokens s).map Token.spelling) :
    ¬ l.token.actsAs (.mark .semicolon false) := by
  intro hl
  have hmem : ';' ∈ l.text :=
    (wellFormed_of_mem_spelling h).mem_semicolon_iff.mpr (Token.head_eq_of_actsAs hl)
  obtain ⟨t, ht, rfl⟩ := List.mem_map.mp h
  have htext : ';' ∈ (tokens s).flatMap Token.lexeme := List.mem_flatMap.mpr ⟨t, ht, hmem⟩
  rw [tokens, Cursor.flatMap_lexeme] at htext
  exact hs (List.mem_filter.mp htext).1

end Counting

section Statements

variable {limit : Nat} {line : Text} {ls : List Lexeme} {l o c : Lexeme} {v : Int}

theorem evaluate_eq_ok_iff_yields (hs : (tokens line).map Token.spelling = ls ++ [l])
    (hl : l.token.actsAs (.mark .semicolon false))
    (hls : ∀ r ∈ ls, ¬ r.token.actsAs (.mark .semicolon false)) :
    evaluate limit line = .ok v ↔ Yields limit ls v := by
  rw [evaluate_eq_ok_iff, hs]
  constructor
  · rintro ⟨ls', l', hp, hl', hy⟩
    rcases List.prefix_concat_iff.mp hp with heq | hp
    · rwa [List.append_inj_left' heq rfl] at hy
    · exact absurd hl' (hls l' (hp.subset (by simp)))
  · intro hy
    exact ⟨ls, l, List.prefix_refl _, hl, hy⟩

/-- A group yields what its content yields one level further out. No other `)` closes it, so it is
no operand of an operator between two groups. -/
theorem yields_group (ho : o.token.actsAs (.mark .opening false))
    (hc : c.token.actsAs (.mark .closing false))
    (hb : ∀ x, x <+: ls.map Lexeme.token → 0 ≤ balance x) :
    Yields (limit + 1) (o :: ls ++ [c]) v ↔ Yields limit ls v := by
  unfold Yields
  rw [List.map_append, List.map_cons, List.map_singleton]
  constructor
  · rintro ⟨e, he, hn, hv⟩
    generalize hs : o.token :: ls.map Lexeme.token ++ [c.token] = ts at he
    cases he with
    | number ht => simp at hs
    | group ho' he hc' =>
      simp only [List.cons_append, List.cons.injEq] at hs
      obtain ⟨rfl, hs⟩ := hs
      obtain rfl := List.append_inj_left' hs rfl
      rw [Tree.nesting] at hn
      exact ⟨_, he, by omega, hv⟩
    | binary hl ha ht hr =>
      have hi := balance_inside ho hb hs ha.ne_nil (by simp)
      rw [ha.balance_eq_zero] at hi
      omega
  · rintro ⟨e, he, hn, hv⟩
    refine ⟨.group o.token.location e, .group ho he hc, ?_, hv⟩
    rw [Tree.nesting]
    omega

end Statements

/-- A text without `;` in which every `)` closes a `(` before it has the same values as a statement
and as a group under a limit one higher. It must not begin with `=`, which the `(` would take up. -/
theorem evaluate_grouped {limit : Nat} {s : Text} {v : Int} (hsemi : ';' ∉ s)
    (hfirst : s.head? ≠ some '=') (hb : ∀ p ∈ s.inits, p.count ')' ≤ p.count '(') :
    evaluate limit (s ++ [';']) = .ok v ↔
      evaluate (limit + 1) ('(' :: s ++ [')', ';']) = .ok v := by
  have hstatement := map_spelling_concat (m := .semicolon) s (by decide)
  have hgroup := map_spelling_grouped hfirst
  have hsemi' : ∀ l ∈ Mark.opening.lexeme :: (tokens s).map Token.spelling ++ [Mark.closing.lexeme],
      ¬ l.token.actsAs (.mark .semicolon false) := by
    intro l hl
    simp only [List.cons_append, List.mem_cons, List.mem_append, List.not_mem_nil, or_false] at hl
    rcases hl with rfl | hl | rfl
    · decide
    · exact not_semicolon_of_not_mem hsemi hl
    · decide
  calc evaluate limit (s ++ [';']) = .ok v
    _ ↔ Yields limit ((tokens s).map Token.spelling) v :=
      evaluate_eq_ok_iff_yields hstatement rfl (fun _ hl => not_semicolon_of_not_mem hsemi hl)
    _ ↔ Yields (limit + 1)
          (Mark.opening.lexeme :: (tokens s).map Token.spelling ++ [Mark.closing.lexeme]) v :=
      (yields_group rfl rfl (fun _ hx => balance_nonneg_of_inits hb hx)).symm
    _ ↔ evaluate (limit + 1) ('(' :: s ++ [')', ';']) = .ok v :=
      (evaluate_eq_ok_iff_yields hgroup rfl hsemi').symm

/-- The text has a group of its own at either end, so that counting decides what its last
`)` closes. -/
theorem evaluate_grouped_ends :
    (∀ p ∈ " (1+2) ^=(3)>= 27 -(9!= 9) ".toList.inits, p.count ')' ≤ p.count '(') ∧
      evaluate 2 " (1+2) ^=(3)>= 27 -(9!= 9) ;".toList = .ok 1 ∧
      evaluate 3 "( (1+2) ^=(3)>= 27 -(9!= 9) );".toList = .ok 1 := by
  have hb : ∀ p ∈ " (1+2) ^=(3)>= 27 -(9!= 9) ".toList.inits, p.count ')' ≤ p.count '(' := by decide
  have hv : evaluate 2 (" (1+2) ^=(3)>= 27 -(9!= 9) ".toList ++ [';']) = .ok 1 := by decide +kernel
  exact ⟨hb, hv, (evaluate_grouped (by decide) (by decide) hb).mp hv⟩

/-- With a `)` that closes more than was opened, a text may be a group at each end and no
statement. -/
example : evaluate 2 "1)+(2;".toList ≠ .ok 3 ∧ evaluate 3 "(1)+(2);".toList = .ok 3 := by
  decide +kernel

end Reckon
