import Reckon.Proofs.Lexemes
import Reckon.Proofs.Steps

set_option autoImplicit false

namespace Reckon

open Evaluation

namespace Cursor

def extend (c : Cursor) (more : Text) : Cursor := { c with rest := c.rest ++ more }

variable {c : Cursor} {blanks rest more : Text} {l : Lexeme} {n : Nat}

theorem Faces.extend (h : c.Faces blanks l rest) (hr : rest ≠ []) :
    (c.extend more).Faces blanks l (rest ++ more) := by
  refine ⟨by simp [Cursor.extend, h.text_eq], h.blank, h.wellFormed, ?_⟩
  rw [List.head?_append_of_ne_nil _ hr]
  exact h.longest

theorem Faces.extend_mark {m : Mark} {extended : Bool} (h : c.Faces blanks l rest)
    (hk : l.kind = .mark m extended) :
    ∃ l' rest' extended', (c.extend more).Faces blanks l' rest' ∧ l'.kind = .mark m extended' := by
  have htext : (c.extend more).rest = blanks ++ l.text ++ (rest ++ more) := by
    simp [Cursor.extend, h.text_eq]
  have hwf := h.wellFormed
  generalize rest ++ more = rest' at htext
  cases hwf with
  | number | word | stray => cases hk
  | extended m' =>
    obtain ⟨rfl, -⟩ : m' = m ∧ true = extended := by simpa using hk
    exact ⟨_, rest', true, ⟨htext, h.blank, .extended m', fun _ _ => rfl⟩, rfl⟩
  | bare m' =>
    obtain ⟨rfl, -⟩ : m' = m ∧ false = extended := by simpa using hk
    by_cases he : rest'.head? = some '='
    · obtain ⟨rest', rfl⟩ := List.head?_eq_some_iff.mp he
      refine ⟨⟨.mark m' true, [m'.toChar, '=']⟩, rest', true, ?_, rfl⟩
      exact ⟨by simp [htext], h.blank, .extended m', fun _ _ => rfl⟩
    · refine ⟨_, rest', false, ⟨htext, h.blank, .bare m', ?_⟩, rfl⟩
      intro x hx
      show (x == '=') = false
      rw [beq_eq_false_iff_ne]
      rintro rfl
      exact he hx

theorem not_stop_of_rest (h : c.next.2.rest ≠ []) : c.next.1.isStop = false := by
  cases hs : c.next.1.isStop with
  | false => rfl
  | true => exact absurd (rest_eq_nil_of_stop hs) h

theorem next_extend (h : c.next.2.rest ≠ []) :
    (c.extend more).next = (c.next.1, c.next.2.extend more) := by
  obtain ⟨blanks, hf⟩ := exists_faces (not_stop_of_rest h)
  generalize c.next.1.spelling = l at hf
  generalize c.next.2.rest = rest at hf h
  rw [(hf.extend h).next_eq, hf.next_eq]
  rfl

theorem rest_ne_nil_of_skip (h : (c.skip n).rest ≠ []) : c.rest ≠ [] := by
  induction n generalizing c with
  | zero => exact h
  | succ n ih =>
    intro hnil
    exact ih h (rest_eq_nil_of_stop (stop_iff.mpr (by simp [hnil])))

theorem skip_extend (h : (c.skip n).rest ≠ []) :
    (c.extend more).skip n = (c.skip n).extend more := by
  induction n generalizing c with
  | zero => rfl
  | succ n ih =>
    rw [skip, next_extend (rest_ne_nil_of_skip (c := c.next.2) h)]
    exact ih h

theorem take_tokens_extend (h : (c.skip n).rest ≠ []) :
    (c.extend more).tokens.take n = c.tokens.take n := by
  induction n generalizing c with
  | zero => rfl
  | succ n ih =>
    have hn : c.next.2.rest ≠ [] := rest_ne_nil_of_skip (c := c.next.2) h
    have hs : c.next.1.isStop = false := not_stop_of_rest hn
    have hs' : (c.extend more).next.1.isStop = false := by
      rw [next_extend hn]
      exact hs
    rw [tokens_of_not_stop hs, tokens_of_not_stop hs', next_extend hn, List.take_succ_cons,
      List.take_succ_cons]
    exact congrArg _ (ih h)

end Cursor

theorem Token.exists_mark_of_actsAs {t : Token} {m : Mark} {extended : Bool}
    (h : t.actsAs (.mark m extended)) : ∃ extended', t.kind = .mark m extended' := by
  have hh := head_eq_of_actsAs h
  cases hk : t.kind with
  | mark m' extended' =>
    obtain ⟨rfl, -⟩ : m' = m ∧ _ := by simpa [hk, Kind.head] using hh
    exact ⟨extended', rfl⟩
  | number | word | stray | stop => simp [hk, Kind.head] at hh

theorem Evaluation.step_accept_of_head {limit : Nat} {floor : Level} {s : State} {t t' : Token}
    {v : Int} (hk : t'.kind.head = t.kind.head) (h : step limit floor s t = .accept v) :
    step limit floor s t' = .accept v := by
  have ho : Operator.ofKind? t'.kind = Operator.ofKind? t.kind := by
    simp only [Operator.ofKind?, hk]
  cases s with
  | operand σ => exact absurd h readOperand_ne_accept
  | exponent x location σ =>
    simp only [step] at h
    split at h
    · exact absurd h readOperand_ne_accept
    · cases h
  | value w σ =>
    rcases readOperator_accept h with ⟨op, hop, hlt, hs⟩ | ⟨hop, hs⟩
    · simp [step, readOperator, ho, hop, hs, hlt]
    · simp [step, readOperator, ho, hop, unwind_eq_settle, hs, Except.map]

theorem Lookahead.expression_of_error {limit : Nat} {r r' : Lookahead} {e : Failure}
    (h : r.statement limit = (.error e, r')) : (r.expression limit).2 = r' := by
  unfold statement at h
  split at h
  · next hx =>
    rw [hx]
    split at h
    · cases h
    · split at h <;> cases h <;> rfl
  · rw [h]

theorem exists_course_at (limit : Nat) (line : Text) :
    ∃ k s, Course limit line k s ∧ ∀ e r,
      (Lookahead.ofCursor (Cursor.start 1 line)).statement limit = (.error e, r) →
        r = .ofCursor ((Cursor.start 1 line).skip k) := by
  obtain ⟨k, s, hle, hd, he, hf⟩ :=
    Lookahead.run_ofCursor limit .sum (.operand []) (Cursor.start 1 line)
  refine ⟨k, s, ⟨hle, hd, Lookahead.statement_of_ending he hf⟩, ?_⟩
  intro e r hr
  exact (Lookahead.expression_of_error hr).symm.trans hf

/-- The tokens before one that the line goes on with are taken alike, so what it does decides. -/
theorem Course.evaluate_extended {limit k : Nat} {line more : Text} {s : State}
    {x : Except Failure Int}
    (hc : Course limit line k s) (hk : ((Cursor.start 1 line).skip k).rest ≠ [])
    (hv : (step limit .sum s (tokenAt (line ++ more) k)).verdict?
      (tokenAt (line ++ more) k) = some x) :
    evaluate limit (line ++ more) = x := by
  have htake : (tokens (line ++ more)).take k = (tokens line).take k := Cursor.take_tokens_extend hk
  have hle : k ≤ (tokens (line ++ more)).length := by
    have hlen := congrArg List.length htake
    have := hc.le
    simp only [List.length_take] at hlen
    omega
  obtain ⟨k', s', hc'⟩ := exists_course limit (line ++ more)
  exact hc'.evaluate_eq hle (htake ▸ hc.driven) hv

theorem tokenAt_append {line more : Text} {k : Nat}
    (h : ((Cursor.start 1 line).skip (k + 1)).rest ≠ []) :
    tokenAt (line ++ more) k = tokenAt line k := by
  have hk : ((Cursor.start 1 line).skip k).next.2.rest ≠ [] := by rwa [← Cursor.skip_succ]
  have hk' : ((Cursor.start 1 line).skip k).rest ≠ [] := Cursor.rest_ne_nil_of_skip (n := 1) hk
  show (((Cursor.start 1 line).extend more).skip k).next.1 = ((Cursor.start 1 line).skip k).next.1
  rw [Cursor.skip_extend hk', Cursor.next_extend hk]

theorem semicolon_append {line more : Text} {k : Nat}
    (h : (tokenAt line k).actsAs (.mark .semicolon false)) :
    ((Cursor.start 1 line).skip k).rest ≠ [] ∧
      (tokenAt (line ++ more) k).actsAs (.mark .semicolon false) := by
  have hs : ((Cursor.start 1 line).skip k).next.1.isStop = false :=
    (Cursor.tokenAt_of_lt (lt_length_of_actsAs (by decide) h)).2
  obtain ⟨blanks, hf⟩ := Cursor.exists_faces hs
  have hk : ((Cursor.start 1 line).skip k).rest ≠ [] := by
    rw [hf.text_eq]
    simp [hf.wellFormed.text_ne_nil]
  obtain ⟨extended, hm⟩ := Token.exists_mark_of_actsAs h
  obtain ⟨l, rest, extended', hf', hl⟩ := @Cursor.Faces.extend_mark _ _ _ more _ _ _ hf hm
  refine ⟨hk, ?_⟩
  have ht : (tokenAt (line ++ more) k).kind = .mark .semicolon extended' := by
    show (((Cursor.start 1 line).extend more).skip k).next.1.kind = _
    rw [Cursor.skip_extend hk, hf'.next_eq]
    exact hl
  simp [Token.actsAs, ht, Kind.head, Mark.extendsToComparison]

/-- Writing a line on changes no value, and no failure that was found with text left to read. -/
theorem evaluate_append (limit : Nat) (line more : Text) :
    (∀ v, evaluate limit line = .ok v → evaluate limit (line ++ more) = .ok v) ∧
      ∀ e r, (Lookahead.ofCursor (Cursor.start 1 line)).statement limit = (.error e, r) →
        r.cursor.rest ≠ [] → evaluate limit (line ++ more) = .error e := by
  obtain ⟨k, s, hc, hat⟩ := exists_course_at limit line
  have hv := hc.ended
  constructor
  · intro v h
    rw [h] at hv
    cases hm : step limit .sum s (tokenAt line k) with
    | shift s' => simp [hm, Move.verdict?] at hv
    | reject e => simp [hm, Move.verdict?] at hv
    | accept w =>
      have hw : conclude w (tokenAt line k) = .ok v := by simpa [hm, Move.verdict?] using hv
      -- the value was accepted because of the `;`, which is at most written `;=` now
      have hsemi : (tokenAt line k).actsAs (.mark .semicolon false) ∧ w = v := by
        unfold conclude at hw
        split at hw
        · next ht => exact ⟨ht, Except.ok.inj hw⟩
        · split at hw <;> cases hw
      obtain ⟨hrest, ht⟩ := @semicolon_append line more k hsemi.1
      apply hc.evaluate_extended hrest
      have hhead : (tokenAt (line ++ more) k).kind.head = (tokenAt line k).kind.head := by
        rw [Token.head_eq_of_actsAs ht, Token.head_eq_of_actsAs hsemi.1]
      rw [step_accept_of_head hhead hm, hsemi.2]
      simp [Move.verdict?, conclude, ht]
  · intro e r hr hrest
    obtain rfl := hat e r hr
    have hk : ((Cursor.start 1 line).skip (k + 1)).rest ≠ [] := by rwa [Cursor.skip_succ]
    have he : evaluate limit line = .error e := congrArg Prod.fst hr
    apply hc.evaluate_extended (Cursor.rest_ne_nil_of_skip (n := 1) hrest)
    rw [tokenAt_append hk, hv, he]

/-- The `;` becomes `;=` in the first line; in the second one the `2` grows after the failure. -/
theorem evaluate_append_fused :
    evaluate 1 "2^3;".toList = .ok 8 ∧ evaluate 1 ("2^3;".toList ++ "=4;".toList) = .ok 8 ∧
      evaluate 1 "1+*2".toList = .error ⟨.expected .number, ⟨1, 3, 2⟩⟩ ∧
      evaluate 1 ("1+*2".toList ++ "5;".toList) = .error ⟨.expected .number, ⟨1, 3, 2⟩⟩ := by
  have hv : evaluate 1 "2^3;".toList = .ok 8 := by decide +kernel
  have he : evaluate 1 "1+*2".toList = .error ⟨.expected .number, ⟨1, 3, 2⟩⟩ := by decide +kernel
  have hr : ((Lookahead.ofCursor (Cursor.start 1 "1+*2".toList)).statement 1).2.cursor.rest ≠
      [] := by
    decide +kernel
  exact ⟨hv, (evaluate_append 1 _ _).1 8 hv, he, (evaluate_append 1 _ _).2 _ _ (Prod.ext he rfl) hr⟩

end Reckon
