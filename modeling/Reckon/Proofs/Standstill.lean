import Reckon.Proofs.Culprits
import Reckon.Proofs.History
import Reckon.Proofs.Nesting
import Reckon.Proofs.Places

set_option autoImplicit false

namespace Reckon

open Evaluation

namespace Cursor

variable {c : Cursor}

theorem offset_tokenAt_lt {j k : Nat} (hj : j < c.tokens.length) (h : j < k) :
    (c.tokenAt j).location.offset < (c.tokenAt k).location.offset := by
  have hmono := c.offset_tokenAt_mono h
  have hnext := (c.skip (j + 1)).offset_le_next.1
  have hstop : (c.skip j).next.1.isStop = false := (tokenAt_of_lt hj).2
  obtain ⟨blanks, hf⟩ := exists_faces hstop
  have hpos : 0 < (c.skip j).next.1.lexeme.length :=
    List.length_pos_iff.mpr hf.wellFormed.text_ne_nil
  have hbytes := length_le_byteLength (c.skip j).next.1.lexeme
  obtain ⟨-, -, -, hhere⟩ := (c.skip j).exists_passed_next
  rw [c.skip_succ j, hhere, Location.offset_after, ← c.skip_succ j] at hnext
  simp only [tokenAt, Nat.succ_eq_add_one] at hmono ⊢
  omega

theorem eq_of_location_eq {t u : Token} (ht : t ∈ c.tokens) (hu : u ∈ c.tokens)
    (h : t.location = u.location) : t = u := by
  obtain ⟨i, hi, rfl⟩ := exists_tokenAt ht
  obtain ⟨j, hj, rfl⟩ := exists_tokenAt hu
  rcases Nat.lt_trichotomy i j with hlt | rfl | hlt
  · have := offset_tokenAt_lt hi hlt
    rw [h] at this
    omega
  · rfl
  · have := offset_tokenAt_lt hj hlt
    rw [h] at this
    omega

theorem offset_lt_of_mem_take {t : Token} {n : Nat} (h : t ∈ c.tokens.take n) :
    t.location.offset < (c.tokenAt n).location.offset := by
  obtain ⟨i, hi⟩ := List.mem_iff_getElem?.mp h
  obtain ⟨hin, hi⟩ : i < n ∧ c.tokens[i]? = some t := by simpa [List.getElem?_take] using hi
  obtain ⟨hilen, rfl⟩ := of_getElem?_tokens hi
  exact offset_tokenAt_lt hilen hin

theorem tokenAt_mem {k : Nat} (h : (c.tokenAt k).isStop = false) : c.tokenAt k ∈ c.tokens := by
  have hk : k < c.tokens.length := by
    by_contra hle
    rw [tokenAt_of_le (Nat.le_of_not_lt hle)] at h
    cases h
  exact List.mem_of_getElem? (tokenAt_of_lt hk).1

theorem mem_of_mem_skip {t : Token} {m : Nat} (h : t ∈ (c.skip m).tokens) : t ∈ c.tokens := by
  rw [tokens_skip] at h
  exact List.mem_of_mem_drop h

end Cursor

namespace Evaluation

variable {limit : Nat} {floor : Level} {σ τ : Stack} {ts : List Token} {t : Token} {s : State}
  {e : Failure} {v : Int}

/-- Why a token is refused after some others: it begins no operand, wherever it stands, or
it nests too deep, or something else should end the expression, or an operator before it
has no value. -/
inductive Refusal (limit : Nat) (ts : List Token) (t : Token) : Failure → Prop where
  | operand {cause : Cause} : readOperand limit [] t = .reject ⟨cause, t.location⟩ →
      Refusal limit ts t ⟨cause, t.location⟩
  | tooDeep : Refusal limit ts t ⟨.nestingTooDeep limit, t.location⟩
  | unclosed : Refusal limit ts t ⟨.expected .closing, t.location⟩
  | unended : Refusal limit ts t ⟨.expected .semicolon, t.location⟩
  | operator {f : Fault} (c : Culprit ts f) : Refusal limit ts t ⟨.fault f, c.sign.location⟩

theorem reject_of_not_opening (ho : ¬ t.actsAs (.mark .opening false))
    (h : readOperand limit σ t = .reject e) : readOperand limit τ t = .reject e := by
  unfold readOperand at h ⊢
  split at h
  · next hk => exact absurd (actsAs_of_head rfl hk) ho
  · exact h
  · split at h
    · cases h
    · exact h
  · exact h

theorem Refusal.of_readOperand (h : readOperand limit σ t = .reject e) : Refusal limit ts t e := by
  have hother : ∀ k : Kind, k ≠ .mark .opening false → t.actsAs k →
      ¬ t.actsAs (.mark .opening false) := by
    intro k hk ht ho
    exact hk ((Token.head_eq_of_actsAs ht).symm.trans (Token.head_eq_of_actsAs ho))
  rcases readOperand_reject h with ⟨rfl, -, -⟩ | ⟨rfl, ht⟩ | ⟨g, rfl, ht⟩ | ⟨rfl, ho, -, -⟩
  · exact .tooDeep
  · exact .operand (reject_of_not_opening (hother _ (by decide) ht) h)
  · exact .operand (reject_of_not_opening (hother _ (by decide) ht) h)
  · exact .operand (reject_of_not_opening ho h)

theorem Spells.refusal {us vs : List Token} {a : Tree} (hσ : Spells floor σ us)
    (ha : Derives .operand vs a) (hv : a.value = .ok v)
    (h : Evaluation.readOperator floor v σ t = .reject e) :
    Refusal limit (us ++ vs) t e := by
  obtain ⟨cause, location⟩ := e
  rcases readOperator_reject h with ⟨f, hf⟩ | ⟨he, -⟩
  · dsimp only at hf
    subst hf
    have hafter : ∀ u ∈ ([] : List Token).head?, u = t := by simp
    have hc := hσ.culprit_of_readOperator ha hv hafter h
    rw [List.append_nil] at hc
    obtain ⟨c, rfl, -⟩ := hc
    exact .operator c
  · cases he
    exact .unclosed

theorem State.SpelledBy.refusal (hs : s.SpelledBy floor ts)
    (h : Evaluation.step limit floor s t = .reject e) : Refusal limit ts t e := by
  cases s with
  | operand σ => exact .of_readOperand h
  | exponent x place σ =>
    simp only [Evaluation.step] at h
    split at h
    · exact .of_readOperand h
    · rw [← Move.reject.inj h]
      exact .tooDeep
  | value v σ =>
    obtain ⟨us, vs, a, rfl, hσ, ha, hv⟩ := hs
    exact hσ.refusal ha hv h

theorem Refusal.of_conclude (h : conclude v t = .error e) : Refusal limit ts t e := by
  unfold conclude at h
  split at h
  · cases h
  · split at h
    · next hc =>
      obtain rfl := Except.error.inj h
      have hm : step limit .sum (.operand []) t = .reject ⟨.expected .opening, t.location⟩ :=
        step_unopened hc
      exact .operand hm
    · obtain rfl := Except.error.inj h
      exact .unended

theorem Refusal.cases (h : Refusal limit ts t e) :
    (∃ f, ∃ c : Culprit ts f, e = ⟨.fault f, c.sign.location⟩) ∨
    (e.location = t.location ∧ (∀ f, e.cause = .fault f → t.actsAs .number ∧ f = .overflow) ∧
      (e.cause = .expected .opening ∨ e.cause = .expected .number ∨ (∃ f, e.cause = .fault f) →
        readOperand limit [] t = .reject e)) := by
  cases h with
  | operator c => exact .inl ⟨_, c, rfl⟩
  | operand hm =>
    refine .inr ⟨rfl, ?_, fun _ => hm⟩
    rintro f rfl
    obtain ⟨ht, -, hf, -⟩ := readOperand_fault hm
    exact ⟨ht, hf⟩
  | tooDeep | unclosed | unended => exact .inr ⟨rfl, by simp, by simp⟩

end Evaluation

theorem Call.refusal {limit : Nat} {call : Call} {c : Cursor} {e : Failure} {r : Lookahead}
    (h : call.evaluate limit (.ofCursor c) = (.error e, r)) :
    ∃ n, n ≤ c.tokens.length ∧ r = .ofCursor (c.skip n) ∧
      Refusal limit (c.tokens.take n) (c.tokenAt n) e := by
  obtain ⟨n, s, hle, hd, he, hn⟩ := Lookahead.run_ofCursor limit .sum (.operand []) c
  have hs := spelledBy_of_drive hd
  refine ⟨n, hle, ?_⟩
  cases call with
  | expression =>
    have hx : Lookahead.run limit .sum (.operand []) (.ofCursor c) = (.error e, r) := h
    rw [hx] at he hn
    cases hm : step limit .sum s (c.tokenAt n) with
    | shift s' => simp [hm, Move.ending?] at he
    | accept v => simp [hm, Move.ending?] at he
    | reject f =>
      obtain rfl : f = e := by simpa [hm, Move.ending?] using he
      exact ⟨hn, hs.refusal hm⟩
  | statement =>
    have hx : (Lookahead.ofCursor c).statement limit = (.error e, r) := h
    have hv := Lookahead.statement_of_ending he hn
    refine ⟨(Lookahead.expression_of_error hx).symm.trans hn, ?_⟩
    rw [hx] at hv
    cases hm : step limit .sum s (c.tokenAt n) with
    | shift s' => simp [hm, Move.verdict?] at hv
    | accept v =>
      rw [hm] at hv
      exact .of_conclude (Option.some.inj hv)
    | reject f =>
      obtain rfl : f = e := by simpa [hm, Move.verdict?] using hv
      exact hs.refusal hm

/-- The readers that calls lead to, from any place of a text on. -/
inductive Lookahead.Reached (limit firstLine : Nat) (source : Text) : Lookahead → Prop where
  | fresh (k : Nat) : Reached limit firstLine source
      (ofCursor ((Cursor.start firstLine source).skip k))
  | call {r : Lookahead} (call : Call) : Reached limit firstLine source r →
      Reached limit firstLine source (call.evaluate limit r).2

theorem Lookahead.Reached.exists_skip {limit firstLine : Nat} {source : Text} {r : Lookahead}
    (h : r.Reached limit firstLine source) :
    ∃ k, r = ofCursor ((Cursor.start firstLine source).skip k) := by
  induction h with
  | fresh k => exact ⟨k, rfl⟩
  | @call r call hr ih =>
    obtain ⟨k, rfl⟩ := ih
    obtain ⟨x, n, hx⟩ := call.evaluate_ofCursor limit ((Cursor.start firstLine source).skip k)
    exact ⟨k + n, by rw [hx, Cursor.skip_skip]⟩

/-- The overflow of a number of the text. -/
def Failure.OfNumber (c : Cursor) (e : Failure) : Prop :=
  e.cause = .fault .overflow ∧ ∃ t ∈ c.tokens, t.kind = .number ∧ t.location = e.location

def Failure.OfOperator (c : Cursor) (e : Failure) : Prop :=
  (∃ f, e.cause = .fault f) ∧ ∃ t ∈ c.tokens, t.isOperator ∧ t.location = e.location

theorem Failure.OfNumber.not_ofOperator {c : Cursor} {e : Failure} (h : e.OfNumber c) :
    ¬ e.OfOperator c := by
  obtain ⟨-, t, ht, hk, hl⟩ := h
  rintro ⟨-, u, hu, ho, hl'⟩
  obtain rfl := Cursor.eq_of_location_eq ht hu (hl.trans hl'.symm)
  simp [Token.isOperator, hk, Operator.ofKind?, Kind.head] at ho

namespace Lookahead

variable {limit : Nat} {r : Lookahead} {e : Failure}

theorem evaluate_of_reject (h : readOperand limit [] r.current = .reject e) (call : Call) :
    call.evaluate limit r = (.error e, r) := by
  have hm : step limit .sum (.operand []) r.current = .reject e := h
  have hx : r.expression limit = (.error e, r) := run_of_reject hm
  cases call with
  | expression => exact hx
  | statement => simp [Call.evaluate, statement, hx]

theorem session_of_reject (h : readOperand limit [] r.current = .reject e) (calls : List Call) :
    (Reader.fresh limit r).session calls =
      calls.map (fun _ => (.error e, Reader.fresh limit r)) := by
  induction calls with
  | nil => rfl
  | cons call calls ih =>
    rw [Reader.session, Reader.answer_fresh, evaluate_of_reject h, ih, List.map_cons]

/-- After a failing call the reader stands on the token that the failure is about; where that is
an operator, it stands farther on. Before a token that is no operand, or a number out of range, it
stays: every further call fails in the same way. -/
theorem failed_call {firstLine : Nat} {source : Text} {r' : Lookahead} {call : Call}
    (hr : r.Reached limit firstLine source) (h : call.evaluate limit r = (.error e, r')) :
    (∃ k, r' = ofCursor ((Cursor.start firstLine source).skip k)) ∧
    (∀ f, e.cause = .fault f →
      e.OfNumber (Cursor.start firstLine source) ∨ e.OfOperator (Cursor.start firstLine source)) ∧
    ((∀ f, e.cause ≠ .fault f) ∨ e.OfNumber (Cursor.start firstLine source) →
      r'.current.location = e.location) ∧
    (e.OfOperator (Cursor.start firstLine source) →
      e.location.offset < r'.current.location.offset) ∧
    (e.cause = .expected .opening ∨ e.cause = .expected .number ∨
        e.OfNumber (Cursor.start firstLine source) →
      (∀ call' : Call, call'.evaluate limit r' = (.error e, r')) ∧
      ∀ calls, (Reader.fresh limit r').session calls =
        calls.map (fun _ => (.error e, Reader.fresh limit r'))) := by
  have hreached := Reached.call call hr
  rw [h] at hreached
  refine ⟨hreached.exists_skip, ?_⟩
  clear hreached
  obtain ⟨m, rfl⟩ := hr.exists_skip
  clear hr
  generalize Cursor.start firstLine source = c at h ⊢
  obtain ⟨n, -, rfl, href⟩ := Call.refusal h
  have hcurrent : (ofCursor ((c.skip m).skip n)).current = (c.skip m).tokenAt n := rfl
  rw [hcurrent]
  -- Only the fault of an operator is about a token that has been taken.
  rcases href.cases with ⟨f, k, rfl⟩ | ⟨hl, hnumber, hsame⟩
  · have hop : Failure.OfOperator c ⟨.fault f, k.sign.location⟩ :=
      ⟨⟨f, rfl⟩, k.sign, Cursor.mem_of_mem_skip (List.mem_of_mem_take k.sign_mem),
        Token.isOperator_of_actsAs k.sign_actsAs, rfl⟩
    refine ⟨fun _ _ => .inr hop, ?_, fun _ => Cursor.offset_lt_of_mem_take k.sign_mem, ?_⟩
    · rintro (hf | hn)
      · exact absurd rfl (hf f)
      · exact absurd hop hn.not_ofOperator
    · rintro (hx | hx | hn)
      · cases hx
      · cases hx
      · exact absurd hop hn.not_ofOperator
  · have hof : ∀ f, e.cause = .fault f → e.OfNumber c := by
      intro f hf
      obtain ⟨ht, rfl⟩ := hnumber f hf
      have hk := Kind.eq_number_of_head (Token.head_eq_of_actsAs ht)
      have hs : ((c.skip m).tokenAt n).isStop = false := by simp [Token.isStop, hk]
      exact ⟨hf, _, Cursor.mem_of_mem_skip (Cursor.tokenAt_mem hs), hk, hl.symm⟩
    refine ⟨fun f hf => .inl (hof f hf), fun _ => hl.symm, ?_, ?_⟩
    · intro hop
      obtain ⟨f, hf⟩ := hop.1
      exact absurd hop (hof f hf).not_ofOperator
    · intro hx
      have hm := hsame (hx.imp_right (Or.imp_right fun hn => ⟨_, hn.1⟩))
      exact ⟨evaluate_of_reject hm, session_of_reject hm⟩

/-- The exponent of the second statement is out of range. -/
theorem failed_call_exponent :
    ∃ r r' : Lookahead, r.Reached 1 1 "3;\n2^9223372036854775808;".toList ∧
      Call.statement.evaluate 1 r = (.error ⟨.fault .overflow, ⟨2, 3, 5⟩⟩, r') ∧
      r'.current.location = ⟨2, 3, 5⟩ ∧
      ∀ call' : Call, call'.evaluate 1 r' = (.error ⟨.fault .overflow, ⟨2, 3, 5⟩⟩, r') := by
  have hr : Reached 1 1 "3;\n2^9223372036854775808;".toList _ := .call .statement (.fresh 0)
  have hx : ∃ r', Call.statement.evaluate 1 (Call.statement.evaluate 1 (ofCursor
      ((Cursor.start 1 "3;\n2^9223372036854775808;".toList).skip 0))).2 =
        (.error ⟨.fault .overflow, ⟨2, 3, 5⟩⟩, r') := ⟨_, Prod.ext (by decide +kernel) rfl⟩
  have hn : Failure.OfNumber (Cursor.start 1 "3;\n2^9223372036854775808;".toList)
      ⟨.fault .overflow, ⟨2, 3, 5⟩⟩ :=
    ⟨rfl, ⟨.number, "9223372036854775808".toList, ⟨2, 3, 5⟩⟩, by decide +kernel, rfl, rfl⟩
  obtain ⟨r', h⟩ := hx
  obtain ⟨-, -, hat, -, hstay⟩ := failed_call hr h
  exact ⟨_, r', hr, h, hat (.inr hn), (hstay (.inr (.inr hn))).1⟩

end Lookahead

end Reckon
