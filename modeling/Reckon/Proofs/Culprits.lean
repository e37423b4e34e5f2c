import Reckon.Proofs.Extension
import Reckon.Proofs.Lockstep
import Reckon.Proofs.Mismatch

set_option autoImplicit false

namespace Reckon

open Evaluation

def Tree.exact : Tree → Option Int
  | number ds _ => some (Decimal.value ds)
  | group _ e => e.exact
  | binary op _ a b => do
    let x ← a.exact
    let y ← b.exact
    op.exact x y

/-- Why an operator has no value for two operands. -/
inductive Operator.Faults : Operator → Int → Int → Fault → Prop where
  | quotient (a : Int) : Faults .divide a 0 .divisionByZero
  | power {b : Int} : b < 0 → Faults .power 0 b .divisionByZero
  | overflow {op : Operator} {a b n : Int} :
      op.exact a b = some n → ¬ Arithmetic.InRange n → Faults op a b .overflow

/-- An operator among some tokens that has no value. Its operands are the longest ones that stand
right before and right after it. -/
structure Culprit (ts : List Token) (f : Fault) where
  before : List Token
  left : List Token
  sign : Token
  right : List Token
  after : List Token
  tokens_eq : before ++ left ++ sign :: right ++ after = ts
  op : Operator
  sign_actsAs : sign.actsAs op.kind
  leftTree : Tree
  left_derives : Derives op.leftLevel left leftTree
  left_longest :
    ∀ us e, us <:+ before ++ left → Derives op.leftLevel us e → us.length ≤ left.length
  rightTree : Tree
  right_derives : Derives op.rightLevel right rightTree
  right_longest :
    ∀ us e, us <+: right ++ after → Derives op.rightLevel us e → us.length ≤ right.length
  leftValue : Int
  left_exact : leftTree.exact = some leftValue
  left_inRange : Arithmetic.InRange leftValue
  rightValue : Int
  right_exact : rightTree.exact = some rightValue
  right_inRange : Arithmetic.InRange rightValue
  faults : op.Faults leftValue rightValue f

def Culprit.taken {ts : List Token} {f : Fault} (c : Culprit ts f) : List Token :=
  c.before ++ c.left ++ c.sign :: c.right

theorem Culprit.sign_mem {ts : List Token} {f : Fault} (c : Culprit ts f) : c.sign ∈ ts := by
  obtain ⟨before, left, sign, right, after, rfl, _⟩ := c
  simp

section Values

theorem of_located_bounded {location : Location} {n : Option Int} {v : Int}
    (h : located location (bounded n) = .ok v) : n = some v ∧ Arithmetic.InRange v := by
  cases n with
  | none => simp [bounded, located, Except.mapError] at h
  | some n =>
    by_cases hr : Arithmetic.InRange n
    · obtain rfl : n = v := by simpa [bounded, located, Except.mapError, hr] using h
      exact ⟨rfl, hr⟩
    · simp [bounded, located, Except.mapError, hr] at h

theorem Tree.exact_of_value {e : Tree} {v : Int} (h : e.value = .ok v) :
    e.exact = some v ∧ Arithmetic.InRange v := by
  induction e generalizing v with
  | number ds location => exact of_located_bounded h
  | group location e ih => exact ih h
  | binary op location a b iha ihb =>
    rw [value] at h
    obtain ⟨x, ha, h⟩ := bind_eq_ok h
    obtain ⟨y, hb, h⟩ := bind_eq_ok h
    obtain ⟨hv, hr⟩ := of_located_bounded h
    exact ⟨by simp [exact, (iha ha).1, (ihb hb).1, hv], hr⟩

variable {op : Operator} {a b : Int} {f : Fault}

theorem Operator.faults_of_apply (h : op.apply a b = .error f) : op.Faults a b f := by
  rw [apply_eq_exact] at h
  cases hx : op.exact a b with
  | none =>
    obtain rfl : Fault.divisionByZero = f := by simpa [hx, bounded] using h
    cases op with
    | add | subtract | multiply => simp [exact] at hx
    | compare c => simp [exact_compare] at hx
    | divide =>
      obtain rfl : b = 0 := by simpa [exact] using hx
      exact .quotient a
    | power =>
      obtain ⟨rfl, hb⟩ : a = 0 ∧ b < 0 := by simpa [exact] using hx
      exact .power hb
  | some n =>
    have hr : ¬ Arithmetic.InRange n := by
      intro hr
      simp [hx, bounded, hr] at h
    obtain rfl : Fault.overflow = f := by simpa [hx, bounded, hr] using h
    exact .overflow hx hr

theorem Operator.Faults.mem (h : op.Faults a b f) :
    op ∈ [Operator.add, .subtract, .multiply, .divide, .power] := by
  cases h with
  | quotient | power => decide
  | @overflow op a b n hx hr =>
    cases op with
    | compare c =>
      obtain rfl : (if c.holds a b then 1 else 0) = n := by simpa [exact_compare] using hx
      exact absurd (inRange_of_natAbs_le_one (by split <;> decide)) hr
    | _ => decide

theorem Evaluation.faults_of_compute {location place : Location}
    (h : compute op location a b = .error ⟨.fault f, place⟩) :
    op.Faults a b f ∧ place = location := by
  cases hx : op.apply a b with
  | ok v => simp [compute, hx, Except.mapError] at h
  | error g =>
    obtain ⟨rfl, rfl⟩ : g = f ∧ location = place := by simpa [compute, hx, Except.mapError] using h
    exact ⟨Operator.faults_of_apply hx, rfl⟩

end Values

section Operands

variable {l m : Level} {ts us vs x y : List Token} {t : Token} {e e' : Tree} {op : Operator}

theorem awaitsOperand_append (h : vs ≠ []) : awaitsOperand (us ++ vs) = awaitsOperand vs := by
  obtain ⟨ws, t, rfl⟩ := List.eq_nil_or_concat vs |>.resolve_left h
  simp [awaitsOperand, ← List.append_assoc]

theorem Derives.continues (h : Derives l ts e) (hs : ts = x ++ t :: y)
    (hx : awaitsOperand x = false) :
    t.isOperator ∨ t.actsAs (.mark .closing false) := by
  have hne : x ≠ [] := by
    rintro rfl
    cases hx
  induction h generalizing x y with
  | number hn =>
    rcases List.append_eq_singleton_iff.mp hs.symm with ⟨rfl, -⟩ | ⟨-, hy⟩
    · exact absurd rfl hne
    · cases hy
  | @group l o c ts e ho he hc ih =>
    obtain ⟨o', x, rfl⟩ := List.exists_cons_of_ne_nil hne
    simp only [List.cons_append, List.cons.injEq] at hs
    obtain ⟨rfl, hs⟩ := hs
    have hx' : x ≠ [] := by
      rintro rfl
      simp [awaitsOperand, ho] at hx
    rw [← List.singleton_append, awaitsOperand_append hx'] at hx
    rcases List.eq_nil_or_concat y with rfl | ⟨y, d, rfl⟩
    · obtain rfl : c = t := by simpa using (List.append_inj' hs rfl).2
      exact .inr hc
    · rw [List.concat_eq_append, ← List.cons_append, ← List.append_assoc] at hs
      exact ih (List.append_inj_left' hs rfl) hx hx'
  | @binary l op o ts us a b hl ha ho hb iha ihb =>
    rcases split_cases hs with ⟨-, rfl, -⟩ | ⟨m, rfl, hm⟩ | ⟨m, rfl, -⟩
    · exact .inl (Token.isOperator_of_actsAs ho)
    · by_cases hm' : m = []
      · subst hm'
        simp [awaitsOperand, Token.isOperator_of_actsAs ho] at hx
      · rw [List.append_cons, awaitsOperand_append hm'] at hx
        exact ihb hm hx hm'
    · exact iha rfl hx hne

theorem Derives.exists_operator (h : Derives l (us ++ t :: vs) e) (hu : Derives m us e') :
    ∃ op : Operator, t.actsAs op.kind ∧ l.rank ≤ op.level.rank := by
  have hx : awaitsOperand ([] ++ us) = false := hu.not_awaitsOperand
  rcases h.continues rfl hx with ht | ht
  · obtain ⟨op, hop⟩ := Option.isSome_iff_exists.mp ht
    have hop := Token.actsAs_kind_iff.mpr hop
    exact ⟨op, hop, h.rank_le rfl hu.balance_eq_zero hop⟩
  · have hn := h.balance_nonneg (x := us ++ [t]) ⟨vs, by simp⟩
    rw [balance_append, hu.balance_eq_zero, balance_closing ht] at hn
    omega

theorem Ends.closes (h : Ends op.level t) : Closes op.rightLevel t := by
  intro op' ht
  have hle := h op' ht
  revert hle
  cases op <;> cases op' <;> simp [Operator.rightLevel, Operator.leftLevel,
    Operator.level, Level.rank]

theorem Derives.right_longest (hu : Derives m us e') (hc : ∀ t ∈ vs.head?, Closes l t)
    (h : Derives l ts e) (hp : ts <+: us ++ vs) : ts.length ≤ us.length := by
  by_contra hlt
  obtain ⟨w, rfl⟩ := List.prefix_of_prefix_length_le (List.prefix_append us vs) hp (by omega)
  obtain ⟨t, w, rfl⟩ := List.exists_cons_of_ne_nil (l := w) (by rintro rfl; simp at hlt)
  obtain ⟨op, ht, hle⟩ := h.exists_operator hu
  obtain ⟨z, hz⟩ := hp
  have hhead : vs.head? = some t := by
    rw [List.append_assoc, List.append_cancel_left_eq] at hz
    rw [← hz]
    rfl
  have hlt := hc t hhead op ht
  omega

end Operands

namespace Evaluation

variable {limit : Nat} {floor k l : Level} {σ : Stack} {ts us vs after : List Token} {t : Token}
  {e : Tree} {v : Int} {s : State} {f : Fault} {location : Location} {op : Operator}

theorem Spells.left_longest (hσ : Spells floor σ ts) (hs : (slot floor σ).rank ≤ op.level.rank)
    (hu : Derives op.leftLevel us e) {ws : List Token} {e' : Tree} (hw : ws <:+ ts ++ us)
    (h : Derives op.leftLevel ws e') : ws.length ≤ us.length := by
  by_contra hlt
  obtain ⟨m, rfl⟩ := List.suffix_of_suffix_length_le (List.suffix_append ts us) hw (by omega)
  have hm : m <:+ ts := by
    obtain ⟨z, hz⟩ := hw
    rw [← List.append_assoc] at hz
    exact ⟨z, List.append_cancel_right hz⟩
  have hne : m ≠ [] := by
    rintro rfl
    simp at hlt
  have hzero := h.balance_eq_zero
  obtain ⟨m, o, rfl⟩ := List.eq_nil_or_concat m |>.resolve_left hne
  rw [List.concat_eq_append] at h hm hzero
  have hpre := h.balance_nonneg (x := m) ⟨[o] ++ us, by simp⟩
  rw [balance_append, balance_append, hu.balance_eq_zero] at hzero
  obtain ⟨z, hz⟩ := hm
  rw [← List.append_assoc] at hz
  -- The surplus ends with the token on top of the stack: a `(` has no partner in it, and a waiting
  -- operator binds too loosely.
  cases hσ with
  | nil => simp at hz
  | @group σ ts o' hσ ho =>
    obtain rfl : o = o' := by simpa using (List.append_inj' hz rfl).2
    rw [balance_opening ho] at hzero
    omega
  | @pending σ ts us' o' op' a x hσ hl ha hx ho =>
    obtain rfl : o = o' := by simpa using (List.append_inj' hz rfl).2
    rw [balance_operator ho] at hzero
    have hle := h.rank_le (x := m) (y := us) (by simp) (by omega) ho
    revert hle hs
    cases op <;> cases op' <;>
      simp [slot, Operator.leftLevel, Operator.rightLevel, Operator.level, Level.rank]

/-- A waiting operator that cannot be computed is a culprit, when what comes next ends the right
operands of all operators that are computed. -/
theorem Spells.culprit (hσ : Spells floor σ us) (he : Derives l vs e)
    (hs : (slot floor σ).rank ≤ l.rank) (hv : e.value = .ok v)
    (hk : ∀ op : Operator, k.rank ≤ op.level.rank → ∀ t ∈ after.head?, Closes op.rightLevel t)
    (h : Evaluation.settle k v σ = .error ⟨.fault f, location⟩) :
    ∃ c : Culprit (us ++ vs ++ after) f, c.sign.location = location ∧ c.taken = us ++ vs := by
  induction hσ generalizing l vs e v with
  | nil => cases h
  | group hσ ht ih => cases h
  | @pending σ ts us t op a x hσ hl ha hx ht ih =>
    rw [Evaluation.settle] at h
    split at h
    · next hle =>
      -- The operator on top is computed: with a value it is the right operand of the one below it.
      have hb : Derives op.rightLevel vs e := he.mono hs
      cases hc : compute op t.location x v with
      | ok w =>
        rw [hc] at h
        have hb' := Derives.binary (Nat.le_refl _) ha ht hb
        have hc' := ih hb' hl (compute_eq_value hx hv hc) h
        have heq : ts ++ (us ++ t :: vs) = ts ++ us ++ [t] ++ vs := by simp
        rwa [heq] at hc'
      | error g =>
        rw [hc] at h
        obtain rfl := Except.error.inj h
        obtain ⟨hf, rfl⟩ := faults_of_compute hc
        obtain ⟨hax, hxr⟩ := Tree.exact_of_value hx
        obtain ⟨hev, hvr⟩ := Tree.exact_of_value hv
        refine ⟨⟨ts, us, t, vs, after, by simp, op, ht, a, ha, ?_, e, hb, ?_, x, hax, hxr, v,
          hev, hvr, hf⟩, rfl, by simp [Culprit.taken]⟩
        · exact fun ws e' hw h' => hσ.left_longest hl ha hw h'
        · exact fun ws e' hw h' => hb.right_longest (hk op hle) h' hw
    · cases h

theorem readOperand_fault (h : readOperand limit σ t = .reject ⟨.fault f, location⟩) :
    t.actsAs .number ∧ Arithmetic.greatest < Decimal.value t.lexeme ∧ f = .overflow ∧
      location = t.location := by
  unfold readOperand at h
  split at h
  · split at h <;> simp at h
  · simp at h
  · next hk =>
    have ht : t.actsAs .number := by simp [Token.actsAs, hk]
    split at h
    · cases h
    · next g hg =>
      obtain ⟨rfl, rfl⟩ : g = f ∧ t.location = location := by simpa using h
      unfold Arithmetic.checked at hg
      split at hg
      · cases hg
      · next hr =>
        obtain rfl := Except.error.inj hg
        have hlt : Arithmetic.greatest < Decimal.value t.lexeme := by
          simp only [Arithmetic.InRange, Arithmetic.least, Arithmetic.greatest] at hr ⊢
          omega
        exact ⟨ht, hlt, rfl, rfl⟩
  · simp at h

theorem settle_of_readOperator_fault (h : readOperator floor v σ t = .reject ⟨.fault f, location⟩) :
    ∃ k : Level, settle k v σ = .error ⟨.fault f, location⟩ ∧
      ∀ op : Operator, k.rank ≤ op.level.rank → Ends op.level t := by
  unfold readOperator at h
  split at h
  · next op ho =>
    split at h
    · next g hs =>
      obtain rfl := Move.reject.inj h
      refine ⟨op.leftReach, hs, ?_⟩
      intro op' hle
      rw [op.leftReach_eq_leftLevel] at hle
      exact (Ends.of_operator (Token.actsAs_kind_iff.mpr ho)).mono hle
    · split at h <;> cases h
  · next ho =>
    have hends : ∀ op : Operator, Ends op.level t := by
      intro op op' ht
      rw [Token.actsAs_kind_iff.mp ht] at ho
      cases ho
    split at h
    · next g hu =>
      obtain rfl := Move.reject.inj h
      exact ⟨.sum, settle_of_unwind_error hu, fun op _ => hends op⟩
    · cases h
    · split at h <;> simp at h

theorem Spells.culprit_of_readOperator (hσ : Spells floor σ us) (he : Derives .operand vs e)
    (hv : e.value = .ok v) (hafter : ∀ u ∈ after.head?, u = t)
    (h : Evaluation.readOperator floor v σ t = .reject ⟨.fault f, location⟩) :
    ∃ c : Culprit (us ++ vs ++ after) f, c.sign.location = location ∧ c.taken = us ++ vs := by
  obtain ⟨k, hk, hends⟩ := settle_of_readOperator_fault h
  apply hσ.culprit he (Level.rank_le_operand _) hv _ hk
  intro op hle u hu
  rw [hafter u hu]
  exact (hends op hle).closes

theorem State.SpelledBy.culprit (hs : s.SpelledBy floor ts) (hafter : ∀ u ∈ after.head?, u = t)
    (h : Evaluation.step limit floor s t = .reject ⟨.fault f, location⟩) :
    (t.actsAs .number ∧ Arithmetic.greatest < Decimal.value t.lexeme ∧ f = .overflow ∧
      location = t.location) ∨
    ∃ c : Culprit (ts ++ after) f, c.sign.location = location ∧ c.taken = ts := by
  cases s with
  | operand σ => exact .inl (readOperand_fault h)
  | exponent x place σ =>
    simp only [Evaluation.step] at h
    split at h
    · exact .inl (readOperand_fault h)
    · simp at h
  | value v σ =>
    obtain ⟨us, vs, e, rfl, hσ, he, hv⟩ := hs
    exact .inr (hσ.culprit_of_readOperator he hv hafter h)

end Evaluation

theorem fault_of_verdict {m : Move} {t : Token} {f : Fault} {location : Location}
    (h : m.verdict? t = some (.error ⟨.fault f, location⟩)) : m = .reject ⟨.fault f, location⟩ := by
  cases m with
  | shift s => cases h
  | reject e => simpa [Move.verdict?] using h
  | accept v =>
    simp only [Move.verdict?, conclude, Option.some.injEq] at h
    split at h
    · cases h
    · split at h <;> simp at h

/-- A fault is found at a number of the line that is out of range, or at an operator without a
value; then the reader stands on the first token after the right operand. -/
theorem evaluate_fault {limit : Nat} {line : Text} {f : Fault} {location : Location}
    (h : evaluate limit line = .error ⟨.fault f, location⟩) :
    (∃ t ∈ tokens line, t.location = location ∧ t.kind = .number ∧
      Arithmetic.greatest < Decimal.value t.lexeme ∧ f = .overflow) ∨
    ∃ c : Culprit (tokens line) f, c.sign.location = location ∧
      c.op ∈ [Operator.add, .subtract, .multiply, .divide, .power] ∧
      ((Lookahead.ofCursor (Cursor.start 1 line)).statement limit).2.current =
        tokenAt line c.taken.length := by
  obtain ⟨k, s, ⟨hle, hd, hv⟩, hreader⟩ := exists_course_at limit line
  rw [h] at hv
  have hafter : ∀ u ∈ ((tokens line).drop k).head?, u = tokenAt line k := by
    intro u hu
    rw [List.head?_drop] at hu
    exact (Cursor.of_getElem?_tokens hu).2.symm
  have hc := (spelledBy_of_drive hd).culprit hafter (fault_of_verdict hv)
  rw [List.take_append_drop] at hc
  rcases hc with ⟨ht, hlt, hf, hl⟩ | ⟨c, hl, htaken⟩
  · have hk : k < (tokens line).length := lt_length_of_actsAs (by decide) ht
    have hmem : tokenAt line k ∈ tokens line := List.mem_of_getElem? (Cursor.tokenAt_of_lt hk).1
    exact .inl ⟨_, hmem, hl.symm, Kind.eq_number_of_head (Token.head_eq_of_actsAs ht), hlt, hf⟩
  · refine .inr ⟨c, hl, c.faults.mem, ?_⟩
    have hr : ((Lookahead.ofCursor (Cursor.start 1 line)).statement limit).2 =
        .ofCursor ((Cursor.start 1 line).skip k) := hreader _ _ (Prod.ext h rfl)
    rw [hr, htaken, List.length_take, Nat.min_eq_left hle]
    rfl

/-- The right operand of `/` is a group of value zero, and the line is malformed after it. -/
theorem evaluate_fault_quotient :
    evaluate 2 "1+2*(9/(3-1-2)+)x".toList = .error ⟨.fault .divisionByZero, ⟨1, 7, 6⟩⟩ ∧
      ∃ c : Culprit (tokens "1+2*(9/(3-1-2)+)x".toList) .divisionByZero,
        c.sign.location = ⟨1, 7, 6⟩ ∧
        c.op ∈ [Operator.add, .subtract, .multiply, .divide, .power] ∧
        ((Lookahead.ofCursor (Cursor.start 1 "1+2*(9/(3-1-2)+)x".toList)).statement 2).2.current =
          tokenAt "1+2*(9/(3-1-2)+)x".toList c.taken.length := by
  have h : evaluate 2 "1+2*(9/(3-1-2)+)x".toList = .error ⟨.fault .divisionByZero, ⟨1, 7, 6⟩⟩ := by
    decide +kernel
  refine ⟨h, (evaluate_fault h).resolve_left ?_⟩
  rintro ⟨t, -, -, -, -, hf⟩
  cases hf

end Reckon
