import Reckon.Proofs.Course
import Reckon.Proofs.Grammar

/-!
What one step does. A token is taken in few ways and refused for few reasons, and each is stated
here once. Before that come the two ways of computing what waits on the stack: `unwind` is `settle`
at the loosest level.
-/

set_option autoImplicit false

namespace Reckon

theorem Operator.leftReach_eq_leftLevel (op : Operator) : op.leftReach = op.leftLevel := by
  cases op <;> rfl

/-- The tokens in front of which every expression of a level is complete. -/
def Ends (l : Level) (t : Token) : Prop :=
  ∀ op : Operator, t.actsAs op.kind → op.leftLevel.rank ≤ l.rank

theorem Ends.mono {l m : Level} {t : Token} (h : Ends l t) (hm : l.rank ≤ m.rank) : Ends m t :=
  fun op ht => Nat.le_trans (h op ht) hm

theorem Ends.of_operator {op : Operator} {t : Token} (h : t.actsAs op.kind) :
    Ends op.leftLevel t := by
  intro op' ht'
  obtain rfl := Operator.eq_of_actsAs h ht'
  exact Nat.le_refl _

theorem Ends.of_delimiter {l : Level} {t : Token} {k : Kind} (hk : k ∈ delimiters)
    (h : t.actsAs k) :
    Ends l t :=
  fun _ ht => absurd h (Operator.not_actsAs hk ht)

/-- The tokens that do not go on with an expression of a level. -/
def Closes (l : Level) (t : Token) : Prop :=
  ∀ op : Operator, t.actsAs op.kind → op.level.rank < l.rank

theorem Closes.ends {op : Operator} {t : Token} (h : Closes op.rightLevel t) : Ends op.level t := by
  intro op' ht
  have hlt := h op' ht
  revert hlt
  cases op <;> cases op' <;> simp [Operator.rightLevel, Operator.leftLevel,
    Operator.level, Level.rank]

theorem Closes.operand (t : Token) : Closes .operand t := by
  intro op _
  cases op <;> simp [Operator.level, Level.rank]

theorem Closes.ofKind?_eq_none {t : Token} (h : Closes .sum t) :
    Operator.ofKind? t.kind = none := by
  cases ho : Operator.ofKind? t.kind with
  | none => rfl
  | some op => exact absurd (h op (Token.actsAs_kind_iff.mpr ho)) (Nat.not_lt_zero _)

namespace Evaluation

variable {limit : Nat} {floor k : Level} {σ σ' : Stack} {t : Token} {v v' x : Int} {s : State}
  {op : Operator} {location : Location}

theorem actsAs_of_head {m : Mark} {extended : Bool} (hm : m.extendsToComparison = false)
    (h : t.kind.head = .mark m extended) : t.actsAs (.mark m false) := by
  cases hk : t.kind with
  | mark m' extended' =>
    simp only [hk, Kind.head, Kind.mark.injEq] at h
    obtain ⟨rfl, -⟩ := h
    simp [Token.actsAs, hk, Kind.head, hm]
  | number | word | stray | stop => simp [hk, Kind.head] at h

/-- The level of the operand that a stack waits for. -/
def slot (floor : Level) : Stack → Level
  | [] => floor
  | .group :: _ => .sum
  | .pending op _ _ :: _ => op.rightLevel

@[simp] theorem depth_nil : depth [] = 0 := rfl

theorem depth_group : depth (.group :: σ) = depth σ + 1 := by
  simp [depth, Frame.nests, List.countP_cons]

theorem depth_pending :
    depth (.pending op x location :: σ) = if op = .power then depth σ + 1 else depth σ := by
  cases op <;> simp [depth, Frame.nests, List.countP_cons]

theorem compute_eq_exact (op : Operator) (location : Location) (a b : Int) :
    compute op location a b = located location (bounded (op.exact a b)) := by
  rw [compute, located, op.apply_eq_exact]

theorem settle_eq_self (h : (slot floor σ).rank ≤ op.level.rank) :
    settle op.leftReach v σ = .ok (v, σ) := by
  cases σ with
  | nil => rfl
  | cons frame σ =>
    cases frame with
    | group => rfl
    | pending op' x location =>
      have hlt : ¬ op.leftReach.rank ≤ op'.level.rank := by
        revert h
        cases op <;> cases op' <;>
          simp [slot, Operator.leftReach, Operator.rightLevel, Operator.level, Level.rank]
      rw [settle, if_neg hlt]

theorem settle_top {op : Operator} {location : Location}
    (h : settle k v σ = .ok (v', .pending op x location :: σ')) : op.level.rank < k.rank := by
  induction σ generalizing v with
  | nil => simp [settle] at h
  | cons frame σ ih =>
    cases frame with
    | group => simp [settle] at h
    | pending op' y location' =>
      rw [settle] at h
      split at h
      · obtain ⟨w, -, hw⟩ := bind_eq_ok h
        exact ih hw
      · next hle =>
        simp only [Except.ok.injEq, Prod.mk.injEq, List.cons.injEq, Frame.pending.injEq] at h
        obtain ⟨-, ⟨rfl, -, -⟩, -⟩ := h
        omega

theorem slot_le_of_settle {op : Operator} (h : settle op.leftReach v σ = .ok (v', σ'))
    (hf : σ' = [] → floor.rank ≤ op.level.rank) : (slot floor σ').rank ≤ op.level.rank := by
  cases σ' with
  | nil => exact hf rfl
  | cons frame σ' =>
    cases frame with
    | group => simp [slot, Level.rank]
    | pending op' y location =>
      have hlt := settle_top h
      revert hlt
      cases op <;> cases op' <;>
        simp [slot, Operator.leftReach, Operator.rightLevel, Operator.level, Level.rank]

theorem cause_of_settle_error {f : Failure} (h : settle k v σ = .error f) :
    ∃ g, f.cause = .fault g := by
  induction σ generalizing v with
  | nil => simp [settle] at h
  | cons frame σ ih =>
    cases frame with
    | group => simp [settle] at h
    | pending op y location =>
      rw [settle] at h
      split at h
      · cases hc : op.apply y v with
        | ok w =>
          simp only [compute, hc, Except.mapError, bind, Except.bind] at h
          exact ih h
        | error g =>
          simp only [compute, hc, Except.mapError, bind, Except.bind, Except.error.injEq] at h
          exact ⟨g, by rw [← h]⟩
      · cases h

theorem unwind_eq_settle :
    unwind v σ = (settle .sum v σ).map (fun r => (r.1, r.2.tail?)) := by
  induction σ generalizing v with
  | nil => rfl
  | cons frame σ ih =>
    cases frame with
    | group => rfl
    | pending op y location =>
      have hle : Level.sum.rank ≤ op.level.rank := Nat.zero_le _
      rw [unwind, settle, if_pos hle]
      cases compute op location y v with
      | error e => rfl
      | ok w => exact ih

theorem settle_of_unwind_some (h : unwind v σ = .ok (v', some σ')) :
    settle .sum v σ = .ok (v', .group :: σ') := by
  rw [unwind_eq_settle] at h
  cases hs : settle .sum v σ with
  | error e => simp [hs, Except.map] at h
  | ok r =>
    obtain ⟨w, τ⟩ := r
    cases τ with
    | nil => simp [hs, Except.map] at h
    | cons frame τ =>
      simp only [hs, Except.map, List.tail?_cons, Except.ok.injEq, Prod.mk.injEq,
        Option.some.injEq] at h
      obtain ⟨rfl, rfl⟩ := h
      cases frame with
      | group => rfl
      | pending op y location => exact absurd (settle_top hs) (Nat.not_lt_zero _)

theorem settle_of_unwind_none (h : unwind v σ = .ok (v', none)) :
    settle .sum v σ = .ok (v', []) := by
  rw [unwind_eq_settle] at h
  cases hs : settle .sum v σ with
  | error e => simp [hs, Except.map] at h
  | ok r =>
    obtain ⟨w, τ⟩ := r
    cases τ with
    | nil => simpa [hs, Except.map] using h
    | cons frame τ => simp [hs, Except.map] at h

theorem settle_of_unwind_error {f : Failure} (h : unwind v σ = .error f) :
    settle .sum v σ = .error f := by
  rw [unwind_eq_settle] at h
  cases hs : settle .sum v σ with
  | ok r => simp [hs, Except.map] at h
  | error e => simpa [hs, Except.map] using h

theorem cause_of_unwind_error {f : Failure} (h : unwind v σ = .error f) : ∃ g, f.cause = .fault g :=
  cause_of_settle_error (settle_of_unwind_error h)

theorem readOperand_shift (h : readOperand limit σ t = .shift s) :
    (t.actsAs (.mark .opening false) ∧ depth σ < limit ∧ s = .operand (.group :: σ)) ∨
      (∃ v, t.actsAs .number ∧ Arithmetic.checked (Decimal.value t.lexeme) = .ok v ∧
        s = .value v σ) := by
  unfold readOperand at h
  split at h
  · next hk =>
    split at h
    · next hd =>
      exact .inl ⟨actsAs_of_head rfl hk, hd, (Move.shift.inj h).symm⟩
    · cases h
  · cases h
  · next hk =>
    split at h
    · next w hw => exact .inr ⟨w, by simp [Token.actsAs, hk], hw, (Move.shift.inj h).symm⟩
    · cases h
  · cases h

theorem readOperand_reject {f : Failure} (h : readOperand limit σ t = .reject f) :
    (f = ⟨.nestingTooDeep limit, t.location⟩ ∧ t.actsAs (.mark .opening false) ∧ limit ≤ depth σ) ∨
    (f = ⟨.expected .opening, t.location⟩ ∧ t.actsAs (.mark .closing false)) ∨
    (∃ g, f = ⟨.fault g, t.location⟩ ∧ t.actsAs .number) ∨
    (f = ⟨.expected .number, t.location⟩ ∧ ¬ t.actsAs (.mark .opening false) ∧
      ¬ t.actsAs (.mark .closing false) ∧ ¬ t.actsAs .number) := by
  unfold readOperand at h
  split at h
  · next hk =>
    split at h
    · cases h
    · next hd =>
      exact .inl ⟨(Move.reject.inj h).symm, actsAs_of_head rfl hk, by omega⟩
  · next hk => exact .inr (.inl ⟨(Move.reject.inj h).symm, actsAs_of_head rfl hk⟩)
  · next hk =>
    split at h
    · cases h
    · next g hg =>
      exact .inr (.inr (.inl ⟨g, (Move.reject.inj h).symm, by simp [Token.actsAs, hk]⟩))
  · next h₁ h₂ h₃ =>
    refine .inr (.inr (.inr ⟨(Move.reject.inj h).symm, ?_, ?_, ?_⟩))
    · exact fun ht => h₁ _ (Token.head_eq_of_actsAs ht)
    · exact fun ht => h₂ _ (Token.head_eq_of_actsAs ht)
    · exact fun ht => h₃ (Token.head_eq_of_actsAs ht)

theorem readOperand_ne_accept : readOperand limit σ t ≠ .accept v := by
  unfold readOperand
  split
  · split <;> simp
  · simp
  · split <;> simp
  · simp

theorem readOperator_shift (h : readOperator floor v σ t = .shift s) :
    (∃ op w σ', t.actsAs op.kind ∧ settle op.leftReach v σ = .ok (w, σ') ∧
      (slot floor σ').rank ≤ op.level.rank ∧ s = State.afterOperator op w t.location σ') ∨
    (∃ w σ', t.actsAs (.mark .closing false) ∧ settle .sum v σ = .ok (w, .group :: σ') ∧
      s = .value w σ') := by
  unfold readOperator at h
  cases ho : Operator.ofKind? t.kind with
  | some op =>
    simp only [ho] at h
    cases hs : settle op.leftReach v σ with
    | error e => simp [hs] at h
    | ok r =>
      obtain ⟨w, σ'⟩ := r
      simp only [hs] at h
      split at h
      · cases h
      · next hf =>
        have hf' : σ' = [] → floor.rank ≤ op.level.rank := by
          rintro rfl
          simpa using hf
        exact .inl ⟨op, w, σ', Token.actsAs_kind_iff.mpr ho, hs, slot_le_of_settle hs hf',
          (Move.shift.inj h).symm⟩
  | none =>
    simp only [ho] at h
    split at h
    · cases h
    · cases h
    · next w σ' hu =>
      split at h
      · next hc => exact .inr ⟨w, σ', hc, settle_of_unwind_some hu, (Move.shift.inj h).symm⟩
      · cases h

theorem readOperator_reject {f : Failure} (h : readOperator floor v σ t = .reject f) :
    (∃ g, f.cause = .fault g) ∨
    (f = ⟨.expected .closing, t.location⟩ ∧ Operator.ofKind? t.kind = none ∧
      ¬ t.actsAs (.mark .closing false) ∧ ∃ w σ', settle .sum v σ = .ok (w, .group :: σ')) := by
  unfold readOperator at h
  split at h
  · split at h
    · next g hs =>
      obtain rfl := Move.reject.inj h
      exact .inl (cause_of_settle_error hs)
    · split at h <;> cases h
  · next ho =>
    split at h
    · next g hu =>
      obtain rfl := Move.reject.inj h
      exact .inl (cause_of_unwind_error hu)
    · cases h
    · next w σ' hu =>
      split at h
      · cases h
      · next hc => exact .inr ⟨(Move.reject.inj h).symm, ho, hc, w, σ', settle_of_unwind_some hu⟩

theorem readOperator_accept (h : readOperator floor v σ t = .accept v') :
    (∃ op, Operator.ofKind? t.kind = some op ∧ op.level.rank < floor.rank ∧
      settle op.leftReach v σ = .ok (v', [])) ∨
    (Operator.ofKind? t.kind = none ∧ settle .sum v σ = .ok (v', [])) := by
  unfold readOperator at h
  split at h
  · next op ho =>
    split at h
    · cases h
    · next w σ' hs =>
      split at h
      · next hf =>
        obtain rfl := Move.accept.inj h
        simp only [Bool.and_eq_true, List.isEmpty_iff, decide_eq_true_eq] at hf
        obtain ⟨rfl, hlt⟩ := hf
        exact .inl ⟨op, ho, hlt, hs⟩
      · cases h
  · next ho =>
    split at h
    · cases h
    · next w hu =>
      obtain rfl := Move.accept.inj h
      exact .inr ⟨ho, settle_of_unwind_none hu⟩
    · split at h <;> cases h

theorem step_value_pending (h : Ends op.level t) :
    step limit floor (.value v (.pending op x location :: σ)) t =
      match compute op location x v with
      | .ok y => step limit floor (.value y σ) t
      | .error e => .reject e := by
  simp only [step, readOperator]
  cases ho : Operator.ofKind? t.kind with
  | none =>
    simp only [unwind]
    cases compute op location x v <;> rfl
  | some op' =>
    have hle : op'.leftReach.rank ≤ op.level.rank := by
      rw [op'.leftReach_eq_leftLevel]
      exact h op' (Token.actsAs_kind_iff.mpr ho)
    simp only [settle, if_pos hle]
    cases compute op location x v <;> rfl

theorem step_afterOperator :
    step limit floor (State.afterOperator op x location σ) t =
      if op = .power ∧ limit ≤ depth σ then .reject ⟨.nestingTooDeep limit, t.location⟩
      else step limit floor (.operand (.pending op x location :: σ)) t := by
  cases op with
  | power =>
    by_cases hd : depth σ < limit
    · simp [State.afterOperator, step, hd]
    · simp [State.afterOperator, step, hd, Nat.le_of_not_lt hd]
  | _ => simp [State.afterOperator]

theorem step_number (h : t.actsAs .number) :
    step limit floor (.operand σ) t =
      match located t.location (bounded (some (Decimal.value t.lexeme))) with
      | .ok v => .shift (.value v σ)
      | .error e => .reject e := by
  simp only [step, readOperand, Token.head_eq_of_actsAs h, checked_eq_bounded]
  cases bounded (some (Decimal.value t.lexeme)) <;> rfl

theorem step_opening (h : t.actsAs (.mark .opening false)) :
    step limit floor (.operand σ) t =
      if depth σ < limit then .shift (.operand (.group :: σ))
      else .reject ⟨.nestingTooDeep limit, t.location⟩ := by
  simp only [step, readOperand, Token.head_eq_of_actsAs h]

theorem step_closing (h : t.actsAs (.mark .closing false)) :
    step limit floor (.value v (.group :: σ)) t = .shift (.value v σ) := by
  have hn : Operator.ofKind? t.kind = none := by
    simp [Operator.ofKind?, Token.head_eq_of_actsAs h]
  simp [step, readOperator, hn, unwind, h]

theorem step_operator (ht : t.actsAs op.kind) (h : (slot floor σ).rank ≤ op.level.rank) :
    step limit floor (.value v σ) t = .shift (State.afterOperator op v t.location σ) := by
  have hf : ¬ (σ.isEmpty && decide (op.level.rank < floor.rank)) = true := by
    cases σ with
    | nil => simpa [slot] using h
    | cons => simp
  simp only [step, readOperator, Token.actsAs_kind_iff.mp ht, settle_eq_self h, if_neg hf]

theorem step_unopened (h : t.actsAs (.mark .closing false)) :
    step limit floor (.operand σ) t = .reject ⟨.expected .opening, t.location⟩ := by
  simp [step, readOperand, Token.head_eq_of_actsAs h]

theorem step_no_operand (ho : ¬ t.actsAs (.mark .opening false))
    (hc : ¬ t.actsAs (.mark .closing false)) (hn : ¬ t.actsAs .number) :
    step limit floor (.operand σ) t = .reject ⟨.expected .number, t.location⟩ := by
  rw [step, readOperand]
  split
  · next hk => exact absurd (actsAs_of_head rfl hk) ho
  · next hk => exact absurd (actsAs_of_head rfl hk) hc
  · next hk => exact absurd (by simp [Token.actsAs, hk]) hn
  · rfl

theorem step_unclosed (h : Closes .sum t) (hc : ¬ t.actsAs (.mark .closing false)) :
    step limit floor (.value v (.group :: σ)) t = .reject ⟨.expected .closing, t.location⟩ := by
  simp [step, readOperator, h.ofKind?_eq_none, unwind, hc]

theorem step_closes (h : Closes floor t) : step limit floor (.value v []) t = .accept v := by
  cases ho : Operator.ofKind? t.kind with
  | none => simp [step, readOperator, ho, unwind]
  | some op =>
    have hlt := h op (Token.actsAs_kind_iff.mpr ho)
    simp [step, readOperator, ho, settle, hlt]

end Evaluation

end Reckon
