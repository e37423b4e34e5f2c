import Mathlib.Data.List.Forall2
import Reckon.Proofs.Steps

set_option autoImplicit false

namespace Reckon

open Evaluation

/-- Tokens that stand for the same thing: they are read as the same kind, and numbers denote the
same number. -/
structure Token.Similar (t u : Token) : Prop where
  head : t.kind.head = u.kind.head
  value : t.kind = .number → Decimal.value t.lexeme = Decimal.value u.lexeme

instance (t u : Token) : Decidable (t.Similar u) :=
  decidable_of_iff (t.kind.head = u.kind.head ∧
      (t.kind = .number → Decimal.value t.lexeme = Decimal.value u.lexeme))
    ⟨fun h => ⟨h.1, h.2⟩, fun h => ⟨h.head, h.value⟩⟩

theorem Token.Similar.actsAs {t u : Token} (h : t.Similar u) (k : Kind) :
    t.actsAs k = u.actsAs k := by
  simp only [Token.actsAs, h.head]

theorem Token.Similar.ofKind? {t u : Token} (h : t.Similar u) :
    Operator.ofKind? t.kind = Operator.ofKind? u.kind := by
  simp only [Operator.ofKind?, h.head]

theorem Token.Similar.of_stop {t u : Token} (ht : t.isStop) (hu : u.isStop) : t.Similar u := by
  have hk : t.kind = .stop := by simpa [Token.isStop] using ht
  have hk' : u.kind = .stop := by simpa [Token.isStop] using hu
  exact ⟨by rw [hk, hk'], fun hn => absurd (hk.symm.trans hn) (by decide)⟩

theorem Kind.eq_number_of_head {k : Kind} (h : k.head = .number) : k = .number := by
  cases k with
  | mark m extended => cases h
  | number | word | stray | stop => exact h

section Relations

/-! Everything that holds a place is related to its like with another place. -/

variable (R : Location → Location → Prop)

/-- Results that are the same but for the place of a failure. -/
inductive Parallel {α : Type} (S : α → α → Prop) : Except Failure α → Except Failure α → Prop where
  | value {a b : α} : S a b → Parallel S (.ok a) (.ok b)
  | failure {p q : Location} (cause : Cause) : R p q →
      Parallel S (.error ⟨cause, p⟩) (.error ⟨cause, q⟩)

namespace Evaluation

inductive Frame.Parallel : Frame → Frame → Prop where
  | group : Parallel .group .group
  | pending {p q : Location} (op : Operator) (x : Int) : R p q →
      Parallel (.pending op x p) (.pending op x q)

def Stack.Parallel (σ τ : Stack) : Prop := List.Forall₂ (Frame.Parallel R) σ τ

inductive State.Parallel : State → State → Prop where
  | operand {σ τ : Stack} : Stack.Parallel R σ τ → Parallel (.operand σ) (.operand τ)
  | exponent {p q : Location} {σ τ : Stack} (x : Int) : R p q → Stack.Parallel R σ τ →
      Parallel (.exponent x p σ) (.exponent x q τ)
  | value {σ τ : Stack} (v : Int) : Stack.Parallel R σ τ → Parallel (.value v σ) (.value v τ)

inductive Move.Parallel : Move → Move → Prop where
  | shift {s s' : State} : State.Parallel R s s' → Parallel (.shift s) (.shift s')
  | accept (v : Int) : Parallel (.accept v) (.accept v)
  | reject {p q : Location} (cause : Cause) : R p q →
      Parallel (.reject ⟨cause, p⟩) (.reject ⟨cause, q⟩)

end Evaluation

end Relations

theorem Parallel.map {α β : Type} {R : Location → Location → Prop} {S : α → α → Prop}
    {T : β → β → Prop} {f : α → β} {x y : Except Failure α} (h : Parallel R S x y)
    (hf : ∀ a b, S a b → T (f a) (f b)) :
    Parallel R T (x.map f) (y.map f) := by
  cases h with
  | value hs => exact .value (hf _ _ hs)
  | failure cause hp => exact .failure cause hp

theorem Parallel.bind {α β : Type} {R : Location → Location → Prop} {S : α → α → Prop}
    {T : β → β → Prop} {f g : α → Except Failure β} {x y : Except Failure α} (h : Parallel R S x y)
    (hf : ∀ a b, S a b → Parallel R T (f a) (g b)) : Parallel R T (x >>= f) (y >>= g) := by
  cases h with
  | value hs => exact hf _ _ hs
  | failure cause hp => exact .failure cause hp

theorem Parallel.eq {α : Type} {x y : Except Failure α} (h : Parallel Eq Eq x y) : x = y := by
  cases h with
  | value h => rw [h]
  | failure cause h => rw [h]

namespace Evaluation

variable {R : Location → Location → Prop} {limit : Nat} {floor l : Level} {σ τ : Stack}
  {s s' : State}
  {t u : Token} {p q : Location} {v : Int}

theorem Frame.Parallel.nests {f g : Frame} (h : f.Parallel R g) : f.nests = g.nests := by
  cases h with
  | group => rfl
  | pending op x _ => cases op <;> rfl

theorem Stack.Parallel.depth (h : Stack.Parallel R σ τ) : depth σ = depth τ := by
  induction h with
  | nil => rfl
  | cons hf _ ih =>
    simp only [Evaluation.depth, List.countP_cons] at ih ⊢
    rw [ih, hf.nests]

theorem compute_parallel (hp : R p q) (op : Operator) (a b : Int) :
    Parallel R Eq (compute op p a b) (compute op q a b) := by
  unfold compute
  cases op.apply a b with
  | ok v => exact .value rfl
  | error f => exact .failure (.fault f) hp

theorem settle_parallel (h : Stack.Parallel R σ τ) :
    Parallel R (fun x y => x.1 = y.1 ∧ Stack.Parallel R x.2 y.2) (settle l v σ) (settle l v τ) := by
  induction h generalizing v with
  | nil => exact .value ⟨rfl, .nil⟩
  | cons hf hσ ih =>
    cases hf with
    | group => exact .value ⟨rfl, .cons .group hσ⟩
    | pending op x hp =>
      rw [settle, settle]
      split
      · apply (compute_parallel hp op x v).bind
        rintro a b rfl
        exact ih
      · exact .value ⟨rfl, .cons (.pending op x hp) hσ⟩

theorem unwind_parallel (h : Stack.Parallel R σ τ) :
    Parallel R (fun x y => x.1 = y.1 ∧ Option.Rel (Stack.Parallel R) x.2 y.2) (unwind v σ)
      (unwind v τ) := by
  rw [unwind_eq_settle, unwind_eq_settle]
  apply (settle_parallel h).map
  rintro ⟨a, σ'⟩ ⟨b, τ'⟩ ⟨rfl, hs⟩
  refine ⟨rfl, ?_⟩
  cases hs with
  | nil => exact .none
  | cons _ hs => exact .some hs

theorem readOperand_parallel (hs : Stack.Parallel R σ τ) (ht : t.Similar u)
    (hp : R t.location u.location) :
    Move.Parallel R (readOperand limit σ t) (readOperand limit τ u) := by
  rw [readOperand, readOperand, ← ht.head, ← hs.depth]
  split
  · split
    · exact .shift (.operand (.cons .group hs))
    · exact .reject _ hp
  · exact .reject _ hp
  · next hk =>
    rw [ht.value (Kind.eq_number_of_head hk)]
    split
    · exact .shift (.value _ hs)
    · exact .reject _ hp
  · exact .reject _ hp

theorem afterOperator_parallel (hs : Stack.Parallel R σ τ) (hp : R p q) (op : Operator) (x : Int) :
    State.Parallel R (State.afterOperator op x p σ) (State.afterOperator op x q τ) := by
  cases op with
  | power => exact .exponent x hp hs
  | _ => exact .operand (.cons (.pending _ x hp) hs)

theorem readOperator_parallel (hs : Stack.Parallel R σ τ) (ht : t.Similar u)
    (hp : R t.location u.location) :
    Move.Parallel R (readOperator floor v σ t) (readOperator floor v τ u) := by
  rw [readOperator, readOperator, ← ht.ofKind?, ← ht.actsAs]
  cases Operator.ofKind? t.kind with
  | some op =>
    have h := settle_parallel (l := op.leftReach) (v := v) hs
    dsimp only
    generalize settle op.leftReach v σ = x at h
    generalize settle op.leftReach v τ = y at h
    cases h with
    | failure cause hq => exact .reject cause hq
    | @value a b hab =>
      obtain ⟨w, σ'⟩ := a
      obtain ⟨w', τ'⟩ := b
      obtain ⟨rfl, hs'⟩ : w = w' ∧ Stack.Parallel R σ' τ' := hab
      have he : σ'.isEmpty = τ'.isEmpty := by cases hs' <;> rfl
      dsimp only
      rw [he]
      split
      · exact .accept w
      · exact .shift (afterOperator_parallel hs' hp op w)
  | none =>
    have h := unwind_parallel (v := v) hs
    dsimp only
    generalize unwind v σ = x at h
    generalize unwind v τ = y at h
    cases h with
    | failure cause hq => exact .reject cause hq
    | @value a b hab =>
      obtain ⟨w, σ'⟩ := a
      obtain ⟨w', τ'⟩ := b
      obtain ⟨rfl, hs'⟩ : w = w' ∧ Option.Rel (Stack.Parallel R) σ' τ' := hab
      cases hs' with
      | none => exact .accept w
      | some hs' =>
        dsimp only
        split
        · exact .shift (.value w hs')
        · exact .reject _ hp

theorem step_parallel (hs : State.Parallel R s s') (ht : t.Similar u)
    (hp : R t.location u.location) :
    Move.Parallel R (step limit floor s t) (step limit floor s' u) := by
  cases hs with
  | operand hσ => exact readOperand_parallel hσ ht hp
  | exponent x hq hσ =>
    rw [step, step, ← hσ.depth]
    split
    · exact readOperand_parallel (.cons (.pending .power x hq) hσ) ht hp
    · exact .reject _ hp
  | value v hσ => exact readOperator_parallel hσ ht hp

end Evaluation

def Cursor.Parallel (R : Location → Location → Prop) (c d : Cursor) : Prop :=
  ∀ k, k ≤ c.tokens.length →
    (c.tokenAt k).Similar (d.tokenAt k) ∧ R (c.tokenAt k).location (d.tokenAt k).location

section Run

variable {R : Location → Location → Prop} {limit : Nat} {floor : Level} {s s' : State}
  {c d : Cursor}

theorem Cursor.Parallel.next (h : c.Parallel R d) (hc : c.next.1.isStop = false) :
    c.next.2.Parallel R d.next.2 := by
  intro k hk
  apply h (k + 1)
  rw [tokens_of_not_stop hc, List.length_cons]
  omega

theorem Cursor.Parallel.step (h : c.Parallel R d) (hs : State.Parallel R s s') :
    Move.Parallel R (step limit floor s (Lookahead.ofCursor c).current)
      (step limit floor s' (Lookahead.ofCursor d).current) := by
  obtain ⟨ht, hp⟩ := h 0 (Nat.zero_le _)
  exact step_parallel hs ht hp

/-- What a whole run preserves: the results are the same but for the place of a failure, and come
after equally many tokens. -/
theorem Lookahead.run_parallel (h : c.Parallel R d) (hs : State.Parallel R s s') :
    ∃ n, n ≤ c.tokens.length ∧
      Parallel R Eq (run limit floor s (ofCursor c)).1 (run limit floor s' (ofCursor d)).1 ∧
      (run limit floor s (ofCursor c)).2 = ofCursor (c.skip n) ∧
      (run limit floor s' (ofCursor d)).2 = ofCursor (d.skip n) := by
  have hstep : Move.Parallel R (step limit floor s (ofCursor c).current)
      (step limit floor s' (ofCursor d).current) := h.step hs
  generalize hmove : step limit floor s' (ofCursor d).current = m at hstep
  generalize hr : ofCursor c = r at hstep
  -- on the first run; the second follows it step by step, since their moves are parallel
  fun_induction run limit floor s r generalizing c d s' m with
  | case1 s r s₁ hm ih =>
    subst hr
    rw [hm] at hstep
    have hn : c.next.1.isStop = false := by
      cases hstop : c.next.1.isStop with
      | false => rfl
      | true => exact absurd hm (step_stop_ne_shift hstop)
    cases hstep with
    | @shift _ s₂ hs₂ =>
      have hnext := h.next hn
      obtain ⟨n, hle, hx, hc, hd⟩ := ih hnext hs₂ _ rfl rfl (hnext.step hs₂)
      have hrun : run limit floor s' (ofCursor d) = run limit floor s₂ (ofCursor d.next.2) :=
        run_of_shift hmove
      refine ⟨n + 1, ?_, hrun ▸ hx, hc, hrun ▸ hd⟩
      rw [Cursor.tokens_of_not_stop hn, List.length_cons]
      omega
  | case2 s r v hm =>
    subst hr
    rw [hm] at hstep
    cases hstep with
    | accept v =>
      rw [run_of_accept hmove]
      exact ⟨0, Nat.zero_le _, .value rfl, rfl, rfl⟩
  | case3 s r e hm =>
    subst hr
    rw [hm] at hstep
    cases hstep with
    | reject cause hp =>
      rw [run_of_reject hmove]
      exact ⟨0, Nat.zero_le _, .failure cause hp, rfl, rfl⟩

theorem conclude_parallel {t u : Token} (v : Int) (ht : t.Similar u)
    (hp : R t.location u.location) :
    Parallel R Eq (conclude v t) (conclude v u) := by
  rw [conclude, conclude, ← ht.actsAs, ← ht.actsAs]
  split
  · exact .value rfl
  · split
    · exact .failure _ hp
    · exact .failure _ hp

theorem Lookahead.statement_fst (r : Lookahead) :
    (r.statement limit).1 =
      (r.expression limit).1 >>= fun v => conclude v (r.expression limit).2.current := by
  unfold statement
  generalize r.expression limit = x
  obtain ⟨y, r'⟩ := x
  cases y with
  | error e => rfl
  | ok v =>
    show _ = conclude v r'.current
    unfold conclude
    dsimp only
    split
    · rfl
    · split <;> rfl

theorem Lookahead.statement_parallel (h : c.Parallel R d) :
    Parallel R Eq ((ofCursor c).statement limit).1 ((ofCursor d).statement limit).1 := by
  obtain ⟨n, hn, hx, hc, hd⟩ := @run_parallel R limit .sum _ _ c d h (.operand .nil)
  obtain ⟨ht, hp⟩ := h n hn
  rw [statement_fst, statement_fst]
  apply Parallel.bind hx
  rintro v w rfl
  show Parallel R Eq (conclude v (run limit .sum (.operand []) (ofCursor c)).2.current)
    (conclude v (run limit .sum (.operand []) (ofCursor d)).2.current)
  rw [hc, hd]
  exact conclude_parallel v ht hp

end Run

theorem get_tokens {line : Text} {k : Nat} (h : k < (tokens line).length) :
    (tokens line).get ⟨k, h⟩ = tokenAt line k := by
  have ht : (tokens line)[k]? = some (tokenAt line k) := (Cursor.tokenAt_of_lt h).1
  rw [List.getElem?_eq_getElem h] at ht
  exact Option.some.inj ht

theorem similar_tokenAt {a b : Text} (h : List.Forall₂ Token.Similar (tokens a) (tokens b))
    (k : Nat) : (tokenAt a k).Similar (tokenAt b k) := by
  have hlen := h.length_eq
  by_cases hlt : k < (tokens a).length
  · have ht := h.get hlt (hlen ▸ hlt)
    rwa [get_tokens, get_tokens] at ht
  · apply Token.Similar.of_stop
    · exact Cursor.tokenAt_of_le (Nat.le_of_not_lt hlt)
    · exact Cursor.tokenAt_of_le (hlen ▸ Nat.le_of_not_lt hlt)

/-- Evaluation sees heads and numbers only. Lines whose tokens agree in them have the same value, or
fail for the same cause at tokens of the same index. -/
theorem evaluate_similar {limit : Nat} {a b : Text}
    (h : List.Forall₂ Token.Similar (tokens a) (tokens b)) :
    (∃ v, evaluate limit a = .ok v ∧ evaluate limit b = .ok v) ∨
      ∃ cause k, k ≤ (tokens a).length ∧
        evaluate limit a = .error ⟨cause, (tokenAt a k).location⟩ ∧
        evaluate limit b = .error ⟨cause, (tokenAt b k).location⟩ := by
  let R : Location → Location → Prop := fun p q =>
    ∃ k, k ≤ (tokens a).length ∧ p = (tokenAt a k).location ∧ q = (tokenAt b k).location
  have hpar : (Cursor.start 1 a).Parallel R (Cursor.start 1 b) := by
    intro k hk
    exact ⟨similar_tokenAt h k, k, hk, rfl, rfl⟩
  have hx : Parallel R Eq (evaluate limit a) (evaluate limit b) := Lookahead.statement_parallel hpar
  generalize evaluate limit a = x at hx
  generalize evaluate limit b = y at hx
  cases hx with
  | @value v w hv => exact .inl ⟨v, rfl, by rw [hv]⟩
  | failure cause hp =>
    obtain ⟨k, hk, rfl, rfl⟩ := hp
    exact .inr ⟨cause, k, hk, rfl, rfl⟩

/-- The lines differ in extended marks, leading zeros and blanks, and so in every place. -/
theorem evaluate_similar_quotient :
    List.Forall₂ Token.Similar (tokens "8 -= (=2 / 00);".toList) (tokens "08-(2/0) ;=".toList) ∧
      evaluate 1 "8 -= (=2 / 00);".toList = .error ⟨.fault .divisionByZero, ⟨1, 10, 9⟩⟩ ∧
      ((∃ v, evaluate 1 "8 -= (=2 / 00);".toList = .ok v ∧
        evaluate 1 "08-(2/0) ;=".toList = .ok v) ∨
        ∃ cause k, k ≤ (tokens "8 -= (=2 / 00);".toList).length ∧
          evaluate 1 "8 -= (=2 / 00);".toList =
            .error ⟨cause, (tokenAt "8 -= (=2 / 00);".toList k).location⟩ ∧
          evaluate 1 "08-(2/0) ;=".toList =
            .error ⟨cause, (tokenAt "08-(2/0) ;=".toList k).location⟩) := by
  have h : List.Forall₂ Token.Similar (tokens "8 -= (=2 / 00);".toList)
      (tokens "08-(2/0) ;=".toList) := by
    decide +kernel
  exact ⟨h, by decide +kernel, evaluate_similar h⟩

end Reckon
