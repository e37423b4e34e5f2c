import Reckon.Proofs.Steps

/-!
What evaluation has read. `Spells` says which tokens leave a stack behind, with the trees of the
operands that are complete. Main statement: a state that is reached is spelled by the tokens that
were taken on the way.
-/

set_option autoImplicit false

namespace Reckon

namespace Evaluation

/-- The tokens that lead to a stack, whose operators keep the values of their left operands. -/
inductive Spells (floor : Level) : Stack → List Token → Prop where
  | nil : Spells floor [] []
  | group {σ : Stack} {ts : List Token} {t : Token} :
      Spells floor σ ts → t.actsAs (.mark .opening false) → Spells floor (.group :: σ) (ts ++ [t])
  | pending {σ : Stack} {ts us : List Token} {t : Token} {op : Operator} {e : Tree} {x : Int} :
      Spells floor σ ts → (slot floor σ).rank ≤ op.level.rank → Derives op.leftLevel us e →
      e.value = .ok x → t.actsAs op.kind →
      Spells floor (.pending op x t.location :: σ) (ts ++ us ++ [t])

def State.SpelledBy (floor : Level) (ts : List Token) : State → Prop
  | operand σ => Spells floor σ ts
  | exponent x location σ => Spells floor (.pending .power x location :: σ) ts
  | value v σ => ∃ us vs e, ts = us ++ vs ∧ Spells floor σ us ∧ Derives .operand vs e ∧
      e.value = .ok v

variable {limit : Nat} {floor k l : Level} {σ σ' : Stack} {ts us vs : List Token} {t : Token}
  {e : Tree} {v v' x : Int} {s s' : State}

theorem compute_eq_value {op : Operator} {location : Location} {a b : Tree} {y z : Int}
    (ha : a.value = .ok x) (hb : b.value = .ok y) (h : compute op location x y = .ok z) :
    (Tree.binary op location a b).value = .ok z := by
  rw [compute_eq_exact] at h
  simpa [Tree.value, ha, hb, bind, Except.bind] using h

theorem Spells.settle (hσ : Spells floor σ us) (he : Derives l vs e)
    (hs : (slot floor σ).rank ≤ l.rank)
    (hk : k.rank ≤ l.rank) (hv : e.value = .ok v) (h : settle k v σ = .ok (v', σ')) :
    ∃ us' vs' e', us ++ vs = us' ++ vs' ∧ Spells floor σ' us' ∧ Derives k vs' e' ∧
      e'.value = .ok v' := by
  induction hσ generalizing l vs e v with
  | nil =>
    simp only [Evaluation.settle, Except.ok.injEq, Prod.mk.injEq] at h
    obtain ⟨rfl, rfl⟩ := h
    exact ⟨[], vs, e, rfl, .nil, he.mono hk, hv⟩
  | @group σ ts t hσ ht ih =>
    simp only [Evaluation.settle, Except.ok.injEq, Prod.mk.injEq] at h
    obtain ⟨rfl, rfl⟩ := h
    exact ⟨ts ++ [t], vs, e, rfl, .group hσ ht, he.mono hk, hv⟩
  | @pending σ ts us t op a x hσ hl ha hx ht ih =>
    rw [Evaluation.settle] at h
    split at h
    · next hle =>
      obtain ⟨w, hw, h⟩ := bind_eq_ok h
      have hb : Derives op.rightLevel vs e := he.mono hs
      obtain ⟨us', vs', e', heq, hσ', he', hv'⟩ :=
        ih (.binary (Nat.le_refl _) ha ht hb) hl hle (compute_eq_value hx hv hw) h
      exact ⟨us', vs', e', by simpa using heq, hσ', he', hv'⟩
    · simp only [Except.ok.injEq, Prod.mk.injEq] at h
      obtain ⟨rfl, rfl⟩ := h
      exact ⟨ts ++ us ++ [t], vs, e, rfl, .pending hσ hl ha hx ht, he.mono hk, hv⟩

theorem Spells.readOperand (hσ : Spells floor σ ts) (h : readOperand limit σ t = .shift s) :
    s.SpelledBy floor (ts ++ [t]) := by
  rcases readOperand_shift h with ⟨ht, -, rfl⟩ | ⟨v, ht, hv, rfl⟩
  · exact .group hσ ht
  · refine ⟨ts, [t], .number t.lexeme t.location, rfl, hσ, .number ht, ?_⟩
    rw [Tree.value, ← checked_eq_bounded, hv]
    rfl

theorem Spells.readOperator (hσ : Spells floor σ us) (he : Derives .operand vs e)
    (hv : e.value = .ok v)
    (h : readOperator floor v σ t = .shift s) : s.SpelledBy floor (us ++ vs ++ [t]) := by
  have hr := Level.rank_le_operand
  rcases readOperator_shift h with ⟨op, w, σ', ht, hs, hl, rfl⟩ | ⟨w, σ', ht, hs, rfl⟩
  · obtain ⟨us', vs', e', heq, hσ', he', hw⟩ := hσ.settle he (hr _) (hr _) hv hs
    rw [op.leftReach_eq_leftLevel] at he'
    rw [heq]
    have hp : Spells floor (.pending op w t.location :: σ') (us' ++ vs' ++ [t]) :=
      .pending hσ' hl he' hw ht
    cases op <;> exact hp
  · obtain ⟨us', vs', e', heq, hσ', he', hw⟩ := hσ.settle he (hr _) (hr _) hv hs
    cases hσ' with
    | @group σ ts o hσ' ho =>
      refine ⟨ts, o :: vs' ++ [t], .group o.location e', ?_, hσ', .group ho he' ht, hw⟩
      rw [heq]
      simp

/-- What one step preserves: the tokens taken so far lead to the state. -/
theorem State.SpelledBy.step (hs : s.SpelledBy floor ts) (h : step limit floor s t = .shift s') :
    s'.SpelledBy floor (ts ++ [t]) := by
  cases s with
  | operand σ => exact Spells.readOperand hs h
  | exponent x location σ =>
    simp only [Evaluation.step] at h
    split at h
    · exact Spells.readOperand hs h
    · cases h
  | value v σ =>
    obtain ⟨us, vs, e, rfl, hσ, he, hv⟩ := hs
    exact hσ.readOperator he hv h

theorem spelledBy_of_drive (h : drive limit floor (.operand []) ts = .shift s) :
    s.SpelledBy floor ts := by
  have hs : (State.operand []).SpelledBy floor [] := Spells.nil
  exact drive_preserves hs (fun us s t s' hu hm => State.SpelledBy.step hu hm) h

end Evaluation

end Reckon
