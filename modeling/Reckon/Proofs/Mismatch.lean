import Reckon.Proofs.Meaning
import Reckon.Proofs.Viable

set_option autoImplicit false

namespace Reckon

open Evaluation

def Token.isOperator (t : Token) : Bool := (Operator.ofKind? t.kind).isSome

def awaitsOperand (ts : List Token) : Bool :=
  match ts.getLast? with
  | none => true
  | some t => t.isOperator || t.actsAs (.mark .opening false)

theorem Token.isOperator_of_actsAs {t : Token} {op : Operator} (h : t.actsAs op.kind) :
    t.isOperator := by
  simp [isOperator, Token.actsAs_kind_iff.mp h]

theorem Token.not_isOperator_of_delimiter {t : Token} {k : Kind} (hk : k ∈ delimiters)
    (h : t.actsAs k) :
    t.isOperator = false := by
  cases ho : Operator.ofKind? t.kind with
  | none => simp [isOperator, ho]
  | some op => exact absurd h (Operator.not_actsAs hk (Token.actsAs_kind_iff.mpr ho))

theorem Derives.exists_last {l : Level} {ts : List Token} {e : Tree} (h : Derives l ts e) :
    ∃ us t, ts = us ++ [t] ∧ (t.actsAs .number ∨ t.actsAs (.mark .closing false)) := by
  induction h with
  | @number l t ht => exact ⟨[], t, rfl, .inl ht⟩
  | @group l o c ts e ho he hc ih => exact ⟨o :: ts, c, rfl, .inr hc⟩
  | @binary l op t ts us a b hl ha ht hb iha ihb =>
    obtain ⟨vs, u, rfl, hu⟩ := ihb
    exact ⟨ts ++ t :: vs, u, by simp, hu⟩

theorem Derives.not_awaitsOperand {l : Level} {us vs : List Token} {e : Tree} (h : Derives l vs e) :
    awaitsOperand (us ++ vs) = false := by
  obtain ⟨ws, t, rfl, ht⟩ := h.exists_last
  rw [← List.append_assoc]
  simp only [awaitsOperand, List.getLast?_append, List.getLast?_singleton, Option.some_or]
  rcases ht with ht | ht
  · simp [Token.not_isOperator_of_delimiter (by decide) ht, Token.actsAs,
      Token.head_eq_of_actsAs ht]
  · simp [Token.not_isOperator_of_delimiter (by decide) ht, Token.actsAs,
      Token.head_eq_of_actsAs ht]

theorem Evaluation.Spells.awaitsOperand {floor : Level} {σ : Stack} {ts : List Token}
    (h : Spells floor σ ts) : awaitsOperand ts = true := by
  cases h with
  | nil => rfl
  | group hσ ht => simp [Reckon.awaitsOperand, ht]
  | pending hσ hl he hx ht => simp [Reckon.awaitsOperand, Token.isOperator_of_actsAs ht]

theorem Evaluation.Spells.balance_nonneg {floor : Level} {σ : Stack} {ts : List Token}
    (h : Spells floor σ ts) : 0 ≤ balance ts := by
  induction h with
  | nil => simp
  | group hσ ht ih =>
    rw [balance_append, balance_opening ht]
    omega
  | pending hσ hl he hx ht ih =>
    rw [balance_append, balance_append, he.balance_eq_zero, balance_operator ht]
    omega

/-- Whatever a stack still waits for can come: an operand, then the `)` of every open group. -/
theorem Evaluation.Spells.completable {floor : Level} {σ : Stack} {ts us : List Token} {e : Tree}
    (h : Spells floor σ ts) (he : Derives (slot floor σ) us e) :
    ∃ vs e', Derives floor (ts ++ us ++ vs) e' := by
  induction h generalizing us e with
  | nil => exact ⟨[], e, by simpa [slot] using he⟩
  | @group σ ts o hσ ho ih =>
    have hc : (⟨.mark .closing false, [')'], o.location⟩ : Token).actsAs
      (.mark .closing false) := rfl
    obtain ⟨vs, e', h'⟩ := ih (.group ho he hc)
    exact ⟨_ :: vs, e', by simpa using h'⟩
  | @pending σ ts us' t op a x hσ hl ha hx ht ih =>
    obtain ⟨vs, e', h'⟩ := ih (.binary hl ha ht he)
    exact ⟨vs, e', by simpa using h'⟩

theorem Evaluation.State.SpelledBy.completable {s : State} {ts : List Token}
    (h : s.SpelledBy .sum ts) : ∃ us e, Sentence (ts ++ us) e := by
  have hone : ∀ l, Derives l [(⟨.number, ['1'], Location.start 1⟩ : Token)] _ :=
    fun l => .number rfl
  have hsemi : (⟨.mark .semicolon false, [';'], Location.start 1⟩ : Token).actsAs
    (.mark .semicolon false) := rfl
  have hend : ∃ us e, Derives .sum (ts ++ us) e := by
    cases s with
    | operand σ =>
      obtain ⟨vs, e, he⟩ := Spells.completable h (hone _)
      exact ⟨_, e, by simpa using he⟩
    | exponent x location σ =>
      obtain ⟨vs, e, he⟩ := Spells.completable h (hone _)
      exact ⟨_, e, by simpa using he⟩
    | value v σ =>
      obtain ⟨us, vs, e, rfl, hσ, he, -⟩ := h
      obtain ⟨ws, e', he'⟩ := hσ.completable (he.mono (Level.rank_le_operand _))
      exact ⟨ws, e', he'⟩
  obtain ⟨us, e, he⟩ := hend
  exact ⟨us ++ [_], e, ts ++ us, _, (List.append_assoc ..).symm, he, hsemi⟩

theorem Tree.not_mismatch_of_read {limit depth : Nat} {e : Tree} {f : Failure}
    (h : e.read limit depth = .error f) : f.cause.isMismatch = false := by
  have hl : ∀ (location : Location) (r : Except Fault Int), located location r = .error f →
      f.cause.isMismatch = false := by
    intro location r hr
    cases r with
    | ok v => simp [located, Except.mapError] at hr
    | error g =>
      simp only [located, Except.mapError, Except.error.injEq] at hr
      rw [← hr]
      rfl
  induction e generalizing depth with
  | number ds location => exact hl _ _ h
  | group location e ih =>
    rw [read] at h
    split at h
    · exact ih h
    · rw [← Except.error.inj h]
      rfl
  | binary op location a b iha ihb =>
    simp only [read, bind, Except.bind] at h
    cases ha : a.read limit depth with
    | error g =>
      rw [ha] at h
      obtain rfl := Except.error.inj h
      exact iha ha
    | ok x =>
      rw [ha] at h
      dsimp only at h
      split at h
      · rw [← Except.error.inj h]
        rfl
      · cases hb : b.read limit (if op = .power then depth + 1 else depth) with
        | error g =>
          rw [hb] at h
          obtain rfl := Except.error.inj h
          exact ihb hb
        | ok y =>
          rw [hb] at h
          exact hl _ _ h

/-- A token that is unexpected in a state: it is refused, or the expression is complete in front of
it and it is no `;`. -/
def Evaluation.State.Unexpected (limit : Nat) (s : State) (t : Token) : Prop :=
  (∃ f, step limit .sum s t = .reject f ∧ f.cause.isMismatch = true) ∨
    (∃ v, step limit .sum s t = .accept v ∧ ¬ t.actsAs (.mark .semicolon false))

theorem not_sentence_of_unexpected {limit : Nat} {s : State} {ts us : List Token}
    {t : Token} {e : Tree}
    (hd : drive limit .sum (.operand []) ts = .shift s) (h : s.Unexpected limit t) :
    ¬ Sentence (ts ++ t :: us) e := by
  rintro ⟨ws, semi, heq, hw, hsemi⟩
  have hs := @Derives.drive_semicolon limit ws e semi hw hsemi
  have hm := drive_concat (t := t) hd
  have hcons : ts ++ t :: us = ts ++ [t] ++ us := by simp
  rw [← heq, hcons] at hs
  rcases h with ⟨f, hf, hmis⟩ | ⟨v, hv, ht⟩
  · rw [hf] at hm
    rw [drive_append_of_ending hm rfl] at hs
    cases hr : e.read limit 0 with
    | ok v => simp [hr] at hs
    | error g =>
      obtain rfl : f = g := by simpa [hr] using hs
      rw [Tree.not_mismatch_of_read hr] at hmis
      cases hmis
  · rw [hv] at hm
    rcases List.eq_nil_or_concat us with rfl | ⟨us, u, rfl⟩
    · have hlast : t = semi := by simpa using (List.append_inj' heq rfl).2
      exact ht (hlast ▸ hsemi)
    · rw [List.concat_eq_append, ← List.cons_append, ← List.append_assoc] at heq
      have hws : ts ++ t :: us = ws := List.append_inj_left' heq rfl
      exact hw.drive_ne_accept ⟨us, by simpa using hws⟩ hm

theorem not_sentence_of_shift {limit : Nat} {s : State} {ts p : List Token} {e : Tree}
    (hd : drive limit .sum (.operand []) ts = .shift s) (hp : p <+: ts) : ¬ Sentence p e := by
  rintro ⟨ws, semi, rfl, hw, hsemi⟩
  obtain ⟨s₁, h₁⟩ := exists_drive_of_prefix hd hp
  have hs := @Derives.drive_semicolon limit ws e semi hw hsemi
  rw [h₁] at hs
  cases hr : e.read limit 0 <;> simp [hr] at hs

/-- Which token is expected where `t` stands after some tokens. -/
structure Expects (before : List Token) (t : Token) (x : Expected) : Prop where
  opening : x = .opening ↔ t.actsAs (.mark .closing false)
  unopened : x = .opening → awaitsOperand before ∨ balance before = 0
  number : x = .number ↔ awaitsOperand before ∧ ¬ t.actsAs (.mark .opening false) ∧
    ¬ t.actsAs (.mark .closing false) ∧ ¬ t.actsAs .number
  closing : x = .closing ↔ ¬ awaitsOperand before ∧ 0 < balance before ∧ ¬ t.isOperator ∧
    ¬ t.actsAs (.mark .closing false)
  semicolon : x = .semicolon ↔ ¬ awaitsOperand before ∧ balance before = 0 ∧ ¬ t.isOperator ∧
    ¬ t.actsAs (.mark .closing false) ∧ ¬ t.actsAs (.mark .semicolon false)

section Expectation

variable {limit : Nat} {σ : Stack} {ts us vs : List Token} {t : Token} {e : Tree} {v w : Int}
  {x : Expected} {location : Location}

theorem expects_of_readOperand (hb : awaitsOperand ts = true)
    (h : readOperand limit σ t = .reject ⟨.expected x, location⟩) :
    location = t.location ∧ Expects ts t x := by
  rcases readOperand_reject h with ⟨hf, -, -⟩ | ⟨hf, ht⟩ | ⟨g, hf, -⟩ | ⟨hf, h₁, h₂, h₃⟩
  · simp at hf
  · simp only [Failure.mk.injEq, Cause.expected.injEq] at hf
    obtain ⟨rfl, rfl⟩ := hf
    exact ⟨rfl, by constructor <;> simp [hb, ht]⟩
  · simp at hf
  · simp only [Failure.mk.injEq, Cause.expected.injEq] at hf
    obtain ⟨rfl, rfl⟩ := hf
    exact ⟨rfl, by constructor <;> simp [hb, h₁, h₂, h₃]⟩

theorem balance_of_settle {l : Level} {σ' : Stack} (hσ : Spells .sum σ us)
    (he : Derives .operand vs e) (hv : e.value = .ok v) (h : settle l v σ = .ok (w, σ')) :
    ∃ us', balance (us ++ vs) = balance us' ∧ Spells .sum σ' us' := by
  have hr := Level.rank_le_operand
  obtain ⟨us', vs', e', heq, hσ', he', -⟩ := hσ.settle he (hr _) (hr _) hv h
  refine ⟨us', ?_, hσ'⟩
  rw [heq, balance_append, he'.balance_eq_zero]
  omega

theorem expects_of_readOperator (hσ : Spells .sum σ us) (he : Derives .operand vs e)
    (hv : e.value = .ok v) (h : readOperator .sum v σ t = .reject ⟨.expected x, location⟩) :
    location = t.location ∧ Expects (us ++ vs) t x := by
  rcases readOperator_reject h with ⟨g, hg⟩ | ⟨hf, ho, hc, w, σ', hs⟩
  · simp at hg
  · simp only [Failure.mk.injEq, Cause.expected.injEq] at hf
    obtain ⟨rfl, rfl⟩ := hf
    obtain ⟨us', hb, hσ'⟩ := balance_of_settle hσ he hv hs
    have hpos : 0 < balance (us ++ vs) := by
      cases hσ' with
      | group hσ'' ht =>
        have h0 := hσ''.balance_nonneg
        rw [hb, balance_append, balance_opening ht]
        omega
    have hne : balance (us ++ vs) ≠ 0 := by omega
    exact ⟨rfl, by constructor <;> simp [he.not_awaitsOperand, Token.isOperator, ho, hc, hpos, hne]⟩

theorem expects_of_conclude (hσ : Spells .sum σ us) (he : Derives .operand vs e)
    (hv : e.value = .ok v)
    (h : readOperator .sum v σ t = .accept w) (hx : conclude w t = .error ⟨.expected x, location⟩) :
    location = t.location ∧ Expects (us ++ vs) t x ∧ ¬ t.actsAs (.mark .semicolon false) := by
  rcases readOperator_accept h with ⟨op, -, hlt, -⟩ | ⟨ho, hs⟩
  · exact absurd hlt (Nat.not_lt_zero _)
  obtain ⟨us', hb, hσ'⟩ := balance_of_settle hσ he hv hs
  have hz : balance (us ++ vs) = 0 := by
    cases hσ'
    exact hb
  unfold conclude at hx
  split at hx
  · cases hx
  next hsemi =>
  split at hx
  · next hc =>
    simp only [Except.error.injEq, Failure.mk.injEq, Cause.expected.injEq] at hx
    obtain ⟨rfl, rfl⟩ := hx
    exact ⟨rfl, by constructor <;> simp [he.not_awaitsOperand, hz, hc], hsemi⟩
  · next hc =>
    simp only [Except.error.injEq, Failure.mk.injEq, Cause.expected.injEq] at hx
    obtain ⟨rfl, rfl⟩ := hx
    refine ⟨rfl, ?_, hsemi⟩
    constructor <;> simp [he.not_awaitsOperand, Token.isOperator, ho, hz, hc, hsemi]

theorem expects_of_step {s : State} (hs : s.SpelledBy .sum ts)
    (h : (step limit .sum s t).verdict? t = some (.error ⟨.expected x, location⟩)) :
    location = t.location ∧ Expects ts t x ∧ s.Unexpected limit t := by
  cases hm : step limit .sum s t with
  | shift s' => simp [hm, Move.verdict?] at h
  | reject f =>
    obtain rfl : f = ⟨.expected x, location⟩ := by simpa [hm, Move.verdict?] using h
    suffices hx : location = t.location ∧ Expects ts t x from ⟨hx.1, hx.2, .inl ⟨_, hm, rfl⟩⟩
    cases s with
    | operand σ => exact expects_of_readOperand (Spells.awaitsOperand hs) hm
    | exponent base place σ =>
      simp only [step] at hm
      split at hm
      · exact expects_of_readOperand (Spells.awaitsOperand hs) hm
      · simp at hm
    | value v σ =>
      obtain ⟨us, vs, e, rfl, hσ, he, hv⟩ := hs
      exact expects_of_readOperator hσ he hv hm
  | accept w =>
    rw [hm] at h
    cases s with
    | operand σ => exact absurd hm readOperand_ne_accept
    | exponent base place σ =>
      simp only [step] at hm
      split at hm
      · exact absurd hm readOperand_ne_accept
      · cases hm
    | value v σ =>
      obtain ⟨us, vs, e, rfl, hσ, he, hv⟩ := hs
      obtain ⟨hl, hx, hsemi⟩ := expects_of_conclude hσ he hv hm (Option.some.inj h)
      exact ⟨hl, hx, .inr ⟨w, hm, hsemi⟩⟩

end Expectation

/-- An unexpected token is the first one with which the line continues no statement, and the tokens
before it tell what is expected. -/
theorem evaluate_expected {limit : Nat} {line : Text} {x : Expected} {location : Location}
    (h : evaluate limit line = .error ⟨.expected x, location⟩) :
    ∃ k, k ≤ (tokens line).length ∧ location = (tokenAt line k).location ∧
      (∃ us e, Sentence ((tokens line).take k ++ us) e) ∧
      (∀ us e, ¬ Sentence ((tokens line).take k ++ tokenAt line k :: us) e) ∧
      (∀ p e, p <+: (tokens line).take k → ¬ Sentence p e) ∧
      Expects ((tokens line).take k) (tokenAt line k) x := by
  obtain ⟨k, s, hk, hd, hv⟩ := exists_course limit line
  have hs := spelledBy_of_drive hd
  rw [h] at hv
  obtain ⟨hl, hx, hu⟩ := expects_of_step hs hv
  refine ⟨k, hk, hl, hs.completable, ?_, ?_, hx⟩
  · intro us e
    exact not_sentence_of_unexpected hd hu
  · intro p e hp
    exact not_sentence_of_shift hd hp

theorem evaluate_expected_closing :
    evaluate 2 "8-(2*3^4;".toList = .error ⟨.expected .closing, ⟨1, 9, 8⟩⟩ ∧
      ∃ k, k ≤ (tokens "8-(2*3^4;".toList).length ∧
        (⟨1, 9, 8⟩ : Location) = (tokenAt "8-(2*3^4;".toList k).location ∧
        (∃ us e, Sentence ((tokens "8-(2*3^4;".toList).take k ++ us) e) ∧
        (∀ us e,
          ¬ Sentence ((tokens "8-(2*3^4;".toList).take k ++ tokenAt "8-(2*3^4;".toList k :: us) e) ∧
        (∀ p e, p <+: (tokens "8-(2*3^4;".toList).take k → ¬ Sentence p e) ∧
        Expects ((tokens "8-(2*3^4;".toList).take k) (tokenAt "8-(2*3^4;".toList k) .closing := by
  have h : evaluate 2 "8-(2*3^4;".toList = .error ⟨.expected .closing, ⟨1, 9, 8⟩⟩ := by
    decide +kernel
  exact ⟨h, evaluate_expected h⟩

end Reckon
