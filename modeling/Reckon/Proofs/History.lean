import Reckon.Proofs.Descent

set_option autoImplicit false

namespace Reckon

open Evaluation

inductive Call where
  | expression
  | statement
  deriving DecidableEq, Repr

def Call.evaluate (limit : Nat) : Call → Lookahead → Except Failure Int × Lookahead
  | expression => Lookahead.expression limit
  | statement => Lookahead.statement limit

namespace Reader

variable {limit : Nat}

def statement (r : Reader limit) : Except Failure Int × Reader limit :=
  match (r.level .sum).outcome with
  | (.ok v, r) =>
    if r.current.actsAs (.mark .semicolon false) then (.ok v, r.advance)
    else if r.current.actsAs (.mark .closing false) then
      (.error ⟨.expected .opening, r.current.location⟩, r)
    else (.error ⟨.expected .semicolon, r.current.location⟩, r)
  | failed => failed

def answer (r : Reader limit) : Call → Except Failure Int × Reader limit
  | .expression => (r.level .sum).outcome
  | .statement => r.statement

/-- The answers to a sequence of calls, each with the reader that it leaves for the next one. -/
def session (r : Reader limit) : List Call → List (Except Failure Int × Reader limit)
  | [] => []
  | call :: calls => r.answer call :: (r.answer call).2.session calls

def after (limit firstLine : Nat) (source : Text) (k : Nat) : Reader limit :=
  fresh limit (.ofCursor ((Cursor.start firstLine source).skip k))

theorem answer_fresh (call : Call) (a : Lookahead) :
    (fresh limit a).answer call =
      ((call.evaluate limit a).1, fresh limit (call.evaluate limit a).2) := by
  cases call with
  | expression => exact level_fresh limit .sum a
  | statement =>
    simp only [answer, statement, level_fresh, Call.evaluate, Lookahead.statement,
      Lookahead.expression]
    generalize a.expressionAt limit .sum = y
    obtain ⟨x, b⟩ := y
    have hcurrent : (fresh limit b).current = b.current := rfl
    cases x with
    | error e => rfl
    | ok v =>
      simp only [hcurrent]
      split
      · rfl
      · split <;> rfl

end Reader

theorem Call.evaluate_ofCursor (limit : Nat) (call : Call) (c : Cursor) :
    ∃ x n, call.evaluate limit (.ofCursor c) = (x, .ofCursor (c.skip n)) := by
  obtain ⟨n, s, -, -, -, hn⟩ := Lookahead.run_ofCursor limit .sum (.operand []) c
  have he : ∃ x, (Lookahead.ofCursor c).expression limit = (x, .ofCursor (c.skip n)) :=
    ⟨_, Prod.ext rfl hn⟩
  obtain ⟨x, hx⟩ := he
  cases call with
  | expression => exact ⟨x, n, hx⟩
  | statement =>
    simp only [evaluate, Lookahead.statement, hx]
    cases x with
    | error e => exact ⟨.error e, n, rfl⟩
    | ok v =>
      dsimp only
      split
      · exact ⟨.ok v, n + 1, by rw [Lookahead.advance_ofCursor, Cursor.skip_succ]⟩
      · split
        · exact ⟨_, n, rfl⟩
        · exact ⟨_, n, rfl⟩

def Evaluation.State.depth : State → Nat
  | operand σ => Evaluation.depth σ
  | exponent _ _ σ => Evaluation.depth σ
  | value _ σ => Evaluation.depth σ

theorem Evaluation.suffix_of_settle {l : Level} {v w : Int} {σ σ' : Stack}
    (h : settle l v σ = .ok (w, σ')) : σ' <:+ σ := by
  induction σ generalizing v with
  | nil =>
    obtain ⟨-, rfl⟩ : v = w ∧ [] = σ' := by simpa [settle] using h
    exact List.suffix_rfl
  | cons frame σ ih =>
    cases frame with
    | group =>
      obtain ⟨-, rfl⟩ : v = w ∧ .group :: σ = σ' := by simpa [settle] using h
      exact List.suffix_rfl
    | pending op x location =>
      rw [settle] at h
      split at h
      · obtain ⟨y, -, hy⟩ := bind_eq_ok h
        exact (ih hy).trans (List.suffix_cons _ _)
      · obtain ⟨-, rfl⟩ : v = w ∧ .pending op x location :: σ = σ' := by simpa using h
        exact List.suffix_rfl

theorem Evaluation.depth_le_of_settle {l : Level} {v w : Int} {σ σ' : Stack}
    (h : settle l v σ = .ok (w, σ')) : depth σ' ≤ depth σ :=
  (suffix_of_settle h).sublist.countP_le

theorem Evaluation.depth_le_of_readOperand {limit : Nat} {σ : Stack} {s : State} {t : Token}
    (hs : depth σ ≤ limit) (h : readOperand limit σ t = .shift s) : s.depth ≤ limit := by
  rcases readOperand_shift h with ⟨-, hd, rfl⟩ | ⟨v, -, -, rfl⟩
  · rw [State.depth, depth_group]
    exact hd
  · exact hs

theorem Evaluation.depth_le_of_step {limit : Nat} {floor : Level} {s s' : State} {t : Token}
    (hs : s.depth ≤ limit) (h : step limit floor s t = .shift s') : s'.depth ≤ limit := by
  cases s with
  | operand σ => exact depth_le_of_readOperand hs h
  | exponent x location σ =>
    simp only [step] at h
    split at h
    · next hd =>
      apply depth_le_of_readOperand _ h
      rw [depth_pending, if_pos rfl]
      exact hd
    · cases h
  | value v σ =>
    rcases readOperator_shift h with ⟨op, w, σ', -, hw, -, rfl⟩ | ⟨w, σ', -, hw, rfl⟩
    · have hle := depth_le_of_settle hw
      have ha : (State.afterOperator op w t.location σ').depth = depth σ' := by
        cases op <;> simp [State.afterOperator, State.depth, depth_pending]
      rw [State.depth] at hs
      omega
    · have hle := depth_le_of_settle hw
      rw [depth_group] at hle
      simp only [State.depth] at hs ⊢
      omega

theorem Evaluation.depth_le_of_drive {limit : Nat} {floor : Level} {s : State} {ts : List Token}
    (h : drive limit floor (.operand []) ts = .shift s) : s.depth ≤ limit := by
  have hs : (State.operand []).depth ≤ limit := Nat.zero_le limit
  exact drive_preserves hs (fun us s t s' hu hm => depth_le_of_step hu hm) h

/-- A reader carries no history. After each of its answers it is the reader made anew after `k`
tokens, for a `k` that never decreases, so the next answer is that reader's; and on the way to an
answer nothing nests deeper than the limit. -/
theorem Reader.session_fresh (limit firstLine skipped : Nat) (source : Text) (calls : List Call) :
    ∃ k : Nat → Nat, k 0 = skipped ∧ (∀ i, k i ≤ k (i + 1)) ∧
      ((after limit firstLine source skipped).session calls).length = calls.length ∧
      ∀ i call, calls[i]? = some call →
        (∃ x, ((after limit firstLine source skipped).session calls)[i]? =
            some (x, after limit firstLine source (k (i + 1))) ∧
          (after limit firstLine source (k i)).answer call =
            (x, after limit firstLine source (k (i + 1))) ∧
          call.evaluate limit (.ofCursor ((Cursor.start firstLine source).skip (k i))) =
            (x, .ofCursor ((Cursor.start firstLine source).skip (k (i + 1))))) ∧
        ∀ n s, drive limit .sum (.operand [])
          (((Cursor.start firstLine source).skip (k i)).tokens.take n) =
          .shift s → s.depth ≤ limit := by
  induction calls generalizing skipped with
  | nil => exact ⟨fun _ => skipped, rfl, fun _ => Nat.le_refl _, rfl, by simp⟩
  | cons call calls ih =>
    obtain ⟨x, n, hx⟩ := call.evaluate_ofCursor limit ((Cursor.start firstLine source).skip skipped)
    rw [Cursor.skip_skip] at hx
    have ha : (after limit firstLine source skipped).answer call =
        (x, after limit firstLine source (skipped + n)) := by
      rw [after, answer_fresh, hx]
      rfl
    obtain ⟨k, h0, hk, hlen, hi⟩ := ih (skipped + n)
    -- the counts of the later calls, with the one before the first call in front
    refine ⟨fun i => i.casesOn skipped k, rfl, ?_, ?_, ?_⟩
    · intro i
      cases i with
      | zero =>
        show skipped ≤ k 0
        omega
      | succ i => exact hk i
    · simp [session, ha, hlen]
    · intro i call' hc
      cases i with
      | zero =>
        obtain rfl : call = call' := by simpa using hc
        refine ⟨⟨x, by simp [session, ha, h0], by simpa [h0] using ha, by simpa [h0] using hx⟩, ?_⟩
        intro n s hs
        exact depth_le_of_drive hs
      | succ i =>
        simp only [session, ha, List.getElem?_cons_succ]
        exact hi i call' (by simpa using hc)

end Reckon
