import Mathlib.Data.List.Induction
import Mathlib.Data.List.TakeDrop
import Reckon.Lookahead

/-!
The course of an evaluation. `drive` puts the tokens of a list before a state one after the other,
with no text behind them. Main statements: reading from a cursor is driving over the tokens of the
text up to the one that ends the reading, and evaluating a line is reading from its beginning.
-/

set_option autoImplicit false

namespace Reckon

theorem bind_eq_ok {ε α β : Type} {y : Except ε α} {f : α → Except ε β} {b : β}
    (h : (y >>= f) = .ok b) : ∃ a, y = .ok a ∧ f a = .ok b := by
  cases y with
  | error e => cases h
  | ok a => exact ⟨a, rfl, h⟩

theorem Cursor.rest_eq_nil_of_stop {c : Cursor} (h : c.next.1.isStop = true) :
    c.next.2.rest = [] := by
  unfold next at h ⊢
  dsimp only at h ⊢
  split at h
  · rfl
  · simp [Token.isStop, Front.kind_read_ne_stop] at h

theorem Cursor.stop_next {c : Cursor} (h : c.next.1.isStop = true) :
    c.next.2.next.1.isStop = true := by
  have hr := rest_eq_nil_of_stop h
  generalize c.next.2 = d at hr
  simp [next, hr, Token.isStop]

theorem Cursor.tokens_of_stop {c : Cursor} (h : c.next.1.isStop = true) : c.tokens = [] := by
  rw [tokens_eq, if_pos h]

theorem Cursor.tokens_of_not_stop {c : Cursor} (h : c.next.1.isStop = false) :
    c.tokens = c.next.1 :: c.next.2.tokens := by
  rw [tokens_eq, if_neg (by simp [h])]

theorem Cursor.tokens_next (c : Cursor) : c.next.2.tokens = c.tokens.drop 1 := by
  cases h : c.next.1.isStop with
  | true => rw [tokens_of_stop h, tokens_of_stop (stop_next h), List.drop_nil]
  | false => rw [tokens_of_not_stop h, List.drop_one, List.tail_cons]

theorem Cursor.tokens_skip (c : Cursor) (n : Nat) : (c.skip n).tokens = c.tokens.drop n := by
  induction n generalizing c with
  | zero => simp [skip]
  | succ n ih => rw [skip, ih, tokens_next, List.drop_drop, Nat.add_comm]

theorem Cursor.skip_succ (c : Cursor) (n : Nat) : c.skip (n + 1) = (c.skip n).next.2 := by
  induction n generalizing c with
  | zero => rfl
  | succ n ih => rw [skip, ih, skip]

theorem Cursor.skip_skip (c : Cursor) (m n : Nat) : (c.skip m).skip n = c.skip (m + n) := by
  induction m generalizing c with
  | zero => simp [skip]
  | succ m ih => rw [skip, ih, Nat.succ_add, skip]

def Cursor.tokenAt (c : Cursor) (k : Nat) : Token := (c.skip k).next.1

theorem Cursor.tokenAt_of_lt {c : Cursor} {k : Nat} (h : k < c.tokens.length) :
    c.tokens[k]? = some (c.tokenAt k) ∧ (c.tokenAt k).isStop = false := by
  have hd := c.tokens_skip k
  cases hs : (c.skip k).next.1.isStop with
  | true =>
    rw [tokens_of_stop hs] at hd
    have hl := congrArg List.length hd
    simp only [List.length_nil, List.length_drop] at hl
    omega
  | false =>
    rw [tokens_of_not_stop hs, List.drop_eq_getElem_cons h] at hd
    rw [List.getElem?_eq_getElem h, ← (List.cons_eq_cons.mp hd).1]
    exact ⟨rfl, hs⟩

theorem Cursor.of_getElem?_tokens {c : Cursor} {k : Nat} {t : Token} (h : c.tokens[k]? = some t) :
    k < c.tokens.length ∧ c.tokenAt k = t := by
  obtain ⟨hk, -⟩ := List.getElem?_eq_some_iff.mp h
  exact ⟨hk, Option.some.inj ((tokenAt_of_lt hk).1.symm.trans h)⟩

theorem Cursor.exists_tokenAt {c : Cursor} {t : Token} (h : t ∈ c.tokens) :
    ∃ k, k < c.tokens.length ∧ c.tokenAt k = t := by
  obtain ⟨k, hk⟩ := List.mem_iff_getElem?.mp h
  exact ⟨k, of_getElem?_tokens hk⟩

theorem Cursor.tokenAt_of_le {c : Cursor} {k : Nat} (h : c.tokens.length ≤ k) :
    (c.tokenAt k).isStop = true := by
  have hd := c.tokens_skip k
  rw [List.drop_eq_nil_of_le h] at hd
  cases hs : (c.skip k).next.1.isStop with
  | true => exact hs
  | false => simp [tokens_of_not_stop hs] at hd

theorem Cursor.take_succ_tokens {c : Cursor} {k : Nat} (h : k < c.tokens.length) :
    c.tokens.take (k + 1) = c.tokens.take k ++ [c.tokenAt k] := by
  rw [List.take_add_one, (tokenAt_of_lt h).1]
  rfl

namespace Evaluation

/-- What becomes of a state over a list of tokens, up to the first that is not taken. -/
def drive (limit : Nat) (floor : Level) (s : State) : List Token → Move
  | [] => .shift s
  | t :: ts =>
    match step limit floor s t with
    | .shift s => drive limit floor s ts
    | ended => ended

def Move.ending? : Move → Option (Except Failure Int)
  | shift _ => none
  | accept v => some (.ok v)
  | reject e => some (.error e)

variable {limit : Nat} {floor : Level} {s s' : State} {ts us : List Token} {t : Token}

theorem drive_append_of_shift (h : drive limit floor s ts = .shift s') :
    drive limit floor s (ts ++ us) = drive limit floor s' us := by
  induction ts generalizing s with
  | nil =>
    obtain rfl := Move.shift.inj h
    rfl
  | cons t ts ih =>
    simp only [List.cons_append, drive] at h ⊢
    cases hs : step limit floor s t with
    | shift s₁ =>
      rw [hs] at h
      exact ih h
    | accept v => simp [hs] at h
    | reject e => simp [hs] at h

theorem drive_append_of_ending {m : Move} {r : Except Failure Int} (h : drive limit floor s ts = m)
    (hm : m.ending? = some r) : drive limit floor s (ts ++ us) = m := by
  induction ts generalizing s with
  | nil =>
    subst h
    cases hm
  | cons t ts ih =>
    simp only [List.cons_append, drive] at h ⊢
    cases hs : step limit floor s t with
    | shift s₁ =>
      rw [hs] at h
      exact ih h
    | accept v => rwa [hs] at h
    | reject e => rwa [hs] at h

theorem drive_concat (h : drive limit floor s ts = .shift s') :
    drive limit floor s (ts ++ [t]) = step limit floor s' t := by
  rw [drive_append_of_shift h, drive]
  cases step limit floor s' t <;> rfl

theorem exists_drive_of_prefix (h : drive limit floor s us = .shift s') (hp : ts <+: us) :
    ∃ s₁, drive limit floor s ts = .shift s₁ := by
  obtain ⟨vs, rfl⟩ := hp
  cases hd : drive limit floor s ts with
  | shift s₁ => exact ⟨s₁, rfl⟩
  | accept v =>
    rw [drive_append_of_ending hd rfl] at h
    cases h
  | reject e =>
    rw [drive_append_of_ending hd rfl] at h
    cases h

theorem drive_preserves {P : List Token → State → Prop} (hs : P [] s)
    (hstep : ∀ us s t s', P us s → step limit floor s t = .shift s' → P (us ++ [t]) s')
    (h : drive limit floor s ts = .shift s') : P ts s' := by
  induction ts using List.reverseRecOn generalizing s' with
  | nil =>
    obtain rfl := Move.shift.inj h
    exact hs
  | append_singleton ts t ih =>
    obtain ⟨s₁, h₁⟩ := exists_drive_of_prefix h (List.prefix_append ts [t])
    rw [drive_concat h₁] at h
    exact hstep ts s₁ t s' (ih h₁) h

end Evaluation

open Evaluation

theorem Lookahead.advance_ofCursor (c : Cursor) : (ofCursor c).advance = ofCursor c.next.2 := rfl

section Run

variable {limit : Nat} {floor : Level} {s s' : State} {r : Lookahead} {v : Int} {e : Failure}

theorem Lookahead.run_of_shift (h : step limit floor s r.current = .shift s') :
    run limit floor s r = run limit floor s' r.advance := by
  rw [run]
  split <;> rename_i hs <;> simp_all

theorem Lookahead.run_of_accept (h : step limit floor s r.current = .accept v) :
    run limit floor s r = (.ok v, r) := by
  rw [run]
  split <;> rename_i hs <;> simp_all

theorem Lookahead.run_of_reject (h : step limit floor s r.current = .reject e) :
    run limit floor s r = (.error e, r) := by
  rw [run]
  split <;> rename_i hs <;> simp_all

theorem Lookahead.run_congr (h : step limit floor s r.current = step limit floor s' r.current) :
    run limit floor s r = run limit floor s' r := by
  cases hs : step limit floor s' r.current with
  | shift s₁ => exact (run_of_shift (h.trans hs)).trans (run_of_shift hs).symm
  | accept v => exact (run_of_accept (h.trans hs)).trans (run_of_accept hs).symm
  | reject e => exact (run_of_reject (h.trans hs)).trans (run_of_reject hs).symm

end Run

/-- Reading from a cursor takes a number of tokens and is ended by the one after them. -/
theorem Lookahead.run_ofCursor (limit : Nat) (floor : Level) (s : State) (c : Cursor) :
    ∃ n s', n ≤ c.tokens.length ∧ drive limit floor s (c.tokens.take n) = .shift s' ∧
      (step limit floor s' (c.tokenAt n)).ending? = some (run limit floor s (ofCursor c)).1 ∧
      (run limit floor s (ofCursor c)).2 = ofCursor (c.skip n) := by
  generalize hr : ofCursor c = r
  fun_induction run limit floor s r generalizing c with
  | case1 s r s₁ hs ih =>
    subst hr
    have hn : c.next.1.isStop = false := by
      cases h : c.next.1.isStop with
      | false => rfl
      | true => exact absurd hs (step_stop_ne_shift h)
    have hs' : step limit floor s c.next.1 = .shift s₁ := hs
    obtain ⟨n, s', hle, hd, he, hf⟩ := ih c.next.2 rfl
    refine ⟨n + 1, s', ?_, ?_, he, hf⟩
    · rw [Cursor.tokens_of_not_stop hn, List.length_cons]
      omega
    · rw [Cursor.tokens_of_not_stop hn, List.take_succ_cons, drive, hs']
      exact hd
  | case2 s r v hs =>
    subst hr
    refine ⟨0, s, Nat.zero_le _, rfl, ?_, rfl⟩
    exact congrArg Move.ending? hs
  | case3 s r e hs =>
    subst hr
    refine ⟨0, s, Nat.zero_le _, rfl, ?_, rfl⟩
    exact congrArg Move.ending? hs

/-- What a statement comes to when its expression is complete in front of a token. -/
def conclude (v : Int) (t : Token) : Except Failure Int :=
  if t.actsAs (.mark .semicolon false) then .ok v
  else if t.actsAs (.mark .closing false) then .error ⟨.expected .opening, t.location⟩
  else .error ⟨.expected .semicolon, t.location⟩

def Evaluation.Move.verdict? (t : Token) : Move → Option (Except Failure Int)
  | shift _ => none
  | accept v => some (conclude v t)
  | reject e => some (.error e)

theorem Lookahead.statement_of_ending {limit n : Nat} {s : State} {c : Cursor}
    (hs : (step limit .sum s (c.tokenAt n)).ending? = some ((ofCursor c).expression limit).1)
    (hn : ((ofCursor c).expression limit).2 = ofCursor (c.skip n)) :
    (step limit .sum s (c.tokenAt n)).verdict? (c.tokenAt n) =
      some ((ofCursor c).statement limit).1 := by
  have hc : (ofCursor (c.skip n)).current = c.tokenAt n := rfl
  unfold statement
  generalize (ofCursor c).expression limit = x at hs hn ⊢
  obtain ⟨x, r⟩ := x
  subst hn
  cases hm : step limit .sum s (c.tokenAt n) with
  | shift s' => simp [hm, Move.ending?] at hs
  | accept v =>
    simp only [hm, Move.ending?, Option.some.injEq] at hs
    subst hs
    simp only [Move.verdict?, conclude, hc]
    split
    · rfl
    · split <;> rfl
  | reject e =>
    simp only [hm, Move.ending?, Option.some.injEq] at hs
    subst hs
    rfl

def tokenAt (line : Text) (k : Nat) : Token := (Cursor.start 1 line).tokenAt k

theorem take_succ_tokens {line : Text} {k : Nat} (h : k < (tokens line).length) :
    (tokens line).take (k + 1) = (tokens line).take k ++ [tokenAt line k] :=
  Cursor.take_succ_tokens h

theorem lt_length_of_actsAs {line : Text} {k : Nat} {kind : Kind} (hn : kind ≠ .stop)
    (h : (tokenAt line k).actsAs kind) : k < (tokens line).length := by
  by_contra hk
  have hs : (tokenAt line k).isStop = true := Cursor.tokenAt_of_le (Nat.le_of_not_lt hk)
  simp only [Token.isStop, beq_iff_eq] at hs
  simp only [Token.actsAs, hs, Kind.head, beq_iff_eq] at h
  exact hn h.symm

/-- An evaluation that takes the tokens before the given index and is ended by the one there. -/
structure Course (limit : Nat) (line : Text) (k : Nat) (s : State) : Prop where
  le : k ≤ (tokens line).length
  driven : drive limit .sum (.operand []) ((tokens line).take k) = .shift s
  ended : (step limit .sum s (tokenAt line k)).verdict? (tokenAt line k) =
    some (evaluate limit line)

theorem exists_course (limit : Nat) (line : Text) : ∃ k s, Course limit line k s := by
  obtain ⟨n, s, hle, hd, he, hf⟩ :=
    Lookahead.run_ofCursor limit .sum (.operand []) (Cursor.start 1 line)
  exact ⟨n, s, hle, hd, Lookahead.statement_of_ending he hf⟩

theorem not_drive_of_verdict {limit j k : Nat} {line : Text} {s s' : State} {x : Except Failure Int}
    (hd : drive limit .sum (.operand []) ((tokens line).take k) = .shift s)
    (hv : (step limit .sum s (tokenAt line k)).verdict? (tokenAt line k) = some x)
    (hj : j ≤ (tokens line).length) (hkj : k < j) :
    drive limit .sum (.operand []) ((tokens line).take j) ≠ .shift s' := by
  intro hd'
  have hp : (tokens line).take (k + 1) <+: (tokens line).take j :=
    List.take_prefix_take_left (by omega)
  obtain ⟨s₁, h₁⟩ := exists_drive_of_prefix hd' hp
  rw [take_succ_tokens (by omega), drive_concat hd] at h₁
  rw [h₁] at hv
  cases hv

theorem Course.le_of_drive {limit j k : Nat} {line : Text} {s s' : State}
    (h : Course limit line k s) (hj : j ≤ (tokens line).length)
    (hd : drive limit .sum (.operand []) ((tokens line).take j) = .shift s') : j ≤ k := by
  by_contra hkj
  exact not_drive_of_verdict h.driven h.ended hj (by omega) hd

theorem Course.step_eq {limit k : Nat} {line : Text} {s : State} {p : List Token} {m : Move}
    {x : Except Failure Int} (h : Course limit line k s) (hp : p <+: tokens line)
    (hd : drive limit .sum (.operand []) p = m) (hm : m.ending? = some x) :
    (tokens line).take k ++ [tokenAt line k] <+: p ∧ step limit .sum s (tokenAt line k) = m := by
  have hk : k < p.length := by
    by_contra hle
    have hpk : p <+: (tokens line).take k := by
      apply List.prefix_of_prefix_length_le hp (List.take_prefix _ _)
      rw [List.length_take, Nat.min_eq_left h.le]
      omega
    obtain ⟨s₁, h₁⟩ := exists_drive_of_prefix h.driven hpk
    rw [← hd, h₁] at hm
    cases hm
  have hlen := hp.length_le
  have hkp : (tokens line).take k ++ [tokenAt line k] <+: p := by
    rw [← take_succ_tokens (by omega)]
    exact List.prefix_of_prefix_length_le (List.take_prefix _ _) hp (by simp; omega)
  refine ⟨hkp, ?_⟩
  obtain ⟨ys, rfl⟩ := hkp
  have hstep := drive_concat (t := tokenAt line k) h.driven
  have hv := h.ended
  cases hx : step limit .sum s (tokenAt line k) with
  | shift s' =>
    rw [hx] at hv
    cases hv
  | accept v => exact (drive_append_of_ending (hstep.trans hx) rfl).symm.trans hd
  | reject e => exact (drive_append_of_ending (hstep.trans hx) rfl).symm.trans hd

theorem Course.evaluate_eq {limit j k : Nat} {line : Text} {s s' : State} {x : Except Failure Int}
    (h : Course limit line k s) (hj : j ≤ (tokens line).length)
    (hd : drive limit .sum (.operand []) ((tokens line).take j) = .shift s')
    (hv : (step limit .sum s' (tokenAt line j)).verdict? (tokenAt line j) = some x) :
    evaluate limit line = x := by
  have hjk := h.le_of_drive hj hd
  have hkj : ¬ j < k := fun hlt => not_drive_of_verdict hd hv h.le hlt h.driven
  obtain rfl : j = k := by omega
  obtain rfl : s = s' := Move.shift.inj (h.driven.symm.trans hd)
  exact Option.some.inj (h.ended.symm.trans hv)

end Reckon
