import Reckon.Proofs.Steps

/-!
What evaluation computes. `Tree.read` is the value of a tree with the nesting limit checked on the
way. Main statements: driving over the tokens of an expression is reading its tree, whatever the
stack holds below; and a line that begins with a statement has the exact value of its tree.
-/

set_option autoImplicit false

namespace Reckon

def Tree.start : Tree → Location
  | number _ location => location
  | group location _ => location
  | binary _ _ a _ => a.start

/-- The value of a tree that stands at some depth, when groups and exponents nest at most `limit`
deep. -/
def Tree.read (limit depth : Nat) : Tree → Except Failure Int
  | number ds location => located location (bounded (some (Decimal.value ds)))
  | group location e =>
    if depth < limit then e.read limit (depth + 1) else .error ⟨.nestingTooDeep limit, location⟩
  | binary op location a b => do
    let x ← a.read limit depth
    if op = .power ∧ limit ≤ depth then .error ⟨.nestingTooDeep limit, b.start⟩
    else
      let y ← b.read limit (if op = .power then depth + 1 else depth)
      located location (bounded (op.exact x y))

theorem Derives.head_location {l : Level} {t : Token} {ts : List Token} {e : Tree}
    (h : Derives l ts e) (ht : ts.head? = some t) : e.start = t.location := by
  induction h with
  | number hn =>
    obtain rfl := Option.some.inj ht
    rfl
  | group ho he hc ih =>
    obtain rfl := Option.some.inj ht
    rfl
  | binary hl ha ho hb iha ihb =>
    rw [List.head?_append_of_ne_nil _ ha.ne_nil] at ht
    exact iha ht

open Evaluation

/-- Driving over the tokens of an expression is reading its tree. The stack may hold anything below
the expression that leaves room for its level, and any token may follow that ends it. -/
theorem Derives.drive_eq {limit : Nat} {floor l : Level} {ts us : List Token} {e : Tree} {σ : Stack}
    {t : Token} (h : Derives l ts e) (hσ : (slot floor σ).rank ≤ l.rank) (ht : Ends l t) :
    drive limit floor (.operand σ) (ts ++ t :: us) =
      match e.read limit (depth σ) with
      | .ok v => drive limit floor (.value v σ) (t :: us)
      | .error f => .reject f := by
  -- on the derivation: the right operand runs with its operator on the stack, before the same token
  induction h generalizing σ t us with
  | @number l n hn =>
    rw [List.singleton_append, drive, step_number hn, Tree.read]
    cases located n.location (bounded (some (Decimal.value n.lexeme))) <;> rfl
  | @group l o c ts e ho he hc ih =>
    simp only [List.cons_append, List.append_assoc, List.nil_append, Tree.read]
    rw [drive, step_opening ho]
    by_cases hd : depth σ < limit
    · have hs : (slot floor (.group :: σ)).rank ≤ Level.sum.rank := Nat.le_refl _
      simp only [if_pos hd]
      rw [ih hs (.of_delimiter (by decide) hc), depth_group]
      cases e.read limit (depth σ + 1) with
      | error f => rfl
      | ok v =>
        dsimp only
        rw [drive, step_closing hc]
    · simp only [if_neg hd]
  | @binary l op o ts us' a b hl ha ho hb iha ihb =>
    have hop := op.level_le_operands
    simp only [List.append_assoc, List.cons_append, Tree.read]
    rw [iha (by omega) (.of_operator ho)]
    cases a.read limit (depth σ) with
    | error f => rfl
    | ok x =>
      obtain ⟨u, us', rfl⟩ := List.exists_cons_of_ne_nil hb.ne_nil
      dsimp only
      rw [drive, step_operator ho (by omega), List.cons_append]
      dsimp only
      rw [drive, step_afterOperator, hb.head_location rfl]
      by_cases hd : op = .power ∧ limit ≤ depth σ
      · simp only [if_pos hd, bind, Except.bind]
      · have hs : (slot floor (.pending op x o.location :: σ)).rank ≤ op.rightLevel.rank :=
          Nat.le_refl _
        have hr := @ihb us _ t hs (ht.mono (by omega))
        rw [List.cons_append, drive, depth_pending] at hr
        simp only [if_neg hd, hr, bind, Except.bind]
        cases b.read limit (if op = .power then depth σ + 1 else depth σ) with
        | error f => rfl
        | ok y =>
          dsimp only
          rw [drive, step_value_pending (ht.mono (by omega)), compute_eq_exact]
          cases located o.location (bounded (op.exact x y)) <;> rfl

theorem Tree.read_eq_value {limit depth : Nat} {e : Tree} (h : depth + e.nesting ≤ limit) :
    e.read limit depth = e.value := by
  induction e generalizing depth with
  | number ds location => rfl
  | group location e ih =>
    simp only [nesting] at h
    rw [read, if_pos (by omega), ih (by omega), value]
  | binary op location a b iha ihb =>
    simp only [nesting] at h
    have hp : ¬ (op = .power ∧ limit ≤ depth) := by
      rintro ⟨rfl, hle⟩
      simp only [if_pos] at h
      omega
    have hb : (if op = .power then depth + 1 else depth) + b.nesting ≤ limit := by
      split at h <;> split <;> first | omega | contradiction
    rw [read, value, iha (by omega)]
    simp only [if_neg hp, ihb hb]

theorem Derives.drive_ne_accept {limit : Nat} {ts x : List Token} {e : Tree} {v : Int}
    (h : Derives .sum ts e) (hx : x <+: ts) : drive limit .sum (.operand []) x ≠ .accept v := by
  intro ha
  obtain ⟨y, rfl⟩ := hx
  have hplus :
    (⟨.mark .plus false, ['+'], Location.start 1⟩ : Token).actsAs Operator.add.kind := rfl
  have hd := @drive_eq limit .sum .sum _ [] e [] _ h (Nat.le_refl _) (.of_operator hplus)
  rw [List.append_assoc, drive_append_of_ending ha rfl, depth_nil] at hd
  cases hr : e.read limit 0 with
  | error f => simp [hr] at hd
  | ok w =>
    rw [hr] at hd
    dsimp only at hd
    rw [drive, step_operator hplus (Nat.le_refl _)] at hd
    cases hd

theorem Derives.drive_semicolon {limit : Nat} {ts : List Token} {e : Tree} {t : Token}
    (h : Derives .sum ts e) (ht : t.actsAs (.mark .semicolon false)) :
    drive limit .sum (.operand []) (ts ++ [t]) =
      match e.read limit 0 with
      | .ok v => .accept v
      | .error f => .reject f := by
  rw [h.drive_eq (Nat.le_refl _) (.of_delimiter (by decide) ht), depth_nil]
  have hn : Operator.ofKind? t.kind = none := by
    simp [Operator.ofKind?, Token.head_eq_of_actsAs ht]
  cases e.read limit 0 with
  | error f => rfl
  | ok v => simp [drive, step, readOperator, hn, unwind]

theorem evaluate_eq_read {limit : Nat} {line : Text} {p : List Token} {e : Tree}
    (hp : p <+: tokens line) (h : Sentence p e) : evaluate limit line = e.read limit 0 := by
  obtain ⟨us, t, rfl, hu, ht⟩ := h
  obtain ⟨k, s, hc⟩ := exists_course limit line
  have hs := @Derives.drive_semicolon limit us e t hu ht
  have hv := hc.ended
  cases hr : e.read limit 0 with
  | error f =>
    rw [hr] at hs
    obtain ⟨-, hm⟩ := hc.step_eq hp hs rfl
    rw [hm] at hv
    exact (Option.some.inj hv).symm
  | ok v =>
    rw [hr] at hs
    obtain ⟨⟨ys, hys⟩, hm⟩ := hc.step_eq hp hs rfl
    -- nothing is accepted inside the expression, so the token that ends it is the `;`
    have hlast : tokenAt line k = t := by
      rcases List.eq_nil_or_concat ys with rfl | ⟨ys, y, rfl⟩
      · rw [List.append_nil] at hys
        simpa using (List.append_inj' hys rfl).2
      · rw [List.concat_eq_append, ← List.append_assoc] at hys
        have ha := (drive_concat hc.driven).trans hm
        exact absurd ha (hu.drive_ne_accept ⟨ys, List.append_inj_left' hys rfl⟩)
    rw [hm, hlast] at hv
    simpa [Move.verdict?, conclude, ht] using hv.symm

end Reckon
