import Reckon.Proofs.Steps

/-!
Reading by descent. A reader keeps a count of the groups and exponents that are open, and there is
one function for each way an expression is built; each puts the count back before it returns,
whatever it returns. Main statement: the descent leaves the count as it found it, and gives the
value or the failure and stops at the place that evaluation with a stack does.
-/

set_option autoImplicit false

namespace Reckon

open Evaluation

def Level.tighter : Level → Level
  | sum => product
  | product => comparison
  | comparison => power
  | power => operand
  | operand => operand

/-- A lookahead, and how many groups and exponents are open around it: never more than the limit. -/
structure Reader (limit : Nat) where
  ahead : Lookahead
  depth : Nat
  within : depth ≤ limit
  deriving DecidableEq, Repr

namespace Reader

variable {limit : Nat}

def fresh (limit : Nat) (a : Lookahead) : Reader limit := ⟨a, 0, Nat.zero_le limit⟩

def current (r : Reader limit) : Token := r.ahead.current

def unread (r : Reader limit) : Nat := r.ahead.unread

def advance (r : Reader limit) : Reader limit := { r with ahead := r.ahead.advance }

def enter (r : Reader limit) (h : r.depth < limit) : Reader limit := ⟨r.ahead, r.depth + 1, h⟩

def leave (r : Reader limit) : Reader limit :=
  ⟨r.ahead, r.depth - 1, Nat.le_trans (Nat.sub_le _ _) r.within⟩

theorem unread_advance {r : Reader limit} {k : Kind} (hk : k ≠ .stop) (h : r.current.actsAs k) :
    r.advance.unread < r.unread := by
  apply Lookahead.unread_advance_lt
  cases hs : r.ahead.current.isStop with
  | false => rfl
  | true =>
    have hstop : r.ahead.current.kind = .stop := by simpa [Token.isStop] using hs
    have hhead := Token.head_eq_of_actsAs h
    rw [current, hstop] at hhead
    exact absurd hhead.symm hk

theorem unread_operator {r : Reader limit} {op : Operator}
    (h : Operator.ofKind? r.current.kind = some op) :
    r.advance.unread < r.unread := by
  apply unread_advance _ (Token.actsAs_kind_iff.mpr h)
  cases op with
  | compare c => cases c <;> simp [Operator.kind]
  | _ => simp [Operator.kind]

end Reader

/-- How a descent ends: with a value, and then with less than `n` left to read, or with a
failure. -/
inductive Reading (limit n : Nat) where
  | value (v : Int) (r : Reader limit) (h : r.unread < n)
  | failure (e : Failure) (r : Reader limit)

def Reading.outcome {limit n : Nat} : Reading limit n → Except Failure Int × Reader limit
  | value v r _ => (.ok v, r)
  | failure e r => (.error e, r)

namespace Reader

variable {limit : Nat}

def refuse {n : Nat} (r : Reader limit) (cause : Cause) (left : Reader limit) : Reading limit n :=
  .failure ⟨cause, r.current.location⟩ left

mutual

def operand (r : Reader limit) : Reading limit r.unread :=
  if ho : r.current.actsAs (.mark .opening false) then
    if h : r.depth < limit then
      match level .sum (r.enter h).advance with
      | .failure e r₁ => .failure e r₁.leave
      | .value v r₁ h₁ =>
        if hc : r₁.current.actsAs (.mark .closing false) then
          .value v r₁.advance.leave
            (Nat.lt_trans (unread_advance (by decide) hc)
              (Nat.lt_trans h₁ (unread_advance (by decide) ho)))
        else r₁.refuse (.expected .closing) r₁.leave
    else r.refuse (.nestingTooDeep limit) r
  else if r.current.actsAs (.mark .closing false) then r.refuse (.expected .opening) r
  else if hn : r.current.actsAs .number then
    match Arithmetic.checked (Decimal.value r.current.lexeme) with
    | .ok v => .value v r.advance (unread_advance (by decide) hn)
    | .error f => r.refuse (.fault f) r
  else r.refuse (.expected .number) r
termination_by (r.unread, 0)
decreasing_by
  exact Prod.Lex.left _ _ (unread_advance (by decide) ho)

def power (r : Reader limit) : Reading limit r.unread :=
  match operand r with
  | .failure e r₁ => .failure e r₁
  | .value base r₁ h₁ =>
    if hc : r₁.current.actsAs (.mark .caret false) then
      if h : r₁.advance.depth < limit then
        match power (r₁.advance.enter h) with
        | .failure e r₂ => .failure e r₂.leave
        | .value exponent r₂ h₂ =>
          match compute .power r₁.current.location base exponent with
          | .error e => .failure e r₂.leave
          | .ok v =>
            .value v r₂.leave (Nat.lt_trans h₂ (Nat.lt_trans (unread_advance (by decide) hc) h₁))
      else r₁.advance.refuse (.nestingTooDeep limit) r₁.advance
    else .value base r₁ h₁
termination_by (r.unread, 1)
decreasing_by
  · exact Prod.Lex.right _ (by decide)
  · exact Prod.Lex.left _ _ (Nat.lt_trans (unread_advance (by decide) hc) h₁)

def level (l : Level) (r : Reader limit) : Reading limit r.unread :=
  if _hl : l.rank < Level.power.rank then
    match level l.tighter r with
    | .failure e r₁ => .failure e r₁
    | .value v r₁ h₁ => rest l v r₁ h₁
  else if l = .power then power r
  else operand r
termination_by (r.unread, 6 - l.rank)
decreasing_by
  · apply Prod.Lex.right
    cases l <;> simp_all [Level.tighter, Level.rank]
  · exact Prod.Lex.left _ _ h₁
  · apply Prod.Lex.right
    cases l <;> simp_all [Level.rank]
  · apply Prod.Lex.right
    cases l <;> simp_all [Level.rank]

def rest {n : Nat} (l : Level) (v : Int) (r : Reader limit) (hr : r.unread < n) : Reading limit n :=
  match ho : Operator.ofKind? r.current.kind with
  | none => .value v r hr
  | some op =>
    if op.level = l then
      match level l.tighter r.advance with
      | .failure e r₁ => .failure e r₁
      | .value y r₁ h₁ =>
        match compute op r.current.location v y with
        | .error e => .failure e r₁
        | .ok w => rest l w r₁ (Nat.lt_trans h₁ (Nat.lt_trans (unread_operator ho) hr))
    else .value v r hr
termination_by (r.unread, 0)
decreasing_by
  · exact Prod.Lex.left _ _ (unread_operator ho)
  · exact Prod.Lex.left _ _ (Nat.lt_trans h₁ (unread_operator ho))

end

end Reader

theorem Lookahead.run_operator {limit : Nat} {floor : Level} {σ : Stack} {v : Int} {op : Operator}
    {r : Lookahead} (ht : r.current.actsAs op.kind) (hs : (slot floor σ).rank ≤ op.level.rank)
    (hp : op = .power → depth σ < limit) :
    run limit floor (.value v σ) r =
      run limit floor (.operand (.pending op v r.current.location :: σ)) r.advance := by
  have hp' : ¬ (op = .power ∧ limit ≤ depth σ) := fun h => absurd (hp h.1) (Nat.not_lt.mpr h.2)
  rw [run_of_shift (step_operator ht hs)]
  apply run_congr
  rw [step_afterOperator, if_neg hp']

theorem Lookahead.run_pending {limit : Nat} {floor : Level} {σ : Stack} {op : Operator} {x y : Int}
    {location : Location} {r : Lookahead} (h : Closes op.rightLevel r.current) :
    run limit floor (.value y (.pending op x location :: σ)) r =
      match compute op location x y with
      | .ok v => run limit floor (.value v σ) r
      | .error e => (.error e, r) := by
  have hm := @step_value_pending limit floor σ r.current y x op location h.ends
  cases hv : compute op location x y with
  | ok v =>
    rw [hv] at hm
    exact run_congr hm
  | error e =>
    rw [hv] at hm
    exact run_of_reject hm

namespace Reader

variable {limit n d : Nat} {floor l : Level} {σ : Stack} {r : Reader limit}
  {out : Except Failure Int × Lookahead}

/-- A descent that has come to an end at depth `d` where the evaluation that gives `out` has `σ`
on its stack. -/
inductive Follows (floor l : Level) (σ : Stack) (d : Nat) (out : Except Failure Int × Lookahead) :
    Reading limit n → Prop where
  | value {v : Int} {r : Reader limit} {h : r.unread < n} : r.depth = d → Closes l r.current →
      out = Lookahead.run limit floor (.value v σ) r.ahead → Follows floor l σ d out (.value v r h)
  | failure {e : Failure} {r : Reader limit} : r.depth = d → out = (.error e, r.ahead) →
      Follows floor l σ d out (.failure e r)

def Agrees (floor l : Level) (r : Reader limit) (x : Reading limit r.unread) : Prop :=
  ∀ σ : Stack, r.depth = Evaluation.depth σ → (slot floor σ).rank ≤ l.rank →
    Follows floor l σ r.depth (Lookahead.run limit floor (.operand σ) r.ahead) x

theorem follows_refuse {s : State} {cause : Cause}
    (h : step limit floor s r.current = .reject ⟨cause, r.current.location⟩) :
    Follows floor l σ r.depth (Lookahead.run limit floor s r.ahead)
      (r.refuse cause r : Reading limit n) :=
  .failure rfl (Lookahead.run_of_reject h)

theorem operand_agrees
    (ih : ∀ r' : Reader limit, r'.unread < r.unread → Agrees floor .sum r' (level .sum r')) :
    Agrees floor .operand r (operand r) := by
  intro σ hd _
  rw [operand]
  split
  · next ho =>
    have hm := @step_opening limit floor σ _ ho
    split
    · next h =>
      have hs : (slot floor (.group :: σ)).rank ≤ Level.sum.rank := Nat.le_refl _
      have hd₁ : (r.enter h).advance.depth = Evaluation.depth (.group :: σ) := by
        rw [depth_group, ← hd]
        rfl
      have hf := ih (r.enter h).advance (unread_advance (by decide) ho) (.group :: σ) hd₁ hs
      rw [if_pos (hd ▸ h)] at hm
      rw [Lookahead.run_of_shift hm]
      generalize level .sum (r.enter h).advance = x at hf
      cases hf with
      | failure hd₂ ho₂ => exact .failure (by simp [leave, hd₂, enter, advance]) ho₂
      | @value v r₁ h₁ hd₂ hc₂ ho₂ =>
        have hd₃ : r₁.depth - 1 = r.depth := by
          simp [hd₂, enter, advance]
        dsimp only
        split
        · next hc =>
          exact .value hd₃ (.operand _) (ho₂.trans (Lookahead.run_of_shift (step_closing hc)))
        · next hc =>
          exact .failure hd₃ (ho₂.trans (Lookahead.run_of_reject (step_unclosed hc₂ hc)))
    · next h =>
      rw [if_neg (hd ▸ h)] at hm
      exact follows_refuse hm
  · next ho =>
    split
    · next hc => exact follows_refuse (step_unopened hc)
    · next hc =>
      split
      · next hn =>
        split
        · next v hv =>
          have hm : step limit floor (.operand σ) r.current = .shift (.value v σ) := by
            simp [step, readOperand, Token.head_eq_of_actsAs hn, hv]
          exact .value rfl (.operand _) (Lookahead.run_of_shift hm)
        · next f hv =>
          exact follows_refuse (by simp [step, readOperand, Token.head_eq_of_actsAs hn, hv])
      · next hn => exact follows_refuse (step_no_operand ho hc hn)

theorem power_agrees
    (ih : ∀ r' : Reader limit, r'.unread < r.unread → Agrees floor .sum r' (level .sum r')) :
    Agrees floor .power r (power r) := by
  -- on what is left to read: an exponent is a power that begins after a base and a caret
  generalize hn : r.unread = n at ih
  induction n using Nat.strongRecOn generalizing r with
  | ind n ihp =>
    subst hn
    intro σ hd hs
    have hf := operand_agrees ih σ hd (Level.rank_le_operand _)
    rw [power]
    generalize operand r = x at hf
    cases hf with
    | failure hd₁ ho₁ => exact .failure hd₁ ho₁
    | @value base r₁ h₁ hd₁ hc₁ ho₁ =>
      dsimp only
      split
      · next hcaret =>
        have hop : r₁.current.actsAs Operator.power.kind := hcaret
        have hlt : r₁.advance.unread < r.unread :=
          Nat.lt_trans (unread_advance (by decide) hcaret) h₁
        split
        · next h =>
          -- the count of the reader stands for the power that waits on the stack
          have hroom : Evaluation.depth σ < limit := hd ▸ hd₁ ▸ h
          have hd₂ : (r₁.advance.enter h).depth =
              Evaluation.depth (.pending .power base r₁.current.location :: σ) := by
            rw [depth_pending, if_pos rfl, ← hd, ← hd₁]
            rfl
          have ha : Agrees floor .power (r₁.advance.enter h) (power (r₁.advance.enter h)) :=
            ihp _ hlt rfl (fun r' hr' => ih r' (Nat.lt_trans hr' hlt))
          have hp := ha _ hd₂ (Nat.le_refl _)
          rw [ho₁, Lookahead.run_operator hop hs (fun _ => hroom)]
          generalize power (r₁.advance.enter h) = y at hp
          cases hp with
          | failure hd₃ ho₃ => exact .failure (by simp [leave, hd₃, enter, advance, hd₁]) ho₃
          | @value exponent r₂ h₂ hd₃ hc₃ ho₃ =>
            have hd₄ : r₂.depth - 1 = r.depth := by simp [hd₃, enter, advance, hd₁]
            have hv :=
              @Lookahead.run_pending limit floor σ .power base exponent r₁.current.location _ hc₃
            dsimp only
            split
            · next e he =>
              rw [he] at hv
              exact .failure hd₄ (ho₃.trans hv)
            · next v he =>
              rw [he] at hv
              exact .value hd₄ hc₃ (ho₃.trans hv)
        · next h =>
          have hm :=
            @step_afterOperator limit floor σ r₁.advance.current base .power r₁.current.location
          rw [if_pos ⟨rfl, Nat.le_of_not_lt (hd ▸ hd₁ ▸ h)⟩] at hm
          rw [ho₁, Lookahead.run_of_shift (step_operator hop hs)]
          exact .failure hd₁ (Lookahead.run_of_reject hm)
      · next hcaret =>
        refine .value hd₁ ?_ ho₁
        intro op hop
        have hne : op ≠ .power := by
          rintro rfl
          exact hcaret hop
        cases op <;> simp_all [Operator.level, Level.rank]

theorem rest_follows {v : Int} {hr : r.unread < n} (hl : l.rank < Level.power.rank)
    (ih : ∀ r' : Reader limit, r'.unread < r.unread →
      Agrees floor l.tighter r' (level l.tighter r'))
    (hd : r.depth = Evaluation.depth σ) (hs : (slot floor σ).rank ≤ l.rank)
    (hc : Closes l.tighter r.current) (ho : out = Lookahead.run limit floor (.value v σ) r.ahead) :
    Follows floor l σ r.depth out (rest l v r hr) := by
  generalize hm : r.unread = m at ih
  induction m using Nat.strongRecOn generalizing r v with
  | ind m ihr =>
    subst hm
    rw [rest]
    split
    · next hop =>
      refine .value rfl ?_ ho
      intro op ht
      rw [Token.actsAs_kind_iff.mp ht] at hop
      cases hop
    · next op hop =>
      have ht := Token.actsAs_kind_iff.mpr hop
      split
      · next hlevel =>
        subst hlevel
        have hne : op ≠ .power := by
          rintro rfl
          exact absurd hl (Nat.lt_irrefl _)
        have hright : op.level.tighter = op.rightLevel := by
          cases op <;> first | rfl | contradiction
        have hd₁ : r.advance.depth = Evaluation.depth (.pending op v r.current.location :: σ) := by
          rw [depth_pending, if_neg hne, ← hd]
          rfl
        have hslot : (slot floor (.pending op v r.current.location :: σ)).rank ≤
            op.level.tighter.rank := by
          rw [hright]
          exact Nat.le_refl _
        have ha := ih r.advance (unread_operator hop) _ hd₁ hslot
        rw [Lookahead.run_operator ht hs (fun h => absurd h hne)] at ho
        generalize level op.level.tighter r.advance = x at ha
        cases ha with
        | failure hd₂ ho₂ => exact .failure hd₂ (ho.trans ho₂)
        | @value y r₁ h₁ hd₂ hc₂ ho₂ =>
          have hv := @Lookahead.run_pending limit floor σ op v y r.current.location _ (hright ▸ hc₂)
          have hlt : r₁.unread < r.unread := Nat.lt_trans h₁ (unread_operator hop)
          have hd₃ : r₁.depth = r.depth := hd₂
          dsimp only
          split
          · next e he =>
            rw [he] at hv
            exact .failure hd₃ (ho.trans (ho₂.trans hv))
          · next w he =>
            rw [he] at hv
            rw [← hd₃]
            exact ihr _ hlt (hd₃.trans hd) hc₂ (ho.trans (ho₂.trans hv)) rfl
              (fun r' hr' => ih r' (Nat.lt_trans hr' hlt))
      · next hlevel =>
        -- the value before the token was closed by it, so the operator binds more loosely
        refine .value rfl ?_ ho
        intro op' ht'
        obtain rfl := Operator.eq_of_actsAs ht ht'
        have hlt := hc _ ht
        revert hl hlevel hlt
        cases l <;> cases op <;> simp [Level.tighter, Operator.level, Level.rank]

theorem level_agrees_of_tighter (hl : l.rank < Level.power.rank)
    (ih : ∀ r' : Reader limit, r'.unread < r.unread →
      Agrees floor l.tighter r' (level l.tighter r'))
    (ha : Agrees floor l.tighter r (level l.tighter r)) : Agrees floor l r (level l r) := by
  intro σ hd hs
  have hle : l.rank ≤ l.tighter.rank := by cases l <;> decide
  have hf := ha σ hd (Nat.le_trans hs hle)
  rw [level, dif_pos hl]
  generalize level l.tighter r = x at hf
  cases hf with
  | failure hd₁ ho₁ => exact .failure hd₁ ho₁
  | @value v r₁ h₁ hd₁ hc₁ ho₁ =>
    rw [← hd₁]
    exact rest_follows hl (fun r' hr' => ih r' (Nat.lt_trans hr' h₁)) (hd₁.trans hd) hs hc₁ ho₁

theorem level_agrees (floor l : Level) (r : Reader limit) : Agrees floor l r (level l r) := by
  generalize hn : r.unread = n
  induction n using Nat.strongRecOn generalizing l r with
  | ind n ih =>
    subst hn
    -- for one reader the levels follow from the tightest to the loosest
    have hless : ∀ (l : Level) (r' : Reader limit), r'.unread < r.unread →
        Agrees floor l r' (level l r') :=
      fun l r' hr' => ih _ hr' l r' rfl
    have hpower : Agrees floor .power r (level .power r) := by
      rw [level]
      exact power_agrees (hless .sum)
    have hcomparison := level_agrees_of_tighter (l := .comparison) (by decide) (hless _) hpower
    have hproduct := level_agrees_of_tighter (l := .product) (by decide) (hless _) hcomparison
    cases l with
    | operand =>
      rw [level]
      exact operand_agrees (hless .sum)
    | power => exact hpower
    | comparison => exact hcomparison
    | product => exact hproduct
    | sum => exact level_agrees_of_tighter (by decide) (hless _) hproduct

theorem level_fresh (limit : Nat) (l : Level) (a : Lookahead) :
    (level l (fresh limit a)).outcome =
      ((a.expressionAt limit l).1, fresh limit (a.expressionAt limit l).2) := by
  have hf := level_agrees l l (fresh limit a) [] rfl (Nat.le_refl _)
  have fresh_eq : ∀ r : Reader limit, r.depth = 0 → r = fresh limit r.ahead := by
    rintro ⟨a, d, hd⟩ rfl
    rfl
  have he : a.expressionAt limit l =
    Lookahead.run limit l (.operand []) (fresh limit a).ahead := rfl
  generalize level l (fresh limit a) = x at hf
  cases hf with
  | failure hd ho => rw [he, ho, Reading.outcome, ← fresh_eq _ hd]
  | value hd hc ho =>
    rw [he, ho, Lookahead.run_of_accept (step_closes hc), Reading.outcome,
      ← fresh_eq _ hd]

end Reader

end Reckon
