import Reckon.Proofs.History

/-!
The descent written out. A routine is a script that says when it looks at the current token, takes
it, or has another routine run. A run of a script is a relation that logs every call and every
token taken, so that nothing about its end is settled beforehand. Main statement: every routine
returns, in one way only, and its answer is that of the descent.
-/

set_option autoImplicit false

namespace Reckon

open Evaluation

/-- The routines of the descent: one for each level, one for the operators that follow a value,
and one for a statement. -/
inductive Routine where
  | level (l : Level)
  | rest (l : Level) (v : Int)
  | statement
  deriving DecidableEq, Repr

/-- What a routine does next. A failure of a routine that it calls, or of what it does one level of
nesting deeper, is its own failure. -/
inductive Script where
  | give (x : Except Failure Int)
  | look (next : Token → Script)
  | advance (next : Script)
  | call (p : Routine) (next : Int → Script)
  | nested (inner : Script) (next : Int → Script)

namespace Routine

def operandScript : Script :=
  .look fun t =>
    if t.actsAs (.mark .opening false) then
      .nested
        (.advance (.call (.level .sum) fun v => .look fun u =>
          if u.actsAs (.mark .closing false) then .advance (.give (.ok v))
          else .give (.error ⟨.expected .closing, u.location⟩)))
        fun v => .give (.ok v)
    else if t.actsAs (.mark .closing false) then .give (.error ⟨.expected .opening, t.location⟩)
    else if t.actsAs .number then
      match Arithmetic.checked (Decimal.value t.lexeme) with
      | .ok v => .advance (.give (.ok v))
      | .error f => .give (.error ⟨.fault f, t.location⟩)
    else .give (.error ⟨.expected .number, t.location⟩)

def powerScript : Script :=
  .call (.level .operand) fun base => .look fun t =>
    if t.actsAs (.mark .caret false) then
      .advance (.nested (.call (.level .power) fun v => .give (.ok v)) fun exponent =>
        .give (compute .power t.location base exponent))
    else .give (.ok base)

def chainScript (l : Level) : Script :=
  .call (.level l.tighter) fun v => .call (.rest l v) fun w => .give (.ok w)

/-- One pass of the loop over the operators of a level; the next pass is a call. -/
def restScript (l : Level) (v : Int) : Script :=
  .look fun t =>
    match Operator.ofKind? t.kind with
    | none => .give (.ok v)
    | some op =>
      if op.level = l then
        .advance (.call (.level l.tighter) fun y =>
          match compute op t.location v y with
          | .error e => .give (.error e)
          | .ok w => .call (.rest l w) fun x => .give (.ok x))
      else .give (.ok v)

def statementScript : Script :=
  .call (.level .sum) fun v => .look fun t =>
    if t.actsAs (.mark .semicolon false) then .advance (.give (.ok v))
    else if t.actsAs (.mark .closing false) then .give (.error ⟨.expected .opening, t.location⟩)
    else .give (.error ⟨.expected .semicolon, t.location⟩)

def script : Routine → Script
  | level .operand => operandScript
  | level .power => powerScript
  | level l => chainScript l
  | rest l v => restScript l v
  | statement => statementScript

end Routine

inductive Event (limit : Nat) where
  | call (p : Routine) (r : Reader limit)
  | advance (r : Reader limit)

/-- A script that begins at a reader and ends with an answer at another one. -/
inductive Script.Runs {limit : Nat} :
    Script → Reader limit → List (Event limit) → Except Failure Int → Reader limit → Prop where
  | give {x : Except Failure Int} {r : Reader limit} : Runs (.give x) r [] x r
  | look {next : Token → Script} {r r' : Reader limit} {log : List (Event limit)}
      {x : Except Failure Int} : Runs (next r.current) r log x r' → Runs (.look next) r log x r'
  | advance {next : Script} {r r' : Reader limit} {log : List (Event limit)}
      {x : Except Failure Int} :
      Runs next r.advance log x r' → Runs (.advance next) r (.advance r :: log) x r'
  | call {p : Routine} {next : Int → Script} {r r₁ r' : Reader limit}
      {log log' : List (Event limit)} {v : Int} {x : Except Failure Int} :
      Runs p.script r log (.ok v) r₁ → Runs (next v) r₁ log' x r' →
      Runs (.call p next) r (.call p r :: (log ++ log')) x r'
  | callFailed {p : Routine} {next : Int → Script} {r r₁ : Reader limit} {log : List (Event limit)}
      {e : Failure} : Runs p.script r log (.error e) r₁ →
      Runs (.call p next) r (.call p r :: log) (.error e) r₁
  | nested {inner : Script} {next : Int → Script} {r r₁ r' : Reader limit}
      {log log' : List (Event limit)} {v : Int} {x : Except Failure Int} (h : r.depth < limit) :
      Runs inner (r.enter h) log (.ok v) r₁ → Runs (next v) r₁.leave log' x r' →
      Runs (.nested inner next) r (log ++ log') x r'
  | nestedFailed {inner : Script} {next : Int → Script} {r r₁ : Reader limit}
      {log : List (Event limit)} {e : Failure} (h : r.depth < limit) :
      Runs inner (r.enter h) log (.error e) r₁ →
      Runs (.nested inner next) r log (.error e) r₁.leave
  | tooDeep {inner : Script} {next : Int → Script} {r : Reader limit} : ¬ r.depth < limit →
      Runs (.nested inner next) r [] (.error ⟨.nestingTooDeep limit, r.current.location⟩) r

namespace Script

variable {limit : Nat} {b : Script} {r r₁ r₂ : Reader limit} {log₁ log₂ : List (Event limit)}
  {x₁ x₂ : Except Failure Int}

theorem Runs.unique (h₁ : b.Runs r log₁ x₁ r₁) (h₂ : b.Runs r log₂ x₂ r₂) :
    log₁ = log₂ ∧ x₁ = x₂ ∧ r₁ = r₂ := by
  induction h₁ generalizing log₂ x₂ r₂ with
  | give =>
    cases h₂
    exact ⟨rfl, rfl, rfl⟩
  | look _ ih =>
    cases h₂ with
    | look h => exact ih h
  | advance _ ih =>
    cases h₂ with
    | advance h =>
      obtain ⟨rfl, rfl, rfl⟩ := ih h
      exact ⟨rfl, rfl, rfl⟩
  | call _ _ ih ih' =>
    cases h₂ with
    | call h h' =>
      obtain ⟨rfl, hv, rfl⟩ := ih h
      cases hv
      obtain ⟨rfl, rfl, rfl⟩ := ih' h'
      exact ⟨rfl, rfl, rfl⟩
    | callFailed h => cases (ih h).2.1
  | callFailed _ ih =>
    cases h₂ with
    | call h _ => cases (ih h).2.1
    | callFailed h =>
      obtain ⟨rfl, he, rfl⟩ := ih h
      exact ⟨rfl, he, rfl⟩
  | nested hd _ _ ih ih' =>
    cases h₂ with
    | nested _ h h' =>
      obtain ⟨rfl, hv, rfl⟩ := ih h
      cases hv
      obtain ⟨rfl, rfl, rfl⟩ := ih' h'
      exact ⟨rfl, rfl, rfl⟩
    | nestedFailed _ h => cases (ih h).2.1
    | tooDeep hn => exact absurd hd hn
  | nestedFailed hd _ ih =>
    cases h₂ with
    | nested _ h _ => cases (ih h).2.1
    | nestedFailed _ h =>
      obtain ⟨rfl, he, rfl⟩ := ih h
      exact ⟨rfl, he, rfl⟩
    | tooDeep hn => exact absurd hd hn
  | tooDeep hn =>
    cases h₂ with
    | nested hd _ _ => exact absurd hd hn
    | nestedFailed hd _ => exact absurd hd hn
    | tooDeep _ => exact ⟨rfl, rfl, rfl⟩

def Returns (b : Script) (r : Reader limit) (y : Except Failure Int × Reader limit) : Prop :=
  ∃ log, b.Runs r log y.1 y.2

variable {y : Except Failure Int × Reader limit}

theorem Returns.give {x : Except Failure Int} : (Script.give x).Returns r (x, r) := ⟨_, .give⟩

theorem Returns.look {next : Token → Script} (h : (next r.current).Returns r y) :
    (Script.look next).Returns r y := by
  obtain ⟨_, h⟩ := h
  exact ⟨_, .look h⟩

theorem Returns.advance {next : Script} (h : next.Returns r.advance y) :
    (Script.advance next).Returns r y := by
  obtain ⟨_, h⟩ := h
  exact ⟨_, .advance h⟩

theorem Returns.call {p : Routine} {next : Int → Script} {v : Int}
    (h : p.script.Returns r (.ok v, r₁))
    (h' : (next v).Returns r₁ y) : (Script.call p next).Returns r y := by
  obtain ⟨_, h⟩ := h
  obtain ⟨_, h'⟩ := h'
  exact ⟨_, .call h h'⟩

theorem Returns.callFailed {p : Routine} {next : Int → Script} {e : Failure}
    (h : p.script.Returns r (.error e, r₁)) : (Script.call p next).Returns r (.error e, r₁) := by
  obtain ⟨_, h⟩ := h
  exact ⟨_, .callFailed h⟩

theorem Returns.nested {inner : Script} {next : Int → Script} {v : Int} (hd : r.depth < limit)
    (h : inner.Returns (r.enter hd) (.ok v, r₁)) (h' : (next v).Returns r₁.leave y) :
    (Script.nested inner next).Returns r y := by
  obtain ⟨_, h⟩ := h
  obtain ⟨_, h'⟩ := h'
  exact ⟨_, .nested hd h h'⟩

theorem Returns.nestedFailed {inner : Script} {next : Int → Script} {e : Failure}
    (hd : r.depth < limit) (h : inner.Returns (r.enter hd) (.error e, r₁)) :
    (Script.nested inner next).Returns r (.error e, r₁.leave) := by
  obtain ⟨_, h⟩ := h
  exact ⟨_, .nestedFailed hd h⟩

theorem Returns.tooDeep {inner : Script} {next : Int → Script} (hd : ¬ r.depth < limit) :
    (Script.nested inner next).Returns r (.error ⟨.nestingTooDeep limit, r.current.location⟩, r) :=
  ⟨_, .tooDeep hd⟩

theorem Returns.tail {p : Routine} (h : p.script.Returns r y) :
    (Script.call p fun v => .give (.ok v)).Returns r y := by
  obtain ⟨x, r₁⟩ := y
  cases x with
  | error e => exact .callFailed h
  | ok v => exact .call h .give

end Script

namespace Reader

open Script

variable {limit n : Nat} {l : Level} {r : Reader limit}

theorem operand_returns (ih : ∀ r' : Reader limit, r'.unread < r.unread →
    (Routine.level .sum).script.Returns r' (r'.level .sum).outcome) :
    (Routine.level .operand).script.Returns r r.operand.outcome := by
  apply Returns.look
  rw [operand]
  split
  · next ho =>
    split
    · next h =>
      have hr := ih (r.enter h).advance (unread_advance (by decide) ho)
      generalize level .sum (r.enter h).advance = z at hr
      cases z with
      | failure e r₁ => exact .nestedFailed h (.advance (.callFailed hr))
      | value v r₁ h₁ =>
        dsimp only
        split
        · next hc =>
          refine Returns.nested h (.advance (.call hr (.look ?_))) .give
          rw [if_pos hc]
          exact .advance .give
        · next hc =>
          refine Returns.nestedFailed h (.advance (.call hr (.look ?_)))
          rw [if_neg hc]
          exact .give
    · next h => exact .tooDeep h
  · split
    · exact .give
    · split
      · cases Arithmetic.checked (Decimal.value r.current.lexeme) with
        | ok v => exact .advance .give
        | error f => exact .give
      · exact .give

theorem power_returns (ih : ∀ r' : Reader limit, r'.unread < r.unread →
    (Routine.level .sum).script.Returns r' (r'.level .sum).outcome ∧
      (Routine.level .power).script.Returns r' r'.power.outcome) :
    (Routine.level .power).script.Returns r r.power.outcome := by
  have hr := operand_returns (fun r' h => (ih r' h).1)
  rw [power]
  generalize operand r = z at hr
  cases z with
  | failure e r₁ => exact .callFailed hr
  | value base r₁ h₁ =>
    apply Returns.call hr
    apply Returns.look
    dsimp only
    split
    · next hc =>
      apply Returns.advance
      split
      · next h =>
        have hp := (ih (r₁.advance.enter h) (Nat.lt_trans (unread_advance (by decide) hc) h₁)).2
        generalize power (r₁.advance.enter h) = z at hp
        cases z with
        | failure e r₂ => exact .nestedFailed h (.callFailed hp)
        | value exponent r₂ h₂ =>
          apply Returns.nested h (.call hp .give)
          dsimp only
          cases compute .power r₁.current.location base exponent with
          | error e => exact .give
          | ok v => exact .give
      · next h => exact .tooDeep h
    · exact .give

theorem rest_returns {v : Int} (hr : r.unread < n) (ih : ∀ r' : Reader limit, r'.unread < r.unread →
    (Routine.level l.tighter).script.Returns r' (r'.level l.tighter).outcome) :
    (Routine.rest l v).script.Returns r (rest l v r hr).outcome := by
  generalize hm : r.unread = m at ih
  induction m using Nat.strongRecOn generalizing r v with
  | ind m ihr =>
    subst hm
    rw [rest]
    split
    · next hop =>
      apply Returns.look
      rw [hop]
      exact .give
    · next op hop =>
      apply Returns.look
      simp only [hop]
      split
      · apply Returns.advance
        have hx := ih r.advance (unread_operator hop)
        generalize level l.tighter r.advance = z at hx
        cases z with
        | failure e r₁ => exact .callFailed hx
        | value y r₁ h₁ =>
          apply Returns.call hx
          have hlt : r₁.unread < r.unread := Nat.lt_trans h₁ (unread_operator hop)
          dsimp only
          cases compute op r.current.location v y with
          | error e => exact .give
          | ok w =>
            exact .tail (ihr _ hlt (Nat.lt_trans hlt hr) rfl
              (fun r' hr' => ih r' (Nat.lt_trans hr' hlt)))
      · exact .give

theorem level_returns_of_tighter (hl : l.rank < Level.power.rank)
    (ih : ∀ r' : Reader limit, r'.unread < r.unread →
      (Routine.level l.tighter).script.Returns r' (r'.level l.tighter).outcome)
    (hr : (Routine.level l.tighter).script.Returns r (r.level l.tighter).outcome) :
    (Routine.level l).script.Returns r (r.level l).outcome := by
  have hs : (Routine.level l).script = Routine.chainScript l := by
    cases l with
    | sum | product | comparison => rfl
    | power | operand => exact absurd hl (by decide)
  rw [hs, level, dif_pos hl]
  generalize level l.tighter r = z at hr
  cases z with
  | failure e r₁ => exact .callFailed hr
  | value v r₁ h₁ =>
    exact .call hr (.tail (rest_returns h₁ (fun r' hr' => ih r' (Nat.lt_trans hr' h₁))))

theorem level_power (r : Reader limit) : r.level .power = r.power := by
  rw [level]
  rfl

theorem level_returns (l : Level) (r : Reader limit) :
    (Routine.level l).script.Returns r (r.level l).outcome := by
  induction r using (measure fun r : Reader limit => r.unread).wf.induction generalizing l with
  | h r ih =>
    have hless : ∀ (l : Level) (r' : Reader limit), r'.unread < r.unread →
        (Routine.level l).script.Returns r' (r'.level l).outcome := fun l r' hr' => ih r' hr' l
    have hpower : (Routine.level .power).script.Returns r (r.level .power).outcome := by
      rw [level_power]
      refine power_returns (fun r' hr' => ⟨hless .sum r' hr', ?_⟩)
      rw [← level_power]
      exact hless .power r' hr'
    have hcomparison := level_returns_of_tighter (l := .comparison) (by decide) (hless _) hpower
    have hproduct := level_returns_of_tighter (l := .product) (by decide) (hless _) hcomparison
    cases l with
    | operand =>
      rw [level]
      exact operand_returns (hless .sum)
    | power => exact hpower
    | comparison => exact hcomparison
    | product => exact hproduct
    | sum => exact level_returns_of_tighter (by decide) (hless _) hproduct

theorem statement_returns (r : Reader limit) : Routine.statement.script.Returns r r.statement := by
  have hr := level_returns .sum r
  unfold statement
  generalize (r.level .sum).outcome = y at hr
  obtain ⟨x, r₁⟩ := y
  cases x with
  | error e => exact .callFailed hr
  | ok v =>
    refine .call hr (.look ?_)
    dsimp only
    split
    · exact .advance .give
    · split
      · exact .give
      · exact .give

end Reader

namespace Routine

open Script

variable {limit : Nat}

def answer (r : Reader limit) : Routine → Except Failure Int × Reader limit
  | level l => (r.level l).outcome
  | rest l v => (r.rest l v r.unread.lt_succ_self).outcome
  | statement => r.statement

theorem returns (p : Routine) (r : Reader limit) : p.script.Returns r (p.answer r) := by
  cases p with
  | level l => exact r.level_returns l
  | rest l v => exact Reader.rest_returns _ (fun r' _ => r'.level_returns l.tighter)
  | statement => exact r.statement_returns

end Routine

end Reckon
