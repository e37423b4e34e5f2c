import Reckon.Proofs.Scripts
import Reckon.Proofs.Tapes

set_option autoImplicit false

namespace Reckon

open Evaluation

def Lookahead.waiting (a : Lookahead) : List Token :=
  if a.current.isStop then [] else a.current :: a.cursor.tokens

theorem Lookahead.waiting_ofCursor (c : Cursor) :
    (ofCursor c).waiting = c.tokens := c.tokens_eq.symm

namespace Reader

variable {limit : Nat} {r : Reader limit}

def left (r : Reader limit) : Nat := r.ahead.waiting.length

theorem left_enter (h : r.depth < limit) : (r.enter h).left = r.left := rfl

theorem left_leave : r.leave.left = r.left := rfl

theorem left_advance (h : r.current.isStop = false) : r.left = r.advance.left + 1 := by
  have hw : r.ahead.waiting = r.current :: r.ahead.cursor.tokens := if_neg (by simp [← h, current])
  have ha : r.advance.ahead.waiting = r.ahead.cursor.tokens := Lookahead.waiting_ofCursor _
  rw [left, left, hw, ha, List.length_cons]

end Reader

/-- Whether a routine gives a value only after it has taken a token. -/
def Routine.takes : Routine → Bool
  | level _ | statement => true
  | rest _ _ => false

/-- The order in which routines may call one another before a token is taken. -/
def Routine.rank : Routine → Nat
  | rest _ _ => 0
  | level l => 5 - l.rank
  | statement => 6

def Event.isAdvance {limit : Nat} : Event limit → Bool
  | advance _ => true
  | call _ _ => false

/-- What is asked of the events on the way of a routine from a reader on: a call has less to read
before it, or as much and a lower rank, and no token is taken at the end of the text. -/
def Event.Sound {limit : Nat} (p : Routine) (r : Reader limit) : Event limit → Prop
  | call q a => Prod.Lex (· < ·) (· < ·) (a.left, q.rank) (r.left, p.rank)
  | advance a => a.current.isStop = false

theorem Event.Sound.trans {limit : Nat} {p q : Routine} {r r₀ : Reader limit} {e : Event limit}
    (h : e.Sound q r) (hlt : Prod.Lex (· < ·) (· < ·) (r.left, q.rank) (r₀.left, p.rank)) :
    e.Sound p r₀ := by
  cases e with
  | advance a => exact h
  | call q' a => exact Prod.Lex.trans h hlt

namespace Script

/-- What the script of a routine keeps to, as far as it can be told from the script alone. `moved`
says that a token has been taken since the routine was called, and `known` is the current token if
it has been looked at. -/
def Proper (p : Routine) : Bool → Option Token → Script → Prop
  | moved, _, give x => p.takes → (∃ v, x = .ok v) → moved
  | moved, _, look next => ∀ t, (next t).Proper p moved (some t)
  | _, known, advance next => (∃ t ∈ known, t.isStop = false) ∧ next.Proper p true none
  | moved, _, call q next =>
    (moved = false → q.rank < p.rank) ∧ ∀ v, (next v).Proper p (moved || q.takes) none
  | moved, known, nested inner next =>
    inner.Proper p moved known ∧ ∀ v, (next v).Proper p (moved || p.takes) none

end Script

theorem Token.not_stop_of_actsAs {t : Token} {k : Kind} (hk : k ≠ .stop) (h : t.actsAs k) :
    t.isStop = false := by
  have hh := head_eq_of_actsAs h
  cases hs : t.kind with
  | stop =>
    rw [hs] at hh
    exact absurd hh.symm hk
  | _ => simp [isStop, hs]

theorem Token.not_stop_of_operator {t : Token} {op : Operator}
    (h : Operator.ofKind? t.kind = some op) :
    t.isStop = false := by
  cases hs : t.kind with
  | stop => simp [hs, Operator.ofKind?, Kind.head] at h
  | _ => simp [isStop, hs]

namespace Script

variable {p : Routine} {moved : Bool} {known : Option Token} {t : Token} {v : Int}

theorem proper_error {e : Failure} : (give (.error e)).Proper p moved known := by
  rintro - ⟨v, hv⟩
  cases hv

theorem proper_advance_give {k : Kind} (hk : k ≠ .stop) (h : t.actsAs k) :
    (Script.advance (give (.ok v))).Proper p moved (some t) :=
  ⟨⟨t, rfl, Token.not_stop_of_actsAs hk h⟩, fun _ _ => rfl⟩

theorem proper_call {q : Routine} {next : Int → Script} (h : ∀ v, (next v).Proper p true none) :
    (Script.call q next).Proper p true known :=
  ⟨fun hm => absurd hm (by decide), h⟩

end Script

namespace Routine

open Script

theorem operandScript_proper : operandScript.Proper (level .operand) false none := by
  intro t
  dsimp only
  split
  · next ho =>
    refine ⟨⟨⟨t, rfl, Token.not_stop_of_actsAs (by decide) ho⟩, proper_call ?_⟩, ?_⟩
    · intro v u
      dsimp only
      split
      · next hc => exact proper_advance_give (by decide) hc
      · exact proper_error
    · exact fun v _ _ => rfl
  · split
    · exact proper_error
    · split
      · next hn =>
        split
        · exact proper_advance_give (by decide) hn
        · exact proper_error
      · exact proper_error

theorem powerScript_proper : powerScript.Proper (level .power) false none := by
  refine ⟨fun _ => by decide, ?_⟩
  intro base t
  dsimp only
  split
  · next hc =>
    refine ⟨⟨t, rfl, Token.not_stop_of_actsAs (by decide) hc⟩, proper_call ?_, ?_⟩
    · exact fun v _ _ => rfl
    · exact fun v _ _ => rfl
  · exact fun _ _ => rfl

theorem chainScript_proper {l : Level} (hl : l.rank < Level.power.rank) :
    (chainScript l).Proper (level l) false none := by
  refine ⟨fun _ => ?_, fun v => proper_call fun w _ _ => rfl⟩
  cases l <;> simp_all [Level.tighter, rank, Level.rank]

theorem restScript_proper (l : Level) (v : Int) :
    (restScript l v).Proper (rest l v) false none := by
  intro t
  dsimp only
  split
  · exact fun h => by cases h
  · next op hop =>
    split
    · refine ⟨⟨t, rfl, Token.not_stop_of_operator hop⟩, proper_call ?_⟩
      intro y
      split
      · exact proper_error
      · exact proper_call fun x _ _ => rfl
    · exact fun h => by cases h

theorem statementScript_proper : statementScript.Proper statement false none := by
  refine ⟨fun _ => by decide, ?_⟩
  intro v t
  dsimp only
  split
  · next hs => exact proper_advance_give (by decide) hs
  · split
    · exact proper_error
    · exact proper_error

theorem script_proper (p : Routine) : p.script.Proper p false none := by
  cases p with
  | statement => exact statementScript_proper
  | rest l v => exact restScript_proper l v
  | level l =>
    cases l with
    | operand => exact operandScript_proper
    | power => exact powerScript_proper
    | sum | product | comparison => exact chainScript_proper (by decide)

end Routine

namespace Script

variable {limit : Nat} {b : Script} {r r' r₀ : Reader limit} {log : List (Event limit)}
  {x : Except Failure Int}

def taken (log : List (Event limit)) : Nat := log.countP Event.isAdvance

@[simp] theorem taken_advance : taken (.advance r :: log) = taken log + 1 :=
  List.countP_cons_of_pos rfl

@[simp] theorem taken_call {p : Routine} : taken (.call p r :: log) = taken log :=
  List.countP_cons_of_neg Bool.false_ne_true

@[simp] theorem taken_append {log' : List (Event limit)} :
    taken (log ++ log') = taken log + taken log' :=
  List.countP_append

theorem Runs.cursor_eq (h : b.Runs r log x r') :
    r'.ahead.cursor = r.ahead.cursor.skip (taken log) := by
  induction h with
  | give | tooDeep _ => rfl
  | look _ ih => exact ih
  | advance _ ih =>
    rw [taken_advance]
    exact ih
  | call _ _ ih ih' =>
    rw [taken_call, taken_append, ← Cursor.skip_skip, ← ih]
    exact ih'
  | callFailed _ ih =>
    rw [taken_call]
    exact ih
  | nested _ _ _ ih ih' =>
    rw [taken_append, ← Cursor.skip_skip]
    exact ih'.trans (congrArg (Cursor.skip · _) ih)
  | nestedFailed _ _ ih => exact ih

theorem Runs.left_eq (h : b.Runs r log x r')
    (hs : ∀ a, .advance a ∈ log → a.current.isStop = false) :
    r.left = r'.left + taken log := by
  induction h with
  | give | tooDeep _ => rfl
  | look _ ih => exact ih hs
  | advance _ ih =>
    have hstep := Reader.left_advance (hs _ List.mem_cons_self)
    have hrest := ih (fun a ha => hs a (by simp [ha]))
    rw [taken_advance]
    omega
  | call _ _ ih ih' =>
    have hfirst := ih (fun a ha => hs a (by simp [ha]))
    have hrest := ih' (fun a ha => hs a (by simp [ha]))
    rw [taken_call, taken_append]
    omega
  | callFailed _ ih =>
    rw [taken_call]
    exact ih (fun a ha => hs a (by simp [ha]))
  | nested _ _ _ ih ih' =>
    have hfirst := ih (fun a ha => hs a (by simp [ha]))
    have hrest := ih' (fun a ha => hs a (by simp [ha]))
    rw [Reader.left_enter] at hfirst
    rw [Reader.left_leave] at hrest
    rw [taken_append]
    omega
  | nestedFailed _ _ ih => exact ih hs

variable {p : Routine} {moved : Bool} {known : Option Token}

theorem lex_of_proper {q : Routine} {next : Int → Script}
    (hb : (Script.call q next).Proper p moved known)
    (hle : r.left ≤ r₀.left) (hlt : moved → r.left < r₀.left) :
    Prod.Lex (· < ·) (· < ·) (r.left, q.rank) (r₀.left, p.rank) := by
  cases moved with
  | true => exact .left _ _ (hlt rfl)
  | false =>
    rcases Nat.lt_or_eq_of_le hle with h | h
    · exact .left _ _ h
    · rw [h]
      exact .right _ (hb.1 rfl)

theorem left_lt_of_or {t : Bool} {r₁ : Reader limit} (hle : r₁.left ≤ r.left)
    (hlt : moved → r.left < r₀.left) (ht : t → r₁.left < r₀.left) :
    (moved || t) → r₁.left < r₀.left := by
  rw [Bool.or_eq_true]
  rintro (hm | h)
  · exact Nat.lt_of_le_of_lt hle (hlt hm)
  · exact ht h

theorem Runs.sound (h : b.Runs r log x r') (hb : b.Proper p moved known)
    (hk : ∀ t ∈ known, t = r.current) (hle : r.left ≤ r₀.left) (hlt : moved → r.left < r₀.left) :
    (∀ e ∈ log, e.Sound p r₀) ∧ (p.takes → ∀ v, x = .ok v → r'.left < r₀.left) := by
  induction h generalizing p moved known r₀ with
  | give => exact ⟨by simp, fun hp v hv => hlt (hb hp ⟨v, hv⟩)⟩
  | tooDeep _ => exact ⟨by simp, by simp⟩
  | look _ ih => exact ih (hb _) (by simp) hle hlt
  | @advance _ r _ _ _ _ ih =>
    obtain ⟨⟨t, ht, hs⟩, hb⟩ := hb
    obtain rfl := hk t ht
    have hstep := Reader.left_advance hs
    have hless : r.advance.left < r₀.left := by omega
    obtain ⟨hlog, hvalue⟩ := ih hb (by simp) (Nat.le_of_lt hless) (fun _ => hless)
    exact ⟨List.forall_mem_cons.mpr ⟨hs, hlog⟩, hvalue⟩
  | @call q _ r r₁ _ _ _ v _ h _ ih ih' =>
    have hlex := lex_of_proper hb hle hlt
    obtain ⟨hlog, hvalue⟩ := ih (Routine.script_proper q) (by simp) (Nat.le_refl _) (by simp)
    have hleft := h.left_eq (fun a ha => hlog _ ha)
    have hless := left_lt_of_or (by omega) hlt (fun hq => Nat.lt_of_lt_of_le (hvalue hq v rfl) hle)
    obtain ⟨hlog', hvalue'⟩ := ih' (hb.2 v) (by simp) (by omega) hless
    refine ⟨List.forall_mem_cons.mpr ⟨hlex, List.forall_mem_append.mpr ⟨?_, hlog'⟩⟩, hvalue'⟩
    exact fun e he => (hlog e he).trans hlex
  | callFailed _ ih =>
    have hlex := lex_of_proper hb hle hlt
    obtain ⟨hlog, -⟩ := ih (Routine.script_proper _) (by simp) (Nat.le_refl _) (by simp)
    exact ⟨List.forall_mem_cons.mpr ⟨hlex, fun e he => (hlog e he).trans hlex⟩, by simp⟩
  | @nested _ _ r r₁ _ _ _ v _ _ h _ ih ih' =>
    obtain ⟨hlog, hvalue⟩ := ih hb.1 hk hle hlt
    have hleft := h.left_eq (fun a ha => hlog _ ha)
    rw [Reader.left_enter] at hleft
    have hless := left_lt_of_or (by omega) hlt (fun hp => hvalue hp v rfl)
    obtain ⟨hlog', hvalue'⟩ := ih' (hb.2 v) (by simp) (by rw [Reader.left_leave]; omega) hless
    exact ⟨List.forall_mem_append.mpr ⟨hlog, hlog'⟩, hvalue'⟩
  | nestedFailed _ _ ih =>
    obtain ⟨hlog, -⟩ := ih hb.1 hk hle hlt
    exact ⟨hlog, by simp⟩

end Script

theorem Reader.closes_of_level {limit : Nat} {l : Level} {r r' : Reader limit} {v : Int}
    (h : (r.level l).outcome = (.ok v, r')) : Closes l r'.current := by
  -- as many groups stand around the level as the reader has open
  have hd : r.depth = Evaluation.depth (List.replicate r.depth .group) := by
    simp [Evaluation.depth, List.countP_replicate, Frame.nests]
  have hs : (slot .sum (List.replicate r.depth .group)).rank ≤ l.rank := by
    cases r.depth with
    | zero => exact Nat.zero_le _
    | succ d => exact Nat.zero_le _
  have hf := level_agrees .sum l r _ hd hs
  generalize r.level l = z at h hf
  cases hf with
  | failure _ _ => cases h
  | value _ hc _ =>
    cases h
    exact hc

/-- Every routine returns, at every reader and under every limit. It runs in one way only; each
call on the way has fewer tokens before it, or as many and a lower rank; tokens are taken only
while there are any, and the cursor goes forward by those. A level that gives a value has taken a
token and stands before no operator of the level or a tighter one. With nothing open, this is how
expressions and statements are evaluated. -/
theorem Routine.run_ends (limit : Nat) (p : Routine) (r : Reader limit) :
    (∃ log, p.script.Runs r log (p.answer r).1 (p.answer r).2 ∧
      (∀ log' x r', p.script.Runs r log' x r' → log' = log ∧ (x, r') = p.answer r) ∧
      (∀ q a, .call q a ∈ log → Prod.Lex (· < ·) (· < ·) (a.left, q.rank) (r.left, p.rank)) ∧
      (∀ a, .advance a ∈ log → a.current.isStop = false ∧ a.advance.left < a.left) ∧
      (p.answer r).2.ahead.cursor = r.ahead.cursor.skip (Script.taken log) ∧
      (p.answer r).2.ahead.cursor.rest <:+ r.ahead.cursor.rest ∧
      r.left = (p.answer r).2.left + Script.taken log ∧
      ∀ l v, p = .level l → (p.answer r).1 = .ok v → 0 < Script.taken log ∧
        ∀ op : Operator, (p.answer r).2.current.actsAs op.kind → op.level.rank < l.rank) ∧
    ∀ a, r = .fresh limit a →
      (∀ l, p = .level l → p.answer r =
        ((a.expressionAt limit l).1, .fresh limit (a.expressionAt limit l).2)) ∧
      (p = .statement → p.answer r =
        ((a.statement limit).1, .fresh limit (a.statement limit).2)) := by
  constructor
  · obtain ⟨log, h⟩ := p.returns r
    obtain ⟨hsound, hvalue⟩ := h.sound p.script_proper (by simp) (Nat.le_refl r.left) (by simp)
    have hleft := h.left_eq (fun a ha => hsound _ ha)
    refine ⟨log, h, ?_, fun q a ha => hsound _ ha, ?_, h.cursor_eq, ?_, hleft, ?_⟩
    · intro log' x r' h'
      obtain ⟨rfl, rfl, rfl⟩ := h'.unique h
      exact ⟨rfl, rfl⟩
    · intro a ha
      have hs : a.current.isStop = false := hsound _ ha
      have := Reader.left_advance hs
      exact ⟨hs, by omega⟩
    · rw [h.cursor_eq]
      exact Cursor.suffix_skip (Nat.zero_le _)
    · rintro l v rfl hv
      have hlt := hvalue rfl v hv
      exact ⟨by omega, Reader.closes_of_level (Prod.ext hv rfl)⟩
  · rintro a rfl
    constructor
    · rintro l rfl
      exact Reader.level_fresh limit l a
    · rintro rfl
      exact Reader.answer_fresh .statement a

end Reckon
