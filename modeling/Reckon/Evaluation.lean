import Reckon.Failure
import Reckon.Operator

/-!
Evaluation one token at a time. The stack holds the groups that are open and the operators that
still wait for their right operand, the innermost first; `step` says what one token does. A
value is computed as soon as the token after its right operand shows that the operand is
complete, so the fault that is reported is the first one in reading order.
-/

set_option autoImplicit false

namespace Reckon

namespace Evaluation

/-- What is still unfinished: an open group, or an operator with its left operand and its place. -/
inductive Frame where
  | group
  | pending (op : Operator) (left : Int) (location : Location)
  deriving DecidableEq, Repr

def Frame.nests : Frame → Bool
  | group => true
  | pending .power _ _ => true
  | pending _ _ _ => false

abbrev Stack := List Frame

def depth (stack : Stack) : Nat := stack.countP Frame.nests

/-- Where reading stands: before an operand, right after the `^` of a power, or after an
operand. -/
inductive State where
  | operand (stack : Stack)
  | exponent (base : Int) (location : Location) (stack : Stack)
  | value (v : Int) (stack : Stack)
  deriving DecidableEq, Repr

/-- What a token does: it is taken, or the value is complete in front of it, or it is refused. -/
inductive Move where
  | shift (s : State)
  | accept (v : Int)
  | reject (e : Failure)
  deriving DecidableEq, Repr

def compute (op : Operator) (location : Location) (a b : Int) : Except Failure Int :=
  (op.apply a b).mapError (fun f => ⟨.fault f, location⟩)

/-- Computes the waiting operators that bind at least as tightly as `level`. -/
def settle (level : Level) (v : Int) : Stack → Except Failure (Int × Stack)
  | .pending op left location :: stack =>
    if level.rank ≤ op.level.rank then do
      let v ← compute op location left v
      settle level v stack
    else .ok (v, .pending op left location :: stack)
  | stack => .ok (v, stack)

/-- Computes every waiting operator back to the innermost open group, and gives the stack
outside that group if there is one. -/
def unwind (v : Int) : Stack → Except Failure (Int × Option Stack)
  | .pending op left location :: stack => do
    let v ← compute op location left v
    unwind v stack
  | .group :: stack => .ok (v, some stack)
  | [] => .ok (v, none)

def State.afterOperator (op : Operator) (left : Int) (location : Location)
    (stack : Stack) : State :=
  match op with
  | .power => .exponent left location stack
  | op => .operand (.pending op left location :: stack)

def readOperand (limit : Nat) (stack : Stack) (t : Token) : Move :=
  match t.kind.head with
  | .mark .opening _ =>
    if depth stack < limit then .shift (.operand (.group :: stack))
    else .reject ⟨.nestingTooDeep limit, t.location⟩
  | .mark .closing _ => .reject ⟨.expected .opening, t.location⟩
  | .number =>
    match Arithmetic.checked (Decimal.value t.lexeme) with
    | .ok v => .shift (.value v stack)
    | .error f => .reject ⟨.fault f, t.location⟩
  | _ => .reject ⟨.expected .number, t.location⟩

/-- An operator, the end of a group, or the end of the whole expression. Operators that bind
more loosely than `floor` are left to the reader of the expression. -/
def readOperator (floor : Level) (v : Int) (stack : Stack) (t : Token) : Move :=
  match Operator.ofKind? t.kind with
  | some op =>
    match settle op.leftReach v stack with
    | .error e => .reject e
    | .ok (v, stack) =>
      if stack.isEmpty && decide (op.level.rank < floor.rank) then .accept v
      else .shift (State.afterOperator op v t.location stack)
  | none =>
    match unwind v stack with
    | .error e => .reject e
    | .ok (v, none) => .accept v
    | .ok (v, some stack) =>
      if t.actsAs (.mark .closing false) then .shift (.value v stack)
      else .reject ⟨.expected .closing, t.location⟩

def step (limit : Nat) (floor : Level) (s : State) (t : Token) : Move :=
  match s with
  | .operand stack => readOperand limit stack t
  | .exponent base location stack =>
    if depth stack < limit then readOperand limit (.pending .power base location :: stack) t
    else .reject ⟨.nestingTooDeep limit, t.location⟩
  | .value v stack => readOperator floor v stack t

theorem readOperand_stop {limit : Nat} {stack : Stack} {t : Token} (h : t.isStop = true) :
    readOperand limit stack t = .reject ⟨.expected .number, t.location⟩ := by
  have hk : t.kind = .stop := by simpa [Token.isStop] using h
  simp [readOperand, hk, Kind.head]

theorem step_stop_ne_shift {limit : Nat} {floor : Level} {s s' : State} {t : Token}
    (h : t.isStop = true) : step limit floor s t ≠ .shift s' := by
  have hk : t.kind = .stop := by simpa [Token.isStop] using h
  cases s with
  | operand stack => simp [step, readOperand_stop h]
  | exponent base location stack =>
    simp only [step]
    split
    · simp [readOperand_stop h]
    · simp
  | value v stack =>
    simp only [step, readOperator, hk, Operator.ofKind?, Kind.head, Token.actsAs]
    split <;> simp

end Evaluation

end Reckon
