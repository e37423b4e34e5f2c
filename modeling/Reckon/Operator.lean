import Reckon.Arithmetic
import Reckon.Token

set_option autoImplicit false

namespace Reckon

inductive Comparison where
  | less | greater | lessEqual | greaterEqual | equal | notEqual
  deriving DecidableEq, Repr

def Comparison.holds : Comparison → Int → Int → Bool
  | less, a, b => a < b
  | greater, a, b => a > b
  | lessEqual, a, b => a ≤ b
  | greaterEqual, a, b => a ≥ b
  | equal, a, b => a = b
  | notEqual, a, b => a ≠ b

inductive Level where
  | sum | product | comparison | power | operand
  deriving DecidableEq, Repr

def Level.rank : Level → Nat
  | sum => 0
  | product => 1
  | comparison => 2
  | power => 3
  | operand => 4

inductive Operator where
  | add | subtract | multiply | divide | power
  | compare (c : Comparison)
  deriving DecidableEq, Repr

def Operator.ofKind? (k : Kind) : Option Operator :=
  match k.head with
  | .mark .plus _ => some add
  | .mark .minus _ => some subtract
  | .mark .star _ => some multiply
  | .mark .slash _ => some divide
  | .mark .caret _ => some power
  | .mark .less false => some (compare .less)
  | .mark .less true => some (compare .lessEqual)
  | .mark .greater false => some (compare .greater)
  | .mark .greater true => some (compare .greaterEqual)
  | .mark .equal true => some (compare .equal)
  | .mark .bang true => some (compare .notEqual)
  | _ => none

def Operator.level : Operator → Level
  | add | subtract => .sum
  | multiply | divide => .product
  | compare _ => .comparison
  | power => .power

/-- The level from which on the operators to the left are computed first. Powers are read from
the right, so a power waits for the powers after it. -/
def Operator.leftReach : Operator → Level
  | power => .operand
  | op => op.level

def Operator.apply : Operator → Int → Int → Except Fault Int
  | add, a, b => Arithmetic.checked (a + b)
  | subtract, a, b => Arithmetic.checked (a - b)
  | multiply, a, b => Arithmetic.checked (a * b)
  | divide, a, b => Arithmetic.divide a b
  | power, a, b => Arithmetic.power a b
  | compare c, a, b => .ok (if c.holds a b then 1 else 0)

end Reckon
