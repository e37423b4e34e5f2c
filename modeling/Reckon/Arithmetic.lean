set_option autoImplicit false

namespace Reckon

inductive Fault where
  | divisionByZero
  | overflow
  deriving DecidableEq, Repr

def Fault.message : Fault → List Char
  | divisionByZero => "division by zero".toList
  | overflow => "integer overflow".toList

namespace Arithmetic

def least : Int := -9223372036854775808

def greatest : Int := 9223372036854775807

def InRange (n : Int) : Prop := least ≤ n ∧ n ≤ greatest

instance (n : Int) : Decidable (InRange n) := inferInstanceAs (Decidable (_ ∧ _))

def checked (n : Int) : Except Fault Int :=
  if InRange n then .ok n else .error .overflow

def divide (a b : Int) : Except Fault Int :=
  if b = 0 then .error .divisionByZero else checked (a.tdiv b)

def signPower (e : Int) : Int := if e % 2 = 0 then 1 else -1

/-- The real power, cut off toward zero. A base of two or more in magnitude is out of range at
the exponent 64, so no larger power is computed. -/
def power (b e : Int) : Except Fault Int :=
  if b = 0 then
    if e < 0 then .error .divisionByZero else .ok (if e = 0 then 1 else 0)
  else if b = 1 then .ok 1
  else if b = -1 then .ok (signPower e)
  else if e < 0 then .ok 0
  else if e < 64 then checked (Int.pow b e.toNat)
  else .error .overflow

end Arithmetic

end Reckon
