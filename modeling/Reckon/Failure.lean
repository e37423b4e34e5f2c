import Reckon.Arithmetic
import Reckon.Location

set_option autoImplicit false

namespace Reckon

inductive Expected where
  | opening
  | closing
  | semicolon
  | number
  deriving DecidableEq, Repr

def Expected.text : Expected → Text
  | opening => ['(']
  | closing => [')']
  | semicolon => [';']
  | number => "int_literal".toList

inductive Cause where
  | expected (e : Expected)
  | fault (f : Fault)
  | nestingTooDeep (limit : Nat)
  deriving DecidableEq, Repr

def Cause.message : Cause → Text
  | expected e => '\'' :: e.text ++ "' expected".toList
  | fault f => f.message
  | nestingTooDeep limit =>
    "maximum nesting depth of ".toList ++ Decimal.digits limit ++ " exceeded".toList

def Cause.isMismatch : Cause → Bool
  | expected _ => true
  | _ => false

/-- Why there is no value, and the place of the token where that was found. -/
structure Failure where
  cause : Cause
  location : Location
  deriving DecidableEq, Repr

end Reckon
