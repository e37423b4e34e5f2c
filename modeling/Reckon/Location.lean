import Reckon.Decimal

set_option autoImplicit false

namespace Reckon

structure Location where
  line : Nat
  column : Nat
  offset : Nat
  deriving DecidableEq, Repr

def Location.start (line : Nat) : Location := ⟨line, 1, 0⟩

/-- The place right after one character: a newline starts the next line. Line numbers are words of
64 bits, so zero follows the largest one. -/
def Location.step (p : Location) (c : Char) : Location :=
  if c = '\n' then ⟨(p.line + 1) % UInt64.size, 1, p.offset + c.utf8Size⟩
  else ⟨p.line, p.column + 1, p.offset + c.utf8Size⟩

def Location.after (p : Location) (s : Text) : Location := s.foldl step p

@[simp] theorem Location.after_nil (p : Location) : p.after [] = p := rfl

theorem Location.after_append (p : Location) (s t : Text) :
    p.after (s ++ t) = (p.after s).after t := by
  simp [after]

def Location.text (p : Location) : Text :=
  Decimal.digits p.line ++ ':' :: Decimal.digits p.column ++ ':' :: Decimal.digits p.offset

end Reckon
