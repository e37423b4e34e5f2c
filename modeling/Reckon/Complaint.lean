import Reckon.Cursor

set_option autoImplicit false

namespace Reckon

def malformedTokens (line : Text) : List Token := (tokens line).filter (fun t => t.kind.malformed)

structure Complaint where
  reported : Token
  malformed : List Token
  deriving DecidableEq, Repr

/-- The last word is reported, and without a word the last token of all. -/
def Complaint.ofTokens? (ts : List Token) : Option Complaint :=
  ((ts.reverse.find? (fun t => t.kind == .word)).or ts.getLast?).map (fun t => ⟨t, ts⟩)

def Complaint.message (c : Complaint) : Text :=
  "not a lexeme: '".toList ++ c.reported.lexeme ++ "' at ".toList ++ c.reported.location.text

def complaint? (line : Text) : Option Complaint := Complaint.ofTokens? (malformedTokens line)

def isBlankChar (c : Char) : Bool :=
  separates c || c == '\x00' || c == '\x07' || c == '\x08' || c == '\x0b' || c == '\x0c'

def isBlank (line : Text) : Bool := line.all isBlankChar

end Reckon
