import Reckon.Complaint
import Reckon.Lookahead

set_option autoImplicit false

namespace Reckon

inductive Mode where
  | evaluate
  | list
  deriving DecidableEq, Repr

def defaultDepth : Nat := 100

structure Config where
  mode : Mode := .evaluate
  maxDepth : Nat := defaultDepth
  deriving DecidableEq, Repr

/-- The result of a line: a malformed lexeme, the value of its first statement, the error of its
first statement, or its lexemes in rows. -/
inductive Outcome where
  | lexical (c : Complaint)
  | value (v : Int)
  | failed (e : Failure)
  | listing (rows : Text)
  deriving DecidableEq, Repr

def Outcome.isError : Outcome → Bool
  | lexical _ | failed _ => true
  | value _ | listing _ => false

def Outcome.text : Outcome → Text
  | lexical c => "===> '".toList ++ c.reported.lexeme ++ "'\nLexical error: not a lexeme\n\n".toList
  | value v => "Syntax OK\nValue is ".toList ++ Decimal.signed v ++ "\n\n".toList
  | failed e =>
    let verdict := if e.cause.isMismatch then "Syntax Error" else "Runtime Error"
    "===> ".toList ++ e.cause.message ++ '\n' :: verdict.toList ++ "\n\n".toList
  | listing rows => rows ++ ['\n']

def Token.listed (t : Token) : Text :=
  if t.actsAs (.mark .semicolon false) then t.lexeme ++ ['\n'] else t.lexeme

def endRow (rows : Text) : Text :=
  match rows.getLast? with
  | none | some '\n' => rows
  | some _ => rows ++ ['\n']

def listing (lineNumber : Nat) (line : Text) : Text :=
  endRow ((Cursor.start lineNumber line).tokens.flatMap Token.listed)

/-- Interprets a line. Nothing is evaluated or listed on a line with a malformed lexeme. -/
def interpret (config : Config) (lineNumber : Nat) (line : Text) : Outcome :=
  match complaint? line with
  | some c => .lexical c
  | none =>
    match config.mode with
    | .evaluate =>
      match evaluate config.maxDepth line with
      | .ok v => .value v
      | .error e => .failed e
    | .list => .listing (listing lineNumber line)

end Reckon
