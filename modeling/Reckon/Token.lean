import Reckon.Location

/-!
Tokens: the marks of the language, the kinds of lexeme, and which kinds stand for one another.
A mark may carry a trailing `=`. Four marks make comparisons with it; every other extended mark
acts as the bare one.
-/

set_option autoImplicit false

namespace Reckon

inductive Mark where
  | plus | minus | star | slash | caret
  | less | greater | equal | bang
  | opening | closing | semicolon
  deriving DecidableEq, Repr

def Mark.toChar : Mark → Char
  | plus => '+'
  | minus => '-'
  | star => '*'
  | slash => '/'
  | caret => '^'
  | less => '<'
  | greater => '>'
  | equal => '='
  | bang => '!'
  | opening => '('
  | closing => ')'
  | semicolon => ';'

def Mark.ofChar? : Char → Option Mark
  | '+' => some plus
  | '-' => some minus
  | '*' => some star
  | '/' => some slash
  | '^' => some caret
  | '<' => some less
  | '>' => some greater
  | '=' => some equal
  | '!' => some bang
  | '(' => some opening
  | ')' => some closing
  | ';' => some semicolon
  | _ => none

theorem Mark.ofChar?_toChar (m : Mark) : ofChar? m.toChar = some m := by cases m <;> rfl

theorem Mark.toChar_of_ofChar? {c : Char} {m : Mark} (h : ofChar? c = some m) : m.toChar = c := by
  unfold ofChar? at h
  split at h <;> simp_all [toChar] <;> subst h <;> rfl

def Mark.extendsToComparison : Mark → Bool
  | less | greater | equal | bang => true
  | _ => false

/-- What a lexeme is. `stray` is a character that starts no lexeme and `stop` the end of the
text. -/
inductive Kind where
  | mark (m : Mark) (extended : Bool)
  | number
  | word
  | stray
  | stop
  deriving DecidableEq, Repr

/-- The kind that a kind is read as: an extended mark that is no comparison loses its `=`. -/
def Kind.head : Kind → Kind
  | mark m extended => mark m (extended && m.extendsToComparison)
  | k => k

def Kind.relational : Kind → Bool
  | mark .less _ | mark .greater _ | mark .equal true | mark .bang true => true
  | _ => false

def Kind.malformed : Kind → Bool
  | word | stray => true
  | _ => false

inductive Form where
  | blank
  | digits
  | letters
  | mark (m : Mark) (extended : Bool)
  deriving DecidableEq, Repr

/-- The kind of token a form makes. A run of blanks makes none of its own: with nothing after
it, it is the end of the text. -/
def Form.kind : Form → Kind
  | blank => .stop
  | digits => .number
  | letters => .word
  | mark m extended => .mark m extended

/-- A lexeme of a text and the place where it begins; the lexeme of `stop` is empty. -/
structure Token where
  kind : Kind
  lexeme : Text
  location : Location
  deriving DecidableEq, Repr

def Token.actsAs (t : Token) (k : Kind) : Bool := t.kind.head == k

def Token.isStop (t : Token) : Bool := t.kind == .stop

end Reckon
