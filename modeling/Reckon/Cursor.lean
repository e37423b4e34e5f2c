import Reckon.Token

/-!
Reading a text token by token. A cursor stands somewhere in a text; `next` skips the blanks in
front of it and takes the longest lexeme that follows. Main statements: a lexeme and what is
left of the text are the text that was there, and every token but `stop` shortens the rest.
-/

set_option autoImplicit false

namespace Reckon

def separates (c : Char) : Bool := c == ' ' || c == '\t' || c == '\n' || c == '\r'

/-- A run at the front of a text with what follows it. A run without a form is a single
character that no lexeme starts with. -/
structure Front where
  form : Option Form
  lexeme : Text
  rest : Text
  deriving DecidableEq, Repr

def Front.read (c : Char) (cs : Text) : Front :=
  if c.isDigit then ⟨some .digits, c :: cs.takeWhile Char.isDigit, cs.dropWhile Char.isDigit⟩
  else if c.isAlpha then ⟨some .letters, c :: cs.takeWhile Char.isAlpha, cs.dropWhile Char.isAlpha⟩
  else match Mark.ofChar? c, cs with
    | some m, '=' :: rest => ⟨some (.mark m true), [c, '='], rest⟩
    | some m, rest => ⟨some (.mark m false), [c], rest⟩
    | none, rest => ⟨none, [c], rest⟩

def Front.kind (f : Front) : Kind := (f.form.map Form.kind).getD .stray

theorem Front.lexeme_append_rest (c : Char) (cs : Text) :
    (read c cs).lexeme ++ (read c cs).rest = c :: cs := by
  unfold read
  split
  · simp
  · split
    · simp
    · split <;> simp

theorem Front.length_rest_read (c : Char) (cs : Text) : (read c cs).rest.length ≤ cs.length := by
  unfold read
  split
  · exact (List.dropWhile_suffix _).length_le
  · split
    · exact (List.dropWhile_suffix _).length_le
    · split <;> simp

theorem Front.kind_read_ne_stop (c : Char) (cs : Text) : (read c cs).kind ≠ .stop := by
  unfold read
  split
  · simp [kind, Form.kind]
  · split
    · simp [kind, Form.kind]
    · split <;> simp [kind, Form.kind]

structure Cursor where
  here : Location
  rest : Text
  deriving DecidableEq, Repr

def Cursor.start (line : Nat) (s : Text) : Cursor := ⟨Location.start line, s⟩

/-- Takes the next token. At the end of the text this is `stop`, however often it is asked. -/
def Cursor.next (c : Cursor) : Token × Cursor :=
  let spot := c.here.after (c.rest.takeWhile separates)
  match c.rest.dropWhile separates with
  | [] => (⟨.stop, [], spot⟩, ⟨spot, []⟩)
  | ch :: cs =>
    let f := Front.read ch cs
    (⟨f.kind, f.lexeme, spot⟩, ⟨spot.after f.lexeme, f.rest⟩)

theorem Cursor.length_rest_next {c : Cursor} (h : c.next.1.isStop = false) :
    c.next.2.rest.length < c.rest.length := by
  have hd : (c.rest.dropWhile separates).length ≤ c.rest.length :=
    (List.dropWhile_suffix _).length_le
  unfold next at h ⊢
  dsimp only at h ⊢
  split at h
  · simp [Token.isStop] at h
  · next ch cs hs =>
    have hr := Front.length_rest_read ch cs
    simp only [hs, List.length_cons] at hd ⊢
    omega

def Cursor.drain (c : Cursor) : List Token × Cursor :=
  if c.next.1.isStop then ([], c.next.2)
  else
    let (ts, last) := c.next.2.drain
    (c.next.1 :: ts, last)
termination_by c.rest.length
decreasing_by
  rename_i h
  exact length_rest_next (by simpa using h)

def Cursor.tokens (c : Cursor) : List Token := c.drain.1

theorem Cursor.tokens_eq (c : Cursor) :
    c.tokens = if c.next.1.isStop then [] else c.next.1 :: c.next.2.tokens := by
  rw [tokens, drain]
  split <;> rfl

def Cursor.skip (c : Cursor) : Nat → Cursor
  | 0 => c
  | n + 1 => c.next.2.skip n

/-- A text with a cursor over it that can be wound back to the beginning. -/
structure Tape where
  text : Text
  firstLine : Nat
  cursor : Cursor
  deriving DecidableEq, Repr

def Tape.load (firstLine : Nat) (s : Text) : Tape := ⟨s, firstLine, Cursor.start firstLine s⟩

def Tape.next (t : Tape) : Token × Tape := (t.cursor.next.1, { t with cursor := t.cursor.next.2 })

def Tape.next? (t : Tape) : Option Token × Tape :=
  (if t.next.1.isStop then none else some t.next.1, t.next.2)

def Tape.drain (t : Tape) : List Token × Tape :=
  (t.cursor.drain.1, { t with cursor := t.cursor.drain.2 })

def Tape.rewind (t : Tape) : Tape := load t.firstLine t.text

def Tape.unread (t : Tape) : Text := t.cursor.rest

def tokens (s : Text) : List Token := (Cursor.start 1 s).tokens

end Reckon
