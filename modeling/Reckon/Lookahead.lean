import Reckon.Cursor
import Reckon.Evaluation

/-!
Evaluating the statements of a text. A lookahead is a cursor with one token read in advance.
Reading an expression or a statement leaves it on the first token that was not taken, whether
the reading succeeds or fails, and it can be read on from there.
-/

set_option autoImplicit false

namespace Reckon

structure Lookahead where
  current : Token
  cursor : Cursor
  deriving DecidableEq, Repr

def Lookahead.ofCursor (c : Cursor) : Lookahead := ⟨c.next.1, c.next.2⟩

def Lookahead.advance (r : Lookahead) : Lookahead := ofCursor r.cursor

/-- Bounds the tokens that are still to be taken; it is zero at the end of the text. -/
def Lookahead.unread (r : Lookahead) : Nat :=
  if r.current.isStop then 0 else r.cursor.rest.length + 1

theorem Lookahead.unread_advance_lt {r : Lookahead} (h : r.current.isStop = false) :
    r.advance.unread < r.unread := by
  by_cases hs : r.cursor.next.1.isStop = true
  · simp [unread, advance, ofCursor, h, hs]
  · have := Cursor.length_rest_next (Bool.eq_false_iff.mpr hs)
    simp [unread, advance, ofCursor, h, hs]
    omega

def Lookahead.run (limit : Nat) (floor : Level) (s : Evaluation.State) (r : Lookahead) :
    Except Failure Int × Lookahead :=
  match _ : Evaluation.step limit floor s r.current with
  | .shift s => run limit floor s r.advance
  | .accept v => (.ok v, r)
  | .reject e => (.error e, r)
termination_by r.unread
decreasing_by
  rename_i h
  apply unread_advance_lt
  cases hs : r.current.isStop with
  | false => rfl
  | true => exact absurd h (Evaluation.step_stop_ne_shift hs)

def Lookahead.expressionAt (limit : Nat) (level : Level) (r : Lookahead) :
    Except Failure Int × Lookahead :=
  r.run limit level (.operand [])

def Lookahead.expression (limit : Nat) (r : Lookahead) : Except Failure Int × Lookahead :=
  r.expressionAt limit .sum

/-- Reads an expression and the `;` after it. A `)` in its place closes a group that was never
opened. -/
def Lookahead.statement (limit : Nat) (r : Lookahead) : Except Failure Int × Lookahead :=
  match r.expression limit with
  | (.ok v, r) =>
    if r.current.actsAs (.mark .semicolon false) then (.ok v, r.advance)
    else if r.current.actsAs (.mark .closing false) then
      (.error ⟨.expected .opening, r.current.location⟩, r)
    else (.error ⟨.expected .semicolon, r.current.location⟩, r)
  | failed => failed

def evaluate (limit : Nat) (line : Text) : Except Failure Int :=
  ((Lookahead.ofCursor (Cursor.start 1 line)).statement limit).1

end Reckon
