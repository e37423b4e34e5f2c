import Reckon.Proofs.Lockstep
import Reckon.Proofs.Places

set_option autoImplicit false

namespace Reckon

open Evaluation

def Token.moved (before s : Text) (t : Token) : Token :=
  { t with location := t.location.moved before s }

def Failure.moved (before s : Text) (e : Failure) : Failure :=
  { e with location := e.location.moved before s }

namespace Lookahead

/-- The reader of a line after so many statements. -/
def walk (limit : Nat) (line : Text) : Nat → Lookahead
  | 0 => ofCursor (Cursor.start 1 line)
  | n + 1 => ((walk limit line n).statement limit).2

/-- The token in front of which the expression of the next statement is complete. -/
def terminator (limit : Nat) (r : Lookahead) : Token := (r.expression limit).2.current

/-- The offset at which the statement after so many begins: right after the lexeme that ends the
one before it. -/
def statementStart (limit : Nat) (line : Text) : Nat → Nat
  | 0 => 0
  | n + 1 =>
    let t := (walk limit line n).terminator limit
    t.location.offset + byteLength t.lexeme

end Lookahead

section Displacement

variable {before s : Text} {p q : Location} {c d : Cursor}

def Location.Displaced (before s : Text) (p q : Location) : Prop :=
  ∃ w, w <+: s ∧ p = (start 1).after (before ++ w) ∧ q = (start 1).after w

theorem Location.Displaced.eq_moved (h : p.Displaced before s q) : p = q.moved before s := by
  obtain ⟨w, hw, rfl, rfl⟩ := h
  rw [moved_after_start hw]

structure Cursor.Displaced (before s w : Text) (c d : Cursor) : Prop where
  text_eq : w ++ d.rest = s
  rest_eq : c.rest = d.rest
  here_fst : c.here = (Location.start 1).after (before ++ w)
  here_snd : d.here = (Location.start 1).after w

theorem Cursor.Displaced.next {w : Text} (h : c.Displaced before s w d) :
    c.next.1 = d.next.1.moved before s ∧ c.next.1.location.Displaced before s d.next.1.location ∧
      ∃ w', c.next.2.Displaced before s w' d.next.2 := by
  obtain ⟨p, rest⟩ := c
  obtain ⟨q, rest'⟩ := d
  obtain ⟨htext, hrest, rfl, rfl⟩ := h
  obtain rfl : rest = rest' := hrest
  dsimp only at htext
  have hsplit := List.takeWhile_append_dropWhile (p := separates) (l := rest)
  have hspot : (((Location.start 1).after (before ++ w)).after (rest.takeWhile separates)).Displaced
      before s (((Location.start 1).after w).after (rest.takeWhile separates)) := by
    refine ⟨w ++ rest.takeWhile separates, ⟨rest.dropWhile separates, ?_⟩, ?_, ?_⟩
    · rw [List.append_assoc, hsplit, htext]
    · rw [← Location.after_append, List.append_assoc]
    · rw [Location.after_append]
  unfold Cursor.next
  dsimp only
  split
  · next hrest =>
    rw [hrest, List.append_nil] at hsplit
    refine ⟨by rw [hspot.eq_moved]; rfl, hspot, w ++ rest, ?_, rfl, ?_, ?_⟩
    · rw [List.append_nil, htext]
    · rw [hsplit, ← Location.after_append, List.append_assoc]
    · rw [hsplit, Location.after_append]
  · next ch cs hrest =>
    have hread := Front.lexeme_append_rest ch cs
    refine ⟨by rw [hspot.eq_moved]; rfl, hspot,
      w ++ rest.takeWhile separates ++ (Front.read ch cs).lexeme, ?_, rfl, ?_, ?_⟩
    · rw [List.append_assoc, hread, List.append_assoc, ← hrest, hsplit, htext]
    · simp only [← Location.after_append, List.append_assoc]
    · simp only [Location.after_append]

theorem Cursor.Displaced.skip {w : Text} (h : c.Displaced before s w d) (n : Nat) :
    ∃ w', (c.skip n).Displaced before s w' (d.skip n) := by
  induction n generalizing c d w with
  | zero => exact ⟨w, h⟩
  | succ n ih =>
    obtain ⟨w', h'⟩ := h.next.2.2
    exact ih h'

theorem Cursor.Displaced.parallel {w : Text} (h : c.Displaced before s w d) :
    c.Parallel (Location.Displaced before s) d := by
  intro k _
  obtain ⟨w', hk⟩ := h.skip k
  obtain ⟨ht, hp, -⟩ := hk.next
  refine ⟨?_, hp⟩
  rw [tokenAt, ht]
  exact ⟨rfl, fun _ => rfl⟩

theorem Parallel.eq_mapError {x y : Except Failure Int}
    (h : Parallel (Location.Displaced before s) Eq x y) :
    x = y.mapError (Failure.moved before s) := by
  cases h with
  | value h => rw [h]; rfl
  | failure cause hp => rw [hp.eq_moved]; rfl

end Displacement

namespace Lookahead

variable {limit : Nat} {line : Text} {r : Lookahead} {c : Cursor} {v : Int}

theorem statement_eq_ok (h : (r.statement limit).1 = .ok v) :
    (r.expression limit).1 = .ok v ∧ (r.terminator limit).actsAs (.mark .semicolon false) ∧
      (r.statement limit).2 = (r.expression limit).2.advance := by
  unfold statement terminator at *
  generalize r.expression limit = x at *
  obtain ⟨x, r'⟩ := x
  cases x with
  | error e => cases h
  | ok w =>
    dsimp only at h ⊢
    split at h
    · next ht =>
      rw [if_pos ht]
      exact ⟨h, ht, rfl⟩
    · split at h <;> cases h

theorem expression_ofCursor (h : ((ofCursor c).expression limit).1 = .ok v) :
    ∃ n, ((ofCursor c).expression limit).2 = ofCursor (c.skip (n + 1)) := by
  obtain ⟨n, s, -, hd, he, hn⟩ := run_ofCursor limit .sum (.operand []) c
  cases n with
  | succ n => exact ⟨n, hn⟩
  | zero =>
    obtain rfl := Move.shift.inj hd
    have he' : (readOperand limit [] (c.tokenAt 0)).ending? = some (.ok v) :=
      he.trans (congrArg some h)
    cases hm : readOperand limit [] (c.tokenAt 0) with
    | shift s => rw [hm] at he'; cases he'
    | accept w => exact absurd hm readOperand_ne_accept
    | reject e => rw [hm] at he'; cases he'

theorem statement_ofCursor (h : ((ofCursor c).statement limit).1 = .ok v) :
    ∃ w s, c.rest = w ++ ((ofCursor c).terminator limit).lexeme ++ s ∧
      ((ofCursor c).terminator limit).location = c.here.after w ∧
      ((ofCursor c).statement limit).2 =
        ofCursor ⟨c.here.after (w ++ ((ofCursor c).terminator limit).lexeme), s⟩ ∧
      s.length < c.next.2.rest.length := by
  obtain ⟨hv, ht, hs⟩ := statement_eq_ok h
  obtain ⟨n, hn⟩ := expression_ofCursor hv
  have hnext : ((ofCursor c).statement limit).2 = ofCursor (c.skip (n + 1)).next.2 := by
    rw [hs, hn]; rfl
  have hterm : (ofCursor c).terminator limit = (c.skip (n + 1)).next.1 := by
    rw [terminator, hn]; rfl
  obtain ⟨w, hrest, hhere⟩ := c.exists_passed (n + 1)
  obtain ⟨w', hrest', hloc, hhere'⟩ := (c.skip (n + 1)).exists_passed_next
  rw [hterm] at ht ⊢
  refine ⟨w ++ w', (c.skip (n + 1)).next.2.rest, ?_, ?_, ?_, ?_⟩
  · rw [hrest, hrest']
    simp only [List.append_assoc]
  · rw [hloc, hhere, Location.after_append]
  · rw [hnext, Location.after_append, Location.after_append, ← hhere, ← hloc, ← hhere']
  · have hstop : (c.skip (n + 1)).next.1.isStop = false := by
      simp only [Token.isStop, beq_eq_false_iff_ne]
      intro hk
      simp [Token.actsAs, hk, Kind.head] at ht
    exact Nat.lt_of_lt_of_le (Cursor.length_rest_next hstop) (c.next.2.length_rest_skip n)

theorem walk_succ {n : Nat} {before s : Text}
    (hwalk : walk limit line n = ofCursor ⟨(Location.start 1).after before, s⟩)
    (h : ((walk limit line n).statement limit).1 = .ok v) :
    ∃ w s', s = w ++ s' ∧ byteLength (before ++ w) = statementStart limit line (n + 1) ∧
      walk limit line (n + 1) = ofCursor ⟨(Location.start 1).after (before ++ w), s'⟩ ∧
      s'.length < (walk limit line n).cursor.rest.length := by
  rw [hwalk] at h
  obtain ⟨w, s', hs, hloc, hnext, hlt⟩ := statement_ofCursor h
  rw [← hwalk] at hs hloc hnext
  refine ⟨w ++ ((walk limit line n).terminator limit).lexeme, s', hs, ?_, ?_, ?_⟩
  · rw [statementStart, hloc, Location.offset_after, Location.offset_after]
    simp only [byteLength_append, Location.start]
    omega
  · rw [walk, hnext, Location.after_append _ before]
  · rw [hwalk]
    exact hlt

theorem walk_eq {n : Nat} (h : ∀ i, i < n → ∃ v, ((walk limit line i).statement limit).1 = .ok v) :
    ∃ before s, line = before ++ s ∧ byteLength before = statementStart limit line n ∧
      walk limit line n = ofCursor ⟨(Location.start 1).after before, s⟩ := by
  induction n with
  | zero => exact ⟨[], line, rfl, rfl, rfl⟩
  | succ n ih =>
    obtain ⟨before, s, hline, -, hwalk⟩ := ih (fun i hi => h i (by omega))
    obtain ⟨v, hv⟩ := h n (by omega)
    obtain ⟨w, s', hs, hstart, hnext, -⟩ := walk_succ hwalk hv
    exact ⟨before ++ w, s', by rw [List.append_assoc, ← hs, hline], hstart, hnext⟩

/-- After any number of statements the next one is evaluated as the line that is left, with its
places moved by what was read, and the reader stands on the first token of that line. A statement
that succeeds ends with a `;` and leaves less to read. -/
theorem statement_walk {n : Nat}
    (h : ∀ i, i < n → ∃ v, ((walk limit line i).statement limit).1 = .ok v) :
    ∃ before s, line = before ++ s ∧ byteLength before = statementStart limit line n ∧
      ((walk limit line n).statement limit).1 =
        (evaluate limit s).mapError (Failure.moved before s) ∧
      (walk limit line n).current = (tokenAt s 0).moved before s ∧
      ∀ v, ((walk limit line n).statement limit).1 = .ok v →
        ((walk limit line n).terminator limit).actsAs (.mark .semicolon false) ∧
        statementStart limit line n < statementStart limit line (n + 1) ∧
        (walk limit line (n + 1)).cursor.rest.length < (walk limit line n).cursor.rest.length := by
  obtain ⟨before, s, hline, hstart, hwalk⟩ := walk_eq h
  have hd : (⟨(Location.start 1).after before, s⟩ : Cursor).Displaced before s [] (.start 1 s) :=
    ⟨rfl, rfl, by rw [List.append_nil], rfl⟩
  refine ⟨before, s, hline, hstart, ?_, ?_, ?_⟩
  · rw [hwalk]
    exact (statement_parallel hd.parallel).eq_mapError
  · rw [hwalk]
    exact hd.next.1
  · intro v hv
    obtain ⟨w, s', hs, hstart', hnext, hlt⟩ := walk_succ hwalk hv
    have hrest : (walk limit line n).cursor.rest.length ≤ s.length := by
      rw [hwalk]
      exact Cursor.length_rest_skip _ 1
    have hrest' : (walk limit line (n + 1)).cursor.rest.length ≤ s'.length := by
      rw [hnext]
      exact Cursor.length_rest_skip _ 1
    have hw := length_le_byteLength w
    rw [hs, List.length_append] at hrest
    rw [byteLength_append] at hstart'
    exact ⟨(statement_eq_ok hv).2.1, by omega, by omega⟩

/-- The second statement ends with `;=`, and the third fails on the third line. -/
theorem statement_walk_third :
    (∀ i, i < 2 → ∃ v, ((walk 1 "1+1;\n2 *3;=\n (4;".toList i).statement 1).1 = .ok v) ∧
      ∃ before s, "1+1;\n2 *3;=\n (4;".toList = before ++ s ∧
        byteLength before = statementStart 1 "1+1;\n2 *3;=\n (4;".toList 2 ∧
        ((walk 1 "1+1;\n2 *3;=\n (4;".toList 2).statement 1).1 =
          (evaluate 1 s).mapError (Failure.moved before s) ∧
        (walk 1 "1+1;\n2 *3;=\n (4;".toList 2).current = (tokenAt s 0).moved before s := by
  have h : ∀ i, i < 2 → ∃ v, ((walk 1 "1+1;\n2 *3;=\n (4;".toList i).statement 1).1 = .ok v := by
    intro i hi
    match i, hi with
    | 0, _ => exact ⟨2, by decide +kernel⟩
    | 1, _ => exact ⟨6, by decide +kernel⟩
  obtain ⟨before, s, hline, hstart, hx, hcurrent, -⟩ := statement_walk h
  exact ⟨h, before, s, hline, hstart, hx, hcurrent⟩

end Lookahead

end Reckon
