import Reckon.Proofs.Places

set_option autoImplicit false

namespace Reckon

namespace Tape

inductive Operation where
  | token
  | item
  | drain
  | rewind
  | text
  deriving DecidableEq, Repr

inductive Answer where
  | token (t : Token)
  | item (t : Option Token)
  | items (ts : List Token)
  | done
  | text (s : Text)
  deriving DecidableEq, Repr

def perform (t : Tape) : Operation → Answer × Tape
  | .token => (.token t.next.1, t.next.2)
  | .item => (.item t.next?.1, t.next?.2)
  | .drain => (.items t.drain.1, t.drain.2)
  | .rewind => (.done, t.rewind)
  | .text => (.text t.text, t)

def after (t : Tape) : List Operation → Tape
  | [] => t
  | op :: ops => (t.perform op).2.after ops

def session (t : Tape) : List Operation → List (Answer × Text)
  | [] => []
  | op :: ops => ((t.perform op).1, (t.perform op).2.unread) :: (t.perform op).2.session ops

end Tape

def dropBytes : Nat → Text → Text
  | _, [] => []
  | n, c :: s => if n = 0 then c :: s else dropBytes (n - c.utf8Size) s

theorem dropBytes_append (s t : Text) : dropBytes (byteLength s) (s ++ t) = t := by
  induction s with
  | nil => cases t <;> simp [dropBytes]
  | cons c s ih =>
    have hpos := c.utf8Size_pos
    have hne : ¬ c.utf8Size + byteLength s = 0 := by omega
    rw [byteLength_cons, List.cons_append, dropBytes, if_neg hne, Nat.add_sub_cancel_left, ih]

namespace Cursor

variable {c : Cursor} {k : Nat}

theorem here_after_rest (c : Cursor) (k : Nat) :
    (c.skip k).here.after (c.skip k).rest = c.here.after c.rest := by
  obtain ⟨w, hrest, hhere⟩ := c.exists_passed k
  rw [hhere, hrest, Location.after_append]

theorem next_of_le (h : c.tokens.length ≤ k) :
    (c.skip k).next = (⟨.stop, [], c.here.after c.rest⟩, ⟨c.here.after c.rest, []⟩) := by
  rw [next_of_blank (stop_iff.mp (tokenAt_of_le h)), here_after_rest]

theorem skip_of_lt (h : c.tokens.length < k) : c.skip k = ⟨c.here.after c.rest, []⟩ := by
  obtain ⟨k, rfl⟩ : ∃ j, k = j + 1 := ⟨k - 1, by omega⟩
  rw [skip_succ, next_of_le (by omega)]

theorem getElem?_tokens (c : Cursor) (k : Nat) :
    c.tokens[k]? = if (c.tokenAt k).isStop then none else some (c.tokenAt k) := by
  by_cases hk : k < c.tokens.length
  · obtain ⟨ht, hs⟩ := tokenAt_of_lt hk
    rw [ht, if_neg (by simp [hs])]
  · have hle := Nat.le_of_not_lt hk
    rw [List.getElem?_eq_none hle, if_pos (tokenAt_of_le hle)]

theorem drain_snd (c : Cursor) : c.drain.2 = ⟨c.here.after c.rest, []⟩ := by
  induction hn : c.rest.length using Nat.strongRecOn generalizing c with
  | ind n ih =>
    rw [drain]
    split
    · next hs => rw [next_of_blank (stop_iff.mp hs)]
    · next hs =>
      have hlt := length_rest_next (Bool.eq_false_iff.mpr hs)
      dsimp only
      rw [ih _ (hn ▸ hlt) c.next.2 rfl]
      exact congrArg (Cursor.mk · []) (c.here_after_rest 1)

theorem exists_before (c : Cursor) (k : Nat) :
    ∃ before, c.rest = before ++ (c.tokenAt k).lexeme ++ (c.skip (k + 1)).rest ∧
      (c.tokenAt k).location = c.here.after before := by
  obtain ⟨w, hrest, hhere⟩ := c.exists_passed k
  obtain ⟨w', hrest', hloc, -⟩ := (c.skip k).exists_passed_next
  refine ⟨w ++ w', ?_, ?_⟩
  · rw [hrest, hrest', skip_succ, tokenAt]
    simp only [List.append_assoc]
  · rw [tokenAt, hloc, hhere, Location.after_append]

theorem suffix_skip {j : Nat} (h : j ≤ k) : (c.skip k).rest <:+ (c.skip j).rest := by
  obtain ⟨w, hrest, -⟩ := (c.skip j).exists_passed (k - j)
  rw [skip_skip, Nat.add_sub_cancel' h] at hrest
  exact ⟨w, hrest.symm⟩

end Cursor

/-- A token that stands in a text right after `before`, with `rest` after it. -/
structure Token.StandsIn (firstLine : Nat) (s before rest : Text) (t : Token) : Prop where
  text_eq : s = before ++ t.lexeme ++ rest
  line_eq : t.location.line = firstLine + before.count '\n'
  column_eq : t.location.column = 1 + (lastLine before).length
  offset_eq : t.location.offset = byteLength before
  shown : t.location.text = Decimal.digits (firstLine + before.count '\n') ++ ':' ::
    Decimal.digits (1 + (lastLine before).length) ++ ':' :: Decimal.digits (byteLength before)
  stop : t.isStop → before = s

theorem Token.StandsIn.of_location {firstLine : Nat} {s before rest : Text} {t : Token}
    (h : firstLine + s.count '\n' < 2 ^ 64) (htext : s = before ++ t.lexeme ++ rest)
    (hloc : t.location = (Location.start firstLine).after before)
    (hstop : t.isStop → t.lexeme = [] ∧ rest = []) : t.StandsIn firstLine s before rest := by
  have hcount : before.count '\n' ≤ s.count '\n' := by
    rw [htext, List.append_assoc, List.count_append]
    exact Nat.le_add_right _ _
  rw [Location.after_start (by omega), Nat.mod_eq_of_lt (by omega)] at hloc
  refine ⟨htext, by rw [hloc], by rw [hloc], by rw [hloc], by rw [hloc]; rfl, ?_⟩
  intro hs
  obtain ⟨hl, hr⟩ := hstop hs
  rw [htext, hl, hr, List.append_nil, List.append_nil]

def stopToken (firstLine : Nat) (s : Text) : Token :=
  ⟨.stop, [], (Location.start firstLine).after s⟩

namespace Tape

def Operation.answer (firstLine : Nat) (s : Text) (k : Nat) : Operation → Answer
  | token => .token ((Cursor.start firstLine s).tokens[k]?.getD (stopToken firstLine s))
  | item => .item (Cursor.start firstLine s).tokens[k]?
  | drain => .items ((Cursor.start firstLine s).tokens.drop k)
  | rewind => .done
  | text => .text s

/-- How many tokens a tape has given after an operation, when it had given `k`. The end of the
text is given like a token. -/
def Operation.count (firstLine : Nat) (s : Text) (k : Nat) : Operation → Nat
  | token | item => k + 1
  | drain => max k (Cursor.start firstLine s).tokens.length + 1
  | rewind => 0
  | text => k

/-- What is unread after `k` tokens: all that follows the last of them, and nothing after
the end. -/
def unreadAfter (firstLine : Nat) (s : Text) : Nat → Text
  | 0 => s
  | k + 1 =>
    match (Cursor.start firstLine s).tokens[k]? with
    | some t => dropBytes (t.location.offset + byteLength t.lexeme) s
    | none => []

def counted (firstLine : Nat) (s : Text) : Nat → List Operation → Nat
  | k, [] => k
  | k, op :: ops => counted firstLine s (op.count firstLine s k) ops

def taken (firstLine : Nat) (s : Text) (k : Nat) : Tape :=
  ⟨s, firstLine, (Cursor.start firstLine s).skip k⟩

variable {firstLine : Nat} {s : Text}

theorem tokenAt_start (firstLine : Nat) (s : Text) (k : Nat) :
    (Cursor.start firstLine s).tokenAt k =
      (Cursor.start firstLine s).tokens[k]?.getD (stopToken firstLine s) := by
  by_cases hk : k < (Cursor.start firstLine s).tokens.length
  · rw [(Cursor.tokenAt_of_lt hk).1, Option.getD_some]
  · have hle := Nat.le_of_not_lt hk
    rw [List.getElem?_eq_none hle, Option.getD_none, Cursor.tokenAt, Cursor.next_of_le hle]
    rfl

theorem unread_taken (firstLine : Nat) (s : Text) (k : Nat) :
    (taken firstLine s k).unread = unreadAfter firstLine s k := by
  cases k with
  | zero => rfl
  | succ k =>
    rw [unreadAfter]
    by_cases hk : k < (Cursor.start firstLine s).tokens.length
    · rw [(Cursor.tokenAt_of_lt hk).1]
      obtain ⟨before, hs, hloc⟩ := (Cursor.start firstLine s).exists_before k
      have hoffset : ((Cursor.start firstLine s).tokenAt k).location.offset =
          byteLength before := by
        rw [hloc, Location.offset_after]
        exact Nat.zero_add _
      have hrest : before ++ ((Cursor.start firstLine s).tokenAt k).lexeme ++
          (taken firstLine s (k + 1)).unread = s := hs.symm
      have hdrop := dropBytes_append (before ++ ((Cursor.start firstLine s).tokenAt k).lexeme)
        (taken firstLine s (k + 1)).unread
      rw [hrest, byteLength_append, ← hoffset] at hdrop
      exact hdrop.symm
    · have hle := Nat.le_of_not_lt hk
      rw [List.getElem?_eq_none hle, unread, taken, Cursor.skip_of_lt (by omega)]

/-- What one operation does to a tape that has given `k` tokens. -/
theorem perform_taken (firstLine : Nat) (s : Text) (k : Nat) (op : Operation) :
    (taken firstLine s k).perform op =
      (op.answer firstLine s k, taken firstLine s (op.count firstLine s k)) := by
  have hnext : (taken firstLine s k).next =
      ((Cursor.start firstLine s).tokenAt k, taken firstLine s (k + 1)) := by
    simp only [next, taken, Cursor.tokenAt, Cursor.skip_succ]
  cases op with
  | token => rw [perform, hnext, tokenAt_start, Operation.answer, Operation.count]
  | item => rw [perform, next?, hnext, Operation.answer, Operation.count, Cursor.getElem?_tokens]
  | drain =>
    -- Draining meets the end of the text too, and that moves the cursor over the last blanks.
    have hall : ((Cursor.start firstLine s).skip k).drain.1 =
        (Cursor.start firstLine s).tokens.drop k := Cursor.tokens_skip _ k
    have hlast : ((Cursor.start firstLine s).skip k).drain.2 =
        (Cursor.start firstLine s).skip (max k (Cursor.start firstLine s).tokens.length + 1) := by
      rw [Cursor.drain_snd, Cursor.here_after_rest, Cursor.skip_of_lt (by omega)]
    simp only [perform, drain, taken, hlast, hall, Operation.answer, Operation.count]
  | rewind => rfl
  | text => rfl

theorem after_taken (firstLine : Nat) (s : Text) (k : Nat) (ops : List Operation) :
    (taken firstLine s k).after ops = taken firstLine s (counted firstLine s k ops) := by
  induction ops generalizing k with
  | nil => rfl
  | cons op ops ih => rw [after, perform_taken, ih, counted]

theorem after_load (firstLine : Nat) (s : Text) (ops : List Operation) :
    (load firstLine s).after ops = taken firstLine s (counted firstLine s 0 ops) :=
  after_taken firstLine s 0 ops

theorem stands_tokenAt (h : firstLine + s.count '\n' < 2 ^ 64) (k : Nat) :
    ∃ before, ((Cursor.start firstLine s).tokenAt k).StandsIn firstLine s before
      ((Cursor.start firstLine s).skip (k + 1)).rest := by
  obtain ⟨before, htext, hloc⟩ := (Cursor.start firstLine s).exists_before k
  refine ⟨before, .of_location h htext hloc ?_⟩
  intro hs
  rw [Cursor.skip_succ, Cursor.tokenAt, Cursor.next_of_blank (Cursor.stop_iff.mp hs)]
  exact ⟨rfl, rfl⟩

/-- Whatever was asked of a tape before, every token that it gives stands in the text where its
place says, with what is unread right after it, and the end of the text stands after all of it. -/
theorem stands_next (h : firstLine + s.count '\n' < 2 ^ 64) (ops : List Operation) :
    (∃ before, ((load firstLine s).after ops).next.1.StandsIn firstLine s before
      ((load firstLine s).after ops).next.2.unread) ∧
    (∀ t, ((load firstLine s).after ops).next?.1 = some t →
      ∃ before, t.StandsIn firstLine s before ((load firstLine s).after ops).next?.2.unread) ∧
    ∀ t ∈ ((load firstLine s).after ops).drain.1, ∃ before rest,
      t.StandsIn firstLine s before rest := by
  rw [after_load]
  generalize counted firstLine s 0 ops = k
  have hnext : ∃ before, (taken firstLine s k).next.1.StandsIn firstLine s before
      (taken firstLine s k).next.2.unread := by
    obtain ⟨before, hb⟩ := stands_tokenAt h k
    rw [Cursor.skip_succ] at hb
    exact ⟨before, hb⟩
  refine ⟨hnext, ?_, ?_⟩
  · intro t ht
    rw [next?] at ht
    split at ht
    · cases ht
    · obtain rfl := Option.some.inj ht
      exact hnext
  · intro t ht
    have ht : t ∈ ((Cursor.start firstLine s).skip k).tokens := ht
    rw [Cursor.tokens_skip] at ht
    obtain ⟨i, -, rfl⟩ := Cursor.exists_tokenAt (List.mem_of_mem_drop ht)
    obtain ⟨before, hb⟩ := stands_tokenAt h i
    exact ⟨before, _, hb⟩

theorem stands_next_third :
    7 + "é\n→ 12".toList.count '\n' < 2 ^ 64 ∧
      ∃ before, ((load 7 "é\n→ 12".toList).after [.drain, .rewind, .token, .item]).next.1.StandsIn 7
        "é\n→ 12".toList before
        ((load 7 "é\n→ 12".toList).after [.drain, .rewind, .token, .item]).next.2.unread := by
  have h : 7 + "é\n→ 12".toList.count '\n' < 2 ^ 64 := by decide
  exact ⟨h, (stands_next h [.drain, .rewind, .token, .item]).1⟩

theorem session_taken (firstLine : Nat) (s : Text) (k : Nat) (ops : List Operation) :
    ((taken firstLine s k).session ops).length = ops.length ∧
    ∀ (i : Nat) (op : Operation), ops[i]? = some op →
      ((taken firstLine s k).session ops)[i]? =
        some (op.answer firstLine s (counted firstLine s k (ops.take i)),
          unreadAfter firstLine s (op.count firstLine s (counted firstLine s k (ops.take i)))) := by
  induction ops generalizing k with
  | nil => exact ⟨rfl, by simp⟩
  | cons op ops ih =>
    obtain ⟨hlen, hi⟩ := ih (op.count firstLine s k)
    rw [session, perform_taken, unread_taken]
    refine ⟨by rw [List.length_cons, List.length_cons, hlen], ?_⟩
    intro i op' hop
    cases i with
    | zero =>
      obtain rfl : op = op' := by simpa using hop
      rfl
    | succ i => exact hi i op' hop

theorem session_append (t : Tape) (ops ops' : List Operation) :
    t.session (ops ++ ops') = t.session ops ++ (t.after ops).session ops' := by
  induction ops generalizing t with
  | nil => rfl
  | cons op ops ih => rw [List.cons_append, session, ih, session, after, List.cons_append]

theorem Operation.le_count {op : Operation} {k : Nat} (h : op ≠ .rewind) :
    k ≤ op.count firstLine s k := by
  cases op with
  | rewind => exact absurd rfl h
  | token | item => exact Nat.le_succ k
  | drain => exact Nat.le_succ_of_le (Nat.le_max_left k _)
  | text => exact Nat.le_refl k

theorem unreadAfter_suffix {j k : Nat} (h : j ≤ k) :
    unreadAfter firstLine s k <:+ unreadAfter firstLine s j := by
  rw [← unread_taken, ← unread_taken]
  exact Cursor.suffix_skip h

/-- What a tape answers, and what is unread then, is told by the number of tokens that it has
given since it was last at its beginning. Its own tokens are never the end of the text, winding
back makes it a new tape, and otherwise less and less is unread. -/
theorem session_counted (firstLine : Nat) (s : Text) (ops : List Operation) :
    ((load firstLine s).session ops).length = ops.length ∧
    (∀ (i : Nat) (op : Operation), ops[i]? = some op →
      ((load firstLine s).session ops)[i]? =
        some (op.answer firstLine s (counted firstLine s 0 (ops.take i)),
          unreadAfter firstLine s (op.count firstLine s (counted firstLine s 0 (ops.take i))))) ∧
    (∀ t ∈ (Cursor.start firstLine s).tokens, t.isStop = false) ∧
    (∀ ops', (load firstLine s).session (ops ++ .rewind :: ops') =
      (load firstLine s).session ops ++ (.done, s) :: (load firstLine s).session ops') ∧
    ∀ (k : Nat) (op : Operation), op ≠ .rewind →
      unreadAfter firstLine s (op.count firstLine s k) <:+ unreadAfter firstLine s k := by
  obtain ⟨hlen, hi⟩ := session_taken firstLine s 0 ops
  refine ⟨hlen, hi, ?_, ?_, ?_⟩
  · intro t ht
    obtain ⟨k, hk, rfl⟩ := Cursor.exists_tokenAt ht
    exact (Cursor.tokenAt_of_lt hk).2
  · intro ops'
    rw [session_append, after_load, session, perform_taken]
    rfl
  · intro k op hop
    exact unreadAfter_suffix (Operation.le_count hop)

end Tape

end Reckon
