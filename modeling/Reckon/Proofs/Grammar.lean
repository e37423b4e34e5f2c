import Reckon.Failure
import Reckon.Proofs.Exact

/-!
The grammar of statements and its unambiguity. A tree is derived from the tokens it was written
with, every token counting as its head. Main statement: the tokens of an expression have one tree.
What decides this is which operators stand outside of every group, so groups are counted first.
-/

set_option autoImplicit false

namespace Reckon

def Operator.kind : Operator → Kind
  | add => .mark .plus false
  | subtract => .mark .minus false
  | multiply => .mark .star false
  | divide => .mark .slash false
  | power => .mark .caret false
  | compare .less => .mark .less false
  | compare .greater => .mark .greater false
  | compare .lessEqual => .mark .less true
  | compare .greaterEqual => .mark .greater true
  | compare .equal => .mark .equal true
  | compare .notEqual => .mark .bang true

def Operator.leftLevel : Operator → Level
  | add | subtract => .sum
  | multiply | divide => .product
  | compare _ => .comparison
  | power => .operand

def Operator.rightLevel : Operator → Level
  | add | subtract => .product
  | multiply | divide => .comparison
  | compare _ => .power
  | power => .power

/-- A syntax tree. Numbers keep their digits; a group has the place of its `(`. -/
inductive Tree where
  | number (digits : Text) (location : Location)
  | group (location : Location) (inner : Tree)
  | binary (op : Operator) (location : Location) (left right : Tree)
  deriving DecidableEq, Repr

/-- The expressions whose operators, outside of groups, bind at least as tightly as a level. -/
inductive Derives : Level → List Token → Tree → Prop where
  | number {l : Level} {t : Token} : t.actsAs .number → Derives l [t] (.number t.lexeme t.location)
  | group {l : Level} {o c : Token} {ts : List Token} {e : Tree} :
      o.actsAs (.mark .opening false) → Derives .sum ts e → c.actsAs (.mark .closing false) →
      Derives l (o :: ts ++ [c]) (.group o.location e)
  | binary {l : Level} {op : Operator} {t : Token} {ts us : List Token} {a b : Tree} :
      l.rank ≤ op.level.rank → Derives op.leftLevel ts a → t.actsAs op.kind →
      Derives op.rightLevel us b → Derives l (ts ++ t :: us) (.binary op t.location a b)

def Sentence (ts : List Token) (e : Tree) : Prop :=
  ∃ us t, ts = us ++ [t] ∧ Derives .sum us e ∧ t.actsAs (.mark .semicolon false)

def Tree.nesting : Tree → Nat
  | number _ _ => 0
  | group _ e => 1 + e.nesting
  | binary op _ a b => max a.nesting (if op = .power then 1 + b.nesting else b.nesting)

def located (location : Location) (r : Except Fault Int) : Except Failure Int :=
  r.mapError (fun f => ⟨.fault f, location⟩)

/-- The value of a tree over the unbounded integers, computed from left to right, when every number
and every result has to be in range. -/
def Tree.value : Tree → Except Failure Int
  | number ds location => located location (bounded (some (Decimal.value ds)))
  | group _ e => e.value
  | binary op location a b => do
    let x ← a.value
    let y ← b.value
    located location (bounded (op.exact x y))

theorem Derives.mono {l m : Level} {ts : List Token} {e : Tree} (h : Derives l ts e)
    (hm : m.rank ≤ l.rank) : Derives m ts e := by
  cases h with
  | number ht => exact .number ht
  | group ho he hc => exact .group ho he hc
  | binary hl ha ht hb => exact .binary (Nat.le_trans hm hl) ha ht hb

theorem Derives.ne_nil {l : Level} {ts : List Token} {e : Tree} (h : Derives l ts e) : ts ≠ [] := by
  cases h <;> simp

theorem Operator.head_kind (op : Operator) : op.kind.head = op.kind := by
  cases op with
  | compare c => cases c <;> rfl
  | _ => rfl

theorem Operator.ofKind?_eq_some {k : Kind} {op : Operator} :
    ofKind? k = some op ↔ k.head = op.kind := by
  constructor
  · intro h
    cases k with
    | mark m extended =>
      cases m <;> cases extended <;> simp [ofKind?, Kind.head, Mark.extendsToComparison] at h ⊢ <;>
        subst h <;> rfl
    | number | word | stray | stop => simp [ofKind?, Kind.head] at h
  · intro h
    unfold ofKind?
    rw [h]
    cases op with
    | compare c => cases c <;> rfl
    | _ => rfl

theorem Token.actsAs_kind_iff {t : Token} {op : Operator} :
    t.actsAs op.kind ↔ Operator.ofKind? t.kind = some op := by
  simp [actsAs, Operator.ofKind?_eq_some]

theorem Operator.eq_of_actsAs {t : Token} {op op' : Operator} (h : t.actsAs op.kind)
    (h' : t.actsAs op'.kind) : op = op' := by
  have ho := Token.actsAs_kind_iff.mp h
  rw [Token.actsAs_kind_iff.mp h'] at ho
  exact (Option.some.inj ho).symm

theorem Token.head_eq_of_actsAs {t : Token} {k : Kind} (h : t.actsAs k) : t.kind.head = k := by
  simpa [actsAs] using h

def balance (ts : List Token) : Int :=
  (ts.countP (fun t => t.actsAs (.mark .opening false)) : Int) -
    ts.countP (fun t => t.actsAs (.mark .closing false))

@[simp] theorem balance_nil : balance [] = 0 := rfl

theorem balance_append (ts us : List Token) : balance (ts ++ us) = balance ts + balance us := by
  simp only [balance, List.countP_append]
  omega

theorem balance_cons (t : Token) (ts : List Token) : balance (t :: ts) = balance [t] + balance ts :=
  balance_append [t] ts

theorem balance_opening {t : Token} (h : t.actsAs (.mark .opening false)) : balance [t] = 1 := by
  simp [balance, Token.actsAs, Token.head_eq_of_actsAs h]

theorem balance_closing {t : Token} (h : t.actsAs (.mark .closing false)) : balance [t] = -1 := by
  simp [balance, Token.actsAs, Token.head_eq_of_actsAs h]

theorem balance_number {t : Token} (h : t.actsAs .number) : balance [t] = 0 := by
  simp [balance, Token.actsAs, Token.head_eq_of_actsAs h]

theorem balance_operator {t : Token} {op : Operator} (h : t.actsAs op.kind) : balance [t] = 0 := by
  have hk := Token.head_eq_of_actsAs h
  cases op with
  | compare c => cases c <;> simp [balance, Token.actsAs, hk, Operator.kind]
  | _ => simp [balance, Token.actsAs, hk, Operator.kind]

theorem Derives.balance_eq_zero {l : Level} {ts : List Token} {e : Tree} (h : Derives l ts e) :
    balance ts = 0 := by
  induction h with
  | number ht => exact balance_number ht
  | group ho he hc ih =>
    rw [balance_append, balance_cons, balance_opening ho, balance_closing hc, ih]
    rfl
  | binary hl ha ht hb iha ihb =>
    rw [balance_append, balance_cons, balance_operator ht, iha, ihb]
    rfl

theorem balance_inside {o c : Token} {ts x y : List Token} (ho : o.actsAs (.mark .opening false))
    (hts : ∀ x, x <+: ts → 0 ≤ balance x) (h : o :: ts ++ [c] = x ++ y) (hx : x ≠ [])
    (hy : y ≠ []) :
    1 ≤ balance x := by
  obtain ⟨o', x, rfl⟩ := List.exists_cons_of_ne_nil hx
  obtain ⟨y, c', rfl⟩ := List.eq_nil_or_concat y |>.resolve_left hy
  simp only [List.cons_append, List.cons.injEq, ← List.append_assoc, List.concat_eq_append] at h
  obtain ⟨rfl, h⟩ := h
  have hp : x <+: ts := ⟨y, (List.append_inj_left' h rfl).symm⟩
  have h0 := hts x hp
  rw [balance_cons, balance_opening ho]
  omega

theorem Derives.balance_nonneg {l : Level} {ts x : List Token} {e : Tree} (h : Derives l ts e)
    (hx : x <+: ts) : 0 ≤ balance x := by
  induction h generalizing x with
  | number ht =>
    obtain ⟨y, hy⟩ := hx
    rcases List.append_eq_singleton_iff.mp hy with ⟨rfl, -⟩ | ⟨rfl, -⟩
    · simp
    · simp [balance_number ht]
  | @group l o c ts e ho he hc ih =>
    obtain ⟨y, hy⟩ := hx
    by_cases hn : x = []
    · simp [hn]
    by_cases hm : y = []
    · have hz := Derives.balance_eq_zero (.group (l := l) ho he hc)
      rw [← hy, hm, List.append_nil] at hz
      omega
    · have hi := balance_inside ho (fun _ hz => ih hz) hy.symm hn hm
      omega
  | binary hl ha ht hb iha ihb =>
    obtain ⟨y, hy⟩ := hx
    rcases List.append_eq_append_iff.mp hy with ⟨z, hz, -⟩ | ⟨z, rfl, hz⟩
    · exact iha ⟨z, hz.symm⟩
    · cases z with
      | nil => simp [ha.balance_eq_zero]
      | cons t z =>
        simp only [List.cons_append, List.cons.injEq] at hz
        obtain ⟨rfl, hz⟩ := hz
        have h0 := ihb ⟨y, hz.symm⟩
        rw [balance_append, balance_cons, ha.balance_eq_zero, balance_operator ht]
        omega

def delimiters : List Kind :=
  [.number, .mark .opening false, .mark .closing false, .mark .semicolon false]

theorem Operator.kind_not_mem_delimiters (op : Operator) : op.kind ∉ delimiters := by
  cases op with
  | compare c => cases c <;> decide
  | _ => decide

theorem Operator.not_actsAs {t : Token} {k : Kind} {op : Operator} (hk : k ∈ delimiters)
    (h : t.actsAs op.kind) : ¬ t.actsAs k := by
  intro h'
  have he : op.kind = k := (Token.head_eq_of_actsAs h).symm.trans (Token.head_eq_of_actsAs h')
  exact op.kind_not_mem_delimiters (he ▸ hk)

theorem split_cases {x y z w : List Token} {s t : Token} (h : x ++ s :: y = z ++ t :: w) :
    (x = z ∧ s = t ∧ y = w) ∨ (∃ m, z = x ++ s :: m ∧ y = m ++ t :: w) ∨
      (∃ m, x = z ++ t :: m ∧ w = m ++ s :: y) := by
  rcases List.append_eq_append_iff.mp h with ⟨m, rfl, hm⟩ | ⟨m, rfl, hm⟩
  · cases m with
    | nil => simp_all
    | cons a m =>
      obtain ⟨rfl, rfl⟩ := List.cons_eq_cons.mp hm
      exact .inr (.inl ⟨m, rfl, rfl⟩)
  · cases m with
    | nil => simp_all
    | cons a m =>
      obtain ⟨rfl, rfl⟩ := List.cons_eq_cons.mp hm
      exact .inr (.inr ⟨m, rfl, rfl⟩)

theorem Level.rank_le_operand (l : Level) : l.rank ≤ operand.rank := by
  cases l <;> simp [rank]

theorem Operator.level_le_operands (op : Operator) :
    op.level.rank ≤ op.leftLevel.rank ∧ op.level.rank ≤ op.rightLevel.rank := by
  cases op <;> simp [leftLevel, rightLevel, level, Level.rank]

theorem Derives.rank_le {l : Level} {ts x y : List Token} {e : Tree} {t : Token} {op : Operator}
    (h : Derives l ts e) (hs : ts = x ++ t :: y) (hx : balance x = 0) (ht : t.actsAs op.kind) :
    l.rank ≤ op.level.rank := by
  induction h generalizing x y with
  | number hn =>
    rcases List.append_eq_singleton_iff.mp hs.symm with ⟨-, hy⟩ | ⟨-, hy⟩
    · obtain ⟨rfl, -⟩ := List.cons_eq_cons.mp hy
      exact absurd hn (Operator.not_actsAs (by decide) ht)
    · simp at hy
  | group ho he hc ih =>
    cases x with
    | nil =>
      simp only [List.cons_append, List.nil_append, List.cons.injEq] at hs
      obtain ⟨rfl, -⟩ := hs
      exact absurd ho (Operator.not_actsAs (by decide) ht)
    | cons o x =>
      have hi := balance_inside ho (fun _ hz => he.balance_nonneg hz) hs (by simp) (by simp)
      omega
  | @binary l op' o ts us a b hl ha ho hb iha ihb =>
    have hop := op'.level_le_operands
    rcases split_cases hs with ⟨-, rfl, -⟩ | ⟨m, rfl, hm⟩ | ⟨m, rfl, -⟩
    · obtain rfl := Operator.eq_of_actsAs ho ht
      exact hl
    · rw [balance_append, balance_cons, ha.balance_eq_zero, balance_operator ho] at hx
      have h := ihb hm (by omega)
      omega
    · have h := iha rfl hx
      omega

/-- Two operators cannot each stand, outside of groups, in an operand of the other. -/
theorem Derives.no_crossing {op op' : Operator} {s t : Token} {x y z : List Token} {a b : Tree}
    (ha : Derives op'.leftLevel (x ++ s :: y) a) (hb : Derives op.rightLevel (y ++ t :: z) b)
    (hx : balance x = 0) (hs : s.actsAs op.kind) (ht : t.actsAs op'.kind) : False := by
  have hy : balance y = 0 := by
    have h := ha.balance_eq_zero
    rw [balance_append, balance_cons, balance_operator hs] at h
    omega
  have h₁ := ha.rank_le rfl hx hs
  have h₂ := hb.rank_le rfl hy ht
  cases op <;> cases op' <;>
    simp [Operator.leftLevel, Operator.rightLevel, Operator.level, Level.rank] at h₁ h₂

theorem Derives.number_ne_binary {l : Level} {s t : Token} {us vs : List Token} {a : Tree}
    (ha : Derives l us a) : [s] ≠ us ++ t :: vs := by
  intro h
  have hn := ha.ne_nil
  rcases List.append_eq_singleton_iff.mp h.symm with ⟨hu, -⟩ | ⟨-, hv⟩
  · exact hn hu
  · simp at hv

theorem Derives.group_ne_binary {l : Level} {o c t : Token} {ts us vs : List Token} {a e : Tree}
    (ho : o.actsAs (.mark .opening false)) (he : Derives .sum ts e) (ha : Derives l us a) :
    o :: ts ++ [c] ≠ us ++ t :: vs := by
  intro h
  have hi := balance_inside ho (fun _ hz => he.balance_nonneg hz) h ha.ne_nil (by simp)
  rw [ha.balance_eq_zero] at hi
  omega

theorem Derives.unique {l m : Level} {ts : List Token} {e e' : Tree} (h : Derives l ts e)
    (h' : Derives m ts e') : e = e' := by
  induction h generalizing m e' with
  | number ht =>
    generalize hs : [_] = ts at h'
    cases h' with
    | number ht' => simp_all
    | group ho he hc => simp at hs
    | binary hl ha ht' hb => exact absurd hs ha.number_ne_binary
  | group ho he hc ih =>
    generalize hs : _ :: _ ++ [_] = ts at h'
    cases h' with
    | number ht' => simp at hs
    | group ho' he' hc' =>
      simp only [List.cons_append, List.cons.injEq] at hs
      obtain ⟨rfl, hs⟩ := hs
      obtain rfl := List.append_inj_left' hs rfl
      rw [ih he']
    | binary hl ha ht' hb => exact absurd hs (Derives.group_ne_binary ho he ha)
  | binary hl ha ht hb iha ihb =>
    generalize hs : _ ++ _ :: _ = ts at h'
    cases h' with
    | number ht' => exact absurd hs.symm ha.number_ne_binary
    | group ho' he' hc' => exact absurd hs.symm (Derives.group_ne_binary ho' he' ha)
    | binary hl' ha' ht' hb' =>
      rcases split_cases hs with ⟨rfl, rfl, rfl⟩ | ⟨m, rfl, rfl⟩ | ⟨m, rfl, rfl⟩
      · obtain rfl := Operator.eq_of_actsAs ht ht'
        rw [iha ha', ihb hb']
      · exact (Derives.no_crossing ha' hb ha.balance_eq_zero ht ht').elim
      · exact (Derives.no_crossing ha hb' ha'.balance_eq_zero ht' ht).elim

theorem Derives.not_semicolon {l : Level} {ts : List Token} {e : Tree} {t : Token}
    (h : Derives l ts e) (ht : t ∈ ts) : ¬ t.actsAs (.mark .semicolon false) := by
  induction h with
  | number hn =>
    obtain rfl := List.mem_singleton.mp ht
    simp [Token.actsAs, Token.head_eq_of_actsAs hn]
  | group ho he hc ih =>
    simp only [List.cons_append, List.mem_cons, List.mem_append, List.not_mem_nil, or_false] at ht
    rcases ht with rfl | ht | rfl
    · simp [Token.actsAs, Token.head_eq_of_actsAs ho]
    · exact ih ht
    · simp [Token.actsAs, Token.head_eq_of_actsAs hc]
  | binary hl ha ho hb iha ihb =>
    simp only [List.mem_append, List.mem_cons] at ht
    rcases ht with ht | rfl | ht
    · exact iha ht
    · exact Operator.not_actsAs (by decide) ho
    · exact ihb ht

theorem Sentence.length_le_of_prefix {p p' ts : List Token} {e e' : Tree} (h : Sentence p e)
    (h' : Sentence p' e') (hp : p <+: ts) (hp' : p' <+: ts) : p.length ≤ p'.length := by
  obtain ⟨us, t, rfl, hu, -⟩ := h
  obtain ⟨us', t', rfl, -, ht'⟩ := h'
  -- otherwise the `;` of the second statement stands inside the first expression
  by_contra hlt
  simp only [List.length_append, List.length_singleton] at hlt
  have hpp : us' ++ [t'] <+: us :=
    List.prefix_of_prefix_length_le hp' ((List.prefix_append us [t]).trans hp)
      (by simp only [List.length_append, List.length_singleton]; omega)
  exact hu.not_semicolon (hpp.subset (by simp)) ht'

theorem Sentence.unique {p p' ts : List Token} {e e' : Tree} (h : Sentence p e)
    (h' : Sentence p' e') (hp : p <+: ts) (hp' : p' <+: ts) : p = p' ∧ e = e' := by
  have hle := h.length_le_of_prefix h' hp hp'
  have hge := h'.length_le_of_prefix h hp' hp
  have heq : p = p' := (List.prefix_of_prefix_length_le hp hp' hle).eq_of_length (by omega)
  subst heq
  obtain ⟨us, t, hs, hu, -⟩ := h
  obtain ⟨us', t', hs', hu', -⟩ := h'
  obtain rfl := List.append_inj_left' (hs.symm.trans hs') rfl
  exact ⟨rfl, hu.unique hu'⟩

end Reckon
