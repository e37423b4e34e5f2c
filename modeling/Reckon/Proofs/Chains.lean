import Reckon.Proofs.Descent
import Reckon.Proofs.Lexemes
import Reckon.Proofs.Nesting

set_option autoImplicit false

namespace Reckon

def Operator.symbol : Operator → Text
  | add => ['+']
  | subtract => ['-']
  | multiply => ['*']
  | divide => ['/']
  | power => ['^']
  | compare .less => ['<']
  | compare .greater => ['>']
  | compare .lessEqual => ['<', '=']
  | compare .greaterEqual => ['>', '=']
  | compare .equal => ['=', '=']
  | compare .notEqual => ['!', '=']

theorem Operator.levels_of_left (op : Operator) (h : op.level.rank < Level.power.rank) :
    op.leftLevel = op.level ∧ op.rightLevel = op.level.tighter := by
  cases op with
  | power => exact absurd h (Nat.lt_irrefl _)
  | _ => exact ⟨rfl, rfl⟩

theorem Operator.wellFormed_symbol (op : Operator) : Lexeme.WellFormed ⟨op.kind, op.symbol⟩ := by
  cases op with
  | add => exact .bare .plus
  | subtract => exact .bare .minus
  | multiply => exact .bare .star
  | divide => exact .bare .slash
  | power => exact .bare .caret
  | compare c =>
    cases c with
    | less => exact .bare .less
    | greater => exact .bare .greater
    | lessEqual => exact .extended .less
    | greaterEqual => exact .extended .greater
    | equal => exact .extended .equal
    | notEqual => exact .extended .bang

structure Token.Denotes (t : Token) (x : Nat) : Prop where
  number : t.actsAs .number
  value : Decimal.value t.lexeme = x
  inRange : Arithmetic.InRange x

theorem Token.Denotes.of_spelling {t : Token} {x : Nat}
    (h : t.spelling = ⟨.number, Decimal.digits x⟩) (hx : Arithmetic.InRange x) : t.Denotes x := by
  have hk : t.kind = .number := congrArg Lexeme.kind h
  have ht : t.lexeme = Decimal.digits x := congrArg Lexeme.text h
  exact ⟨by simp [actsAs, hk, Kind.head], by rw [ht, Decimal.value_digits], hx⟩

theorem Cursor.Faces.exists_tokens {c : Cursor} {blanks rest : Text} {l : Lexeme}
    (h : c.Faces blanks l rest) :
    ∃ (t : Token) (d : Cursor), c.tokens = t :: d.tokens ∧ t.spelling = l ∧ d.rest = rest := by
  refine ⟨c.next.1, c.next.2, tokens_of_not_stop h.not_stop, ?_, ?_⟩
  · rw [h.next_eq]
    rfl
  · rw [h.next_eq]

/-- Numbers with operators between them: the first number, and each later one after its operator. -/
structure Chain where
  first : Nat
  rest : List (Operator × Nat)
  deriving DecidableEq, Repr

namespace Chain

def numbers (c : Chain) : List Nat := c.first :: c.rest.map Prod.snd

def text (c : Chain) : Text :=
  Decimal.digits c.first ++ c.rest.flatMap (fun p => ' ' :: p.1.symbol ++ ' ' :: Decimal.digits p.2)

/-- Cuts the chain from `x` on at every operator of a level, into the first piece and the pieces
after the operators. -/
def cut (l : Level) (x : Nat) : List (Operator × Nat) → Chain × List (Operator × Chain)
  | [] => (⟨x, []⟩, [])
  | (op, y) :: rest =>
    let (piece, pieces) := cut l y rest
    if op.level = l then (⟨x, []⟩, (op, piece) :: pieces)
    else (⟨x, (op, piece.first) :: piece.rest⟩, pieces)

def combine (op : Operator) (a b : Option Int) : Option Int := do
  let a ← a
  let b ← b
  (bounded (op.exact a b)).toOption

def fromLeft (a : Option Int) (ps : List (Operator × Option Int)) : Option Int :=
  ps.foldl (fun a p => combine p.1 a p.2) a

def fromRight (a : Option Int) : List (Operator × Option Int) → Option Int
  | [] => a
  | p :: ps => combine p.1 a (fromRight p.2 ps)

/-- The value of a chain that is cut at some levels one after the other. Only powers are combined
from the right. -/
def value : List Level → Chain → Option Int
  | [], c => some c.first
  | l :: tighter, c =>
    let (piece, pieces) := cut l c.first c.rest
    let values := pieces.map (fun p => (p.1, value tighter p.2))
    if l = .power then fromRight (value tighter piece) values
    else fromLeft (value tighter piece) values

inductive Written (l : Level) : List Token → Chain → Prop where
  | one {t : Token} {x : Nat} : t.Denotes x → Written l [t] ⟨x, []⟩
  | more {t o : Token} {ts : List Token} {op : Operator} {x y : Nat}
      {rest : List (Operator × Nat)} :
      t.Denotes x → o.actsAs op.kind → l.rank ≤ op.level.rank → Written l ts ⟨y, rest⟩ →
      Written l (t :: o :: ts) ⟨x, (op, y) :: rest⟩

inductive Joined (l : Level) : List Token → List (Operator × Chain) → Prop where
  | nil : Joined l [] []
  | cons {o : Token} {us ts : List Token} {op : Operator} {piece : Chain}
      {pieces : List (Operator × Chain)} :
      o.actsAs op.kind → op.level = l → Written l.tighter us piece →
      Joined l ts pieces → Joined l (o :: us ++ ts) ((op, piece) :: pieces)

def Reads (l : Level) (f : Chain → Option Int) : Prop :=
  ∀ ts c, Written l ts c → ∃ e, Derives l ts e ∧ e.value.toOption = f c

variable {l : Level} {ts us : List Token} {c : Chain} {pieces : List (Operator × Chain)}
  {f : Chain → Option Int} {e : Tree}

theorem combine_value (op : Operator) (location : Location) (a b : Tree) :
    (Tree.binary op location a b).value.toOption =
      combine op a.value.toOption b.value.toOption := by
  rw [Tree.value]
  cases a.value with
  | error e => rfl
  | ok x =>
    cases b.value with
    | error e => rfl
    | ok y =>
      show (located location (bounded (op.exact x y))).toOption = (bounded (op.exact x y)).toOption
      cases bounded (op.exact x y) <;> rfl

theorem Written.cut (hl : l.rank < Level.operand.rank) (h : Written l ts c) :
    ∃ us vs, ts = us ++ vs ∧ Written l.tighter us (cut l c.first c.rest).1 ∧
      Joined l vs (Chain.cut l c.first c.rest).2 := by
  induction h with
  | @one t x ht => exact ⟨[t], [], rfl, .one ht, .nil⟩
  | @more t o ts op x y rest ht ho hop _ ih =>
    obtain ⟨us, vs, rfl, hus, hvs⟩ := ih
    dsimp only [Chain.cut] at hus hvs ⊢
    split
    · next hlevel => exact ⟨[t], o :: us ++ vs, rfl, .one ht, .cons ho hlevel hus hvs⟩
    · next hlevel =>
      have hlt : l.tighter.rank ≤ op.level.rank := by
        revert hl hop hlevel
        cases l <;> cases op <;> simp [Level.tighter, Operator.level, Level.rank]
      exact ⟨t :: o :: us, vs, rfl, .more ht ho hlt hus, hvs⟩

theorem Joined.exists_left (hl : l.rank < Level.power.rank) (hf : Reads l.tighter f)
    (h : Joined l ts pieces) (he : Derives l us e) :
    ∃ e', Derives l (us ++ ts) e' ∧
      e'.value.toOption = fromLeft e.value.toOption (pieces.map (fun p => (p.1, f p.2))) := by
  -- on the pieces: the tree so far becomes the left operand of the next one
  induction h generalizing us e with
  | nil => exact ⟨e, by rwa [List.append_nil], rfl⟩
  | @cons o vs ts op piece pieces ho hlevel hpiece _ ih =>
    obtain ⟨b, hb, hv⟩ := hf vs piece hpiece
    have hbinary : Derives l (us ++ o :: vs) (.binary op o.location e b) := by
      subst hlevel
      obtain ⟨hleft, hright⟩ := op.levels_of_left hl
      exact .binary (Nat.le_refl _) (hleft ▸ he) ho (hright ▸ hb)
    obtain ⟨e', he', hv'⟩ := ih hbinary
    refine ⟨e', by simpa using he', ?_⟩
    rw [hv', combine_value, hv]
    rfl

theorem Joined.exists_right (hf : Reads .operand f) (h : Joined .power ts pieces)
    (hc : Written .operand us c) :
    ∃ e, Derives .power (us ++ ts) e ∧
      e.value.toOption = fromRight (f c) (pieces.map (fun p => (p.1, f p.2))) := by
  -- on the pieces: the piece before them is no tree yet, as its power waits for all that follow
  induction h generalizing us c with
  | nil =>
    obtain ⟨e, he, hv⟩ := hf us c hc
    exact ⟨e, by simpa using he.mono (by decide), hv⟩
  | @cons o vs ts op piece pieces ho hlevel hpiece _ ih =>
    obtain ⟨a, ha, hva⟩ := hf us c hc
    obtain ⟨b, hb, hvb⟩ := ih hpiece
    obtain rfl : op = .power := by
      revert hlevel
      cases op <;> simp [Operator.level]
    refine ⟨.binary .power o.location a b, .binary (Nat.le_refl _) ha ho hb, ?_⟩
    rw [combine_value, hva, hvb]
    rfl

theorem reads_first : Reads .operand (value []) := by
  intro ts c h
  cases h with
  | @one t x ht =>
    refine ⟨.number t.lexeme t.location, .number ht.number, ?_⟩
    rw [Tree.value, ht.value, bounded, if_pos ht.inRange]
    rfl
  | @more t o ts op x y rest ht ho hop _ =>
    revert hop
    cases op <;> simp [Operator.level, Level.rank]

theorem reads_cut {levels : List Level} (hl : l.rank < Level.operand.rank)
    (h : Reads l.tighter (value levels)) : Reads l (value (l :: levels)) := by
  intro ts c hc
  obtain ⟨us, vs, rfl, hus, hvs⟩ := hc.cut hl
  dsimp only [value]
  split
  · next hpower =>
    subst hpower
    exact hvs.exists_right h hus
  · next hpower =>
    have hlt : l.rank < Level.power.rank := by
      revert hl hpower
      cases l <;> simp [Level.rank]
    have hle : l.rank ≤ l.tighter.rank := by cases l <;> decide
    obtain ⟨e, he, hv⟩ := h us _ hus
    rw [← hv]
    exact hvs.exists_left hlt h (he.mono hle)

theorem reads_levels : Reads .sum (value [.sum, .product, .comparison, .power]) := by
  have hpower : Reads .power (value [.power]) := reads_cut (by decide) reads_first
  have hcomparison : Reads .comparison (value [.comparison, .power]) := reads_cut (by decide) hpower
  have hproduct : Reads .product (value [.product, .comparison, .power]) :=
    reads_cut (by decide) hcomparison
  exact reads_cut (by decide) hproduct

theorem Written.nests_le (h : Written l ts c) : ts.countP Token.nests ≤ c.rest.length := by
  have hnumber : ∀ (t : Token) (x : Nat), t.Denotes x → t.nests = false := by
    intro t x ht
    simp [Token.nests, Token.actsAs, Token.head_eq_of_actsAs ht.number]
  induction h with
  | one ht => simp [hnumber _ _ ht]
  | @more t o ts op x y rest ht ho hop _ ih =>
    have ho' : [o].countP Token.nests ≤ 1 := List.countP_le_length
    simp only [List.countP_cons, hnumber t x ht, List.length_cons, List.countP_nil,
      Bool.false_eq_true, if_false] at ih ho' ⊢
    omega

theorem text_cons (x y : Nat) (op : Operator) (rest : List (Operator × Nat)) :
    text ⟨x, (op, y) :: rest⟩ = Decimal.digits x ++ ' ' :: op.symbol ++ ' ' :: text ⟨y, rest⟩ := by
  simp [text]

theorem exists_written {d : Cursor} {blanks : Text} (hx : ∀ x ∈ c.numbers, Arithmetic.InRange x)
    (hb : ∀ a ∈ blanks, separates a) (hd : d.rest = blanks ++ c.text ++ [';']) :
    ∃ ts t, d.tokens = ts ++ [t] ∧ Written .sum ts c ∧ t.actsAs (.mark .semicolon false) := by
  obtain ⟨x, rest⟩ := c
  have hnumber : ∀ x, Lexeme.WellFormed ⟨.number, Decimal.digits x⟩ :=
    fun x => .number (Decimal.digits_ne_nil x) (fun _ h => Decimal.isDigit_of_mem_digits h)
  have hspace : ∀ (l : Lexeme) (s : Text), ∀ a ∈ (' ' :: s).head?, l.goesOn a = false := by
    rintro l s a ⟨⟩
    exact l.goesOn_eq_false_of_separates rfl
  induction rest generalizing d x blanks with
  | nil =>
    have hfirst : d.Faces blanks ⟨.number, Decimal.digits x⟩ [';'] :=
      ⟨by simpa [text] using hd, hb, hnumber x, by simp [Lexeme.goesOn]⟩
    obtain ⟨t, d₁, ht, hs, hd₁⟩ := hfirst.exists_tokens
    have hlast : d₁.Faces [] ⟨.mark .semicolon false, [';']⟩ [] :=
      ⟨hd₁, by simp, .bare .semicolon, by simp⟩
    obtain ⟨u, d₂, hu, hs', hd₂⟩ := hlast.exists_tokens
    have hstop : d₂.tokens = [] := Cursor.tokens_of_stop (Cursor.stop_iff.mpr (by simp [hd₂]))
    have hk : u.kind = .mark .semicolon false := congrArg Lexeme.kind hs'
    refine ⟨[t], u, by rw [ht, hu, hstop]; rfl,
      .one (.of_spelling hs (hx x List.mem_cons_self)), ?_⟩
    simp [Token.actsAs, hk, Kind.head]
  | cons p rest ih =>
    obtain ⟨op, y⟩ := p
    obtain ⟨hx₀, hxs⟩ := List.forall_mem_cons.mp hx
    have hfirst : d.Faces blanks ⟨.number, Decimal.digits x⟩
        (' ' :: (op.symbol ++ ' ' :: text ⟨y, rest⟩ ++ [';'])) :=
      ⟨by simpa [text_cons] using hd, hb, hnumber x, hspace _ _⟩
    obtain ⟨t, d₁, ht, hs, hd₁⟩ := hfirst.exists_tokens
    have hop : d₁.Faces [' '] ⟨op.kind, op.symbol⟩ (' ' :: (text ⟨y, rest⟩ ++ [';'])) :=
      ⟨by simpa using hd₁, by simp [separates], op.wellFormed_symbol, hspace _ _⟩
    obtain ⟨o, d₂, ho, hs', hd₂⟩ := hop.exists_tokens
    obtain ⟨ts, u, hts, hw, hu⟩ := @ih d₂ [' '] (by simp [separates]) y hxs hd₂
    have hk : o.kind = op.kind := congrArg Lexeme.kind hs'
    have hacts : o.actsAs op.kind := by simp [Token.actsAs, hk, op.head_kind]
    exact ⟨t :: o :: ts, u, by rw [ht, ho, hts]; rfl,
      .more (.of_spelling hs hx₀) hacts (Nat.zero_le _) hw, hu⟩

end Chain

/-- A chain that is written out has the value that cutting it gives: at the sums, then the products,
then the comparisons, then the powers. -/
theorem evaluate_chain {limit : Nat} {c : Chain}
    (hx : ∀ x ∈ c.numbers, (x : Int) ≤ Arithmetic.greatest) (hn : c.rest.length ≤ limit) :
    (evaluate limit (c.text ++ [';'])).toOption =
      c.value [.sum, .product, .comparison, .power] := by
  have hx' : ∀ x ∈ c.numbers, Arithmetic.InRange x := by
    intro x hmem
    have hle := hx x hmem
    simp only [Arithmetic.InRange, Arithmetic.least] at *
    omega
  obtain ⟨ts, t, hts, hw, ht⟩ :=
    @Chain.exists_written c (.start 1 (c.text ++ [';'])) [] hx' (by simp) rfl
  obtain ⟨e, he, hv⟩ := Chain.reads_levels ts c hw
  have hnest : e.nesting ≤ limit := Nat.le_trans he.nesting_le (Nat.le_trans hw.nests_le hn)
  have hs : Sentence (ts ++ [t]) e := ⟨ts, t, rfl, he, ht⟩
  have hp : ts ++ [t] <+: tokens (c.text ++ [';']) := ⟨[], by rw [List.append_nil]; exact hts.symm⟩
  rw [evaluate_eq_read hp hs, Tree.read_eq_value (by omega), hv]

/-- The powers stand in a comparison that holds, and that in the product; the other comparison
does not hold. The limit is the number of operators. -/
theorem evaluate_chain_mixed :
    (evaluate 7 "1 + 2 ^ 3 ^ 2 > 9 * 4 - 5 < 5;".toList).toOption = some 5 := by
  obtain ⟨c, hx, hn, htext, hvalue⟩ : ∃ c : Chain,
      (∀ x ∈ c.numbers, (x : Int) ≤ Arithmetic.greatest) ∧
      c.rest.length ≤ 7 ∧ c.text ++ [';'] = "1 + 2 ^ 3 ^ 2 > 9 * 4 - 5 < 5;".toList ∧
      c.value [.sum, .product, .comparison, .power] = some 5 :=
    ⟨⟨1, [(.add, 2), (.power, 3), (.power, 2), (.compare .greater, 9), (.multiply, 4),
      (.subtract, 5), (.compare .less, 5)]⟩, by decide, by decide, by decide +kernel,
      by decide +kernel⟩
  rw [← htext, evaluate_chain hx hn, hvalue]

end Reckon
