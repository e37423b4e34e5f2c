import Reckon.Proofs.Chains

/-!
When a line has a value. Whether it has one, and which, is told by the spellings of its tokens: they
begin with an expression and a `;`, and the expression yields the value. Main statement: this, as an
equivalence. It speaks of no places, so lines with the same spellings have the same value.
-/

set_option autoImplicit false

namespace Reckon

open Evaluation

def Lexeme.token (l : Lexeme) : Token := ⟨l.kind, l.text, .start 1⟩

@[simp] theorem Lexeme.spelling_token (l : Lexeme) : l.token.spelling = l := rfl

theorem map_spelling_token (ls : List Lexeme) : (ls.map Lexeme.token).map Token.spelling = ls := by
  simp [Function.comp_def]

theorem wellFormed_of_mem_spelling {s : Text} {l : Lexeme} (h : l ∈ (tokens s).map Token.spelling) :
    l.WellFormed := by
  obtain ⟨t, ht, rfl⟩ := List.mem_map.mp h
  exact Cursor.wellFormed_of_mem ht

/-- Lexemes that make an expression with a value, when groups and exponents nest at most `limit`
deep. -/
def Yields (limit : Nat) (ls : List Lexeme) (v : Int) : Prop :=
  ∃ e, Derives .sum (ls.map Lexeme.token) e ∧ e.nesting ≤ limit ∧ e.value = .ok v

section Spelling

variable {l : Level} {ts us : List Token} {t u : Token} {e : Tree} {k : Kind}

theorem Token.actsAs_of_spelling (h : u.spelling = t.spelling) (ht : t.actsAs k) : u.actsAs k := by
  have hk : u.kind = t.kind := congrArg Lexeme.kind h
  rwa [actsAs, hk]

theorem Tree.toOption_number (ds : Text) (p q : Location) :
    (number ds p).value.toOption = (number ds q).value.toOption := by
  simp only [value, located]
  cases bounded (some (Decimal.value ds)) <;> rfl

theorem Derives.respelled (h : Derives l ts e)
    (hs : us.map Token.spelling = ts.map Token.spelling) :
    ∃ e', Derives l us e' ∧ e'.nesting = e.nesting ∧ e'.value.toOption = e.value.toOption := by
  induction h generalizing us with
  | @number l t ht =>
    obtain ⟨u, rfl, hu⟩ := List.map_eq_singleton_iff.mp hs
    have htext : u.lexeme = t.lexeme := congrArg Lexeme.text hu
    refine ⟨.number u.lexeme u.location, .number (Token.actsAs_of_spelling hu ht), rfl, ?_⟩
    rw [htext]
    exact Tree.toOption_number _ _ _
  | @group l o c ts e ho he hc ih =>
    rw [List.map_append, List.map_cons] at hs
    obtain ⟨us, ds, rfl, hus, hds⟩ := List.map_eq_append_iff.mp hs
    obtain ⟨o', us, rfl, ho', hus⟩ := List.map_eq_cons_iff.mp hus
    obtain ⟨c', rfl, hc'⟩ := List.map_eq_singleton_iff.mp hds
    obtain ⟨e', he', hn, hv⟩ := ih hus
    refine ⟨.group o'.location e', ?_, by rw [Tree.nesting, Tree.nesting, hn], hv⟩
    exact .group (Token.actsAs_of_spelling ho' ho) he' (Token.actsAs_of_spelling hc' hc)
  | @binary l op t ts vs a b hl ha ht hb iha ihb =>
    rw [List.map_append, List.map_cons] at hs
    obtain ⟨us, ws, rfl, hus, hws⟩ := List.map_eq_append_iff.mp hs
    obtain ⟨t', ws, rfl, ht', hws⟩ := List.map_eq_cons_iff.mp hws
    obtain ⟨a', ha', hna, hva⟩ := iha hus
    obtain ⟨b', hb', hnb, hvb⟩ := ihb hws
    refine ⟨.binary op t'.location a' b',
      .binary hl ha' (Token.actsAs_of_spelling ht' ht) hb', ?_, ?_⟩
    · rw [Tree.nesting, Tree.nesting, hna, hnb]
    · rw [Chain.combine_value, Chain.combine_value, hva, hvb]

theorem Derives.value_respelled {limit : Nat} {v : Int} (h : Derives l ts e)
    (hn : e.nesting ≤ limit)
    (hv : e.value = .ok v) (hs : us.map Token.spelling = ts.map Token.spelling) :
    ∃ e', Derives l us e' ∧ e'.nesting ≤ limit ∧ e'.value = .ok v := by
  obtain ⟨e', he', hn', hv'⟩ := h.respelled hs
  refine ⟨e', he', hn' ▸ hn, ?_⟩
  rw [hv] at hv'
  cases hx : e'.value with
  | ok w => simpa [hx, Except.toOption] using hv'
  | error f => simp [hx, Except.toOption] at hv'

theorem yields_map_spelling {limit : Nat} {v : Int} :
    Yields limit (ts.map Token.spelling) v ↔
      ∃ e, Derives .sum ts e ∧ e.nesting ≤ limit ∧ e.value = .ok v := by
  constructor
  · rintro ⟨e, he, hn, hv⟩
    exact he.value_respelled hn hv (map_spelling_token _).symm
  · rintro ⟨e, he, hn, hv⟩
    exact he.value_respelled hn hv (map_spelling_token _)

end Spelling

theorem of_conclude_eq_ok {v w : Int} {t : Token} (h : conclude w t = .ok v) :
    t.actsAs (.mark .semicolon false) ∧ w = v := by
  unfold conclude at h
  split at h
  · next ht => exact ⟨ht, Except.ok.inj h⟩
  · split at h <;> cases h

theorem Course.derives_of_ok {limit k : Nat} {line : Text} {s : State} {v : Int}
    (hc : Course limit line k s) (h : evaluate limit line = .ok v) :
    (tokenAt line k).actsAs (.mark .semicolon false) ∧
      ∃ e, Derives .sum ((tokens line).take k) e ∧ e.value = .ok v := by
  have hv := hc.ended
  have hs := spelledBy_of_drive hc.driven
  rw [h] at hv
  generalize tokenAt line k = t at hv ⊢
  cases hm : step limit .sum s t with
  | shift s' => simp [hm, Move.verdict?] at hv
  | reject e => simp [hm, Move.verdict?] at hv
  | accept w =>
    have hw : conclude w t = .ok v := by simpa [hm, Move.verdict?] using hv
    obtain ⟨ht, rfl⟩ := of_conclude_eq_ok hw
    refine ⟨ht, ?_⟩
    cases s with
    | operand σ => exact absurd hm readOperand_ne_accept
    | exponent x location σ =>
      simp only [step] at hm
      split at hm
      · exact absurd hm readOperand_ne_accept
      · cases hm
    | value u σ =>
      obtain ⟨us, vs, e, hts, hσ, he, hu⟩ := hs
      have hsettle : settle .sum u σ = .ok (w, []) := by
        rcases readOperator_accept hm with ⟨op, -, hlt, -⟩ | ⟨-, hs⟩
        · exact absurd hlt (Nat.not_lt_zero _)
        · exact hs
      have hr := Level.rank_le_operand
      obtain ⟨us', vs', e', heq, hσ', he', hw'⟩ := hσ.settle he (hr _) (hr _) hu hsettle
      cases hσ' with
      | nil => exact ⟨e', by rwa [hts, heq, List.nil_append], hw'⟩

/-- A line has a value exactly if its tokens are spelled like an expression that yields the value
and a `;`, whatever comes after them. -/
theorem evaluate_eq_ok_iff {limit : Nat} {line : Text} {v : Int} :
    evaluate limit line = .ok v ↔
      ∃ ls l, ls ++ [l] <+: (tokens line).map Token.spelling ∧
        l.token.actsAs (.mark .semicolon false) ∧
        Yields limit ls v := by
  constructor
  · intro h
    obtain ⟨k, s, hc⟩ := exists_course limit line
    obtain ⟨ht, e, he, hv⟩ := hc.derives_of_ok h
    have hp : (tokens line).take k ++ [tokenAt line k] <+: tokens line := by
      rw [← take_succ_tokens (lt_length_of_actsAs (by decide) ht)]
      exact List.take_prefix _ _
    have hn : e.nesting ≤ limit := by
      by_contra hlt
      obtain ⟨location, hr⟩ := Tree.tooDeep_of_read hv (Nat.zero_le limit) (by omega)
      rw [evaluate_eq_read hp ⟨_, _, rfl, he, ht⟩, hr] at h
      cases h
    refine ⟨_, (tokenAt line k).spelling, ?_, ht, yields_map_spelling.mpr ⟨e, he, hn, hv⟩⟩
    simpa using hp.map Token.spelling
  · rintro ⟨ls, l, ⟨rest, hrest⟩, hl, hy⟩
    obtain ⟨p, us, hp, hpl, -⟩ := List.map_eq_append_iff.mp hrest.symm
    obtain ⟨ts, us', rfl, rfl, hus'⟩ := List.map_eq_append_iff.mp hpl
    obtain ⟨t, rfl, rfl⟩ := List.map_eq_singleton_iff.mp hus'
    obtain ⟨e, he, hn, hv⟩ := yields_map_spelling.mp hy
    have ht : t.actsAs (.mark .semicolon false) := hl
    rw [evaluate_eq_read ⟨us, hp.symm⟩ ⟨ts, t, rfl, he, ht⟩, Tree.read_eq_value (by omega), hv]

end Reckon
