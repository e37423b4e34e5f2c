import Reckon.Proofs.Acceptance
import Reckon.Proofs.Extension

set_option autoImplicit false

namespace Reckon

/-- Lexemes one after the other, with a space only before those that begin with `=`. -/
def pack (ls : List Lexeme) : Text :=
  ls.flatMap (fun l => if l.text.head? = some '=' then ' ' :: l.text else l.text)

def packed (line : Text) : Text := pack ((tokens line).map Token.spelling)

def Kind.isMark : Kind → Bool
  | mark _ _ => true
  | _ => false

def Lexeme.Packs (l r : Lexeme) : Prop := l.Fuses r → r.text.head? = some '='

theorem Lexeme.packs_of_isMark {l r : Lexeme} (h : l.kind.isMark ∨ r.kind.isMark) : l.Packs r := by
  rintro (⟨hl, hr⟩ | ⟨hl, hr⟩ | ⟨-, hr⟩)
  · simp [hl, hr, Kind.isMark] at h
  · simp [hl, hr, Kind.isMark] at h
  · exact hr

theorem Token.isMark_of_actsAs {t : Token} {m : Mark} {extended : Bool}
    (h : t.actsAs (.mark m extended)) :
    t.kind.isMark := by
  obtain ⟨extended', hk⟩ := exists_mark_of_actsAs h
  rw [hk]
  rfl

theorem Token.isMark_of_operator {t : Token} {op : Operator} (h : t.actsAs op.kind) :
    t.kind.isMark := by
  cases op with
  | compare c => cases c <;> exact isMark_of_actsAs h
  | _ => exact isMark_of_actsAs h

theorem Derives.isChain {l : Level} {ts : List Token} {e : Tree} (h : Derives l ts e) :
    ts.IsChain (fun t u => t.kind.isMark ∨ u.kind.isMark) := by
  induction h with
  | number => exact List.isChain_singleton _
  | group ho he hc ih =>
    have ho := Token.isMark_of_actsAs ho
    have hc := Token.isMark_of_actsAs hc
    rw [List.cons_append, List.isChain_cons, List.isChain_append]
    refine ⟨fun _ _ => .inl ho, ih, List.isChain_singleton _, ?_⟩
    rintro _ _ _ ⟨⟩
    exact .inr hc
  | binary hl ha ht hb iha ihb =>
    have ht := Token.isMark_of_operator ht
    rw [List.isChain_append, List.isChain_cons]
    refine ⟨iha, ⟨fun _ _ => .inl ht, ihb⟩, ?_⟩
    rintro _ _ _ ⟨⟩
    exact .inr ht

/-- An expression and its `;` are packed without loss, and so is the `;` before anything else. -/
theorem Yields.isChain_packs {limit : Nat} {ls rest : List Lexeme} {l : Lexeme} {v : Int}
    (h : Yields limit ls v) (hl : l.token.actsAs (.mark .semicolon false)) :
    (ls ++ l :: rest.take 1).IsChain Lexeme.Packs := by
  obtain ⟨e, he, -⟩ := h
  have hl : l.kind.isMark := Token.isMark_of_actsAs hl
  have hls : ls.IsChain Lexeme.Packs := by
    apply List.IsChain.imp (fun _ _ => Lexeme.packs_of_isMark)
    exact List.isChain_of_isChain_map Lexeme.token (fun _ _ h => h) he.isChain
  rw [List.isChain_append, List.isChain_cons]
  refine ⟨hls, ⟨fun _ _ => Lexeme.packs_of_isMark (.inl hl), ?_⟩, ?_⟩
  · cases rest with
    | nil => exact .nil
    | cons r rest => exact List.isChain_singleton r
  · rintro _ _ _ ⟨⟩
    exact Lexeme.packs_of_isMark (.inr hl)

section Pack

variable {ls : List Lexeme} {l : Lexeme}

theorem Lexeme.longest_of_packs (hw : ∀ r ∈ ls, r.WellFormed) (h : ∀ r ∈ ls.head?, l.Packs r) :
    ∀ x ∈ (pack ls).head?, l.goesOn x = false := by
  intro x hx
  cases ls with
  | nil => cases hx
  | cons r ls =>
    have hr := hw r List.mem_cons_self
    simp only [pack, List.flatMap_cons] at hx
    split at hx
    · obtain rfl : ' ' = x := by simpa using hx
      exact l.goesOn_eq_false_of_separates rfl
    · next hne =>
      rw [List.head?_append_of_ne_nil _ hr.text_ne_nil] at hx
      rw [Bool.eq_false_iff, Ne, hr.goesOn_iff hx]
      exact fun hf => hne (h r rfl hf)

theorem Cursor.exists_faces_pack {c : Cursor} (hc : c.rest = pack (l :: ls))
    (hw : ∀ r ∈ l :: ls, r.WellFormed) (h : ∀ r ∈ ls.head?, l.Packs r) :
    ∃ blanks, c.Faces blanks l (pack ls) := by
  obtain ⟨hl, hls⟩ := List.forall_mem_cons.mp hw
  have hlongest := Lexeme.longest_of_packs hls h
  simp only [pack, List.flatMap_cons] at hc
  split at hc
  · exact ⟨[' '], hc, by simp [separates], hl, hlongest⟩
  · exact ⟨[], hc, by simp, hl, hlongest⟩

theorem Cursor.take_spelling_pack {c : Cursor} {n : Nat} (hc : c.rest = pack ls)
    (hw : ∀ l ∈ ls, l.WellFormed) (h : (ls.take (n + 1)).IsChain Lexeme.Packs) :
    (c.tokens.map Token.spelling).take n = ls.take n := by
  induction n generalizing c ls with
  | zero => rfl
  | succ n ih =>
    cases ls with
    | nil =>
      have hstop : c.tokens = [] := tokens_of_stop (stop_iff.mpr (by simp [hc, pack]))
      rw [hstop, List.map_nil, List.take_nil]
    | cons l ls =>
      rw [List.take_succ_cons, List.isChain_cons] at h
      obtain ⟨hhead, hchain⟩ := h
      rw [List.head?_take, if_neg (Nat.succ_ne_zero n)] at hhead
      obtain ⟨blanks, hf⟩ := exists_faces_pack hc hw hhead
      obtain ⟨t, d, htokens, ht, hd⟩ := hf.exists_tokens
      rw [htokens, List.map_cons, List.take_succ_cons, List.take_succ_cons, ht]
      exact congrArg _ (ih hd (List.forall_mem_cons.mp hw).2 hchain)

end Pack

/-- A line that has a value has it without its blanks too, when only lexemes that begin with `=`
keep one before them. What follows the statement may be read otherwise then. -/
theorem evaluate_packed {limit : Nat} {line : Text} {v : Int} (h : evaluate limit line = .ok v) :
    evaluate limit (packed line) = .ok v := by
  obtain ⟨ls, l, ⟨rest, hrest⟩, hl, hy⟩ := evaluate_eq_ok_iff.mp h
  refine evaluate_eq_ok_iff.mpr ⟨ls, l, ?_, hl, hy⟩
  have hw : ∀ r ∈ (tokens line).map Token.spelling, r.WellFormed := fun _ =>
    wellFormed_of_mem_spelling
  have hlen : (ls ++ [l]).length = ls.length + 1 := by simp
  have happart :
      (((tokens line).map Token.spelling).take (ls.length + 1 + 1)).IsChain Lexeme.Packs := by
    have htake : ((tokens line).map Token.spelling).take (ls.length + 1 + 1) =
        ls ++ l :: rest.take 1 := by
      rw [← hrest, ← hlen, List.take_length_add_append, List.append_assoc, List.singleton_append]
    rw [htake]
    exact hy.isChain_packs hl
  have htake := Cursor.take_spelling_pack (c := .start 1 (packed line)) rfl hw happart
  rw [← hrest, ← hlen, List.take_left'] at htake
  · exact htake ▸ List.take_prefix _ _
  · rfl

/-- The numbers and the words after the `;` run together, and the first `=` keeps its space. -/
theorem evaluate_packed_run_on :
    packed "3 >= 2\t== 1 + 5 < 5 ; = 4 4 a b".toList = "3>=2 ==1+5<5; =44ab".toList ∧
      evaluate 0 "3 >= 2\t== 1 + 5 < 5 ; = 4 4 a b".toList = .ok 1 ∧
      evaluate 0 "3>=2 ==1+5<5; =44ab".toList = .ok 1 := by
  have hp : packed "3 >= 2\t== 1 + 5 < 5 ; = 4 4 a b".toList = "3>=2 ==1+5<5; =44ab".toList := by
    decide +kernel
  have hv : evaluate 0 "3 >= 2\t== 1 + 5 < 5 ; = 4 4 a b".toList = .ok 1 := by decide +kernel
  exact ⟨hp, hv, hp ▸ evaluate_packed hv⟩

end Reckon
