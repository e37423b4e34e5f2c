import Mathlib.Data.List.Chain
import Mathlib.Data.List.TakeWhile
import Reckon.Proofs.Course

/-!
The longest lexemes of a text. A cutting writes a text as blanks and lexemes in turn, in such a way
that no lexeme could have been longer. Main statement: all cuttings of a text have the same lexemes,
and these are its tokens.
-/

set_option autoImplicit false

namespace Reckon

structure Lexeme where
  kind : Kind
  text : Text
  deriving DecidableEq, Repr

def Token.spelling (t : Token) : Lexeme := ⟨t.kind, t.lexeme⟩

def Front.spelling (f : Front) : Lexeme := ⟨f.kind, f.lexeme⟩

/-- The lexemes of each kind. A character that is no separator, digit, letter or mark
stands alone. -/
inductive Lexeme.WellFormed : Lexeme → Prop where
  | number {ds : Text} : ds ≠ [] → (∀ d ∈ ds, d.isDigit) → WellFormed ⟨.number, ds⟩
  | word {cs : Text} : cs ≠ [] → (∀ c ∈ cs, c.isAlpha) → WellFormed ⟨.word, cs⟩
  | bare (m : Mark) : WellFormed ⟨.mark m false, [m.toChar]⟩
  | extended (m : Mark) : WellFormed ⟨.mark m true, [m.toChar, '=']⟩
  | stray {c : Char} : separates c = false → c.isDigit = false → c.isAlpha = false →
      (∀ m : Mark, m.toChar ≠ c) → WellFormed ⟨.stray, [c]⟩

/-- The lexemes that are read otherwise when nothing stands between them. -/
def Lexeme.Fuses (l r : Lexeme) : Prop :=
  (l.kind = .number ∧ r.kind = .number) ∨ (l.kind = .word ∧ r.kind = .word) ∨
    ((∃ m, l.kind = .mark m false) ∧ r.text.head? = some '=')

def Lexeme.goesOn (l : Lexeme) (c : Char) : Bool :=
  match l.kind with
  | .number => c.isDigit
  | .word => c.isAlpha
  | .mark _ false => c == '='
  | _ => false

section Characters

variable {c : Char}

theorem separates_iff : separates c ↔ c = ' ' ∨ c = '\t' ∨ c = '\n' ∨ c = '\r' := by
  simp [separates, or_assoc]

theorem separates_eq_false (h : c.isDigit ∨ c.isAlpha ∨ c = '=') : separates c = false := by
  cases hs : separates c with
  | false => rfl
  | true => rcases separates_iff.mp hs with rfl | rfl | rfl | rfl <;> revert h <;> decide

theorem isDigit_eq_false_of_isAlpha (h : c.isAlpha) : c.isDigit = false := by
  have hletter : 65 ≤ c.toNat := by
    rcases Bool.or_eq_true_iff.mp h with hu | hl
    · obtain ⟨hA, -⟩ := of_decide_eq_true hu
      exact UInt32.le_iff_toNat_le.mp hA
    · obtain ⟨ha, -⟩ := Bool.and_eq_true_iff.mp hl
      have ha : 97 ≤ c.toNat := UInt32.le_iff_toNat_le.mp (of_decide_eq_true ha)
      omega
  cases hd : c.isDigit with
  | false => rfl
  | true =>
    obtain ⟨-, hdigit⟩ := Char.isDigit_iff_toNat.mp hd
    change c.toNat ≤ 57 at hdigit
    omega

theorem Mark.toChar_not_run (m : Mark) :
    separates m.toChar = false ∧ m.toChar.isDigit = false ∧ m.toChar.isAlpha = false := by
  cases m <;> decide

theorem Mark.toChar_inj {m n : Mark} : m.toChar = n.toChar ↔ m = n := by
  constructor
  · intro h
    have ho := congrArg ofChar? h
    rw [ofChar?_toChar, ofChar?_toChar] at ho
    exact Option.some.inj ho
  · rintro rfl
    rfl

theorem Mark.toChar_ne_equal {m : Mark} (h : m ≠ .equal) : m.toChar ≠ '=' :=
  fun hc => h ((toChar_inj (n := .equal)).mp hc)

theorem Mark.ofChar?_eq_none : ofChar? c = none ↔ ∀ m : Mark, m.toChar ≠ c := by
  constructor
  · rintro h m rfl
    rw [ofChar?_toChar] at h
    cases h
  · intro h
    cases hm : ofChar? c with
    | none => rfl
    | some m => exact absurd (toChar_of_ofChar? hm) (h m)

theorem Lexeme.goesOn_eq_false_of_separates (l : Lexeme) (h : separates c) :
    l.goesOn c = false := by
  cases hg : l.goesOn c with
  | false => rfl
  | true =>
    have hc : c.isDigit ∨ c.isAlpha ∨ c = '=' := by
      unfold goesOn at hg
      split at hg
      · exact .inl hg
      · exact .inr (.inl hg)
      · exact .inr (.inr (by simpa using hg))
      · cases hg
    rw [separates_eq_false hc] at h
    cases h

end Characters

namespace Lexeme

variable {l r : Lexeme} {c : Char}

theorem WellFormed.not_separates (h : l.WellFormed) (hc : c ∈ l.text) : separates c = false := by
  cases h with
  | number _ hd => exact separates_eq_false (.inl (hd c hc))
  | word _ ha => exact separates_eq_false (.inr (.inl (ha c hc)))
  | bare m =>
    obtain rfl := List.mem_singleton.mp hc
    exact m.toChar_not_run.1
  | extended m =>
    rcases List.mem_cons.mp hc with rfl | hc
    · exact m.toChar_not_run.1
    · exact separates_eq_false (.inr (.inr (List.mem_singleton.mp hc)))
  | stray hs _ _ _ =>
    obtain rfl := List.mem_singleton.mp hc
    exact hs

theorem WellFormed.text_ne_nil (h : l.WellFormed) : l.text ≠ [] := by
  cases h with
  | number hn _ => exact hn
  | word hn _ => exact hn
  | bare | extended | stray => exact List.cons_ne_nil _ _

theorem WellFormed.kind_ne_stop (h : l.WellFormed) : l.kind ≠ .stop := by
  cases h <;> simp

theorem WellFormed.kind_of_first (h : l.WellFormed) (hc : l.text.head? = some c) :
    (c.isDigit ↔ l.kind = .number) ∧ (c.isAlpha ↔ l.kind = .word) := by
  have hm := List.mem_of_head? hc
  cases h with
  | number _ hd =>
    have hd := hd c hm
    have ha : c.isAlpha = false := by
      cases ha : c.isAlpha with
      | false => rfl
      | true => rw [isDigit_eq_false_of_isAlpha ha] at hd; cases hd
    simp [hd, ha]
  | word _ ha =>
    have ha := ha c hm
    simp [ha, isDigit_eq_false_of_isAlpha ha]
  | bare m =>
    obtain rfl := List.mem_singleton.mp hm
    simp [m.toChar_not_run]
  | extended m =>
    obtain rfl : m.toChar = c := by simpa using hc
    simp [m.toChar_not_run]
  | stray _ hd ha _ =>
    obtain rfl := List.mem_singleton.mp hm
    simp [hd, ha]

theorem WellFormed.count_mark {m : Mark} (h : l.WellFormed) (hm : m.extendsToComparison = false) :
    l.text.count m.toChar = if l.kind.head = .mark m false then 1 else 0 := by
  have hequal : m.toChar ≠ '=' := Mark.toChar_ne_equal (by rintro rfl; cases hm)
  obtain ⟨-, hdigit, halpha⟩ := m.toChar_not_run
  cases h with
  | @number ds _ hd =>
    have hno : m.toChar ∉ ds := fun hmem => by simp [hd _ hmem] at hdigit
    simp [List.count_eq_zero.mpr hno, Kind.head]
  | @word cs _ ha =>
    have hno : m.toChar ∉ cs := fun hmem => by simp [ha _ hmem] at halpha
    simp [List.count_eq_zero.mpr hno, Kind.head]
  | bare n => simp [List.count_singleton, Mark.toChar_inj, Kind.head]
  | extended n =>
    by_cases hn : n = m
    · simp [hn, hm, hequal.symm, Kind.head]
    · simp [hn, hequal.symm, Mark.toChar_inj, Kind.head]
  | stray _ _ _ hc => simp [Ne.symm (hc m), Kind.head]

theorem WellFormed.mem_semicolon_iff (h : l.WellFormed) :
    ';' ∈ l.text ↔ l.kind.head = .mark .semicolon false := by
  have hcount : l.text.count ';' = _ := h.count_mark (m := .semicolon) rfl
  rw [← List.count_pos_iff, hcount]
  split <;> simp [*]

theorem WellFormed.goesOn_iff (h : r.WellFormed) (hc : r.text.head? = some c) :
    l.goesOn c ↔ l.Fuses r := by
  obtain ⟨hd, ha⟩ := h.kind_of_first hc
  unfold goesOn Fuses
  split
  · next hk => simp [hk, hd]
  · next hk => simp [hk, ha]
  · next m hk => simp [hk, hc]
  · next hn hw hb =>
    simp only [Bool.false_eq_true, false_iff]
    rintro (⟨hk, -⟩ | ⟨hk, -⟩ | ⟨⟨m, hk⟩, -⟩)
    · exact hn hk
    · exact hw hk
    · exact hb m hk

end Lexeme

namespace Front

variable {c : Char} {cs rest : Text} {l : Lexeme}

theorem takeWhile_run {p : Char → Bool} (h : ∀ d ∈ cs, p d) (hr : ∀ d ∈ rest.head?, p d = false) :
    (cs ++ rest).takeWhile p = cs ∧ (cs ++ rest).dropWhile p = rest := by
  rw [List.takeWhile_append_of_pos h, List.dropWhile_append_of_pos h]
  cases rest with
  | nil => simp
  | cons d rest => simp [hr d rfl]

theorem read_append (h : l.WellFormed) (ht : l.text = c :: cs)
    (hr : ∀ d ∈ rest.head?, l.goesOn d = false) :
    (read c (cs ++ rest)).spelling = l ∧ (read c (cs ++ rest)).rest = rest := by
  cases h with
  | number _ hd =>
    dsimp only at ht
    subst ht
    obtain ⟨hc, hcs⟩ := List.forall_mem_cons.mp hd
    obtain ⟨htake, hdrop⟩ := takeWhile_run hcs hr
    simp [read, hc, htake, hdrop, spelling, kind, Form.kind]
  | word _ ha =>
    dsimp only at ht
    subst ht
    obtain ⟨hc, hcs⟩ := List.forall_mem_cons.mp ha
    obtain ⟨htake, hdrop⟩ := takeWhile_run hcs hr
    simp [read, isDigit_eq_false_of_isAlpha hc, hc, htake, hdrop, spelling, kind, Form.kind]
  | bare m =>
    obtain ⟨rfl, rfl⟩ : m.toChar = c ∧ [] = cs := by simpa using ht
    have hne : ∀ rest', rest ≠ '=' :: rest' := by
      rintro rest' rfl
      simpa [Lexeme.goesOn] using hr '=' rfl
    unfold read
    rw [if_neg (by simp [m.toChar_not_run]), if_neg (by simp [m.toChar_not_run]), m.ofChar?_toChar]
    split
    · next h => exact absurd h (hne _)
    · next h => simp_all [spelling, kind, Form.kind]
    · next h => cases h
  | extended m =>
    obtain ⟨rfl, rfl⟩ : m.toChar = c ∧ ['='] = cs := by simpa using ht
    simp [read, m.toChar_not_run, m.ofChar?_toChar, spelling, kind, Form.kind]
  | stray _ hd ha hm =>
    obtain ⟨rfl, rfl⟩ : _ = c ∧ [] = cs := by simpa using ht
    simp [read, hd, ha, Mark.ofChar?_eq_none.mpr hm, spelling, kind]

theorem read_longest (h : separates c = false) :
    (read c cs).spelling.WellFormed ∧
      ∀ d ∈ (read c cs).rest.head?, (read c cs).spelling.goesOn d = false := by
  have hdrop : ∀ (p : Char → Bool), ∀ d ∈ (cs.dropWhile p).head?, p d = false := by
    intro p d hd
    have hn := List.head?_dropWhile_not p cs
    rw [Option.mem_def.mp hd] at hn
    exact hn
  have htake : ∀ p : Char → Bool, p c → ∀ d ∈ c :: cs.takeWhile p, p d := by
    intro p hc d hd
    rcases List.mem_cons.mp hd with rfl | hd
    · exact hc
    · exact List.mem_takeWhile_imp hd
  unfold read
  split
  · next hd => exact ⟨.number (List.cons_ne_nil _ _) (htake _ hd), hdrop _⟩
  · next hd =>
    split
    · next ha => exact ⟨.word (List.cons_ne_nil _ _) (htake _ ha), hdrop _⟩
    · next ha =>
      split
      · next m rest hm =>
        obtain rfl := Mark.toChar_of_ofChar? hm
        exact ⟨.extended m, fun _ _ => rfl⟩
      · next _ m hm hne =>
        obtain rfl := Mark.toChar_of_ofChar? hm
        refine ⟨.bare m, ?_⟩
        intro d hd
        obtain ⟨ds, rfl⟩ := List.head?_eq_some_iff.mp hd
        show (d == '=') = false
        rw [beq_eq_false_iff_ne]
        rintro rfl
        exact hne ds rfl
      · next hm =>
        refine ⟨.stray h (by simpa using hd) (by simpa using ha) ?_, fun _ _ => rfl⟩
        exact Mark.ofChar?_eq_none.mp hm

end Front

namespace Cursor

/-- Before the cursor stand blanks and a lexeme, and what follows does not go on with the lexeme. -/
structure Faces (c : Cursor) (blanks : Text) (l : Lexeme) (rest : Text) : Prop where
  text_eq : c.rest = blanks ++ l.text ++ rest
  blank : ∀ x ∈ blanks, separates x
  wellFormed : l.WellFormed
  longest : ∀ x ∈ rest.head?, l.goesOn x = false

variable {c : Cursor} {blanks rest : Text} {l : Lexeme}

theorem Faces.next_eq (h : c.Faces blanks l rest) :
    c.next = (⟨l.kind, l.text, c.here.after blanks⟩,
      ⟨(c.here.after blanks).after l.text, rest⟩) := by
  obtain ⟨x, xs, hx⟩ := List.exists_cons_of_ne_nil h.wellFormed.text_ne_nil
  have hs : separates x = false := h.wellFormed.not_separates (by rw [hx]; exact List.mem_cons_self)
  have hfirst : ∀ y ∈ (l.text ++ rest).head?, separates y = false := by simp [hx, hs]
  obtain ⟨htake, hdrop⟩ := Front.takeWhile_run h.blank hfirst
  obtain ⟨hl, hr⟩ := Front.read_append h.wellFormed hx h.longest
  have hkind : (Front.read x (xs ++ rest)).kind = l.kind := congrArg Lexeme.kind hl
  have htext : (Front.read x (xs ++ rest)).lexeme = l.text := congrArg Lexeme.text hl
  rw [← List.append_assoc, ← h.text_eq] at htake hdrop
  rw [hx, List.cons_append] at hdrop
  simp only [next, htake, hdrop, hkind, htext, hr]

theorem Faces.not_stop (h : c.Faces blanks l rest) : c.next.1.isStop = false := by
  rw [h.next_eq]
  simpa [Token.isStop] using h.wellFormed.kind_ne_stop

theorem exists_faces (h : c.next.1.isStop = false) :
    ∃ blanks, c.Faces blanks c.next.1.spelling c.next.2.rest := by
  have hsplit := List.takeWhile_append_dropWhile (p := separates) (l := c.rest)
  have hfirst := List.head?_dropWhile_not separates c.rest
  refine ⟨c.rest.takeWhile separates, ?_⟩
  unfold next at h ⊢
  dsimp only at h ⊢
  cases hd : c.rest.dropWhile separates with
  | nil => simp [hd, Token.isStop] at h
  | cons x xs =>
    rw [hd] at hsplit hfirst
    obtain ⟨hwf, hlong⟩ := @Front.read_longest x xs (by simpa using hfirst)
    refine ⟨?_, fun y hy => List.mem_takeWhile_imp hy, hwf, hlong⟩
    have htext := Front.lexeme_append_rest x xs
    rw [List.append_assoc]
    exact (congrArg _ htext).trans hsplit |>.symm

theorem stop_iff : c.next.1.isStop = true ↔ ∀ x ∈ c.rest, separates x := by
  rw [← List.dropWhile_eq_nil_iff]
  unfold next
  dsimp only
  cases c.rest.dropWhile separates with
  | nil => simp [Token.isStop]
  | cons x xs => simp [Token.isStop, Front.kind_read_ne_stop]

end Cursor

def spread (parts : List (Lexeme × Text)) : Text := parts.flatMap (fun p => p.1.text ++ p.2)

/-- A text as blanks, lexemes and the blanks after each. Where two lexemes have nothing between
them, they are not read otherwise for that. -/
structure Cutting (s : Text) where
  front : Text
  parts : List (Lexeme × Text)
  text_eq : front ++ spread parts = s
  blank : ∀ w ∈ front :: parts.map Prod.snd, ∀ c ∈ w, separates c
  wellFormed : ∀ p ∈ parts, p.1.WellFormed
  apart : parts.IsChain (fun p q => p.2 = [] → ¬ p.1.Fuses q.1)

def Cutting.lexemes {s : Text} (cut : Cutting s) : List Lexeme := cut.parts.map Prod.fst

theorem head?_spread {p : Lexeme × Text} {parts : List (Lexeme × Text)} (h : p.1.WellFormed) :
    (spread (p :: parts)).head? = p.1.text.head? := by
  obtain ⟨x, xs, hx⟩ := List.exists_cons_of_ne_nil h.text_ne_nil
  simp [spread, hx]

theorem Lexeme.longest_of_apart {l : Lexeme} {w : Text} {parts : List (Lexeme × Text)}
    (hw : ∀ c ∈ w, separates c) (hparts : ∀ p ∈ parts, p.1.WellFormed)
    (h : ∀ q ∈ parts.head?, w = [] → ¬ l.Fuses q.1) :
    ∀ x ∈ (w ++ spread parts).head?, l.goesOn x = false := by
  intro x hx
  cases w with
  | cons y w =>
    obtain rfl : y = x := by simpa using hx
    exact l.goesOn_eq_false_of_separates (hw y List.mem_cons_self)
  | nil =>
    cases parts with
    | nil => cases hx
    | cons q parts =>
      have hq := hparts q List.mem_cons_self
      rw [List.nil_append, head?_spread hq] at hx
      rw [Bool.eq_false_iff, Ne, hq.goesOn_iff hx]
      exact h q rfl rfl

theorem Cutting.lexemes_eq {c : Cursor} (cut : Cutting c.rest) :
    cut.lexemes = c.tokens.map Token.spelling := by
  obtain ⟨front, parts, text_eq, blank, wellFormed, apart⟩ := cut
  dsimp only [lexemes]
  -- each lexeme of the cutting is the next token, and the blanks after it come before the others
  induction parts generalizing front c with
  | nil =>
    have hrest : c.rest = front := by simpa [spread] using text_eq.symm
    have hstop : c.next.1.isStop = true :=
      Cursor.stop_iff.mpr (hrest ▸ blank front List.mem_cons_self)
    rw [Cursor.tokens_of_stop hstop, List.map_nil, List.map_nil]
  | cons p parts ih =>
    obtain ⟨hp, hparts⟩ := List.forall_mem_cons.mp wellFormed
    obtain ⟨hhead, hchain⟩ := List.isChain_cons.mp apart
    obtain ⟨hfront, hblank⟩ := List.forall_mem_cons.mp blank
    have hf : c.Faces front p.1 (p.2 ++ spread parts) := by
      refine ⟨by simp [← text_eq, spread], hfront, hp, ?_⟩
      exact Lexeme.longest_of_apart (hblank p.2 List.mem_cons_self) hparts hhead
    have hn : c.next.1.spelling = p.1 := by rw [hf.next_eq]; rfl
    have hr : c.next.2.rest = p.2 ++ spread parts := by rw [hf.next_eq]
    rw [Cursor.tokens_of_not_stop hf.not_stop, List.map_cons, List.map_cons, hn,
      ih p.2 hr.symm hblank hparts hchain]

theorem Cursor.nonempty_cutting (c : Cursor) : Nonempty (Cutting c.rest) := by
  induction hn : c.rest.length using Nat.strongRecOn generalizing c with
  | ind n ih =>
    cases hs : c.next.1.isStop with
    | true => exact ⟨⟨c.rest, [], by simp [spread], by simpa using stop_iff.mp hs, by simp, .nil⟩⟩
    | false =>
      obtain ⟨blanks, hf⟩ := exists_faces hs
      obtain ⟨cut⟩ := ih _ (hn ▸ length_rest_next hs) c.next.2 rfl
      refine ⟨⟨blanks, (c.next.1.spelling, cut.front) :: cut.parts, ?_, ?_, ?_, ?_⟩⟩
      · have htext : spread ((c.next.1.spelling, cut.front) :: cut.parts) =
            c.next.1.spelling.text ++ (cut.front ++ spread cut.parts) := by simp [spread]
        rw [htext, cut.text_eq, ← List.append_assoc]
        exact hf.text_eq.symm
      · exact List.forall_mem_cons.mpr ⟨hf.blank, cut.blank⟩
      · exact List.forall_mem_cons.mpr ⟨hf.wellFormed, cut.wellFormed⟩
      · refine List.isChain_cons.mpr ⟨?_, cut.apart⟩
        -- the next lexeme begins where this one was not gone on with
        intro q hq (hnil : cut.front = [])
        obtain ⟨parts, hparts⟩ := List.head?_eq_some_iff.mp hq
        have hqw : q.1.WellFormed := cut.wellFormed q (List.mem_of_head? hq)
        obtain ⟨x, xs, hx⟩ := List.exists_cons_of_ne_nil hqw.text_ne_nil
        have hfirst : q.1.text.head? = some x := by rw [hx]; rfl
        have hrest : c.next.2.rest.head? = some x := by
          rw [← cut.text_eq, hparts, hnil, List.nil_append, head?_spread hqw, hfirst]
        rw [← hqw.goesOn_iff hfirst, hf.longest x hrest]
        exact Bool.false_ne_true

theorem filter_spread {parts : List (Lexeme × Text)}
    (hw : ∀ w ∈ parts.map Prod.snd, ∀ c ∈ w, separates c) (hp : ∀ p ∈ parts, p.1.WellFormed) :
    (spread parts).filter (fun c => !separates c) = (parts.map Prod.fst).flatMap Lexeme.text := by
  induction parts with
  | nil => rfl
  | cons p parts ih =>
    obtain ⟨hp, hparts⟩ := List.forall_mem_cons.mp hp
    obtain ⟨hw, hws⟩ := List.forall_mem_cons.mp hw
    have ht : p.1.text.filter (fun c => !separates c) = p.1.text :=
      List.filter_eq_self.mpr (fun c hc => by simp [hp.not_separates hc])
    have hb : p.2.filter (fun c => !separates c) = [] :=
      List.filter_eq_nil_iff.mpr (fun c hc => by simp [hw c hc])
    have ih := ih hws hparts
    simp only [spread, List.flatMap_cons, List.map_cons, List.filter_append, ht, hb] at ih ⊢
    rw [ih, List.append_nil]

theorem Cutting.flatMap_lexemes {s : Text} (cut : Cutting s) :
    cut.lexemes.flatMap Lexeme.text = s.filter (fun c => !separates c) := by
  obtain ⟨hfront, hblank⟩ := List.forall_mem_cons.mp cut.blank
  have hb : cut.front.filter (fun c => !separates c) = [] :=
    List.filter_eq_nil_iff.mpr (fun c hc => by simp [hfront c hc])
  calc cut.lexemes.flatMap Lexeme.text
    _ = (spread cut.parts).filter (fun c => !separates c) :=
      (filter_spread hblank cut.wellFormed).symm
    _ = (cut.front ++ spread cut.parts).filter (fun c => !separates c) := by
      rw [List.filter_append, hb, List.nil_append]
    _ = s.filter (fun c => !separates c) := by rw [cut.text_eq]

theorem Cursor.wellFormed_of_mem {c : Cursor} {t : Token} (h : t ∈ c.tokens) :
    t.spelling.WellFormed := by
  obtain ⟨cut⟩ := c.nonempty_cutting
  have hmem : t.spelling ∈ cut.lexemes := cut.lexemes_eq ▸ List.mem_map_of_mem h
  obtain ⟨p, hp, hl⟩ := List.mem_map.mp hmem
  exact hl ▸ cut.wellFormed p hp

theorem Cursor.flatMap_lexeme (c : Cursor) :
    c.tokens.flatMap Token.lexeme = c.rest.filter (fun x => !separates x) := by
  obtain ⟨cut⟩ := c.nonempty_cutting
  rw [← cut.flatMap_lexemes, cut.lexemes_eq, List.flatMap_map]
  rfl

/-- The tokens of a text are the lexemes that it can be cut into, and there are no others; nothing
but separators is left out of them. -/
theorem tokens_longest (firstLine : Nat) (s : Text) :
    (∀ ls, (∃ cut : Cutting s, cut.lexemes = ls) ↔
      ls = (Cursor.start firstLine s).tokens.map Token.spelling) ∧
      (Cursor.start firstLine s).tokens.flatMap Token.lexeme =
        s.filter (fun c => !separates c) := by
  have hall : ∀ cut : Cutting s,
      cut.lexemes = (Cursor.start firstLine s).tokens.map Token.spelling :=
    fun cut => Cutting.lexemes_eq (c := Cursor.start firstLine s) cut
  obtain ⟨cut⟩ : Nonempty (Cutting s) := (Cursor.start firstLine s).nonempty_cutting
  constructor
  · intro ls
    constructor
    · rintro ⟨cut, rfl⟩
      exact hall cut
    · rintro rfl
      exact ⟨cut, hall cut⟩
  · rw [← cut.flatMap_lexemes, hall cut, List.flatMap_map]
    rfl

example : (Cursor.start 1 "<===é".toList).tokens.map Token.spelling =
    [⟨.mark .less true, ['<', '=']⟩, ⟨.mark .equal true, ['=', '=']⟩, ⟨.stray, ['é']⟩] := by
  decide +kernel

end Reckon
