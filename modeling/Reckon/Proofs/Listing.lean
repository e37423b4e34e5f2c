import Reckon.Proofs.Readback

/-!
Listings by their characters. No lexeme but a `;` has a `;` in it, so a listing can be told without
cutting the line into tokens: the blanks are left out, and a row ends after every `;`, or after the
`=` that stands right behind it. Main statement: a listing has the characters of its line in rows of
one statement each, and the listing of a listing is the listing itself.
-/

set_option autoImplicit false

namespace Reckon

/-- A text without its blanks, with a newline after every `;` and every `;=`. -/
def layOut : Text → Text
  | [] => []
  | ';' :: '=' :: s => ';' :: '=' :: '\n' :: layOut s
  | c :: s =>
    if separates c then layOut s
    else if c = ';' then ';' :: '\n' :: layOut s
    else c :: layOut s

section LayOut

variable {c : Char} {s w : Text}

theorem layOut_cons (h : c ≠ ';') :
    layOut (c :: s) = if separates c then layOut s else c :: layOut s := by
  rw [layOut]
  · rw [if_neg h]
  · rintro s' rfl
    exact absurd rfl h

theorem layOut_semicolon (h : s.head? ≠ some '=') :
    layOut (';' :: s) = ';' :: '\n' :: layOut s := by
  rw [layOut]
  · rfl
  · rintro s' - rfl
    exact h rfl

theorem layOut_blank (h : ∀ x ∈ w, separates x) : layOut (w ++ s) = layOut s := by
  induction w with
  | nil => rfl
  | cons x w ih =>
    obtain ⟨hx, hw⟩ := List.forall_mem_cons.mp h
    have hne : x ≠ ';' := by
      rintro rfl
      cases hx
    rw [List.cons_append, layOut_cons hne, if_pos hx, ih hw]

theorem layOut_plain (h : ∀ x ∈ w, separates x = false) (hs : ';' ∉ w) :
    layOut (w ++ s) = w ++ layOut s := by
  induction w with
  | nil => rfl
  | cons x w ih =>
    obtain ⟨hx, hw⟩ := List.forall_mem_cons.mp h
    obtain ⟨hne, hs⟩ := not_or.mp (mt List.mem_cons.mpr hs)
    rw [List.cons_append, layOut_cons (Ne.symm hne), if_neg (by simp [hx]), ih hw hs,
      List.cons_append]

theorem layOut_layOut (s : Text) : layOut (layOut s) = layOut s := by
  have hnewline : ∀ t, layOut ('\n' :: t) = layOut t := fun t =>
    layOut_blank (w := ['\n']) (by simp [separates])
  fun_induction layOut s with
  | case1 => rfl
  | case2 s ih => rw [layOut, hnewline, ih]
  | case3 c s _ hc ih => exact ih
  | case4 s _ hc ih => rw [layOut_semicolon (by simp), hnewline, ih]
  | case5 c s _ hc hne ih => rw [layOut_cons hne, if_neg hc, ih]

theorem layOut_concat_newline (s : Text) : layOut (s ++ ['\n']) = layOut s := by
  fun_induction layOut s with
  | case1 => rfl
  | case2 s ih => rw [List.cons_append, List.cons_append, layOut, ih]
  | case3 c s _ hc ih =>
    have hne : c ≠ ';' := by
      rintro rfl
      cases hc
    rw [List.cons_append, layOut_cons hne, if_pos hc, ih]
  | case4 s hext hc ih =>
    have hhead : (s ++ ['\n']).head? ≠ some '=' := by
      cases s with
      | nil => decide
      | cons x s =>
        rintro ⟨⟩
        exact hext s rfl rfl
    rw [List.cons_append, layOut_semicolon hhead, ih]
  | case5 c s _ hc hne ih => rw [List.cons_append, layOut_cons hne, if_neg hc, ih]

theorem layOut_endRow (s : Text) : layOut (endRow s) = layOut s := by
  unfold endRow
  split
  · rfl
  · rfl
  · exact layOut_concat_newline s

theorem filter_layOut (s : Text) :
    (layOut s).filter (· != '\n') = s.filter (fun c => !separates c) := by
  fun_induction layOut s with
  | case1 => rfl
  | case2 s ih => simp [ih, separates]
  | case3 c s _ hc ih => simp [ih, hc]
  | case4 s _ hc ih => simp [ih, hc]
  | case5 c s _ hc hne ih =>
    have hnewline : c ≠ '\n' := by
      rintro rfl
      exact hc rfl
    simp [ih, hc, hnewline]

theorem filter_endRow (s : Text) : (endRow s).filter (· != '\n') = s.filter (· != '\n') := by
  unfold endRow
  split
  · rfl
  · rfl
  · simp

end LayOut

theorem Lexeme.WellFormed.text_of_semicolon {l : Lexeme} (h : l.WellFormed)
    (hl : l.kind.head = .mark .semicolon false) :
    l.text = [';'] ∧ (∀ x, l.goesOn x = (x == '=')) ∨ l.text = [';', '='] := by
  cases h with
  | number | word | stray => cases hl
  | bare m =>
    obtain rfl : m = .semicolon := by simpa [Kind.head] using hl
    exact .inl ⟨rfl, fun _ => rfl⟩
  | extended m =>
    simp only [Kind.head, Kind.mark.injEq] at hl
    obtain rfl : m = .semicolon := hl.1
    exact .inr rfl

theorem Cursor.Faces.layOut_eq {c : Cursor} {blanks rest : Text} {l : Lexeme}
    (h : c.Faces blanks l rest) :
    layOut c.rest = c.next.1.listed ++ layOut rest := by
  rw [h.text_eq, List.append_assoc, layOut_blank h.blank, h.next_eq, Token.listed]
  split
  · next hsemi =>
    rcases h.wellFormed.text_of_semicolon (Token.head_eq_of_actsAs hsemi) with
      ⟨htext, hgoes⟩ | htext
    · have hhead : rest.head? ≠ some '=' := by
        intro he
        have hno := h.longest '=' he
        rw [hgoes] at hno
        cases hno
      simp [htext, layOut_semicolon hhead]
    · simp [htext, layOut]
  · next hsemi =>
    apply layOut_plain (fun x hx => h.wellFormed.not_separates hx)
    rw [h.wellFormed.mem_semicolon_iff]
    simpa [Token.actsAs] using hsemi

theorem Cursor.flatMap_listed (c : Cursor) : c.tokens.flatMap Token.listed = layOut c.rest := by
  induction hn : c.rest.length using Nat.strongRecOn generalizing c with
  | ind n ih =>
    cases hs : c.next.1.isStop with
    | true =>
      have hblank := layOut_blank (s := []) (stop_iff.mp hs)
      rw [List.append_nil] at hblank
      rw [tokens_of_stop hs, hblank]
      rfl
    | false =>
      obtain ⟨blanks, hf⟩ := exists_faces hs
      rw [tokens_of_not_stop hs, List.flatMap_cons, ih _ (hn ▸ length_rest_next hs) c.next.2 rfl,
        hf.layOut_eq]

theorem listing_eq (lineNumber : Nat) (line : Text) :
    listing lineNumber line = endRow (layOut line) := by
  rw [listing, Cursor.flatMap_listed]
  rfl

theorem listing_listing (m n : Nat) (line : Text) :
    listing m (listing n line) = listing n line := by
  rw [listing_eq m, listing_eq n, layOut_endRow, layOut_layOut]

theorem filter_listing (lineNumber : Nat) (line : Text) :
    (listing lineNumber line).filter (· != '\n') = line.filter (fun c => !separates c) := by
  rw [listing_eq, filter_endRow, filter_layOut]

theorem listing_eq_nil_iff {lineNumber : Nat} {line : Text} :
    listing lineNumber line = [] ↔ (Cursor.start lineNumber line).tokens = [] := by
  constructor
  · intro h
    have hnone : (Cursor.start lineNumber line).tokens.flatMap Token.lexeme = [] := by
      rw [Cursor.flatMap_lexeme]
      exact (filter_listing lineNumber line).symm.trans (by rw [h]; rfl)
    rw [List.eq_nil_iff_forall_not_mem]
    intro t ht
    exact (Cursor.wellFormed_of_mem ht).text_ne_nil (List.flatMap_eq_nil_iff.mp hnone t ht)
  · intro h
    rw [listing, h]
    rfl

theorem Row.semicolons (row : Row) (h : ∀ t ∈ row.tokens, t.spelling.WellFormed) :
    (∀ t ∈ row.body, ';' ∉ t.lexeme) ∧
      ∀ t ∈ row.terminator, t.lexeme = [';'] ∨ t.lexeme = [';', '='] := by
  constructor
  · intro t ht hsemi
    have hhead : t.kind.head = .mark .semicolon false :=
      (h t (List.mem_append_left _ ht)).mem_semicolon_iff.mp hsemi
    exact row.body_plain t ht (by simpa [Token.actsAs] using hhead)
  · intro t ht
    have hhead := Token.head_eq_of_actsAs (row.terminates t ht)
    rcases (h t (List.mem_append_right _ (by simpa using ht))).text_of_semicolon hhead with h | h
    · exact .inl h.1
    · exact .inr h

/-- A listing has the characters of its line but the separators, in rows that are not empty. The
rows are made of the tokens of the line: a `;` or `;=` ends its row, only the last row may have
none, and there is no other `;` in a row. A listing that is listed again stays as it is. -/
theorem listing_laidOut (lineNumber : Nat) (line : Text) :
    (listing lineNumber line).filter (· != '\n') = line.filter (fun c => !separates c) ∧
    (listing lineNumber line = [] ↔ (Cursor.start lineNumber line).tokens = []) ∧
    (∃ rows : List Row, rows.flatMap Row.tokens = (Cursor.start lineNumber line).tokens ∧
      listing lineNumber line = unrows (rows.map Row.text) ∧
      (∀ row ∈ rows, row.text ≠ [] ∧ '\n' ∉ row.text ∧ (∀ t ∈ row.body, ';' ∉ t.lexeme) ∧
        ∀ t ∈ row.terminator, t.lexeme = [';'] ∨ t.lexeme = [';', '=']) ∧
      ∀ row ∈ rows.dropLast, row.terminator.isSome) ∧
    ∀ other, listing other (listing lineNumber line) = listing lineNumber line := by
  obtain ⟨rows, htokens, hrows, hfilled, hended⟩ := exists_rows_listing lineNumber line
  refine ⟨filter_listing _ _, listing_eq_nil_iff, ⟨rows, htokens, hrows, ?_, hended⟩,
    fun other => listing_listing other _ _⟩
  intro row hrow
  have hwf : ∀ t ∈ row.tokens, t.spelling.WellFormed := by
    intro t ht
    exact Cursor.wellFormed_of_mem (htokens ▸ List.mem_flatMap.mpr ⟨row, hrow, ht⟩)
  exact ⟨(hfilled row hrow).1, (hfilled row hrow).2, row.semicolons hwf⟩

example : listing 1 "1 2;= ; = a<\t=é".toList = "12;=\n;\n=a<=é\n".toList := by decide +kernel

end Reckon
