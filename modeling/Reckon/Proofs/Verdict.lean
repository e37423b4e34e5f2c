import Reckon.Proofs.Idle
import Reckon.Proofs.Report

set_option autoImplicit false

namespace Reckon

def isAccepted (c : Char) : Bool := c.isDigit || " \t\n\r+-*/()^;<>=!".toList.contains c

/-- What is no part of the language in a text that begins at a place: a run of letters with no
letter right before or after it, or a single other character. -/
inductive Offends (here : Location) (s : Text) : Token → Prop where
  | word (before run after : Text) : s = before ++ run ++ after → run ≠ [] →
      (∀ c ∈ run, c.isAlpha) →
      (∀ c ∈ before.getLast?, c.isAlpha = false) → (∀ c ∈ after.head?, c.isAlpha = false) →
      Offends here s ⟨.word, run, here.after before⟩
  | stray (before after : Text) (c : Char) : s = before ++ c :: after → c.isAlpha = false →
      isAccepted c = false → Offends here s ⟨.stray, [c], here.after before⟩

/-- The token that stands for all of them: the last word, and without a word the last of all. -/
inductive Representative : List Token → Token → Prop where
  | word {before after : List Token} {t : Token} : t.kind = .word → (∀ u ∈ after, u.kind ≠ .word) →
      Representative (before ++ t :: after) t
  | last {before : List Token} {t : Token} : (∀ u ∈ before ++ [t], u.kind ≠ .word) →
      Representative (before ++ [t]) t

section Characters

variable {c : Char} {l : Lexeme}

theorem isAccepted_iff : isAccepted c ↔ separates c ∨ c.isDigit ∨ ∃ m : Mark, m.toChar = c := by
  have hlist : " \t\n\r+-*/()^;<>=!".toList =
    [' ', '\t', '\n', '\r'] ++ "+-*/()^;<>=!".toList := rfl
  have hblank : c ∈ [' ', '\t', '\n', '\r'] ↔ separates c := by simp [separates_iff]
  have hmark : c ∈ "+-*/()^;<>=!".toList ↔ ∃ m : Mark, m.toChar = c := by
    constructor
    · intro h
      have hall : "+-*/()^;<>=!".toList.all (fun d => (Mark.ofChar? d).isSome) := by decide
      obtain ⟨m, hm⟩ := Option.isSome_iff_exists.mp (List.all_eq_true.mp hall c h)
      exact ⟨m, Mark.toChar_of_ofChar? hm⟩
    · rintro ⟨m, rfl⟩
      cases m <;> decide
  rw [isAccepted, Bool.or_eq_true, List.contains_iff_mem, hlist, List.mem_append, hblank, hmark]
  exact or_left_comm

theorem not_isAlpha_of_isAccepted (h : isAccepted c) : c.isAlpha = false := by
  cases ha : c.isAlpha with
  | false => rfl
  | true =>
    rcases isAccepted_iff.mp h with hs | hd | ⟨m, rfl⟩
    · rw [separates_eq_false (.inr (.inl ha))] at hs
      cases hs
    · rw [isDigit_eq_false_of_isAlpha ha] at hd
      cases hd
    · rw [m.toChar_not_run.2.2] at ha
      cases ha

theorem Lexeme.WellFormed.isAccepted_eq (h : l.WellFormed) (hc : c ∈ l.text) :
    isAccepted c = !l.kind.malformed := by
  cases h with
  | number _ hd => simp [isAccepted, hd c hc, Kind.malformed]
  | word _ ha =>
    cases hacc : isAccepted c with
    | false => rfl
    | true =>
      have hc := ha c hc
      rw [not_isAlpha_of_isAccepted hacc] at hc
      cases hc
  | bare m =>
    obtain rfl := List.mem_singleton.mp hc
    exact isAccepted_iff.mpr (.inr (.inr ⟨m, rfl⟩))
  | extended m =>
    rcases List.mem_cons.mp hc with rfl | hc
    · exact isAccepted_iff.mpr (.inr (.inr ⟨m, rfl⟩))
    · obtain rfl := List.mem_singleton.mp hc
      rfl
  | stray hs hd _ hm =>
    obtain rfl := List.mem_singleton.mp hc
    cases hacc : isAccepted c with
    | false => rfl
    | true =>
      rcases isAccepted_iff.mp hacc with h | h | ⟨m, h⟩
      · simp [hs] at h
      · simp [hd] at h
      · exact absurd h (hm m)

end Characters

namespace Offends

variable {here : Location} {c x : Char} {s w run before after : Text} {t : Token}

theorem cons_iff (hc : c.isAlpha = false) :
    Offends here (c :: s) t ↔
      (isAccepted c = false ∧ t = ⟨.stray, [c], here⟩) ∨ Offends (here.step c) s t := by
  constructor
  · intro h
    cases h with
    | word before run after hs hne hrun hbefore hafter =>
      cases before with
      | nil =>
        obtain ⟨x, xs, rfl⟩ := List.exists_cons_of_ne_nil hne
        obtain ⟨rfl, -⟩ := List.cons_eq_cons.mp hs
        rw [hrun c List.mem_cons_self] at hc
        cases hc
      | cons x before =>
        obtain ⟨rfl, htail⟩ := List.cons_eq_cons.mp hs
        refine .inr (.word before run after htail hne hrun ?_ hafter)
        intro y hy
        exact hbefore y (by rw [List.getLast?_cons, Option.mem_def.mp hy]; rfl)
    | stray before after x hs hx hacc =>
      cases before with
      | nil =>
        obtain ⟨rfl, -⟩ := List.cons_eq_cons.mp hs
        exact .inl ⟨hacc, rfl⟩
      | cons y before =>
        obtain ⟨rfl, htail⟩ := List.cons_eq_cons.mp hs
        exact .inr (.stray before after x htail hx hacc)
  · rintro (⟨hacc, rfl⟩ | h)
    · exact .stray [] s c rfl hc hacc
    · cases h with
      | word before run after hs hne hrun hbefore hafter =>
        refine .word (c :: before) run after (by rw [hs]; rfl) hne hrun ?_ hafter
        intro y hy
        cases hl : before.getLast? with
        | none =>
          obtain rfl : c = y := by simpa [List.getLast?_cons, hl] using hy
          exact hc
        | some z =>
          obtain rfl : z = y := by simpa [List.getLast?_cons, hl] using hy
          exact hbefore z hl
      | stray before after x hs hx hacc =>
        exact .stray (c :: before) after x (by rw [hs]; rfl) hx hacc

theorem accepted_append_iff (hw : ∀ c ∈ w, isAccepted c) :
    Offends here (w ++ s) t ↔ Offends (here.after w) s t := by
  induction w generalizing here with
  | nil => rfl
  | cons c w ih =>
    obtain ⟨hc, hw⟩ := List.forall_mem_cons.mp hw
    rw [List.cons_append, cons_iff (not_isAlpha_of_isAccepted hc), ih hw]
    simp [hc, Location.after]

theorem exists_beyond_run (hrun : ∀ c ∈ run, c.isAlpha) (hx : x.isAlpha = false)
    (h : run ++ s = before ++ x :: after) :
    ∃ rest, before = run ++ rest ∧ s = rest ++ x :: after := by
  rcases List.append_eq_append_iff.mp h with ⟨rest, hbefore, hs⟩ | ⟨rest, hsplit, hs⟩
  · exact ⟨rest, hbefore, hs⟩
  · cases rest with
    | nil => exact ⟨[], by simpa using hsplit.symm, hs.symm⟩
    | cons y rest =>
      obtain ⟨rfl, -⟩ := List.cons_eq_cons.mp hs
      rw [hrun x (by simp [hsplit])] at hx
      cases hx

theorem run_append_iff (hne : run ≠ []) (hrun : ∀ c ∈ run, c.isAlpha)
    (hs : ∀ c ∈ s.head?, c.isAlpha = false) :
    Offends here (run ++ s) t ↔ t = ⟨.word, run, here⟩ ∨ Offends (here.after run) s t := by
  constructor
  · intro h
    cases h with
    | word before run' after heq hne' hrun' hbefore hafter =>
      cases hl : before.getLast? with
      | none =>
        -- both runs are the letters at the beginning of the text
        obtain rfl := List.getLast?_eq_none_iff.mp hl
        have hruns := congrArg (List.takeWhile Char.isAlpha) heq
        rw [(Front.takeWhile_run hrun hs).1, List.nil_append,
          (Front.takeWhile_run hrun' hafter).1] at hruns
        exact .inl (by rw [hruns]; rfl)
      | some y =>
        obtain ⟨front, rfl⟩ := List.getLast?_eq_some_iff.mp hl
        have hy : y.isAlpha = false := hbefore y hl
        obtain ⟨rest, rfl, hrest⟩ :=
          @exists_beyond_run y s run front (run' ++ after) hrun hy (by simpa using heq)
        rw [List.append_assoc, Location.after_append]
        exact .inr (.word (rest ++ [y]) run' after (by simpa using hrest) hne' hrun'
          (by simpa using hy) hafter)
    | stray before after x heq hx hacc =>
      obtain ⟨rest, rfl, hrest⟩ := exists_beyond_run hrun hx heq
      rw [Location.after_append]
      exact .inr (.stray rest after x hrest hx hacc)
  · rintro (rfl | h)
    · exact .word [] run s rfl hne hrun (by simp) hs
    · cases h with
      | word before run' after heq hne' hrun' hbefore hafter =>
        rw [← Location.after_append]
        refine .word (run ++ before) run' after (by rw [heq]; simp) hne' hrun' ?_ hafter
        intro y hy
        cases before with
        | nil =>
          obtain ⟨z, zs, rfl⟩ := List.exists_cons_of_ne_nil hne'
          have hz : z.isAlpha = false := hs z (by rw [heq]; rfl)
          rw [hrun' z List.mem_cons_self] at hz
          cases hz
        | cons z before =>
          exact hbefore y (by simpa [List.getLast?_append, List.getLast?_cons] using hy)
      | stray before after x heq hx hacc =>
        rw [← Location.after_append]
        exact .stray (run ++ before) after x (by rw [heq]; simp) hx hacc

theorem not_nil : ¬ Offends here [] t := by
  intro h
  cases h with
  | word before run after hs hne => simp [hne] at hs
  | stray before after x hs => simp at hs

end Offends

namespace Cursor

variable {c : Cursor} {blanks rest : Text} {l : Lexeme} {t : Token}

theorem Faces.offends_iff (h : c.Faces blanks l rest) :
    Offends c.here c.rest t ↔
      (l.kind.malformed ∧ t = c.next.1) ∨ Offends c.next.2.here c.next.2.rest t := by
  have hblanks : ∀ x ∈ blanks, isAccepted x := fun x hx => isAccepted_iff.mpr (.inl (h.blank x hx))
  have haccepted : ∀ x ∈ l.text, isAccepted x = !l.kind.malformed :=
    fun x hx => h.wellFormed.isAccepted_eq hx
  rw [h.next_eq, h.text_eq, List.append_assoc, Offends.accepted_append_iff hblanks]
  obtain ⟨-, -, hwf, hlongest⟩ := h
  cases hm : l.kind.malformed with
  | false =>
    rw [Offends.accepted_append_iff (fun x hx => by simpa [hm] using haccepted x hx)]
    simp
  | true =>
    cases hwf with
    | number | bare | extended => cases hm
    | word hne ha =>
      rw [Offends.run_append_iff hne ha hlongest]
      simp
    | @stray x hs hd ha hmark =>
      rw [List.singleton_append, Offends.cons_iff ha]
      have hx : isAccepted x = false := haccepted x List.mem_cons_self
      simp [hx, Location.after]

theorem mem_malformed_iff (c : Cursor) (t : Token) :
    t ∈ c.tokens.filter (fun t => t.kind.malformed) ↔ Offends c.here c.rest t := by
  induction hn : c.rest.length using Nat.strongRecOn generalizing c with
  | ind n ih =>
    cases hs : c.next.1.isStop with
    | true =>
      have hrest : ∀ x ∈ c.rest, isAccepted x := fun x hx =>
        isAccepted_iff.mpr (.inl (stop_iff.mp hs x hx))
      have hno : ¬ Offends c.here c.rest t := by
        rw [← List.append_nil c.rest, Offends.accepted_append_iff hrest]
        exact Offends.not_nil
      simp [tokens_of_stop hs, hno]
    | false =>
      obtain ⟨blanks, hf⟩ := exists_faces hs
      have ih := ih _ (hn ▸ length_rest_next hs) c.next.2 rfl
      rw [hf.offends_iff, ← ih, tokens_of_not_stop hs, List.filter_cons]
      have hkind : c.next.1.spelling.kind = c.next.1.kind := rfl
      rw [hkind]
      split
      · next hm => simp [hm]
      · next hm => simp [hm]

theorem tokens_ordered (c : Cursor) :
    c.tokens.Pairwise (fun t u => t.location.offset < u.location.offset) := by
  induction hn : c.rest.length using Nat.strongRecOn generalizing c with
  | ind n ih =>
    cases hs : c.next.1.isStop with
    | true =>
      rw [tokens_of_stop hs]
      exact .nil
    | false =>
      rw [tokens_of_not_stop hs]
      refine .cons ?_ (ih _ (hn ▸ length_rest_next hs) c.next.2 rfl)
      intro u hu
      obtain ⟨-, -, -, hhere⟩ := c.exists_passed_next
      obtain ⟨blanks, hf⟩ := exists_faces hs
      have hpos : 0 < c.next.1.lexeme.length := List.length_pos_iff.mpr hf.wellFormed.text_ne_nil
      have hbytes := length_le_byteLength c.next.1.lexeme
      have hu := offset_le_of_mem hu
      rw [hhere, Location.offset_after] at hu
      omega

theorem malformed_eq_nil_iff (c : Cursor) :
    c.tokens.filter (fun t => t.kind.malformed) = [] ↔ ∀ x ∈ c.rest, isAccepted x := by
  rw [List.filter_eq_nil_iff]
  constructor
  · intro h x hx
    cases hs : separates x with
    | true => exact isAccepted_iff.mpr (.inl hs)
    | false =>
      have hmem : x ∈ c.tokens.flatMap Token.lexeme := by
        rw [c.flatMap_lexeme]
        exact List.mem_filter.mpr ⟨hx, by simp [hs]⟩
      obtain ⟨t, ht, hxt⟩ := List.mem_flatMap.mp hmem
      have hacc := (wellFormed_of_mem ht).isAccepted_eq hxt
      simpa [Token.spelling, h t ht] using hacc
  · intro h t ht
    obtain ⟨x, hxt⟩ := List.exists_mem_of_ne_nil t.lexeme (wellFormed_of_mem ht).text_ne_nil
    have hmem : x ∈ c.rest.filter (fun x => !separates x) := by
      rw [← c.flatMap_lexeme]
      exact List.mem_flatMap.mpr ⟨t, ht, hxt⟩
    have hacc := (wellFormed_of_mem ht).isAccepted_eq hxt
    rw [h x (List.mem_filter.mp hmem).1] at hacc
    simpa [Token.spelling] using hacc.symm

end Cursor

theorem Representative.mem {ts : List Token} {t : Token} (h : Representative ts t) : t ∈ ts := by
  cases h <;> simp

namespace Complaint

variable {ts : List Token} {c : Complaint}

theorem ofTokens?_eq_none_iff : ofTokens? ts = none ↔ ts = [] := by
  constructor
  · intro h
    simp only [ofTokens?, Option.map_eq_none_iff, Option.or_eq_none_iff] at h
    exact List.getLast?_eq_none_iff.mp h.2
  · rintro rfl
    rfl

theorem representative_of_ofTokens? (h : ofTokens? ts = some c) :
    c.malformed = ts ∧ Representative ts c.reported := by
  obtain ⟨t, ht, rfl⟩ := Option.map_eq_some_iff.mp h
  refine ⟨rfl, ?_⟩
  dsimp only
  cases hf : ts.reverse.find? (fun t => t.kind == .word) with
  | some u =>
    obtain rfl : u = t := by simpa [hf] using ht
    obtain ⟨hword, later, earlier, hts, hlater⟩ := List.find?_eq_some_iff_append.mp hf
    have hts : ts = earlier.reverse ++ u :: later.reverse := by
      rw [← List.reverse_reverse ts, hts]
      simp
    rw [hts]
    refine .word (by simpa using hword) ?_
    intro v hv
    simpa using hlater v (List.mem_reverse.mp hv)
  | none =>
    have hlast : ts.getLast? = some t := by simpa [hf] using ht
    obtain ⟨before, rfl⟩ := List.getLast?_eq_some_iff.mp hlast
    refine .last ?_
    intro v hv
    simpa using List.find?_eq_none.mp hf v (List.mem_reverse.mpr hv)

end Complaint

theorem complaint?_eq_none_iff {line : Text} :
    complaint? line = none ↔ ∀ x ∈ line, isAccepted x := by
  rw [complaint?, Complaint.ofTokens?_eq_none_iff]
  exact (Cursor.start 1 line).malformed_eq_nil_iff

theorem interpret_eq_lexical_iff {config : Config} {lineNumber : Nat} {line : Text}
    {c : Complaint} :
    interpret config lineNumber line = .lexical c ↔ complaint? line = some c := by
  unfold interpret
  cases complaint? line with
  | some c' => simp
  | none =>
    cases config.mode with
    | list => simp
    | evaluate => cases evaluate config.maxDepth line <;> simp

/-- A line is malformed by the characters that are no part of the language, wherever they stand. Its
complaint holds the longest runs of letters and the other such characters, each at its place, and
reports the last word or else the last of all; every other line is evaluated or listed. -/
theorem interpret_lexical (line : Text) :
    (complaint? line = none ↔ ∀ x ∈ line, isAccepted x) ∧
    (∀ c, complaint? line = some c →
      (∀ t, t ∈ c.malformed ↔ Offends (.start 1) line t) ∧
      c.malformed.Pairwise (fun t u => t.location.offset < u.location.offset) ∧
      Representative c.malformed c.reported) ∧
    ∀ (config : Config) (lineNumber : Nat),
      (∀ c, interpret config lineNumber line = .lexical c ↔ complaint? line = some c) ∧
      ((∃ c, interpret config lineNumber line = .lexical c) ↔ ∃ x ∈ line, isAccepted x = false) ∧
      ((∀ x ∈ line, isAccepted x) → interpret config lineNumber line =
        match config.mode, evaluate config.maxDepth line with
        | .evaluate, .ok v => .value v
        | .evaluate, .error e => .failed e
        | .list, _ => .listing (listing lineNumber line)) ∧
      ∀ other, interpret config other line = interpret config lineNumber line := by
  refine ⟨complaint?_eq_none_iff, ?_, ?_⟩
  · intro c hc
    obtain ⟨hmalformed, hreported⟩ := Complaint.representative_of_ofTokens? hc
    rw [hmalformed]
    exact ⟨(Cursor.start 1 line).mem_malformed_iff,
      (Cursor.start 1 line).tokens_ordered.sublist List.filter_sublist, hreported⟩
  · intro config lineNumber
    refine ⟨fun c => interpret_eq_lexical_iff, ?_, ?_, fun other => interpret_lineNumber _ _ _ _⟩
    · simp only [interpret_eq_lexical_iff, ← Option.isSome_iff_exists,
        ← Option.ne_none_iff_isSome, Ne, complaint?_eq_none_iff]
      simp
    · intro h
      rw [interpret, complaint?_eq_none_iff.mpr h]
      cases config.mode with
      | list => rfl
      | evaluate => cases evaluate config.maxDepth line <;> rfl

/-- The complaint comes after the `;` of a statement, and the word is not its last token. -/
theorem interpret_lexical_late :
    Offends (.start 1) "2;é ab#".toList ⟨.word, ['a', 'b'], ⟨1, 5, 5⟩⟩ ∧
      (∃ ts, Representative ts ⟨.word, ['a', 'b'], ⟨1, 5, 5⟩⟩ ∧
        interpret {} 7 "2;é ab#".toList = .lexical ⟨⟨.word, ['a', 'b'], ⟨1, 5, 5⟩⟩, ts⟩) ∧
      interpret {} 7 "6/2;".toList = .value 3 := by
  have hc : complaint? "2;é ab#".toList = some ⟨⟨.word, ['a', 'b'], ⟨1, 5, 5⟩⟩,
      [⟨.stray, ['é'], ⟨1, 3, 2⟩⟩, ⟨.word, ['a', 'b'], ⟨1, 5, 5⟩⟩,
        ⟨.stray, ['#'], ⟨1, 7, 7⟩⟩]⟩ := by
    decide +kernel
  have hv : evaluate defaultDepth "6/2;".toList = .ok 3 := by decide +kernel
  obtain ⟨hmem, -, hreported⟩ := (interpret_lexical "2;é ab#".toList).2.1 _ hc
  obtain ⟨hlexical, -⟩ := (interpret_lexical "2;é ab#".toList).2.2 {} 7
  obtain ⟨-, -, hvalue, -⟩ := (interpret_lexical "6/2;".toList).2.2 {} 7
  refine ⟨(hmem _).mp (by decide), ⟨_, hreported, (hlexical _).mpr hc⟩, ?_⟩
  rw [hvalue (List.all_eq_true.mp (by decide))]
  simp only [hv]

end Reckon
