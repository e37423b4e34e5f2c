import Mathlib.Data.List.Forall2
import Mathlib.Data.List.SplitBy
import Reckon.Proofs.Recoding
import Reckon.Proofs.Verdict

set_option autoImplicit false

namespace Reckon

def unrows (rows : List Text) : Text := rows.flatMap (fun row => row ++ ['\n'])

def rowsOf (bytes : Bytes) : List Text :=
  (splitLines bytes).map (fun row => chomp (Utf8.decode row))

/-- Rows in blocks: an empty row ends its block. -/
def blocksOf (rows : List Text) : List (List Text) := rows.splitBy (fun row _ => !row.isEmpty)

def Decimal.ofSigned : Text → Int
  | '-' :: ds => -(value ds : Int)
  | ds => value ds

/-- The number that a row says is the value, if it says so. -/
def statedValue? (row : Text) : Option Int :=
  ("Value is ".toList.isPrefixOf? row).map Decimal.ofSigned

/-- The lines that a run reports, decoded and without their newlines. -/
def reportedLines (bytes : Bytes) : List Text :=
  (((splitLines bytes).map Utf8.decode).filter (fun line => !isBlank line)).map chomp

/-- The rows of the block of a line: the line itself first, an empty row last and nowhere else, and
the value of the line in the third row if it has one. -/
structure BlockOf (config : Config) (line : Text) (rows : List Text) : Prop where
  written : unrows rows = line ++ '\n' :: (interpret config 1 line).text
  first : rows.head? = some line
  ended : ∃ front, rows = front ++ [[]] ∧ [] ∉ front
  value_iff : ∀ lineNumber v, interpret config lineNumber line = .value v ↔
    rows[2]?.bind statedValue? = some v
  four : config.mode = .evaluate → rows.length = 4

section Rows

variable {rows : List Text}

theorem unrows_append (rows rows' : List Text) :
    unrows (rows ++ rows') = unrows rows ++ unrows rows' :=
  List.flatMap_append

theorem unrows_cons (row : Text) (rows : List Text) :
    unrows (row :: rows) = row ++ '\n' :: unrows rows := by
  simp [unrows]

theorem splitLines_unrows (h : ∀ row ∈ rows, '\n' ∉ row) :
    splitLines (Utf8.encode (unrows rows)) =
      rows.map (fun row => Utf8.encode row ++ [newline]) := by
  induction rows with
  | nil => rfl
  | cons row rows ih =>
    obtain ⟨hrow, hrows⟩ := List.forall_mem_cons.mp h
    rw [unrows_cons, Utf8.encode_newline,
      splitLines_newline (Utf8.newline_not_mem_encode hrow), ih hrows, List.map_cons]

theorem rowsOf_unrows (h : ∀ row ∈ rows, '\n' ∉ row) :
    rowsOf (Utf8.encode (unrows rows)) = rows := by
  have hrow : ∀ row : Text, chomp (Utf8.decode (Utf8.encode row ++ [newline])) = row := by
    intro row
    rw [Utf8.decode_concat_newline, Utf8.decode_encode, chomp_concat_newline]
  rw [rowsOf, splitLines_unrows h, List.map_map]
  simp [Function.comp_def, hrow]

theorem blocksOf_flatten {blocks : List (List Text)}
    (h : ∀ block ∈ blocks, ∃ front, block = front ++ [[]] ∧ [] ∉ front) :
    blocksOf blocks.flatten = blocks := by
  have hlast : ∀ block ∈ blocks, ∃ hne : block ≠ [], block.getLast hne = [] := by
    intro block hblock
    obtain ⟨front, rfl, -⟩ := h block hblock
    exact ⟨by simp, by simp⟩
  apply List.splitBy_flatten
  · intro hnil
    exact (hlast [] hnil).1 rfl
  · intro block hblock
    obtain ⟨front, rfl, hfront⟩ := h block hblock
    have hfilled : ∀ row ∈ front, (!row.isEmpty) = true := by
      intro row hrow
      cases row with
      | nil => exact absurd hrow hfront
      | cons => rfl
    have hchain : front.IsChain (fun row _ => !row.isEmpty) :=
      (List.pairwise_of_forall_mem_list (fun row hrow _ _ => hfilled row hrow)).isChain
    refine List.isChain_append.mpr ⟨hchain, List.isChain_singleton _, ?_⟩
    intro row hrow _ _
    exact hfilled row (List.mem_of_getLast? hrow)
  · apply List.Pairwise.isChain
    apply List.pairwise_of_forall_mem_list
    intro a ha b hb
    obtain ⟨hne, hnil⟩ := hlast a ha
    obtain ⟨hne', -⟩ := hlast b hb
    exact ⟨hne, hne', by simp [hnil]⟩

end Rows

section Values

theorem Decimal.ofSigned_signed (v : Int) : ofSigned (signed v) = v := by
  cases v with
  | ofNat n =>
    have hsign : ∀ ds, digits n ≠ '-' :: ds := by
      intro ds hds
      have hdigit : '-'.isDigit :=
        @isDigit_of_mem_digits n '-' (by rw [hds]; exact List.mem_cons_self)
      cases hdigit
    rw [signed, ofSigned, value_digits]
    · rfl
    · exact hsign
  | negSucc n =>
    rw [signed, ofSigned, value_digits]
    rfl

theorem statedValue?_eq_some_iff {row : Text} {v : Int} :
    statedValue? row = some v ↔ ∃ s, "Value is ".toList ++ s = row ∧ Decimal.ofSigned s = v := by
  rw [statedValue?, Option.map_eq_some_iff]
  simp only [List.isPrefixOf?_eq_some_iff_append_eq]

theorem statedValue?_signed (v : Int) :
    statedValue? ("Value is ".toList ++ Decimal.signed v) = some v :=
  statedValue?_eq_some_iff.mpr ⟨_, rfl, Decimal.ofSigned_signed v⟩

theorem statedValue?_eq_none {row : Text} (h : 'V' ∉ row) : statedValue? row = none := by
  rw [Option.eq_none_iff_forall_ne_some]
  intro v hv
  obtain ⟨s, rfl, -⟩ := statedValue?_eq_some_iff.mp hv
  exact h (by simp)

end Values

/-- A row of a listing: tokens that are no `;`, and the `;` that ends the row if there is one. -/
structure Row where
  body : List Token
  terminator : Option Token
  body_plain : ∀ t ∈ body, ¬ t.actsAs (.mark .semicolon false)
  terminates : ∀ t ∈ terminator, t.actsAs (.mark .semicolon false)

namespace Row

def tokens (row : Row) : List Token := row.body ++ row.terminator.toList

def text (row : Row) : Text := row.tokens.flatMap Token.lexeme

def ended (t : Token) (h : t.actsAs (.mark .semicolon false)) : Row :=
  ⟨[], some t, by simp, by simpa using h⟩

def unended (t : Token) (h : ¬ t.actsAs (.mark .semicolon false)) : Row :=
  ⟨[t], none, by simpa using h, by simp⟩

def cons (row : Row) (t : Token) (h : ¬ t.actsAs (.mark .semicolon false)) : Row :=
  { row with body := t :: row.body, body_plain := List.forall_mem_cons.mpr ⟨h, row.body_plain⟩ }

end Row

section Listings

theorem endRow_concat (s : Text) (c : Char) :
    endRow (s ++ [c]) = if c = '\n' then s ++ [c] else s ++ [c] ++ ['\n'] := by
  rw [endRow, List.getLast?_concat]
  split
  · next h => cases h
  · next h =>
    rw [if_pos (Option.some.inj h)]
  · next c' hne h =>
    obtain rfl := Option.some.inj h
    rw [if_neg (fun hc => hne (by rw [hc]))]

theorem endRow_append {rest : Text} (s : Text) (h : rest ≠ []) :
    endRow (s ++ rest) = s ++ endRow rest := by
  obtain ⟨front, c, rfl⟩ := (List.eq_nil_or_concat' rest).resolve_left h
  rw [← List.append_assoc, endRow_concat, endRow_concat]
  split <;> simp only [List.append_assoc]

theorem endRow_newline (rest : Text) : endRow ('\n' :: rest) = '\n' :: endRow rest := by
  by_cases h : rest = []
  · rw [h]
    rfl
  · exact endRow_append ['\n'] h

theorem endRow_unended {s : Text} (hs : s ≠ []) (h : '\n' ∉ s) : endRow s = s ++ ['\n'] := by
  obtain ⟨front, c, rfl⟩ := (List.eq_nil_or_concat' s).resolve_left hs
  rw [endRow_concat, if_neg]
  rintro rfl
  exact h (by simp)

theorem exists_rows_listed {ts : List Token} (h : ∀ t ∈ ts, t.lexeme ≠ [] ∧ '\n' ∉ t.lexeme) :
    ∃ rows : List Row, rows.flatMap Row.tokens = ts ∧
      endRow (ts.flatMap Token.listed) = unrows (rows.map Row.text) ∧
      (∀ row ∈ rows, row.text ≠ [] ∧ '\n' ∉ row.text) ∧ ∀ row ∈ rows.dropLast,
        row.terminator.isSome := by
  induction ts with
  | nil => exact ⟨[], rfl, rfl, by simp, by simp⟩
  | cons t ts ih =>
    obtain ⟨⟨hne, hnl⟩, hts⟩ := List.forall_mem_cons.mp h
    obtain ⟨rows, htokens, hrows, hfilled, hended⟩ := ih hts
    rw [List.flatMap_cons, Token.listed]
    split
    · next ht =>
      have htext : (Row.ended t ht).text = t.lexeme := by simp [Row.text, Row.tokens, Row.ended]
      refine ⟨.ended t ht :: rows, by rw [List.flatMap_cons, htokens]; rfl, ?_, ?_, ?_⟩
      · rw [List.append_assoc, List.singleton_append, endRow_append _ (List.cons_ne_nil _ _),
          endRow_newline, hrows, List.map_cons, unrows_cons, htext]
      · exact List.forall_mem_cons.mpr ⟨htext ▸ ⟨hne, hnl⟩, hfilled⟩
      · cases rows with
        | nil => simp
        | cons row rows => exact List.forall_mem_cons.mpr ⟨rfl, hended⟩
    · next ht =>
      cases rows with
      | nil =>
        obtain rfl : [] = ts := htokens
        have htext : (Row.unended t ht).text = t.lexeme := by
          simp [Row.text, Row.tokens, Row.unended]
        refine ⟨[.unended t ht], rfl, ?_, by simpa [htext] using ⟨hne, hnl⟩, by simp⟩
        rw [List.flatMap_nil, List.append_nil, endRow_unended hne hnl, List.map_singleton,
          unrows_cons, htext]
        rfl
      | cons row rows =>
        -- the lexeme goes to the front of the row that follows it
        have hrest : ts.flatMap Token.listed ≠ [] := by
          intro hnil
          rw [hnil] at hrows
          simp [endRow, unrows] at hrows
        have htext : (row.cons t ht).text = t.lexeme ++ row.text := by
          simp [Row.text, Row.tokens, Row.cons]
        obtain ⟨⟨-, hrow⟩, hfilled⟩ := List.forall_mem_cons.mp hfilled
        refine ⟨row.cons t ht :: rows, by rw [← htokens]; simp [Row.tokens, Row.cons], ?_, ?_, ?_⟩
        · rw [endRow_append _ hrest, hrows, List.map_cons, List.map_cons, unrows_cons,
            unrows_cons, htext, List.append_assoc]
        · exact List.forall_mem_cons.mpr ⟨by simp [htext, hne, hnl, hrow], hfilled⟩
        · cases rows with
          | nil => simp
          | cons row' rows => exact List.forall_mem_cons.mpr (List.forall_mem_cons.mp hended)

theorem newline_not_mem_lexeme {c : Cursor} {t : Token} (h : t ∈ c.tokens) : '\n' ∉ t.lexeme := by
  intro hmem
  have hsep := (Cursor.wellFormed_of_mem h).not_separates hmem
  cases hsep

theorem exists_rows_listing (lineNumber : Nat) (line : Text) :
    ∃ rows : List Row, rows.flatMap Row.tokens = (Cursor.start lineNumber line).tokens ∧
      listing lineNumber line = unrows (rows.map Row.text) ∧
      (∀ row ∈ rows, row.text ≠ [] ∧ '\n' ∉ row.text) ∧ ∀ row ∈ rows.dropLast,
        row.terminator.isSome :=
  exists_rows_listed fun _ ht =>
    ⟨(Cursor.wellFormed_of_mem ht).text_ne_nil, newline_not_mem_lexeme ht⟩

theorem mem_endRow {s : Text} {x : Char} (h : x ∈ endRow s) : x ∈ s ∨ x = '\n' := by
  unfold endRow at h
  split at h
  · exact .inl h
  · exact .inl h
  · simpa using h

theorem Token.mem_listed {t : Token} {x : Char} (h : x ∈ t.listed) : x ∈ t.lexeme ∨ x = '\n' := by
  unfold listed at h
  split at h
  · simpa using h
  · exact .inl h

theorem mem_listing {lineNumber : Nat} {line : Text} {x : Char} (h : x ∈ listing lineNumber line) :
    x ∈ line ∨ x = '\n' := by
  rcases mem_endRow h with h | h
  · obtain ⟨t, ht, hx⟩ := List.mem_flatMap.mp h
    rcases Token.mem_listed hx with hx | hx
    · have hmem := List.mem_flatMap.mpr ⟨t, ht, hx⟩
      rw [Cursor.flatMap_lexeme] at hmem
      exact .inl (List.mem_filter.mp hmem).1
    · exact .inr hx
  · exact .inr h

end Listings

section Blocks

variable {config : Config} {lineNumber : Nat} {line : Text}

theorem Decimal.newline_not_mem_digits (n : Nat) : '\n' ∉ digits n := by
  intro h
  cases isDigit_of_mem_digits h

theorem Decimal.newline_not_mem_signed (v : Int) : '\n' ∉ signed v := by
  cases v with
  | ofNat n => exact newline_not_mem_digits n
  | negSucc n => simpa [signed] using newline_not_mem_digits (n + 1)

theorem Cause.newline_not_mem_message (c : Cause) : '\n' ∉ c.message := by
  unfold message
  split
  · unfold Expected.text
    split <;> simp
  · unfold Fault.message
    split <;> simp
  · simp [Decimal.newline_not_mem_digits]

theorem newline_not_mem_reported {c : Complaint} (h : complaint? line = some c) :
    '\n' ∉ c.reported.lexeme := by
  have hmem : c.reported ∈ malformedTokens line := (Complaint.representative_of_ofTokens? h).2.mem
  exact newline_not_mem_lexeme (List.mem_filter.mp hmem).1

theorem interpret_eq_listing {rows : Text} (h : interpret config lineNumber line = .listing rows) :
    config.mode = .list ∧ complaint? line = none ∧ rows = listing lineNumber line := by
  unfold interpret at h
  split at h
  · cases h
  · next hnone =>
    split at h
    · split at h <;> cases h
    · next hmode =>
      cases h
      exact ⟨hmode, hnone, rfl⟩

structure VerdictRows (config : Config) (outcome : Outcome) (rows : List Text) : Prop where
  text_eq : outcome.text = unrows (rows ++ [[]])
  filled : ∀ row ∈ rows, row ≠ [] ∧ '\n' ∉ row
  value_iff : ∀ v, outcome = .value v ↔ (rows ++ [[]])[1]?.bind statedValue? = some v
  two : config.mode = .evaluate → rows.length = 2

theorem verdict_pair {outcome : Outcome} {a b : Text}
    (htext : outcome.text = a ++ '\n' :: b ++ "\n\n".toList) (ha : a ≠ [] ∧ '\n' ∉ a)
    (hb : b ≠ [] ∧ '\n' ∉ b) (hvalue : ∀ v, outcome = .value v ↔ statedValue? b = some v) :
    VerdictRows config outcome [a, b] where
  text_eq := by
    rw [htext]
    simp [unrows]
  filled := by simpa using ⟨ha, hb⟩
  value_iff := hvalue
  two := fun _ => rfl

theorem verdict_lexical {c : Complaint} (h : complaint? line = some c) :
    VerdictRows config (.lexical c)
      ["===> '".toList ++ c.reported.lexeme ++ ['\''], "Lexical error: not a lexeme".toList] := by
  have hnone : statedValue? "Lexical error: not a lexeme".toList = none :=
    statedValue?_eq_none (by simp)
  apply verdict_pair
  · unfold Outcome.text
    simp
  · simp [newline_not_mem_reported h]
  · simp
  · rw [hnone]
    simp

theorem verdict_value (v : Int) :
    VerdictRows config (.value v) ["Syntax OK".toList, "Value is ".toList ++ Decimal.signed v] := by
  apply verdict_pair
  · unfold Outcome.text
    simp
  · simp
  · simp [Decimal.newline_not_mem_signed]
  · rw [statedValue?_signed]
    simp

theorem verdict_failed (e : Failure) :
    VerdictRows config (.failed e) ["===> ".toList ++ e.cause.message,
      (if e.cause.isMismatch then "Syntax Error" else "Runtime Error").toList] := by
  have hnone : statedValue?
      (if e.cause.isMismatch then "Syntax Error" else "Runtime Error").toList =
      none := by
    apply statedValue?_eq_none
    cases e.cause.isMismatch <;> simp
  apply verdict_pair
  · unfold Outcome.text
    simp
  · simp [e.cause.newline_not_mem_message]
  · cases e.cause.isMismatch <;> simp
  · rw [hnone]
    simp

theorem exists_verdict_listing (hmode : config.mode = .list) (h : complaint? line = none) :
    ∃ rows, VerdictRows config (.listing (listing lineNumber line)) rows := by
  obtain ⟨parts, -, hrows, hfilled, -⟩ := exists_rows_listing lineNumber line
  rw [← List.forall_mem_map (f := Row.text) (P := fun row => row ≠ [] ∧ '\n' ∉ row)] at hfilled
  generalize parts.map Row.text = rows at hrows hfilled
  have hletter : ∀ row ∈ rows ++ [[]], statedValue? row = none := by
    intro row hrow
    apply statedValue?_eq_none
    intro hV
    rcases List.mem_append.mp hrow with hrow | hrow
    · have hmem : 'V' ∈ listing lineNumber line := by
        rw [hrows]
        exact List.mem_flatMap.mpr ⟨row, hrow, List.mem_append_left _ hV⟩
      have hline : 'V' ∈ line := (mem_listing hmem).resolve_right (by decide)
      cases complaint?_eq_none_iff.mp h 'V' hline
    · rw [List.mem_singleton.mp hrow] at hV
      cases hV
  refine ⟨rows, ?_, hfilled, ?_, fun heval => by rw [hmode] at heval; cases heval⟩
  · rw [unrows_append, ← hrows]
    rfl
  · intro v
    constructor
    · rintro ⟨⟩
    · intro hv
      obtain ⟨row, hrow, hsome⟩ := Option.bind_eq_some_iff.mp hv
      rw [hletter row (List.mem_of_getElem? hrow)] at hsome
      cases hsome

theorem exists_verdict (config : Config) (lineNumber : Nat) (line : Text) :
    ∃ rows, VerdictRows config (interpret config lineNumber line) rows := by
  cases h : interpret config lineNumber line with
  | lexical c => exact ⟨_, verdict_lexical (interpret_eq_lexical_iff.mp h)⟩
  | value v => exact ⟨_, verdict_value v⟩
  | failed e => exact ⟨_, verdict_failed e⟩
  | listing rows =>
    obtain ⟨hmode, hnone, rfl⟩ := interpret_eq_listing h
    exact exists_verdict_listing hmode hnone

theorem exists_blockOf (config : Config) (hne : line ≠ []) (hnl : '\n' ∉ line) :
    ∃ rows, BlockOf config line rows ∧ ∀ row ∈ rows, '\n' ∉ row := by
  obtain ⟨rows, htext, hfilled, hvalue, htwo⟩ := exists_verdict config 1 line
  refine ⟨line :: (rows ++ [[]]), ⟨?_, rfl, ⟨line :: rows, rfl, ?_⟩, ?_, ?_⟩, ?_⟩
  · rw [unrows_cons, htext]
  · intro hmem
    rcases List.mem_cons.mp hmem with h | h
    · exact hne h.symm
    · exact (hfilled [] h).1 rfl
  · intro lineNumber v
    rw [interpret_lineNumber config lineNumber 1]
    exact hvalue v
  · intro hmode
    simp [htwo hmode]
  · refine List.forall_mem_cons.mpr ⟨hnl, List.forall_mem_append.mpr ⟨?_, by simp⟩⟩
    exact fun row hrow => (hfilled row hrow).2

theorem exists_blocks {lines : List Text} (config : Config)
    (h : ∀ line ∈ lines, line ≠ [] ∧ '\n' ∉ line) :
    ∃ blocks, List.Forall₂ (BlockOf config) lines blocks ∧
      lines.flatMap (fun line => line ++ '\n' :: (interpret config 1 line).text) =
        unrows blocks.flatten ∧
      ∀ row ∈ blocks.flatten, '\n' ∉ row := by
  induction lines with
  | nil => exact ⟨[], .nil, rfl, by simp⟩
  | cons line lines ih =>
    obtain ⟨⟨hne, hnl⟩, hlines⟩ := List.forall_mem_cons.mp h
    obtain ⟨blocks, hblocks, htext, hrows⟩ := ih hlines
    obtain ⟨rows, hblock, hrow⟩ := exists_blockOf config hne hnl
    refine ⟨rows :: blocks, .cons hblock hblocks, ?_, ?_⟩
    · rw [List.flatMap_cons, htext, List.flatten_cons, unrows_append, hblock.written]
    · rw [List.flatten_cons]
      exact List.forall_mem_append.mpr ⟨hrow, hrows⟩

end Blocks

section Lines

variable {config : Config} {bytes line : Bytes}

theorem exists_content_of_mem (h : line ∈ splitLines bytes) :
    ∃ content, newline ∉ content ∧ (line = content ∨ line = content ++ [newline]) := by
  induction bytes using lines_induction with
  | nil => cases h
  | last bytes hn hl =>
    rw [splitLines_last hn hl, List.mem_singleton] at h
    exact ⟨line, h ▸ hl, .inl rfl⟩
  | cons first rest hl ih =>
    rw [splitLines_newline hl] at h
    rcases List.mem_cons.mp h with rfl | h
    · exact ⟨first, hl, .inr rfl⟩
    · exact ih h

theorem chomp_decode (h : line ∈ splitLines bytes) :
    '\n' ∉ chomp (Utf8.decode line) ∧
      isBlank (chomp (Utf8.decode line)) = isBlank (Utf8.decode line) := by
  obtain ⟨content, hcontent, rfl | rfl⟩ := exists_content_of_mem h
  · have hnl := Utf8.newline_not_mem_decode hcontent
    rw [chomp_eq_self hnl]
    exact ⟨hnl, rfl⟩
  · rw [Utf8.decode_concat_newline, chomp_concat_newline, isBlank_concat_newline]
    exact ⟨Utf8.newline_not_mem_decode hcontent, rfl⟩

theorem of_mem_reportedLines {text : Text} (h : text ∈ reportedLines bytes) :
    text ≠ [] ∧ '\n' ∉ text := by
  simp only [reportedLines, List.mem_map, List.mem_filter] at h
  obtain ⟨_, ⟨⟨line, hline, rfl⟩, hfilled⟩, rfl⟩ := h
  obtain ⟨hnl, hblank⟩ := chomp_decode hline
  refine ⟨?_, hnl⟩
  intro hnil
  rw [← hblank, hnil] at hfilled
  cases hfilled

theorem flatMap_blockText (config : Config) (bytes : Bytes) :
    (splitLines bytes).flatMap (blockText config) =
      (reportedLines bytes).flatMap
        (fun line => line ++ '\n' :: (interpret config 1 line).text) := by
  rw [reportedLines]
  induction splitLines bytes with
  | nil => rfl
  | cons line lines ih =>
    rw [List.flatMap_cons, ih, blockText]
    split
    · next h => simp [h]
    · next h => simp [h]

theorem length_reportedLines (config : Config) (bytes : Bytes) :
    (reportedLines bytes).length + (Summary.ofLines config (splitLines bytes)).skipped =
      (Summary.ofLines config (splitLines bytes)).lines := by
  have hcount := List.length_eq_countP_add_countP (fun line => isBlank (Utf8.decode line))
    (l := splitLines bytes)
  simp only [reportedLines, Summary.ofLines, List.length_map, ← List.countP_eq_length_filter,
    List.countP_map]
  rw [hcount, Nat.add_comm]
  simp [Function.comp_def]

theorem ended_of_forall₂ {lines : List Text} {blocks : List (List Text)}
    (h : List.Forall₂ (BlockOf config) lines blocks) :
    ∀ rows ∈ blocks, ∃ front, rows = front ++ [[]] ∧ [] ∉ front := by
  induction h with
  | nil => simp
  | cons hblock _ ih => exact List.forall_mem_cons.mpr ⟨hblock.ended, ih⟩

theorem leftUnique_blockOf (config : Config) : Relator.LeftUnique (BlockOf config) := by
  intro line rows line' h h'
  exact Option.some.inj (h.first.symm.trans h'.first)

theorem forall₂_blocksOf (config : Config) (bytes : Bytes) :
    splitLines (completeRun config bytes).2.written.toList =
        (rowsOf (completeRun config bytes).2.written.toList).map
          (fun row => Utf8.encode row ++ [newline]) ∧
      List.Forall₂ (BlockOf config) (reportedLines bytes)
        (blocksOf (rowsOf (completeRun config bytes).2.written.toList)) := by
  obtain ⟨blocks, hblocks, htext, hrows⟩ :=
    exists_blocks config
      (fun line (hline : line ∈ reportedLines bytes) => of_mem_reportedLines hline)
  have hreport : (completeRun config bytes).2.written.toList =
      Utf8.encode (unrows blocks.flatten) := by
    rw [completeRun_eq, List.toList_toArray, flatMap_block, flatMap_blockText, htext]
  rw [hreport, rowsOf_unrows hrows, blocksOf_flatten (ended_of_forall₂ hblocks)]
  exact ⟨splitLines_unrows hrows, hblocks⟩

end Lines

/-- A report is a row of blocks, one for each line that is not blank, and can be told apart into
them by its empty rows. So it says which lines it is about, and what their values are. -/
theorem run_readable (config : Config) :
    (∀ bytes, ∃ summary out, completeRun config bytes = (.ok summary, { written := out }) ∧
      splitLines out.toList = (rowsOf out.toList).map (fun row => Utf8.encode row ++ [newline]) ∧
      (blocksOf (rowsOf out.toList)).flatten = rowsOf out.toList ∧
      (blocksOf (rowsOf out.toList)).length + summary.skipped = summary.lines ∧
      List.Forall₂ (BlockOf config) (reportedLines bytes) (blocksOf (rowsOf out.toList))) ∧
    ∀ a b, (completeRun config a).2.written = (completeRun config b).2.written →
      reportedLines a = reportedLines b := by
  constructor
  · intro bytes
    obtain ⟨hrows, hblocks⟩ := forall₂_blocksOf config bytes
    have hcount := length_reportedLines config bytes
    rw [hblocks.length_eq] at hcount
    rw [completeRun_eq] at hrows hblocks hcount
    exact ⟨_, _, completeRun_eq config bytes, hrows, List.flatten_splitBy _ _, hcount, hblocks⟩
  · intro a b h
    have ha := (forall₂_blocksOf config a).2
    rw [h] at ha
    exact List.left_unique_forall₂' (leftUnique_blockOf config) ha (forall₂_blocksOf config b).2

/-- Two inputs with blank lines at different places, of which one is no UTF-8. -/
theorem run_readable_broken :
    (completeRun {} [10, 0x31, 0xFF, 10]).2.written =
        (completeRun {} (Utf8.encode ['1', '\uFFFD', '\n', '\t'])).2.written ∧
      reportedLines [10, 0x31, 0xFF, 10] =
        reportedLines (Utf8.encode ['1', '\uFFFD', '\n', '\t']) := by
  have h : (completeRun {} [10, 0x31, 0xFF, 10]).2.written =
      (completeRun {} (Utf8.encode ['1', '\uFFFD', '\n', '\t'])).2.written := by decide +kernel
  exact ⟨h, (run_readable {}).2 _ _ h⟩

end Reckon
