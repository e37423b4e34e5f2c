import Reckon.Proofs.Lexemes
import Reckon.Proofs.Lines

set_option autoImplicit false

namespace Reckon

theorem Cursor.map_spelling_eq {c d : Cursor} (h : c.rest = d.rest) :
    c.tokens.map Token.spelling = d.tokens.map Token.spelling := by
  obtain ⟨here, rest⟩ := c
  obtain ⟨there, rest'⟩ := d
  obtain rfl : rest = rest' := h
  obtain ⟨cut⟩ : Nonempty (Cutting rest) := nonempty_cutting ⟨here, rest⟩
  calc _ = cut.lexemes := (Cutting.lexemes_eq (c := ⟨here, rest⟩) cut).symm
    _ = _ := Cutting.lexemes_eq (c := ⟨there, rest⟩) cut

theorem listing_lineNumber (m n : Nat) (line : Text) : listing m line = listing n line := by
  have hlisted : ∀ k, (Cursor.start k line).tokens.flatMap Token.listed =
      ((Cursor.start k line).tokens.map Token.spelling).flatMap
        (fun l => (⟨l.kind, l.text, .start 1⟩ : Token).listed) := by
    intro k
    rw [List.flatMap_map]
    rfl
  have hspelling : (Cursor.start m line).tokens.map Token.spelling =
      (Cursor.start n line).tokens.map Token.spelling := Cursor.map_spelling_eq rfl
  rw [listing, listing, hlisted, hlisted, hspelling]

theorem interpret_lineNumber (config : Config) (m n : Nat) (line : Text) :
    interpret config m line = interpret config n line := by
  rw [interpret, interpret, listing_lineNumber m n]

/-- What a run writes for a line: nothing for a blank one, else the line and its outcome. -/
def block (config : Config) (line : Bytes) : Bytes :=
  if isBlank (Utf8.decode line) then []
  else
    let text := chomp (Utf8.decode line)
    Utf8.encode (text ++ ['\n']) ++ Utf8.encode (interpret config 1 text).text

def fails (config : Config) (line : Bytes) : Bool :=
  !isBlank (Utf8.decode line) && (interpret config 1 (chomp (Utf8.decode line))).isError

instance : Add Summary where
  add s t := ⟨s.lines + t.lines, s.skipped + t.skipped, s.failed + t.failed⟩

theorem Summary.add_def (s t : Summary) :
    s + t = ⟨s.lines + t.lines, s.skipped + t.skipped, s.failed + t.failed⟩ := rfl

def Summary.ofLines (config : Config) (lines : List Bytes) : Summary :=
  ⟨lines.length, lines.countP (fun line => isBlank (Utf8.decode line)), lines.countP (fails config)⟩

theorem Summary.ofLines_append (config : Config) (lines lines' : List Bytes) :
    ofLines config (lines ++ lines') = ofLines config lines + ofLines config lines' := by
  simp [ofLines, add_def]

theorem Summary.add_ofLines_cons (config : Config) (s : Summary) (line : Bytes)
    (lines : List Bytes) :
    s + ofLines config (line :: lines) =
      ⟨s.lines + 1, if isBlank (Utf8.decode line) then s.skipped + 1 else s.skipped,
        if fails config line then s.failed + 1 else s.failed⟩ + ofLines config lines := by
  simp only [ofLines, add_def, List.length_cons, List.countP_cons, mk.injEq]
  refine ⟨by omega, ?_, ?_⟩
  · split <;> omega
  · split <;> omega

theorem Sink.write_nil (sink : Sink) : sink.write [] = (sink, none) := by
  unfold write
  split <;> simp

theorem appendList_append (written : Array UInt8) (a b : Bytes) :
    written ++ (a ++ b) = written ++ a ++ b :=
  Array.ext' (by simp)

theorem Sink.write_append (sink : Sink) (a b : Bytes) :
    sink.write (a ++ b) =
      match sink.write a with
      | (sink, some e) => (sink, some e)
      | (sink, none) => sink.write b := by
  unfold write
  cases hl : sink.limit with
  | none => simp [appendList_append]
  | some limit =>
    obtain ⟨size, e⟩ := limit
    by_cases ha : a.length ≤ size - sink.written.size
    · have hroom : size - (sink.written ++ a).size = size - sink.written.size - a.length := by
        have hsize : (sink.written ++ a).size = sink.written.size + a.length := by
          rw [← Array.length_toList]
          simp
        omega
      have hfits : (a ++ b).length ≤ size - sink.written.size ↔
          b.length ≤ size - sink.written.size - a.length := by
        rw [List.length_append]
        omega
      simp only [if_pos ha, List.take_of_length_le ha, hroom, List.take_append, hfits,
        appendList_append]
    · have hfits : ¬ (a ++ b).length ≤ size - sink.written.size := by
        rw [List.length_append]
        omega
      have htake : (a ++ b).take (size - sink.written.size) = a.take (size - sink.written.size) :=
        List.take_append_of_le_length (by omega)
      simp only [if_neg ha, if_neg hfits, htake]

theorem runLines_eq (config : Config) (lines : List Bytes) (summary : Summary) (sink : Sink) :
    runLines config lines summary sink =
      match sink.write (lines.flatMap (block config)) with
      | (sink, some e) => (.error (.write e), sink)
      | (sink, none) => (.ok (summary + .ofLines config lines), sink) := by
  induction lines generalizing summary sink with
  | nil => simp [runLines, Sink.write_nil, Summary.ofLines, Summary.add_def]
  | cons line lines ih =>
    rw [runLines, List.flatMap_cons, Summary.add_ofLines_cons]
    dsimp only
    split
    · next hb => simp [ih, block, fails, hb]
    · next hb =>
      have hblock : block config line = Utf8.encode (chomp (Utf8.decode line) ++ ['\n']) ++
          Utf8.encode (interpret config 1 (chomp (Utf8.decode line))).text := by simp [block, hb]
      have hfails : fails config line =
          (interpret config 1 (chomp (Utf8.decode line))).isError := by
        simp [fails, hb]
      rw [interpret_lineNumber config _ 1, hblock, hfails, List.append_assoc, Sink.write_append]
      rcases sink.write (Utf8.encode (chomp (Utf8.decode line) ++ ['\n'])) with ⟨sink, _ | e⟩
      · dsimp only
        rw [Sink.write_append]
        rcases sink.write (Utf8.encode (interpret config 1 (chomp (Utf8.decode line))).text)
          with ⟨sink, _ | e⟩
        · exact ih _ _
        · rfl
      · rfl

def endRun (fault : Option SystemError) (summary : Summary) (sink : Sink) :
    Except RunError Summary × Sink :=
  match fault, sink.flushFault with
  | some e, _ => (.error (.read (summary.lines + 1) e), sink)
  | none, some e => (.error (.write e), sink)
  | none, none => (.ok summary, sink)

theorem run_eq (config : Config) (source : Source) (sink : Sink) :
    run config source sink =
      match sink.write (source.lines.flatMap (block config)) with
      | (sink, some e) => (.error (.write e), sink)
      | (sink, none) => endRun source.fault (.ofLines config source.lines) sink := by
  have hzero : ({} : Summary) + .ofLines config source.lines = .ofLines config source.lines := by
    simp [Summary.add_def]
  rw [run, runLines_eq, hzero]
  rcases sink.write (source.lines.flatMap (block config)) with ⟨sink, _ | e⟩ <;> rfl

/-- A run over an input that does not fail, into an output that takes everything. -/
def completeRun (config : Config) (bytes : Bytes) : Except RunError Summary × Sink :=
  run config ⟨bytes, none⟩ {}

theorem completeRun_eq (config : Config) (bytes : Bytes) :
    completeRun config bytes = (.ok (.ofLines config (splitLines bytes)),
      { written := ((splitLines bytes).flatMap (block config)).toArray }) := by
  rw [completeRun, run_eq]
  simp [Source.lines, Sink.write, endRun]

theorem block_concat_newline (config : Config) {line : Bytes} (h : newline ∉ line) :
    block config (line ++ [newline]) = block config line ∧
      fails config (line ++ [newline]) = fails config line := by
  have hchomp : chomp (Utf8.decode line) = Utf8.decode line :=
    chomp_eq_self (Utf8.newline_not_mem_decode h)
  simp only [block, fails, Utf8.decode_concat_newline, isBlank_concat_newline, chomp_concat_newline,
    hchomp, and_self]

/-- The report on whole lines and what follows them is the two reports one after the other. So it is
the reports on the single lines, and the newline of the last line makes no difference. -/
theorem run_append (config : Config) :
    (∀ a b : Bytes, Whole a → ∃ s t out out',
      completeRun config a = (.ok s, { written := out }) ∧
      completeRun config b = (.ok t, { written := out' }) ∧
      completeRun config (a ++ b) = (.ok (s + t), { written := out ++ out' })) ∧
    (∀ bytes : Bytes, (completeRun config bytes).2.written.toList =
      (splitLines bytes).flatMap (fun line => (completeRun config line).2.written.toList)) ∧
    ∀ bytes : Bytes, ¬ Whole bytes →
      completeRun config (bytes ++ [newline]) = completeRun config bytes := by
  refine ⟨?_, ?_, ?_⟩
  · intro a b ha
    refine ⟨_, _, _, _, completeRun_eq config a, completeRun_eq config b, ?_⟩
    rw [completeRun_eq, splitLines_append ha, Summary.ofLines_append, List.flatMap_append,
      List.append_toArray]
  · intro bytes
    rw [completeRun_eq]
    apply List.flatMap_congr
    intro line hline
    simp [completeRun_eq, splitLines_of_mem hline]
  · intro bytes h
    obtain ⟨lines, line, hl, hs, hs'⟩ := splitLines_concat h
    obtain ⟨hblock, hfails⟩ := block_concat_newline config hl
    have hblank : isBlank (Utf8.decode (line ++ [newline])) = isBlank (Utf8.decode line) := by
      rw [Utf8.decode_concat_newline, isBlank_concat_newline]
    simp [completeRun_eq, hs, hs', Summary.ofLines, hblock, hfails, hblank]

/-- The last line ends in the middle of a character. -/
theorem run_append_truncated :
    Whole (Utf8.encode "x;\n".toList) ∧ ¬ Whole [0x31, 0x3B, 0xE2, 0x82] ∧
      (completeRun {} (Utf8.encode "x;\n".toList ++ [0x31, 0x3B, 0xE2, 0x82])).1 = .ok ⟨2, 0, 2⟩ ∧
      completeRun {} ([0x31, 0x3B, 0xE2, 0x82] ++ [newline]) =
        completeRun {} [0x31, 0x3B, 0xE2, 0x82] := by
  have ha : Whole (Utf8.encode "x;\n".toList) := by decide +kernel
  have hb : ¬ Whole [0x31, 0x3B, 0xE2, 0x82] := by decide
  obtain ⟨s, t, out, out', hs, ht, hst⟩ := (run_append {}).1 _ [0x31, 0x3B, 0xE2, 0x82] ha
  have hs' : (completeRun {} (Utf8.encode "x;\n".toList)).1 = .ok ⟨1, 0, 1⟩ := by decide +kernel
  have ht' : (completeRun {} [0x31, 0x3B, 0xE2, 0x82]).1 = .ok ⟨1, 0, 1⟩ := by decide +kernel
  rw [hs] at hs'
  rw [ht] at ht'
  obtain rfl : s = ⟨1, 0, 1⟩ := Except.ok.inj hs'
  obtain rfl : t = ⟨1, 0, 1⟩ := Except.ok.inj ht'
  exact ⟨ha, hb, by rw [hst]; rfl, (run_append {}).2.2 _ hb⟩

end Reckon
