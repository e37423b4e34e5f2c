import Reckon.Proofs.Lossy
import Reckon.Proofs.Report

set_option autoImplicit false

namespace Reckon

namespace Utf8

theorem decode_newline (line rest : Bytes) :
    decode (line ++ newline :: rest) = decode line ++ '\n' :: decode rest := by
  obtain ⟨hcurrent, hdone⟩ := Decoder.feed_newline (Decoder.foldl_sound Decoder.start_sound line)
  rw [decode, List.foldl_append, List.foldl_cons, Decoder.finish_foldl, hcurrent, hdone,
    List.append_assoc]
  rfl

theorem decode_eq_nil_iff {bytes : Bytes} : decode bytes = [] ↔ bytes = [] := by
  constructor
  · intro h
    have hlossy : Lossy bytes [] := lossy_iff.mpr h.symm
    cases hlossy
    rfl
  · rintro rfl
    rfl

theorem encode_eq_nil_iff {s : Text} : encode s = [] ↔ s = [] := by
  rw [← decode_eq_nil_iff, decode_encode]

theorem encode_newline (s t : Text) :
    encode (s ++ '\n' :: t) = encode s ++ newline :: encode t := by
  rw [encode_append]
  rfl

theorem newline_not_mem_encode {s : Text} (h : '\n' ∉ s) : newline ∉ encode s := by
  intro hmem
  obtain ⟨line, rest, hs⟩ := List.append_of_mem hmem
  have hdecode := decode_encode s
  rw [hs, decode_newline] at hdecode
  exact h (by rw [← hdecode]; simp)

theorem encodeChar_eq (c : Char) : encodeChar c = String.utf8EncodeChar c := by
  have hv : c.toNat < 0xD800 ∨ 0xDFFF < c.toNat ∧ c.toNat < 0x110000 := c.valid
  have hn : c.val.toNat = c.toNat := rfl
  simp only [encodeChar, String.utf8EncodeChar, hn, Nat.le_iff_lt_add_one, Nat.add_comm _ (_ % 64)]
  split
  · rfl
  · split
    · have hd : c.toNat / 64 % 32 = c.toNat / 64 := by omega
      rw [hd, Nat.add_comm 0xC0]
    · split
      · have hd : c.toNat / 4096 % 16 = c.toNat / 4096 := by omega
        rw [hd, Nat.add_comm 0xE0]
      · have hd : c.toNat / 262144 % 8 = c.toNat / 262144 := by omega
        rw [hd, Nat.add_comm 0xF0]

theorem isValidUTF8_encode (s : Text) : ByteArray.IsValidUTF8 ⟨(encode s).toArray⟩ := by
  have h : encode s = s.flatMap String.utf8EncodeChar :=
    congrArg (fun f => s.flatMap f) (funext encodeChar_eq)
  exact ⟨s, ByteArray.ext (by rw [List.utf8Encode, List.data_toByteArray, h])⟩

end Utf8

theorem splitLines_recode (bytes : Bytes) :
    splitLines (Utf8.encode (Utf8.decode bytes)) =
      (splitLines bytes).map (fun line => Utf8.encode (Utf8.decode line)) := by
  induction bytes using lines_induction with
  | nil => rfl
  | last line hn hl =>
    have hn' : Utf8.encode (Utf8.decode line) ≠ [] := by
      rwa [Ne, Utf8.encode_eq_nil_iff, Utf8.decode_eq_nil_iff]
    have hl' : newline ∉ Utf8.encode (Utf8.decode line) :=
      Utf8.newline_not_mem_encode (Utf8.newline_not_mem_decode hl)
    rw [splitLines_last hn hl, splitLines_last hn' hl', List.map_singleton]
  | cons line rest hl ih =>
    have hl' : newline ∉ Utf8.encode (Utf8.decode line) :=
      Utf8.newline_not_mem_encode (Utf8.newline_not_mem_decode hl)
    rw [Utf8.decode_newline, Utf8.encode_newline, splitLines_newline hl', splitLines_newline hl, ih,
      List.map_cons, Utf8.decode_concat_newline, Utf8.encode_newline]
    rfl

theorem block_recode (config : Config) (line : Bytes) :
    block config (Utf8.encode (Utf8.decode line)) = block config line ∧
      fails config (Utf8.encode (Utf8.decode line)) = fails config line := by
  simp only [block, fails, Utf8.decode_encode, and_self]

theorem Summary.ofLines_recode (config : Config) (lines : List Bytes) :
    ofLines config (lines.map (fun line => Utf8.encode (Utf8.decode line))) =
      ofLines config lines := by
  simp only [ofLines, List.length_map, List.countP_map, Function.comp_def, Utf8.decode_encode,
    (block_recode config _).2]

def blockText (config : Config) (line : Bytes) : Text :=
  if isBlank (Utf8.decode line) then []
  else
    let text := chomp (Utf8.decode line)
    text ++ '\n' :: (interpret config 1 text).text

theorem block_eq_encode (config : Config) (line : Bytes) :
    block config line = Utf8.encode (blockText config line) := by
  unfold block blockText
  dsimp only
  split
  · rfl
  · rw [← Utf8.encode_append, ← List.append_cons]

theorem flatMap_block (config : Config) (lines : List Bytes) :
    lines.flatMap (block config) = Utf8.encode (lines.flatMap (blockText config)) := by
  induction lines with
  | nil => rfl
  | cons line lines ih =>
    rw [List.flatMap_cons, List.flatMap_cons, ih, block_eq_encode, Utf8.encode_append]

/-- Decoding an input before the run makes no difference to decoding its lines in the run, where
what an input decodes to is settled by its bytes alone. -/
theorem run_recode (config : Config) (bytes : Bytes) :
    (∀ text, Utf8.Lossy bytes text ↔ text = Utf8.decode bytes) ∧
    (∀ sink, run config ⟨Utf8.encode (Utf8.decode bytes), none⟩ sink =
      run config ⟨bytes, none⟩ sink) ∧
    ByteArray.IsValidUTF8 ⟨(completeRun config bytes).2.written⟩ := by
  refine ⟨fun text => Utf8.lossy_iff, ?_, ?_⟩
  · intro sink
    have hlines : (⟨Utf8.encode (Utf8.decode bytes), none⟩ : Source).lines =
        (⟨bytes, none⟩ : Source).lines.map (fun line => Utf8.encode (Utf8.decode line)) :=
      splitLines_recode bytes
    rw [run_eq, run_eq, hlines, List.flatMap_map, Summary.ofLines_recode]
    simp only [(block_recode config _).1]
  · rw [completeRun_eq, flatMap_block]
    exact Utf8.isValidUTF8_encode _

end Reckon
