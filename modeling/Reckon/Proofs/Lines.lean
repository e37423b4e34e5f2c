import Mathlib.Data.List.Basic
import Reckon.Run

/-!
Lines as bytes and as text. An input is a row of lines that end in a newline and perhaps a last
one that does not; most facts about lines are proved along that. Main statements: whole lines can
be split off an input, and a newline is decoded by itself, whatever stands in front of it.
-/

set_option autoImplicit false

namespace Reckon

def Whole (bytes : Bytes) : Prop := bytes = [] ∨ bytes.getLast? = some newline

instance (bytes : Bytes) : Decidable (Whole bytes) := inferInstanceAs (Decidable (_ ∨ _))

@[elab_as_elim]
theorem lines_induction {P : Bytes → Prop} (nil : P [])
    (last : ∀ line, line ≠ [] → newline ∉ line → P line)
    (cons : ∀ line rest, newline ∉ line → P rest → P (line ++ newline :: rest)) (bytes : Bytes) :
    P bytes := by
  induction hn : bytes.length using Nat.strongRecOn generalizing bytes with
  | ind n ih =>
    by_cases hm : newline ∈ bytes
    · obtain ⟨line, rest, rfl, hl⟩ := List.eq_append_cons_of_mem hm
      refine cons line rest hl (ih rest.length ?_ rest rfl)
      rw [← hn, List.length_append, List.length_cons]
      omega
    · by_cases hnil : bytes = []
      · exact hnil ▸ nil
      · exact last bytes hnil hm

section Splitting

variable {line rest bytes : Bytes}

theorem splitLines_cons (b : UInt8) (bytes : Bytes) :
    splitLines (b :: bytes) =
      if b = newline then [b] :: splitLines bytes
      else match splitLines bytes with
        | [] => [[b]]
        | line :: lines => (b :: line) :: lines := rfl

theorem splitLines_newline (h : newline ∉ line) (rest : Bytes) :
    splitLines (line ++ newline :: rest) = (line ++ [newline]) :: splitLines rest := by
  induction line with
  | nil => simp [splitLines_cons]
  | cons b line ih =>
    obtain ⟨hb, hl⟩ := not_or.mp (mt List.mem_cons.mpr h)
    rw [List.cons_append, splitLines_cons, if_neg (Ne.symm hb), ih hl]
    rfl

theorem splitLines_last (hn : line ≠ []) (h : newline ∉ line) : splitLines line = [line] := by
  induction line with
  | nil => exact absurd rfl hn
  | cons b line ih =>
    obtain ⟨hb, hl⟩ := not_or.mp (mt List.mem_cons.mpr h)
    rw [splitLines_cons, if_neg (Ne.symm hb)]
    cases line with
    | nil => rfl
    | cons b' line => rw [ih (List.cons_ne_nil _ _) hl]

theorem Whole.of_newline (h : Whole (line ++ newline :: rest)) : Whole rest := by
  cases rest with
  | nil => exact .inl rfl
  | cons b rest => exact .inr (by simpa [Whole, List.getLast?_append] using h)

theorem whole_newline_iff : Whole (line ++ newline :: rest) ↔ Whole rest := by
  refine ⟨Whole.of_newline, ?_⟩
  rintro (rfl | h)
  · exact .inr (by simp)
  · exact .inr (by simp [List.getLast?_append, List.getLast?_cons, h])

theorem not_whole_of_last (hn : line ≠ []) (h : newline ∉ line) : ¬ Whole line := by
  rintro (rfl | hl)
  · exact hn rfl
  · exact h (List.mem_of_getLast? hl)

theorem splitLines_append {a : Bytes} (h : Whole a) (b : Bytes) :
    splitLines (a ++ b) = splitLines a ++ splitLines b := by
  induction a using lines_induction with
  | nil => rfl
  | last line hn hl => exact absurd h (not_whole_of_last hn hl)
  | cons line rest hl ih =>
    rw [List.append_assoc, List.cons_append, splitLines_newline hl, splitLines_newline hl,
      ih h.of_newline, List.cons_append]

theorem splitLines_of_mem (h : line ∈ splitLines bytes) : splitLines line = [line] := by
  induction bytes using lines_induction with
  | nil => cases h
  | last bytes hn hl =>
    rw [splitLines_last hn hl, List.mem_singleton] at h
    rw [h, splitLines_last hn hl]
  | cons first rest hl ih =>
    rw [splitLines_newline hl] at h
    rcases List.mem_cons.mp h with rfl | h
    · exact splitLines_newline hl []
    · exact ih h

theorem splitLines_concat (h : ¬ Whole bytes) :
    ∃ lines line, newline ∉ line ∧ splitLines bytes = lines ++ [line] ∧
      splitLines (bytes ++ [newline]) = lines ++ [line ++ [newline]] := by
  induction bytes using lines_induction with
  | nil => exact absurd (.inl rfl) h
  | last line hn hl => exact ⟨[], line, hl, splitLines_last hn hl, splitLines_newline hl []⟩
  | cons first rest hl ih =>
    have hr : ¬ Whole rest := mt whole_newline_iff.mpr h
    obtain ⟨lines, line, hline, hs, hs'⟩ := ih hr
    refine ⟨(first ++ [newline]) :: lines, line, hline, ?_, ?_⟩
    · rw [splitLines_newline hl, hs, List.cons_append]
    · rw [List.append_assoc, List.cons_append, splitLines_newline hl, hs', List.cons_append]

theorem length_splitLines (bytes : Bytes) :
    (splitLines bytes).length = bytes.count newline + if Whole bytes then 0 else 1 := by
  induction bytes using lines_induction with
  | nil => rfl
  | last line hn hl =>
    rw [splitLines_last hn hl, if_neg (not_whole_of_last hn hl), List.count_eq_zero.mpr hl]
    rfl
  | cons line rest hl ih =>
    rw [splitLines_newline hl, List.length_cons, ih, List.count_append, List.count_eq_zero.mpr hl,
      List.count_cons_self]
    simp only [whole_newline_iff]
    omega

end Splitting

namespace Utf8

structure Unfinished.Sound (u : Unfinished) : Prop where
  low : 0x80 ≤ u.low
  bits : 2 ≤ u.bits ∨ (2 ≤ u.missing ∧ 0x82 ≤ 64 * u.bits + u.low)

theorem sound_of_lead? {b : Nat} {u : Unfinished} (h : lead? b = some u) : u.Sound := by
  unfold lead? at h
  repeat' split at h
  all_goals cases h <;> constructor <;> dsimp only <;> omega

theorem ofNat_ne_newline {n : Nat} (h : n ≠ 10) : Char.ofNat n ≠ '\n' := by
  intro he
  by_cases hv : n.isValidChar
  · have hn : Char.ofNat n = Char.ofNatAux n hv := dif_pos hv
    exact h (congrArg Char.toNat (hn.symm.trans he))
  · have hn : Char.ofNat n = '\x00' := dif_neg hv
    rw [hn] at he
    revert he
    decide

namespace Decoder

def Sound (d : Decoder) : Prop := ∀ u ∈ d.current, u.Sound

variable {d : Decoder} {byte : UInt8} {bytes : Bytes}

theorem begin_sound (done : Array Char) (b : Nat) : (begin done b).Sound := by
  unfold begin
  split
  · simp [Sound]
  · split
    · next u hu =>
      rintro u' ⟨⟩
      exact sound_of_lead? hu
    · simp [Sound]

theorem feed_sound (h : d.Sound) (byte : UInt8) : (d.feed byte).Sound := by
  unfold feed
  dsimp only
  split
  · exact begin_sound _ _
  · next u hu =>
    split
    · next hb =>
      split
      · simp [Sound]
      · next hm =>
        obtain ⟨hlow, hbits⟩ := h u hu
        simp only [Bool.and_eq_true, decide_eq_true_eq] at hb
        rintro u' ⟨⟩
        refine ⟨Nat.le_refl _, .inl ?_⟩
        dsimp only
        omega
    · exact begin_sound _ _

theorem foldl_sound (h : d.Sound) (bytes : Bytes) : (bytes.foldl feed d).Sound := by
  induction bytes generalizing d with
  | nil => exact h
  | cons byte bytes ih => exact ih (feed_sound h byte)

theorem begin_newline (done : Array Char) : begin done newline.toNat = ⟨done.push '\n', none⟩ := rfl

/-- A newline ends the character that is being read and is a character of its own. -/
theorem feed_newline (h : d.Sound) :
    (d.feed newline).current = none ∧ (d.feed newline).done.toList = d.finish ++ ['\n'] := by
  unfold feed finish
  cases hc : d.current with
  | none => simp [begin_newline]
  | some u =>
    have hlow := (h u hc).low
    have hb : ¬ u.low ≤ newline.toNat := by
      show ¬ u.low ≤ 10
      omega
    simp [hb, begin_newline]

theorem begin_no_newline {done : Array Char} {b : Nat} (hb : b ≠ 10) (h : '\n' ∉ done) :
    '\n' ∉ (begin done b).done := by
  unfold begin
  split
  · simpa using ⟨h, (ofNat_ne_newline hb).symm⟩
  · split
    · exact h
    · simpa using ⟨h, by decide⟩

theorem feed_no_newline (hs : d.Sound) (hb : byte ≠ newline) (h : '\n' ∉ d.done) :
    '\n' ∉ (d.feed byte).done := by
  have hb' : byte.toNat ≠ 10 := fun he => hb (UInt8.toNat_inj.mp he)
  unfold feed
  dsimp only
  split
  · exact begin_no_newline hb' h
  · next u hu =>
    split
    · next hin =>
      split
      · next hm =>
        obtain ⟨hlow, hbits⟩ := hs u hu
        have hne : 64 * u.bits + (byte.toNat - 0x80) ≠ 10 := by omega
        simpa using ⟨h, (ofNat_ne_newline hne).symm⟩
      · exact h
    · exact begin_no_newline hb' (by simpa using ⟨h, by decide⟩)

theorem foldl_no_newline (hs : d.Sound) (hb : newline ∉ bytes) (h : '\n' ∉ d.done) :
    '\n' ∉ (bytes.foldl feed d).done := by
  induction bytes generalizing d with
  | nil => exact h
  | cons byte bytes ih =>
    obtain ⟨hbyte, hbytes⟩ := not_or.mp (mt List.mem_cons.mpr hb)
    exact ih (feed_sound hs byte) hbytes (feed_no_newline hs (Ne.symm hbyte) h)

theorem start_sound : start.Sound := by simp [Sound, start]

end Decoder

theorem decode_concat_newline (bytes : Bytes) :
    decode (bytes ++ [newline]) = decode bytes ++ ['\n'] := by
  simp only [decode, List.foldl_append, List.foldl_cons, List.foldl_nil]
  obtain ⟨hc, hd⟩ := Decoder.feed_newline (Decoder.foldl_sound Decoder.start_sound bytes)
  rw [Decoder.finish, hc]
  exact hd

theorem newline_not_mem_decode {bytes : Bytes} (h : newline ∉ bytes) : '\n' ∉ decode bytes := by
  have hd := Decoder.foldl_no_newline Decoder.start_sound h (by simp [Decoder.start])
  unfold decode Decoder.finish
  split
  · simpa using hd
  · simpa using ⟨hd, by decide⟩

end Utf8

theorem isBlank_concat_newline (text : Text) : isBlank (text ++ ['\n']) = isBlank text := by
  simp [isBlank, isBlankChar, separates]

theorem chomp_concat_newline (text : Text) : chomp (text ++ ['\n']) = text := by
  simp [chomp]

theorem chomp_eq_self {text : Text} (h : '\n' ∉ text) : chomp text = text := by
  unfold chomp
  split
  · next hl => exact absurd (List.mem_of_getLast? hl) h
  · rfl

end Reckon
