import Reckon.Proofs.Lines

/-!
Lossy decoding by characters. `Lossy` says what a text has to do with the bytes it was read from,
without a decoder: where a character stands it is read, and where none does, the longest piece that
could have begun one is replaced. Main statement: `decode` gives the one text that the bytes can be
read as.
-/

set_option autoImplicit false

namespace Reckon

namespace Utf8

/-- Whether some character begins with these bytes. -/
def Begins (part : Bytes) : Prop := ∃ c, part <+: encodeChar c

/-- A text that bytes are read as. A byte that begins no character is replaced by itself. -/
inductive Lossy : Bytes → Text → Prop where
  | nil : Lossy [] []
  | char (c : Char) {bytes : Bytes} {s : Text} : Lossy bytes s →
      Lossy (encodeChar c ++ bytes) (c :: s)
  | broken {part bytes : Bytes} {s : Text} : part ≠ [] → part.length = 1 ∨ Begins part →
      (∀ c, ¬ encodeChar c <+: part ++ bytes) → (∀ b ∈ bytes.head?, ¬ Begins (part ++ [b])) →
      Lossy bytes s → Lossy (part ++ bytes) (replacement :: s)

section Characters

variable {n : Nat} {b : UInt8} {c : Char} {rest : Bytes}

theorem eq_ofNat_iff (h : n < 256) : b = UInt8.ofNat n ↔ b.toNat = n := by
  constructor
  · rintro rfl
    exact UInt8.toNat_ofNat_of_lt' h
  · rintro rfl
    rw [UInt8.ofNat_toNat]

theorem eq_charOfNat_iff (h : n < 0xD800 ∨ 0xDFFF < n ∧ n < 0x110000) :
    c = Char.ofNat n ↔ c.toNat = n := by
  constructor
  · rintro rfl
    have hv : n.isValidChar := h
    rw [Char.ofNat, dif_pos hv]
    rfl
  · rintro rfl
    exact (Char.ofNat_toNat c).symm

theorem encodeChar_one (h : c.toNat < 0x80) :
    b :: rest = encodeChar c ↔ b.toNat = c.toNat ∧ rest = [] := by
  rw [encodeChar, if_pos h, List.cons_eq_cons, eq_ofNat_iff (by omega)]

theorem encodeChar_two (h : 0x80 ≤ c.toNat) (h' : c.toNat < 0x800) :
    b :: rest = encodeChar c ↔ b.toNat = 0xC0 + c.toNat / 64 ∧
      ∃ b₁, rest = [b₁] ∧ b₁.toNat = 0x80 + c.toNat % 64 := by
  have h₁ (b₁ : UInt8) := @eq_ofNat_iff (0x80 + c.toNat % 64) b₁ (by omega)
  rw [encodeChar, if_neg (by omega), if_pos h', List.cons_eq_cons, eq_ofNat_iff (by omega)]
  simp [← h₁]

theorem encodeChar_three (h : 0x800 ≤ c.toNat) (h' : c.toNat < 0x10000) :
    b :: rest = encodeChar c ↔ b.toNat = 0xE0 + c.toNat / 4096 ∧
      ∃ b₁ b₂, rest = [b₁, b₂] ∧ b₁.toNat = 0x80 + c.toNat / 64 % 64 ∧
        b₂.toNat = 0x80 + c.toNat % 64 := by
  have h₁ (b₁ : UInt8) := @eq_ofNat_iff (0x80 + c.toNat / 64 % 64) b₁ (by omega)
  have h₂ (b₂ : UInt8) := @eq_ofNat_iff (0x80 + c.toNat % 64) b₂ (by omega)
  rw [encodeChar, if_neg (by omega), if_neg (by omega), if_pos h', List.cons_eq_cons,
    eq_ofNat_iff (by omega)]
  simp [← h₁, ← h₂]

theorem encodeChar_four (h : 0x10000 ≤ c.toNat) :
    b :: rest = encodeChar c ↔ b.toNat = 0xF0 + c.toNat / 262144 ∧
      ∃ b₁ b₂ b₃, rest = [b₁, b₂, b₃] ∧ b₁.toNat = 0x80 + c.toNat / 4096 % 64 ∧
        b₂.toNat = 0x80 + c.toNat / 64 % 64 ∧ b₃.toNat = 0x80 + c.toNat % 64 := by
  have hv : c.toNat < 0xD800 ∨ 0xDFFF < c.toNat ∧ c.toNat < 0x110000 := c.valid
  have h₁ (b₁ : UInt8) := @eq_ofNat_iff (0x80 + c.toNat / 4096 % 64) b₁ (by omega)
  have h₂ (b₂ : UInt8) := @eq_ofNat_iff (0x80 + c.toNat / 64 % 64) b₂ (by omega)
  have h₃ (b₃ : UInt8) := @eq_ofNat_iff (0x80 + c.toNat % 64) b₃ (by omega)
  rw [encodeChar, if_neg (by omega), if_neg (by omega), if_neg (by omega), List.cons_eq_cons,
    eq_ofNat_iff (by omega)]
  simp [← h₁, ← h₂, ← h₃]

theorem first_byte (h : b :: rest = encodeChar c) :
    (b.toNat < 0x80 ↔ c.toNat < 0x80) ∧ (b.toNat < 0xE0 ↔ c.toNat < 0x800) ∧
      (b.toNat < 0xF0 ↔ c.toNat < 0x10000) := by
  have hv : c.toNat < 0xD800 ∨ 0xDFFF < c.toNat ∧ c.toNat < 0x110000 := c.valid
  by_cases h₁ : c.toNat < 0x80
  · obtain ⟨hb, -⟩ := (encodeChar_one h₁).mp h
    omega
  · by_cases h₂ : c.toNat < 0x800
    · obtain ⟨hb, -⟩ := (encodeChar_two (by omega) h₂).mp h
      omega
    · by_cases h₃ : c.toNat < 0x10000
      · obtain ⟨hb, -⟩ := (encodeChar_three (by omega) h₃).mp h
        omega
      · obtain ⟨hb, -⟩ := (encodeChar_four (by omega)).mp h
        omega

theorem encodeChar_ne_nil (c : Char) : encodeChar c ≠ [] := by
  unfold encodeChar
  dsimp only
  repeat' split
  all_goals exact List.cons_ne_nil _ _

end Characters

namespace Unfinished

def Admits (u : Unfinished) (b : UInt8) : Prop := u.low ≤ b.toNat ∧ b.toNat ≤ u.high

def bitsWith (u : Unfinished) (b : UInt8) : Nat := 64 * u.bits + (b.toNat - 0x80)

theorem bitsWith_def (u : Unfinished) (b : UInt8) :
    u.bitsWith b = 64 * u.bits + (b.toNat - 0x80) := rfl

def next (u : Unfinished) (b : UInt8) : Unfinished := ⟨u.missing - 1, u.bitsWith b, 0x80, 0xBF⟩

/-- The bytes that are still to come for a character. -/
def Completes (u : Unfinished) : Bytes → Char → Prop
  | [], _ => False
  | b :: rest, c =>
    u.Admits b ∧ if u.missing ≤ 1 then rest = [] ∧ c = Char.ofNat (u.bitsWith b)
      else (u.next b).Completes rest c

section Rows

variable {u : Unfinished} {b : Nat}

theorem lead?_two (h : lead? b = some u) (hb : b < 0xE0) :
    0xC2 ≤ b ∧ u.missing = 1 ∧ u.bits = b - 0xC0 ∧
      ∀ x : UInt8, u.Admits x ↔ 0x80 ≤ x.toNat ∧ x.toNat ≤ 0xBF := by
  unfold lead? at h
  split at h
  · cases h
  · obtain rfl : Unfinished.mk 1 (b - 0xC0) 0x80 0xBF = u := by simpa [hb] using h
    exact ⟨by omega, rfl, rfl, fun x => Iff.rfl⟩

theorem lead?_three (h : lead? b = some u) (hb : 0xE0 ≤ b) (hb' : b < 0xF0) :
    u.missing = 2 ∧ u.bits = b - 0xE0 ∧ ∀ x : UInt8, u.Admits x ↔ 0x80 ≤ x.toNat ∧ x.toNat ≤ 0xBF ∧
      0x20 ≤ u.bitsWith x ∧ (u.bitsWith x < 0x360 ∨ 0x37F < u.bitsWith x) := by
  unfold lead? at h
  rw [if_neg (by omega), if_neg (by omega)] at h
  split at h
  · next hE0 =>
    obtain rfl := Option.some.inj h
    refine ⟨rfl, by rw [hE0], fun x => ?_⟩
    simp only [Admits, bitsWith_def]
    omega
  · split at h
    · next hED =>
      obtain rfl := Option.some.inj h
      refine ⟨rfl, by rw [hED], fun x => ?_⟩
      simp only [Admits, bitsWith_def]
      omega
    · obtain rfl := Option.some.inj h
      refine ⟨rfl, rfl, fun x => ?_⟩
      simp only [Admits, bitsWith_def]
      omega

theorem lead?_four (h : lead? b = some u) (hb : 0xF0 ≤ b) :
    b < 0xF5 ∧ u.missing = 3 ∧ u.bits = b - 0xF0 ∧
      ∀ x : UInt8, u.Admits x ↔ 0x80 ≤ x.toNat ∧ x.toNat ≤ 0xBF ∧
        0x10 ≤ u.bitsWith x ∧ u.bitsWith x < 0x110 := by
  unfold lead? at h
  rw [if_neg (by omega), if_neg (by omega), if_neg (by omega), if_neg (by omega),
    if_neg (by omega)] at h
  split at h
  · next hF0 =>
    obtain rfl := Option.some.inj h
    refine ⟨by omega, rfl, by rw [hF0], fun x => ?_⟩
    simp only [Admits, bitsWith_def]
    omega
  · split at h
    · obtain rfl := Option.some.inj h
      refine ⟨by omega, rfl, rfl, fun x => ?_⟩
      simp only [Admits, bitsWith_def]
      omega
    · split at h
      · next hF4 =>
        obtain rfl := Option.some.inj h
        refine ⟨by omega, rfl, by rw [hF4], fun x => ?_⟩
        simp only [Admits, bitsWith_def]
        omega
      · cases h

end Rows

section Completion

variable {u : Unfinished} {b : UInt8} {rest : Bytes} {c : Char}

theorem admits_next (x : UInt8) : (u.next b).Admits x ↔ 0x80 ≤ x.toNat ∧ x.toNat ≤ 0xBF := Iff.rfl

theorem exists_admitted_next : ∃ x, (u.next b).Admits x := ⟨0x80, (admits_next _).mpr (by decide)⟩

theorem completes_last_iff (hm : u.missing ≤ 1) :
    u.Completes rest c ↔ ∃ b, rest = [b] ∧ u.Admits b ∧ c = Char.ofNat (u.bitsWith b) := by
  cases rest with
  | nil => simp [Completes]
  | cons b rest =>
    simp only [Completes, if_pos hm, List.cons_eq_cons]
    constructor
    · rintro ⟨hb, hr, hc⟩
      exact ⟨b, ⟨rfl, hr⟩, hb, hc⟩
    · rintro ⟨b', ⟨rfl, hr⟩, hb, hc⟩
      exact ⟨hb, hr, hc⟩

theorem completes_more_iff (hm : ¬ u.missing ≤ 1) :
    u.Completes rest c ↔ ∃ b rest', rest = b :: rest' ∧ u.Admits b ∧
      (u.next b).Completes rest' c := by
  cases rest with
  | nil => simp [Completes]
  | cons b rest =>
    simp only [Completes, if_neg hm, List.cons_eq_cons]
    constructor
    · rintro ⟨hb, hr⟩
      exact ⟨b, rest, ⟨rfl, rfl⟩, hb, hr⟩
    · rintro ⟨b', rest', ⟨rfl, rfl⟩, hb, hr⟩
      exact ⟨hb, hr⟩

theorem completes_two_iff (h : lead? b.toNat = some u) (hb : b.toNat < 0xE0) :
    u.Completes rest c ↔ b :: rest = encodeChar c := by
  obtain ⟨hlow, hm, hbits, hadmits⟩ := lead?_two h hb
  rw [completes_last_iff (by omega)]
  simp only [hadmits, bitsWith_def, hbits]
  constructor
  · rintro ⟨b₁, rfl, hb₁, hc⟩
    rw [eq_charOfNat_iff (by omega)] at hc
    rw [encodeChar_two (by omega) (by omega)]
    exact ⟨by omega, b₁, rfl, by omega⟩
  · intro he
    have hc := first_byte he
    obtain ⟨hb, b₁, rfl, hb₁⟩ := (encodeChar_two (by omega) (by omega)).mp he
    exact ⟨b₁, rfl, by omega, by rw [eq_charOfNat_iff] <;> omega⟩

theorem completes_three_iff (h : lead? b.toNat = some u) (hb : 0xE0 ≤ b.toNat)
    (hb' : b.toNat < 0xF0) :
    u.Completes rest c ↔ b :: rest = encodeChar c := by
  obtain ⟨hm, hbits, hadmits⟩ := lead?_three h hb hb'
  have hlast : ∀ (b₁ : UInt8) (rest : Bytes), (u.next b₁).Completes rest c ↔ _ :=
    fun b₁ rest => completes_last_iff (by simp [next, hm])
  rw [completes_more_iff (by omega)]
  simp only [hlast, hadmits, admits_next]
  simp only [next, bitsWith_def, hbits]
  constructor
  · rintro ⟨b₁, _, rfl, hb₁, b₂, rfl, hb₂, hc⟩
    rw [eq_charOfNat_iff (by omega)] at hc
    rw [encodeChar_three (by omega) (by omega)]
    exact ⟨by omega, b₁, b₂, rfl, by omega, by omega⟩
  · intro he
    have hc := first_byte he
    have hv : c.toNat < 0xD800 ∨ 0xDFFF < c.toNat ∧ c.toNat < 0x110000 := c.valid
    obtain ⟨hb, b₁, b₂, rfl, hb₁, hb₂⟩ := (encodeChar_three (by omega) (by omega)).mp he
    exact ⟨b₁, _, rfl, by omega, b₂, rfl, by omega, by rw [eq_charOfNat_iff] <;> omega⟩

theorem completes_four_iff (h : lead? b.toNat = some u) (hb : 0xF0 ≤ b.toNat) :
    u.Completes rest c ↔ b :: rest = encodeChar c := by
  obtain ⟨hhigh, hm, hbits, hadmits⟩ := lead?_four h hb
  have hlast : ∀ (b₁ b₂ : UInt8) (rest : Bytes), ((u.next b₁).next b₂).Completes rest c ↔ _ :=
    fun b₁ b₂ rest => completes_last_iff (by simp [next, hm])
  have hmore : ∀ (b₁ : UInt8) (rest : Bytes), (u.next b₁).Completes rest c ↔ _ :=
    fun b₁ rest => completes_more_iff (by simp [next, hm])
  rw [completes_more_iff (by omega)]
  simp only [hmore, hlast, hadmits, admits_next]
  simp only [next, bitsWith_def, hbits]
  constructor
  · rintro ⟨b₁, _, rfl, hb₁, b₂, _, rfl, hb₂, b₃, rfl, hb₃, hc⟩
    rw [eq_charOfNat_iff (by omega)] at hc
    rw [encodeChar_four (by omega)]
    exact ⟨by omega, b₁, b₂, b₃, rfl, by omega, by omega, by omega⟩
  · intro he
    have hc := first_byte he
    have hv : c.toNat < 0xD800 ∨ 0xDFFF < c.toNat ∧ c.toNat < 0x110000 := c.valid
    obtain ⟨hb, b₁, b₂, b₃, rfl, hb₁, hb₂, hb₃⟩ := (encodeChar_four (by omega)).mp he
    exact ⟨b₁, _, rfl, by omega, b₂, _, rfl, by omega, b₃, rfl, by omega,
      by rw [eq_charOfNat_iff] <;> omega⟩

theorem completes_lead_iff (h : lead? b.toNat = some u) :
    u.Completes rest c ↔ b :: rest = encodeChar c := by
  by_cases h₂ : b.toNat < 0xE0
  · exact completes_two_iff h h₂
  · by_cases h₃ : b.toNat < 0xF0
    · exact completes_three_iff h (by omega) h₃
    · exact completes_four_iff h (by omega)

theorem Completes.unique {rest' s s' : Bytes} {c' : Char} (h : u.Completes rest c)
    (h' : u.Completes rest' c') (he : rest ++ s = rest' ++ s') : rest = rest' ∧ c = c' := by
  induction rest generalizing u rest' with
  | nil => cases h
  | cons b rest ih =>
    cases rest' with
    | nil => cases h'
    | cons b' rest' =>
      obtain ⟨rfl, htail⟩ := List.cons_eq_cons.mp he
      obtain ⟨-, h⟩ := h
      obtain ⟨-, h'⟩ := h'
      split at h
      · next hm =>
        rw [if_pos hm] at h'
        exact ⟨by rw [h.1, h'.1], by rw [h.2, h'.2]⟩
      · next hm =>
        rw [if_neg hm] at h'
        obtain ⟨hr, hc⟩ := ih h h' htail
        exact ⟨by rw [hr], hc⟩

theorem exists_completes (h : ∃ b, u.Admits b) : ∃ rest c, u.Completes rest c := by
  induction hm : u.missing using Nat.strongRecOn generalizing u with
  | ind m ih =>
    obtain ⟨b, hb⟩ := h
    by_cases hlast : u.missing ≤ 1
    · exact ⟨[b], _, hb, by rw [if_pos hlast]; exact ⟨rfl, rfl⟩⟩
    · obtain ⟨rest, c, hc⟩ := ih (u.missing - 1) (by omega) exists_admitted_next rfl
      exact ⟨b :: rest, c, hb, by rw [if_neg hlast]; exact hc⟩

end Completion

end Unfinished

theorem isSome_lead? {b : Nat} (h : 0xC2 ≤ b) (h' : b < 0xF5) : (lead? b).isSome := by
  unfold lead?
  repeat' split
  all_goals first | rfl | omega

theorem exists_lead {b : UInt8} {rest : Bytes} {c : Char} (h : b :: rest = encodeChar c)
    (hb : 0x80 ≤ b.toNat) : ∃ u, lead? b.toNat = some u := by
  have hv : c.toNat < 0xD800 ∨ 0xDFFF < c.toNat ∧ c.toNat < 0x110000 := c.valid
  have hc := first_byte h
  rw [← Option.isSome_iff_exists]
  by_cases h₂ : c.toNat < 0x800
  · obtain ⟨hb, -⟩ := (encodeChar_two (by omega) h₂).mp h
    exact isSome_lead? (by omega) (by omega)
  · by_cases h₃ : c.toNat < 0x10000
    · obtain ⟨hb, -⟩ := (encodeChar_three (by omega) h₃).mp h
      exact isSome_lead? (by omega) (by omega)
    · obtain ⟨hb, -⟩ := (encodeChar_four (by omega)).mp h
      exact isSome_lead? (by omega) (by omega)

theorem encodeChar_append_inj {c c' : Char} {s s' : Bytes}
    (h : encodeChar c ++ s = encodeChar c' ++ s') :
    c = c' ∧ s = s' := by
  obtain ⟨b, rest, hb⟩ := List.exists_cons_of_ne_nil (encodeChar_ne_nil c)
  obtain ⟨b', rest', hb'⟩ := List.exists_cons_of_ne_nil (encodeChar_ne_nil c')
  have hbytes := h
  rw [hb, hb'] at hbytes
  obtain ⟨rfl, he⟩ := List.cons_eq_cons.mp hbytes
  have hc : c = c' := by
    by_cases hascii : b.toNat < 0x80
    · have hone := (encodeChar_one ((first_byte hb.symm).1.mp hascii)).mp hb.symm
      have hone' := (encodeChar_one ((first_byte hb'.symm).1.mp hascii)).mp hb'.symm
      exact Char.toNat_inj.mp (hone.1.symm.trans hone'.1)
    · obtain ⟨u, hu⟩ := exists_lead hb.symm (by omega)
      have hrest := (Unfinished.completes_lead_iff hu).mpr hb.symm
      have hrest' := (Unfinished.completes_lead_iff hu).mpr hb'.symm
      exact (hrest.unique hrest' he).2
  subst hc
  exact ⟨rfl, List.append_cancel_left h⟩

theorem bounds_of_lead? {b : Nat} {u : Unfinished} (h : lead? b = some u) :
    u.low ≤ u.high ∧ u.high < 256 := by
  unfold lead? at h
  repeat' split at h
  all_goals cases h <;> dsimp only <;> omega

/-- What has been read of an unfinished character: the bytes that complete it are those with which
it is a character. -/
structure Awaits (part : Bytes) (u : Unfinished) : Prop where
  ne_nil : part ≠ []
  completes_iff : ∀ rest c, u.Completes rest c ↔ part ++ rest = encodeChar c
  exists_admitted : ∃ b, u.Admits b

namespace Awaits

variable {part bytes : Bytes} {u : Unfinished} {b : UInt8}

theorem of_lead (h : lead? b.toNat = some u) : Awaits [b] u := by
  refine ⟨List.cons_ne_nil _ _, fun rest c => Unfinished.completes_lead_iff h,
    UInt8.ofNat u.low, ?_⟩
  obtain ⟨hle, hhigh⟩ := bounds_of_lead? h
  rw [Unfinished.Admits, UInt8.toNat_ofNat_of_lt' (Nat.lt_of_le_of_lt hle hhigh)]
  exact ⟨Nat.le_refl _, hle⟩

theorem next (h : Awaits part u) (hb : u.Admits b) (hm : ¬ u.missing ≤ 1) :
    Awaits (part ++ [b]) (u.next b) := by
  refine ⟨by simp, fun rest c => ?_, Unfinished.exists_admitted_next⟩
  rw [List.append_assoc, List.singleton_append, ← h.completes_iff (b :: rest) c]
  simp [Unfinished.Completes, hb, hm]

theorem eq_encodeChar (h : Awaits part u) (hb : u.Admits b) (hm : u.missing ≤ 1) :
    part ++ [b] = encodeChar (Char.ofNat (u.bitsWith b)) := by
  rw [← h.completes_iff]
  simp [Unfinished.Completes, hb, hm]

theorem begins (h : Awaits part u) : Begins part := by
  obtain ⟨rest, c, hc⟩ := Unfinished.exists_completes h.exists_admitted
  exact ⟨c, rest, (h.completes_iff rest c).mp hc⟩

theorem not_begins (h : Awaits part u) (hb : ¬ u.Admits b) : ¬ Begins (part ++ [b]) := by
  rintro ⟨c, rest, hc⟩
  rw [List.append_assoc, List.singleton_append, ← h.completes_iff] at hc
  exact hb hc.1

theorem not_char (h : Awaits part u) (hb : ∀ b ∈ bytes.head?, ¬ u.Admits b) (c : Char) :
    ¬ encodeChar c <+: part ++ bytes := by
  rintro ⟨s, hs⟩
  rcases List.append_eq_append_iff.mp hs with ⟨more, hpart, -⟩ | ⟨more, hchar, hbytes⟩
  · -- a whole character within the part, though the part is unfinished
    obtain ⟨rest, c', hc'⟩ := Unfinished.exists_completes h.exists_admitted
    have hwhole := (h.completes_iff rest c').mp hc'
    rw [hpart, List.append_assoc, ← List.append_nil (encodeChar c')] at hwhole
    obtain ⟨-, hnil⟩ := encodeChar_append_inj hwhole
    rw [(List.append_eq_nil_iff.mp hnil).2] at hc'
    exact hc'
  · have hmore := (h.completes_iff more c).mpr hchar.symm
    cases more with
    | nil => exact hmore
    | cons b more => exact hb b (by rw [hbytes]; rfl) hmore.1

end Awaits

section Machine

variable {u : Unfinished} {b : UInt8} {bytes : Bytes}

def resume (current : Option Unfinished) (bytes : Bytes) : Text :=
  (bytes.foldl Decoder.feed ⟨#[], current⟩).finish

theorem Decoder.begin_done (done : Array Char) (b : Nat) :
    begin done b = ⟨done ++ (begin #[] b).done, (begin #[] b).current⟩ := by
  unfold begin
  split
  · simp
  · split <;> simp

theorem Decoder.feed_done (d : Decoder) (b : UInt8) :
    d.feed b = ⟨d.done ++ (feed ⟨#[], d.current⟩ b).done, (feed ⟨#[], d.current⟩ b).current⟩ := by
  unfold feed
  dsimp only
  split
  · exact begin_done _ _
  · split
    · split <;> simp
    · rw [begin_done (d.done.push replacement), begin_done (#[].push replacement)]
      simp

theorem Decoder.finish_foldl (d : Decoder) (bytes : Bytes) :
    (bytes.foldl feed d).finish = d.done.toList ++ resume d.current bytes := by
  induction bytes generalizing d with
  | nil =>
    obtain ⟨done, _ | u⟩ := d <;> simp [resume, finish]
  | cons b bytes ih =>
    have hresume : resume d.current (b :: bytes) = (feed ⟨#[], d.current⟩ b).done.toList ++
        resume (feed ⟨#[], d.current⟩ b).current bytes := ih _
    rw [List.foldl_cons, ih, hresume, feed_done]
    simp

theorem resume_cons (current : Option Unfinished) (b : UInt8) (bytes : Bytes) :
    resume current (b :: bytes) = (Decoder.feed ⟨#[], current⟩ b).done.toList ++
      resume (Decoder.feed ⟨#[], current⟩ b).current bytes := by
  rw [resume, List.foldl_cons, Decoder.finish_foldl]

theorem resume_ascii (hb : b.toNat < 0x80) :
    resume none (b :: bytes) = Char.ofNat b.toNat :: resume none bytes := by
  simp [resume_cons, Decoder.feed, Decoder.begin, hb]

theorem resume_lead (hb : ¬ b.toNat < 0x80) (hu : lead? b.toNat = some u) :
    resume none (b :: bytes) = resume (some u) bytes := by
  simp [resume_cons, Decoder.feed, Decoder.begin, hb, hu]

theorem resume_stray (hb : ¬ b.toNat < 0x80) (hu : lead? b.toNat = none) :
    resume none (b :: bytes) = replacement :: resume none bytes := by
  simp [resume_cons, Decoder.feed, Decoder.begin, hb, hu]

theorem resume_last (hb : u.Admits b) (hm : u.missing ≤ 1) :
    resume (some u) (b :: bytes) = Char.ofNat (u.bitsWith b) :: resume none bytes := by
  simp [resume_cons, Decoder.feed, hb.1, hb.2, hm, Unfinished.bitsWith_def]

theorem resume_next (hb : u.Admits b) (hm : ¬ u.missing ≤ 1) :
    resume (some u) (b :: bytes) = resume (some (u.next b)) bytes := by
  simp [resume_cons, Decoder.feed, hb.1, hb.2, hm, Unfinished.next, Unfinished.bitsWith_def]

theorem resume_broken (hb : ¬ u.Admits b) :
    resume (some u) (b :: bytes) = replacement :: resume none (b :: bytes) := by
  have hb : ¬ (u.low ≤ b.toNat && b.toNat ≤ u.high) = true := by simpa [Unfinished.Admits] using hb
  rw [resume_cons, resume_cons]
  simp only [Decoder.feed, if_neg hb]
  rw [Decoder.begin_done]
  simp

end Machine

/-- Bytes are read as the decoder reads them, between characters and in the middle of one. -/
theorem lossy_resume (bytes : Bytes) :
    Lossy bytes (resume none bytes) ∧
      ∀ part u, Awaits part u → Lossy (part ++ bytes) (resume (some u) bytes) := by
  induction bytes with
  | nil =>
    refine ⟨.nil, ?_⟩
    intro part u h
    exact .broken h.ne_nil (.inr h.begins) (h.not_char (by simp)) (by simp) .nil
  | cons b bytes ih =>
    obtain ⟨ihnone, ihsome⟩ := ih
    have hnone : Lossy (b :: bytes) (resume none (b :: bytes)) := by
      by_cases hb : b.toNat < 0x80
      · have hc : (Char.ofNat b.toNat).toNat = b.toNat := (eq_charOfNat_iff (by omega)).mp rfl
        have hone : b :: [] = encodeChar (Char.ofNat b.toNat) :=
          (encodeChar_one (by omega)).mpr ⟨hc.symm, rfl⟩
        rw [resume_ascii hb, ← List.singleton_append, hone]
        exact .char _ ihnone
      · cases hu : lead? b.toNat with
        | some u =>
          rw [resume_lead hb hu]
          exact ihsome [b] u (.of_lead hu)
        | none =>
          rw [resume_stray hb hu]
          have hno : ∀ rest c, b :: rest ≠ encodeChar c := by
            intro rest c hc
            obtain ⟨u, hu'⟩ := exists_lead hc (by omega)
            rw [hu] at hu'
            cases hu'
          refine @Lossy.broken [b] bytes _ (List.cons_ne_nil _ _) (.inl rfl) ?_ ?_ ihnone
          · rintro c ⟨s, hs⟩
            obtain ⟨b', rest, hc⟩ := List.exists_cons_of_ne_nil (encodeChar_ne_nil c)
            rw [hc] at hs
            obtain ⟨rfl, -⟩ := List.cons_eq_cons.mp hs
            exact hno rest c hc.symm
          · rintro b' - ⟨c, rest, hc⟩
            exact hno (b' :: rest) c hc
    refine ⟨hnone, ?_⟩
    intro part u h
    by_cases hb : u.Admits b
    · by_cases hm : u.missing ≤ 1
      · rw [resume_last hb hm, List.append_cons, h.eq_encodeChar hb hm]
        exact .char _ ihnone
      · rw [resume_next hb hm, List.append_cons]
        exact ihsome _ _ (h.next hb hm)
    · rw [resume_broken hb]
      refine .broken h.ne_nil (.inr h.begins) (h.not_char ?_) ?_ hnone
      · simpa using hb
      · simpa using h.not_begins hb

theorem eq_nil_of_longest {part more bytes : Bytes} (hne : part ≠ [])
    (hpart : (part ++ more).length = 1 ∨ Begins (part ++ more))
    (hlongest : ∀ b ∈ (more ++ bytes).head?, ¬ Begins (part ++ [b])) : more = [] := by
  cases more with
  | nil => rfl
  | cons b more =>
    have hpos := List.length_pos_iff.mpr hne
    rcases hpart with hlength | ⟨c, rest, hc⟩
    · simp only [List.length_append, List.length_cons] at hlength
      omega
    · exact absurd ⟨c, more ++ rest, by simpa using hc⟩ (hlongest b rfl)

theorem Lossy.unique {bytes : Bytes} {s s' : Text} (h : Lossy bytes s) (h' : Lossy bytes s') :
    s = s' := by
  induction h generalizing s' with
  | nil =>
    generalize hbytes : [] = bytes at h'
    cases h' with
    | nil => rfl
    | char c _ => exact absurd (List.append_eq_nil_iff.mp hbytes.symm).1 (encodeChar_ne_nil c)
    | broken hne => exact absurd (List.append_eq_nil_iff.mp hbytes.symm).1 hne
  | @char c bytes s _ ih =>
    generalize hbytes : encodeChar c ++ bytes = bytes' at h'
    cases h' with
    | nil => exact absurd (List.append_eq_nil_iff.mp hbytes).1 (encodeChar_ne_nil c)
    | char c' h' =>
      obtain ⟨rfl, rfl⟩ := encodeChar_append_inj hbytes
      rw [ih h']
    | broken _ _ hno => exact absurd ⟨bytes, hbytes⟩ (hno c)
  | @broken part bytes s hne hpart hno hlongest _ ih =>
    generalize hbytes : part ++ bytes = bytes' at h'
    cases h' with
    | nil => exact absurd (List.append_eq_nil_iff.mp hbytes).1 hne
    | @char c bytes' _ _ => exact absurd ⟨bytes', hbytes.symm⟩ (hno c)
    | @broken part' bytes' s' hne' hpart' _ hlongest' h' =>
      rcases List.append_eq_append_iff.mp hbytes with ⟨more, rfl, rfl⟩ | ⟨more, rfl, rfl⟩
      · obtain rfl := eq_nil_of_longest hne hpart' hlongest
        rw [ih h']
      · obtain rfl := eq_nil_of_longest hne' hpart hlongest'
        rw [ih h']

theorem lossy_iff {bytes : Bytes} {s : Text} : Lossy bytes s ↔ s = decode bytes := by
  constructor
  · intro h
    exact h.unique (lossy_resume bytes).1
  · rintro rfl
    exact (lossy_resume bytes).1

-- the beginning of a character is replaced as a whole, a surrogate byte by byte
example : decode [0xE2, 0x82, 0x41, 0xED, 0xA0] = ['\uFFFD', 'A', '\uFFFD', '\uFFFD'] := by
  decide +kernel

theorem lossy_encode (s : Text) : Lossy (encode s) s := by
  induction s with
  | nil => exact .nil
  | cons c s ih => exact .char c ih

theorem decode_encode (s : Text) : decode (encode s) = s := (lossy_iff.mp (lossy_encode s)).symm

end Utf8

end Reckon
