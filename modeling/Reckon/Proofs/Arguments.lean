import Mathlib.Algebra.Ring.Nat
import Mathlib.Data.List.Basic
import Reckon.CommandLine
import Reckon.Proofs.Course

/-!
Command lines word by word. `Reads` tells what an understood word does to what was read before it. A
word that is held back does nothing more than a word that has been settled, so a command line can be
followed from settled draft to settled draft.
-/

set_option autoImplicit false

namespace Reckon

namespace CommandLine

/-- A word that is no option: it is a lone dash, or does not begin with one. -/
def IsPlain (word : Text) : Prop := word.head? = some '-' → word = ['-']

/-- A numeral of a number: an optional `+` and one or more digits, any number of zeros in front. -/
def IsNumeral (s : Text) (n : Nat) : Prop :=
  ∃ sign ds, s = sign ++ ds ∧ (sign = [] ∨ sign = ['+']) ∧ ds ≠ [] ∧ (∀ c ∈ ds, c.isDigit) ∧
    Decimal.value ds = n

theorem isNumeral_plus_iff {ds : Text} {n : Nat} : IsNumeral ('+' :: ds) n ↔
    ds ≠ [] ∧ (∀ c ∈ ds, c.isDigit) ∧ Decimal.value ds = n := by
  constructor
  · rintro ⟨sign, ds', hs, rfl | rfl, hne, hd, hn⟩
    · obtain rfl : '+' :: ds = ds' := hs
      exact absurd (hd '+' List.mem_cons_self) (by decide)
    · obtain rfl : ds = ds' := List.tail_eq_of_cons_eq hs
      exact ⟨hne, hd, hn⟩
  · rintro ⟨hne, hd, hn⟩
    exact ⟨['+'], ds, rfl, .inr rfl, hne, hd, hn⟩

theorem isNumeral_unsigned_iff {s : Text} {n : Nat} (hs : ∀ ds, s ≠ '+' :: ds) : IsNumeral s n ↔
    s ≠ [] ∧ (∀ c ∈ s, c.isDigit) ∧ Decimal.value s = n := by
  constructor
  · rintro ⟨sign, ds, rfl, rfl | rfl, hne, hd, hn⟩
    · exact ⟨hne, hd, hn⟩
    · exact absurd rfl (hs ds)
  · rintro ⟨hne, hd, hn⟩
    exact ⟨[], s, rfl, .inl rfl, hne, hd, hn⟩

theorem numeral?_eq_some_iff {s : Text} {n : Nat} :
    numeral? s = some n ↔ IsNumeral s n ∧ n < 2 ^ 64 := by
  have hread : ∀ ds : Text, (if !ds.isEmpty && ds.all Char.isDigit &&
        decide (Decimal.value ds < UInt64.size) then some (Decimal.value ds) else none) = some n ↔
      (ds ≠ [] ∧ (∀ c ∈ ds, c.isDigit) ∧ Decimal.value ds = n) ∧ n < 2 ^ 64 := by
    intro ds
    constructor
    · intro h
      split at h
      · next hc =>
        obtain rfl := Option.some.inj h
        simpa [and_assoc] using hc
      · cases h
    · rintro ⟨⟨hne, hd, rfl⟩, hn⟩
      have hsize : Decimal.value ds < UInt64.size := hn
      simp [hne, hsize, List.all_eq_true.mpr hd]
  unfold numeral? Decimal.read?
  dsimp only
  split
  · next ds => rw [hread, isNumeral_plus_iff]
  · next hplus => rw [hread, isNumeral_unsigned_iff (fun ds hs => hplus ds hs)]

theorem IsNumeral.isPlain {s : Text} {n : Nat} (h : IsNumeral s n) : IsPlain s := by
  obtain ⟨sign, ds, rfl, rfl | rfl, hne, hd, -⟩ := h
  · intro hh
    exact absurd (hd '-' (List.mem_of_mem_head? hh)) (by decide)
  · intro hh
    simp at hh

namespace Draft

variable {d d' r : Draft} {word value : Text} {words : List Text} {n : Nat}

theorem settle_cases (h : d.settle = .ok r) :
    (d.held = none ∧ r = d) ∨
    (∃ value n, d.held = some (.depth (some value)) ∧ numeral? value = some n ∧ d.maxDepth = none ∧
      r = { d with held := none, maxDepth := some n }) ∨
    (∃ name, d.held = some (.file name) ∧ name ≠ [] ∧
      r = { d with held := none, names := d.names ++ [name] }) := by
  unfold settle at h
  dsimp only at h
  split at h
  · next hd =>
    obtain rfl := Except.ok.inj h
    refine .inl ⟨hd, ?_⟩
    rw [← hd]
  · cases h
  · next value hd =>
    unfold setDepth at h
    dsimp only at h
    split at h
    · cases h
    · next n hn hv => exact .inr (.inl ⟨value, n, hd, hv, hn, (Except.ok.inj h).symm⟩)
    · cases h
  · next name hd =>
    split at h
    · cases h
    · next hn => exact .inr (.inr ⟨name, hd, by simpa using hn, (Except.ok.inj h).symm⟩)

theorem settle_of_held (h : d.held = none) : d.settle = .ok d := by
  obtain ⟨verbosity, names, maxDepth, tokens, held, onlyFiles⟩ := d
  obtain rfl : held = none := h
  rfl

theorem held_of_settle (h : d.settle = .ok r) : r.held = none := by
  rcases settle_cases h with ⟨hd, rfl⟩ | ⟨_, _, -, -, -, rfl⟩ | ⟨_, -, -, rfl⟩
  · exact hd
  · rfl
  · rfl

theorem fileCount_of_settle (h : d.settle = .ok r) : r.fileCount = d.fileCount := by
  rcases settle_cases h with ⟨-, rfl⟩ | ⟨_, _, hd, -, -, rfl⟩ | ⟨_, hd, -, rfl⟩
  · rfl
  · simp [fileCount, hd]
  · simp [fileCount, hd]

theorem onlyFiles_of_settle (h : d.settle = .ok r) : r.onlyFiles = d.onlyFiles := by
  rcases settle_cases h with ⟨-, rfl⟩ | ⟨_, _, -, -, -, rfl⟩ | ⟨_, -, -, rfl⟩ <;> rfl

def divided (d : Draft) : Draft := { d with onlyFiles := true }

theorem settle_divided (h : d.settle = .ok r) : d.divided.settle = .ok r.divided := by
  rcases settle_cases h with ⟨hd, rfl⟩ | ⟨value, n, hd, hv, hm, rfl⟩ | ⟨name, hd, hn, rfl⟩
  · exact settle_of_held hd
  · simp [divided, settle, setDepth, hd, hv, hm]
  · simp [divided, settle, hd, hn]

/-- What an understood word does: it divides, is a value or a file name that is held back, or
settles what is held back and is an option. -/
inductive Reads : Draft → Text → Draft → Prop where
  | divider {d : Draft} : d.onlyFiles = false → Reads d "--".toList d.divided
  | value {d : Draft} {word : Text} : d.onlyFiles = false → d.held = some (.depth none) →
      IsPlain word → Reads d word { d with held := some (.depth (some word)) }
  | file {d r : Draft} {word : Text} : d.onlyFiles = true ∨ IsPlain word → d.settle = .ok r →
      d.fileCount < 2 → Reads d word { r with held := some (.file word) }
  | letters {d r : Draft} (more : Nat) : d.onlyFiles = false → d.settle = .ok r →
      Reads d ('-' :: List.replicate (more + 1) 'v')
        { r with verbosity := min 255 (r.verbosity + (more + 1)) }
  | verbose {d r : Draft} : d.onlyFiles = false → d.settle = .ok r →
      Reads d "--verbose".toList { r with verbosity := min 255 (r.verbosity + 1) }
  | tokens {d r : Draft} : d.onlyFiles = false → d.settle = .ok r → r.tokens = false →
      Reads d "--tokens".toList { r with tokens := true }
  | depth {d r : Draft} : d.onlyFiles = false → d.settle = .ok r →
      Reads d "--max-depth".toList { r with held := some (.depth none) }
  | depthValue {d r r' : Draft} {value : Text} : d.onlyFiles = false → d.settle = .ok r →
      r.setDepth value = .ok r' → Reads d ("--max-depth=".toList ++ value) r'

theorem readFile_eq_ok_iff : d.readFile word = .ok d' ↔
    d.fileCount < 2 ∧ ∃ r, d.settle = .ok r ∧ d' = { r with held := some (.file word) } := by
  unfold readFile
  split
  · next hc =>
    constructor
    · intro h
      obtain ⟨r, hr, h⟩ := bind_eq_ok h
      exact ⟨hc, r, hr, (Except.ok.inj h).symm⟩
    · rintro ⟨-, r, hr, rfl⟩
      rw [hr]
      rfl
  · next hc => simp [hc]

theorem raise_eq_ok {flag : Flag} (h : d.raise flag = .ok d') :
    ∃ r, d.settle = .ok r ∧ ((flag = .verbose ∧ d' = r.louder) ∨
      (flag = .tokens ∧ r.tokens = false ∧ d' = { r with tokens := true })) := by
  obtain ⟨r, hr, h⟩ := bind_eq_ok h
  refine ⟨r, hr, ?_⟩
  cases flag with
  | verbose => exact .inl ⟨rfl, (Except.ok.inj h).symm⟩
  | tokens =>
    dsimp only at h
    split at h
    · cases h
    · next ht => exact .inr ⟨rfl, by simpa using ht, (Except.ok.inj h).symm⟩
  | help => cases h
  | version => cases h

theorem readLetters_cons_eq_ok {letter : Char} {letters : Text}
    (h : d.readLetters (letter :: letters) = .ok d') :
    letter = 'v' ∧ ∃ r, d.settle = .ok r ∧ r.louder.readLetters letters = .ok d' := by
  rw [readLetters] at h
  split at h
  · cases h
  · next flag hf =>
    obtain ⟨d₁, h₁, h⟩ := bind_eq_ok h
    obtain ⟨r, hr, ⟨rfl, rfl⟩ | ⟨rfl, -, -⟩⟩ := raise_eq_ok h₁
    · unfold Flag.ofLetter? at hf
      split at hf <;> simp_all
    · unfold Flag.ofLetter? at hf
      split at hf <;> simp_all

theorem louder_settle (h : r.held = none) : r.louder.settle = .ok r.louder := settle_of_held h

theorem readLetters_v (h : d.settle = .ok r) (more : Nat) :
    d.readLetters (List.replicate (more + 1) 'v') =
      .ok { r with verbosity := min 255 (r.verbosity + (more + 1)) } := by
  induction more generalizing d r with
  | zero => simp [readLetters, Flag.ofLetter?, raise, h, louder, bind, Except.bind]
  | succ more ih =>
    rw [List.replicate_succ]
    simp only [readLetters, Flag.ofLetter?, raise, h, bind, Except.bind]
    rw [ih (louder_settle (held_of_settle h))]
    simp only [louder, Except.ok.injEq, mk.injEq, and_true]
    omega

theorem of_readLetters {letter : Char} {letters : Text}
    (h : d.readLetters (letter :: letters) = .ok d') :
    ∃ more r, letter :: letters = List.replicate (more + 1) 'v' ∧ d.settle = .ok r := by
  induction letters generalizing d letter with
  | nil =>
    obtain ⟨rfl, r, hr, -⟩ := readLetters_cons_eq_ok h
    exact ⟨0, r, rfl, hr⟩
  | cons next letters ih =>
    obtain ⟨rfl, r, hr, h⟩ := readLetters_cons_eq_ok h
    obtain ⟨more, -, hv, -⟩ := ih h
    exact ⟨more + 1, r, by rw [hv]; rfl, hr⟩

theorem splitLong_cases (s : Text) :
    splitLong s = (s, none) ∨ ∃ name value, splitLong s = (name, some value) ∧
      s = name ++ '=' :: value := by
  unfold splitLong
  split
  · exact .inl rfl
  · next c value hc =>
    have hs := List.takeWhile_append_dropWhile (p := (· != '=')) (l := s)
    have hh := List.head?_dropWhile_not (· != '=') s
    simp only [hc, List.head?_cons, bne_eq_false_iff_eq] at hs hh
    subst hh
    exact .inr ⟨_, value, rfl, hs.symm⟩

theorem ofName?_eq_some {name : Text} {flag : Flag} (h : Flag.ofName? name = some flag) :
    (name = "verbose".toList ∧ flag = .verbose) ∨ (name = "tokens".toList ∧ flag = .tokens) ∨
      flag = .help ∨ flag = .version := by
  unfold Flag.ofName? at h
  split at h
  · next hn => exact .inl ⟨hn, (Option.some.inj h).symm⟩
  · split at h
    · next hn => exact .inr (.inl ⟨hn, (Option.some.inj h).symm⟩)
    · split at h
      · exact .inr (.inr (.inl (Option.some.inj h).symm))
      · split at h
        · exact .inr (.inr (.inr (Option.some.inj h).symm))
        · cases h

theorem reads_of_readLong {long : Text} (ho : d.onlyFiles = false)
    (h : d.readLong (splitLong long).1 (splitLong long).2 = .ok d') :
    d.Reads ('-' :: '-' :: long) d' := by
  rcases splitLong_cases long with hs | ⟨name, value, hs, hlong⟩
  · rw [hs] at h
    unfold readLong at h
    split at h
    · next hn =>
      obtain ⟨r, hr, h⟩ := bind_eq_ok h
      obtain rfl := Except.ok.inj h
      subst hn
      exact .depth ho hr
    · split at h
      · cases h
      · cases h
      · next flag hf hv =>
        obtain ⟨r, hr, ⟨rfl, rfl⟩ | ⟨rfl, ht, rfl⟩⟩ := raise_eq_ok h
        · obtain ⟨rfl, -⟩ | ⟨-, hx⟩ | hx | hx := ofName?_eq_some hf
          · exact .verbose ho hr
          all_goals cases hx
        · obtain ⟨-, hx⟩ | ⟨rfl, -⟩ | hx | hx := ofName?_eq_some hf
          · cases hx
          · exact .tokens ho hr ht
          all_goals cases hx
  · rw [hs] at h
    unfold readLong at h
    split at h
    · next hn =>
      obtain ⟨r, hr, h⟩ := bind_eq_ok h
      subst hn
      rw [hlong]
      exact .depthValue ho hr h
    · split at h
      · cases h
      · cases h
      · next hv => cases hv

theorem readWord_depthValue (ho : d.onlyFiles = false) (value : Text) :
    d.readWord ("--max-depth=".toList ++ value) = d.settle >>= (·.setDepth value) := by
  simp [readWord, ho, readLong, splitLong]

theorem readWord_of_plain (ho : d.onlyFiles = false) (hw : IsPlain word) :
    d.readWord word =
      match d.held with
      | some (.depth none) => .ok { d with held := some (.depth (some word)) }
      | _ => d.readFile word := by
  unfold readWord
  rw [if_neg (by simp [ho])]
  split
  · cases hw rfl
  · cases hw rfl
  · cases hw rfl
  · rfl

theorem reads_of_readWord (h : d.readWord word = .ok d') : d.Reads word d' := by
  by_cases ho : d.onlyFiles = true
  · unfold readWord at h
    rw [if_pos ho] at h
    obtain ⟨hc, r, hr, rfl⟩ := readFile_eq_ok_iff.mp h
    exact .file (.inl ho) hr hc
  · unfold readWord at h
    rw [if_neg ho] at h
    have hf : d.onlyFiles = false := Bool.eq_false_iff.mpr ho
    split at h
    · obtain rfl := Except.ok.inj h
      exact .divider hf
    · next long _ => exact reads_of_readLong hf h
    · next letter letters _ _ =>
      obtain ⟨more, r, hl, hr⟩ := of_readLetters h
      rw [hl, readLetters_v hr] at h
      obtain rfl := Except.ok.inj h
      rw [hl]
      exact .letters more hf hr
    · next h₁ h₂ h₃ =>
      have hw : IsPlain word := by
        intro hd
        obtain ⟨word, rfl⟩ := List.head?_eq_some_iff.mp hd
        cases word with
        | nil => rfl
        | cons letter letters => exact absurd rfl (h₃ letter letters)
      split at h
      · next hd =>
        obtain rfl := Except.ok.inj h
        exact .value hf hd hw
      · obtain ⟨hc, r, hr, rfl⟩ := readFile_eq_ok_iff.mp h
        exact .file (.inr hw) hr hc

theorem readWord_of_reads (h : d.Reads word d') : d.readWord word = .ok d' := by
  cases h with
  | divider ho => simp [readWord, ho, divided]
  | value ho hd hw => rw [readWord_of_plain ho hw, hd]
  | @file r _ ho hr hc =>
    have hfile : d.readFile word = .ok { r with held := some (.file word) } :=
      readFile_eq_ok_iff.mpr ⟨hc, r, hr, rfl⟩
    by_cases hd : d.onlyFiles = true
    · simp only [readWord, hd, if_true, hfile]
    · have hw := ho.resolve_left hd
      rw [readWord_of_plain (Bool.eq_false_iff.mpr hd) hw]
      split
      · next hheld => simp [settle, hheld] at hr
      · exact hfile
  | letters more ho hr =>
    rw [← readLetters_v hr more]
    simp [readWord, ho, List.replicate_succ]
  | verbose ho hr =>
    simp [readWord, ho, readLong, splitLong, Flag.ofName?, raise, hr, louder, bind, Except.bind]
  | tokens ho hr ht =>
    simp [readWord, ho, readLong, splitLong, Flag.ofName?, raise, hr, ht, bind, Except.bind]
  | depth ho hr => simp [readWord, ho, readLong, splitLong, hr, bind, Except.bind]
  | depthValue ho hr hv =>
    rw [readWord_depthValue ho, hr]
    exact hv

theorem readWord_eq_ok_iff : d.readWord word = .ok d' ↔ d.Reads word d' :=
  ⟨reads_of_readWord, readWord_of_reads⟩

def complete (d : Draft) (words : List Text) : Except Refusal Options := do
  let d ← words.foldlM readWord d
  d.finish

theorem complete_nil (d : Draft) : d.complete [] = d.finish := rfl

theorem finish_eq_ok_iff {o : Options} : d.finish = .ok o ↔
    ∃ r, d.settle = .ok r ∧ r.names = [o.input, o.output] ∧
      o = ⟨r.verbosity, o.input, o.output, r.maxDepth, r.tokens⟩ := by
  constructor
  · intro h
    obtain ⟨r, hr, h⟩ := bind_eq_ok h
    split at h
    · next input output hn =>
      obtain rfl := Except.ok.inj h
      exact ⟨r, hr, hn, rfl⟩
    · cases h
  · rintro ⟨r, hr, hn, ho⟩
    simp only [finish, hr, bind, Except.bind, hn]
    rw [← ho]

theorem complete_cons (d : Draft) (word : Text) (words : List Text) :
    d.complete (word :: words) = d.readWord word >>= (·.complete words) := by
  simp only [complete, List.foldlM_cons, bind_assoc]

theorem Reads.complete_cons (h : d.Reads word d') (words : List Text) :
    d.complete (word :: words) = d'.complete words := by
  rw [Draft.complete_cons, readWord_eq_ok_iff.mpr h]
  rfl

theorem readWord_settled (h : d.settle = .ok r) (hw : d.onlyFiles = true ∨ word ≠ "--".toList) :
    d.readWord word = r.readWord word := by
  have hr : r.settle = .ok r := settle_of_held (held_of_settle h)
  have hfile : d.readFile word = r.readFile word := by
    simp only [readFile, fileCount_of_settle h, h, hr]
  unfold readWord
  rw [onlyFiles_of_settle h]
  split
  · exact hfile
  · next ho =>
    split
    · exact absurd rfl (hw.resolve_left ho)
    · simp only [readLong, raise, h, hr]
    · simp only [readLetters, raise, h, hr]
    · rw [held_of_settle h]
      split
      · next hd => simp [settle, hd] at h
      · exact hfile

/-- It makes no difference whether a word that can be settled is still held back. -/
theorem complete_settled (h : d.settle = .ok r) (words : List Text) :
    d.complete words = r.complete words := by
  induction words generalizing d r with
  | nil =>
    have hr : r.settle = .ok r := settle_of_held (held_of_settle h)
    simp only [complete_nil, finish, h, hr]
  | cons word words ih =>
    by_cases hw : d.onlyFiles = true ∨ word ≠ "--".toList
    · rw [complete_cons, complete_cons, readWord_settled h hw]
    · obtain ⟨ho, rfl⟩ : d.onlyFiles = false ∧ word = "--".toList := by simpa using hw
      have ho' : r.onlyFiles = false := (onlyFiles_of_settle h).trans ho
      rw [(Reads.divider ho).complete_cons, (Reads.divider ho').complete_cons]
      exact ih (settle_divided h)

end Draft

end CommandLine

end Reckon
