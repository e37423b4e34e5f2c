import Reckon.Proofs.Arguments

set_option autoImplicit false

namespace Reckon

namespace CommandLine

section Trim

variable {p s q : Text}

theorem dropWhile_append_of_head? (hp : ∀ c ∈ p, isWhiteSpace c)
    (hs : ∀ c ∈ s.head?, isWhiteSpace c = false) : (p ++ s).dropWhile isWhiteSpace = s := by
  rw [List.dropWhile_append_of_pos hp]
  cases s with
  | nil => rfl
  | cons c s => exact List.dropWhile_cons_of_neg (by simp [hs c rfl])

theorem trim_of_all (hp : ∀ c ∈ p, isWhiteSpace c) : trim p = [] := by
  have h : p.dropWhile isWhiteSpace = [] := by
    simpa using dropWhile_append_of_head? (s := []) hp (by simp)
  rw [trim, h]
  rfl

theorem trim_surrounded (hp : ∀ c ∈ p, isWhiteSpace c) (hq : ∀ c ∈ q, isWhiteSpace c)
    (hfront : ∀ c ∈ s.head?, isWhiteSpace c = false)
    (hback : ∀ c ∈ s.getLast?, isWhiteSpace c = false) :
    trim (p ++ s ++ q) = s := by
  cases s with
  | nil =>
    apply trim_of_all
    simpa [or_imp, forall_and] using ⟨hp, hq⟩
  | cons c s =>
    have hhead : ∀ c' ∈ ((c :: s) ++ q).head?, isWhiteSpace c' = false := hfront
    have hlast : ∀ c' ∈ (c :: s).reverse.head?, isWhiteSpace c' = false := by
      rwa [List.head?_reverse]
    rw [trim, List.append_assoc, dropWhile_append_of_head? hp hhead, List.reverse_append,
      dropWhile_append_of_head? (by simpa using hq) hlast, List.reverse_reverse]

end Trim

namespace Draft

variable {d d' r : Draft} {word : Text} {words : List Text} {o : Options} {n : Nat}

theorem setDepth_eq_ok {value : Text} (h : r.setDepth value = .ok d) :
    ∃ n, d = { r with maxDepth := some n } := by
  unfold setDepth at h
  split at h
  · cases h
  · next n _ _ => exact ⟨n, (Except.ok.inj h).symm⟩
  · cases h

theorem onlyFiles_of_foldlM (h : words.foldlM readWord d = .ok d') (hd : d.onlyFiles = false)
    (hw : "--".toList ∉ words) : d'.onlyFiles = false := by
  induction words generalizing d with
  | nil =>
    obtain rfl := Except.ok.inj h
    exact hd
  | cons word words ih =>
    obtain ⟨hne, hrest⟩ := List.ne_and_not_mem_of_not_mem_cons hw
    obtain ⟨d₁, h₁, h⟩ := bind_eq_ok h
    refine ih h ?_ hrest
    cases readWord_eq_ok_iff.mp h₁ with
    | divider ho => exact absurd rfl hne
    | value ho hheld hplain => exact hd
    | file ho hr hc => exact (onlyFiles_of_settle hr).trans hd
    | letters more ho hr => exact (onlyFiles_of_settle hr).trans hd
    | verbose ho hr => exact (onlyFiles_of_settle hr).trans hd
    | tokens ho hr ht => exact (onlyFiles_of_settle hr).trans hd
    | depth ho hr => exact (onlyFiles_of_settle hr).trans hd
    | depthValue ho hr hv =>
      obtain ⟨n, rfl⟩ := setDepth_eq_ok hv
      exact (onlyFiles_of_settle hr).trans hd

structure Unlimited (d : Draft) : Prop where
  limit : d.maxDepth = none
  held : d.held = none ∨ ∃ name, d.held = some (.file name) ∧ name ≠ []

theorem unlimited_iff_settle : d.Unlimited ↔ ∃ r, d.settle = .ok r ∧ r.maxDepth = none := by
  constructor
  · rintro ⟨hm, hheld | ⟨name, hheld, hn⟩⟩
    · exact ⟨d, settle_of_held hheld, hm⟩
    · exact ⟨{ d with held := none, names := d.names ++ [name] }, by simp [settle, hheld, hn], hm⟩
  · rintro ⟨r, hr, hm⟩
    rcases settle_cases hr with ⟨hheld, rfl⟩ | ⟨value, n, -, -, -, rfl⟩ | ⟨name, hheld, hn, rfl⟩
    · exact ⟨hm, .inl hheld⟩
    · cases hm
    · exact ⟨hm, .inr ⟨name, hheld, hn⟩⟩

def limited (n : Nat) (d : Draft) : Draft := { d with maxDepth := some n }

theorem settle_limited (h : d.settle = .ok r) (hr : r.maxDepth = none) (n : Nat) :
    (d.limited n).settle = .ok (r.limited n) := by
  rcases settle_cases h with ⟨hheld, rfl⟩ | ⟨value, n, -, -, -, rfl⟩ | ⟨name, hheld, hn, rfl⟩
  · exact settle_of_held hheld
  · cases hr
  · simp [limited, settle, hheld, hn]

/-- A limit is never taken back, and a word that sets none is read alike with and without one. -/
theorem Reads.limited (h : d.Reads word d') (hd : d'.Unlimited) :
    d.Unlimited ∧ ∀ n, (d.limited n).Reads word (d'.limited n) := by
  have settled {r : Draft} (hr : d.settle = .ok r) (hm : r.maxDepth = none) :
      d.Unlimited ∧ ∀ n, (d.limited n).settle = .ok (r.limited n) :=
    ⟨unlimited_iff_settle.mpr ⟨r, hr, hm⟩, settle_limited hr hm⟩
  cases h with
  | divider ho => exact ⟨⟨hd.limit, hd.held⟩, fun n => .divider ho⟩
  | value ho hheld hplain =>
    -- what is held back is a limit
    obtain ⟨-, hx | ⟨_, hx, -⟩⟩ := hd <;> cases hx
  | file ho hr hc =>
    obtain ⟨hu, hs⟩ := settled hr hd.limit
    exact ⟨hu, fun n => Reads.file (d := d.limited n) ho (hs n) hc⟩
  | letters more ho hr =>
    obtain ⟨hu, hs⟩ := settled hr hd.limit
    exact ⟨hu, fun n => Reads.letters (d := d.limited n) more ho (hs n)⟩
  | verbose ho hr =>
    obtain ⟨hu, hs⟩ := settled hr hd.limit
    exact ⟨hu, fun n => Reads.verbose (d := d.limited n) ho (hs n)⟩
  | tokens ho hr ht =>
    obtain ⟨hu, hs⟩ := settled hr hd.limit
    exact ⟨hu, fun n => Reads.tokens (d := d.limited n) ho (hs n) ht⟩
  | depth ho hr =>
    obtain ⟨-, hx | ⟨_, hx, -⟩⟩ := hd <;> cases hx
  | depthValue ho hr hv =>
    obtain ⟨n, rfl⟩ := setDepth_eq_ok hv
    cases hd.limit

theorem complete_limited (h : d.complete words = .ok o) (ho : o.maxDepth = none) :
    d.Unlimited ∧ ∀ n, (d.limited n).complete words = .ok { o with maxDepth := some n } := by
  induction words generalizing d with
  | nil =>
    obtain ⟨r, hr, hnames, heq⟩ := finish_eq_ok_iff.mp h
    have hm : r.maxDepth = none := by rwa [heq] at ho
    refine ⟨unlimited_iff_settle.mpr ⟨r, hr, hm⟩, fun n => ?_⟩
    rw [heq, complete_nil, finish_eq_ok_iff]
    exact ⟨r.limited n, settle_limited hr hm n, hnames, rfl⟩
  | cons word words ih =>
    rw [complete_cons] at h
    obtain ⟨d₁, h₁, h⟩ := bind_eq_ok h
    obtain ⟨hu₁, hc⟩ := ih h
    obtain ⟨hu, hreads⟩ := (readWord_eq_ok_iff.mp h₁).limited hu₁
    exact ⟨hu, fun n => ((hreads n).complete_cons words).trans (hc n)⟩

end Draft

/-- A command line that is understood and sets no limit, cut where an option may stand. -/
structure TakesLimit (before after : List Text) (o : Options) : Prop where
  understood : parse (before ++ after) = .ok o
  unlimited : o.maxDepth = none
  undivided : "--".toList ∉ before

theorem parse_append (before after : List Text) :
    parse (before ++ after) = before.foldlM Draft.readWord {} >>= (·.complete after) := by
  simp only [parse, List.foldlM_append, bind_assoc, Draft.complete]

theorem TakesLimit.parse {before after : List Text} {o : Options} (h : TakesLimit before after o)
    (s : Text) :
    CommandLine.parse (before ++ ("--max-depth=".toList ++ s) :: after) =
      match numeral? s with
      | some n => .ok { o with maxDepth := some n }
      | none => .error .badValue := by
  obtain ⟨hparse, ho, hb⟩ := h
  rw [parse_append] at hparse ⊢
  obtain ⟨d, hd, hc⟩ := bind_eq_ok hparse
  have hfiles := Draft.onlyFiles_of_foldlM hd rfl hb
  obtain ⟨r, hr, hm⟩ := Draft.unlimited_iff_settle.mp (Draft.complete_limited hc ho).1
  rw [Draft.complete_settled hr] at hc
  rw [hd]
  change d.complete (("--max-depth=".toList ++ s) :: after) = _
  rw [Draft.complete_cons, Draft.readWord_depthValue hfiles, hr]
  change r.setDepth s >>= (·.complete after) = _
  rw [Draft.setDepth, hm]
  cases numeral? s with
  | some n => exact (Draft.complete_limited hc ho).2 n
  | none => rfl

/-- The numerals of the command line are those of the environment, where white space may surround
them. Any other text is refused on the command line and leaves the default in the environment,
which the command line overrides. -/
theorem depth_read_alike {p s q : Text}
    (hp : ∀ c ∈ p, isWhiteSpace c) (hq : ∀ c ∈ q, isWhiteSpace c)
    (hfront : ∀ c ∈ s.head?, isWhiteSpace c = false)
    (hback : ∀ c ∈ s.getLast?, isWhiteSpace c = false) :
    (∀ n, IsNumeral s n → n < 2 ^ 64 →
      chooseDepth none (some (p ++ s ++ q)) = n ∧
      ∀ before after o, TakesLimit before after o →
        parse (before ++ ("--max-depth=".toList ++ s) :: after) =
          .ok { o with maxDepth := some n }) ∧
    ((¬ ∃ n, IsNumeral s n ∧ n < 2 ^ 64) →
      chooseDepth none (some (p ++ s ++ q)) = 100 ∧
      ∀ before after o, TakesLimit before after o →
        parse (before ++ ("--max-depth=".toList ++ s) :: after) = .error .badValue) ∧
    ∀ f environment, chooseDepth (some f) environment = f := by
  have henv : chooseDepth none (some (p ++ s ++ q)) = (numeral? s).getD 100 := by
    simp only [chooseDepth, Option.none_or, Option.bind_some, trim_surrounded hp hq hfront hback]
    rfl
  refine ⟨?_, ?_, fun _ _ => rfl⟩
  · intro n hs hn
    have hread : numeral? s = some n := numeral?_eq_some_iff.mpr ⟨hs, hn⟩
    refine ⟨by rw [henv, hread]; rfl, fun before after o h => ?_⟩
    rw [h.parse, hread]
  · intro hs
    have hread : numeral? s = none := by
      rw [Option.eq_none_iff_forall_ne_some]
      exact fun n hn => hs ⟨n, numeral?_eq_some_iff.mp hn⟩
    refine ⟨by rw [henv, hread]; rfl, fun before after o h => ?_⟩
    rw [h.parse, hread]

/-- An ideographic space and a newline around `+007`, and the first number that does not fit. -/
theorem depth_read_alike_boundary :
    chooseDepth none (some "\u3000+007\n".toList) = 7 ∧
    parse ["-v".toList, "a".toList, "--max-depth=+007".toList, "b".toList] =
      .ok ⟨1, "a".toList, "b".toList, some 7, false⟩ ∧
    chooseDepth none (some " 18446744073709551616 ".toList) = 100 ∧
    parse ["-v".toList, "a".toList, "--max-depth=18446744073709551616".toList, "b".toList] =
      .error .badValue ∧
    chooseDepth (some 0) (some "5".toList) = 0 := by
  have hline : TakesLimit ["-v".toList, "a".toList] ["b".toList]
      ⟨1, "a".toList, "b".toList, none, false⟩ :=
    ⟨by rfl, rfl, by decide⟩
  have hseven : IsNumeral "+007".toList 7 :=
    ⟨['+'], "007".toList, rfl, .inr rfl, by decide, List.all_eq_true.mp rfl, by decide⟩
  have hlarge : ¬ ∃ n, IsNumeral "18446744073709551616".toList n ∧ n < 2 ^ 64 := by
    rintro ⟨n, h⟩
    have hread : numeral? "18446744073709551616".toList = none := by decide
    rw [numeral?_eq_some_iff.mpr h] at hread
    cases hread
  obtain ⟨hfits, -, hflag⟩ := depth_read_alike (p := ['\u3000']) (s := "+007".toList) (q := ['\n'])
    (List.all_eq_true.mp rfl) (List.all_eq_true.mp rfl) (by rintro _ ⟨⟩; rfl) (by rintro _ ⟨⟩; rfl)
  obtain ⟨-, hother, -⟩ :=
    depth_read_alike (p := [' ']) (s := "18446744073709551616".toList) (q := [' '])
    (List.all_eq_true.mp rfl) (List.all_eq_true.mp rfl) (by rintro _ ⟨⟩; rfl) (by rintro _ ⟨⟩; rfl)
  exact ⟨(hfits 7 hseven (by decide)).1, (hfits 7 hseven (by decide)).2 _ _ _ hline,
    (hother hlarge).1, (hother hlarge).2 _ _ _ hline, hflag 0 _⟩

end CommandLine

end Reckon
