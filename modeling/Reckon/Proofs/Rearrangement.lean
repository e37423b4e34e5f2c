import Mathlib.Data.List.Perm.Basic
import Reckon.Proofs.Arguments

set_option autoImplicit false

namespace Reckon

namespace CommandLine

/-- The words that belong together: the letter `v` once or more, a flag, a limit in two words or
in one, or a file name. -/
inductive Group where
  | cluster (more : Nat)
  | verbose
  | tokens
  | depth (joined : Bool) (numeral : Text) (n : Nat) (reads : IsNumeral numeral n)
      (fits : n < 2 ^ 64)
  | file (name : Text) (plain : IsPlain name) (nonempty : name ≠ [])

namespace Group

def words : Group → List Text
  | cluster more => ['-' :: List.replicate (more + 1) 'v']
  | verbose => ["--verbose".toList]
  | tokens => ["--tokens".toList]
  | depth false numeral _ _ _ => ["--max-depth".toList, numeral]
  | depth true numeral _ _ _ => ["--max-depth=".toList ++ numeral]
  | file name _ _ => [name]

def volume : Group → Nat
  | cluster more => more + 1
  | verbose => 1
  | _ => 0

def isTokens : Group → Bool
  | tokens => true
  | _ => false

def depth? : Group → Option Nat
  | depth _ _ n _ _ => some n
  | _ => none

def file? : Group → Option Text
  | file name _ _ => some name
  | _ => none

end Group

structure Admissible (gs : List Group) : Prop where
  files : (gs.filterMap Group.file?).length ≤ 2
  depths : (gs.filterMap Group.depth?).length ≤ 1
  tokens : gs.countP Group.isTokens ≤ 1

theorem Admissible.of_append {front back : List Group} (h : Admissible (front ++ back)) :
    Admissible front := by
  obtain ⟨hf, hd, ht⟩ := h
  simp only [List.filterMap_append, List.length_append, List.countP_append] at hf hd ht
  exact ⟨by omega, by omega, by omega⟩

theorem Admissible.perm {gs gs' : List Group} (h : Admissible gs) (hp : gs'.Perm gs) :
    Admissible gs' := by
  refine ⟨?_, ?_, ?_⟩
  · rw [(hp.filterMap Group.file?).length_eq]
    exact h.files
  · rw [(hp.filterMap Group.depth?).length_eq]
    exact h.depths
  · rw [hp.countP_eq]
    exact h.tokens

namespace Draft

variable {front back gs : List Group} {g : Group} {r : Draft} {name : Text}

def ofGroups (gs : List Group) : Draft where
  verbosity := min 255 (gs.map Group.volume).sum
  names := gs.filterMap Group.file?
  maxDepth := (gs.filterMap Group.depth?).head?
  tokens := gs.any Group.isTokens

@[simp] theorem held_ofGroups (gs : List Group) : (ofGroups gs).held = none := rfl

@[simp] theorem onlyFiles_ofGroups (gs : List Group) : (ofGroups gs).onlyFiles = false := rfl

@[simp] theorem min_verbosity_ofGroups (gs : List Group) :
    min 255 (ofGroups gs).verbosity = (ofGroups gs).verbosity := by
  simp [ofGroups]

theorem ofGroups_concat (front : List Group) (g : Group) :
    ofGroups (front ++ [g]) =
      { verbosity := min 255 ((ofGroups front).verbosity + g.volume)
        names := (ofGroups front).names ++ g.file?.toList
        maxDepth := (ofGroups front).maxDepth.or g.depth?
        tokens := (ofGroups front).tokens || g.isTokens } := by
  simp only [ofGroups, mk.injEq, List.map_append, List.sum_append, List.filterMap_append,
    List.any_append, List.map_cons, List.map_nil, List.sum_cons, List.sum_nil, List.any_cons,
    List.any_nil, List.head?_append, Bool.or_false, and_true]
  refine ⟨by omega, ?_, ?_⟩
  · cases hg : g.file? <;> simp [hg]
  · cases hg : g.depth? <;> simp [hg]

-- From here on each group is a known one, and what it says can be computed.
attribute [simp] Group.volume Group.isTokens Group.depth? Group.file?

theorem maxDepth_ofGroups (h : Admissible (front ++ [g])) (hg : g.depth?.isSome) :
    (ofGroups front).maxDepth = none := by
  obtain ⟨n, hn⟩ := Option.isSome_iff_exists.mp hg
  have hd := h.depths
  simp only [List.filterMap_append, List.length_append, List.filterMap_cons, hn, List.filterMap_nil,
    List.length_singleton] at hd
  have hnil : front.filterMap Group.depth? = [] := List.eq_nil_of_length_eq_zero (by omega)
  simp [ofGroups, hnil]

theorem tokens_ofGroups (h : Admissible (front ++ [.tokens])) :
    (ofGroups front).tokens = false := by
  have ht := h.tokens
  simp only [List.countP_append, List.countP_singleton, Group.isTokens, if_true] at ht
  have hzero : front.countP Group.isTokens = 0 := by omega
  simpa [ofGroups] using List.countP_eq_zero.mp hzero

theorem complete_file (hr : r.held = none) (hw : r.onlyFiles = true ∨ IsPlain name) (hn : name ≠ [])
    (hc : r.names.length < 2) (words : List Text) :
    r.complete (name :: words) = complete { r with names := r.names ++ [name] } words := by
  have hcount : r.fileCount < 2 := by simpa [fileCount, hr] using hc
  rw [(Reads.file hw (settle_of_held hr) hcount).complete_cons]
  apply complete_settled
  simp [settle, hn, hr]

theorem names_length_lt {hplain : IsPlain name} {hne : name ≠ []}
    (h : Admissible (front ++ [.file name hplain hne])) : (ofGroups front).names.length < 2 := by
  have hf := h.files
  simp only [List.filterMap_append, List.length_append, List.filterMap_cons, Group.file?,
    List.filterMap_nil, List.length_singleton] at hf
  exact Nat.lt_of_succ_le hf

theorem ofGroups_file (front : List Group) {hplain : IsPlain name} {hne : name ≠ []} :
    ofGroups (front ++ [.file name hplain hne]) =
      { ofGroups front with names := (ofGroups front).names ++ [name] } := by
  rw [ofGroups_concat]
  simp

theorem complete_group (h : Admissible (front ++ [g])) (words : List Text) :
    (ofGroups front).complete (g.words ++ words) = (ofGroups (front ++ [g])).complete words := by
  have hs : (ofGroups front).settle = .ok (ofGroups front) := rfl
  rw [ofGroups_concat]
  cases g with
  | cluster more =>
    rw [Group.words, List.singleton_append, (Reads.letters more rfl hs).complete_cons]
    simp
  | verbose =>
    rw [Group.words, List.singleton_append, (Reads.verbose rfl hs).complete_cons]
    simp
  | tokens =>
    rw [Group.words, List.singleton_append, (Reads.tokens rfl hs (tokens_ofGroups h)).complete_cons]
    simp
  | depth joined numeral n hnum hfits =>
    have hm := maxDepth_ofGroups h rfl
    have hset : (ofGroups front).setDepth numeral =
        .ok { ofGroups front with maxDepth := some n } := by
      simp [setDepth, hm, numeral?_eq_some_iff.mpr ⟨hnum, hfits⟩]
    cases joined with
    | true =>
      rw [Group.words, List.singleton_append, (Reads.depthValue rfl hs hset).complete_cons]
      simp [hm]
    | false =>
      -- the value is held back until the next word, and then settled like one in the same word
      have hvalue :=
        Reads.value (d := { ofGroups front with held := some (.depth none) }) rfl rfl hnum.isPlain
      have hsettle : settle { ofGroups front with held := some (.depth (some numeral)) } =
          .ok { ofGroups front with maxDepth := some n } := hset
      rw [Group.words, List.cons_append, List.singleton_append, (Reads.depth rfl hs).complete_cons,
        hvalue.complete_cons, complete_settled hsettle]
      simp [hm]
  | file name hplain hne =>
    rw [← ofGroups_concat, ofGroups_file, Group.words, List.singleton_append,
      complete_file rfl (.inr hplain) hne (names_length_lt h)]

theorem complete_groups (front : List Group) (h : Admissible (front ++ back)) (words : List Text) :
    (ofGroups front).complete (back.flatMap Group.words ++ words) =
      (ofGroups (front ++ back)).complete words := by
  induction back generalizing front with
  | nil => simp
  | cons g back ih =>
    rw [List.append_cons] at h ⊢
    rw [List.flatMap_cons, List.append_assoc, complete_group h.of_append, ih _ h]

theorem complete_divided (h : Admissible (front ++ back)) (hb : ∀ g ∈ back, g.file?.isSome) :
    (ofGroups front).divided.complete (back.flatMap Group.words) =
      (ofGroups (front ++ back)).divided.complete [] := by
  induction back generalizing front with
  | nil => simp
  | cons g back ih =>
    obtain ⟨hg, hback⟩ := List.forall_mem_cons.mp hb
    rw [List.append_cons] at h ⊢
    cases g with
    | file name hplain hne =>
      have hnames : (ofGroups front).divided.names.length < 2 := names_length_lt h.of_append
      rw [List.flatMap_cons, Group.words, List.singleton_append,
        complete_file rfl (.inl rfl) hne hnames, ← ih h hback, ofGroups_file]
      rfl
    | _ => cases hg

theorem complete_nil_divided (h : r.held = none) : r.divided.complete [] = r.complete [] := by
  have hr : r.divided.settle = .ok r.divided := settle_of_held h
  simp only [complete_nil, finish, settle_of_held h, hr]
  rfl

end Draft

theorem eq_of_perm_of_length_le_one {α : Type} {l l' : List α} (hp : l'.Perm l) (h : l.length ≤ 1) :
    l' = l := by
  cases l with
  | nil => exact hp.eq_nil
  | cons a l =>
    obtain rfl : l = [] := List.eq_nil_of_length_eq_zero (by simpa using h)
    exact hp.eq_singleton

theorem parse_of_admissible {gs : List Group} {input output : Text} (h : Admissible gs)
    (hf : gs.filterMap Group.file? = [input, output]) :
    parse (gs.flatMap Group.words) = .ok ⟨min 255 (gs.map Group.volume).sum, input, output,
      (gs.filterMap Group.depth?).head?, gs.any Group.isTokens⟩ := by
  have hg := Draft.complete_groups [] h []
  rw [List.append_nil, List.nil_append] at hg
  refine hg.trans ?_
  rw [Draft.complete_nil, Draft.finish_eq_ok_iff]
  exact ⟨Draft.ofGroups gs, rfl, hf, rfl⟩

/-- The order of the groups of a command line does not matter, as long as the two file names stay in
order, nor does a `--` in front of the last file names. -/
theorem parse_groups {gs : List Group} {input output : Text}
    (hf : gs.filterMap Group.file? = [input, output]) (hd : (gs.filterMap Group.depth?).length ≤ 1)
    (ht : gs.countP Group.isTokens ≤ 1) :
    parse (gs.flatMap Group.words) = .ok ⟨min 255 (gs.map Group.volume).sum, input, output,
      (gs.filterMap Group.depth?).head?, gs.any Group.isTokens⟩ ∧
    (∀ gs' : List Group, gs'.Perm gs → gs'.filterMap Group.file? = [input, output] →
      parse (gs'.flatMap Group.words) = parse (gs.flatMap Group.words)) ∧
    ∀ front back, gs = front ++ back → (∀ g ∈ back, g.file?.isSome) →
      parse (front.flatMap Group.words ++ "--".toList :: back.flatMap Group.words) =
        parse (gs.flatMap Group.words) := by
  have h : Admissible gs := ⟨by simp [hf], hd, ht⟩
  refine ⟨parse_of_admissible h hf, ?_, ?_⟩
  · intro gs' hp hf'
    have hdepth := eq_of_perm_of_length_le_one (hp.filterMap Group.depth?) hd
    rw [parse_of_admissible (h.perm hp) hf', parse_of_admissible h hf,
      (hp.map Group.volume).sum_nat, hdepth, hp.any_eq]
  · rintro front back rfl hb
    have hfront := Draft.complete_groups [] h.of_append ("--".toList :: back.flatMap Group.words)
    have hall := Draft.complete_groups [] h []
    rw [List.append_nil] at hall
    calc parse (front.flatMap Group.words ++ "--".toList :: back.flatMap Group.words)
        = (Draft.ofGroups front).complete ("--".toList :: back.flatMap Group.words) := hfront
      _ = (Draft.ofGroups front).divided.complete (back.flatMap Group.words) :=
          (Draft.Reads.divider rfl).complete_cons _
      _ = (Draft.ofGroups (front ++ back)).divided.complete [] := Draft.complete_divided h hb
      _ = (Draft.ofGroups (front ++ back)).complete [] := Draft.complete_nil_divided rfl
      _ = parse ((front ++ back).flatMap Group.words) := hall.symm

/-- The lines `-vv --max-depth +07 - --tokens b` and `- --tokens b --max-depth +07 -vv` say the
same, and so does the first with a `--` in front of its last word. -/
theorem parse_groups_mixed :
    parse ["-vv".toList, "--max-depth".toList, "+07".toList, "-".toList, "--tokens".toList,
      "b".toList] =
      .ok ⟨2, "-".toList, "b".toList, some 7, true⟩ ∧
    parse ["-".toList, "--tokens".toList, "b".toList, "--max-depth".toList, "+07".toList,
      "-vv".toList] =
      .ok ⟨2, "-".toList, "b".toList, some 7, true⟩ ∧
    parse ["-vv".toList, "--max-depth".toList, "+07".toList, "-".toList, "--tokens".toList,
      "--".toList, "b".toList] = .ok ⟨2, "-".toList, "b".toList, some 7, true⟩ := by
  let letters := Group.cluster 1
  let limit := Group.depth false "+07".toList 7
    ⟨['+'], ['0', '7'], rfl, .inr rfl, by decide, List.all_eq_true.mp rfl, by decide⟩ (by decide)
  let input := Group.file ['-'] (fun _ => rfl) (by decide)
  let output := Group.file ['b'] (fun h => by cases h) (by decide)
  have h := @parse_groups [letters, limit, input, .tokens, output] _ _ rfl (by decide) (by decide)
  have hp : ([input, .tokens, output] ++ [limit, letters]).Perm
      [letters, limit, input, .tokens, output] :=
    List.perm_append_comm.trans (.swap _ _ _)
  refine ⟨h.1, (h.2.1 _ hp rfl).trans h.1,
    (h.2.2 [letters, limit, input, .tokens] [output] rfl ?_).trans h.1⟩
  intro g hg
  obtain rfl := List.mem_singleton.mp hg
  rfl

end CommandLine

end Reckon
