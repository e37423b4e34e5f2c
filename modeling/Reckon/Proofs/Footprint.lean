import Reckon.Program
import Reckon.Proofs.Interruption

set_option autoImplicit false

namespace Reckon

/-- The file that a path names, whether or not it is there. With a slash at its end a path can
only name a folder. -/
structure Files.Names (fs : Files) (path : Text) (p : Place) : Prop where
  checked : checkPath path = .ok ()
  reached : (pathNames path).foldlM fs.enter (pathStart path) = .ok p
  unslashed : endsInSlash path = false

/-- What there is between files and a run: how the input reads once the output has been made, how
much the output takes and whether it can be flushed. -/
structure Device where
  read : Files → Place → Source := Files.source
  limit : Option (Nat × SystemError) := none
  flushFault : Option SystemError := none

def Device.sink (device : Device) : Sink :=
  { limit := device.limit, flushFault := device.flushFault }

def runFilesOn (device : Device) (config : Config) (fs : Files) (input output : Text) :
    Except RunError Summary × Files :=
  match fs.openInput input with
  | .error e => (.error (.openInput input e), fs)
  | .ok source =>
    match fs.createOutput output with
    | .error e => (.error (.createOutput output e), fs)
    | .ok (fs, target) =>
      match run config (device.read fs source) device.sink with
      | (result, sink) => (result, fs.put target sink.written.toList)

theorem runFilesOn_default : runFilesOn {} = runFiles := rfl

namespace Files

variable {fs : Files} {p q : Place} {content : Bytes} {path name : Text}

section Entries

theorem entry?_of_surrounding (fs : Files) (h : p.isSurrounding) :
    fs.entry? p = some .folder := if_pos h

theorem entry?_put_self (h : fs.entry? p ≠ some .folder) (content : Bytes) :
    Files.entry? (fs.put p content) p = some (.file content) := by
  have hp : ¬ p.isSurrounding := fun hp => h (fs.entry?_of_surrounding hp)
  simp [Files.entry?, put, hp]

theorem lookup_filter_of_ne (entries : List (Place × Entry)) (h : q ≠ p) :
    (entries.filter (fun e => e.1 != p)).lookup q = entries.lookup q := by
  induction entries with
  | nil => rfl
  | cons e entries ih =>
    obtain ⟨r, entry⟩ := e
    by_cases hr : r = p
    · have hq : (q == r) = false := by simp [hr, h]
      rw [List.filter_cons_of_neg (by simp [hr]), ih, List.lookup_cons, hq]
    · rw [List.filter_cons_of_pos (by simp [hr]), List.lookup_cons, List.lookup_cons, ih]

theorem entry?_put_of_ne (fs : Files) (h : q ≠ p) (content : Bytes) :
    Files.entry? (fs.put p content) q = fs.entry? q := by
  have hq : (q == p) = false := by simp [h]
  rw [Files.entry?, Files.entry?, put, List.lookup_cons, hq, lookup_filter_of_ne _ h]

theorem entry?_put_put (h : fs.entry? p ≠ some .folder) (first second : Bytes) :
    Files.entry? ((fs.put p first).put p second) p = some (.file second) := by
  apply entry?_put_self
  rw [entry?_put_self h]
  simp

end Entries

section Walks

theorem requireFolder_eq_ok_iff : fs.requireFolder p = .ok () ↔ fs.entry? p = some .folder := by
  unfold requireFolder
  split <;> simp_all

theorem enter_eq_ok_iff : fs.enter p name = .ok q ↔
    fs.entry? p = some .folder ∧ (Utf8.encode name).length ≤ 255 ∧ p.enter name = q := by
  rw [← requireFolder_eq_ok_iff]
  unfold enter
  cases fs.requireFolder p with
  | error e => simp [bind, Except.bind]
  | ok _ =>
    by_cases hlength : (Utf8.encode name).length ≤ 255
    · simp [bind, Except.bind, hlength]
    · simp [bind, Except.bind, hlength]

/-- The places that a path can lead to: those around the working folder, and below them what is in a
folder. -/
inductive Reached (fs : Files) : Place → Prop where
  | surrounding {p : Place} : p.isSurrounding → Reached fs p
  | inside {p : Place} {name : Text} : Reached fs p → fs.entry? p = some .folder → name ≠ stepUp →
      name ≠ root → Reached fs (name :: p)

theorem Reached.up (h : fs.Reached p) (hp : fs.entry? p = some .folder) :
    fs.Reached (p.enter stepUp) ∧ fs.entry? (p.enter stepUp) = some .folder := by
  have hdot : stepUp ≠ ['.'] := by decide
  unfold Place.enter
  rw [if_neg hdot, if_pos rfl]
  cases h with
  | surrounding hs =>
    cases p with
    | nil => exact ⟨.surrounding rfl, fs.entry?_of_surrounding rfl⟩
    | cons inner outer =>
      dsimp only
      split
      · exact ⟨.surrounding hs, hp⟩
      · split
        · have hs' : Place.isSurrounding (stepUp :: inner :: outer) := by
            simpa [Place.isSurrounding] using hs
          exact ⟨.surrounding hs', fs.entry?_of_surrounding hs'⟩
        · next hr hu => simp [Place.isSurrounding, hr, hu] at hs
  | inside hout hfolder hu hr =>
    dsimp only
    rw [if_neg hr, if_neg hu]
    exact ⟨hout, hfolder⟩

theorem Reached.dots (h : fs.Reached p) (hp : fs.entry? p = some .folder)
    (hname : name = ['.'] ∨ name = stepUp) :
    fs.Reached (p.enter name) ∧ fs.entry? (p.enter name) = some .folder := by
  rcases hname with rfl | rfl
  · exact ⟨h, hp⟩
  · exact h.up hp

theorem Reached.enter (h : fs.Reached p) (hp : fs.entry? p = some .folder) (hname : name ≠ root) :
    fs.Reached (p.enter name) := by
  by_cases hdots : name = ['.'] ∨ name = stepUp
  · exact (h.dots hp hdots).1
  · obtain ⟨hdot, hup⟩ := not_or.mp hdots
    unfold Place.enter
    rw [if_neg hdot, if_neg hup]
    exact .inside h hp hup hname

theorem reached_of_foldlM {names : List Text} (h : fs.Reached p)
    (hnames : ∀ name ∈ names, name ≠ root)
    (hq : names.foldlM fs.enter p = .ok q) : fs.Reached q := by
  induction names generalizing p with
  | nil =>
    cases hq
    exact h
  | cons name names ih =>
    obtain ⟨hname, hnames⟩ := List.forall_mem_cons.mp hnames
    rw [List.foldlM_cons] at hq
    obtain ⟨r, hr, hq⟩ := bind_eq_ok hq
    obtain ⟨hp, -, rfl⟩ := enter_eq_ok_iff.mp hr
    exact ih (h.enter hp hname) hnames hq

theorem slash_not_mem_of_mem_pathNames (h : name ∈ pathNames path) : '/' ∉ name := by
  replace h := (List.mem_filter.mp h).1
  induction path generalizing name with
  | nil =>
    rw [List.mem_singleton.mp h]
    exact List.not_mem_nil
  | cons c path ih =>
    rw [List.foldr_cons] at h
    split at h
    · rcases List.mem_cons.mp h with rfl | h
      · exact List.not_mem_nil
      · exact ih h
    · next hc =>
      split at h
      · rw [List.mem_singleton.mp h, List.mem_singleton]
        exact Ne.symm hc
      · next first names hfirst =>
        rw [hfirst] at ih
        rcases List.mem_cons.mp h with rfl | h
        · rw [List.mem_cons, not_or]
          exact ⟨Ne.symm hc, ih List.mem_cons_self⟩
        · exact ih (List.mem_cons_of_mem _ h)

theorem isSurrounding_pathStart (path : Text) : (pathStart path).isSurrounding := by
  unfold pathStart
  split
  · rfl
  · rfl

theorem foldlM_concat_eq_ok_iff {names : List Text} {last : Text} :
    (names ++ [last]).foldlM fs.enter p = .ok q ↔
      ∃ folder, names.foldlM fs.enter p = .ok folder ∧ fs.enter folder last = .ok q := by
  simp only [List.foldlM_append, List.foldlM_cons, List.foldlM_nil, bind_pure]
  cases names.foldlM fs.enter p with
  | error e => simp [bind, Except.bind]
  | ok folder => simp [bind, Except.bind]

theorem Names.of_file (h : fs.Names path p) (hp : fs.entry? p = some (.file content)) :
    ∃ names last folder, pathNames path = names ++ [last] ∧ last ≠ ['.'] ∧ last ≠ stepUp ∧
      names.foldlM fs.enter (pathStart path) = .ok folder ∧ fs.enter folder last = .ok p := by
  have hwalk := h.reached
  have hroot : ∀ name ∈ pathNames path, name ≠ root := by
    rintro name hname rfl
    exact slash_not_mem_of_mem_pathNames hname (by decide)
  rcases List.eq_nil_or_concat' (pathNames path) with hnil | ⟨names, last, hnames⟩
  · -- a path without names stays where it starts, in a folder
    rw [hnil] at hwalk
    cases hwalk
    rw [fs.entry?_of_surrounding (isSurrounding_pathStart path)] at hp
    cases hp
  · rw [hnames] at hwalk hroot
    obtain ⟨folder, hfolder, hlast⟩ := foldlM_concat_eq_ok_iff.mp hwalk
    have hreached : fs.Reached folder :=
      reached_of_foldlM (.surrounding (isSurrounding_pathStart path))
        (fun name hname => hroot name (List.mem_append_left _ hname)) hfolder
    have hdots : ¬ (last = ['.'] ∨ last = stepUp) := by
      intro hdots
      obtain ⟨hdir, -, rfl⟩ := enter_eq_ok_iff.mp hlast
      rw [(hreached.dots hdir hdots).2] at hp
      cases hp
    obtain ⟨hdot, hup⟩ := not_or.mp hdots
    exact ⟨names, last, folder, hnames, hdot, hup, hfolder, hlast⟩

end Walks

section Opening

theorem openInput_eq_ok (h : fs.openInput path = .ok p) :
    fs.entry? p = some .folder ∨ fs.Names path p ∧ ∃ content,
      fs.entry? p = some (.file content) := by
  obtain ⟨_, hcheck, h⟩ := bind_eq_ok h
  obtain ⟨place, hwalk, h⟩ := bind_eq_ok h
  split at h
  · cases h
  · next hfolder =>
    cases h
    exact .inl hfolder
  · next content hfile =>
    split at h
    · cases h
    · next hslash =>
      cases h
      exact .inr ⟨⟨hcheck, hwalk, by simpa using hslash⟩, content, hfile⟩

theorem openInput_of_file (h : fs.Names path p) (hp : fs.entry? p = some (.file content)) :
    fs.openInput path = .ok p := by
  unfold openInput
  rw [h.checked, h.reached]
  simp [bind, Except.bind, hp, h.unslashed]

theorem createOutput_eq_ok {made : Files} (h : fs.createOutput path = .ok (made, p)) :
    fs.Names path p ∧ fs.entry? p ≠ some .folder ∧ made = fs.put p [] := by
  obtain ⟨_, hcheck, h⟩ := bind_eq_ok h
  split at h
  · cases h
  · next last hlast =>
    obtain ⟨folder, hfolder, h⟩ := bind_eq_ok h
    obtain ⟨_, -, h⟩ := bind_eq_ok h
    split at h
    · cases h
    · next hdots =>
      -- the last name is entered like the names before it, so the whole path has been walked
      obtain ⟨place, henter, h⟩ := bind_eq_ok h
      split at h
      · cases h
      · next hplace =>
        cases h
        simp only [Bool.or_eq_true, decide_eq_true_eq, not_or] at hdots
        refine ⟨⟨hcheck, ?_, by simpa using hdots.2⟩, hplace, rfl⟩
        rw [← List.dropLast_append_getLast? _ hlast]
        exact foldlM_concat_eq_ok_iff.mpr ⟨folder, hfolder, henter⟩

theorem createOutput_of_file (h : fs.Names path p) (hp : fs.entry? p = some (.file content)) :
    fs.createOutput path = .ok (fs.put p [], p) := by
  obtain ⟨names, last, folder, hnames, hdot, hup, hfolder, henter⟩ := h.of_file hp
  obtain ⟨hdir, -, -⟩ := enter_eq_ok_iff.mp henter
  unfold createOutput
  rw [hnames, h.checked, List.getLast?_concat, List.dropLast_concat]
  simp [bind, Except.bind, hfolder, requireFolder_eq_ok_iff.mpr hdir, hdot, hup,
    h.unslashed, henter, hp]

end Opening

end Files

section Runs

variable {config : Config} {fs fs' : Files} {input output : Text} {p q : Place}

theorem Source.splitLines_flatten_lines (s : Source) : splitLines s.lines.flatten = s.lines := by
  unfold lines
  split
  · rw [flatten_splitLines]
  · have h := filter_splitLines s.bytes []
    rw [List.append_nil] at h
    rw [h, splitLines_flatten_take]

theorem Sink.written_of_write {sink sink' : Sink} {bytes : Bytes}
    (h : sink.write bytes = (sink', none)) :
    sink'.written.toList = sink.written.toList ++ bytes := by
  unfold write at h
  split at h
  · cases h
    simp
  · dsimp only at h
    split at h
    · next hroom =>
      cases h
      simp [List.take_of_length_le hroom]
    · cases h

theorem run_cases {source : Source} {sink sink' : Sink} {result : Except RunError Summary}
    (h : run config source sink = (result, sink')) :
    (∃ e, result = .error (.write e)) ∨
    (∃ e, source.fault = some e ∧ result = .error (.read (source.lines.length + 1) e) ∧
      sink'.written.toList =
        sink.written.toList ++ (completeRun config source.lines.flatten).2.written.toList) ∨
    source.fault = none ∧ ∃ summary, result = .ok summary := by
  rw [run_eq] at h
  split at h
  · next e _ =>
    cases h
    exact .inl ⟨e, rfl⟩
  · next written hwrite =>
    cases hfault : source.fault with
    | some e =>
      rw [hfault] at h
      cases h
      refine .inr (.inl ⟨e, rfl, rfl, ?_⟩)
      rw [Sink.written_of_write hwrite, completeRun_eq, Source.splitLines_flatten_lines]
    | none =>
      rw [hfault] at h
      unfold endRun at h
      cases hflush : written.flushFault with
      | some e =>
        rw [hflush] at h
        cases h
        exact .inl ⟨e, rfl⟩
      | none =>
        rw [hflush] at h
        cases h
        exact .inr (.inr ⟨rfl, _, rfl⟩)

/-- What a run between files comes to: one of the two cannot be opened and nothing is done, or the
output is made and then written over with what the run writes. -/
theorem runFilesOn_cases (device : Device) (config : Config) (fs : Files) (input output : Text) :
    (∃ e, runFilesOn device config fs input output = (.error (.openInput input e), fs)) ∨
    (∃ e, runFilesOn device config fs input output = (.error (.createOutput output e), fs)) ∨
    ∃ p q result sink, fs.openInput input = .ok p ∧ fs.createOutput output = .ok (fs.put q [], q) ∧
      fs.Names output q ∧ fs.entry? q ≠ some .folder ∧
      run config (device.read (fs.put q []) p) device.sink = (result, sink) ∧
      runFilesOn device config fs input output =
        (result, (fs.put q []).put q sink.written.toList) := by
  unfold runFilesOn
  cases hopen : fs.openInput input with
  | error e => exact .inl ⟨e, rfl⟩
  | ok p =>
    cases hcreate : fs.createOutput output with
    | error e => exact .inr (.inl ⟨e, rfl⟩)
    | ok made =>
      obtain ⟨fs', q⟩ := made
      obtain ⟨hnames, hfolder, rfl⟩ := Files.createOutput_eq_ok hcreate
      exact .inr (.inr ⟨p, q, _, _, rfl, rfl, hnames, hfolder, rfl, rfl⟩)

theorem runFilesOn_frame {device : Device} {result : Except RunError Summary}
    (h : runFilesOn device config fs input output = (result, fs')) :
    (∀ path e, result = .error (.openInput path e) ∨
      result = .error (.createOutput path e) → fs' = fs) ∧
      ∀ p, ¬ fs.Names output p → fs'.entry? p = fs.entry? p := by
  obtain ⟨e, he⟩ | ⟨e, he⟩ | ⟨p, q, result', sink, -, -, hnames, -, hrun, hresult⟩ :=
    runFilesOn_cases device config fs input output
  · cases he.symm.trans h
    exact ⟨fun _ _ _ => rfl, fun _ _ => rfl⟩
  · cases he.symm.trans h
    exact ⟨fun _ _ _ => rfl, fun _ _ => rfl⟩
  · cases hresult.symm.trans h
    constructor
    · intro path e he
      obtain ⟨_, rfl⟩ | ⟨_, _, rfl, _⟩ | ⟨_, _, rfl⟩ := run_cases hrun
      · simp at he
      · simp at he
      · simp at he
    · intro r hr
      have hne : r ≠ q := by
        rintro rfl
        exact hr hnames
      rw [Files.entry?_put_of_ne _ hne, fs.entry?_put_of_ne hne]

theorem runFilesOn_eq_read {device : Device} {n : Nat} {e : SystemError}
    (h : runFilesOn device config fs input output = (.error (.read n e), fs')) :
    ∃ p q source, fs.openInput input = .ok p ∧ fs.Names output q ∧
      source = device.read (fs.put q []) p ∧ source.fault = some e ∧ n = source.lines.length + 1 ∧
      fs'.entry? q = some (.file (completeRun config source.lines.flatten).2.written.toList) := by
  obtain ⟨e', he⟩ | ⟨e', he⟩ | ⟨p, q, result, sink, hin, -, hnames, hq, hrun, hresult⟩ :=
    runFilesOn_cases device config fs input output
  · cases he.symm.trans h
  · cases he.symm.trans h
  · cases hresult.symm.trans h
    obtain ⟨_, he⟩ | ⟨_, hfault, he, hwritten⟩ | ⟨_, _, he⟩ := run_cases hrun
    · cases he
    · cases he
      refine ⟨p, q, _, hin, hnames, rfl, hfault, rfl, ?_⟩
      rw [Files.entry?_put_put hq, hwritten]
      rfl
    · cases he

theorem runFiles_eq {content : Bytes} (config : Config) (hin : fs.openInput input = .ok p)
    (hout : fs.createOutput output = .ok (fs.put q [], q))
    (hread : Files.entry? (fs.put q []) p = some (.file content)) :
    runFiles config fs input output = ((completeRun config content).1,
      (fs.put q []).put q (completeRun config content).2.written.toList) := by
  have hsource : (fs.put q []).source p = ⟨content, none⟩ := by
    unfold Files.source
    rw [hread]
  unfold runFiles
  rw [hin]
  simp only [hout, hsource]
  rfl

theorem runFiles_eq_ok {summary : Summary}
    (h : runFiles config fs input output = (.ok summary, fs')) :
    ∃ p q content, fs.Names input p ∧ fs.Names output q ∧ fs.entry? p = some (.file content) ∧
      fs.createOutput output = .ok (fs.put q [], q) ∧
      (p ≠ q → ∃ out, completeRun config content = (.ok summary, { written := out }) ∧
        fs'.entry? q = some (.file out.toList)) := by
  obtain ⟨e, he⟩ | ⟨e, he⟩ | ⟨p, q, result, sink, hin, hout, hnames, hq, hrun, hresult⟩ :=
    runFilesOn_cases {} config fs input output
  · cases he.symm.trans h
  · cases he.symm.trans h
  · rcases Files.openInput_eq_ok hin with hfolder | ⟨hnamed, content, hfile⟩
    · -- a folder can be opened, but the run would have failed to read it
      cases hresult.symm.trans h
      have hne : p ≠ q := by
        rintro rfl
        exact hq hfolder
      have hsource : (fs.put q []).source p = ⟨[], some .isDirectory⟩ := by
        unfold Files.source
        rw [fs.entry?_put_of_ne hne, hfolder]
      have hrun : run config ((fs.put q []).source p) {} = _ := hrun
      rw [hsource] at hrun
      obtain ⟨_, he⟩ | ⟨_, _, he, _⟩ | ⟨hfault, _⟩ := run_cases hrun
      · cases he
      · cases he
      · cases hfault
    · refine ⟨p, q, content, hnamed, hnames, hfile, hout, ?_⟩
      intro hne
      have hread : Files.entry? (fs.put q []) p = some (.file content) := by
        rw [fs.entry?_put_of_ne hne, hfile]
      rw [runFiles_eq config hin hout hread, completeRun_eq] at h
      cases h
      exact ⟨_, completeRun_eq config content, Files.entry?_put_put hq _ _⟩

theorem runFiles_of_file {content : Bytes} {made : Files × Place} (config : Config)
    (hin : fs.Names input p) (hp : fs.entry? p = some (.file content))
    (hout : fs.createOutput output = .ok made) :
    ∃ summary fs', runFiles config fs input output = (.ok summary, fs') := by
  obtain ⟨fs₁, q⟩ := made
  obtain ⟨-, hq, rfl⟩ := Files.createOutput_eq_ok hout
  have hread : ∃ content', Files.entry? (fs.put q []) p = some (.file content') := by
    by_cases hpq : p = q
    · rw [hpq]
      exact ⟨[], Files.entry?_put_self hq []⟩
    · exact ⟨content, by rw [fs.entry?_put_of_ne hpq, hp]⟩
  obtain ⟨content', hread⟩ := hread
  rw [runFiles_eq config (Files.openInput_of_file hin hp) hout hread, completeRun_eq]
  exact ⟨_, _, rfl⟩

theorem runFiles_same {content : Bytes} (config : Config) (hin : fs.Names input p)
    (hout : fs.Names output p) (hp : fs.entry? p = some (.file content)) :
    ∃ fs', runFiles config fs input output = (.ok ⟨0, 0, 0⟩, fs') ∧
      fs'.entry? p = some (.file []) := by
  have hq : fs.entry? p ≠ some .folder := by
    rw [hp]
    simp
  refine ⟨_, runFiles_eq config (Files.openInput_of_file hin hp)
    (Files.createOutput_of_file hout hp)
    (Files.entry?_put_self hq []), ?_⟩
  rw [Files.entry?_put_put hq]
  rfl

theorem Ending.exitCode_ofRefusal (r : CommandLine.Refusal) :
    (ofRefusal r).exitCode = 0 ↔ r = .help ∨ r = .version := by
  unfold ofRefusal
  split <;> simp_all [CommandLine.Refusal.exitCode]

theorem Ending.exitCode_ofResult (result : Except RunError Summary) :
    ((ofResult result).exitCode = 0 ↔ ∃ summary, result = .ok summary) ∧
      ((ofResult result).exitCode = 1 ↔ ∃ e, result = .error e) := by
  cases result with
  | ok summary => simp [ofResult]
  | error e => simp [ofResult]

end Runs

/-- What the program does to files. A run that cannot open its input or make its output
leaves all as it was, and any other run changes only the file that its output names: that
file holds the report on the input, or on the lines that were read before a fault, or
nothing when it is the input itself. The exit code tells whether the run ended well, and
without a run no file changes. -/
theorem program_footprint (fs : Files) :
    (∀ device config input output result fs',
      runFilesOn device config fs input output = (result, fs') →
      (∀ path e, result = .error (.openInput path e) ∨
        result = .error (.createOutput path e) → fs' = fs) ∧
      (∀ p, ¬ fs.Names output p → fs'.entry? p = fs.entry? p) ∧
      ∀ n e, result = .error (.read n e) → ∃ p q source, fs.openInput input = .ok p ∧
        fs.Names output q ∧
        source = device.read (fs.put q []) p ∧ source.fault = some e ∧ n = source.lines.length + 1 ∧
        fs'.entry? q = some (.file (completeRun config source.lines.flatten).2.written.toList)) ∧
    (∀ config input output,
      runFiles config fs input output = runFilesOn {} config fs input output ∧
      (∀ summary fs', runFiles config fs input output = (.ok summary, fs') →
        ∃ p q content, fs.Names input p ∧ fs.Names output q ∧ fs.entry? p = some (.file content) ∧
          fs.createOutput output = .ok (fs.put q [], q) ∧
          (p ≠ q → ∃ out, completeRun config content = (.ok summary, { written := out }) ∧
            fs'.entry? q = some (.file out.toList))) ∧
      (∀ p content made, fs.Names input p → fs.entry? p = some (.file content) →
        fs.createOutput output = .ok made →
        ∃ summary fs', runFiles config fs input output = (.ok summary, fs')) ∧
      ∀ p content, fs.Names input p → fs.Names output p → fs.entry? p = some (.file content) →
        ∃ fs', runFiles config fs input output = (.ok ⟨0, 0, 0⟩, fs') ∧
          fs'.entry? p = some (.file [])) ∧
    ∀ words depthVariable ending fs', program words depthVariable fs = (ending, fs') →
      (∀ r, CommandLine.parse words = .error r →
        fs' = fs ∧ (ending.exitCode = 0 ↔ r = .help ∨ r = .version)) ∧
      ∀ options, CommandLine.parse words = .ok options →
        ∃ result, runFiles (options.config depthVariable) fs options.input options.output =
          (result, fs') ∧
          (ending.exitCode = 0 ↔ ∃ summary, result = .ok summary) ∧
          (ending.exitCode = 1 ↔ ∃ e, result = .error e) := by
  refine ⟨?_, ?_, ?_⟩
  · intro device config input output result fs' h
    obtain ⟨hopen, hframe⟩ := runFilesOn_frame h
    refine ⟨hopen, hframe, ?_⟩
    rintro n e rfl
    exact runFilesOn_eq_read h
  · intro config input output
    refine ⟨?_, fun summary fs' h => runFiles_eq_ok h,
      fun p content made => runFiles_of_file config, fun p content => runFiles_same config⟩
    rw [runFilesOn_default]
  · intro words depthVariable ending fs' h
    unfold program at h
    constructor
    · intro r hr
      rw [hr] at h
      cases h
      exact ⟨rfl, Ending.exitCode_ofRefusal r⟩
    · intro options hoptions
      rw [hoptions] at h
      cases h
      exact ⟨_, rfl, Ending.exitCode_ofResult _⟩

/-- A report takes the place of a file, an input breaks off in its second line, and a file is read
and made anew under two names. -/
theorem program_footprint_two_files :
    ∃ fs : Files, fs.entry? [['a']] = some (.file [0x31, 0x3B]) ∧
      fs.entry? [['b']] = some (.file [0x78]) ∧
      (∃ out fs', runFiles {} fs ['a'] ['b'] = (.ok ⟨1, 0, 0⟩, fs') ∧
        completeRun {} [0x31, 0x3B] = (.ok ⟨1, 0, 0⟩, { written := out }) ∧
        fs'.entry? [['b']] = some (.file out.toList)) ∧
      (∃ fs', runFilesOn { read := fun _ _ => ⟨[0x31, 0x3B, 10, 0x32], some .noEntry⟩ } {} fs
          ['a'] ['b'] = (.error (.read 2 .noEntry), fs') ∧
        fs'.entry? [['a']] = some (.file [0x31, 0x3B]) ∧
        fs'.entry? [['b']] = some (.file (completeRun {} [0x31, 0x3B, 10]).2.written.toList)) ∧
      (∃ fs', runFiles {} fs ['a'] ['.', '/', 'a'] = (.ok ⟨0, 0, 0⟩, fs') ∧
        fs'.entry? [['a']] = some (.file [])) ∧
      (program ["--help".toList] none fs).2 = fs := by
  let fs : Files := ⟨[([['a']], .file [0x31, 0x3B]), ([['b']], .file [0x78])]⟩
  have ha : fs.entry? [['a']] = some (.file [0x31, 0x3B]) := by decide +kernel
  have hwalk : (pathNames ['b']).foldlM fs.enter (pathStart ['b']) = .ok [['b']] := by
    decide +kernel
  obtain ⟨hrun, hfiles, hprogram⟩ := program_footprint fs
  refine ⟨fs, ha, by decide +kernel, ?_, ?_, ?_, ?_⟩
  · have hnamed : fs.Names ['a'] [['a']] :=
      ⟨by decide +kernel, by decide +kernel, by decide +kernel⟩
    have hok : (runFiles {} fs ['a'] ['b']).1 = .ok ⟨1, 0, 0⟩ := by decide +kernel
    obtain ⟨p, q, content, hp, hq, hfile, -, hreport⟩ :=
      (hfiles {} ['a'] ['b']).2.1 ⟨1, 0, 0⟩ _ (Prod.ext hok rfl)
    cases hnamed.reached.symm.trans hp.reached
    cases hwalk.symm.trans hq.reached
    cases ha.symm.trans hfile
    obtain ⟨out, hcomplete, hout⟩ := hreport (by decide)
    exact ⟨out, _, Prod.ext hok rfl, hcomplete, hout⟩
  · have hfails :
        (runFilesOn { read := fun _ _ => ⟨[0x31, 0x3B, 10, 0x32], some .noEntry⟩ } {} fs ['a']
        ['b']).1 = .error (.read 2 .noEntry) := by decide +kernel
    obtain ⟨-, hframe, hread⟩ :=
      hrun { read := fun _ _ => ⟨[0x31, 0x3B, 10, 0x32], some .noEntry⟩ } {} ['a'] ['b'] _ _ rfl
    obtain ⟨p, q, _, -, hq, rfl, -, -, hfile⟩ := hread 2 .noEntry hfails
    cases hwalk.symm.trans hq.reached
    refine ⟨_, Prod.ext hfails rfl, (hframe [['a']] ?_).trans ha, hfile⟩
    intro hnamed
    cases hwalk.symm.trans hnamed.reached
  · exact (hfiles {} ['a'] ['.', '/', 'a']).2.2.2 [['a']] [0x31, 0x3B]
      ⟨by decide +kernel, by decide +kernel, by decide +kernel⟩
      ⟨by decide +kernel, by decide +kernel, by decide +kernel⟩ ha
  · exact ((hprogram ["--help".toList] none _ _ rfl).1 .help (by decide +kernel)).1

end Reckon
