import Reckon.Proofs.Report

set_option autoImplicit false

namespace Reckon

def Source.reading (bytes : Bytes) : Option (Nat × SystemError) → Source
  | none => ⟨bytes, none⟩
  | some (limit, e) => .broken bytes limit e

def readableLines (bytes : Bytes) : Option Nat → List Bytes
  | none => splitLines bytes
  | some limit => (splitLines bytes).take ((bytes.take limit).count newline)

section Lines

variable {line rest : Bytes}

theorem getLast?_ne_newline (h : newline ∉ line) : (line.getLast? == some newline) = false := by
  rw [beq_eq_false_iff_ne]
  exact fun hl => h (List.mem_of_getLast? hl)

theorem filter_splitLines (a b : Bytes) :
    (splitLines a).filter (fun line => line.getLast? == some newline) =
      (splitLines (a ++ b)).take (a.count newline) := by
  induction a using lines_induction with
  | nil => simp [splitLines]
  | last line hn hl =>
    rw [splitLines_last hn hl, List.count_eq_zero_of_not_mem hl, List.filter_singleton,
      getLast?_ne_newline hl, List.take_zero]
    rfl
  | cons line rest hl ih =>
    have hcount : (line ++ newline :: rest).count newline = rest.count newline + 1 := by
      rw [List.count_append, List.count_eq_zero_of_not_mem hl, List.count_cons_self, Nat.zero_add]
    rw [List.append_assoc, List.cons_append, splitLines_newline hl, splitLines_newline hl, hcount,
      List.take_succ_cons, List.filter_cons_of_pos (by simp), ih]

theorem Source.lines_reading (bytes : Bytes) (limit : Option (Nat × SystemError)) :
    (Source.reading bytes limit).lines = readableLines bytes (limit.map Prod.fst) := by
  cases limit with
  | none => rfl
  | some limit =>
    obtain ⟨limit, e⟩ := limit
    have h := filter_splitLines (bytes.take limit) (bytes.drop limit)
    rw [List.take_append_drop] at h
    exact h

theorem splitLines_flatten_take (bytes : Bytes) (n : Nat) :
    splitLines ((splitLines bytes).take n).flatten = (splitLines bytes).take n := by
  induction bytes using lines_induction generalizing n with
  | nil => simp [splitLines]
  | last line hn hl =>
    cases n with
    | zero => rfl
    | succ n => simp [splitLines_last hn hl]
  | cons line rest hl ih =>
    cases n with
    | zero => rfl
    | succ n =>
      rw [splitLines_newline hl, List.take_succ_cons, List.flatten_cons, List.append_assoc,
        List.singleton_append, splitLines_newline hl, ih]

theorem splitLines_flatten_readable (bytes : Bytes) (limit : Option Nat) :
    splitLines (readableLines bytes limit).flatten = readableLines bytes limit := by
  cases limit with
  | none => rw [readableLines, flatten_splitLines]
  | some limit => exact splitLines_flatten_take _ _

end Lines

def Source.readLine (s : Source) : Except SystemError (Option (Bytes × Source)) :=
  match s.bytes.dropWhile (· != newline), s.fault with
  | _ :: rest, fault => .ok (some (s.bytes.takeWhile (· != newline) ++ [newline], ⟨rest, fault⟩))
  | [], some e => .error e
  | [], none => .ok (if s.bytes.isEmpty then none else some (s.bytes, ⟨[], none⟩))

theorem Source.length_readLine {s s' : Source} {line : Bytes}
    (h : s.readLine = .ok (some (line, s'))) :
    s'.bytes.length < s.bytes.length := by
  have hle := (List.dropWhile_suffix (l := s.bytes) (· != newline)).length_le
  unfold readLine at h
  split at h
  · next hd =>
    simp only [Except.ok.injEq, Option.some.injEq, Prod.mk.injEq] at h
    obtain ⟨-, rfl⟩ := h
    simp only [hd, List.length_cons] at hle ⊢
    omega
  · cases h
  · split at h
    · simp at h
    · next hb =>
      simp only [Except.ok.injEq, Option.some.injEq, Prod.mk.injEq] at h
      obtain ⟨-, rfl⟩ := h
      exact List.length_pos_iff.mpr (by simpa using hb)

/-- The run that reads each line when the one before it has been reported. -/
def runReading (config : Config) (source : Source) (summary : Summary) (sink : Sink) :
    Except RunError Summary × Sink :=
  match _ : source.readLine with
  | .error e => (.error (.read (summary.lines + 1) e), sink)
  | .ok none =>
    match sink.flushFault with
    | some e => (.error (.write e), sink)
    | none => (.ok summary, sink)
  | .ok (some (line, rest)) =>
    match runLines config [line] summary sink with
    | (.error e, sink) => (.error e, sink)
    | (.ok summary, sink) => runReading config rest summary sink
termination_by source.bytes.length
decreasing_by
  rename_i h
  exact Source.length_readLine h

section Reading

variable {line rest : Bytes} {fault : Option SystemError}

theorem runReading_of_line {config : Config} {source source' : Source} {summary : Summary}
    {sink : Sink} (h : source.readLine = .ok (some (line, source'))) :
    runReading config source summary sink =
      match runLines config [line] summary sink with
      | (.error e, sink) => (.error e, sink)
      | (.ok summary, sink) => runReading config source' summary sink := by
  rw [runReading]
  split
  · next hr => cases h.symm.trans hr
  · next hr => cases h.symm.trans hr
  · next hr =>
    cases h.symm.trans hr
    rfl

theorem runReading_of_fault {config : Config} {source : Source} {summary : Summary} {sink : Sink}
    {e : SystemError} (h : source.readLine = .error e) :
    runReading config source summary sink = endRun (some e) summary sink := by
  rw [runReading]
  split
  · next hr =>
    cases h.symm.trans hr
    rfl
  · next hr => cases h.symm.trans hr
  · next hr => cases h.symm.trans hr

theorem runReading_of_end {config : Config} {source : Source} {summary : Summary} {sink : Sink}
    (h : source.readLine = .ok none) :
    runReading config source summary sink = endRun none summary sink := by
  rw [runReading]
  split
  · next hr => cases h.symm.trans hr
  · unfold endRun
    cases sink.flushFault <;> rfl
  · next hr => cases h.symm.trans hr

theorem bne_newline (h : newline ∉ line) : ∀ b ∈ line, (b != newline) = true := by
  intro b hb
  rw [bne_iff_ne]
  rintro rfl
  exact h hb

theorem Source.readLine_newline (h : newline ∉ line) :
    (⟨line ++ newline :: rest, fault⟩ : Source).readLine =
      .ok (some (line ++ [newline], ⟨rest, fault⟩)) := by
  unfold readLine
  simp [List.dropWhile_append_of_pos (bne_newline h), List.takeWhile_append_of_pos (bne_newline h)]

theorem Source.readLine_unended (h : newline ∉ line) :
    (⟨line, fault⟩ : Source).readLine =
      match fault with
      | some e => .error e
      | none => .ok (if line.isEmpty then none else some (line, ⟨[], none⟩)) := by
  have hdrop : line.dropWhile (· != newline) = [] := List.dropWhile_eq_nil_iff.mpr (bne_newline h)
  unfold readLine
  simp only [hdrop]
  cases fault <;> rfl

theorem Source.lines_newline (h : newline ∉ line) :
    (⟨line ++ newline :: rest, fault⟩ : Source).lines =
      (line ++ [newline]) :: (⟨rest, fault⟩ : Source).lines := by
  cases fault with
  | none => exact splitLines_newline h rest
  | some e =>
    rw [lines, splitLines_newline h, List.filter_cons_of_pos (by simp)]
    rfl

theorem runLines_cons (config : Config) (line : Bytes) (lines : List Bytes) (summary : Summary)
    (sink : Sink) :
    runLines config (line :: lines) summary sink =
      match runLines config [line] summary sink with
      | (.error e, sink) => (.error e, sink)
      | (.ok summary, sink) => runLines config lines summary sink := by
  rw [runLines_eq, runLines_eq, List.flatMap_cons, Sink.write_append, List.flatMap_singleton]
  rcases sink.write (block config line) with ⟨sink, _ | e⟩
  · have hsum : summary + .ofLines config (line :: lines) =
        summary + .ofLines config [line] + .ofLines config lines := by
      rw [Summary.add_ofLines_cons, Summary.add_ofLines_cons]
      simp [Summary.ofLines, Summary.add_def]
    dsimp only
    rw [runLines_eq, hsum]
  · rfl

theorem runReading_eq (config : Config) (bytes : Bytes) (fault : Option SystemError)
    (summary : Summary) (sink : Sink) :
    runReading config ⟨bytes, fault⟩ summary sink =
      match runLines config (⟨bytes, fault⟩ : Source).lines summary sink with
      | (.error e, sink) => (.error e, sink)
      | (.ok summary, sink) => endRun fault summary sink := by
  induction bytes using lines_induction generalizing summary sink with
  | nil =>
    have hr := @Source.readLine_unended [] fault List.not_mem_nil
    cases fault with
    | none => exact runReading_of_end hr
    | some e => exact runReading_of_fault hr
  | last line hn hl =>
    have hr := @Source.readLine_unended line fault hl
    cases fault with
    | none =>
      have he : (⟨[], none⟩ : Source).readLine = .ok none := rfl
      rw [if_neg (by simpa using hn)] at hr
      rw [runReading_of_line hr, Source.lines, splitLines_last hn hl]
      rcases runLines config [line] summary sink with ⟨e | summary, sink⟩
      · rfl
      · exact runReading_of_end he
    | some e =>
      have hlines : (⟨line, some e⟩ : Source).lines = [] := by
        simp [Source.lines, splitLines_last hn hl, getLast?_ne_newline hl]
      rw [runReading_of_fault hr, hlines]
      rfl
  | cons line rest hl ih =>
    rw [runReading_of_line (Source.readLine_newline hl), Source.lines_newline hl,
      runLines_cons config (line ++ [newline]) (⟨rest, fault⟩ : Source).lines]
    rcases runLines config [line ++ [newline]] summary sink with ⟨e | summary, sink⟩
    · rfl
    · exact ih summary sink

end Reading

theorem Sink.write_new (limit : Option (Nat × SystemError)) (flushFault : Option SystemError)
    (bytes : Bytes) :
    ({ limit := limit, flushFault := flushFault } : Sink).write bytes =
      ({ written := (limit.elim bytes (fun l => bytes.take l.1)).toArray, limit := limit,
         flushFault := flushFault },
        (limit.filter (fun l => l.1 < bytes.length)).map Prod.snd) := by
  cases limit with
  | none => simp [write]
  | some limit =>
    obtain ⟨size, e⟩ := limit
    by_cases h : bytes.length ≤ size
    · simp [write, h, Option.filter]
    · simp [write, h, Option.filter, Nat.lt_of_not_le h]

/-- The result of a run with a report of `size` bytes on the lines that it could read: an output
that is too small fails first, then an input that breaks off, then the flush. -/
def interrupted (readLimit writeLimit : Option (Nat × SystemError))
    (flushFault : Option SystemError) (size : Nat) (summary : Summary) : Except RunError Summary :=
  match writeLimit.filter (fun l => l.1 < size), readLimit, flushFault with
  | some (_, e), _, _ => .error (.write e)
  | none, some (_, e), _ => .error (.read (summary.lines + 1) e)
  | none, none, some e => .error (.write e)
  | none, none, none => .ok summary

/-- A run that may be interrupted writes as much of the report on the lines it can read as the
output takes; and so does the run that reads line by line. -/
theorem run_interrupted (config : Config) (bytes : Bytes)
    (readLimit writeLimit : Option (Nat × SystemError)) (flushFault : Option SystemError) :
    ∃ (summary : Summary) (report : Bytes),
      completeRun config (readableLines bytes (readLimit.map Prod.fst)).flatten =
        (.ok summary, { written := report.toArray }) ∧
      summary.lines = (readableLines bytes (readLimit.map Prod.fst)).length ∧
      run config (.reading bytes readLimit) { limit := writeLimit, flushFault := flushFault } =
        (interrupted readLimit writeLimit flushFault report.length summary,
          { written := (writeLimit.elim report (fun l => report.take l.1)).toArray,
            limit := writeLimit, flushFault := flushFault }) ∧
      runReading config (.reading bytes readLimit) {}
        { limit := writeLimit, flushFault := flushFault } =
        run config (.reading bytes readLimit)
          { limit := writeLimit, flushFault := flushFault } := by
  refine ⟨_, _, completeRun_eq config _, ?_, ?_, runReading_eq config _ _ _ _⟩
  · rw [splitLines_flatten_readable]
    rfl
  · rw [run_eq, Source.lines_reading, Sink.write_new, splitLines_flatten_readable]
    generalize (readableLines bytes (readLimit.map Prod.fst)).flatMap (block config) = report
    have hfault : (Source.reading bytes readLimit).fault = readLimit.map Prod.snd := by
      cases readLimit <;> rfl
    rw [hfault]
    unfold interrupted
    cases writeLimit.filter (fun l => l.1 < report.length) with
    | some l => rfl
    | none =>
      cases readLimit with
      | some l => rfl
      | none => cases flushFault <;> rfl

end Reckon
