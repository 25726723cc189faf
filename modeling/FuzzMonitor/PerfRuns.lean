import FuzzMonitor.ApiResult
import FuzzMonitor.RustStart

namespace FuzzMonitor.RustMonitor
open CStrings Perf PerfTool Trace2

def perfArgs (sut : List CText) : List CText := "./perf/perf".toList :: "x".toList :: sut

/-- What the two processes of the tool write to the pipe when they fail: LOG_M writes a message and
its newline one after the other. -/
def failureWrites : List CText :=
  ["failed reading input".toList, "failed perf monitoring".toList, "\n".toList]

/-- What the forked child leaves in the pipe: its standard output is on /dev/null, unless it gives
up before that because it cannot open its input. -/
def childOutput (argv : List CText) (stdin : Option (List (List UInt8))) (env : ApiEnv)
    (stale : List BtsBranch) : CText :=
  if env.child.inputFd = -1 then (mainMachine argv stdin { env with fork := 0 } stale).output
  else []

/-- What trace2 reads from the pipe. A parent that succeeds has waited for its child before it
prints, and the child has written its line or was killed before; the lines of a parent that fails
may be mixed with those of its child. -/
def PipeHolds (argv : List CText) (stdin : Option (List (List UInt8))) (env : ApiEnv)
    (stale : List BtsBranch) (out : CText) : Prop :=
  if (mainMachine argv stdin env stale).exit = some 0 then
    ∃ left, (left = [] ∨ left = childOutput argv stdin env stale) ∧
      out = left ++ (mainMachine argv stdin env stale).output
  else ∃ writes, writes ⊆ failureWrites ∧ out = writes.flatten

/-- A turn of start with the tool CPerf, and the run of the tool in it: what its pipe delivers of
the message, and what the system calls of its two processes return, as the parent has them. -/
structure PerfRun (sut : List CText) where
  command : sut ≠ []
  turn : Turn
  stdin : Option (List (List UInt8))
  delivered : ∀ pieces ∈ stdin, pieces.flatten <+: turn.bytes
  env : ApiEnv
  stale : List BtsBranch
  parent : env.fork ≠ 0
  muted : env.child.inputFd = -1 ∨ env.child.nullFd ≠ -1
  ended : turn.ran = true → (mainMachine (perfArgs sut) stdin env stale).exit ≠ none
  pipe : turn.ran = true → PipeHolds (perfArgs sut) stdin env stale turn.out

variable {sut : List CText}

def PerfRun.machine (r : PerfRun sut) : MachineRun :=
  mainMachine (perfArgs sut) r.stdin r.env r.stale

def PerfRun.succeeded (r : PerfRun sut) : Bool := r.machine.exit = some 0

def PerfRun.kept (secStart secEnd : UInt64) (r : PerfRun sut) : List BtsBranch :=
  if r.succeeded then
    ((r.env.parent.aux.filter fun br => !leftOut br).map fun br => ⟨br.from, br.to, 0⟩).filter
      (retains secStart secEnd)
  else []

theorem perfMonitorApi_outs {data : List UInt8} {argv : List CText} {env : ApiEnv} {g : GblStatus}
    {ret : ℤ} (hparent : env.fork ≠ 0) (h : (perfMonitorApi data argv true env g).1 = some ret)
    (hret : ret ≠ perfFailure) : (perfMonitorApi data argv true env g).2.outs.isSome = true := by
  have hstart := fork_notMem_started data env g 0
  rw [perfMonitorApi_eq] at h ⊢
  split_ifs at h ⊢
  · unfold apiFork at h ⊢
    dsimp only at h ⊢
    split_ifs at h ⊢ with hneg hpos
    · exact absurd (Option.some.inj h).symm hret
    · have htrust := apiParent_trustworthy env
        { (started data env g).did (.fork env.fork) with
          gbl := { (started data env g).gbl with childPid := env.fork } }
        (by simpa [hstart] using hpos.ne)
      exact Option.isSome_iff_exists.mpr ((htrust ret h).2 hret)
    · omega
  · exact absurd (Option.some.inj h).symm hret

/-- How a run of the tool ends in the parent: with its branches, or with a failure. -/
theorem mainMachine_cases (argv : List CText) (stdin : Option (List (List UInt8))) {env : ApiEnv}
    (stale : List BtsBranch) (hparent : env.fork ≠ 0) :
    (mainMachine argv stdin env stale).exit = none ∨
    (mainMachine argv stdin env stale).exit = some 1 ∨
    ((mainMachine argv stdin env stale).exit = some 0 ∧
      (mainMachine argv stdin env stale).output = printBranches .machine env.parent.aux) := by
  unfold mainMachine
  cases stdin with
  | none => exact .inr (.inl rfl)
  | some pieces =>
    have houts : ∀ ret,
        (perfMonitorApi (readPipe pieces readSz) (argv.drop 2) true env .init).1 = some ret →
          ret ≠ perfFailure →
          (perfMonitorApi (readPipe pieces readSz) (argv.drop 2) true env .init).2.outs.isSome =
            true := fun ret hret hne => perfMonitorApi_outs hparent hret hne
    dsimp only
    generalize perfMonitorApi (readPipe pieces readSz) (argv.drop 2) true env .init = result
      at houts
    obtain ⟨ret, p⟩ := result
    cases ret with
    | none => exact .inl rfl
    | some ret =>
      dsimp only
      by_cases hfail : ret = perfFailure
      · rw [if_pos hfail]
        exact .inr (.inl rfl)
      · rw [if_neg hfail, if_pos (houts ret rfl hfail)]
        exact .inr (.inr ⟨rfl, rfl⟩)

theorem childOutput_lines (argv : List CText) (stdin : Option (List (List UInt8))) (env : ApiEnv)
    (stale : List BtsBranch) :
    ∃ ls : List CText, ls ⊆ ["failed reading input".toList, "failed perf monitoring".toList] ∧
      childOutput argv stdin env stale = ls.flatMap fun l => l ++ ['\n'] := by
  unfold childOutput
  split_ifs with hinput
  · unfold mainMachine
    cases stdin with
    | none => exact ⟨["failed reading input".toList], by simp, by rw [logM_machine]; rfl⟩
    | some pieces =>
      have hfails : (perfMonitorApi (readPipe pieces readSz) (argv.drop 2) true
          { env with fork := 0 } .init).1 = some perfFailure := by
        rw [perfMonitorApi_eq]
        split_ifs
        · unfold apiFork apiChild
          simp [hinput]
        · rfl
      dsimp only
      generalize perfMonitorApi (readPipe pieces readSz) (argv.drop 2) true
        { env with fork := 0 } .init = result at hfails
      obtain ⟨ret, p⟩ := result
      cases hfails
      dsimp only
      rw [if_pos rfl]
      exact ⟨["failed perf monitoring".toList], by simp, by rw [logM_machine]; rfl⟩
  · exact ⟨[], by simp, rfl⟩

theorem parseLines_skip {ls : List CText} (h : ∀ l ∈ ls, "branch".toList.isPrefixOf l = false)
    (rest : List CText) : parseLines (ls ++ rest) = parseLines rest := by
  induction ls with
  | nil => rfl
  | cons l ls ih =>
    rw [List.cons_append, parseLines, h l List.mem_cons_self, if_neg Bool.false_ne_true]
    exact ih fun l' hl' => h l' (List.mem_cons_of_mem _ hl')

theorem mem_intercalate_of_mem {d c : Char} {l : CText} {ls : List CText} (hl : l ∈ ls)
    (hc : c ∈ l) : c ∈ [d].intercalate ls := by
  induction ls with
  | nil => cases hl
  | cons l' ls ih =>
    cases ls with
    | nil =>
      rw [List.intercalate_singleton, ← List.mem_singleton.mp hl]
      exact hc
    | cons l'' ls =>
      rw [List.intercalate_cons_cons, List.mem_append]
      rcases List.mem_cons.mp hl with rfl | hl
      · exact .inl (List.mem_append_left _ hc)
      · exact .inr (ih hl)

theorem mem_lines {text l : CText} (hl : l ∈ lines text) {c : Char} (hc : c ∈ l) : c ∈ text := by
  have hpiece : ∃ piece ∈ text.splitOn '\n', c ∈ piece := by
    unfold lines at hl
    rcases List.mem_append.mp hl with hl | hl
    · obtain ⟨piece, hpiece, rfl⟩ := List.mem_map.mp hl
      refine ⟨piece, List.mem_of_mem_dropLast hpiece, ?_⟩
      unfold stripCr at hc
      split_ifs at hc
      · exact List.mem_of_mem_dropLast hc
      · exact hc
    · have hlast := Option.mem_toList.mp (List.mem_filter.mp hl).1
      exact ⟨l, List.mem_of_getLast? hlast, hc⟩
  obtain ⟨piece, hpiece, hc⟩ := hpiece
  have hwhole : ['\n'].intercalate (text.splitOn '\n') = text := List.intercalate_splitOn '\n'
  rw [← hwhole]
  exact mem_intercalate_of_mem hpiece hc

/-- Failures have no line that trace2 takes for a branch, however their writes are mixed: none of
them has the letter b. -/
theorem parseOutput_failures {writes : List CText} (h : writes ⊆ failureWrites) :
    parseOutput writes.flatten = some [] := by
  have hb : 'b' ∉ writes.flatten := by
    intro hmem
    obtain ⟨w, hw, hc⟩ := List.mem_flatten.mp hmem
    have hnone : ∀ w ∈ failureWrites, 'b' ∉ w := by decide
    exact hnone w (h hw) hc
  have hskip : ∀ l ∈ lines writes.flatten, "branch".toList.isPrefixOf l = false := by
    intro l hl
    by_contra hbranch
    rw [Bool.not_eq_false, List.isPrefixOf_iff_prefix] at hbranch
    exact hb (mem_lines hl (hbranch.subset (by decide)))
  have hparse := parseLines_skip hskip []
  rw [List.append_nil] at hparse
  exact hparse

/-- A line of the child in front of the branches is skipped. -/
theorem parseOutput_behind {argv : List CText} {stdin : Option (List (List UInt8))} {env : ApiEnv}
    {stale : List BtsBranch} {left : CText}
    (h : left = [] ∨ left = childOutput argv stdin env stale) (records : List BtsBranch) :
    parseOutput (left ++ printBranches .machine records) =
      some ((records.filter fun br => !leftOut br).map fun br => ⟨br.from, br.to, 0⟩) := by
  obtain ⟨ls, hls, hout⟩ : ∃ ls : List CText,
      ls ⊆ ["failed reading input".toList, "failed perf monitoring".toList] ∧
        left = ls.flatMap fun l => l ++ ['\n'] := by
    rcases h with rfl | rfl
    · exact ⟨[], List.nil_subset _, rfl⟩
    · exact childOutput_lines argv stdin env stale
  have hplain : ∀ l ∈ ls, ('\n' ∉ l ∧ l.getLast? ≠ some '\r') ∧
      "branch".toList.isPrefixOf l = false := by
    have hall : ∀ l ∈ ["failed reading input".toList, "failed perf monitoring".toList],
        ('\n' ∉ l ∧ l.getLast? ≠ some '\r') ∧ "branch".toList.isPrefixOf l = false := by decide
    exact fun l hl => hall l (hls hl)
  unfold parseOutput
  rw [hout, printBranches_machine, ← List.flatMap_append, lines_flatMap, parseLines_skip]
  · exact parseLines_branchMessages _
  · exact fun l hl => (hplain l hl).2
  · intro l hl
    rcases List.mem_append.mp hl with hl | hl
    · exact (hplain l hl).1
    · obtain ⟨br, -, rfl⟩ := List.mem_map.mp hl
      exact ⟨(branchMessage_plain br).1, (branchMessage_plain br).2.1⟩

/-- Whatever the tool leaves in the pipe is readable. -/
theorem retained_out (secStart secEnd : UInt64) {r : PerfRun sut} (hran : r.turn.ran = true) :
    retained r.turn.out secStart secEnd = some (r.kept secStart secEnd) := by
  have hparse : parseOutput r.turn.out = some (if r.succeeded then
      (r.env.parent.aux.filter fun br => !leftOut br).map fun br => ⟨br.from, br.to, 0⟩
    else []) := by
    have hpipe := r.pipe hran
    unfold PipeHolds at hpipe
    unfold PerfRun.succeeded PerfRun.machine
    rcases mainMachine_cases (perfArgs sut) r.stdin r.stale r.parent with hnone | hexit |
      ⟨hexit, hout⟩
    · exact absurd hnone (r.ended hran)
    · rw [hexit, if_neg (by decide)] at hpipe
      obtain ⟨writes, hwrites, hout⟩ := hpipe
      rw [hexit, hout]
      exact parseOutput_failures hwrites
    · rw [hexit, if_pos rfl, hout] at hpipe
      obtain ⟨left, hleft, hread⟩ := hpipe
      rw [hexit, hread]
      exact parseOutput_behind hleft _
  unfold retained PerfRun.kept
  rw [hparse]
  cases r.succeeded with
  | false => rfl
  | true => rfl

def PerfRun.carried (r : PerfRun sut) : Bool := r.turn.received && r.turn.ran

theorem kept_turn (secStart secEnd : UInt64) (r : PerfRun sut) :
    r.turn.kept secStart secEnd = if r.carried then some (r.kept secStart secEnd) else none := by
  unfold Turn.kept PerfRun.carried
  cases hran : r.turn.ran with
  | false => rw [Bool.and_false, if_neg Bool.false_ne_true, if_neg Bool.false_ne_true]
  | true => rw [retained_out secStart secEnd hran]

theorem works_iff (r : PerfRun sut) :
    r.turn.Works ↔ r.carried = true ∧ r.turn.printed = true := by
  unfold Turn.Works PerfRun.carried
  rw [Bool.and_eq_true, and_assoc]

/-- The runs whose output start reads. -/
def outputsRead (rs : List (PerfRun sut)) : List (PerfRun sut) :=
  Runs.untilStop PerfRun.carried (fun r => r.turn.printed) rs

theorem startTurn_carried (secStart secEnd : UInt64) {s : Start} (hs : s.panicked = false)
    {r : PerfRun sut} (hr : r.carried = true) :
    ∃ line, startTurn .cPerf secStart secEnd s r.turn =
        ⟨(s.branchStore.add (r.kept secStart secEnd)).2, line.maxCoverage, s.shown ++ [line],
          !r.turn.printed⟩ ∧
      line.coverage = UInt64.ofNat (r.kept secStart secEnd).length ∧
      line.maxCoverage.toNat = max s.maxCoverage.toNat line.coverage.toNat := by
  have hkept := kept_turn secStart secEnd r
  rw [hr, if_pos rfl] at hkept
  rcases startTurn_cPerf hs r.turn with ⟨hnone, -⟩ | ⟨trace, line, hsome, hcov, hmax, -, hturn⟩
  · rw [hkept] at hnone
    cases hnone
  · rw [hkept] at hsome
    cases hsome
    exact ⟨line, hturn, hcov, hmax⟩

theorem startTurn_lost (secStart secEnd : UInt64) {s : Start} (hs : s.panicked = false)
    {r : PerfRun sut} (hr : r.carried = false) :
    startTurn .cPerf secStart secEnd s r.turn = { s with panicked := true } := by
  have hkept := kept_turn secStart secEnd r
  rw [hr, if_neg Bool.false_ne_true] at hkept
  rcases startTurn_cPerf hs r.turn with ⟨-, hturn⟩ | ⟨trace, line, hsome, -⟩
  · exact hturn
  · rw [hkept] at hsome
    cases hsome

theorem add_nil (store : BranchStore) : store.add [] = (0, store) := rfl

/-- start on all runs, beside start on those that have succeeded: only what trace2 does itself
makes it panic, and the runs that failed leave the store and the maximum as they were. -/
structure Quiet (secStart secEnd : UInt64) (rs : List (PerfRun sut)) (s s' : Start) : Prop where
  panicked : s.panicked = true ↔ ∃ r ∈ rs, ¬r.turn.Works
  panicked' : s'.panicked = true → s.panicked = true
  store : s.branchStore = s'.branchStore
  maxCoverage : s.maxCoverage = s'.maxCoverage
  coverage : s.shown.map Shown.coverage =
    (outputsRead rs).map fun r => UInt64.ofNat (r.kept secStart secEnd).length

variable {secStart secEnd : UInt64} {rs : List (PerfRun sut)} {s s' : Start}

theorem Quiet.all_work (h : Quiet secStart secEnd rs s s') (hs : s.panicked = false) :
    ∀ r ∈ rs, ¬¬r.turn.Works := by
  intro r hr hfails
  rw [h.panicked.mpr ⟨r, hr, hfails⟩] at hs
  contradiction

theorem Quiet.all_carried (h : Quiet secStart secEnd rs s s') (hs : s.panicked = false) :
    ∀ r ∈ rs, r.carried = true ∧ r.turn.printed = true :=
  fun r hr => (works_iff r).mp (not_not.mp (h.all_work hs r hr))

/-- Behind a panic nothing happens. -/
theorem Quiet.stopped (h : Quiet secStart secEnd rs s s') (hs : s.panicked = true)
    (r : PerfRun sut) :
    outputsRead (rs ++ [r]) = outputsRead rs ∧
      Quiet secStart secEnd (rs ++ [r]) (startTurn .cPerf secStart secEnd s r.turn) s' := by
  obtain ⟨bad, hbad, hfails⟩ := h.panicked.mp hs
  have hsame : outputsRead (rs ++ [r]) = outputsRead rs := by
    refine Runs.untilStop_append_of_stop ⟨bad, hbad, ?_⟩ _
    rw [works_iff, ← Bool.and_eq_true, Bool.not_eq_true] at hfails
    exact hfails
  have hturn : startTurn .cPerf secStart secEnd s r.turn = s := by
    unfold startTurn
    rw [if_pos hs]
  rw [hturn]
  exact ⟨hsame, iff_of_true hs ⟨bad, List.mem_append_left _ hbad, hfails⟩, h.panicked', h.store,
    h.maxCoverage, hsame ▸ h.coverage⟩

theorem Quiet.lost (h : Quiet secStart secEnd rs s s') (hs : s.panicked = false)
    {r : PerfRun sut} (hr : r.carried = false) :
    outputsRead (rs ++ [r]) = outputsRead rs ∧
      Quiet secStart secEnd (rs ++ [r]) (startTurn .cPerf secStart secEnd s r.turn) s' := by
  have hsame : outputsRead (rs ++ [r]) = outputsRead rs := by
    unfold outputsRead
    rw [Runs.untilStop_concat_of_all (h.all_carried hs), hr, if_neg Bool.false_ne_true,
      List.append_nil]
    exact (Runs.untilStop_of_all (h.all_carried hs)).symm
  have hfails : ¬r.turn.Works := by
    rw [works_iff, hr]
    exact fun hworks => Bool.false_ne_true hworks.1
  rw [startTurn_lost secStart secEnd hs hr]
  exact ⟨hsame, iff_of_true rfl ((Runs.exists_mem_concat_iff (h.all_work hs) r).mpr hfails), fun _ => rfl, h.store,
    h.maxCoverage, hsame ▸ h.coverage⟩

/-- A run that failed shows coverage 0, which is no new maximum. -/
theorem Quiet.carried (h : Quiet secStart secEnd rs s s') (hs : s.panicked = false)
    {r : PerfRun sut} (hr : r.carried = true) :
    outputsRead (rs ++ [r]) = outputsRead rs ++ [r] ∧
      Quiet secStart secEnd (rs ++ [r]) (startTurn .cPerf secStart secEnd s r.turn)
        (if r.succeeded then startTurn .cPerf secStart secEnd s' r.turn else s') := by
  have hs' : s'.panicked = false := by
    rw [← Bool.not_eq_true]
    intro hpanicked
    rw [h.panicked' hpanicked] at hs
    contradiction
  have hgrown : outputsRead (rs ++ [r]) = outputsRead rs ++ [r] := by
    have hall : outputsRead rs = rs := Runs.untilStop_of_all (h.all_carried hs)
    rw [hall]
    unfold outputsRead
    rw [Runs.untilStop_concat_of_all (h.all_carried hs), hr, if_pos rfl]
  obtain ⟨line, hturn, hcov, hmax⟩ := startTurn_carried secStart secEnd hs hr
  have hcolumn : (s.shown ++ [line]).map Shown.coverage =
      (outputsRead (rs ++ [r])).map fun r => UInt64.ofNat (r.kept secStart secEnd).length := by
    rw [hgrown, List.map_append, List.map_append, h.coverage, List.map_singleton, hcov]
    rfl
  have hpanicked : (!r.turn.printed) = true ↔ ∃ r' ∈ rs ++ [r], ¬r'.turn.Works := by
    rw [Runs.exists_mem_concat_iff (h.all_work hs), works_iff, hr]
    simp
  refine ⟨hgrown, ?_⟩
  rw [hturn]
  cases hok : r.succeeded with
  | true =>
    obtain ⟨line', hturn', hcov', hmax'⟩ := startTurn_carried secStart secEnd hs' hr
    have hsame : line.maxCoverage = line'.maxCoverage := by
      apply UInt64.toNat_inj.mp
      rw [hmax, hmax', hcov, hcov', h.maxCoverage]
    rw [if_pos rfl, hturn']
    exact ⟨hpanicked, id, by dsimp only; rw [h.store], hsame, hcolumn⟩
  | false =>
    have hempty : r.kept secStart secEnd = [] := by
      unfold PerfRun.kept
      rw [hok]
      rfl
    have hsame : line.maxCoverage = s'.maxCoverage := by
      apply UInt64.toNat_inj.mp
      rw [hmax, hcov, hempty, ← h.maxCoverage]
      exact Nat.max_zero _
    rw [hempty, add_nil, if_neg Bool.false_ne_true]
    exact ⟨hpanicked, fun hpanicked' => absurd hs' (by simp [hpanicked']), h.store, hsame, hcolumn⟩

/-- With the tool CPerf, in every run of start on runs of the perf tool of which any may fail, start
panics exactly at the first turn in which a call of its own fails, and never over the output of the
tool; up to there each line shows how many branches of its run lie in the section, and none for a
run that has failed, and the store and the maximum are those of the runs that have not failed. -/
theorem start_perfRuns (secStart secEnd : UInt64) (rs : List (PerfRun sut)) :
    ∃ s s', s = start .cPerf secStart secEnd (rs.map PerfRun.turn) ∧
      s' = start .cPerf secStart secEnd
        (((outputsRead rs).filter PerfRun.succeeded).map PerfRun.turn) ∧
      Quiet secStart secEnd rs s s' := by
  refine ⟨_, _, rfl, rfl, ?_⟩
  induction rs using List.reverseRecOn with
  | nil => exact ⟨by simp [start], nofun, rfl, rfl, rfl⟩
  | append_singleton rs r ih =>
    have hlast : start .cPerf secStart secEnd ((rs ++ [r]).map PerfRun.turn) =
        startTurn .cPerf secStart secEnd (start .cPerf secStart secEnd (rs.map PerfRun.turn))
          r.turn := by
      rw [List.map_append, List.map_singleton]
      exact List.foldl_concat _ _ _ _
    rw [hlast]
    cases hs : (start .cPerf secStart secEnd (rs.map PerfRun.turn)).panicked with
    | true =>
      obtain ⟨hread, hquiet⟩ := ih.stopped hs r
      rw [hread]
      exact hquiet
    | false =>
      cases hr : r.carried with
      | false =>
        obtain ⟨hread, hquiet⟩ := ih.lost hs hr
        rw [hread]
        exact hquiet
      | true =>
        obtain ⟨hread, hquiet⟩ := ih.carried hs hr
        rw [hread, List.filter_append]
        cases hok : r.succeeded with
        | true =>
          rw [hok, if_pos rfl] at hquiet
          rw [List.filter_singleton, hok, List.map_append]
          unfold start at hquiet ⊢
          rw [List.foldl_append]
          exact hquiet
        | false =>
          rw [hok, if_neg Bool.false_ne_true] at hquiet
          rw [List.filter_singleton, hok]
          simpa using hquiet

def sampleEnv (perfFd : ℤ) : ApiEnv :=
  ⟨⟨3, 1⟩, 4, 1, 10,
    ⟨true, perfFd, some 100, some 200, [⟨0, .changed (.exited 0), [], true⟩], 0, [⟨16, 80, 0⟩]⟩,
    ⟨4, 5, true, true, true⟩⟩

def mixedOut : CText :=
  "failed perf monitoringfailed perf monitoring\n\n".toList

def sampleRun : PerfRun ["./sut".toList] where
  command := by decide
  turn := .succeed [1] "branch,16,80\n".toList
  stdin := some [[1]]
  delivered := by decide
  env := sampleEnv 5
  stale := []
  parent := by decide
  muted := .inr (by decide)
  ended := by decide
  pipe := by
    intro _
    unfold PipeHolds
    rw [if_pos (by decide)]
    exact ⟨[], .inl rfl, by decide⟩

def refusedRun : PerfRun ["./sut".toList] where
  command := by decide
  turn := .succeed [1] mixedOut
  stdin := some [[1]]
  delivered := by decide
  env := { sampleEnv (-1) with child := ⟨-1, -1, true, true, true⟩ }
  stale := []
  parent := by decide
  muted := .inl rfl
  ended := by decide
  pipe := by
    intro _
    unfold PipeHolds
    rw [if_neg (by decide)]
    exact ⟨["failed perf monitoring".toList, "failed perf monitoring".toList, "\n".toList,
      "\n".toList], by decide, by decide⟩

example : (start .cPerf 0 100 ([sampleRun, refusedRun].map PerfRun.turn)).shown =
    [⟨true, 1, 1, some 1, 1⟩, ⟨false, 1, 0, some 0, 1⟩] := by
  decide +kernel

end FuzzMonitor.RustMonitor
