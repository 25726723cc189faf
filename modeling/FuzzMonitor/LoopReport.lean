import FuzzMonitor.LoopCoverage
import FuzzMonitor.PerfTool
import FuzzMonitor.Records

namespace FuzzMonitor.MonitorLoop
open CStrings Inotify Branches Perf PerfTool Crc64 Records

/-- The line that a pass prints about its input, without the columns elapsed_ms and seen_avg, and
new_depth. -/
structure Report where
  level : LLevel
  count : UInt64
  filteredCount : UInt64
  newBranches : UInt64
  depth : UInt64
  maxDepth : UInt64
  seenInputsValue : UInt32
  newDepth : Bool
  fromCorpus : Bool
  deriving DecidableEq, Repr

structure Reporting where
  loop : LoopState
  maxDepth : UInt64
  reports : List Report

def logIt (fromCorpus : Bool) (count : UInt64) (seenInputsValue : UInt32) (out : Outcome)
    (maxDepth : UInt64) : Report :=
  let newBranches := out.newBranches.getD 0
  let newDepth := decide (out.depth > maxDepth)
  { level := if newBranches > 0 ∨ fromCorpus ∨ newDepth then .info else .debug
    count := count
    filteredCount := out.filteredCount.getD 0
    newBranches := newBranches
    depth := out.depth
    maxDepth := if newDepth then out.depth else maxDepth
    seenInputsValue := seenInputsValue
    newDepth := newDepth
    fromCorpus := fromCorpus }

def seenCount (s : LoopState) (i : Input) : UInt32 :=
  (((utilCRC64 i.bytes i.size.toNat).bind s.seen.table.lookup).map SeenEntry.value).getD 0

/-- A pass with the line it prints, which is behind a call of process_branches that returns 0. -/
def reportPass (conf : LoopConf) (r : Reporting) (env : PassEnv) : Reporting :=
  let s := pass conf r.loop env
  match s.inputs.getLast?, s.outcomes.drop r.loop.outcomes.length with
  | some i, [out] =>
    if out.stop = .returned 0 then
      let handled : Handled := ⟨i, env, r.loop.gbl⟩
      let line := logIt i.fromCorpus (.ofNat (handled.trace conf).length) (seenCount s i) out
        r.maxDepth
      ⟨s, line.maxDepth, r.reports ++ [line]⟩
    -- monitor_loop leaves the loop in front of LOG_IT
    else { r with loop := s }
  | _, _ => { r with loop := s }

def reportRun (conf : LoopConf) (m : Monitor) (g : GblStatus) (heap : ℕ) (queue : List InEvent)
    (envs : List PassEnv) : Reporting :=
  envs.foldl (reportPass conf) ⟨.enter m g heap queue, 0, []⟩

theorem reportPass_loop (conf : LoopConf) (r : Reporting) (env : PassEnv) :
    (reportPass conf r env).loop = pass conf r.loop env := by
  unfold reportPass
  dsimp only
  split
  · split_ifs <;> rfl
  · rfl

theorem reportRun_loop (conf : LoopConf) (m : Monitor) (g : GblStatus) (heap : ℕ)
    (queue : List InEvent) (envs : List PassEnv) :
    (reportRun conf m g heap queue envs).loop = loopRun conf m g heap queue envs :=
  (List.foldl_hom Reporting.loop fun r env => (reportPass_loop conf r env).symm).symm

theorem pass_outcomes (conf : LoopConf) (s : LoopState) (env : PassEnv) :
    (pass conf s env).outcomes = s.outcomes ∨
      ∃ i out, (pass conf s env).inputs = s.inputs ++ [i] ∧
        (pass conf s env).outcomes = s.outcomes ++ [out] := by
  rcases pass_cases conf s env with ⟨keepRunning, queue, taken, opened, h⟩ |
    ⟨-, keepRunning, queue, taken, opened, ret, h⟩ |
    ⟨-, keepRunning, queue, taken, opened, i, -, h⟩
  · rw [h]
    exact .inl rfl
  · rw [h]
    exact .inl rfl
  · rw [h]
    obtain ⟨seen, gbl, stop, -, hin⟩ | ⟨seen, ret, p, -, -, hin⟩ :=
      handleInput_cases conf env i
        { s with keepRunning := keepRunning, queue := queue, taken := taken, opened := opened }
    · rw [hin]
      exact .inl rfl
    · rw [hin]
      obtain ⟨out, -, hrec, -⟩ := monitorBranches_cases env
        (if p.outs.isSome then env.perf.parent.aux else env.stale)
        { s with keepRunning := keepRunning, queue := queue, taken := taken, opened := opened,
                 inputs := s.inputs ++ [i], seen := seen, gbl := p.gbl }
      exact .inr ⟨i, out, hrec.inputs, hrec.outcomes⟩

def reportable (outs : List Outcome) : List Outcome :=
  outs.filter fun out => out.stop = .returned 0

theorem reportPass_silent {conf : LoopConf} {r : Reporting} {env : PassEnv}
    (h : (pass conf r.loop env).outcomes = r.loop.outcomes) :
    reportPass conf r env = { r with loop := pass conf r.loop env } := by
  unfold reportPass
  dsimp only
  rw [h, List.drop_length]
  cases (pass conf r.loop env).inputs.getLast? with
  | none => rfl
  | some i => rfl

/-- A pass with a call prints a line if the call returns 0. -/
theorem reportPass_call {conf : LoopConf} {r : Reporting} {env : PassEnv} {i : Input}
    {out : Outcome}
    (hinputs : (pass conf r.loop env).inputs = r.loop.inputs ++ [i])
    (houtcomes : (pass conf r.loop env).outcomes = r.loop.outcomes ++ [out]) :
    reportPass conf r env =
      if out.stop = .returned 0 then
        let handled : Handled := ⟨i, env, r.loop.gbl⟩
        let line := logIt i.fromCorpus (.ofNat (handled.trace conf).length)
          (seenCount (pass conf r.loop env) i) out r.maxDepth
        ⟨pass conf r.loop env, line.maxDepth, r.reports ++ [line]⟩
      else { r with loop := pass conf r.loop env } := by
  have hdrop : (pass conf r.loop env).outcomes.drop r.loop.outcomes.length = [out] := by
    rw [houtcomes]
    exact List.drop_left
  have hlast : (pass conf r.loop env).inputs.getLast? = some i := by
    rw [hinputs]
    exact List.getLast?_concat
  unfold reportPass
  dsimp only
  rw [hlast, hdrop]

/-- A pass prints a line for a call that returns 0, and no other. -/
theorem reportPass_cases (conf : LoopConf) (r : Reporting) (env : PassEnv) :
    ((reportPass conf r env).reports = r.reports ∧ (reportPass conf r env).maxDepth = r.maxDepth ∧
      reportable (reportPass conf r env).loop.outcomes = reportable r.loop.outcomes) ∨
    ∃ fromCorpus count seenInputsValue out line,
      line = logIt fromCorpus count seenInputsValue out r.maxDepth ∧
      (reportPass conf r env).reports = r.reports ++ [line] ∧
      (reportPass conf r env).maxDepth = line.maxDepth ∧
      reportable (reportPass conf r env).loop.outcomes = reportable r.loop.outcomes ++ [out] := by
  rcases pass_outcomes conf r.loop env with hsame | ⟨i, out, hinputs, houtcomes⟩
  · left
    rw [reportPass_silent hsame, hsame]
    exact ⟨rfl, rfl, rfl⟩
  · rw [reportPass_call hinputs houtcomes]
    unfold reportable
    by_cases hret : out.stop = .returned 0
    · right
      rw [if_pos hret]
      dsimp only
      rw [houtcomes, List.filter_append, List.filter_cons_of_pos (by simpa using hret)]
      exact ⟨_, _, _, out, _, rfl, rfl, rfl, rfl⟩
    · left
      rw [if_neg hret]
      dsimp only
      rw [houtcomes, List.filter_append, List.filter_cons_of_neg (by simpa using hret),
        List.filter_nil, List.append_nil]
      exact ⟨rfl, rfl, rfl⟩

def Report.entry (line : Report) : Entry ℕ :=
  ⟨line.depth.toNat, line.maxDepth.toNat, line.newDepth⟩

theorem logIt_entry (fromCorpus : Bool) (count : UInt64) (seenInputsValue : UInt32) (out : Outcome)
    (maxDepth : UInt64) :
    (logIt fromCorpus count seenInputsValue out maxDepth).entry =
      observe maxDepth.toNat out.depth.toNat :=
  entry_eq_observe (fun _ _ => UInt64.lt_iff_toNat_lt) maxDepth out.depth

/-- The lines so far: max_depth is tracked, each has the counters of its call, and is printed at
INFO for a new branch, a new depth or an input from the corpus. -/
structure Reported (r : Reporting) : Prop where
  tracks : Tracks Report.entry 0 r.reports r.maxDepth.toNat
  news : r.reports.map (fun line => line.newBranches.toNat) =
    (reportable r.loop.outcomes).map Outcome.newCount
  depths : r.reports.map Report.depth = (reportable r.loop.outcomes).map Outcome.depth
  levels : ∀ line ∈ r.reports, line.level = .info ↔
    (line.newBranches > 0 ∨ line.fromCorpus = true ∨ line.newDepth = true)

theorem reportPass_reported {conf : LoopConf} {r : Reporting} (env : PassEnv) (h : Reported r) :
    Reported (reportPass conf r env) := by
  rcases reportPass_cases conf r env with ⟨hreports, hmax, hgood⟩ |
    ⟨fromCorpus, count, seenInputsValue, out, line, hline, hreports, hmax, hgood⟩
  · refine ⟨?_, ?_, ?_, ?_⟩
    · rw [hreports, hmax]
      exact h.tracks
    · rw [hreports, hgood]
      exact h.news
    · rw [hreports, hgood]
      exact h.depths
    · rw [hreports]
      exact h.levels
  · have hentry := logIt_entry fromCorpus count seenInputsValue out r.maxDepth
    rw [← hline] at hentry
    refine ⟨?_, ?_, ?_, ?_⟩
    · have hbest : line.maxDepth.toNat = max r.maxDepth.toNat out.depth.toNat :=
        congrArg Entry.best hentry
      rw [hreports, hmax, hbest]
      exact h.tracks.concat hentry
    · rw [hreports, hgood, List.map_append, List.map_append, h.news, hline]
      rfl
    · rw [hreports, hgood, List.map_append, List.map_append, h.depths, hline]
      rfl
    · rw [hreports]
      intro line' hmem
      rcases List.mem_append.mp hmem with hmem | hmem
      · exact h.levels line' hmem
      · rw [List.mem_singleton.mp hmem, hline]
        unfold logIt
        dsimp only
        split_ifs with hinfo
        · exact iff_of_true rfl hinfo
        · exact iff_of_false nofun hinfo

theorem reportRun_reported (conf : LoopConf) (m : Monitor) (g : GblStatus) (heap : ℕ)
    (queue : List InEvent) (envs : List PassEnv) : Reported (reportRun conf m g heap queue envs) :=
  Runs.foldl_keeps (fun _ env _ h => reportPass_reported env h)
    ⟨.nil, rfl, rfl, fun _ h => absurd h List.not_mem_nil⟩

def infos (reports : List Report) : List Report := reports.filter fun line => line.level = .info

/-- In every run of the loop the column of max_depth is the maximum of the depths so far, and the
lines at INFO, which are all that is printed, are enough to know the coverage: the last of them
shows the greatest depth of the run, and if all calls have returned 0 their new branches add up to
the number of entries of branch_hits. -/
theorem loop_infos (conf : LoopConf) {m : Monitor} (g : GblStatus) (heap : ℕ)
    (queue : List InEvent) (envs : List PassEnv) (hempty : m.branchHits = ∅) :
    ∃ r, r = reportRun conf m g heap queue envs ∧ r.loop = loopRun conf m g heap queue envs ∧
      (∀ before line after, r.reports = before ++ line :: after → line.maxDepth.toNat =
        ((before ++ [line]).map fun line => line.depth.toNat).foldl max 0) ∧
      (((infos r.reports).getLast?.map fun line => line.maxDepth.toNat).getD 0 =
        ((reportable r.loop.outcomes).map fun out => out.depth.toNat).foldl max 0) ∧
      ((envs.map PassEnv.traceSize).sum < 2 ^ 64 →
        (∀ out ∈ r.loop.outcomes, out.stop = .returned 0) →
          r.loop.monitor.branchHits.entries.length =
            ((infos r.reports).map fun line => line.newBranches.toNat).sum) := by
  have hreported := reportRun_reported conf m g heap queue envs
  have hloop := reportRun_loop conf m g heap queue envs
  generalize reportRun conf m g heap queue envs = r at hreported hloop
  refine ⟨r, rfl, hloop, fun before line after hlog => ?_, ?_, fun hlen hret => ?_⟩
  · exact (hreported.tracks.columns hlog).1
  · have hdepths : (reportable r.loop.outcomes).map (fun out => out.depth.toNat) =
        r.reports.map fun line => line.entry.value := by
      have hmap := congrArg (List.map UInt64.toNat) hreported.depths
      rw [List.map_map, List.map_map] at hmap
      exact hmap.symm
    rw [hdepths, ← hreported.tracks.best_eq]
    -- the lines left out at DEBUG bring no new depth
    refine hreported.tracks.filter fun line hline hnew => ?_
    exact decide_eq_true ((hreported.levels line hline).mpr (.inr (.inr hnew)))
  · have hall : reportable r.loop.outcomes = r.loop.outcomes :=
      List.filter_eq_self.mpr fun out hout => decide_eq_true (hret out hout)
    have hsum := congrArg List.sum hreported.news
    rw [hall] at hsum
    -- a line at DEBUG has no new branch
    have hquiet : ((r.reports.filter fun line => ¬line.level = .info).map
        fun line => line.newBranches.toNat).sum = 0 := by
      apply List.sum_eq_zero
      intro n hn
      obtain ⟨line, hline, rfl⟩ := List.mem_map.mp hn
      obtain ⟨hline, hdebug⟩ := List.mem_filter.mp hline
      have hnone := mt (hreported.levels line hline).mpr (of_decide_eq_true hdebug)
      have hzero : ¬line.newBranches > 0 := fun hpos => hnone (.inl hpos)
      rw [gt_iff_lt, UInt64.lt_iff_toNat_lt, UInt64.toNat_zero] at hzero
      omega
    have hsplit := List.sum_map_filter_add_sum_map_filter_not (fun line => line.level = .info)
      (fun line : Report => line.newBranches.toNat) r.reports
    rw [hquiet, Nat.add_zero] at hsplit
    unfold infos
    rw [hsplit, hsum, hloop]
    rw [hloop] at hret
    obtain ⟨handled, hsub, hcalls⟩ := loopRun_makesCalls conf m g heap queue envs
    have houtcomes : (loopRun conf m g heap queue envs).outcomes =
        runCalls m heap (handled.map (Handled.call conf)) := hcalls.outcomes
    rw [houtcomes] at hret
    have hbalanced := runCalls_empty hempty hret (by
      rw [flatMap_call]
      exact lt_of_le_of_lt (traces_length_le hsub conf) hlen)
    have hentries := hbalanced.entries
    rw [Nat.zero_add, ← hempty, ← houtcomes] at hentries
    rw [hcalls.table]
    exact hentries

theorem loop_infos_sampleEnvs :
    ∃ r, r = reportRun sampleConf bareMonitor .init 0 [] sampleEnvs ∧
      ((infos r.reports).getLast?.map fun line => line.maxDepth.toNat).getD 0 =
        ((reportable r.loop.outcomes).map fun out => out.depth.toNat).foldl max 0 ∧
      r.loop.monitor.branchHits.entries.length =
        ((infos r.reports).map fun line => line.newBranches.toNat).sum := by
  have hempty : bareMonitor.branchHits = ∅ := rfl
  obtain ⟨r, rfl, -, -, hdepth, hsum⟩ := loop_infos sampleConf .init 0 [] sampleEnvs hempty
  exact ⟨_, rfl, hdepth, hsum (by decide) (by decide +kernel)⟩

end FuzzMonitor.MonitorLoop
