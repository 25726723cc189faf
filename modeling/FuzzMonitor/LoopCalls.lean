import FuzzMonitor.CallRuns
import FuzzMonitor.TableIteration

namespace FuzzMonitor.MonitorLoop
open CStrings Inotify Branches Perf Runs Tally

/-- What a pass does: it waits, it leaves the loop, or it hands an input on. -/
theorem pass_cases (conf : LoopConf) (s : LoopState) (env : PassEnv) :
    (∃ keepRunning queue taken opened, pass conf s env =
      { s with keepRunning := keepRunning, queue := queue, taken := taken, opened := opened }) ∨
    (s.stop = none ∧ ∃ keepRunning queue taken opened ret, pass conf s env =
      { s with keepRunning := keepRunning, queue := queue, taken := taken, opened := opened,
               stop := some (.returned ret) }) ∨
    (Receives s env ∧ ∃ keepRunning queue taken opened i,
      (receive conf env (arrive s env)).1 = .input i ∧ pass conf s env =
        handleInput conf env i
          { s with
            keepRunning := keepRunning, queue := queue, taken := taken, opened := opened }) := by
  by_cases hgo : Receives s env
  · rw [pass_of_receives conf hgo]
    obtain ⟨keepRunning, queue, taken, opened, hframe⟩ := receive_frame conf env (arrive s env)
    cases hreceive : receive conf env (arrive s env) with
    | mk receipt s₁ =>
      rw [hreceive] at hframe
      dsimp only at hframe
      cases receipt with
      | stopped stop =>
        obtain ⟨ret, rfl⟩ := receive_stopped (congrArg Prod.fst hreceive)
        exact .inr (.inl ⟨hgo.1, keepRunning, queue, taken, opened, ret, by rw [hframe]; rfl⟩)
      | nothing => exact .inl ⟨keepRunning, queue, taken, opened, by rw [hframe]; rfl⟩
      | input i =>
        exact .inr (.inr ⟨hgo, keepRunning, queue, taken, opened, i, rfl, by rw [hframe]; rfl⟩)
  · by_cases hstop : s.stop = none
    · rcases pass_of_not_receives conf hgo with h | h
      · exact .inl ⟨s.keepRunning, s.queue ++ env.arrived, s.taken, s.opened, h⟩
      · exact .inr (.inl ⟨hstop, false, s.queue ++ env.arrived, s.taken, s.opened, exitSuccess, h⟩)
    · refine .inl ⟨s.keepRunning, s.queue ++ env.arrived, s.taken, s.opened, ?_⟩
      unfold pass
      dsimp only
      rw [if_pos (Option.isSome_iff_ne_none.mpr hstop)]

/-- What follows the receipt of an input: the loop ends before process_branches, or the input's
branches are handed to it. -/
theorem handleInput_cases (conf : LoopConf) (env : PassEnv) (i : Input) (s : LoopState) :
    (∃ seen gbl stop, (∀ ret, stop = .returned ret → ret = exitFailure) ∧ handleInput conf env i s =
      { s with inputs := s.inputs ++ [i], seen := seen, gbl := gbl, stop := some stop }) ∨
    ∃ seen ret p, perfMonitorApi i.data conf.sut true env.perf s.gbl = (some ret, p) ∧
      ret ≠ perfFailure ∧ handleInput conf env i s =
        monitorBranches env (if p.outs.isSome then env.perf.parent.aux else env.stale)
          { s with inputs := s.inputs ++ [i], seen := seen, gbl := p.gbl } := by
  unfold handleInput
  dsimp only
  split
  · exact .inl ⟨_, _, .overread, fun _ => nofun, rfl⟩
  · split
    · exact .inl ⟨_, _, .died, fun _ => nofun, rfl⟩
    · next seen _ =>
      unfold monitorInput
      dsimp only
      split
      · exact .inl ⟨_, _, .stuck, fun _ => nofun, rfl⟩
      · next ret p hapi =>
        by_cases hfail : ret = perfFailure
        · rw [if_pos hfail]
          exact .inl ⟨_, _, .returned exitFailure, fun _ h => (LoopEnd.returned.inj h).symm, rfl⟩
        · rw [if_neg hfail]
          exact .inr ⟨seen, ret, p, hapi, hfail, rfl⟩

theorem pass_inputs_le (conf : LoopConf) (s : LoopState) (env : PassEnv) :
    s.inputs.length ≤ (pass conf s env).inputs.length := by
  rcases pass_cases conf s env with ⟨keepRunning, queue, taken, opened, h⟩ |
    ⟨-, keepRunning, queue, taken, opened, ret, h⟩ |
    ⟨-, keepRunning, queue, taken, opened, i, -, h⟩
  · rw [h]
  · rw [h]
  · obtain ⟨seen, gbl, monitor, heap, outcomes, stop, hframe⟩ := handleInput_frame conf env i
      { s with keepRunning := keepRunning, queue := queue, taken := taken, opened := opened }
    rw [h, hframe, List.length_append]
    exact Nat.le_add_right _ _

/-- An input that reached process_branches: the pass that handled it, and gbl_status before it. -/
structure Handled where
  input : Input
  env : PassEnv
  gbl : GblStatus

def Handled.api (conf : LoopConf) (h : Handled) : Option ℤ × PerfState :=
  perfMonitorApi h.input.data conf.sut true h.env.perf h.gbl

/-- The branches behind bts_start after that call. -/
def Handled.trace (conf : LoopConf) (h : Handled) : List BtsBranch :=
  if (h.api conf).2.outs.isSome then h.env.perf.parent.aux else h.env.stale

def Handled.call (conf : LoopConf) (h : Handled) : Call := ⟨h.env.call, h.trace conf⟩

def Traced (conf : LoopConf) (g : GblStatus) (h : Handled) : Prop :=
  h.gbl = g ∧ ∃ ret, (h.api conf).1 = some ret ∧ ret ≠ perfFailure

def traceStep (conf : LoopConf) (_ : GblStatus) (h : Handled) : GblStatus := (h.api conf).2.gbl

structure Recorded (out : Outcome) (s s' : LoopState) : Prop where
  outcomes : s'.outcomes = s.outcomes ++ [out]
  table : s'.monitor.branchHits = out.branchHits
  heap : s'.heap = out.heap
  inputs : s'.inputs = s.inputs
  gbl : s'.gbl = s.gbl

theorem monitorBranches_cases (env : PassEnv) (trace : List BtsBranch) (s : LoopState) :
    ∃ out, out = processBranches env.call trace s.monitor (callArgs s.heap) ∧
      Recorded out s (monitorBranches env trace s) ∧
      ((out.stop = .returned 0 ∧ (monitorBranches env trace s).stop = s.stop ∧
          (monitorBranches env trace s).monitor = next s.monitor out) ∨
        (out.stop = .returned (-1) ∧
          (monitorBranches env trace s).stop = some (.returned exitFailure)) ∨
        (out.stop = .died ∧ (monitorBranches env trace s).stop = some .died)) := by
  refine ⟨_, rfl, ?_⟩
  unfold monitorBranches
  dsimp only
  rcases processBranches_stops env.call trace s.monitor s.heap with h | h | h
  · rw [h]
    exact ⟨⟨rfl, rfl, rfl, rfl, rfl⟩, .inl ⟨rfl, rfl, rfl⟩⟩
  · rw [h]
    exact ⟨⟨rfl, rfl, rfl, rfl, rfl⟩, .inr (.inl ⟨rfl, rfl⟩)⟩
  · rw [h]
    exact ⟨⟨rfl, rfl, rfl, rfl, rfl⟩, .inr (.inr ⟨rfl, rfl⟩)⟩

/-- What a running loop holds: all its inputs are through, and the monitor and gbl_status are what
their calls left. -/
structure Going (conf : LoopConf) (s₀ : LoopState) (hs : List Handled) (s : LoopState) :
    Prop where
  inputs : s.inputs = s₀.inputs ++ hs.map Handled.input
  monitor : s.monitor = s.outcomes.foldl next s₀.monitor
  gbl : s.gbl = hs.foldl (traceStep conf) s₀.gbl
  returned : ∀ out ∈ s.outcomes, out.stop = .returned 0

/-- The loop s, entered in s₀, has made the calls of process_branches that runCalls makes for the
inputs hs, each on the branches that perf_monitor_api left of its input. -/
structure MakesCalls (conf : LoopConf) (s₀ : LoopState) (hs : List Handled) (s : LoopState) :
    Prop where
  outcomes : s.outcomes = runCalls s₀.monitor s₀.heap (hs.map (Handled.call conf))
  table : s.monitor.branchHits = tableAfter s₀.monitor.branchHits s.outcomes
  heap : s.heap = heapAfter s₀.heap s.outcomes
  traced : Guarded (traceStep conf) (Traced conf) s₀.gbl hs
  inputs : s.inputs = s₀.inputs ++ hs.map Handled.input ∨
    ∃ i, s.inputs = s₀.inputs ++ hs.map Handled.input ++ [i]
  going : s.stop = none → Going conf s₀ hs s
  before : ∀ out ∈ s.outcomes.dropLast, out.stop = .returned 0
  failed : ∀ out ∈ s.outcomes.getLast?, out.stop ≠ .returned 0 →
    (out.stop = .returned (-1) ∧ s.stop = some (.returned exitFailure)) ∨
      (out.stop = .died ∧ s.stop = some .died)

theorem MakesCalls.start (conf : LoopConf) {s : LoopState} (h : s.outcomes = []) :
    MakesCalls conf s [] s := by
  have hin : s.inputs ++ ([] : List Handled).map Handled.input = s.inputs := List.append_nil _
  refine ⟨by rw [h]; rfl, by rw [h]; rfl, by rw [h]; rfl, trivial, .inl hin.symm, fun _ => ?_, ?_,
    ?_⟩
  · refine ⟨hin.symm, by rw [h]; rfl, rfl, ?_⟩
    rw [h]
    exact fun _ hout => absurd hout List.not_mem_nil
  · rw [h]
    exact fun _ hout => absurd hout List.not_mem_nil
  · rw [h]
    exact fun _ hout => nomatch hout

theorem MakesCalls.waits {conf : LoopConf} {s₀ s : LoopState} {hs : List Handled}
    (h : MakesCalls conf s₀ hs s) (keepRunning : Bool) (queue taken : List InEvent)
    (opened : List CText) :
    MakesCalls conf s₀ hs
      { s with keepRunning := keepRunning, queue := queue, taken := taken, opened := opened } := by
  refine ⟨h.outcomes, h.table, h.heap, h.traced, h.inputs, fun hrun => ?_, h.before, h.failed⟩
  obtain ⟨hin, hmonitor, hgbl, hall⟩ := h.going hrun
  exact ⟨hin, hmonitor, hgbl, hall⟩

theorem MakesCalls.leave {conf : LoopConf} {s₀ s s' : LoopState} {hs : List Handled}
    (h : MakesCalls conf s₀ hs s) (hgo : s.stop = none) {stop : LoopEnd}
    (hstop : s'.stop = some stop) (houtcomes : s'.outcomes = s.outcomes)
    (hmonitor : s'.monitor = s.monitor) (hheap : s'.heap = s.heap)
    (hinputs : s'.inputs = s.inputs ∨ ∃ i, s'.inputs = s.inputs ++ [i]) :
    MakesCalls conf s₀ hs s' := by
  have hall := (h.going hgo).returned
  refine ⟨by rw [houtcomes, h.outcomes], by rw [hmonitor, houtcomes, h.table],
    by rw [hheap, houtcomes, h.heap], h.traced, (h.going hgo).inputs ▸ hinputs, fun hrun => ?_, ?_,
    ?_⟩
  · rw [hrun] at hstop
    contradiction
  · rw [houtcomes]
    exact h.before
  · rw [houtcomes]
    exact fun out hout hne => absurd (hall out (List.mem_of_getLast? hout)) hne

/-- One input is traced and handed to process_branches. -/
theorem MakesCalls.call {conf : LoopConf} {env : PassEnv} {s₀ s : LoopState} {hs : List Handled}
    (h : MakesCalls conf s₀ hs s) (hgo : s.stop = none) {i : Input} {seen : SeenInputs} {ret : ℤ}
    {p : PerfState}
    (hapi : perfMonitorApi i.data conf.sut true env.perf s.gbl = (some ret, p))
    (hret : ret ≠ perfFailure) :
    MakesCalls conf s₀ (hs ++ [⟨i, env, s.gbl⟩])
      (monitorBranches env (if p.outs.isSome then env.perf.parent.aux else env.stale)
        { s with inputs := s.inputs ++ [i], seen := seen, gbl := p.gbl }) := by
  obtain ⟨hin, hmonitor, hgbl, hall⟩ := h.going hgo
  let one : Handled := ⟨i, env, s.gbl⟩
  have htrace : (if p.outs.isSome then env.perf.parent.aux else env.stale) = one.trace conf := by
    unfold Handled.trace Handled.api
    rw [hapi]
  have hlinked : Guarded (traceStep conf) (Traced conf) s₀.gbl (hs ++ [one]) :=
    guarded_append.mpr ⟨h.traced, ⟨hgbl, ret, congrArg Prod.fst hapi, hret⟩, trivial⟩
  have hinputs : s.inputs ++ [i] = s₀.inputs ++ (hs ++ [one]).map Handled.input := by
    rw [hin, List.map_append, List.append_assoc]
    rfl
  have hgbl' : p.gbl = (hs ++ [one]).foldl (traceStep conf) s₀.gbl := by
    rw [List.foldl_concat]
    exact (congrArg (fun r => r.2.gbl) hapi).symm
  rw [htrace]
  obtain ⟨out, hout, hrec, hcases⟩ := monitorBranches_cases env (one.trace conf)
    { s with inputs := s.inputs ++ [i], seen := seen, gbl := p.gbl }
  -- the call that runCalls makes next is the one of this input
  have hmap : (hs ++ [one]).map (Handled.call conf) =
      hs.map (Handled.call conf) ++ [one.call conf] := by
    rw [List.map_append]
    rfl
  have hcalls := runCalls_concat s₀.monitor s₀.heap (hs.map (Handled.call conf)) (one.call conf)
  rw [← h.outcomes, ← hmonitor, ← h.heap, ← hmap] at hcalls
  have houtcomes := hrec.outcomes
  dsimp only at houtcomes hout
  rw [hout] at houtcomes
  refine ⟨houtcomes.trans hcalls.symm, ?_, ?_, hlinked, ?_, fun hrun => ?_, ?_, ?_⟩
  · rw [hrec.table, hrec.outcomes, tableAfter_concat]
  · rw [hrec.heap, hrec.outcomes, heapAfter_concat]
  · exact .inl (hrec.inputs.trans hinputs)
  -- the loop still runs only if the call has returned 0
  · obtain ⟨hzero, -, hnext⟩ | ⟨-, hstop⟩ | ⟨-, hstop⟩ := hcases
    · refine ⟨hrec.inputs.trans hinputs, ?_, hrec.gbl.trans hgbl', ?_⟩
      · rw [hnext, hrec.outcomes, List.foldl_concat, ← hmonitor]
      · intro out' hmem
        rw [hrec.outcomes] at hmem
        rcases List.mem_append.mp hmem with hmem | hmem
        · exact hall out' hmem
        · rw [List.mem_singleton.mp hmem]
          exact hzero
    · rw [hrun] at hstop
      contradiction
    · rw [hrun] at hstop
      contradiction
  · rw [hrec.outcomes, List.dropLast_concat]
    exact hall
  · rw [hrec.outcomes, List.getLast?_concat]
    intro out' hmem hne
    cases hmem
    obtain ⟨hzero, -⟩ | hfail | hdied := hcases
    · exact absurd hzero hne
    · exact .inl hfail
    · exact .inr hdied

theorem pass_makesCalls {conf : LoopConf} {s₀ s : LoopState} {hs : List Handled} (env : PassEnv)
    (h : MakesCalls conf s₀ hs s) :
    MakesCalls conf s₀ hs (pass conf s env) ∨
      ∃ one : Handled, one.env = env ∧ MakesCalls conf s₀ (hs ++ [one]) (pass conf s env) := by
  rcases pass_cases conf s env with ⟨keepRunning, queue, taken, opened, hpass⟩ |
    ⟨hgo, keepRunning, queue, taken, opened, ret, hpass⟩ |
    ⟨hgo, keepRunning, queue, taken, opened, i, -, hpass⟩
  · rw [hpass]
    exact .inl (h.waits keepRunning queue taken opened)
  · rw [hpass]
    exact .inl (h.leave hgo rfl rfl rfl rfl (.inl rfl))
  · rw [hpass]
    have hwaits := h.waits keepRunning queue taken opened
    obtain ⟨seen, gbl, stop, -, hin⟩ | ⟨seen, ret, p, hapi, hret, hin⟩ :=
      handleInput_cases conf env i
        { s with keepRunning := keepRunning, queue := queue, taken := taken, opened := opened }
    · rw [hin]
      exact .inl (h.leave hgo.1 rfl rfl rfl rfl (.inr ⟨i, rfl⟩))
    · rw [hin]
      exact .inr ⟨⟨i, env, s.gbl⟩, rfl, hwaits.call hgo.1 hapi hret⟩

/-- Every run of the loop makes the calls of process_branches that runCalls makes, one for each
input in order until the loop is left. -/
theorem loop_makesCalls (conf : LoopConf) {s : LoopState} (hs : s.outcomes = [])
    (envs : List PassEnv) :
    ∃ handled : List Handled, (handled.map Handled.env).Sublist envs ∧
      MakesCalls conf s handled (envs.foldl (pass conf) s) := by
  induction envs using List.reverseRecOn with
  | nil => exact ⟨[], List.Sublist.refl _, .start conf hs⟩
  | append_singleton envs env ih =>
    obtain ⟨handled, hsub, hcalls⟩ := ih
    rw [List.foldl_concat]
    rcases pass_makesCalls env hcalls with hcalls | ⟨one, rfl, hcalls⟩
    · exact ⟨handled, hsub.trans (List.sublist_append_left _ _), hcalls⟩
    · refine ⟨handled ++ [one], ?_, hcalls⟩
      rw [List.map_append]
      exact hsub.append (List.Sublist.refl _)

def loopRun (conf : LoopConf) (m : Monitor) (g : GblStatus) (heap : ℕ) (queue : List InEvent)
    (envs : List PassEnv) : LoopState := envs.foldl (pass conf) (.enter m g heap queue)

theorem loopRun_makesCalls (conf : LoopConf) (m : Monitor) (g : GblStatus) (heap : ℕ)
    (queue : List InEvent) (envs : List PassEnv) :
    ∃ handled : List Handled, (handled.map Handled.env).Sublist envs ∧
      MakesCalls conf (.enter m g heap queue) handled (loopRun conf m g heap queue envs) :=
  loop_makesCalls conf rfl envs

theorem MakesCalls.failed_last {conf : LoopConf} {s₀ s : LoopState} {hs : List Handled}
    (h : MakesCalls conf s₀ hs s) {k : ℕ} {out : Outcome} (hout : s.outcomes[k]? = some out)
    (hfail : out.stop ≠ .returned 0) : k + 1 = hs.length ∧ out ∈ s.outcomes.getLast? := by
  have hlen : s.outcomes.length = hs.length := by
    rw [h.outcomes, runCalls_length, List.length_map]
  obtain ⟨hk, hget⟩ := List.getElem?_eq_some_iff.mp hout
  have hlast : k + 1 = s.outcomes.length := by
    by_contra hne
    -- the calls in front of the last one have returned 0
    have hmem : out ∈ s.outcomes.dropLast := by
      rw [List.mem_iff_getElem]
      exact ⟨k, by rw [List.length_dropLast]; omega, by rw [List.getElem_dropLast]; exact hget⟩
    exact hfail (h.before out hmem)
  refine ⟨hlast.trans hlen, ?_⟩
  rw [List.getLast?_eq_getElem?, ← hlast, Nat.add_sub_cancel]
  exact hout

/-- The loop refines runCalls: its outcomes are those of the calls for the inputs that were
traced, which are all but the last one perhaps, and only the last call may fail, which leaves
the loop. -/
theorem loop_refines_runCalls (conf : LoopConf) (m : Monitor) (g : GblStatus) (heap : ℕ)
    (queue : List InEvent) (envs : List PassEnv) :
    ∃ handled : List Handled, (handled.map Handled.env).Sublist envs ∧
      Guarded (traceStep conf) (Traced conf) g handled ∧
      (loopRun conf m g heap queue envs).outcomes =
        runCalls m heap (handled.map (Handled.call conf)) ∧
      (loopRun conf m g heap queue envs).monitor.branchHits =
        tableAfter m.branchHits (runCalls m heap (handled.map (Handled.call conf))) ∧
      ((loopRun conf m g heap queue envs).inputs = handled.map Handled.input ∨
        ∃ i, (loopRun conf m g heap queue envs).inputs = handled.map Handled.input ++ [i]) ∧
      ((loopRun conf m g heap queue envs).stop = none →
        (loopRun conf m g heap queue envs).inputs = handled.map Handled.input ∧
        (loopRun conf m g heap queue envs).monitor.inputN =
          m.inputN + UInt64.ofNat handled.length) ∧
      ∀ k out, (loopRun conf m g heap queue envs).outcomes[k]? = some out →
        out.stop ≠ .returned 0 → k + 1 = handled.length ∧
          ((out.stop = .returned (-1) ∧
              (loopRun conf m g heap queue envs).stop = some (.returned exitFailure)) ∨
            (out.stop = .died ∧ (loopRun conf m g heap queue envs).stop = some .died)) := by
  obtain ⟨handled, hsub, h⟩ := loopRun_makesCalls conf m g heap queue envs
  refine ⟨handled, hsub, h.traced, h.outcomes, ?_, h.inputs, fun hrun => ?_,
    fun k out hout hfail => ?_⟩
  · have htable := h.table
    rw [h.outcomes] at htable
    exact htable
  · obtain ⟨hin, hmonitor, -⟩ := h.going hrun
    refine ⟨hin, ?_⟩
    rw [hmonitor, foldl_next_inputN, h.outcomes, runCalls_length, List.length_map]
    rfl
  · obtain ⟨hk, hlast⟩ := h.failed_last hout hfail
    exact ⟨hk, h.failed out hlast hfail⟩

end FuzzMonitor.MonitorLoop
