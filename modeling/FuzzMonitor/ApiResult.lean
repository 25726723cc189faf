import FuzzMonitor.PerfCalls

namespace FuzzMonitor.Perf
open CStrings

/-- Control never returns in the forked child, and a result other than PERF_FAILURE comes
with the two outputs assigned. -/
def Trustworthy (out : Option ℤ × PerfState) : Prop :=
  ∀ ret, out.1 = some ret →
    .fork 0 ∉ out.2.calls ∧ (ret ≠ perfFailure → ∃ r, out.2.outs = some r)

/-- The child is there, and something before its new program image starts fails without
stopping it. -/
def ChildReturns (env : ApiEnv) : Prop :=
  ReachesFork env ∧ env.fork = 0 ∧
    (env.child.inputFd = -1 ∨ env.child.nullFd = -1 ∨ env.child.traceme = false ∨
      (env.child.resumed = true ∧ env.child.execv = false))

theorem fork_notMem_started (data : List UInt8) (env : ApiEnv) (g : GblStatus) (pid : ℤ) :
    .fork pid ∉ (started data env g).calls := by
  unfold started closeCalls startCalls
  split_ifs <;> simp

theorem fork_notMem_setupCalls (child pid : ℤ) (env : ParentEnv) :
    .fork pid ∉ setupCalls child env := by
  unfold setupCalls
  split_ifs <;> simp

theorem fork_notMem_loop (child pid : ℤ) (steps : List WaitStep) :
    .fork pid ∉ steps.flatMap (stepCalls child) := by
  intro h
  obtain ⟨step, -, h⟩ := List.mem_flatMap.mp h
  unfold stepCalls at h
  split_ifs at h <;> simp at h

theorem fork_notMem_waitCleanup (g : GblStatus) (late : ℕ) (stop : WaitEnd) (pid : ℤ) :
    .fork pid ∉ waitCleanup g late stop := by
  cases stop <;> simp [waitCleanup]

theorem fork_mem_perfParent_iff (bts : Bool) (env : ParentEnv) (s : PerfState) (pid : ℤ) :
    .fork pid ∈ (perfParent bts env s).2.calls ↔ .fork pid ∈ s.calls := by
  have hsetup : .fork pid ∈ (setUp env s).calls ↔ .fork pid ∈ s.calls := by
    unfold setUp
    rw [List.mem_append, or_iff_left (fork_notMem_setupCalls _ _ _)]
  rw [perfParent_eq]
  split_ifs
  · rw [(perfWait_spec bts env (setUp env s)).2.1, List.mem_append, List.mem_append,
      or_iff_left (not_or.mpr ⟨fork_notMem_loop _ _ _, fork_notMem_waitCleanup _ _ _ _⟩), hsetup]
  · exact hsetup

theorem perfParent_outs {env : ParentEnv} {s : PerfState} {ret : ℤ}
    (h : (perfParent true env s).1 = some ret) (hret : ret ≠ perfFailure) :
    ∃ r, (perfParent true env s).2.outs = some r := by
  rw [perfParent_eq] at h ⊢
  split_ifs at h ⊢
  · apply perfWait_outs
    have hend := (perfWait_spec true env (setUp env s)).1
    rw [h] at hend
    rw [h]
    cases hstop : waitEnd env.waits <;> rw [hstop] at hend
    · cases hend
    · exact hend
    · exact absurd (Option.some.inj hend) hret
    · exact absurd (Option.some.inj hend) hret
  · exact absurd (Option.some.inj h).symm hret

theorem apiParent_trustworthy (env : ApiEnv) (s : PerfState) (hs : .fork 0 ∉ s.calls) :
    Trustworthy (apiParent true env s) := by
  have hfork := fork_mem_perfParent_iff true env.parent (s.did (.close env.inputFd)) 0
  intro ret hret
  unfold apiParent at hret ⊢
  split at hret
  · cases hret
  · next r s' hparent =>
    rw [hparent] at hfork
    refine ⟨?_, fun hne => ?_⟩
    · have hs' : .fork 0 ∉ s'.calls := fun h => hs (by simpa using hfork.mp h)
      simpa using hs'
    · have houts := perfParent_outs (congrArg Prod.fst hparent)
        (by rw [Option.some.inj hret]; exact hne)
      rw [hparent] at houts
      exact houts

theorem apiChild_returns_iff (argv : List CText) (env : ApiEnv) (s : PerfState) :
    (apiChild argv env s).1 ≠ none ↔
      env.child.inputFd = -1 ∨ env.child.nullFd = -1 ∨ env.child.traceme = false ∨
        (env.child.resumed = true ∧ env.child.execv = false) := by
  unfold apiChild perfChild
  by_cases hinput : env.child.inputFd = -1
  · simp [hinput]
  · by_cases hnull : env.child.nullFd = -1
    · simp [hinput, hnull]
    · cases htrace : env.child.traceme <;> cases hresumed : env.child.resumed <;>
        cases hexec : env.child.execv <;> simp [hinput, hnull]

theorem apiChild_calls (argv : List CText) (env : ApiEnv) (s : PerfState) {c : Syscall}
    (h : c ∈ s.calls) : c ∈ (apiChild argv env s).2.calls := by
  unfold apiChild perfChild
  dsimp only
  split_ifs <;> simp [h]

/-- In the child only not to return is right. -/
theorem trustworthy_child_iff {out : Option ℤ × PerfState} (h : .fork 0 ∈ out.2.calls) :
    Trustworthy out ↔ ¬out.1 ≠ none := by
  rw [not_not]
  refine ⟨fun ht => ?_, fun hnone ret hret => by rw [hnone] at hret; cases hret⟩
  cases hret : out.1 with
  | none => rfl
  | some ret => exact absurd h (ht ret hret).1

/-- The result of perf_monitor_api can be trusted exactly when the child does not return. -/
theorem perfMonitorApi_trustworthy_iff (data : List UInt8) (argv : List CText) (env : ApiEnv)
    (g : GblStatus) :
    Trustworthy (perfMonitorApi data argv true env g) ↔ ¬ChildReturns env := by
  have hstart := fork_notMem_started data env g 0
  rw [perfMonitorApi_eq]
  unfold ChildReturns
  split_ifs with hreach
  · unfold apiFork
    dsimp only
    split_ifs with hneg hpos
    · -- fork failed
      refine iff_of_true (fun ret hret => ⟨?_, fun hne => ?_⟩) (by omega)
      · simpa [hstart] using hneg.ne'
      · exact absurd (Option.some.inj hret).symm hne
    · refine iff_of_true (apiParent_trustworthy env _ ?_) (by omega)
      simpa [hstart] using hpos.ne
    · have hzero : env.fork = 0 := by omega
      rw [trustworthy_child_iff (apiChild_calls argv env _ (by simp [hzero])),
        apiChild_returns_iff]
      exact not_congr ⟨fun h => ⟨hreach, hzero, h⟩, fun h => h.2.2⟩
  · refine iff_of_true (fun ret hret => ⟨hstart, fun hne => ?_⟩) (by tauto)
    exact absurd (Option.some.inj hret).symm hne

def missingTarget : ApiEnv :=
  ⟨⟨3, 2⟩, 3, 5, 0, ⟨true, 4, some 1, some 2, [], 0, []⟩, ⟨3, 4, true, true, false⟩⟩

/-- The child returns 0 to its caller, with neither output assigned. -/
theorem perfMonitorApi_returns_in_child :
    (perfMonitorApi [1, 2, 3, 4, 5] ["./sut".toList] true missingTarget .init).1 = some 0 ∧
    (perfMonitorApi [1, 2, 3, 4, 5] ["./sut".toList] true missingTarget .init).2.outs = none ∧
    ¬Trustworthy (perfMonitorApi [1, 2, 3, 4, 5] ["./sut".toList] true missingTarget .init) := by
  refine ⟨by decide, by decide, fun h => ?_⟩
  have hchild := (h 0 (by decide)).1
  exact hchild (by decide)

end FuzzMonitor.Perf
