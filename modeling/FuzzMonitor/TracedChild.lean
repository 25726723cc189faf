import FuzzMonitor.PerfCalls

namespace FuzzMonitor.Perf

/-- When perf_parent returns, waitpid has reported the child as exited or killed, or
perf_parent has sent it SIGKILL. -/
def ChildGone (pid : ℤ) (out : Option ℤ × PerfState) : Prop :=
  ∀ ret, out.1 = some ret →
    (∃ code, .waitpid pid (.changed (.exited code)) ∈ out.2.calls) ∨
      (∃ sig, .waitpid pid (.changed (.signaled sig)) ∈ out.2.calls) ∨
      .kill pid sigKill ∈ out.2.calls

/-- The signal handler cannot be set, or the loop ends with a stop of the child: by a signal
other than SIGTRAP, or by SIGTRAP when PTRACE_CONT fails. -/
def LeavesChild (env : ParentEnv) : Prop :=
  env.sigaction = false ∨
    (Mapped env ∧ ∃ step sig, lastStep env.waits = some step ∧
      step.result = .changed (.stopped sig))

theorem mem_executed {waits : List WaitStep} {step : WaitStep} (h : step ∈ executed waits) :
    step.outcome = none ∨ lastStep waits = some step := by
  unfold lastStep
  induction waits with
  | nil => cases h
  | cons first steps ih =>
    unfold executed at h
    split_ifs at h with hnone
    · rw [List.find?_cons_of_neg (by simp [hnone])]
      rcases List.mem_cons.mp h with rfl | h
      · exact .inl hnone
      · exact ih h
    · rw [List.find?_cons_of_pos (by simpa [Option.isSome_iff_ne_none] using hnone)]
      exact .inr (by rw [List.mem_singleton.mp h])

theorem lastStep_mem_executed {waits : List WaitStep} {step : WaitStep}
    (h : lastStep waits = some step) : step ∈ executed waits := by
  unfold lastStep at h
  induction waits with
  | nil => cases h
  | cons first steps ih =>
    unfold executed
    split_ifs with hnone
    · rw [List.find?_cons_of_neg (by simp [hnone])] at h
      exact List.mem_cons_of_mem _ (ih h)
    · rw [List.find?_cons_of_pos (by simpa [Option.isSome_iff_ne_none] using hnone)] at h
      rw [Option.some.inj h]
      exact List.mem_singleton_self _

theorem waitpid_mem_stepCalls {pid : ℤ} {step : WaitStep} {r : WaitResult} :
    .waitpid pid r ∈ stepCalls pid step ↔ r = step.result := by
  unfold stepCalls
  split_ifs <;> simp [List.mem_replicate]

theorem sigKill_notMem_stepCalls (pid : ℤ) (step : WaitStep) :
    .kill pid sigKill ∉ stepCalls pid step := by
  unfold stepCalls
  split_ifs <;> simp [List.mem_replicate, sigKill, sigTrap]

theorem sigKill_mem_setupCalls {env : ParentEnv} (pid : ℤ) (hsig : env.sigaction = true)
    (h : ¬Mapped env) : .kill pid sigKill ∈ setupCalls pid env := by
  unfold Mapped at h
  unfold setupCalls
  split_ifs <;> simp_all

theorem setupGbl_childPid (env : ParentEnv) (g : GblStatus) :
    (setupGbl env g).childPid = g.childPid := by
  unfold setupGbl
  split_ifs <;> rfl

/-- A loop that ends with a stop of the child goes on to return, without a clean-up that
makes a difference to the child. -/
theorem waitEnd_of_stopped {waits : List WaitStep} {step : WaitStep} {sig : ℕ}
    (hlast : lastStep waits = some step) (hstop : step.result = .changed (.stopped sig)) :
    waitEnd waits = .done ∨ waitEnd waits = .contFailed := by
  have hout := outcome_eq_waitEnd hlast
  unfold WaitStep.outcome at hout
  rw [hstop] at hout
  dsimp only at hout
  split_ifs at hout
  · exact .inl (Option.some.inj hout).symm
  · exact .inr (Option.some.inj hout).symm

theorem result_of_executed {waits : List WaitStep} {step w : WaitStep} {sig : ℕ}
    (hlast : lastStep waits = some step) (hstop : step.result = .changed (.stopped sig))
    (hw : w ∈ executed waits) : w.result = .eintr ∨ ∃ sig, w.result = .changed (.stopped sig) := by
  rcases mem_executed hw with hnone | hsome
  · unfold WaitStep.outcome at hnone
    split at hnone
    · next h => exact .inl h
    · cases hnone
    · cases hnone
    · cases hnone
    · next sig h => exact .inr ⟨sig, h⟩
  · rw [hlast] at hsome
    rw [← Option.some.inj hsome]
    exact .inr ⟨sig, hstop⟩

theorem mem_perfWait_calls {bts : Bool} {env : ParentEnv} {g : GblStatus} {c : Syscall} :
    c ∈ (perfWait bts env (setUp env ⟨g, [], none, []⟩)).2.calls ↔
      c ∈ setupCalls g.childPid env ∨ (∃ w ∈ executed env.waits, c ∈ stepCalls g.childPid w) ∨
        c ∈ waitCleanup (setupGbl env g) env.lateSigio (waitEnd env.waits) := by
  have hpid : (setUp env ⟨g, [], none, []⟩).gbl.childPid = g.childPid := setupGbl_childPid env g
  rw [(perfWait_spec bts env (setUp env ⟨g, [], none, []⟩)).2.1, hpid, List.mem_append,
    List.mem_append, List.mem_flatMap]
  unfold setUp
  rw [List.nil_append]

theorem results_of_stopped {bts : Bool} {env : ParentEnv} {g : GblStatus} (hmap : Mapped env)
    {step : WaitStep} {sig : ℕ} (hlast : lastStep env.waits = some step)
    (hstop : step.result = .changed (.stopped sig)) {r : WaitResult}
    (hr : .waitpid g.childPid r ∈ (perfWait bts env (setUp env ⟨g, [], none, []⟩)).2.calls) :
    r = .eintr ∨ ∃ sig, r = .changed (.stopped sig) := by
  rcases mem_perfWait_calls.mp hr with hr | ⟨w, hw, hr⟩ | hr
  · simp [setupCalls_of_mapped g.childPid hmap] at hr
  · rw [waitpid_mem_stepCalls.mp hr]
    exact result_of_executed hlast hstop hw
  · rcases waitEnd_of_stopped hlast hstop with hend | hend <;>
      simp [hend, waitCleanup, List.mem_replicate] at hr

/-- No run whose loop ends with a stop kills the child. -/
theorem sigKill_notMem_of_stopped {bts : Bool} {env : ParentEnv} {g : GblStatus}
    (hmap : Mapped env) {step : WaitStep} {sig : ℕ} (hlast : lastStep env.waits = some step)
    (hstop : step.result = .changed (.stopped sig)) :
    .kill g.childPid sigKill ∉ (perfWait bts env (setUp env ⟨g, [], none, []⟩)).2.calls := by
  intro hkill
  rcases mem_perfWait_calls.mp hkill with hk | ⟨w, -, hk⟩ | hk
  · simp [setupCalls_of_mapped g.childPid hmap] at hk
  · exact sigKill_notMem_stepCalls _ _ hk
  · rcases waitEnd_of_stopped hlast hstop with hend | hend <;>
      simp [hend, waitCleanup, List.mem_replicate, sigKill, sigTrap] at hk

theorem not_childGone_of_stopped {bts : Bool} {env : ParentEnv} {g : GblStatus}
    (hmap : Mapped env) {step : WaitStep} {sig : ℕ} (hlast : lastStep env.waits = some step)
    (hstop : step.result = .changed (.stopped sig)) :
    ¬ChildGone g.childPid (perfWait bts env (setUp env ⟨g, [], none, []⟩)) := by
  have hret := (perfWait_spec bts env (setUp env ⟨g, [], none, []⟩)).1
  have hreturned : ∃ ret, waitReturn (waitEnd env.waits) = some ret := by
    rcases waitEnd_of_stopped hlast hstop with hend | hend
    · exact ⟨perfSuccess, by rw [hend]; rfl⟩
    · exact ⟨perfFailure, by rw [hend]; rfl⟩
  intro hgone
  obtain ⟨ret, hsome⟩ := hreturned
  rcases hgone ret (hret.trans hsome) with ⟨code, hc⟩ | ⟨s, hc⟩ | hkill
  · simpa using results_of_stopped hmap hlast hstop hc
  · simpa using results_of_stopped hmap hlast hstop hc
  · exact sigKill_notMem_of_stopped hmap hlast hstop hkill

theorem childGone_of_not_stopped {bts : Bool} {env : ParentEnv} {g : GblStatus}
    (h : ∀ step sig, lastStep env.waits = some step → step.result ≠ .changed (.stopped sig)) :
    ChildGone g.childPid (perfWait bts env (setUp env ⟨g, [], none, []⟩)) := by
  intro ret hret
  rw [(perfWait_spec bts env (setUp env ⟨g, [], none, []⟩)).1] at hret
  cases hlast : lastStep env.waits with
  | none =>
    rw [waitEnd_eq, hlast] at hret
    cases hret
  | some step =>
    have hmem := lastStep_mem_executed hlast
    have hout := outcome_eq_waitEnd hlast
    have hreport : .waitpid g.childPid step.result ∈
        (perfWait bts env (setUp env ⟨g, [], none, []⟩)).2.calls :=
      mem_perfWait_calls.mpr (.inr (.inl ⟨step, hmem, waitpid_mem_stepCalls.mpr rfl⟩))
    cases hres : step.result with
    | eintr => simp [WaitStep.outcome, hres] at hout
    | error =>
      refine .inr (.inr (mem_perfWait_calls.mpr (.inr (.inr ?_))))
      have hfailed : waitEnd env.waits = .waitFailed := by
        unfold WaitStep.outcome at hout
        rw [hres] at hout
        exact (Option.some.inj hout).symm
      rw [hfailed]
      simp [waitCleanup, setupGbl_childPid]
    | changed status =>
      rw [hres] at hreport
      cases status with
      | exited code => exact .inl ⟨code, hreport⟩
      | signaled sig => exact .inr (.inl ⟨sig, hreport⟩)
      | stopped sig => exact absurd hres (h step sig hlast)

/-- No traced child is left behind exactly when the handler is set and the loop does not
end with a stop. -/
theorem perfParent_childGone_iff (bts : Bool) (env : ParentEnv) (g : GblStatus) :
    ChildGone g.childPid (perfParent bts env ⟨g, [], none, []⟩) ↔ ¬LeavesChild env := by
  unfold LeavesChild
  rw [perfParent_eq]
  split_ifs with hmap
  · rw [not_or, not_and]
    by_cases hstop : ∃ step sig, lastStep env.waits = some step ∧
        step.result = .changed (.stopped sig)
    · obtain ⟨step, sig, hlast, hres⟩ := hstop
      exact iff_of_false (not_childGone_of_stopped hmap hlast hres)
        fun h => h.2 hmap ⟨step, sig, hlast, hres⟩
    · -- an exit, a kill or a failed waitpid, or the loop never ends
      refine iff_of_true (childGone_of_not_stopped fun step sig hlast hres => ?_)
        ⟨by simp [hmap.1], fun _ => hstop⟩
      exact hstop ⟨step, sig, hlast, hres⟩
  · cases hsig : env.sigaction with
    | false =>
      -- the early return before the ladder: no call but sigaction
      refine iff_of_false (fun hgone => ?_) (by simp)
      have h := hgone perfFailure rfl
      simp [setUp, setupCalls, hsig] at h
    | true =>
      refine iff_of_true (fun ret _ => .inr (.inr ?_)) (by simp [hmap])
      exact sigKill_mem_setupCalls g.childPid hsig hmap

def segfault : ParentEnv :=
  ⟨true, 4, some 1, some 2,
    [⟨0, .changed (.stopped 5), [], true⟩, ⟨0, .changed (.stopped 11), [], true⟩], 0, []⟩

/-- perf_parent reports success and leaves the crashed child stopped. -/
theorem perfParent_leaves_segfault :
    (perfParent true segfault ⟨⟨7, -1, 0, .null, .null⟩, [], none, []⟩).1 = some perfSuccess ∧
    ¬ChildGone 7 (perfParent true segfault ⟨⟨7, -1, 0, .null, .null⟩, [], none, []⟩) := by
  refine ⟨by decide, fun hgone => ?_⟩
  rw [perfParent_eq, if_pos (by decide)] at hgone
  exact not_childGone_of_stopped (g := ⟨7, -1, 0, .null, .null⟩) (by decide)
    (show lastStep segfault.waits = some ⟨0, .changed (.stopped 11), [], true⟩ by decide) rfl hgone

end FuzzMonitor.Perf
