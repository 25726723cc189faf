import FuzzMonitor.PerfCalls
import FuzzMonitor.Runs

namespace FuzzMonitor.Perf
open CStrings Runs

/-- What the kernel holds for the process: its perf mappings and its open perf descriptors. -/
structure Kernel where
  regions : Finset ℕ
  perfFds : Finset ℤ

def Kernel.step (k : Kernel) : Syscall → Kernel
  | .perfEventOpen _ fd => if fd = -1 then k else { k with perfFds := insert fd k.perfFds }
  | .mmap _ (.addr n) => { k with regions := insert n k.regions }
  | .munmap (.addr n) => { k with regions := k.regions.erase n }
  | .close fd => { k with perfFds := k.perfFds.erase fd }
  | _ => k

/-- mmap without a hint never returns a region that is still mapped. -/
def Kernel.allows (k : Kernel) : Syscall → Bool
  | .mmap _ (.addr n) => decide (n ∉ k.regions)
  | _ => true

def Kernel.releases (k : Kernel) : Syscall → Bool
  | .munmap (.addr n) => decide (n ∈ k.regions)
  | .munmap _ => false
  | .close fd => decide (fd ∈ k.perfFds)
  | _ => true

structure Session where
  gbl : GblStatus
  kernel : Kernel

/-- The resource invariant of gbl_status, with what it means for the next perf_close. -/
structure Sound (st : Session) : Prop where
  mmapBuf : st.gbl.mmapBuf = .null ∨ ∃ n ∈ st.kernel.regions, st.gbl.mmapBuf = .addr n
  mmapAux : st.gbl.mmapAux = .null ∨ ∃ n ∈ st.kernel.regions, st.gbl.mmapAux = .addr n
  perfFd : st.gbl.perfFd = -1 ∨ st.gbl.perfFd ∈ st.kernel.perfFds
  releases : Guarded Kernel.step (fun k c => k.releases c) st.kernel
    (perfClose ⟨st.gbl, [], none, []⟩).calls

structure ApiCall where
  data : List UInt8
  argv : List CText
  env : ApiEnv

def ParentCall (st : Session) (call : ApiCall) (st' : Session) : Prop :=
  let out := perfMonitorApi call.data call.argv true call.env st.gbl
  out.1.isSome ∧ call.env.fork ≠ 0 ∧
    Guarded Kernel.step (fun k c => k.allows c) st.kernel out.2.calls ∧
    st' = ⟨out.2.gbl, out.2.calls.foldl Kernel.step st.kernel⟩

/-- A mapping fails after the descriptor was opened, or waitpid fails with something else
than EINTR. -/
def Mishandled (env : ApiEnv) : Prop :=
  ReachesFork env ∧ env.fork > 0 ∧ env.parent.sigaction = true ∧ env.parent.perfFd ≠ -1 ∧
    (env.parent.mmapBuf = none ∨ env.parent.mmapAux = none ∨
      ∃ step, lastStep env.parent.waits = some step ∧ step.result = .error)

theorem stepCalls_inert {k : Kernel} {pid : ℤ} {step : WaitStep} {c : Syscall}
    (h : c ∈ stepCalls pid step) : k.step c = k := by
  unfold stepCalls at h
  split_ifs at h <;> simp [List.mem_replicate] at h
  · rcases h with ⟨-, rfl⟩ | rfl | rfl <;> rfl
  · rcases h with ⟨-, rfl⟩ | rfl <;> rfl

theorem perfClose_calls (g : GblStatus) :
    (perfClose ⟨g, [], none, []⟩).calls = closeCalls g := by
  rw [perfClose_eq]
  rfl

theorem sound_of_closed {g : GblStatus} {k : Kernel} (hbuf : g.mmapBuf = .null)
    (haux : g.mmapAux = .null) (hfd : g.perfFd = -1) : Sound ⟨g, k⟩ := by
  refine ⟨.inl hbuf, .inl haux, .inl hfd, ?_⟩
  rw [perfClose_calls]
  simp [closeCalls, hbuf, haux, hfd, Guarded]

theorem sound_of_live {g : GblStatus} {k : Kernel} {b a : ℕ} (hbuf : g.mmapBuf = .addr b)
    (haux : g.mmapAux = .addr a) (hb : b ∈ k.regions) (ha : a ∈ k.regions) (hne : b ≠ a)
    (hfd : g.perfFd ∈ k.perfFds) : Sound ⟨g, k⟩ := by
  refine ⟨.inr ⟨b, hb, hbuf⟩, .inr ⟨a, ha, haux⟩, .inr hfd, ?_⟩
  rw [perfClose_calls]
  unfold closeCalls
  split_ifs <;> simp_all [Guarded, Kernel.releases, Kernel.step]

theorem waitEnd_eq_waitFailed_iff (waits : List WaitStep) :
    waitEnd waits = .waitFailed ↔
      ∃ step, lastStep waits = some step ∧ step.result = .error := by
  cases hlast : lastStep waits with
  | none => simp [waitEnd_eq, hlast]
  | some step =>
    have hout := outcome_eq_waitEnd hlast
    rw [← Option.some_inj, ← hout]
    unfold WaitStep.outcome
    split <;> simp_all
    split_ifs <;> simp

theorem setupCalls_kernel {env : ParentEnv} {b a : ℕ} (pid : ℤ) (k : Kernel) (hmap : Mapped env)
    (hb : env.mmapBuf = some b) (ha : env.mmapAux = some a) :
    (setupCalls pid env).foldl Kernel.step k =
      ⟨insert a (insert b k.regions), insert env.perfFd k.perfFds⟩ := by
  rw [setupCalls_of_mapped pid hmap, hb, ha]
  simp [Kernel.step, mmapResult, hmap.2.1]

theorem loop_inert (k : Kernel) (pid : ℤ) (steps : List WaitStep) :
    (steps.flatMap (stepCalls pid)).foldl Kernel.step k = k := by
  apply foldl_inert
  intro c hc
  obtain ⟨step, -, hstep⟩ := List.mem_flatMap.mp hc
  exact stepCalls_inert hstep

section Mapped

variable {env : ParentEnv} {s₀ : PerfState} {b a : ℕ} {k : Kernel}

theorem setUp_gbl (s₀ : PerfState) (hmap : Mapped env) (hb : env.mmapBuf = some b)
    (ha : env.mmapAux = some a) :
    (setUp env s₀).gbl =
      { s₀.gbl with perfFd := env.perfFd, mmapBuf := .addr b, mmapAux := .addr a } := by
  show setupGbl env s₀.gbl = _
  rw [setupGbl_of_mapped _ hmap, hb, ha]
  rfl

/-- The two regions are different ones: the first is mapped when the second is. -/
theorem regions_ne {rest : List Syscall} (hmap : Mapped env) (hb : env.mmapBuf = some b)
    (ha : env.mmapAux = some a)
    (hallow : Guarded Kernel.step (fun k c => k.allows c) k ((setUp env s₀).calls ++ rest)) :
    b ≠ a := by
  unfold setUp at hallow
  rw [List.append_assoc, guarded_append, guarded_append, setupCalls_of_mapped _ hmap, hb,
    ha] at hallow
  have hfresh := hallow.2.1
  simp [Guarded, Kernel.allows, Kernel.step, mmapResult, hmap.2.1] at hfresh
  tauto

/-- What the kernel holds when the loop is over: the new resources, less the clean-up. -/
theorem perfWait_kernel (s₀ : PerfState) (k : Kernel) (hmap : Mapped env)
    (hb : env.mmapBuf = some b) (ha : env.mmapAux = some a) :
    (perfWait true env (setUp env s₀)).2.calls.foldl Kernel.step k =
      (waitCleanup (setUp env s₀).gbl env.lateSigio (waitEnd env.waits)).foldl Kernel.step
        ⟨insert a (insert b (s₀.calls.foldl Kernel.step k).regions),
          insert env.perfFd (s₀.calls.foldl Kernel.step k).perfFds⟩ := by
  have hstart : (setUp env s₀).calls = s₀.calls ++ setupCalls s₀.gbl.childPid env := rfl
  rw [(perfWait_spec true env (setUp env s₀)).2.1, hstart, List.foldl_append, List.foldl_append,
    List.foldl_append, loop_inert, setupCalls_kernel _ _ hmap hb ha]

theorem waitCleanup_done_inert (g : GblStatus) (late : ℕ) (k : Kernel) :
    (waitCleanup g late .done).foldl Kernel.step k = k := by
  apply foldl_inert
  intro c hc
  rw [List.eq_of_mem_replicate hc]
  rfl

/-- After a mapped run both regions and the descriptor are live, unless waitpid failed:
then the region that mmap_buf still names is gone. -/
theorem perfWait_sound_iff {s : PerfState} {r : ℤ} (hmap : Mapped env)
    (h : perfWait true env (setUp env s₀) = (some r, s))
    (hallow : Guarded Kernel.step (fun k c => k.allows c) k s.calls) :
    Sound ⟨s.gbl, s.calls.foldl Kernel.step k⟩ ↔ waitEnd env.waits ≠ .waitFailed := by
  obtain ⟨b, hb⟩ := Option.ne_none_iff_exists'.mp hmap.2.2.1
  obtain ⟨a, ha⟩ := Option.ne_none_iff_exists'.mp hmap.2.2.2
  obtain ⟨hret, hcalls, hsame⟩ := perfWait_spec true env (setUp env s₀)
  have hgbl := setUp_gbl s₀ hmap hb ha
  have hkernel := perfWait_kernel s₀ k hmap hb ha
  rw [h] at hret hcalls hsame hkernel
  dsimp only at hret hcalls hsame hkernel
  rw [hcalls] at hallow
  have hne := regions_ne hmap hb ha hallow
  have hbuf : s.gbl.mmapBuf = .addr b := by rw [hsame.mmapBuf, hgbl]
  have haux : s.gbl.mmapAux = .addr a := by rw [hsame.mmapAux, hgbl]
  have hfd : s.gbl.perfFd = env.perfFd := by rw [hsame.perfFd, hgbl]
  have hlive : Sound ⟨s.gbl, insert a (insert b (s₀.calls.foldl Kernel.step k).regions),
      insert env.perfFd (s₀.calls.foldl Kernel.step k).perfFds⟩ :=
    sound_of_live hbuf haux (by simp) (by simp) hne (by simp [hfd])
  rw [hkernel]
  cases hend : waitEnd env.waits with
  | blocked =>
    rw [hend] at hret
    cases hret
  | done =>
    rw [waitCleanup_done_inert]
    exact iff_of_true hlive (by simp)
  | contFailed => exact iff_of_true hlive (by simp)
  | waitFailed =>
    -- the ladder has unmapped the region that mmap_buf names
    refine iff_of_false (fun hsound => ?_) (by simp)
    rcases hsound.mmapBuf with hnull | ⟨n, hn, heq⟩
    · cases hbuf.symm.trans hnull
    · rw [← Ptr.addr.inj (hbuf.symm.trans heq), hgbl] at hn
      simp [waitCleanup, Kernel.step] at hn

end Mapped

theorem perfParent_sound_iff {env : ParentEnv} {s₀ s : PerfState} {r : ℤ} {k : Kernel}
    (hbuf : s₀.gbl.mmapBuf = .null) (haux : s₀.gbl.mmapAux = .null) (hfd : s₀.gbl.perfFd = -1)
    (h : perfParent true env s₀ = (some r, s))
    (hallow : Guarded Kernel.step (fun k c => k.allows c) k s.calls) :
    Sound ⟨s.gbl, s.calls.foldl Kernel.step k⟩ ↔
      ¬(env.sigaction = true ∧ env.perfFd ≠ -1 ∧
        (env.mmapBuf = none ∨ env.mmapAux = none ∨
          ∃ step, lastStep env.waits = some step ∧ step.result = .error)) := by
  rw [perfParent_eq] at h
  rw [← waitEnd_eq_waitFailed_iff]
  split_ifs at h with hmap
  · rw [perfWait_sound_iff hmap h hallow]
    simp [hmap.1, hmap.2.1, hmap.2.2.1, hmap.2.2.2]
  · obtain ⟨-, rfl⟩ := Prod.mk.inj h
    -- MAP_FAILED is neither NULL nor a region
    have hbad : ∀ {g : GblStatus} {k : Kernel},
        (g.mmapBuf = .mapFailed ∨ g.mmapAux = .mapFailed) → ¬Sound ⟨g, k⟩ := by
      intro g k hg hsound
      rcases hg with hg | hg
      · simpa [hg] using hsound.mmapBuf
      · simpa [hg] using hsound.mmapAux
    unfold Mapped at hmap
    show Sound ⟨setupGbl env s₀.gbl, _⟩ ↔ _
    unfold setupGbl
    split_ifs with hsig hopen hmapBuf
    · exact iff_of_true (sound_of_closed hbuf haux hfd) (by simp [hsig])
    · exact iff_of_true (sound_of_closed hbuf haux rfl) (by simp [hopen])
    · exact iff_of_false (hbad (.inl rfl)) (by simp [hsig, hopen, hmapBuf])
    · have hnone : env.mmapAux = none := by
        by_contra hsome
        exact hmap ⟨by simpa using hsig, hopen, hmapBuf, hsome⟩
      exact iff_of_false (hbad (.inr (by rw [hnone]; rfl))) (by simp [hsig, hopen, hnone])

/-- One call that returns in the parent leaves a sound status exactly when it does not run
into a failure that it mishandles. -/
theorem ParentCall.sound_iff {st st' : Session} {call : ApiCall} (h : ParentCall st call st') :
    Sound st' ↔ ¬Mishandled call.env := by
  obtain ⟨hret, hfork, hallow, rfl⟩ := h
  cases hcall : perfMonitorApi call.data call.argv true call.env st.gbl with
  | mk r s =>
    rw [hcall] at hret hallow
    obtain ⟨ret, rfl⟩ := Option.isSome_iff_exists.mp hret
    unfold Mishandled
    rw [perfMonitorApi_eq] at hcall
    split_ifs at hcall with hreach
    · unfold apiFork at hcall
      dsimp only at hcall
      split_ifs at hcall with hneg hpos
      · obtain ⟨-, rfl⟩ := Prod.mk.inj hcall
        exact iff_of_true (sound_of_closed rfl rfl rfl) (by omega)
      · unfold apiParent at hcall
        split at hcall
        · cases hcall
        · next r s₁ hparent =>
          obtain ⟨-, rfl⟩ := Prod.mk.inj hcall
          dsimp only at hallow ⊢
          rw [did_calls, guarded_append] at hallow
          have hsound := perfParent_sound_iff rfl rfl rfl hparent hallow.1
          rw [did_calls, List.foldl_append, did_gbl]
          exact hsound.trans (not_congr ⟨fun h => ⟨hreach, hpos, h⟩, fun h => h.2.2⟩)
      · exact absurd (by omega) hfork
    · obtain ⟨-, rfl⟩ := Prod.mk.inj hcall
      exact iff_of_true (sound_of_closed rfl rfl rfl) fun h => hreach h.1

def Session.start (k : Kernel) : Session := ⟨.init, k⟩

theorem sound_start (k : Kernel) : Sound (.start k) := sound_of_closed rfl rfl rfl

/-- Over any run of calls that return in the parent, the resource invariant holds at every
return exactly when no call runs into a failure that it mishandles. -/
theorem resources_sound_iff (k : Kernel) (calls : List ApiCall) (last : Session)
    (hrun : Run ParentCall (.start k) calls last) :
    (∀ pre post st, calls = pre ++ post → Run ParentCall (.start k) pre st →
      Run ParentCall st post last → Sound st) ↔
    ∀ call ∈ calls, ¬Mishandled call.env :=
  hrun.always_iff (fun _ _ _ _ h => h.sound_iff) (sound_start k)

def sampleCall (mmapAux : Option ℕ) : ApiCall :=
  ⟨[1, 2, 3], ["./sut".toList], ⟨⟨3, 2⟩, 3, 3, 7,
    ⟨true, 4, some 1, mmapAux,
      [⟨0, .changed (.stopped 5), [], true⟩, ⟨0, .changed (.exited 0), [], true⟩], 0, []⟩,
    ⟨3, 4, true, true, true⟩⟩⟩

theorem resources_sound_sampleCall :
    ∃ last, Run ParentCall (.start ⟨∅, ∅⟩) [sampleCall (some 2)] last ∧
      ∀ pre post st, [sampleCall (some 2)] = pre ++ post →
        Run ParentCall (.start ⟨∅, ∅⟩) pre st → Run ParentCall st post last → Sound st := by
  have hcall : ParentCall (.start ⟨∅, ∅⟩) (sampleCall (some 2)) _ :=
    ⟨by decide, by decide, by decide, rfl⟩
  have hrun := Run.cons hcall (.nil _)
  refine ⟨_, hrun, (resources_sound_iff _ _ _ hrun).mpr ?_⟩
  intro call hmem
  rw [List.mem_singleton.mp hmem]
  simp [Mishandled, sampleCall, lastStep, WaitStep.outcome, sigTrap]

/-- When the second mapping fails, mmap_aux keeps MAP_FAILED for perf_close to unmap. -/
theorem resources_unsound_mmap :
    ∃ last, Run ParentCall (.start ⟨∅, ∅⟩) [sampleCall none] last ∧ ¬Sound last := by
  have hcall : ParentCall (.start ⟨∅, ∅⟩) (sampleCall none) _ :=
    ⟨by decide, by decide, by decide, rfl⟩
  refine ⟨_, .cons hcall (.nil _), fun hsound => ?_⟩
  rcases hsound.mmapAux with h | ⟨n, -, h⟩
  · cases (show Ptr.mapFailed = .null from h)
  · cases (show Ptr.mapFailed = .addr n from h)

end FuzzMonitor.Perf
