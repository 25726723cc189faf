import FuzzMonitor.WaitLoop

namespace FuzzMonitor.Perf
open CStrings

def waitEnd (waits : List WaitStep) : WaitEnd := (waits.findSome? WaitStep.outcome).getD .blocked

/-- The first waitpid result that ends the loop. -/
def lastStep (waits : List WaitStep) : Option WaitStep :=
  waits.find? fun step => step.outcome.isSome

theorem waitEnd_eq (waits : List WaitStep) :
    waitEnd waits = ((lastStep waits).bind WaitStep.outcome).getD .blocked := by
  unfold waitEnd lastStep
  induction waits with
  | nil => rfl
  | cons step steps ih =>
    rw [List.findSome?_cons]
    cases h : step.outcome with
    | none =>
      rw [List.find?_cons_of_neg (by simp [h])]
      exact ih
    | some stop =>
      rw [List.find?_cons_of_pos (by simp [h])]
      simp [h]

theorem outcome_eq_waitEnd {waits : List WaitStep} {step : WaitStep}
    (h : lastStep waits = some step) : step.outcome = some (waitEnd waits) := by
  rw [waitEnd_eq, h, Option.bind_some]
  unfold lastStep at h
  have hsome := List.find?_some h
  obtain ⟨stop, hstop⟩ := Option.isSome_iff_exists.mp hsome
  rw [hstop]
  rfl

def waitReturn : WaitEnd → Option ℤ
  | .blocked => none
  | .done => some perfSuccess
  | .waitFailed => some perfFailure
  | .contFailed => some perfFailure

def waitCleanup (g : GblStatus) (lateSigio : ℕ) : WaitEnd → List Syscall
  | .blocked => []
  | .done => List.replicate lateSigio (.kill g.childPid sigTrap)
  | .waitFailed =>
    [.munmap g.mmapAux, .munmap g.mmapBuf, .close g.perfFd, .kill g.childPid sigKill]
  | .contFailed => []

theorem perfWait_spec (bts : Bool) (env : ParentEnv) (s : PerfState) :
    (perfWait bts env s).1 = waitReturn (waitEnd env.waits) ∧
      (perfWait bts env s).2.calls = s.calls ++
        ((executed env.waits).flatMap (stepCalls s.gbl.childPid) ++
          waitCleanup s.gbl env.lateSigio (waitEnd env.waits)) ∧
      SameHandles s.gbl (perfWait bts env s).2.gbl := by
  obtain ⟨hend, hcalls, hsame⟩ := waitLoop_spec bts env.waits s
  unfold perfWait waitEnd
  rw [← hend, ← List.append_assoc, ← hcalls]
  cases hloop : waitLoop bts env.waits s with
  | mk stop s₁ =>
    rw [hloop] at hsame
    cases stop with
    | blocked => exact ⟨rfl, (List.append_nil _).symm, hsame⟩
    | contFailed => exact ⟨rfl, (List.append_nil _).symm, hsame⟩
    | done =>
      obtain ⟨hlate, hsame'⟩ := sigHandler_iterate env.lateSigio s₁
      dsimp only
      rw [analyzeBts_gbl, analyzeBts_calls, hlate, hsame.childPid]
      exact ⟨rfl, rfl, hsame.trans hsame'⟩
    | waitFailed =>
      refine ⟨rfl, ?_, hsame⟩
      unfold waitCleanup
      rw [← hsame.mmapAux, ← hsame.mmapBuf, ← hsame.perfFd, ← hsame.childPid]
      simp [bailPerfWait, bailPerfAux, bailPerfBuf, bailPerfOpen]

/-- A successful return hands the records over. -/
theorem perfWait_outs (env : ParentEnv) (s : PerfState)
    (h : (perfWait true env s).1 = some perfSuccess) :
    ∃ r, (perfWait true env s).2.outs = some r := by
  unfold perfWait at h ⊢
  split at h
  · cases h
  · cases h
  · cases h
  · exact ⟨_, rfl⟩

/-- The calls of perf_parent before its loop pass, and both mappings are there. -/
def Mapped (env : ParentEnv) : Prop :=
  env.sigaction = true ∧ env.perfFd ≠ -1 ∧ env.mmapBuf ≠ none ∧ env.mmapAux ≠ none

instance (env : ParentEnv) : Decidable (Mapped env) := inferInstanceAs (Decidable (_ ∧ _))

def setupCalls (pid : ℤ) (env : ParentEnv) : List Syscall :=
  .sigaction env.sigaction ::
    if env.sigaction = false then []
    else
      .perfEventOpen pid env.perfFd ::
        if env.perfFd = -1 then [.kill pid sigKill]
        else
          .mmap env.perfFd (mmapResult env.mmapBuf) ::
            if env.mmapBuf = none then [.close env.perfFd, .kill pid sigKill]
            else
              .mmap env.perfFd (mmapResult env.mmapAux) ::
                if env.mmapAux = none then
                  [.munmap (mmapResult env.mmapBuf), .close env.perfFd, .kill pid sigKill]
                else [.fcntl env.perfFd, .fcntl env.perfFd, .fcntl env.perfFd, .ioctl env.perfFd]

def setupGbl (env : ParentEnv) (g : GblStatus) : GblStatus :=
  if env.sigaction = false then g
  else if env.perfFd = -1 then { g with perfFd := -1 }
  else if env.mmapBuf = none then { g with perfFd := env.perfFd, mmapBuf := .mapFailed }
  else
    { g with
      perfFd := env.perfFd
      mmapBuf := mmapResult env.mmapBuf
      mmapAux := mmapResult env.mmapAux }

theorem setupCalls_of_mapped {env : ParentEnv} (pid : ℤ) (h : Mapped env) :
    setupCalls pid env =
      [.sigaction true, .perfEventOpen pid env.perfFd, .mmap env.perfFd (mmapResult env.mmapBuf),
        .mmap env.perfFd (mmapResult env.mmapAux), .fcntl env.perfFd, .fcntl env.perfFd,
        .fcntl env.perfFd, .ioctl env.perfFd] := by
  obtain ⟨hsig, hfd, hbuf, haux⟩ := h
  simp [setupCalls, hsig, hfd, hbuf, haux]

theorem setupGbl_of_mapped {env : ParentEnv} (g : GblStatus) (h : Mapped env) :
    setupGbl env g =
      { g with
        perfFd := env.perfFd
        mmapBuf := mmapResult env.mmapBuf
        mmapAux := mmapResult env.mmapAux } := by
  obtain ⟨hsig, hfd, hbuf, -⟩ := h
  simp [setupGbl, hsig, hfd, hbuf]

def setUp (env : ParentEnv) (s : PerfState) : PerfState :=
  { s with gbl := setupGbl env s.gbl, calls := s.calls ++ setupCalls s.gbl.childPid env }

theorem perfParent_eq (bts : Bool) (env : ParentEnv) (s : PerfState) :
    perfParent bts env s =
      if Mapped env then perfWait bts env (setUp env s) else (some perfFailure, setUp env s) := by
  obtain ⟨sig, fd, buf, aux, waits, late, records⟩ := env
  unfold perfParent setUp setupGbl setupCalls Mapped
  by_cases hsig : sig = false
  · simp [hsig, PerfState.did]
  · by_cases hfd : fd = -1
    · simp [hsig, hfd, PerfState.did, bailPerfOpen]
    · cases buf with
      | none => simp [hsig, hfd, PerfState.did, bailPerfBuf, bailPerfOpen, mmapResult]
      | some b =>
        cases aux with
        | none =>
          simp [hsig, hfd, PerfState.did, bailPerfAux, bailPerfBuf, bailPerfOpen, mmapResult]
        | some a => simp [hsig, hfd, PerfState.did]

def closeCalls (g : GblStatus) : List Syscall :=
  (if g.mmapAux ≠ .null then [.munmap g.mmapAux] else []) ++
    ((if g.mmapBuf ≠ .null then [.munmap g.mmapBuf] else []) ++
      (if g.perfFd ≠ -1 then [.close g.perfFd] else []))

def closed (g : GblStatus) : GblStatus :=
  { g with perfFd := -1, mmapBuf := .null, mmapAux := .null }

theorem perfClose_eq (s : PerfState) :
    perfClose s = { s with gbl := closed s.gbl, calls := s.calls ++ closeCalls s.gbl } := by
  obtain ⟨⟨pid, fd, ready, buf, aux⟩, calls, outs, printed⟩ := s
  unfold perfClose closeFd closeBuf closeAux closeCalls closed
  by_cases haux : aux = .null <;> by_cases hbuf : buf = .null <;> by_cases hfd : fd = -1 <;>
    simp [haux, hbuf, hfd, PerfState.did]

/-- All system calls before the fork succeed. -/
def ReachesFork (env : ApiEnv) : Prop :=
  env.init.typeFd ≠ -1 ∧ ¬env.init.readSize < 0 ∧ env.inputFd ≠ -1 ∧ env.written ≠ -1

instance (env : ApiEnv) : Decidable (ReachesFork env) := inferInstanceAs (Decidable (_ ∧ _))

def startCalls (data : List UInt8) (env : ApiEnv) : List Syscall :=
  .openFile btsTypePath env.init.typeFd ::
    if env.init.typeFd = -1 then []
    else
      .readFile env.init.typeFd env.init.readSize :: .close env.init.typeFd ::
        if env.init.readSize < 0 then []
        else
          .openFile inputPath env.inputFd ::
            if env.inputFd = -1 then []
            else
              .writeFile env.inputFd data env.written :: .close env.inputFd ::
                if env.written = -1 then [.unlink inputPath] else []

def started (data : List UInt8) (env : ApiEnv) (g : GblStatus) : PerfState :=
  ⟨closed g, closeCalls g ++ startCalls data env, none, []⟩

theorem perfMonitorApi_eq (data : List UInt8) (argv : List CText) (bts : Bool) (env : ApiEnv)
    (g : GblStatus) :
    perfMonitorApi data argv bts env g =
      if ReachesFork env then apiFork bts argv env (started data env g)
      else (some perfFailure, started data env g) := by
  unfold perfMonitorApi perfInit started startCalls ReachesFork
  rw [perfClose_eq]
  by_cases htype : env.init.typeFd = -1
  · simp [htype, PerfState.did]
  · by_cases hread : env.init.readSize < 0
    · simp [htype, hread, PerfState.did]
    · by_cases hinput : env.inputFd = -1
      · simp [htype, hread, hinput, PerfState.did]
      · by_cases hwrite : env.written = -1
        · simp [htype, hread, hinput, hwrite, PerfState.did]
        · simp [htype, hread, hinput, hwrite, PerfState.did]

end FuzzMonitor.Perf
