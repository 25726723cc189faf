import FuzzMonitor.Perf

namespace FuzzMonitor.Perf

/-- How a waitpid result ends the loop; none lets it go on. -/
def WaitStep.outcome (step : WaitStep) : Option WaitEnd :=
  match step.result with
  | .eintr => none
  | .error => some .waitFailed
  | .changed (.exited _) => some .done
  | .changed (.signaled _) => some .done
  | .changed (.stopped sig) =>
    if sig ≠ sigTrap then some .done else if step.cont then none else some .contFailed

def stepCalls (pid : ℤ) (step : WaitStep) : List Syscall :=
  List.replicate step.sigio (.kill pid sigTrap) ++ .waitpid pid step.result ::
    if step.result = .changed (.stopped sigTrap) then [.ptraceCont pid step.cont] else []

/-- The steps that the loop executes: those up to the first one that ends it. -/
def executed : List WaitStep → List WaitStep
  | [] => []
  | step :: steps => if step.outcome = none then step :: executed steps else [step]

/-- The two statuses agree up to the counter of pending data. -/
structure SameHandles (g g' : GblStatus) : Prop where
  childPid : g'.childPid = g.childPid
  perfFd : g'.perfFd = g.perfFd
  mmapBuf : g'.mmapBuf = g.mmapBuf
  mmapAux : g'.mmapAux = g.mmapAux

theorem SameHandles.refl (g : GblStatus) : SameHandles g g := ⟨rfl, rfl, rfl, rfl⟩

theorem SameHandles.trans {g₁ g₂ g₃ : GblStatus} (h : SameHandles g₁ g₂)
    (h' : SameHandles g₂ g₃) : SameHandles g₁ g₃ :=
  ⟨h'.childPid.trans h.childPid, h'.perfFd.trans h.perfFd, h'.mmapBuf.trans h.mmapBuf,
    h'.mmapAux.trans h.mmapAux⟩

@[simp] theorem did_gbl (s : PerfState) (call : Syscall) : (s.did call).gbl = s.gbl := rfl

@[simp] theorem did_calls (s : PerfState) (call : Syscall) :
    (s.did call).calls = s.calls ++ [call] := rfl

@[simp] theorem analyzeBts_gbl (bts : Bool) (aux : List BtsBranch) (s : PerfState) :
    (analyzeBts bts aux s).gbl = s.gbl := by
  unfold analyzeBts
  split_ifs <;> rfl

@[simp] theorem analyzeBts_calls (bts : Bool) (aux : List BtsBranch) (s : PerfState) :
    (analyzeBts bts aux s).calls = s.calls := by
  unfold analyzeBts
  split_ifs <;> rfl

theorem sigHandler_same (s : PerfState) : SameHandles s.gbl (perfSigHandler s).gbl :=
  ⟨rfl, rfl, rfl, rfl⟩

theorem sigHandler_iterate (n : ℕ) (s : PerfState) :
    (perfSigHandler^[n] s).calls =
        s.calls ++ List.replicate n (Syscall.kill s.gbl.childPid sigTrap) ∧
      SameHandles s.gbl (perfSigHandler^[n] s).gbl := by
  induction n generalizing s with
  | zero => exact ⟨(List.append_nil _).symm, .refl _⟩
  | succ n ih =>
    obtain ⟨hcalls, hsame⟩ := ih (perfSigHandler s)
    rw [Function.iterate_succ_apply]
    refine ⟨?_, (sigHandler_same s).trans hsame⟩
    have hone : (perfSigHandler s).calls = s.calls ++ [Syscall.kill s.gbl.childPid sigTrap] := rfl
    rw [hcalls, hone, (sigHandler_same s).childPid, List.replicate_succ, List.append_assoc]
    rfl

theorem drainReady_frame (bts : Bool) (aux : List BtsBranch) (s : PerfState) :
    (drainReady bts aux s).calls = s.calls ∧ SameHandles s.gbl (drainReady bts aux s).gbl := by
  unfold drainReady
  split_ifs
  · rw [analyzeBts_calls, analyzeBts_gbl]
    exact ⟨rfl, rfl, rfl, rfl, rfl⟩
  · exact ⟨rfl, .refl _⟩

def waited (step : WaitStep) (s : PerfState) : PerfState :=
  (perfSigHandler^[step.sigio] s).did
    (.waitpid (perfSigHandler^[step.sigio] s).gbl.childPid step.result)

def afterWait (bts : Bool) (step : WaitStep) (s : PerfState) : PerfState :=
  match step.result with
  | .eintr => waited step s
  | .error => waited step s
  | .changed _ => drainReady bts step.aux (waited step s)

/-- One pass: its outcome, and after the drain no more than the call that lets a child that
SIGTRAP stopped go on. -/
theorem waitOnce_eq (bts : Bool) (step : WaitStep) (s : PerfState) :
    waitOnce bts step s = (step.outcome,
      if step.result = .changed (.stopped sigTrap) then
        (afterWait bts step s).did (.ptraceCont (afterWait bts step s).gbl.childPid step.cont)
      else afterWait bts step s) := by
  obtain ⟨n, result, aux, cont⟩ := step
  unfold waitOnce WaitStep.outcome afterWait waited
  cases result with
  | eintr => rfl
  | error => rfl
  | changed status =>
    cases status with
    | exited code => rfl
    | signaled sig => rfl
    | stopped sig =>
      dsimp only
      by_cases htrap : sig = sigTrap
      · subst htrap
        cases cont
        · rfl
        · rfl
      · rw [if_pos htrap, if_pos htrap, if_neg (by simpa using htrap)]

theorem afterWait_waited (bts : Bool) (step : WaitStep) (s : PerfState) :
    (afterWait bts step s).calls = (waited step s).calls ∧
      SameHandles (waited step s).gbl (afterWait bts step s).gbl := by
  unfold afterWait
  cases step.result with
  | eintr => exact ⟨rfl, .refl _⟩
  | error => exact ⟨rfl, .refl _⟩
  | changed status => exact drainReady_frame bts step.aux (waited step s)

theorem afterWait_frame (bts : Bool) (step : WaitStep) (s : PerfState) :
    (afterWait bts step s).calls =
        s.calls ++ (List.replicate step.sigio (Syscall.kill s.gbl.childPid sigTrap) ++
          [Syscall.waitpid s.gbl.childPid step.result]) ∧
      SameHandles s.gbl (afterWait bts step s).gbl := by
  obtain ⟨hcalls, hsame⟩ := sigHandler_iterate step.sigio s
  obtain ⟨hdrain, hsame'⟩ := afterWait_waited bts step s
  refine ⟨?_, hsame.trans hsame'⟩
  rw [hdrain, waited, did_calls, hcalls, hsame.childPid, List.append_assoc]

/-- One pass ends the loop as its outcome says, after making the calls of its step. -/
theorem waitOnce_spec (bts : Bool) (step : WaitStep) (s : PerfState) :
    (waitOnce bts step s).1 = step.outcome ∧
      (waitOnce bts step s).2.calls = s.calls ++ stepCalls s.gbl.childPid step ∧
      SameHandles s.gbl (waitOnce bts step s).2.gbl := by
  obtain ⟨hcalls, hsame⟩ := afterWait_frame bts step s
  rw [waitOnce_eq]
  refine ⟨rfl, ?_, ?_⟩
  · unfold stepCalls
    split_ifs
    · rw [did_calls, hcalls, hsame.childPid, List.append_assoc, List.append_assoc]
      rfl
    · exact hcalls
  · split_ifs
    · exact hsame
    · exact hsame

/-- The whole loop: its end, its calls, and the fields it leaves alone. -/
theorem waitLoop_spec (bts : Bool) (steps : List WaitStep) (s : PerfState) :
    (waitLoop bts steps s).1 = (steps.findSome? WaitStep.outcome).getD .blocked ∧
      (waitLoop bts steps s).2.calls =
        s.calls ++ (executed steps).flatMap (stepCalls s.gbl.childPid) ∧
      SameHandles s.gbl (waitLoop bts steps s).2.gbl := by
  induction steps generalizing s with
  | nil => exact ⟨rfl, (List.append_nil _).symm, .refl _⟩
  | cons step steps ih =>
    obtain ⟨hout, hcalls, hsame⟩ := waitOnce_spec bts step s
    unfold waitLoop executed
    rw [List.findSome?_cons, ← hout]
    cases honce : waitOnce bts step s with
    | mk stop s₁ =>
      rw [honce] at hcalls hsame
      cases stop with
      | some stop => exact ⟨rfl, by simpa using hcalls, hsame⟩
      | none =>
        obtain ⟨hend, hrest, hsame'⟩ := ih s₁
        dsimp only at hcalls hsame ⊢
        refine ⟨hend, ?_, hsame.trans hsame'⟩
        rw [hrest, hcalls, hsame.childPid, List.append_assoc, if_pos rfl, List.flatMap_cons]

end FuzzMonitor.Perf
