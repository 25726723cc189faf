import FuzzMonitor.LoopCalls

namespace FuzzMonitor.MonitorLoop
open CStrings Inotify Branches Perf Runs

/-- SIGINT is delivered in this pass, where the loop can see it. -/
def PassEnv.interrupts (env : PassEnv) : Bool := env.sigint || env.sigintRecv

/-- monitor_loop returns EXIT_SUCCESS when SIGINT has been delivered, and EXIT_FAILURE else. -/
def ReturnsWell (s : LoopState) : Prop :=
  ∀ ret, s.stop = some (.returned ret) →
    (ret = exitSuccess ∧ s.keepRunning = false) ∨ (ret = exitFailure ∧ s.keepRunning = true)

theorem receive_keepRunning (conf : LoopConf) (env : PassEnv) {s : LoopState}
    (hrun : s.keepRunning = true) :
    ((receive conf env s).2.keepRunning = true ∧
        ∀ ret, (receive conf env s).1 = .stopped (.returned ret) → ret = exitFailure) ∨
      ((receive conf env s).1 = .stopped (.returned exitSuccess) ∧
        (receive conf env s).2.keepRunning = false ∧ env.sigintRecv = true) := by
  unfold receive
  cases env.zmq with
  | message msg => exact .inl ⟨hrun, fun ret h => by cases h⟩
  | again =>
    -- the corpus directory may fail, but leaves keep_running alone
    left
    unfold receiveCorpus
    dsimp only
    split_ifs
    · exact ⟨hrun, fun ret h => by cases h; rfl⟩
    · exact ⟨hrun, fun ret h => by cases h⟩
    · exact ⟨hrun, fun ret h => by cases h⟩
    · exact ⟨hrun, fun ret h => by cases h; rfl⟩
    · exact ⟨hrun, fun ret h => by cases h⟩
    · exact ⟨hrun, fun ret h => by cases h⟩
  | failed =>
    dsimp only
    rw [hrun]
    cases hsig : env.sigintRecv with
    | false => exact .inl ⟨rfl, fun ret h => by cases h; rfl⟩
    | true => exact .inr ⟨rfl, rfl, rfl⟩

/-- An input leaves the loop with EXIT_FAILURE, if monitor_loop returns. -/
theorem handleInput_returns (conf : LoopConf) (env : PassEnv) (i : Input) {s : LoopState}
    (hgo : s.stop = none) :
    (handleInput conf env i s).keepRunning = s.keepRunning ∧
      ∀ ret, (handleInput conf env i s).stop = some (.returned ret) → ret = exitFailure := by
  obtain ⟨seen, gbl, stop, hret, hin⟩ | ⟨seen, ret, p, -, -, hin⟩ := handleInput_cases conf env i s
  · rw [hin]
    exact ⟨rfl, fun ret h => hret ret (Option.some.inj h)⟩
  · rw [hin]
    obtain ⟨monitor, heap, outcomes, stop, hframe⟩ := monitorBranches_frame env
      (if p.outs.isSome then env.perf.parent.aux else env.stale)
      { s with inputs := s.inputs ++ [i], seen := seen, gbl := p.gbl }
    obtain ⟨out, -, -, hcases⟩ := monitorBranches_cases env
      (if p.outs.isSome then env.perf.parent.aux else env.stale)
      { s with inputs := s.inputs ++ [i], seen := seen, gbl := p.gbl }
    refine ⟨by rw [hframe], fun ret h => ?_⟩
    rcases hcases with ⟨-, hstop, -⟩ | ⟨-, hstop⟩ | ⟨-, hstop⟩
    · rw [h] at hstop
      dsimp only at hstop
      rw [hgo] at hstop
      cases hstop
    · rw [h] at hstop
      exact LoopEnd.returned.inj (Option.some.inj hstop)
    · rw [h] at hstop
      cases hstop

theorem receives_returnsWell (conf : LoopConf) {env : PassEnv} {s : LoopState}
    (hgo : Receives s env) :
    ReturnsWell (pass conf s env) ∧
      ((pass conf s env).keepRunning = false → env.interrupts = true) := by
  obtain ⟨hstop, hrun, -⟩ := id hgo
  rw [pass_of_receives conf hgo]
  have hkeep := receive_keepRunning conf env (s := arrive s env) hrun
  obtain ⟨keepRunning, queue, taken, opened, hframe⟩ := receive_frame conf env (arrive s env)
  cases hreceive : receive conf env (arrive s env) with
  | mk receipt s₁ =>
    rw [hreceive] at hkeep hframe
    dsimp only at hkeep hframe
    have hgo₁ : s₁.stop = none := by rw [hframe]; exact hstop
    rcases hkeep with ⟨htrue, hret⟩ | ⟨rfl, hfalse, hsig⟩
    · cases receipt with
      | stopped stop =>
        refine ⟨fun ret h => ?_, fun h => ?_⟩
        · exact .inr ⟨hret ret (congrArg _ (Option.some.inj h)), htrue⟩
        · exact Bool.noConfusion (htrue.symm.trans h)
      | nothing =>
        refine ⟨fun ret h => ?_, fun h => ?_⟩
        · rw [hgo₁] at h
          contradiction
        · exact Bool.noConfusion (htrue.symm.trans h)
      | input i =>
        obtain ⟨hsame, hfail⟩ := handleInput_returns conf env i hgo₁
        refine ⟨fun ret h => ?_, fun h => ?_⟩
        · exact .inr ⟨hfail ret h, hsame.trans htrue⟩
        · exact Bool.noConfusion ((hsame.trans htrue).symm.trans h)
    · refine ⟨fun ret h => ?_, fun _ => ?_⟩
      · exact .inl ⟨(LoopEnd.returned.inj (Option.some.inj h)).symm, hfalse⟩
      · unfold PassEnv.interrupts
        rw [hsig, Bool.or_true]

/-- keep_running is cleared by SIGINT alone, and then monitor_loop returns EXIT_SUCCESS. -/
theorem pass_returnsWell (conf : LoopConf) (env : PassEnv) {s : LoopState} (hs : ReturnsWell s) :
    ReturnsWell (pass conf s env) ∧
      (s.keepRunning = true → (pass conf s env).keepRunning = false → env.interrupts = true) := by
  by_cases hgo : Receives s env
  · obtain ⟨hwell, hsig⟩ := receives_returnsWell conf hgo
    exact ⟨hwell, fun _ h => hsig h⟩
  · rcases pass_of_not_receives conf hgo with h | h
    · rw [h]
      exact ⟨hs, fun htrue hfalse => Bool.noConfusion (htrue.symm.trans hfalse)⟩
    -- SIGINT has come before the test of the loop, unless the loop was left already
    · by_cases hstop : s.stop = none
      · rw [h]
        refine ⟨fun ret hret => .inl ⟨(LoopEnd.returned.inj (Option.some.inj hret)).symm, rfl⟩, ?_⟩
        intro htrue _
        unfold PassEnv.interrupts
        cases hsig : env.sigint with
        | true => rfl
        | false => exact absurd ⟨hstop, htrue, hsig⟩ hgo
      · have hsame : pass conf s env = arrive s env := by
          unfold pass
          dsimp only
          rw [if_pos (Option.isSome_iff_ne_none.mpr hstop)]
          rfl
        rw [hsame]
        exact ⟨hs, fun htrue hfalse => Bool.noConfusion (htrue.symm.trans hfalse)⟩

/-- Every run of the loop that monitor_loop returns from returns EXIT_SUCCESS exactly when
keep_running is cleared, which only SIGINT does. -/
theorem loop_returnsWell (conf : LoopConf) {s : LoopState} (envs : List PassEnv)
    (hs : ReturnsWell s) :
    ReturnsWell (envs.foldl (pass conf) s) ∧
      (s.keepRunning = true → (envs.foldl (pass conf) s).keepRunning = false →
        ∃ env ∈ envs, env.interrupts = true) := by
  induction envs generalizing s with
  | nil => exact ⟨hs, fun htrue hfalse => Bool.noConfusion (htrue.symm.trans hfalse)⟩
  | cons env envs ih =>
    obtain ⟨hwell, hsig⟩ := pass_returnsWell conf env hs
    obtain ⟨hend, hlater⟩ := ih hwell
    refine ⟨hend, fun htrue hfalse => ?_⟩
    cases hrun : (pass conf s env).keepRunning with
    | true =>
      obtain ⟨e, he, hint⟩ := hlater hrun hfalse
      exact ⟨e, List.mem_cons_of_mem _ he, hint⟩
    | false => exact ⟨env, List.mem_cons_self, hsig htrue hrun⟩

end FuzzMonitor.MonitorLoop
