import FuzzMonitor.PerfCalls
import FuzzMonitor.Runs

namespace FuzzMonitor.Perf
open CStrings Runs

/-- A system call of perf_monitor_api; closeInput is its close(in_fd). -/
inductive ApiStep
  | call (c : Syscall)
  | closeInput (fd : ℤ)
  deriving DecidableEq, Repr

def ApiStep.syscall : ApiStep → Syscall
  | .call c => c
  | .closeInput fd => .close fd

def afterClose (bts : Bool) (env : ParentEnv) (g : GblStatus) : List Syscall :=
  match perfParent bts env ⟨g, [], none, []⟩ with
  | (none, s) => s.calls
  | (some _, s) => s.calls ++ [.unlink inputPath]

def afterWrite (bts : Bool) (env : ApiEnv) (g : GblStatus) : List ApiStep :=
  if env.written = -1 then [.call (.unlink inputPath)]
  else
    .call (.fork env.fork) ::
      if env.fork < 0 then [.call (.unlink inputPath)]
      else
        .closeInput env.inputFd ::
          (afterClose bts env.parent { closed g with childPid := env.fork }).map .call

def parentSteps (data : List UInt8) (bts : Bool) (env : ApiEnv) (g : GblStatus) : List ApiStep :=
  (closeCalls g).map .call ++
    .call (.openFile btsTypePath env.init.typeFd) ::
      if env.init.typeFd = -1 then []
      else
        .call (.readFile env.init.typeFd env.init.readSize) :: .call (.close env.init.typeFd) ::
          if env.init.readSize < 0 then []
          else
            .call (.openFile inputPath env.inputFd) ::
              if env.inputFd = -1 then []
              else
                .call (.writeFile env.inputFd data env.written) ::
                  .closeInput env.inputFd :: afterWrite bts env g

theorem perfParent_append (bts : Bool) (env : ParentEnv) (s : PerfState) :
    (perfParent bts env s).1 = (perfParent bts env ⟨s.gbl, [], none, []⟩).1 ∧
      (perfParent bts env s).2.calls =
        s.calls ++ (perfParent bts env ⟨s.gbl, [], none, []⟩).2.calls := by
  rw [perfParent_eq, perfParent_eq]
  split_ifs
  · obtain ⟨hret, hcalls, -⟩ := perfWait_spec bts env (setUp env s)
    obtain ⟨hret', hcalls', -⟩ := perfWait_spec bts env (setUp env ⟨s.gbl, [], none, []⟩)
    rw [hret, hret', hcalls, hcalls']
    exact ⟨rfl, List.append_assoc _ _ _⟩
  · exact ⟨rfl, rfl⟩

theorem apiParent_calls (bts : Bool) (env : ApiEnv) (s : PerfState) :
    (apiParent bts env s).2.calls =
      s.calls ++ .close env.inputFd :: afterClose bts env.parent s.gbl := by
  obtain ⟨hret, hcalls⟩ := perfParent_append bts env.parent (s.did (.close env.inputFd))
  rw [did_gbl, did_calls] at hcalls
  rw [did_gbl] at hret
  unfold apiParent afterClose
  cases hparent : perfParent bts env.parent (s.did (.close env.inputFd)) with
  | mk r s₁ =>
    cases halone : perfParent bts env.parent ⟨s.gbl, [], none, []⟩ with
    | mk r' s₂ =>
      rw [hparent, halone] at hret hcalls
      dsimp only at hret hcalls
      subst hret
      cases r with
      | none =>
        dsimp only
        rw [hcalls, List.append_assoc]
        rfl
      | some ret =>
        dsimp only
        rw [did_calls, hcalls, List.append_assoc, List.append_assoc]
        rfl

/-- The marked steps are the calls that perf_monitor_api makes in the parent. -/
theorem parentSteps_calls (data : List UInt8) (argv : List CText) (bts : Bool) {env : ApiEnv}
    (g : GblStatus) (hfork : env.fork ≠ 0) :
    (parentSteps data bts env g).map ApiStep.syscall =
      (perfMonitorApi data argv bts env g).2.calls := by
  have hmark : ∀ cs : List Syscall, (cs.map ApiStep.call).map ApiStep.syscall = cs := by
    intro cs
    rw [List.map_map]
    exact List.map_id cs
  have hstarted : (started data env g).calls = closeCalls g ++ startCalls data env := rfl
  rw [perfMonitorApi_eq]
  unfold parentSteps afterWrite
  rw [List.map_append, hmark]
  by_cases hreach : ReachesFork env
  · rw [if_pos hreach]
    obtain ⟨htype, hread, hinput, hwrite⟩ := hreach
    have hcalls : startCalls data env = [.openFile btsTypePath env.init.typeFd,
        .readFile env.init.typeFd env.init.readSize, .close env.init.typeFd,
        .openFile inputPath env.inputFd, .writeFile env.inputFd data env.written,
        .close env.inputFd] := by
      simp [startCalls, htype, hread, hinput, hwrite]
    unfold apiFork
    dsimp only
    rw [if_neg htype, if_neg hread, if_neg hinput, if_neg hwrite]
    by_cases hneg : env.fork < 0
    · rw [if_pos hneg, if_pos hneg, did_calls]
      dsimp only
      rw [did_calls, hstarted, hcalls, List.append_assoc, List.append_assoc]
      rfl
    · rw [if_neg hneg, if_neg hneg, if_pos (by omega), apiParent_calls]
      dsimp only
      rw [did_calls, hstarted, hcalls, List.append_assoc, List.append_assoc]
      simp only [List.map_cons, hmark]
      rfl
  · rw [if_neg hreach, hstarted]
    congr 1
    unfold startCalls
    unfold ReachesFork at hreach
    split_ifs with htype hread hinput hwrite
    · rfl
    · rfl
    · rfl
    · rfl
    · exact absurd ⟨htype, hread, hinput, hwrite⟩ hreach
    · exact absurd ⟨htype, hread, hinput, hwrite⟩ hreach

/-- What a descriptor number stands for: the input file that this call opened, another file of
the calling thread, or a file of another thread. -/
inductive Holder
  | input
  | caller
  | others
  deriving DecidableEq, Repr

/-- The descriptors of the process; none is a free number. -/
abbrev Fds := ℕ → Option Holder

inductive FdEvent
  | own (step : ApiStep)
  | othersOpen (fd : ℕ)
  | othersClose (fd : ℕ)
  deriving DecidableEq, Repr

def FdEvent.own? : FdEvent → Option ApiStep
  | .own step => some step
  | _ => none

def Lowest (fds : Fds) (fd : ℤ) : Prop :=
  0 ≤ fd ∧ fds fd.toNat = none ∧ ∀ m < fd.toNat, fds m ≠ none

instance (fds : Fds) (fd : ℤ) : Decidable (Lowest fds fd) := inferInstanceAs (Decidable (_ ∧ _ ∧ _))

def Fds.set (fds : Fds) (fd : ℤ) (holder : Option Holder) : Fds :=
  if 0 ≤ fd then Function.update fds fd.toNat holder else fds

def Fds.step (fds : Fds) : FdEvent → Fds
  | .own (.call (.openFile path fd)) =>
    fds.set fd (some (if path = inputPath then .input else .caller))
  | .own (.call (.perfEventOpen _ fd)) => fds.set fd (some .caller)
  | .own (.call (.close fd)) => fds.set fd none
  | .own (.closeInput fd) => fds.set fd none
  | .own _ => fds
  | .othersOpen fd => fds.set fd (some .others)
  | .othersClose fd => fds.set fd none

/-- What the kernel and the other threads do: a number is the lowest free one, and another thread
closes only what it has opened. -/
def Fds.allows (fds : Fds) : FdEvent → Prop
  | .own (.call (.openFile _ fd)) => fd = -1 ∨ Lowest fds fd
  | .own (.call (.perfEventOpen _ fd)) => fd = -1 ∨ Lowest fds fd
  | .own _ => True
  | .othersOpen fd => Lowest fds fd
  | .othersClose fd => fds fd = some .others

instance Fds.allows.decidable (fds : Fds) : ∀ event, Decidable (fds.allows event)
  | .own (.call c) =>
    match c with
    | .openFile _ fd | .perfEventOpen _ fd => inferInstanceAs (Decidable (fd = -1 ∨ Lowest fds fd))
    | .readFile .. | .writeFile .. | .close _ | .unlink _ | .fork _ | .dup2 .. | .traceme _
    | .raise _ | .execv .. | .sigaction _ | .mmap .. | .munmap _ | .fcntl _ | .ioctl _
    | .waitpid .. | .ptraceCont .. | .kill .. => isTrue trivial
  | .own (.closeInput _) => isTrue trivial
  | .othersOpen fd => inferInstanceAs (Decidable (Lowest fds fd))
  | .othersClose fd => inferInstanceAs (Decidable (fds fd = some .others))

/-- A close(in_fd) acts on the input file that this call opened and has not closed. -/
def Fds.closesInput (fds : Fds) : FdEvent → Prop
  | .own (.closeInput fd) => 0 ≤ fd ∧ fds fd.toNat = some .input
  | _ => True

instance Fds.closesInput.decidable (fds : Fds) : ∀ event, Decidable (fds.closesInput event)
  | .own (.call _) => isTrue trivial
  | .own (.closeInput fd) => inferInstanceAs (Decidable (0 ≤ fd ∧ fds fd.toNat = some .input))
  | .othersOpen _ => isTrue trivial
  | .othersClose _ => isTrue trivial

/-- An interleaving of the steps with calls of other threads that can happen. -/
structure Interleaved (fds : Fds) (steps : List ApiStep) (events : List FdEvent) : Prop where
  steps_eq : events.filterMap FdEvent.own? = steps
  allowed : Guarded Fds.step Fds.allows fds events

theorem Interleaved.split {fds : Fds} {xs ys : List ApiStep} {events : List FdEvent}
    (h : Interleaved fds (xs ++ ys) events) :
    ∃ before after, events = before ++ after ∧ Interleaved fds xs before ∧
      Interleaved (before.foldl Fds.step fds) ys after := by
  obtain ⟨before, after, rfl, hxs, hys⟩ := List.filterMap_eq_append_iff.mp h.steps_eq
  obtain ⟨hbefore, hafter⟩ := guarded_append.mp h.allowed
  exact ⟨before, after, rfl, ⟨hxs, hbefore⟩, ⟨hys, hafter⟩⟩

/-- The step that comes next, behind some calls of other threads. -/
theorem Interleaved.cons {fds : Fds} {step : ApiStep} {steps : List ApiStep}
    {events : List FdEvent} (h : Interleaved fds (step :: steps) events) :
    ∃ others after, events = others ++ .own step :: after ∧ Interleaved fds [] others ∧
      (others.foldl Fds.step fds).allows (.own step) ∧
      Interleaved ((others.foldl Fds.step fds).step (.own step)) steps after := by
  obtain ⟨others, event, after, rfl, hothers, hevent, hsteps⟩ :=
    List.filterMap_eq_cons_iff.mp h.steps_eq
  have hown : event = .own step := by
    cases event with
    | own step' =>
      cases hevent
      rfl
    | othersOpen fd => contradiction
    | othersClose fd => contradiction
  subst hown
  obtain ⟨hbefore, hallow, hafter⟩ := guarded_append.mp h.allowed
  exact ⟨others, after, rfl, ⟨List.filterMap_eq_nil_iff.mpr hothers, hbefore⟩, hallow,
    ⟨hsteps, hafter⟩⟩

theorem Fds.set_other {fds : Fds} {fd : ℤ} {holder : Option Holder} {n : ℕ} (h : fd.toNat ≠ n) :
    fds.set fd holder n = fds n := by
  unfold Fds.set
  split_ifs
  · exact Function.update_of_ne h.symm _ _
  · rfl

theorem Interleaved.keeps_input {fds : Fds} {others : List FdEvent} {n : ℕ}
    (h : Interleaved fds [] others) (hn : fds n = some .input) :
    others.foldl Fds.step fds n = some .input := by
  obtain ⟨hnone, hallowed⟩ := h
  induction others generalizing fds with
  | nil => exact hn
  | cons event others ih =>
    obtain ⟨hallow, hrest⟩ := hallowed
    rw [List.filterMap_eq_nil_iff] at hnone
    have hother := hnone event List.mem_cons_self
    have hlater := List.filterMap_eq_nil_iff.mpr fun e he => hnone e (List.mem_cons_of_mem _ he)
    refine ih ?_ hlater hrest
    cases event with
    | own step => contradiction
    | othersOpen fd =>
      have hne : (fd : ℤ).toNat ≠ n := by
        rintro rfl
        have hfree := hallow.2.1
        rw [hn] at hfree
        contradiction
      exact (Fds.set_other hne).trans hn
    | othersClose fd =>
      have hne : (fd : ℤ).toNat ≠ n := by
        rintro rfl
        rw [Int.toNat_natCast] at hn
        have hheld : fds fd = some .others := hallow
        rw [hn] at hheld
        contradiction
      exact (Fds.set_other hne).trans hn

theorem Interleaved.keeps_not_input {fds : Fds} {others : List FdEvent} {n : ℕ}
    (h : Interleaved fds [] others) (hn : fds n ≠ some .input) :
    others.foldl Fds.step fds n ≠ some .input := by
  obtain ⟨hnone, -⟩ := h
  induction others generalizing fds with
  | nil => exact hn
  | cons event others ih =>
    rw [List.filterMap_eq_nil_iff] at hnone
    have hother := hnone event List.mem_cons_self
    have hlater := List.filterMap_eq_nil_iff.mpr fun e he => hnone e (List.mem_cons_of_mem _ he)
    refine ih ?_ hlater
    have hset : ∀ (fd : ℕ) (holder : Option Holder), holder ≠ some .input →
        fds.set fd holder n ≠ some .input := by
      intro fd holder hholder
      unfold Fds.set
      rw [if_pos (Int.natCast_nonneg fd), Function.update_apply]
      split_ifs
      · exact hholder
      · exact hn
    cases event with
    | own step => contradiction
    | othersOpen fd => exact hset fd _ (by decide)
    | othersClose fd => exact hset fd _ (by decide)

theorem Interleaved.closes_none {fds : Fds} {steps : List ApiStep} {events : List FdEvent}
    (h : Interleaved fds steps events) (hsteps : ∀ fd, .closeInput fd ∉ steps) :
    Guarded Fds.step Fds.closesInput fds events := by
  obtain ⟨rfl, -⟩ := h
  induction events generalizing fds with
  | nil => trivial
  | cons event events ih =>
    refine ⟨?_, ih fun fd hfd => hsteps fd ?_⟩
    · cases event with
      | own step =>
        cases step with
        | call c => trivial
        | closeInput fd => exact absurd List.mem_cons_self (hsteps fd)
      | othersOpen fd => trivial
      | othersClose fd => trivial
    · obtain ⟨event', hmem, hown⟩ := List.mem_filterMap.mp hfd
      exact List.mem_filterMap.mpr ⟨event', List.mem_cons_of_mem _ hmem, hown⟩

theorem Fds.set_self {fds : Fds} {fd : ℤ} (h : 0 ≤ fd) (holder : Option Holder) :
    fds.set fd holder fd.toNat = holder := by
  unfold Fds.set
  rw [if_pos h, Function.update_self]

/-- The first close(in_fd) acts on the input file; behind it the number does not stand for the
input file any more, and it depends on the rest of the steps whether all do. -/
theorem Interleaved.first_close {fds : Fds} {fd : ℤ} {before rest : List ApiStep}
    {data : List UInt8} {written : ℤ} {events : List FdEvent} (hfd : fd ≠ -1)
    (hbefore : ∀ n, .closeInput n ∉ before)
    (h : Interleaved fds (before ++ .call (.openFile inputPath fd) ::
      .call (.writeFile fd data written) :: .closeInput fd :: rest) events) :
    ∃ fds' after, Interleaved fds' rest after ∧ fds' fd.toNat ≠ some .input ∧
      (Guarded Fds.step Fds.closesInput fds events ↔
        Guarded Fds.step Fds.closesInput fds' after) := by
  obtain ⟨before', tail, rfl, hstart, htail⟩ := h.split
  obtain ⟨others₁, tail₁, rfl, hothers₁, hallow, htail₁⟩ := htail.cons
  obtain ⟨others₂, tail₂, rfl, hothers₂, -, htail₂⟩ := htail₁.cons
  obtain ⟨others₃, tail₃, rfl, hothers₃, -, htail₃⟩ := htail₂.cons
  have hnonneg : 0 ≤ fd := (hallow.resolve_left hfd).1
  refine ⟨_, tail₃, htail₃, ?_, ?_⟩
  · intro hinput
    have hfree := (Fds.set_self hnonneg none).symm.trans hinput
    contradiction
  · have hopened := hothers₂.keeps_input (Fds.set_self hnonneg _)
    have hkept := hothers₃.keeps_input hopened
    have hnothing : ∀ {fds : Fds} {others : List FdEvent}, Interleaved fds [] others →
        Guarded Fds.step Fds.closesInput fds others :=
      fun hothers => hothers.closes_none fun _ => List.not_mem_nil
    simp only [guarded_append, Guarded, hstart.closes_none hbefore, hnothing hothers₁,
      hnothing hothers₂, hnothing hothers₃, true_and]
    constructor
    · rintro ⟨-, -, -, hafter⟩
      exact hafter
    · intro hafter
      exact ⟨trivial, trivial, ⟨hnonneg, hkept⟩, hafter⟩

theorem parentSteps_closes_none {data : List UInt8} {bts : Bool} {env : ApiEnv} {g : GblStatus}
    (h : ¬(env.init.typeFd ≠ -1 ∧ ¬env.init.readSize < 0 ∧ env.inputFd ≠ -1)) (fd : ℤ) :
    .closeInput fd ∉ parentSteps data bts env g := by
  unfold parentSteps
  rw [List.mem_append, not_or]
  refine ⟨by simp, ?_⟩
  by_cases htype : env.init.typeFd = -1
  · simp [htype]
  · by_cases hread : env.init.readSize < 0
    · simp [htype, hread]
    · have hinput : env.inputFd = -1 := not_not.mp fun hinput => h ⟨htype, hread, hinput⟩
      simp [htype, hread, hinput]

def initSteps (env : ApiEnv) (g : GblStatus) : List ApiStep :=
  (closeCalls g).map .call ++ [.call (.openFile btsTypePath env.init.typeFd),
    .call (.readFile env.init.typeFd env.init.readSize), .call (.close env.init.typeFd)]

theorem parentSteps_eq {data : List UInt8} {bts : Bool} {env : ApiEnv} {g : GblStatus}
    (htype : env.init.typeFd ≠ -1) (hread : ¬env.init.readSize < 0) (hinput : env.inputFd ≠ -1) :
    parentSteps data bts env g = initSteps env g ++ .call (.openFile inputPath env.inputFd) ::
      .call (.writeFile env.inputFd data env.written) :: .closeInput env.inputFd ::
        afterWrite bts env g := by
  unfold parentSteps initSteps
  rw [if_neg htype, if_neg hread, if_neg hinput, List.append_assoc]
  rfl

/-- Behind the first close(in_fd) all is well exactly when there is no second. -/
theorem afterWrite_closes_iff {bts : Bool} {env : ApiEnv} {g : GblStatus} {fds : Fds}
    {events : List FdEvent} (hfork : env.fork ≠ 0)
    (h : Interleaved fds (afterWrite bts env g) events)
    (hclosed : fds env.inputFd.toNat ≠ some .input) :
    Guarded Fds.step Fds.closesInput fds events ↔ ¬(env.written ≠ -1 ∧ env.fork > 0) := by
  by_cases hparent : env.written ≠ -1 ∧ env.fork > 0
  · refine iff_of_false ?_ (not_not.mpr hparent)
    obtain ⟨hwrite, hpos⟩ := hparent
    unfold afterWrite at h
    rw [if_neg hwrite, if_neg (by omega)] at h
    obtain ⟨others₁, tail₁, rfl, hothers₁, -, htail₁⟩ := h.cons
    obtain ⟨others₂, tail₂, rfl, hothers₂, -, -⟩ := htail₁.cons
    rw [guarded_append, Guarded, guarded_append, Guarded]
    rintro ⟨-, -, -, ⟨-, hinput⟩, -⟩
    exact hothers₂.keeps_not_input (hothers₁.keeps_not_input hclosed) hinput
  · refine iff_of_true (h.closes_none fun fd => ?_) hparent
    unfold afterWrite
    by_cases hwrite : env.written = -1
    · simp [hwrite]
    · have hneg : env.fork < 0 := by
        have hle : ¬env.fork > 0 := fun hpos => hparent ⟨hwrite, hpos⟩
        omega
      simp [hwrite, hneg]

/-- Each close(in_fd) of the parent acts on the input file that the call opened, exactly when
the call does not get as far as the parent's branch behind the fork, which closes it again. -/
theorem close_inFd_iff (data : List UInt8) (bts : Bool) {env : ApiEnv} (g : GblStatus) {fds : Fds}
    {events : List FdEvent} (hfork : env.fork ≠ 0)
    (h : Interleaved fds (parentSteps data bts env g) events) :
    Guarded Fds.step Fds.closesInput fds events ↔ ¬(ReachesFork env ∧ env.fork > 0) := by
  by_cases hopen : env.init.typeFd ≠ -1 ∧ ¬env.init.readSize < 0 ∧ env.inputFd ≠ -1
  · obtain ⟨htype, hread, hinput⟩ := hopen
    rw [parentSteps_eq htype hread hinput] at h
    have hinit : ∀ n, .closeInput n ∉ initSteps env g := fun n => by simp [initSteps]
    obtain ⟨fds', after, hafter, hclosed, hiff⟩ := h.first_close hinput hinit
    rw [hiff, afterWrite_closes_iff hfork hafter hclosed]
    unfold ReachesFork
    tauto
  · refine iff_of_true (h.closes_none (parentSteps_closes_none hopen)) fun hparent => hopen ?_
    obtain ⟨⟨htype, hread, hinput, -⟩, -⟩ := hparent
    exact ⟨htype, hread, hinput⟩

def forkFails : ApiEnv :=
  ⟨⟨3, 2⟩, 3, 2, -1, ⟨true, 4, some 1, some 2, [], 0, []⟩, ⟨0, 4, true, true, true⟩⟩

def sigactionFails : ApiEnv :=
  ⟨⟨3, 2⟩, 3, 2, 7, ⟨false, 4, some 1, some 2, [], 0, []⟩, ⟨0, 4, true, true, true⟩⟩

def stdFds : Fds := fun n => if n < 3 then some .caller else none

theorem close_inFd_forkFails : Interleaved stdFds (parentSteps [65, 66] true forkFails .init)
    ((parentSteps [65, 66] true forkFails .init).map .own) ∧
    (Guarded Fds.step Fds.closesInput stdFds
        ((parentSteps [65, 66] true forkFails .init).map .own) ↔
      ¬(ReachesFork forkFails ∧ forkFails.fork > 0)) := by
  have h : Interleaved stdFds (parentSteps [65, 66] true forkFails .init)
      ((parentSteps [65, 66] true forkFails .init).map .own) := ⟨by decide, by decide⟩
  exact ⟨h, close_inFd_iff [65, 66] true .init (by decide) h⟩

/-- The other thread's socket gets the number that the parent then closes again. -/
theorem close_inFd_steals :
    ∃ events, Interleaved stdFds (parentSteps [65, 66] true sigactionFails .init) events ∧
      ¬Guarded Fds.step Fds.closesInput stdFds events := by
  refine ⟨((parentSteps [65, 66] true sigactionFails .init).take 7).map .own ++ .othersOpen 3 ::
    ((parentSteps [65, 66] true sigactionFails .init).drop 7).map .own, ⟨?_, ?_⟩, ?_⟩ <;> decide

end FuzzMonitor.Perf
