import FuzzMonitor.FreeHashtable
import FuzzMonitor.SeenInputs
import FuzzMonitor.WaitCreation

namespace FuzzMonitor.MonitorLoop
open CStrings Inotify Branches Perf Runs

inductive IterInit
  | seenInputs (size : ℕ)
  | branchHits (size : ℕ)
  deriving DecidableEq, Repr

def IterInit.size : IterInit → ℕ
  | .seenInputs size => size
  | .branchHits size => size

/-- What the world decides in one run: the answer of inotify_init1, the steps of the first
loop of monitor_loop, the passes of the second, and the calls of free_hashtable. -/
structure RunEnv where
  inotifyInit : Bool
  corpusExists : Bool
  acts : List Action
  passes : List PassEnv
  free : FreeEnv

def RunEnv.setUp (env : RunEnv) (path : CText) : SetUp :=
  env.acts.foldl (step path) (.start env.corpusExists)

def SetUp.enter (s : SetUp) (m : Monitor) (g : GblStatus) (heap : ℕ) : LoopState :=
  { LoopState.enter m g heap s.queue with keepRunning := s.keepRunning }

def SetUp.conf (s : SetUp) (sut : List CText) (path : CText) : LoopConf := ⟨sut, path, s.watchD⟩

/-- The end of monitor_loop, which goes over seen_inputs_table without a test of its size. -/
def loopTail (s : LoopState) : Option (List IterInit × BranchHits) :=
  match s.stop with
  | some (.returned _) => some ([.seenInputs s.seen.table.entries.length], s.monitor.branchHits)
  | _ => none

/-- monitor_loop: the calls of hashtable_iter_init that it makes and the branch_hits that it
leaves behind, or none if it does not return. -/
def monitorLoop (sut : List CText) (path : CText) (m : Monitor) (g : GblStatus) (heap : ℕ)
    (env : RunEnv) : Option (List IterInit × BranchHits) :=
  if !env.inotifyInit then some ([], m.branchHits)
  else
    let s := env.setUp path
    match s.phase with
    -- returns at once, and leaves the table as it is
    | .failed => some ([], m.branchHits)
    | .watching => loopTail (env.passes.foldl (pass (s.conf sut path)) (s.enter m g heap))
    | .interrupted => loopTail (env.passes.foldl (pass (s.conf sut path)) (s.enter m g heap))
    | .addWatch | .addParent | .reading | .removing => none

def freeIterInits (env : FreeEnv) (table : BranchHits) (graphFilename : Option CText) :
    List IterInit :=
  if graphFilename.isSome ∧ ¬(env.fopen ∧ (Graph.graphNew env.graphNew).1 = .ok) then []
  else if table.entries.length = 0 then []
  else [.branchHits table.entries.length]

def mainInits (env : FreeEnv) (graphFilename : Option CText) :
    Option (List IterInit × BranchHits) → List IterInit
  | none => []
  | some (inits, table) => inits ++ freeIterInits env table graphFilename

def iterInits (sut : List CText) (path : CText) (graphFilename : Option CText) (m : Monitor)
    (g : GblStatus) (heap : ℕ) (env : RunEnv) : List IterInit :=
  mainInits env.free graphFilename (monitorLoop sut path m g heap env)

theorem freeIterInits_pos (env : FreeEnv) (table : BranchHits) (graphFilename : Option CText) :
    ∀ init ∈ freeIterInits env table graphFilename, 0 < init.size := by
  intro init hinit
  unfold freeIterInits at hinit
  split_ifs at hinit with hopened hempty
  · exact absurd hinit List.not_mem_nil
  · exact absurd hinit List.not_mem_nil
  · rw [List.mem_singleton.mp hinit]
    exact Nat.pos_of_ne_zero hempty

/-- Where the end of monitor_loop is reached, the table is not empty. -/
def Filled (s : LoopState) : Prop :=
  ∀ ret, s.stop = some (.returned ret) → 0 < s.seen.table.entries.length

/-- The second loop is not left in this pass before an input is counted. -/
def StaysUntilInput (conf : LoopConf) (s : LoopState) (env : PassEnv) : Prop :=
  s.inputs = [] → s.stop = none →
    Receives s env ∧ ∀ stop, (receive conf env (arrive s env)).1 ≠ .stopped stop

theorem receive_stopped {conf : LoopConf} {env : PassEnv} {s : LoopState} {stop : LoopEnd}
    (h : (receive conf env s).1 = .stopped stop) : ∃ ret, stop = .returned ret := by
  unfold receive at h
  cases hzmq : env.zmq with
  | message msg =>
    rw [hzmq] at h
    cases h
  | again =>
    rw [hzmq] at h
    unfold receiveCorpus at h
    generalize (if env.inotifyFails then (ReadAnswer.failed, s.queue)
      else readQueue inEventSize s.queue) = read at h
    dsimp only at h
    split_ifs at h
    · cases h
      exact ⟨_, rfl⟩
  | failed =>
    rw [hzmq] at h
    dsimp only at h
    split at h
    · cases h
      exact ⟨_, rfl⟩
    · cases h
      exact ⟨_, rfl⟩

theorem Counts.size_pos {c : Counting} {s s' : SeenInputs} (h : Counts s c s') :
    0 < s'.table.entries.length := by
  obtain ⟨e, he⟩ := h.lookup_isSome
  exact List.length_pos_of_mem (AList.mem_lookup_iff.mp he)

theorem SeenFrom.size_pos_iff {s : LoopState} (hs : SeenFrom s) (hgo : s.stop = none) :
    0 < s.seen.table.entries.length ↔ s.inputs ≠ [] := by
  obtain ⟨cs, hrun, -, hall⟩ := hs
  have hsize : 0 < s.seen.table.entries.length ↔ cs ≠ [] := by
    apply hrun.history (J := fun s cs => 0 < s.table.entries.length ↔ cs ≠ [])
    · exact iff_of_false (lt_irrefl 0) fun hne => hne rfl
    · intro s cs c s' _ hcount
      exact iff_of_true hcount.size_pos (List.concat_ne_nil c cs)
  have hinputs : cs = [] ↔ s.inputs = [] := by
    rw [← List.map_eq_nil_iff, hall hgo, List.map_eq_nil_iff]
  rw [hsize, ne_eq, hinputs]

theorem left_filled_iff {conf : LoopConf} {env : PassEnv} {s s' : LoopState} {ret : ℤ}
    (hs : SeenFrom s) (hgo : s.stop = none) (hseen : s'.seen = s.seen)
    (hstop : s'.stop = some (.returned ret))
    (hleaves : ¬(Receives s env ∧ ∀ stop, (receive conf env (arrive s env)).1 ≠ .stopped stop)) :
    Filled s' ↔ StaysUntilInput conf s env := by
  have hfilled : Filled s' ↔ s.inputs ≠ [] := by
    rw [← hs.size_pos_iff hgo, ← hseen]
    exact ⟨fun h => h ret hstop, fun h _ _ => h⟩
  rw [hfilled]
  constructor
  · intro hne hnone
    exact absurd hnone hne
  · intro hstays hnone
    exact hleaves (hstays hnone hgo)

/-- An input is counted before anything can break the loop. -/
theorem handleInput_filled (conf : LoopConf) (env : PassEnv) (i : Input) (s : LoopState) :
    Filled (handleInput conf env i s) := by
  intro ret hret
  unfold handleInput at hret ⊢
  dsimp only at hret ⊢
  split at hret
  · cases hret
  · split at hret
    · cases hret
    · next seen hseen =>
      obtain ⟨gbl, monitor, heap, outcomes, stop, h⟩ :=
        monitorInput_frame conf env i { s with inputs := s.inputs ++ [i], seen := seen }
      rw [h]
      exact Counts.size_pos (c := ⟨env.seen, _, s.seen.heap⟩) ⟨rfl, hseen⟩

/-- A pass that leaves the loop leaves it with a table that is not empty, exactly when no pass
leaves it before the first input. -/
theorem pass_filled_iff (conf : LoopConf) (s : LoopState) (env : PassEnv) (hs : SeenFrom s)
    (hfilled : Filled s) : Filled (pass conf s env) ↔ StaysUntilInput conf s env := by
  by_cases hgo : Receives s env
  · have hrun : s.stop = none := hgo.1
    rw [pass_of_receives conf hgo]
    obtain ⟨keepRunning, queue, taken, opened, hframe⟩ := receive_frame conf env (arrive s env)
    cases hreceive : receive conf env (arrive s env) with
    | mk receipt s₁ =>
      rw [hreceive] at hframe
      dsimp only at hframe
      have hreceipt : (receive conf env (arrive s env)).1 = receipt := congrArg Prod.fst hreceive
      cases receipt with
      | stopped stop =>
        obtain ⟨ret, rfl⟩ := receive_stopped hreceipt
        have hseen : s₁.seen = s.seen := by rw [hframe]; rfl
        exact left_filled_iff hs hrun hseen rfl fun h => h.2 _ hreceipt
      | nothing =>
        have hgo₁ : s₁.stop = none := by rw [hframe]; exact hrun
        refine iff_of_true ?_ fun _ _ => ⟨hgo, fun _ => by rw [hreceipt]; exact nofun⟩
        intro ret hret
        rw [hgo₁] at hret
        contradiction
      | input i =>
        exact iff_of_true (handleInput_filled conf env i s₁)
          fun _ _ => ⟨hgo, fun _ => by rw [hreceipt]; exact nofun⟩
  · unfold pass
    dsimp only
    split_ifs with hstop
    · refine iff_of_true hfilled fun _ hnone => ?_
      rw [hnone] at hstop
      contradiction
    · have hrun : s.stop = none := by simpa using hstop
      have hleft : (s.keepRunning && !env.sigint) = false := by
        by_contra hkeep
        rw [Bool.not_eq_false, Bool.and_eq_true, Bool.not_eq_true'] at hkeep
        exact hgo ⟨hrun, hkeep⟩
      unfold runPass
      dsimp only
      rw [hleft]
      exact left_filled_iff hs hrun rfl rfl fun h => hgo h.1

theorem stopped_stays (conf : LoopConf) {s : LoopState} (envs : List PassEnv)
    (hstop : s.stop.isSome) :
    (envs.foldl (pass conf) s).stop = s.stop ∧ (envs.foldl (pass conf) s).seen = s.seen := by
  apply foldl_keeps (I := fun s' : LoopState => s'.stop = s.stop ∧ s'.seen = s.seen)
  · rintro s' env - ⟨hsame, hseen⟩
    unfold pass
    dsimp only
    rw [if_pos (by rwa [hsame])]
    exact ⟨hsame, hseen⟩
  · exact ⟨rfl, rfl⟩

/-- A run of the second loop leaves it with a table that is not empty exactly when no pass
leaves it before the first input. -/
theorem loop_filled_iff (conf : LoopConf) {s : LoopState} (envs : List PassEnv) (hs : SeenFrom s)
    (hgo : s.stop = none) :
    Filled (envs.foldl (pass conf) s) ↔ Guarded (pass conf) (StaysUntilInput conf) s envs := by
  have hfilled : Filled s := by
    intro ret hret
    rw [hgo] at hret
    contradiction
  rw [← always_iff_guarded (I := Filled) (J := SeenFrom) (K := fun _ => True)
    (fun s env hs _ => pass_seenFrom conf env hs)
    (fun s env hs _ hfilled => pass_filled_iff conf s env hs hfilled) hs hfilled fun _ _ => trivial]
  constructor
  · rintro hend xs ⟨ys, rfl⟩ ret hret
    obtain ⟨hstop, hseen⟩ := stopped_stays conf ys (by rw [hret]; rfl)
    rw [List.foldl_append] at hend
    rw [← hseen]
    exact hend ret (hstop.trans hret)
  · intro hall
    exact hall envs List.prefix_rfl

theorem mainInits_early_pos (env : FreeEnv) (graphFilename : Option CText) (table : BranchHits) :
    ∀ init ∈ mainInits env graphFilename (some ([], table)), 0 < init.size :=
  freeIterInits_pos env table graphFilename

theorem mainInits_loopTail_pos_iff (env : FreeEnv) (graphFilename : Option CText)
    (s : LoopState) :
    (∀ init ∈ mainInits env graphFilename (loopTail s), 0 < init.size) ↔ Filled s := by
  unfold loopTail Filled
  split
  · next ret hstop =>
    rw [hstop]
    unfold mainInits
    constructor
    · intro hall _ _
      exact hall (.seenInputs _) (List.mem_append_left _ (List.mem_singleton_self _))
    · intro hfilled init hinit
      rcases List.mem_append.mp hinit with hinit | hinit
      · rw [List.mem_singleton.mp hinit]
        exact hfilled ret rfl
      · exact freeIterInits_pos env _ graphFilename init hinit
  · next hstop =>
    refine iff_of_true (fun init hinit => absurd hinit List.not_mem_nil) fun ret hret => ?_
    exact absurd hret (hstop ret)

/-- In a run of the monitor no empty table is iterated, exactly when the second loop is not
left before an input is counted: branch_hits never is, and seen_inputs_table only then. -/
theorem iterInits_pos_iff (sut : List CText) (path : CText) (graphFilename : Option CText)
    (m : Monitor) (g : GblStatus) (heap : ℕ) (env : RunEnv) :
    (∀ init ∈ iterInits sut path graphFilename m g heap env, 0 < init.size) ↔
      (env.inotifyInit = true →
        (env.setUp path).phase = .watching ∨ (env.setUp path).phase = .interrupted →
        Guarded (pass ((env.setUp path).conf sut path))
          (StaysUntilInput ((env.setUp path).conf sut path))
          ((env.setUp path).enter m g heap) env.passes) := by
  have hloop := mainInits_loopTail_pos_iff env.free graphFilename
    (env.passes.foldl (pass ((env.setUp path).conf sut path)) ((env.setUp path).enter m g heap))
  rw [loop_filled_iff _ env.passes ⟨[], .nil _, List.nil_prefix, fun _ => rfl⟩ rfl] at hloop
  have hearly := mainInits_early_pos env.free graphFilename m.branchHits
  have hnone : ∀ init ∈ mainInits env.free graphFilename none, 0 < init.size :=
    fun _ hinit => absurd hinit List.not_mem_nil
  unfold iterInits monitorLoop
  cases hinit : env.inotifyInit with
  | false => exact iff_of_true hearly fun h => Bool.noConfusion h
  | true =>
    simp only [Bool.not_true, Bool.false_eq_true, if_false, true_imp_iff]
    cases hphase : (env.setUp path).phase with
    | watching => simpa using hloop
    | interrupted => simpa using hloop
    | failed => exact iff_of_true hearly (by simp)
    | addWatch => exact iff_of_true hnone (by simp)
    | addParent => exact iff_of_true hnone (by simp)
    | reading => exact iff_of_true hnone (by simp)
    | removing => exact iff_of_true hnone (by simp)

def interruptedRun : RunEnv :=
  ⟨true, true, [.monitor ⟨true, false, true⟩],
    [{ PassEnv.quiet .again [] with sigint := true }], .succeed⟩

theorem iterInits_empty :
    ¬∀ init ∈ iterInits ["./sut".toList] "corpus".toList none ⟨∅, none, [], none, 0⟩ .init 0
      interruptedRun, 0 < init.size := by
  decide

end FuzzMonitor.MonitorLoop
