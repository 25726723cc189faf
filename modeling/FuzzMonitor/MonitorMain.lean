import FuzzMonitor.ElfFile
import FuzzMonitor.LoopCoverage
import FuzzMonitor.LoopReturn
import FuzzMonitor.Options

namespace FuzzMonitor.Main
open CStrings Inotify Branches Perf MonitorLoop

/-- What the world decides in a run of main: whether its allocations and its ZeroMQ calls succeed,
the files that section_find opens with what malloc leaves in the bounds, the script, and what
monitor_loop and free_hashtable find. emptyIter tells whether Collections-C survives the iteration
of an empty table. -/
structure MainEnv where
  posixlyCorrect : Bool
  monitorAlloc : Bool
  boundsAlloc : Bool
  boundsFresh : SectionBounds
  elfEnv : Elf.FileEnv
  elf : CText → List UInt8
  find : BasicBlocks.FindEnv
  zmqCtxNew : Bool
  zmqSocket : Bool
  zmqBind : Bool
  hashtableNew : Bool
  seenTableNew : Bool
  emptyIter : Bool
  loop : RunEnv

/-- How main ends; overread is a read behind the bytes of an input. -/
inductive MainEnd
  | exits (status : ℤ)
  | died
  | overread
  | running
  deriving DecidableEq, Repr

/-- A run of main: its end, whether it printed the usage, the state in which monitor_loop left its
second loop, and what free_hashtable left behind. -/
structure MainRun where
  ending : MainEnd
  usage : Bool
  loop : Option MonitorLoop.LoopState
  graph : Option FreeOutcome

def MainRun.early (ending : MainEnd) : MainRun := ⟨ending, false, none, none⟩

def findBounds (env : MainEnv) (bin : CText) : Option CText → Except MainEnd (Option SectionBounds)
  | none => .ok none
  | some secName =>
    if !env.boundsAlloc then .error .died
    else
      match Elf.sectionFind env.elfEnv (env.elf bin) secName env.boundsFresh with
      | .ok (secSize, bounds) =>
        if secSize ≤ 0 then .error (.exits exitFailure) else .ok (some bounds)
      | .error (.returned secSize) =>
        if secSize ≤ 0 then .error (.exits exitFailure) else .ok (some env.boundsFresh)
      | .error _ => .error .died

def setUpMonitor (env : MainEnv) (o : Options) (bin script : CText) : Except MainEnd Monitor := do
  let secBounds ← findBounds env bin o.secName
  match BasicBlocks.basicBlocksFind env.find script bin with
  | .error _ => .error .died
  -- bbs_n is a size_t, and never below 0
  | .ok (bbs, bbsN) => .ok ⟨∅, secBounds, bbs.take bbsN, o.graphIndivPath, 0⟩

def failedLoop (m : Monitor) : MonitorLoop.LoopState :=
  { MonitorLoop.LoopState.enter m .init 0 [] with stop := some (.returned exitFailure) }

def runLoop (sut : List CText) (path : CText) (m : Monitor) (env : RunEnv) :
    MonitorLoop.LoopState :=
  if !env.inotifyInit then failedLoop m
  else
    let s := env.setUp path
    match s.phase with
    | .failed => failedLoop m
    | .watching | .interrupted =>
      env.passes.foldl (pass (s.conf sut path)) (s.enter m .init 0)
    | .addWatch | .addParent | .reading | .removing => .enter m .init 0 []

/-- The tail of monitor_loop is reached from its second loop, with the table of that loop. -/
def tailFails (env : MainEnv) (path : CText) (s : MonitorLoop.LoopState) : Bool :=
  env.loop.inotifyInit && (env.loop.setUp path).phase ≠ .failed && !env.emptyIter &&
    s.seen.table.entries.length = 0

/-- The call of free_hashtable, and the end of main; order gives the entries of a table in the
order of its iterator. -/
def finishMain (env : MainEnv) (order : BranchHits → List (CText × HitEntry)) (o : Options)
    (ret : ℤ) (s : MonitorLoop.LoopState) : MainRun :=
  let out := freeHashtable env.loop.free (order s.monitor.branchHits) o.graphFilename s.heap
  match out.stop with
  | .returned => ⟨.exits ret, false, some s, some out⟩
  | .exitFailure => ⟨.exits exitFailure, false, some s, some out⟩
  | .died => ⟨.died, false, some s, some out⟩

def monitorMain (env : MainEnv) (order : BranchHits → List (CText × HitEntry)) (o : Options)
    (sut : List CText) (path : CText) (m : Monitor) : MainRun :=
  let s := runLoop sut path m env.loop
  match s.stop with
  | none => ⟨.running, false, some s, none⟩
  | some .stuck => ⟨.running, false, some s, none⟩
  | some .died => ⟨.died, false, some s, none⟩
  | some .overread => ⟨.overread, false, some s, none⟩
  | some (.returned ret) =>
    if tailFails env path s then ⟨.died, false, some s, none⟩ else finishMain env order o ret s

def startMain (env : MainEnv) (order : BranchHits → List (CText × HitEntry)) (o : Options)
    (bin : CText) (sut : List CText) (script path : CText) : MainRun :=
  match setUpMonitor env o bin script with
  | .error ending => .early ending
  | .ok m =>
    if !env.zmqCtxNew || !env.zmqSocket || !env.zmqBind then .early (.exits exitFailure)
    else if !env.hashtableNew then .early (.exits exitFailure)
    else if !env.seenTableNew then .early .died
    else monitorMain env order o sut path m

def mainRun (env : MainEnv) (order : BranchHits → List (CText × HitEntry)) (args : List CText) :
    MainRun :=
  if !env.monitorAlloc then .early .died
  else
    match readOptions env.posixlyCorrect args with
    | (o, bin :: rest) =>
      match o.basicBlockScript, o.fuzzCorpusPath with
      | some script, some path => startMain env order o bin (bin :: rest) script path
      | _, _ => ⟨.exits exitFailure, true, none, none⟩
    | (_, []) => ⟨.exits exitFailure, true, none, none⟩

theorem findBounds_error {env : MainEnv} {bin : CText} {secName : Option CText} {ending : MainEnd}
    (h : findBounds env bin secName = .error ending) :
    ending = .died ∨ ending = .exits exitFailure := by
  unfold findBounds at h
  split at h
  · cases h
  · split_ifs at h
    · exact .inl (Except.error.inj h).symm
    · split at h
      · split_ifs at h
        exact .inr (Except.error.inj h).symm
      · split_ifs at h
        exact .inr (Except.error.inj h).symm
      · exact .inl (Except.error.inj h).symm

theorem setUpMonitor_cases (env : MainEnv) (o : Options) (bin script : CText) :
    (∃ ending, (ending = .died ∨ ending = .exits exitFailure) ∧
      setUpMonitor env o bin script = .error ending) ∨
    ∃ m, setUpMonitor env o bin script = .ok m ∧ m.branchHits = ∅ ∧ m.inputN = 0 ∧
      m.graphIndivPath = o.graphIndivPath := by
  unfold setUpMonitor
  cases hbounds : findBounds env bin o.secName with
  | error ending => exact .inl ⟨ending, findBounds_error hbounds, rfl⟩
  | ok secBounds =>
    cases hfind : BasicBlocks.basicBlocksFind env.find script bin with
    | error fault => exact .inl ⟨.died, .inl rfl, by simp [bind, Except.bind]⟩
    | ok bbs => exact .inr ⟨_, by simp [bind, Except.bind]; rfl, rfl, rfl, rfl⟩

theorem startMain_cases (env : MainEnv) (order : BranchHits → List (CText × HitEntry)) (o : Options)
    (bin : CText) (sut : List CText) (script path : CText) :
    (∃ ending, (ending = .died ∨ ending = .exits exitFailure) ∧
      startMain env order o bin sut script path = .early ending) ∨
    ∃ m, setUpMonitor env o bin script = .ok m ∧ m.branchHits = ∅ ∧
      startMain env order o bin sut script path = monitorMain env order o sut path m := by
  unfold startMain
  rcases setUpMonitor_cases env o bin script with ⟨ending, hending, hset⟩ | ⟨m, hset, hempty, -⟩
  · rw [hset]
    exact .inl ⟨ending, hending, rfl⟩
  · rw [hset]
    dsimp only
    split_ifs
    · exact .inl ⟨_, .inr rfl, rfl⟩
    · exact .inl ⟨_, .inr rfl, rfl⟩
    · exact .inl ⟨_, .inl rfl, rfl⟩
    · exact .inr ⟨m, rfl, hempty, rfl⟩

/-- Where main comes to monitor_loop, its command line was complete and its set-up succeeded. -/
theorem mainRun_cases (env : MainEnv) (order : BranchHits → List (CText × HitEntry))
    (args : List CText) :
    (∃ ending usage, (ending = .died ∨ ending = .exits exitFailure) ∧
      mainRun env order args = ⟨ending, usage, none, none⟩) ∨
    ∃ o bin rest script path m, readOptions env.posixlyCorrect args = (o, bin :: rest) ∧
      o.basicBlockScript = some script ∧ o.fuzzCorpusPath = some path ∧
      setUpMonitor env o bin script = .ok m ∧ m.branchHits = ∅ ∧
      mainRun env order args = monitorMain env order o (bin :: rest) path m := by
  unfold mainRun
  cases env.monitorAlloc with
  | false => exact .inl ⟨.died, false, .inl rfl, rfl⟩
  | true =>
    cases hread : readOptions env.posixlyCorrect args with
    | mk o sut =>
      cases sut with
      | nil => exact .inl ⟨.exits exitFailure, true, .inr rfl, rfl⟩
      | cons bin rest =>
        cases hscript : o.basicBlockScript with
        | none => exact .inl ⟨.exits exitFailure, true, .inr rfl, by simp [hscript]⟩
        | some script =>
          cases hpath : o.fuzzCorpusPath with
          | none => exact .inl ⟨.exits exitFailure, true, .inr rfl, by simp [hscript, hpath]⟩
          | some path =>
            simp only [hscript, hpath, Bool.not_true, Bool.false_eq_true, if_false]
            rcases startMain_cases env order o bin (bin :: rest) script path with
              ⟨ending, hending, hstart⟩ | ⟨m, hset, hempty, hstart⟩
            · exact .inl ⟨ending, false, hending, hstart⟩
            · exact .inr ⟨o, bin, rest, script, path, m, rfl, hscript, hpath, hset, hempty, hstart⟩

/-- The second loop of monitor_loop makes the calls of its inputs, in every run. -/
theorem runLoop_makesCalls (sut : List CText) (path : CText) (m : Monitor) (env : RunEnv) :
    ∃ s₀ handled, s₀.monitor = m ∧ (handled.map Handled.env).Sublist env.passes ∧
      MakesCalls ((env.setUp path).conf sut path) s₀ handled (runLoop sut path m env) := by
  have hnone : ∀ s : MonitorLoop.LoopState, s.monitor = m → s.outcomes = [] →
      ∃ s₀ handled, s₀.monitor = m ∧ (handled.map Handled.env).Sublist env.passes ∧
        MakesCalls ((env.setUp path).conf sut path) s₀ handled s :=
    fun s hm hs => ⟨s, [], hm, List.nil_sublist _, .start _ hs⟩
  unfold runLoop
  cases env.inotifyInit with
  | false => exact hnone (failedLoop m) rfl rfl
  | true =>
    have hloop := loop_makesCalls ((env.setUp path).conf sut path)
      (s := (env.setUp path).enter m .init 0) rfl env.passes
    obtain ⟨handled, hsub, hcalls⟩ := hloop
    simp only [Bool.not_true, Bool.false_eq_true, if_false]
    cases (env.setUp path).phase with
    | failed => exact hnone (failedLoop m) rfl rfl
    | watching => exact ⟨_, handled, rfl, hsub, hcalls⟩
    | interrupted => exact ⟨_, handled, rfl, hsub, hcalls⟩
    | addWatch => exact hnone (.enter m .init 0 []) rfl rfl
    | addParent => exact hnone (.enter m .init 0 []) rfl rfl
    | reading => exact hnone (.enter m .init 0 []) rfl rfl
    | removing => exact hnone (.enter m .init 0 []) rfl rfl

/-- monitor_loop as main calls it leaves behind what its second loop left, if that returns. -/
theorem monitorLoop_runLoop (sut : List CText) (path : CText) (m : Monitor) (env : RunEnv) :
    (monitorLoop sut path m .init 0 env).map Prod.snd =
      match (runLoop sut path m env).stop with
      | some (.returned _) => some (runLoop sut path m env).monitor.branchHits
      | _ => none := by
  have htail : ∀ s : MonitorLoop.LoopState, (loopTail s).map Prod.snd =
      match s.stop with
      | some (.returned _) => some s.monitor.branchHits
      | _ => none := by
    intro s
    unfold loopTail
    split <;> simp_all
  unfold monitorLoop runLoop
  cases env.inotifyInit with
  | false => rfl
  | true =>
    simp only [Bool.not_true, Bool.false_eq_true, if_false]
    cases (env.setUp path).phase with
    | failed => rfl
    | watching => exact htail _
    | interrupted => exact htail _
    | addWatch => rfl
    | addParent => rfl
    | reading => rfl
    | removing => rfl

theorem step_keepRunning (path : CText) (s : SetUp) (a : Action) :
    (step path s a).keepRunning = s.keepRunning ∨ a = .interrupt := by
  cases a with
  | monitor env =>
    left
    have hmove : Moves path env s (step path s (.monitor env)) := monitorStep_moves path env s
    generalize step path s (.monitor env) = s' at hmove
    cases hmove with
    | wait hphase =>
      rcases waitStep_cases path env s with ⟨-, h⟩ | ⟨-, h⟩ | ⟨first, others, queue, -, -, h⟩
      · rw [h]
      · rw [h]
      · rw [h]
    | leave p hleft => rfl
    | watch hphase => rfl
    | absent hphase hexists => rfl
    | watchParent hphase => rfl
    | remove hphase => rfl
    | stay hphase => rfl
  | createCorpus =>
    left
    unfold step
    dsimp only
    split_ifs <;> rfl
  | createOther name =>
    left
    unfold step
    dsimp only
    split_ifs <;> rfl
  | interrupt => exact .inr rfl

theorem setUp_keepRunning (path : CText) {s : SetUp} (acts : List Action)
    (hrun : s.keepRunning = true) (hend : (acts.foldl (step path) s).keepRunning = false) :
    .interrupt ∈ acts := by
  induction acts generalizing s with
  | nil => exact Bool.noConfusion (hrun.symm.trans hend)
  | cons a acts ih =>
    rcases step_keepRunning path s a with h | rfl
    · exact List.mem_cons_of_mem _ (ih (h.trans hrun) hend)
    · exact List.mem_cons_self

def Interrupted (env : RunEnv) : Prop :=
  .interrupt ∈ env.acts ∨ ∃ p ∈ env.passes, p.interrupts = true

/-- monitor_loop returns EXIT_FAILURE, or EXIT_SUCCESS after SIGINT. -/
theorem runLoop_returns {sut : List CText} {path : CText} {m : Monitor} {env : RunEnv} {ret : ℤ}
    (h : (runLoop sut path m env).stop = some (.returned ret)) :
    (ret = exitSuccess ∧ Interrupted env) ∨ ret = exitFailure := by
  have hfailed : (failedLoop m).stop = some (.returned ret) → ret = exitFailure :=
    fun h => (LoopEnd.returned.inj (Option.some.inj h)).symm
  have hpasses : (env.passes.foldl (pass ((env.setUp path).conf sut path))
      ((env.setUp path).enter m .init 0)).stop = some (.returned ret) →
      (ret = exitSuccess ∧ Interrupted env) ∨ ret = exitFailure := by
    intro hstop
    have hentered : ReturnsWell ((env.setUp path).enter m .init 0) := fun ret hret => nomatch hret
    obtain ⟨hwell, hsig⟩ := loop_returnsWell ((env.setUp path).conf sut path) env.passes hentered
    rcases hwell ret hstop with ⟨rfl, hcleared⟩ | ⟨hfail, -⟩
    · refine .inl ⟨rfl, ?_⟩
      -- keep_running was cleared in the second loop, or in the first one
      cases hset : (env.setUp path).keepRunning with
      | true => exact .inr (hsig hset hcleared)
      | false => exact .inl (setUp_keepRunning path env.acts rfl hset)
    · exact .inr hfail
  -- the other phases of the first loop have not left it, and nothing is returned
  unfold runLoop at h
  cases hinit : env.inotifyInit with
  | false =>
    rw [hinit] at h
    exact .inr (hfailed h)
  | true =>
    rw [hinit] at h
    simp only [Bool.not_true, Bool.false_eq_true, if_false] at h
    split at h
    · exact .inr (hfailed h)
    · exact hpasses h
    · exact hpasses h
    · cases h
    · cases h
    · cases h
    · cases h

theorem monitorMain_exits {env : MainEnv} {order : BranchHits → List (CText × HitEntry)}
    {o : Options} {sut : List CText} {path : CText} {m : Monitor} {status : ℤ}
    (h : (monitorMain env order o sut path m).ending = .exits status) :
    ∃ ret out, (runLoop sut path m env.loop).stop = some (.returned ret) ∧
      out = freeHashtable env.loop.free (order (runLoop sut path m env.loop).monitor.branchHits)
        o.graphFilename (runLoop sut path m env.loop).heap ∧
      (monitorMain env order o sut path m).graph = some out ∧
      (monitorMain env order o sut path m).loop = some (runLoop sut path m env.loop) ∧
      ((out.stop = .returned ∧ status = ret) ∨ status = exitFailure) := by
  unfold monitorMain at h ⊢
  dsimp only at h ⊢
  cases hstop : (runLoop sut path m env.loop).stop with
  | none =>
    rw [hstop] at h
    cases h
  | some stop =>
    rw [hstop] at h
    cases stop with
    | stuck => cases h
    | died => cases h
    | overread => cases h
    | returned ret =>
      dsimp only at h ⊢
      split_ifs at h ⊢
      unfold finishMain at h ⊢
      dsimp only at h ⊢
      refine ⟨ret, _, rfl, rfl, ?_⟩
      split at h
      · next hfree => exact ⟨rfl, rfl, .inl ⟨hfree, (MainEnd.exits.inj h).symm⟩⟩
      · exact ⟨rfl, rfl, .inr (MainEnd.exits.inj h).symm⟩
      · cases h

end FuzzMonitor.Main
