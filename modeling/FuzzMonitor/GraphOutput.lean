import FuzzMonitor.MonitorMain

namespace FuzzMonitor.Main
open CStrings Inotify Branches Perf MonitorLoop

/-- main calls monitor_loop for the command and the corpus of its options, with the monitor that it
has set up. -/
structure Entered (env : MainEnv) (args sut : List CText) (path : CText) (m : Monitor) : Prop where
  command : (readOptions env.posixlyCorrect args).2 = sut
  corpus : (readOptions env.posixlyCorrect args).1.fuzzCorpusPath = some path
  monitor : ∃ bin script, sut.head? = some bin ∧
    (readOptions env.posixlyCorrect args).1.basicBlockScript = some script ∧
    setUpMonitor env (readOptions env.posixlyCorrect args).1 bin script = .ok m

/-- A run of main that leaves monitor_loop and exits: the state behind its second loop, the calls
made in it, and the call of free_hashtable. -/
theorem mainRun_exits {env : MainEnv} {order : BranchHits → List (CText × HitEntry)}
    {args : List CText} {status : ℤ} {s : MonitorLoop.LoopState}
    (hloop : (mainRun env order args).loop = some s)
    (hend : (mainRun env order args).ending = .exits status) :
    ∃ sut path m s₀ handled ret out, Entered env args sut path m ∧ m.branchHits = ∅ ∧
      s₀.monitor = m ∧ (handled.map Handled.env).Sublist env.loop.passes ∧
      MakesCalls ((env.loop.setUp path).conf sut path) s₀ handled s ∧
      s = runLoop sut path m env.loop ∧ s.stop = some (.returned ret) ∧
      out = freeHashtable env.loop.free (order s.monitor.branchHits)
        (readOptions env.posixlyCorrect args).1.graphFilename s.heap ∧
      (mainRun env order args).graph = some out ∧
      ((out.stop = .returned ∧ status = ret) ∨ status = exitFailure) := by
  rcases mainRun_cases env order args with ⟨ending, usage, -, hrun⟩ |
    ⟨o, bin, rest, script, path, m, hread, hscript, hpath, hset, hempty, hrun⟩
  · rw [hrun] at hloop
    cases hloop
  · have hentered : Entered env args (bin :: rest) path m := by
      refine ⟨?_, ?_, bin, script, rfl, ?_, ?_⟩
      all_goals rw [hread]
      · exact hpath
      · exact hscript
      · exact hset
    rw [hrun] at hloop hend ⊢
    obtain ⟨ret, out, hstop, hout, hgraph, hs, hstatus⟩ := monitorMain_exits hend
    rw [hs] at hloop
    cases hloop
    obtain ⟨s₀, handled, hs₀, hsub, hcalls⟩ := runLoop_makesCalls (bin :: rest) path m env.loop
    rw [hread]
    exact ⟨_, _, m, s₀, handled, ret, out, hentered, hempty, hs₀, hsub, hcalls, rfl, hstop, hout,
      hgraph, hstatus⟩

def sampleMain : MainEnv :=
  ⟨false, true, true, ⟨0, 0⟩, .succeed, fun _ => [], BasicBlocks.printing [BasicBlocks.sampleRow],
    true, true, true, true, true, true,
    ⟨true, true, [.monitor ⟨true, false, true⟩], sampleEnvs, .succeed⟩⟩

def sampleOrder (t : BranchHits) : List (CText × HitEntry) := t.entries.map fun e => (e.1, e.2)

def sampleArgs : List CText :=
  ["-g".toList, "out.gv".toList, "-b".toList, "r2.sh".toList, "-t".toList, "graphs".toList,
    "-c".toList, "corpus".toList, "./sut".toList]

theorem sampleMain_exits : (mainRun sampleMain sampleOrder sampleArgs).ending = .exits 0 := by
  decide +kernel

theorem sampleMain_counts : ∃ s, (mainRun sampleMain sampleOrder sampleArgs).loop = some s ∧
    s.outcomes.length = 2 := by
  have h : (mainRun sampleMain sampleOrder sampleArgs).loop.map (fun s => s.outcomes.length) =
      some 2 := by decide +kernel
  exact Option.map_eq_some_iff.mp h

theorem sampleMain_loops : ∃ s, (mainRun sampleMain sampleOrder sampleArgs).loop = some s :=
  sampleMain_counts.imp fun _ h => h.1

theorem sampleMain_name :
    (readOptions sampleMain.posixlyCorrect sampleArgs).1.graphFilename = some "out.gv".toList := by
  decide

/-- main exits with 0 or 1, and with 0 only when SIGINT has ended monitor_loop, no call of
process_branches has failed, and free_hashtable has returned. -/
theorem mainRun_status {env : MainEnv} {order : BranchHits → List (CText × HitEntry)}
    {args : List CText} {status : ℤ} (hend : (mainRun env order args).ending = .exits status) :
    (status = exitSuccess ∨ status = exitFailure) ∧
      (status = exitSuccess → Interrupted env.loop ∧
        (∃ s, (mainRun env order args).loop = some s ∧
          s.stop = some (.returned exitSuccess) ∧ ∀ out ∈ s.outcomes, out.stop = .returned 0) ∧
        ∃ out, (mainRun env order args).graph = some out ∧ out.stop = .returned) := by
  cases hloop : (mainRun env order args).loop with
  | none =>
    rcases mainRun_cases env order args with ⟨ending, usage, hending, hrun⟩ |
      ⟨o, bin, rest, script, path, m, -, -, -, -, -, hrun⟩
    · rw [hrun] at hend
      dsimp only at hend
      rcases hending with rfl | rfl
      · cases hend
      · cases hend
        exact ⟨.inr rfl, fun h => absurd h (by decide)⟩
    · rw [hrun] at hend hloop
      obtain ⟨-, -, -, -, -, hs, -⟩ := monitorMain_exits hend
      rw [hs] at hloop
      cases hloop
  | some s =>
    obtain ⟨sut, path, m, s₀, handled, ret, out, -, -, -, -, hcalls, hs, hstop, -, hgraph,
      hstatus⟩ := mainRun_exits hloop hend
    have hret := runLoop_returns (hs ▸ hstop)
    rcases hstatus with ⟨hreturned, rfl⟩ | rfl
    · refine ⟨hret.imp And.left id, fun hzero => ?_⟩
      have hsig : Interrupted env.loop := by
        rcases hret with ⟨-, hsig⟩ | hfail
        · exact hsig
        · exact absurd (hzero.symm.trans hfail) (by decide)
      have hall := (hcalls.ends hstop).2 hzero
      exact ⟨hsig, ⟨s, rfl, by rw [hstop, hzero], hall⟩, out, hgraph, hreturned⟩
    · exact ⟨.inr rfl, fun h => absurd h (by decide)⟩

theorem mainRun_status_sample : Interrupted sampleMain.loop :=
  ((mainRun_status sampleMain_exits).2 rfl).1

/-- The graph file of a run of main that exits, and the calls it comes from. -/
theorem mainRun_kept {env : MainEnv} {order : BranchHits → List (CText × HitEntry)}
    {args : List CText} {status : ℤ} {s : MonitorLoop.LoopState} {name : CText}
    (hname : (readOptions env.posixlyCorrect args).1.graphFilename = some name)
    (hloop : (mainRun env order args).loop = some s)
    (hend : (mainRun env order args).ending = .exits status) (hfree : env.loop.free = .succeed)
    (horder : ∀ t, (order t).Perm (t.entries.map fun e => (e.1, e.2)))
    (htame : Tame env.loop.passes) :
    ∃ sut path m s₀ handled ret kept file out, Entered env args sut path m ∧
      m.branchHits = ∅ ∧ s₀.monitor = m ∧ (handled.map Handled.env).Sublist env.loop.passes ∧
      MakesCalls ((env.loop.setUp path).conf sut path) s₀ handled s ∧
      s.stop = some (.returned ret) ∧ (status = exitSuccess → ret = exitSuccess) ∧
      Kept m s₀.heap (handled.map (Handled.call ((env.loop.setUp path).conf sut path))) kept ∧
      (ret = exitSuccess →
        kept = handled.flatMap (Handled.trace ((env.loop.setUp path).conf sut path))) ∧
      (mainRun env order args).graph = some out ∧ out.file = some (name, file) ∧
      ListsEdges (recorded m.secBounds m.bbs kept) file := by
  obtain ⟨sut, path, m, s₀, handled, ret, out, hentered, hempty, hs₀, hsub, hcalls, -, hstop, hout,
    hgraph, hstatus⟩ := mainRun_exits hloop hend
  subst hs₀
  rw [hname, hfree] at hout
  have hfile := hcalls.graphFile hstop hempty name s.heap (horder s.monitor.branchHits)
    (htame.length hsub _) (htame.recorded hsub _ _ _)
  obtain ⟨kept, file, hkept, hwhole, hfile, hlists⟩ := hfile
  refine ⟨sut, path, _, s₀, handled, ret, kept, file, out, hentered, hempty, rfl, hsub, hcalls,
    hstop, fun hzero => ?_, hkept, hwhole, hgraph, hout ▸ hfile, hlists⟩
  rcases hstatus with ⟨-, hret⟩ | hfail
  · exact hret.symm.trans hzero
  · exact absurd (hzero.symm.trans hfail) (by decide)

/-- The graph file of a run of main that exits lists the edges of all branches in front of a
failure, each with the number of its executions over all inputs; without a failure these are all
branches that were traced. -/
theorem mainRun_graphFile {env : MainEnv} {order : BranchHits → List (CText × HitEntry)}
    {args : List CText} {status : ℤ} {s : MonitorLoop.LoopState} {name : CText}
    (hname : (readOptions env.posixlyCorrect args).1.graphFilename = some name)
    (hloop : (mainRun env order args).loop = some s)
    (hend : (mainRun env order args).ending = .exits status) (hfree : env.loop.free = .succeed)
    (horder : ∀ t, (order t).Perm (t.entries.map fun e => (e.1, e.2)))
    (htame : Tame env.loop.passes) :
    ∃ sut path m s₀ handled kept file out, Entered env args sut path m ∧ m.branchHits = ∅ ∧
      s₀.monitor = m ∧ (handled.map Handled.env).Sublist env.loop.passes ∧
      MakesCalls ((env.loop.setUp path).conf sut path) s₀ handled s ∧
      Kept m s₀.heap (handled.map (Handled.call ((env.loop.setUp path).conf sut path))) kept ∧
      (mainRun env order args).graph = some out ∧ out.file = some (name, file) ∧
      ListsEdges (recorded m.secBounds m.bbs kept) file ∧
      (status = exitSuccess →
        kept = handled.flatMap (Handled.trace ((env.loop.setUp path).conf sut path))) := by
  obtain ⟨sut, path, m, s₀, handled, ret, kept, file, out, hentered, hempty, hs₀, hsub, hcalls, -,
    hstatus, hkept, hwhole, hgraph, hfile, hlists⟩ :=
      mainRun_kept hname hloop hend hfree horder htame
  exact ⟨sut, path, m, s₀, handled, kept, file, out, hentered, hempty, hs₀, hsub, hcalls, hkept,
    hgraph, hfile, hlists, fun hzero => hwhole (hstatus hzero)⟩

theorem mainRun_graphFile_sample :
    ∃ hist file out, (mainRun sampleMain sampleOrder sampleArgs).graph = some out ∧
      out.file = some ("out.gv".toList, file) ∧ ListsEdges hist file := by
  obtain ⟨s, hloop⟩ := sampleMain_loops
  obtain ⟨-, -, m, -, -, kept, file, out, -, -, -, -, -, -, hgraph, hfile, hlists, -⟩ :=
    mainRun_graphFile sampleMain_name hloop sampleMain_exits rfl
      (fun t => List.Perm.refl _) sampleEnvs_tame
  exact ⟨_, file, out, hgraph, hfile, hlists⟩

section Disk
variable {N F C : Type*} [DecidableEq F]

/-- What the files hold when some were written one behind the other, each under a name: fopen with
"w" leaves nothing of what its file held. -/
def writeAll (fileOf : N → F) (disk : F → Option C) (written : List (N × C)) : F → Option C :=
  written.foldl (fun disk f => Function.update disk (fileOf f.1) (some f.2)) disk

variable {fileOf : N → F} {disk : F → Option C}

theorem writeAll_concat (written : List (N × C)) (f : N × C) :
    writeAll fileOf disk (written ++ [f]) =
      Function.update (writeAll fileOf disk written) (fileOf f.1) (some f.2) :=
  List.foldl_concat _ _ _ _

theorem writeAll_concat_self (written : List (N × C)) (f : N × C) :
    writeAll fileOf disk (written ++ [f]) (fileOf f.1) = some f.2 := by
  rw [writeAll_concat]
  exact Function.update_self _ _ _

/-- A file holds what was written to it under one of its names. -/
theorem writeAll_mem (fileOf : N → F) (disk : F → Option C) {written : List (N × C)} {f : N × C}
    (hf : f ∈ written) : ∃ g ∈ written, fileOf g.1 = fileOf f.1 ∧
      writeAll fileOf disk written (fileOf f.1) = some g.2 := by
  induction written using List.reverseRecOn with
  | nil => cases hf
  | append_singleton written last ih =>
    rw [writeAll_concat]
    by_cases hlast : fileOf f.1 = fileOf last.1
    · refine ⟨last, List.mem_append_right _ List.mem_cons_self, hlast.symm, ?_⟩
      rw [hlast]
      exact Function.update_self _ _ _
    · have hbefore : f ∈ written := by
        rcases List.mem_append.mp hf with hf | hf
        · exact hf
        · exact absurd (congrArg (fun g => fileOf g.1) (List.mem_singleton.mp hf)) hlast
      obtain ⟨g, hg, hname, hholds⟩ := ih hbefore
      refine ⟨g, List.mem_append_left _ hg, hname, ?_⟩
      rw [Function.update_of_ne hlast]
      exact hholds

end Disk

section Files
variable {F : Type*} [DecidableEq F]

/-- Paths of different files: those of the per-input graphs, and that of the graph file. -/
structure PathsApart (fileOf : CText → F) (graphIndivPath : Option CText) (name : CText) :
    Prop where
  inputs : Function.Injective fun n => fileOf (indivText graphIndivPath n)
  graph : ∀ n, fileOf (indivText graphIndivPath n) ≠ fileOf name

/-- A per-input file that is not the graph file lists the edge in the end. -/
def InputFileLists (fileOf : CText → F) (disk : F → Option (List CText)) (outs : List Outcome)
    (name : CText) (p : UInt64 × UInt64) : Prop :=
  ∃ f ∈ files outs, fileOf f.1 ≠ fileOf name ∧
    ∃ lines, disk (fileOf f.1) = some lines ∧ edgeLine p ∈ lines

variable {fileOf : CText → F} {old : F → Option (List CText)} {outs : List Outcome}
  {name : CText} {file : List CText}

theorem InputFileLists.written {p : UInt64 × UInt64}
    (h : InputFileLists fileOf (writeAll fileOf old (files outs ++ [(name, file)])) outs name p) :
    ∃ f ∈ files outs, edgeLine p ∈ f.2 := by
  obtain ⟨f, hf, hne, lines, hlines, hp⟩ := h
  obtain ⟨g, hg, hname, hholds⟩ := writeAll_mem fileOf old
    (List.mem_append_left [(name, file)] hf)
  have hwritten : g ∈ files outs := by
    rcases List.mem_append.mp hg with hg | hg
    · exact hg
    · rw [List.mem_singleton.mp hg] at hname
      exact absurd hname.symm hne
  rw [hlines] at hholds
  exact ⟨g, hwritten, Option.some.inj hholds ▸ hp⟩

/-- Where no two calls write to one file, and none to the graph file, all their edges are left. -/
theorem InputFileLists.of_written {graphIndivPath : Option CText}
    (hapart : PathsApart fileOf graphIndivPath name)
    (hpaths : ∀ f ∈ files outs, ∃ n, f.1 = indivText graphIndivPath n)
    (hnodup : ((files outs).map Prod.fst).Nodup) {p : UInt64 × UInt64}
    (h : ∃ f ∈ files outs, edgeLine p ∈ f.2) :
    InputFileLists fileOf (writeAll fileOf old (files outs ++ [(name, file)])) outs name p := by
  obtain ⟨f, hf, hp⟩ := h
  obtain ⟨n, hn⟩ := hpaths f hf
  have hne : fileOf f.1 ≠ fileOf name := hn ▸ hapart.graph n
  obtain ⟨g, hg, hname, hholds⟩ := writeAll_mem fileOf old
    (List.mem_append_left [(name, file)] hf)
  refine ⟨f, hf, hne, f.2, ?_, hp⟩
  rcases List.mem_append.mp hg with hg | hg
  · obtain ⟨k, hk⟩ := hpaths g hg
    have hnum : k = n := by
      apply hapart.inputs
      dsimp only
      rw [← hk, ← hn]
      exact hname
    have hsame : g.1 = f.1 := by rw [hk, hn, hnum]
    rw [hholds, List.inj_on_of_nodup_map hnodup hg hf hsame]
  · rw [List.mem_singleton.mp hg] at hname
    exact absurd hname.symm hne

end Files

theorem setUpMonitor_paths {env : MainEnv} {o : Options} {bin script : CText} {m : Monitor}
    (h : setUpMonitor env o bin script = .ok m) :
    m.graphIndivPath = o.graphIndivPath ∧ m.inputN = 0 := by
  rcases setUpMonitor_cases env o bin script with ⟨ending, -, hset⟩ | ⟨m', hset, -, hzero, hpath⟩
  · rw [hset] at h
    cases h
  · rw [hset] at h
    cases h
    exact ⟨hpath, hzero⟩

/-- The two kinds of graph files agree as they are left on disk: every edge of a per-input file is
one of the graph file, and if main exits with 0 the graph file has no other edges, as long as the
names of at most 2^64 calls fit into PATH_MAX and lead to different files. -/
theorem mainRun_files_agree {F : Type*} [DecidableEq F] (fileOf : CText → F)
    (old : F → Option (List CText)) {env : MainEnv}
    {order : BranchHits → List (CText × HitEntry)} {args : List CText} {status : ℤ}
    {s : MonitorLoop.LoopState} {name : CText}
    (hname : (readOptions env.posixlyCorrect args).1.graphFilename = some name)
    (hloop : (mainRun env order args).loop = some s)
    (hend : (mainRun env order args).ending = .exits status) (hfree : env.loop.free = .succeed)
    (horder : ∀ t, (order t).Perm (t.entries.map fun e => (e.1, e.2)))
    (htame : Tame env.loop.passes) :
    ∃ file out disk, (mainRun env order args).graph = some out ∧ out.file = some (name, file) ∧
      disk = writeAll fileOf old (files s.outcomes ++ [(name, file)]) ∧
      disk (fileOf name) = some file ∧ ∀ p : UInt64 × UInt64,
        (InputFileLists fileOf disk s.outcomes name p → ∃ c, labelLine p.1 p.2 c ∈ file) ∧
        (status = exitSuccess → s.outcomes.length ≤ 2 ^ 64 →
          NamesFit (readOptions env.posixlyCorrect args).1.graphIndivPath 0 s.outcomes.length →
          PathsApart fileOf (readOptions env.posixlyCorrect args).1.graphIndivPath name →
          (∃ c, labelLine p.1 p.2 c ∈ file) → InputFileLists fileOf disk s.outcomes name p) := by
  obtain ⟨sut, path, m, s₀, handled, ret, kept, file, out, hentered, hempty, hs₀, hsub, hcalls,
    hstop, hstatus, hkept, -, hgraph, hfile, hlists⟩ :=
      mainRun_kept hname hloop hend hfree horder htame
  obtain ⟨bin, script, -, -, hset⟩ := hentered.monitor
  obtain ⟨hpath, hzero⟩ := setUpMonitor_paths hset
  subst hs₀
  have hproper : ∀ call ∈ handled.map (Handled.call ((env.loop.setUp path).conf sut path)),
      Proper call := by
    intro call hcall
    obtain ⟨one, hone, rfl⟩ := List.mem_map.mp hcall
    exact htame.proper hsub _ one hone
  have hagree := hcalls.files_agree hstop hempty (htame.proper hsub _) (htame.length hsub _) hkept
  refine ⟨file, out, writeAll fileOf old (files s.outcomes ++ [(name, file)]), hgraph, hfile, rfl,
    writeAll_concat_self _ (name, file), ?_⟩
  intro p
  constructor
  · intro hp
    exact (hlists.mem_iff p).mpr ((hagree p).1 hp.written)
  · intro hsuccess hcount hfits hapart hp
    have hret := (hcalls.ends hstop).2 (hstatus hsuccess)
    have hmade := hcalls.outcomes
    rw [hmade] at hret hcount hfits ⊢
    rw [runCalls_length] at hcount hfits
    rw [← hpath] at hfits hapart
    rw [← hzero] at hfits
    apply InputFileLists.of_written hapart
    · intro f hf
      obtain ⟨n, -, hn⟩ := runCalls_name hproper hret hfits f hf
      exact ⟨_, hn⟩
    · exact runCalls_names_nodup hproper hret hfits hcount
    · rw [← hmade]
      exact (hagree p).2 (hstatus hsuccess) ((hlists.mem_iff p).mp hp)

theorem sampleMain_path :
    (readOptions sampleMain.posixlyCorrect sampleArgs).1.graphIndivPath = some "graphs".toList := by
  decide

theorem samplePaths_apart : PathsApart id (some "graphs".toList) "out.gv".toList := by
  refine ⟨indivText_injective _, fun n h => ?_⟩
  have hhead : (indivText (some "graphs".toList) n).head? = some 'g' := rfl
  rw [show indivText (some "graphs".toList) n = "out.gv".toList from h] at hhead
  exact absurd hhead (by decide)

theorem mainRun_files_agree_sample :
    ∃ s, ∃ file : List CText, ∃ disk : CText → Option (List CText),
      (mainRun sampleMain sampleOrder sampleArgs).loop = some s ∧
      disk = writeAll id (fun _ => none) (files s.outcomes ++ [("out.gv".toList, file)]) ∧
      ∀ p : UInt64 × UInt64, InputFileLists id disk s.outcomes "out.gv".toList p ↔
        ∃ c, labelLine p.1 p.2 c ∈ file := by
  obtain ⟨s, hloop, hcount⟩ := sampleMain_counts
  obtain ⟨file, out, disk, -, -, hdisk, -, hagree⟩ :=
    mainRun_files_agree id (fun _ => none) sampleMain_name hloop sampleMain_exits rfl
      (fun t => List.Perm.refl _) sampleEnvs_tame
  refine ⟨s, file, disk, hloop, hdisk, fun p => ⟨(hagree p).1, (hagree p).2 rfl ?_ ?_ ?_⟩⟩
  · rw [hcount]
    decide
  · rw [sampleMain_path]
    exact fun n _ => lt_of_le_of_lt (indivText_length_le _ _) (by decide)
  · rw [sampleMain_path]
    exact samplePaths_apart

end FuzzMonitor.Main
