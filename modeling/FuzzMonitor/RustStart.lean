import FuzzMonitor.QemuTrace
import FuzzMonitor.Records
import FuzzMonitor.Runs
import FuzzMonitor.RustMonitor

namespace FuzzMonitor.RustMonitor
open CStrings Trace2 Tally Records

inductive MonitoringTool
  | perf
  | qemu
  | cPerf
  deriving DecidableEq, Repr

def perfStat : CText := "branches:u".toList

/-- The outcomes of one turn of the loop of start: those of recv_bytes, of the calls that run the
tool on the message and read what it prints or leaves in its file, and of printing the line. -/
structure Turn where
  received : Bool
  bytes : List UInt8
  spawned : Bool
  written : Bool
  waited : Bool
  outRead : Bool
  out : CText
  removed : Bool
  printed : Bool

/-- The tool has got the whole message and has come to its end. -/
def Turn.ran (r : Turn) : Bool := r.spawned && r.written && r.waited

def Turn.succeed (bytes : List UInt8) (out : CText) : Turn :=
  ⟨true, bytes, true, true, true, true, out, true, true⟩

/-- perf::trace behind the wait, on the file that perf stat leaves; none is a panic. -/
def perfTrace (r : Turn) : Option UInt64 :=
  if !r.outRead then none
  else
    match (lines r.out).find? fun line => (strstr line perfStat).isSome with
    | none => none
    | some line => if !r.removed then none else fromStrRadix ((line.splitOn ',').headD [])

/-- qemu::trace behind the wait, on what the trace parser prints. -/
def qemuTrace (r : Turn) : Option (List UInt64) :=
  if !r.outRead then none
  else
    match parseTrace r.out with
    | none => none
    | some pcs => if !r.removed then none else some pcs

def traceTool (tool : MonitoringTool) (r : Turn) (secStart secEnd : UInt64)
    (store : BranchStore) : Option (UInt64 × Option UInt64 × BranchStore) :=
  if !r.ran then none
  else
    match tool with
    | .qemu => (qemuTrace r).map fun pcs => (UInt64.ofNat pcs.length, none, store)
    | .perf => (perfTrace r).map fun coverage => (coverage, none, store)
    | .cPerf => (trace r.out secStart secEnd store).map fun t => (t.1, some t.2.1, t.2.2)

structure Shown where
  newMax : Bool
  bytesLen : ℕ
  coverage : UInt64
  newBranches : Option UInt64
  maxCoverage : UInt64
  deriving DecidableEq, Repr

/-- The variables of start, the lines so far, of which a print that fails cuts off the last one,
and whether it has panicked. -/
structure Start where
  branchStore : BranchStore
  maxCoverage : UInt64
  shown : List Shown
  panicked : Bool

def startTurn (tool : MonitoringTool) (secStart secEnd : UInt64) (s : Start) (r : Turn) : Start :=
  if s.panicked then s
  else if !r.received then { s with panicked := true }
  else
    match traceTool tool r secStart secEnd s.branchStore with
    | none => { s with panicked := true }
    | some (coverage, newBranches, store) =>
      let newMax := decide (coverage > s.maxCoverage)
      let maxCoverage := if newMax then coverage else s.maxCoverage
      ⟨store, maxCoverage,
        s.shown ++ [⟨newMax, r.bytes.length, coverage, newBranches, maxCoverage⟩], !r.printed⟩

def start (tool : MonitoringTool) (secStart secEnd : UInt64) (rs : List Turn) : Start :=
  rs.foldl (startTurn tool secStart secEnd) ⟨∅, 0, [], false⟩

def Shown.entry (line : Shown) : Entry ℕ :=
  ⟨line.coverage.toNat, line.maxCoverage.toNat, line.newMax⟩

/-- A turn comes to print a line, or finds start panicked, or makes it panic. -/
theorem startTurn_cases (tool : MonitoringTool) (secStart secEnd : UInt64) (s : Start)
    (r : Turn) :
    (s.panicked = true ∧ startTurn tool secStart secEnd s r = s) ∨
    (s.panicked = false ∧
      (r.received = false ∨ traceTool tool r secStart secEnd s.branchStore = none) ∧
      startTurn tool secStart secEnd s r = { s with panicked := true }) ∨
    (s.panicked = false ∧ r.received = true ∧ ∃ coverage newBranches store line,
      traceTool tool r secStart secEnd s.branchStore = some (coverage, newBranches, store) ∧
      line.entry = observe s.maxCoverage.toNat coverage.toNat ∧ line.newBranches = newBranches ∧
      line.coverage = coverage ∧ line.bytesLen = r.bytes.length ∧
      startTurn tool secStart secEnd s r =
        ⟨store, line.maxCoverage, s.shown ++ [line], !r.printed⟩) := by
  unfold startTurn
  cases hpanicked : s.panicked with
  | true => exact .inl ⟨rfl, rfl⟩
  | false =>
    right
    cases hreceived : r.received with
    | false => exact .inl ⟨rfl, .inl rfl, rfl⟩
    | true =>
      cases htrace : traceTool tool r secStart secEnd s.branchStore with
      | none => exact .inl ⟨rfl, .inr rfl, rfl⟩
      | some result =>
        obtain ⟨coverage, newBranches, store⟩ := result
        let newMax := decide (coverage > s.maxCoverage)
        let line : Shown := ⟨newMax, r.bytes.length, coverage, newBranches,
          if newMax then coverage else s.maxCoverage⟩
        have hentry : line.entry = observe s.maxCoverage.toNat coverage.toNat :=
          entry_eq_observe (fun _ _ => UInt64.lt_iff_toNat_lt) s.maxCoverage coverage
        exact .inr ⟨rfl, rfl, coverage, newBranches, store, line, rfl, hentry, rfl, rfl, rfl, rfl⟩

theorem startTurn_tracks {tool : MonitoringTool} {secStart secEnd : UInt64} {s : Start}
    (r : Turn) (h : Tracks Shown.entry 0 s.shown s.maxCoverage.toNat) :
    Tracks Shown.entry 0 (startTurn tool secStart secEnd s r).shown
      (startTurn tool secStart secEnd s r).maxCoverage.toNat := by
  rcases startTurn_cases tool secStart secEnd s r with ⟨-, hturn⟩ | ⟨-, -, hturn⟩ |
    ⟨-, -, coverage, newBranches, store, line, -, hentry, -, -, -, hturn⟩
  · rw [hturn]
    exact h
  · rw [hturn]
    exact h
  · have hbest : line.maxCoverage.toNat = max s.maxCoverage.toNat coverage.toNat :=
      congrArg Entry.best hentry
    rw [hturn]
    dsimp only
    rw [hbest]
    exact h.concat hentry

/-- Each list that is added counts its branches. -/
theorem addLoop_tallies {hits : BranchStore} {hist branches : List BtsBranch} {new : UInt64}
    (h : Tallies UInt64.toNat hits hist) (hlen : hist.length + branches.length < 2 ^ 64)
    (hnew : new.toNat + branches.length < 2 ^ 64) :
    Tallies UInt64.toNat (addLoop branches new hits).2 (hist ++ branches) ∧
      (addLoop branches new hits).2.entries.length + new.toNat =
        hits.entries.length + (addLoop branches new hits).1.toNat := by
  induction branches generalizing hits hist new with
  | nil =>
    rw [List.append_nil]
    exact ⟨h, rfl⟩
  | cons branch branches ih =>
    rw [List.length_cons] at hlen hnew
    unfold addLoop
    have happend : hist ++ branch :: branches = (hist ++ [branch]) ++ branches := by simp
    have hgrown : (hist ++ [branch]).length + branches.length < 2 ^ 64 := by
      rw [List.length_append, List.length_singleton]
      omega
    rw [happend]
    cases hlookup : hits.lookup branch with
    | some entry =>
      have hle := h.val_le_length hlookup
      have hval : (entry + 1).toNat = entry.toNat + 1 := by
        rw [UInt64.toNat_add, UInt64.toNat_one, Nat.mod_eq_of_lt]
        omega
      have hsame : new.toNat + branches.length < 2 ^ 64 := by omega
      obtain ⟨htallies, hentries⟩ := ih (h.insert_present hlookup hval) hgrown hsame
      rw [length_insert_present _ hlookup] at hentries
      exact ⟨htallies, hentries⟩
    | none =>
      have hnext : (new + 1).toNat = new.toNat + 1 := by
        rw [UInt64.toNat_add, UInt64.toNat_one, Nat.mod_eq_of_lt]
        omega
      have hmore : (new + 1).toNat + branches.length < 2 ^ 64 := by omega
      obtain ⟨htallies, hentries⟩ := ih (h.insert_fresh hlookup UInt64.toNat_one) hgrown hmore
      rw [length_insert_fresh _ hlookup, hnext] at hentries
      refine ⟨htallies, ?_⟩
      dsimp only
      omega

def Shown.newCount (line : Shown) : ℕ := (line.newBranches.getD 0).toNat

/-- What a turn with the tool CPerf retains of the branches; none is a panic. -/
def Turn.kept (secStart secEnd : UInt64) (r : Turn) : Option (List BtsBranch) :=
  if r.received && r.ran then retained r.out secStart secEnd else none

def Turn.Works (r : Turn) : Prop := r.received = true ∧ r.ran = true ∧ r.printed = true

theorem Turn.Works.kept_eq {r : Turn} (h : r.Works) (secStart secEnd : UInt64) :
    r.kept secStart secEnd = retained r.out secStart secEnd := by
  obtain ⟨hreceived, hran, -⟩ := h
  unfold Turn.kept
  rw [hreceived, hran]
  rfl

/-- The turns with the tool CPerf that come to print their line. -/
def counting (secStart secEnd : UInt64) (rs : List Turn) : List Turn :=
  Runs.untilStop (fun r => (r.kept secStart secEnd).isSome) Turn.printed rs

/-- With the tool CPerf the lines are those of the traces, and the store has counted all their
branches; start has panicked if a turn could not keep its branches or print its line. -/
structure Stored (secStart secEnd : UInt64) (rs : List Turn) (s : Start)
    (traces : List (List BtsBranch)) : Prop where
  panicked : s.panicked = true ↔ ∃ r ∈ rs, r.kept secStart secEnd = none ∨ r.printed = false
  traced : (counting secStart secEnd rs).map (Turn.kept secStart secEnd) = traces.map some
  coverage : s.shown.map Shown.coverage = traces.map fun trace => UInt64.ofNat trace.length
  tallies : Tallies UInt64.toNat s.branchStore traces.flatten
  entries : s.branchStore.entries.length = (s.shown.map Shown.newCount).sum

def Turn.branchN (secStart secEnd : UInt64) (r : Turn) : ℕ :=
  ((r.kept secStart secEnd).getD []).length

theorem traces_length {secStart secEnd : UInt64} {done : List Turn}
    {traces : List (List BtsBranch)}
    (h : done.map (Turn.kept secStart secEnd) = traces.map some) :
    traces.flatten.length = (done.map (Turn.branchN secStart secEnd)).sum := by
  have hlengths : done.map (Turn.branchN secStart secEnd) = traces.map List.length := by
    have hmap := congrArg (List.map fun o : Option (List BtsBranch) => (o.getD []).length) h
    rw [List.map_map, List.map_map] at hmap
    exact hmap
  rw [hlengths, List.length_flatten]

theorem branchN_counting_le (secStart secEnd : UInt64) (rs : List Turn) :
    ((counting secStart secEnd rs).map (Turn.branchN secStart secEnd)).sum ≤
      (rs.map (Turn.branchN secStart secEnd)).sum :=
  ((Runs.untilStop_prefix rs).sublist.map _).sum_le_sum fun _ _ => Nat.zero_le _

/-- How a turn with the tool CPerf ends: it makes start panic, or prints what it has kept. -/
theorem startTurn_cPerf {secStart secEnd : UInt64} {s : Start} (hs : s.panicked = false)
    (r : Turn) :
    (r.kept secStart secEnd = none ∧
      startTurn .cPerf secStart secEnd s r = { s with panicked := true }) ∨
    ∃ trace line, r.kept secStart secEnd = some trace ∧
      line.coverage = UInt64.ofNat trace.length ∧
      line.maxCoverage.toNat = max s.maxCoverage.toNat line.coverage.toNat ∧
      line.newBranches = some (s.branchStore.add trace).1 ∧
      startTurn .cPerf secStart secEnd s r =
        ⟨(s.branchStore.add trace).2, line.maxCoverage, s.shown ++ [line], !r.printed⟩ := by
  have htool : traceTool .cPerf r secStart secEnd s.branchStore =
      if r.ran then (retained r.out secStart secEnd).map fun trace =>
        (UInt64.ofNat trace.length, some (s.branchStore.add trace).1, (s.branchStore.add trace).2)
      else none := by
    unfold traceTool
    cases r.ran with
    | false => rfl
    | true => exact Option.map_map _ _ _
  unfold Turn.kept
  rcases startTurn_cases .cPerf secStart secEnd s r with ⟨hpanicked, -⟩ | ⟨-, hnone, hturn⟩ |
    ⟨-, hreceived, coverage, newBranches, store, line, hsome, hentry, hnew, hcov, -, hturn⟩
  · rw [hs] at hpanicked
    contradiction
  · refine .inl ⟨?_, hturn⟩
    rw [htool] at hnone
    rcases hnone with hreceived | hnone
    · rw [hreceived]
      rfl
    · cases hran : r.ran with
      | false => rw [Bool.and_false, if_neg Bool.false_ne_true]
      | true =>
        rw [hran, if_pos rfl, Option.map_eq_none_iff] at hnone
        rw [hnone, ite_self]
  · rw [htool] at hsome
    cases hran : r.ran with
    | false =>
      rw [hran, if_neg Bool.false_ne_true] at hsome
      cases hsome
    | true =>
      rw [hran, if_pos rfl] at hsome
      obtain ⟨trace, hread, hfields⟩ := Option.map_eq_some_iff.mp hsome
      have hbest : line.maxCoverage.toNat = max s.maxCoverage.toNat coverage.toNat :=
        congrArg Entry.best hentry
      cases hfields
      refine .inr ⟨trace, line, ?_, hcov, hcov ▸ hbest, hnew, hturn⟩
      rw [hreceived, Bool.and_self, if_pos rfl, hread]

section Stored
variable {secStart secEnd : UInt64} {rs : List Turn} {s : Start} {traces : List (List BtsBranch)}

theorem Stored.none_fails (h : Stored secStart secEnd rs s traces) (hs : s.panicked = false) :
    ∀ r ∈ rs, ¬(r.kept secStart secEnd = none ∨ r.printed = false) := by
  intro r hr hfails
  rw [h.panicked.mpr ⟨r, hr, hfails⟩] at hs
  contradiction

theorem Stored.all_counting (h : Stored secStart secEnd rs s traces) (hs : s.panicked = false) :
    ∀ r ∈ rs, (r.kept secStart secEnd).isSome = true ∧ r.printed = true := by
  intro r hr
  have hgood := h.none_fails hs r hr
  rw [not_or, Bool.not_eq_false] at hgood
  exact ⟨Option.isSome_iff_ne_none.mpr hgood.1, hgood.2⟩

theorem Stored.traced_all (h : Stored secStart secEnd rs s traces) (hs : s.panicked = false) :
    rs.map (Turn.kept secStart secEnd) = traces.map some := by
  have htraced := h.traced
  unfold counting at htraced
  rw [Runs.untilStop_of_all (h.all_counting hs)] at htraced
  exact htraced

/-- Behind a panic nothing happens. -/
theorem Stored.stopped (h : Stored secStart secEnd rs s traces) (hs : s.panicked = true)
    (r : Turn) :
    Stored secStart secEnd (rs ++ [r]) (startTurn .cPerf secStart secEnd s r) traces := by
  obtain ⟨bad, hbad, hfails⟩ := h.panicked.mp hs
  have hturn : startTurn .cPerf secStart secEnd s r = s := by
    unfold startTurn
    rw [if_pos hs]
  have hsame : counting secStart secEnd (rs ++ [r]) = counting secStart secEnd rs := by
    refine Runs.untilStop_append_of_stop ⟨bad, hbad, ?_⟩ _
    rcases hfails with hnone | hcut
    · rw [hnone]
      rfl
    · rw [hcut, Bool.and_false]
  rw [hturn]
  refine ⟨iff_of_true hs ⟨bad, List.mem_append_left _ hbad, hfails⟩, ?_, h.coverage, h.tallies,
    h.entries⟩
  rw [hsame]
  exact h.traced

/-- The first turn whose branches cannot be kept makes start panic. -/
theorem Stored.lost (h : Stored secStart secEnd rs s traces) (hs : s.panicked = false) {r : Turn}
    (hr : r.kept secStart secEnd = none) :
    Stored secStart secEnd (rs ++ [r]) { s with panicked := true } traces := by
  refine ⟨iff_of_true rfl ⟨r, List.mem_append_right _ List.mem_cons_self, .inl hr⟩, ?_, h.coverage,
    h.tallies, h.entries⟩
  unfold counting
  rw [Runs.untilStop_concat_of_all (h.all_counting hs), hr, Option.isSome_none,
    if_neg Bool.false_ne_true, List.append_nil]
  exact h.traced_all hs

/-- A turn that keeps its branches adds them, also where its line is the last one. -/
theorem Stored.grown (h : Stored secStart secEnd rs s traces) (hs : s.panicked = false) {r : Turn}
    {trace : List BtsBranch} (hr : r.kept secStart secEnd = some trace)
    (hlen : ((rs ++ [r]).map (Turn.branchN secStart secEnd)).sum < 2 ^ 64) {line : Shown}
    (hcov : line.coverage = UInt64.ofNat trace.length)
    (hnew : line.newBranches = some (s.branchStore.add trace).1) (maxCoverage : UInt64) :
    Stored secStart secEnd (rs ++ [r])
      ⟨(s.branchStore.add trace).2, maxCoverage, s.shown ++ [line], !r.printed⟩
      (traces ++ [trace]) := by
  have hkept : (rs ++ [r]).map (Turn.kept secStart secEnd) = (traces ++ [trace]).map some := by
    rw [List.map_append, List.map_append, h.traced_all hs, List.map_singleton, List.map_singleton,
      hr]
  have hbound : traces.flatten.length + trace.length < 2 ^ 64 := by
    have heq := traces_length hkept
    rw [List.flatten_append, List.length_append, List.flatten_singleton] at heq
    rw [heq]
    exact hlen
  have hzero : (0 : UInt64).toNat + trace.length < 2 ^ 64 := by
    rw [UInt64.toNat_zero]
    omega
  obtain ⟨htallies, hentries⟩ := addLoop_tallies h.tallies hbound hzero
  rw [UInt64.toNat_zero, Nat.add_zero, h.entries] at hentries
  refine ⟨?_, ?_, ?_, ?_, ?_⟩
  · rw [Runs.exists_mem_concat_iff (h.none_fails hs), hr]
    simp
  · unfold counting
    rw [Runs.untilStop_concat_of_all (h.all_counting hs), hr, Option.isSome_some, if_pos rfl]
    exact hkept
  · rw [List.map_append, List.map_append, h.coverage, List.map_singleton, hcov]
    rfl
  · rw [List.flatten_append, List.flatten_singleton]
    exact htallies
  · rw [List.map_append, List.sum_append, List.map_singleton, List.sum_singleton]
    unfold Shown.newCount
    rw [hnew]
    exact hentries

theorem startTurn_stored (r : Turn) (h : Stored secStart secEnd rs s traces)
    (hlen : ((rs ++ [r]).map (Turn.branchN secStart secEnd)).sum < 2 ^ 64) :
    ∃ traces',
      Stored secStart secEnd (rs ++ [r]) (startTurn .cPerf secStart secEnd s r) traces' := by
  cases hs : s.panicked with
  | true => exact ⟨traces, h.stopped hs r⟩
  | false =>
    rcases startTurn_cPerf hs r with ⟨hnone, hturn⟩ | ⟨trace, line, hsome, hcov, -, hnew, hturn⟩
    · rw [hturn]
      exact ⟨traces, h.lost hs hnone⟩
    · rw [hturn]
      exact ⟨traces ++ [trace], h.grown hs hsome hlen hcov hnew line.maxCoverage⟩

end Stored

theorem start_stored {secStart secEnd : UInt64} {rs : List Turn}
    (hlen : (rs.map (Turn.branchN secStart secEnd)).sum < 2 ^ 64) :
    ∃ traces, Stored secStart secEnd rs (start .cPerf secStart secEnd rs) traces := by
  induction rs using List.reverseRecOn with
  | nil => exact ⟨[], ⟨by simp [start], rfl, rfl, tallies_empty _, rfl⟩⟩
  | append_singleton rs r ih =>
    have hshort : (rs.map (Turn.branchN secStart secEnd)).sum < 2 ^ 64 := by
      rw [List.map_append, List.sum_append] at hlen
      omega
    obtain ⟨traces, hstored⟩ := ih hshort
    unfold start at hstored ⊢
    rw [List.foldl_concat]
    exact startTurn_stored r hstored hlen

/-- With any tool, in every run of start the column of the maximum is the maximum of 0 and of the
coverage so far, and a line is marked as new exactly when its coverage exceeds that of all lines
before it, and 0. -/
theorem start_max (tool : MonitoringTool) (secStart secEnd : UInt64) (rs : List Turn)
    {before after : List Shown} {line : Shown}
    (hshown : (start tool secStart secEnd rs).shown = before ++ line :: after) :
    line.maxCoverage.toNat =
        ((before ++ [line]).map fun line => line.coverage.toNat).foldl max 0 ∧
      (line.newMax = true ↔
        (before.map fun line => line.coverage.toNat).foldl max 0 < line.coverage.toNat) := by
  have htracks : Tracks Shown.entry 0 (start tool secStart secEnd rs).shown
      (start tool secStart secEnd rs).maxCoverage.toNat :=
    Runs.foldl_keeps (I := fun s : Start => Tracks Shown.entry 0 s.shown s.maxCoverage.toNat)
      (fun s r _ h => startTurn_tracks r h) .nil
  exact htracks.columns hshown

def sampleReceived : List Turn :=
  [.succeed [1] "branch,16,80\nbranch,16,80\n".toList, .succeed [2] "branch,16,80\n".toList,
    .succeed [3] "branch,16,80\nbranch,80,16\nbranch,16,80\n".toList,
    .succeed [4] "branch,16".toList]

def sampleBefore : List Shown := [⟨true, 1, 2, some 1, 2⟩, ⟨false, 1, 1, some 0, 2⟩]

def sampleShown : Shown := ⟨true, 1, 3, some 1, 3⟩

theorem start_max_sampleReceived :
    sampleShown.maxCoverage.toNat =
        ((sampleBefore ++ [sampleShown]).map fun line => line.coverage.toNat).foldl max 0 ∧
      (sampleShown.newMax = true ↔
        (sampleBefore.map fun line => line.coverage.toNat).foldl max 0 <
          sampleShown.coverage.toNat) := by
  have hshown : (start .cPerf 0 100 sampleReceived).shown = sampleBefore ++ sampleShown :: [] := by
    decide +kernel
  exact start_max .cPerf 0 100 sampleReceived hshown

/-- With the tool CPerf, start panics exactly when in one of its turns a call fails that it needs
or the output is unreadable; up to then the store counts how often each branch occurs in the traces,
and the columns of new branches and of the coverage add up to its entries and to its counts. -/
theorem start_store (secStart secEnd : UInt64) (rs : List Turn)
    (hlen : (rs.map (Turn.branchN secStart secEnd)).sum < 2 ^ 64) :
    ∃ s, ∃ traces : List (List BtsBranch), s = start .cPerf secStart secEnd rs ∧
      (s.panicked = true ↔ ∃ r ∈ rs, r.kept secStart secEnd = none ∨ r.printed = false) ∧
      (counting secStart secEnd rs).map (Turn.kept secStart secEnd) = traces.map some ∧
      (∀ branch, (s.branchStore.lookup branch).map UInt64.toNat =
        if branch ∈ traces.flatten then some (traces.flatten.count branch) else none) ∧
      s.branchStore.entries.length = (s.shown.map Shown.newCount).sum ∧
      total UInt64.toNat s.branchStore = (s.shown.map fun line => line.coverage.toNat).sum := by
  obtain ⟨traces, hstored⟩ := start_stored hlen
  refine ⟨_, traces, rfl, hstored.panicked, hstored.traced, hstored.tallies.lookup,
    hstored.entries, ?_⟩
  have hbound : traces.flatten.length < 2 ^ 64 := by
    rw [traces_length hstored.traced]
    exact lt_of_le_of_lt (branchN_counting_le secStart secEnd rs) hlen
  have hcolumn : (start .cPerf secStart secEnd rs).shown.map (fun line => line.coverage.toNat) =
      traces.map List.length := by
    have hcov := congrArg (List.map UInt64.toNat) hstored.coverage
    rw [List.map_map, List.map_map] at hcov
    refine hcov.trans (List.map_congr_left fun trace htrace => ?_)
    have hle : trace.length ≤ traces.flatten.length :=
      (List.sublist_flatten_of_mem htrace).length_le
    exact UInt64.toNat_ofNat_of_lt' (lt_of_le_of_lt hle hbound)
  rw [hstored.tallies.total, hcolumn, List.length_flatten]

theorem start_store_sampleReceived :
    (start .cPerf 0 100 sampleReceived).panicked = true ∧
      (start .cPerf 0 100 sampleReceived).branchStore.entries.length =
        ((start .cPerf 0 100 sampleReceived).shown.map Shown.newCount).sum := by
  obtain ⟨s, traces, rfl, hpanicked, -, -, hentries, -⟩ :=
    start_store 0 100 sampleReceived (by decide)
  refine ⟨hpanicked.mpr ⟨.succeed [4] "branch,16".toList, ?_, .inl ?_⟩, hentries⟩
  · unfold sampleReceived
    simp
  · decide

end FuzzMonitor.RustMonitor
