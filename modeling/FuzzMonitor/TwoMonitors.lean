import FuzzMonitor.CallRuns
import FuzzMonitor.RustStart

namespace FuzzMonitor.RustMonitor
open CStrings Branches PerfTool Trace2 Tally

def stripMisc (br : BtsBranch) : BtsBranch := ⟨br.from, br.to, 0⟩

/-- No printed branch has one end inside the section only. -/
def OneSided (sec : SectionBounds) (trace : List BtsBranch) : Prop :=
  ∃ br ∈ trace, leftOut br = false ∧ inBounds sec br.from ≠ inBounds sec br.to

/-- Where no branch crosses the bounds, the Rust program retains what process_branches counts. -/
theorem retained_counted {sec : SectionBounds} {trace : List BtsBranch}
    (h : ¬OneSided sec trace) :
    retained (printBranches .machine trace) sec.secStart sec.secEnd =
      some ((counted (some sec) trace).map stripMisc) := by
  unfold retained counted
  rw [parseOutput_printBranches, Option.map_some, List.filter_map, List.filter_filter]
  congr 2
  apply List.filter_congr
  intro br hbr
  have hretains : retains sec.secStart sec.secEnd (stripMisc br) =
      (inBounds sec br.from || inBounds sec br.to) := retains_eq sec (stripMisc br)
  change (retains sec.secStart sec.secEnd (stripMisc br) && !leftOut br) = _
  rw [hretains, skipped_eq, Bool.and_comm]
  cases hleft : leftOut br with
  | true => rfl
  | false =>
    have hsame : inBounds sec br.from = inBounds sec br.to := by
      by_contra hne
      exact h ⟨br, hbr, hleft, hne⟩
    rw [hsame, Bool.or_self, Bool.and_self]

theorem resolve_stripMisc (bbs : List BasicBlock) (br : BtsBranch) :
    resolve bbs (stripMisc br) = resolve bbs br := by
  have hloop : ∀ (bbs : List BasicBlock) (fromBb toBb : UInt64),
      resolveLoop (stripMisc br) bbs fromBb toBb = resolveLoop br bbs fromBb toBb := by
    intro bbs
    induction bbs with
    | nil => exact fun _ _ => rfl
    | cons bb bbs ih =>
      intro fromBb toBb
      unfold resolveLoop
      simp only [ih]
      rfl
  unfold resolve
  rw [hloop]
  rfl

/-- What filtered_count holds behind each call. -/
theorem runCalls_filteredCount {m : Monitor} {heap : ℕ} {calls : List Call}
    (hret : ∀ out ∈ runCalls m heap calls, out.stop = .returned 0) :
    (runCalls m heap calls).map Outcome.filteredCount =
      calls.map fun call => some (UInt64.ofNat (counted m.secBounds call.trace).length) := by
  induction calls generalizing m heap with
  | nil => rfl
  | cons call calls ih =>
    unfold runCalls at hret ⊢
    rw [List.map_cons, List.map_cons, filteredCount_eq_counted (hret _ List.mem_cons_self)]
    congr 1
    exact ih fun out hout => hret out (List.mem_cons_of_mem _ hout)

def storedBranches (sec : SectionBounds) (call : Call) : List BtsBranch :=
  (counted (some sec) call.trace).map stripMisc

theorem stored_length_le (sec : SectionBounds) (call : Call) :
    (storedBranches sec call).length ≤ call.trace.length := by
  unfold storedBranches counted
  rw [List.length_map]
  exact List.length_filter_le _ _

/-- What the calls record is the image of what they store. -/
theorem recorded_stored (sec : SectionBounds) (bbs : List BasicBlock) (calls : List Call) :
    recorded (some sec) bbs (calls.flatMap Call.trace) =
      (calls.map (storedBranches sec)).flatten.map (resolve bbs) := by
  induction calls with
  | nil => rfl
  | cons call calls ih =>
    have hcall : recorded (some sec) bbs call.trace =
        (storedBranches sec call).map (resolve bbs) := by
      unfold recorded storedBranches counted
      rw [List.map_map]
      exact List.map_congr_left fun br _ => (resolve_stripMisc bbs br).symm
    rw [List.flatMap_cons, recorded_append, ih, hcall, List.map_cons, List.flatten_cons,
      List.map_append]

theorem start_calls {sec : SectionBounds} {calls : List Call} {rs : List Turn}
    (hlen : (calls.flatMap Call.trace).length < 2 ^ 64)
    (hsides : ∀ call ∈ calls, ¬OneSided sec call.trace) (hworks : ∀ r ∈ rs, r.Works)
    (hout : rs.map Turn.out = calls.map fun call => printBranches .machine call.trace) :
    Stored sec.secStart sec.secEnd rs (start .cPerf sec.secStart sec.secEnd rs)
        (calls.map (storedBranches sec)) ∧
      (start .cPerf sec.secStart sec.secEnd rs).panicked = false := by
  have hread : rs.map (Turn.kept sec.secStart sec.secEnd) =
      (calls.map (storedBranches sec)).map some :=
    calc rs.map (Turn.kept sec.secStart sec.secEnd)
        = (rs.map Turn.out).map fun out => retained out sec.secStart sec.secEnd := by
          rw [List.map_map]
          exact List.map_congr_left fun r hr => (hworks r hr).kept_eq _ _
      _ = (calls.map (storedBranches sec)).map some := by
          rw [hout, List.map_map, List.map_map]
          exact List.map_congr_left fun call hcall => retained_counted (hsides call hcall)
  have hbound : (rs.map (Turn.branchN sec.secStart sec.secEnd)).sum < 2 ^ 64 := by
    rw [← traces_length hread, List.length_flatten, List.map_map]
    rw [List.length_flatMap] at hlen
    exact lt_of_le_of_lt (List.sum_le_sum fun call _ => stored_length_le sec call) hlen
  have hgood : ∀ r ∈ rs, (r.kept sec.secStart sec.secEnd).isSome = true ∧ r.printed = true := by
    intro r hr
    have hmem := List.mem_map_of_mem (f := Turn.kept sec.secStart sec.secEnd) hr
    rw [hread] at hmem
    obtain ⟨trace, -, htrace⟩ := List.mem_map.mp hmem
    exact ⟨by rw [← htrace]; rfl, (hworks r hr).2.2⟩
  have hall : counting sec.secStart sec.secEnd rs = rs := Runs.untilStop_of_all hgood
  obtain ⟨traces, hstored⟩ := start_stored hbound
  have htraces : calls.map (storedBranches sec) = traces := by
    have htraced := hstored.traced
    rw [hall, hread] at htraced
    exact List.map_injective_iff.mpr (Option.some_injective _) htraced
  refine ⟨htraces ▸ hstored, ?_⟩
  rw [← Bool.not_eq_true, hstored.panicked]
  rintro ⟨bad, hbad, hnone | hcut⟩
  · have hsome := (hgood bad hbad).1
    rw [hnone] at hsome
    contradiction
  · have hprinted := (hgood bad hbad).2
    rw [hcut] at hprinted
    contradiction

/-- Both monitors on the same traces, none of which crosses the bounds of the section, in runs in
which no call of either fails: they report the same coverage for each input, branch_hits holds for
each pair of blocks the sum of the counts that the store holds for the branches between them, and it
is not larger than the store. -/
theorem coverage_resolved (m : Monitor) (heap : ℕ) (sec : SectionBounds) (calls : List Call)
    (rs : List Turn) (hempty : m.branchHits = ∅) (hsec : m.secBounds = some sec)
    (hret : ∀ out ∈ runCalls m heap calls, out.stop = .returned 0)
    (hlen : (calls.flatMap Call.trace).length < 2 ^ 64)
    (hsides : ∀ call ∈ calls, ¬OneSided sec call.trace) (hworks : ∀ r ∈ rs, r.Works)
    (hout : rs.map Turn.out = calls.map fun call => printBranches .machine call.trace) :
    ∃ s table, s = start .cPerf sec.secStart sec.secEnd rs ∧
      table = tableAfter ∅ (runCalls m heap calls) ∧ s.panicked = false ∧
      s.shown.map (fun line => some line.coverage) =
        (runCalls m heap calls).map Outcome.filteredCount ∧
      (∀ p, ((table.lookup (hashKey p.1 p.2)).map hits).getD 0 =
        ((s.branchStore.entries.filter fun e => resolve m.bbs e.1 = p).map
          fun e => e.2.toNat).sum) ∧
      table.entries.length ≤ s.branchStore.entries.length := by
  obtain ⟨hstored, hrunning⟩ := start_calls hlen hsides hworks hout
  have htallies := (runCalls_empty hempty hret hlen).tallies
  rw [hsec, recorded_stored] at htallies
  refine ⟨_, _, rfl, rfl, hrunning, ?_, fun p => ?_, ?_⟩
  · have hcov := congrArg (List.map some) hstored.coverage
    rw [List.map_map, List.map_map, List.map_map] at hcov
    refine hcov.trans ?_
    rw [runCalls_filteredCount hret, hsec]
    apply List.map_congr_left
    intro call _
    exact congrArg (fun n => some (UInt64.ofNat n)) (List.length_map _)
  · have hsum := hstored.tallies.sum_filter fun branch => decide (resolve m.bbs branch = p)
    have hcount : ∀ branches : List BtsBranch, (branches.map (resolve m.bbs)).count p =
        branches.countP fun branch => decide (resolve m.bbs branch = p) := by
      intro branches
      rw [List.count, List.countP_map]
      apply List.countP_congr
      intro branch _
      rw [Function.comp_apply, beq_iff_eq, decide_eq_true_eq]
    rw [hashKey_eq, htallies.lookup_map pairKey_injective p, hcount]
    refine Eq.trans ?_ hsum.symm
    split_ifs with hzero
    · exact hzero.symm
    · rfl
  · rw [List.map_map] at htallies
    exact hstored.tallies.entries_map_le htallies

def sectionCalls : List Call :=
  [⟨.succeed, [⟨17, 80, 0⟩, ⟨2, 3, 0⟩]⟩, ⟨.succeed, [⟨18, 80, 1⟩]⟩]

def sectionMonitor : Monitor := { sampleMonitor with secBounds := some ⟨16, 100⟩ }

def sectionTurns : List Turn :=
  sectionCalls.map fun call => .succeed [] (printBranches .machine call.trace)

theorem coverage_resolved_sectionCalls :
    (start .cPerf 16 100 sectionTurns).shown.map (fun line => some line.coverage) =
      (runCalls sectionMonitor 0 sectionCalls).map Outcome.filteredCount := by
  have hsides : ∀ call ∈ sectionCalls, ¬OneSided ⟨16, 100⟩ call.trace := by
    unfold OneSided
    decide
  have hworks : ∀ r ∈ sectionTurns, r.Works := by
    intro r hr
    obtain ⟨call, -, rfl⟩ := List.mem_map.mp hr
    exact ⟨rfl, rfl, rfl⟩
  obtain ⟨s, -, rfl, -, -, hcoverage, -⟩ := coverage_resolved sectionMonitor 0 ⟨16, 100⟩
    sectionCalls sectionTurns rfl rfl (by decide) (by decide) hsides hworks rfl
  exact hcoverage

end FuzzMonitor.RustMonitor
