import FuzzMonitor.GraphOutput
import FuzzMonitor.TableRelease

namespace FuzzMonitor.Main
open CStrings Inotify Branches Perf MonitorLoop CellHeap

def callsLog : Monitor → ℕ → List Call → Log
  | _, _, [] => []
  | m, heap, call :: calls =>
    let out := processBranches call.env call.trace m (callArgs heap)
    callLog call.env call.trace m (callArgs heap) ++ callsLog (next m out) out.heap calls

/-- One call after the other begins and ends with the cells of the table. -/
theorem callsLog_ledger {m : Monitor} {heap : ℕ} {calls : List Call}
    (hdoc : ∀ call ∈ calls, ∀ i, Documented (call.env.branch i).graphAdd)
    (hm : CellHeap.Numbered (heldIds m.branchHits) heap)
    (hret : ∀ out ∈ runCalls m heap calls, out.stop = .returned 0) :
    Ledger (heldIds m.branchHits) heap (callsLog m heap calls)
        (heldIds (tableAfter m.branchHits (runCalls m heap calls)))
        (heapAfter heap (runCalls m heap calls)) ∧
      freed (callsLog m heap calls) = (runCalls m heap calls).flatMap Outcome.freed := by
  induction calls generalizing m heap with
  | nil => exact ⟨.nil _ _, rfl⟩
  | cons call calls ih =>
    unfold runCalls at hret ⊢
    unfold callsLog
    dsimp only at hret ⊢
    have hcall := hret _ List.mem_cons_self
    obtain ⟨hledger, hfreed, -⟩ := callLog_ledger (hdoc call List.mem_cons_self) hm hcall
    have hrest := ih (fun c hc => hdoc c (List.mem_cons_of_mem _ hc)) (hledger.numbered hm)
      fun out hout => hret out (List.mem_cons_of_mem _ hout)
    obtain ⟨hledger', hfreed'⟩ := hrest
    rw [List.flatMap_cons, freed_append, hfreed, ← hfreed']
    exact ⟨hledger.append hledger', rfl⟩

/-- In every run of main that exits with 0, each cell that process_branches or free_hashtable
allocates, for an address, a key or a count, is freed exactly once, and not read or freed behind
that; and what is freed is what the model frees. -/
theorem mainRun_cells {env : MainEnv} {order : BranchHits → List (CText × HitEntry)}
    {args : List CText} {s : MonitorLoop.LoopState} (hloop : (mainRun env order args).loop = some s)
    (hend : (mainRun env order args).ending = .exits exitSuccess)
    (horder : ∀ t, (order t).Perm (t.entries.map fun e => (e.1, e.2)))
    (hdoc : ∀ p ∈ env.loop.passes, ∀ i, Documented (p.call.branch i).graphAdd)
    (hfree : ∀ i, Documented (env.loop.free.entry i).graphAdd) :
    ∃ sut path m s₀ handled out log, Entered env args sut path m ∧ m.branchHits = ∅ ∧
      s₀.monitor = m ∧ (handled.map Handled.env).Sublist env.loop.passes ∧
      MakesCalls ((env.loop.setUp path).conf sut path) s₀ handled s ∧
      (mainRun env order args).graph = some out ∧
      log = callsLog m s₀.heap (handled.map (Handled.call ((env.loop.setUp path).conf sut path))) ++
        freeLog env.loop.free (order s.monitor.branchHits)
          (readOptions env.posixlyCorrect args).1.graphFilename s.heap ∧
      freed log = s.outcomes.flatMap Outcome.freed ++ out.freed ∧
      Safe ∅ log ∧ ∀ id ∈ allocated log, ReleasedOnce log id := by
  obtain ⟨sut, path, m, s₀, handled, ret, out, hentered, hempty, hs₀, hsub, hcalls, -, hstop, hout,
    hgraph, hstatus⟩ := mainRun_exits hloop hend
  subst hs₀
  rcases hstatus with ⟨hreturned, hret⟩ | hfail
  · have hall := (hcalls.ends hstop).2 hret.symm
    have hcallsDoc : ∀ call ∈ handled.map (Handled.call ((env.loop.setUp path).conf sut path)),
        ∀ i, Documented (call.env.branch i).graphAdd := by
      intro call hcall
      obtain ⟨one, hone, rfl⟩ := List.mem_map.mp hcall
      exact hdoc one.env (hsub.subset (List.mem_map_of_mem hone))
    have hnone : heldIds s₀.monitor.branchHits = [] := by
      rw [hempty]
      rfl
    have hstart : CellHeap.Numbered (heldIds s₀.monitor.branchHits) s₀.heap := by
      rw [hnone]
      exact ⟨List.nodup_nil, fun _ hid => absurd hid List.not_mem_nil⟩
    have hruns := hcalls.outcomes
    rw [hruns] at hall
    obtain ⟨hledger, hfreed⟩ := callsLog_ledger hcallsDoc hstart hall
    rw [← hruns] at hledger hfreed
    rw [← hcalls.table, ← hcalls.heap] at hledger
    -- free_hashtable takes over the cells of the table
    have hgiven := givenIds_perm (horder s.monitor.branchHits)
    have hnumbered := (hledger.numbered hstart).perm hgiven.symm le_rfl
    rw [hout] at hreturned
    obtain ⟨⟨heap', hfreeLedger⟩, hfreeFreed⟩ := freeLog_ledger hfree hnumbered hreturned
    have hwhole := hledger.append (hfreeLedger.perm_left hgiven.symm)
    refine ⟨sut, path, _, s₀, handled, out, _, hentered, hempty, rfl, hsub, hcalls, hgraph, rfl,
      ?_, ?_, ?_⟩
    · rw [freed_append, hfreed, hout, hfreeFreed]
    · exact (hwhole.moves ∅ (hnone ▸ owned_toFinset List.nodup_nil)).1
    · intro id hid
      exact (hwhole.released hstart hid).1 List.not_mem_nil
  · exact absurd hfail (by decide)

theorem mainRun_cells_sample :
    ∃ s out, ∃ log : Log, (mainRun sampleMain sampleOrder sampleArgs).loop = some s ∧
      (mainRun sampleMain sampleOrder sampleArgs).graph = some out ∧
      freed log = s.outcomes.flatMap Outcome.freed ++ out.freed ∧ Safe ∅ log ∧
      ∀ id ∈ allocated log, ReleasedOnce log id := by
  obtain ⟨s, hloop⟩ := sampleMain_loops
  obtain ⟨-, -, -, -, -, out, log, -, -, -, -, -, hgraph, -, hfreed, hsafe, hreleased⟩ :=
    mainRun_cells hloop sampleMain_exits (fun t => List.Perm.refl _) sampleEnvs_tame.documented
      fun _ => documented_succeed
  exact ⟨s, out, log, hloop, hgraph, hfreed, hsafe, hreleased⟩

end FuzzMonitor.Main
