import FuzzMonitor.FailedTrace
import FuzzMonitor.InputGraphs

namespace FuzzMonitor.Branches
open CStrings Tally

theorem recordBranch_stops {bbs : List BasicBlock} {env : BranchEnv} {branch : BtsBranch}
    {s s' : LoopState} {stop : Stop}
    (h : recordBranch bbs env branch s = (s', some stop)) :
    stop = .returned (-1) ∨ stop = .died := by
  unfold recordBranch at h
  dsimp only at h
  split_ifs at h
  · exact .inr (Option.some.inj (Prod.mk.inj h).2).symm
  · exact .inr (Option.some.inj (Prod.mk.inj h).2).symm
  · split at h
    · exact .inr (Option.some.inj (Prod.mk.inj h).2).symm
    · unfold countHit at h
      split at h
      · cases (Prod.mk.inj h).2
      · split_ifs at h
        · exact .inr (Option.some.inj (Prod.mk.inj h).2).symm
        · exact .inl (Option.some.inj (Prod.mk.inj h).2).symm
        · cases (Prod.mk.inj h).2

def heapAfter (heap : ℕ) (outs : List Outcome) : ℕ := outs.foldl (fun _ out => out.heap) heap

theorem tableAfter_concat (t : BranchHits) (outs : List Outcome) (out : Outcome) :
    tableAfter t (outs ++ [out]) = out.branchHits := by
  unfold tableAfter
  rw [List.foldl_concat]

theorem heapAfter_concat (heap : ℕ) (outs : List Outcome) (out : Outcome) :
    heapAfter heap (outs ++ [out]) = out.heap := by
  unfold heapAfter
  rw [List.foldl_concat]

theorem foldl_next_branchHits (m : Monitor) (outs : List Outcome) :
    (outs.foldl next m).branchHits = tableAfter m.branchHits outs := by
  induction outs generalizing m with
  | nil => rfl
  | cons out outs ih => exact ih (next m out)

theorem runCalls_concat (m : Monitor) (heap : ℕ) (calls : List Call) (call : Call) :
    runCalls m heap (calls ++ [call]) = runCalls m heap calls ++
      [processBranches call.env call.trace ((runCalls m heap calls).foldl next m)
        (callArgs (heapAfter heap (runCalls m heap calls)))] := by
  induction calls generalizing m heap with
  | nil => rfl
  | cons first calls ih =>
    rw [List.cons_append, runCalls, ih, runCalls, List.cons_append]
    rfl

theorem processBranches_stops (env : CallEnv) (trace : List BtsBranch) (m : Monitor) (heap : ℕ) :
    (processBranches env trace m (callArgs heap)).stop = .returned 0 ∨
      (processBranches env trace m (callArgs heap)).stop = .returned (-1) ∨
      (processBranches env trace m (callArgs heap)).stop = .died := by
  unfold processBranches
  rw [if_neg (by simp [callArgs])]
  split
  · split
    · next s stop hloop =>
      obtain ⟨_, _, _, _, -, -, -, hrec⟩ := branchLoop_stopped hloop
      exact .inr (recordBranch_stops hrec)
    · next s _ =>
      obtain ⟨-, ⟨hstop, -⟩ | ⟨hstop, -⟩ | hstop⟩ := finish_cases env m (callArgs heap) s
      · exact .inl hstop
      · exact .inr (.inl hstop)
      · exact .inr (.inr hstop)
  · exact .inr (.inr rfl)

theorem runCalls_length (m : Monitor) (heap : ℕ) (calls : List Call) :
    (runCalls m heap calls).length = calls.length := by
  induction calls generalizing m heap with
  | nil => rfl
  | cons call calls ih => rw [runCalls, List.length_cons, ih, List.length_cons]

theorem foldl_next_inputN (m : Monitor) (outs : List Outcome) :
    (outs.foldl next m).inputN = m.inputN + UInt64.ofNat outs.length := by
  induction outs generalizing m with
  | nil => exact (UInt64.add_zero _).symm
  | cons out outs ih =>
    rw [List.foldl_cons, ih, List.length_cons, ← inputN_shift]
    rfl

/-- What branch_hits holds after calls of which only the last may have failed: every branch in
front of the failure. -/
structure Kept (m : Monitor) (heap : ℕ) (calls : List Call) (kept : List BtsBranch) : Prop where
  cut : kept <+: calls.flatMap Call.trace
  before : calls.dropLast.flatMap Call.trace <+: kept
  whole : (∀ out ∈ runCalls m heap calls, out.stop = .returned 0) →
    kept = calls.flatMap Call.trace
  tallies : Tallies hits (tableAfter m.branchHits (runCalls m heap calls))
    ((recorded m.secBounds m.bbs kept).map pairKey)

theorem foldl_next_fixed (m : Monitor) (outs : List Outcome) :
    (outs.foldl next m).secBounds = m.secBounds ∧ (outs.foldl next m).bbs = m.bbs ∧
      (outs.foldl next m).graphIndivPath = m.graphIndivPath := by
  induction outs generalizing m with
  | nil => exact ⟨rfl, rfl, rfl⟩
  | cons out outs ih => exact ih (next m out)

theorem kept_whole {m : Monitor} {heap : ℕ} {calls : List Call} (hempty : m.branchHits = ∅)
    (hlen : (calls.flatMap Call.trace).length < 2 ^ 64)
    (hret : ∀ out ∈ runCalls m heap calls, out.stop = .returned 0) :
    Kept m heap calls (calls.flatMap Call.trace) := by
  refine ⟨List.prefix_rfl, (List.dropLast_prefix calls).flatMap Call.trace, fun _ => rfl, ?_⟩
  · have h := (runCalls_empty hempty hret hlen).tallies
    rw [hempty]
    exact h

/-- A last call that returns -1 keeps the part of its trace before the failure. -/
theorem kept_failed {m : Monitor} {heap : ℕ} {calls : List Call} {last : Call}
    (hempty : m.branchHits = ∅)
    (hlen : ((calls ++ [last]).flatMap Call.trace).length < 2 ^ 64)
    (hret : ∀ out ∈ runCalls m heap calls, out.stop = .returned 0)
    (hfail : (processBranches last.env last.trace ((runCalls m heap calls).foldl next m)
      (callArgs (heapAfter heap (runCalls m heap calls)))).stop = .returned (-1)) :
    ∃ kept, Kept m heap (calls ++ [last]) kept := by
  obtain ⟨before, rest, htrace, -, hleft⟩ := processBranches_failed hfail
  obtain ⟨hsec, hbbs, -⟩ := foldl_next_fixed m (runCalls m heap calls)
  have hruns := runCalls_concat m heap calls last
  rw [List.flatMap_append, List.flatMap_singleton, List.length_append, htrace,
    List.length_append] at hlen
  have hwhole := kept_whole hempty (by omega) hret
  -- the failed call goes on from the counts of the calls before it
  have htallies := hleft.tallies (recorded m.secBounds m.bbs (calls.flatMap Call.trace))
    (by rw [foldl_next_branchHits]; exact hwhole.tallies)
    (by have hle := recorded_length_le m.secBounds m.bbs (calls.flatMap Call.trace); omega)
  rw [hsec, hbbs, ← recorded_append] at htallies
  refine ⟨calls.flatMap Call.trace ++ before, ?_, ?_, fun hall => ?_, ?_⟩
  · rw [List.flatMap_append, List.flatMap_singleton, htrace, ← List.append_assoc]
    exact List.prefix_append _ _
  · rw [List.dropLast_concat]
    exact List.prefix_append _ _
  · -- the last call is one that does not return 0
    rw [hruns] at hall
    have hzero := hall _ (List.mem_append_right _ (List.mem_singleton_self _))
    rw [hfail] at hzero
    contradiction
  · rw [hruns, tableAfter_concat]
    exact htallies

/-- Calls of which none dies and only the last may fail all return 0, or the last returns -1. -/
theorem runCalls_cases {m : Monitor} {heap : ℕ} {calls : List Call}
    (hbefore : ∀ out ∈ (runCalls m heap calls).dropLast, out.stop = .returned 0)
    (hlast : ∀ out ∈ (runCalls m heap calls).getLast?, out.stop ≠ .died) :
    (∀ out ∈ runCalls m heap calls, out.stop = .returned 0) ∨
      ∃ before last, calls = before ++ [last] ∧
        (∀ out ∈ runCalls m heap before, out.stop = .returned 0) ∧
        (processBranches last.env last.trace ((runCalls m heap before).foldl next m)
          (callArgs (heapAfter heap (runCalls m heap before)))).stop = .returned (-1) := by
  rcases List.eq_nil_or_concat' calls with rfl | ⟨before, last, rfl⟩
  · exact .inl fun _ hout => absurd hout List.not_mem_nil
  · rw [runCalls_concat, List.dropLast_concat] at hbefore
    rw [runCalls_concat, List.getLast?_concat] at hlast
    rw [runCalls_concat]
    -- only the result of the last call is open
    rcases processBranches_stops last.env last.trace ((runCalls m heap before).foldl next m)
      (heapAfter heap (runCalls m heap before)) with h | h | h
    · refine .inl fun out hout => ?_
      rcases List.mem_append.mp hout with hout | hout
      · exact hbefore out hout
      · rw [List.mem_singleton.mp hout]
        exact h
    · exact .inr ⟨before, last, rfl, hbefore, h⟩
    · exact absurd h (hlast _ rfl)

theorem runCalls_kept {m : Monitor} {heap : ℕ} {calls : List Call} (hempty : m.branchHits = ∅)
    (hlen : (calls.flatMap Call.trace).length < 2 ^ 64)
    (hbefore : ∀ out ∈ (runCalls m heap calls).dropLast, out.stop = .returned 0)
    (hlast : ∀ out ∈ (runCalls m heap calls).getLast?, out.stop ≠ .died) :
    ∃ kept, Kept m heap calls kept := by
  obtain hall | ⟨before, last, rfl, hret, hfail⟩ := runCalls_cases hbefore hlast
  · exact ⟨_, kept_whole hempty hlen hall⟩
  · exact kept_failed hempty hlen hret hfail

theorem Balanced.card {t : BranchHits} {hist : List (UInt64 × UInt64)} {news filtered : ℕ}
    (h : Balanced t hist news filtered) : news = hist.toFinset.card := by
  rw [← h.entries, h.tallies.entries_card_map, Finset.card_image_of_injective _ pairKey_injective]

theorem labelLine_injective {p q : UInt64 × UInt64} {c d : UInt64}
    (h : labelLine p.1 p.2 c = labelLine q.1 q.2 d) : p = q := by
  have hquote : "\" -> \"0x".toList = '"' :: " -> \"0x".toList := by decide
  have hend : "\" [label=\"".toList = '"' :: " [label=\"".toList := by decide
  unfold labelLine at h
  rw [hquote, hend] at h
  simp only [List.append_assoc, List.cons_append] at h
  -- a quote ends each address, and no address holds one
  obtain ⟨hfst, hrest⟩ := append_separator_inj (quote_notMem_hex p.1) (quote_notMem_hex q.1)
    (List.append_cancel_left h)
  obtain ⟨hsnd, -⟩ := append_separator_inj (quote_notMem_hex p.2) (quote_notMem_hex q.2)
    (List.append_cancel_left hrest)
  exact Prod.ext (hex_injective hfst) (hex_injective hsnd)

theorem labelLine_ne (p : UInt64 × UInt64) (c : UInt64) :
    labelLine p.1 p.2 c ≠ header ∧ labelLine p.1 p.2 c ≠ footer := by
  have hhead : (labelLine p.1 p.2 c).head? = some '\t' := by
    unfold labelLine
    simp
  constructor
  · intro h
    rw [h] at hhead
    exact absurd hhead (by decide)
  · intro h
    rw [h] at hhead
    exact absurd hhead (by decide)

theorem ListsEdges.mem_iff {hist : List (UInt64 × UInt64)} {file : List CText}
    (h : ListsEdges hist file) (p : UInt64 × UInt64) :
    (∃ c, labelLine p.1 p.2 c ∈ file) ↔ p ∈ hist := by
  obtain ⟨body, rfl, hperm⟩ := h
  constructor
  · rintro ⟨c, hc⟩
    obtain ⟨hheader, hfooter⟩ := labelLine_ne p c
    rw [List.cons_append, List.mem_cons, or_iff_right hheader, List.mem_append,
      List.mem_singleton, or_iff_left hfooter, hperm.mem_iff] at hc
    obtain ⟨q, hq, hline⟩ := List.mem_map.mp hc
    rw [← labelLine_injective hline]
    exact List.mem_dedup.mp hq
  · intro hp
    refine ⟨UInt64.ofNat (hist.count p), List.mem_append_left _ (List.mem_cons_of_mem _ ?_)⟩
    exact hperm.mem_iff.mpr (List.mem_map.mpr ⟨p, List.mem_dedup.mpr hp, rfl⟩)

/-- The files of calls that all return 0 list together what the calls record. -/
theorem files_recorded {m : Monitor} {heap : ℕ} {calls : List Call} (hempty : m.branchHits = ∅)
    (hproper : ∀ call ∈ calls, Proper call)
    (hlen : (calls.flatMap Call.trace).length < 2 ^ 64)
    (hret : ∀ out ∈ runCalls m heap calls, out.stop = .returned 0) (p : UInt64 × UInt64) :
    (∃ f ∈ files (runCalls m heap calls), edgeLine p ∈ f.2) ↔
      p ∈ recorded m.secBounds m.bbs (calls.flatMap Call.trace) := by
  have hunion := runCalls_union hproper hret p
  have hkeys := (kept_whole hempty hlen hret).tallies.mem_keys (pairKey p)
  rw [List.mem_map_of_injective pairKey_injective] at hkeys
  rw [← hkeys, ← AList.mem_keys, hunion, hempty]
  exact (or_iff_right (AList.notMem_empty _)).symm

/-- A call that returns -1 leaves no file. -/
theorem failed_file {env : CallEnv} {trace : List BtsBranch} {m : Monitor} {heap : ℕ}
    (h : (processBranches env trace m (callArgs heap)).stop = .returned (-1)) :
    (processBranches env trace m (callArgs heap)).file = none := by
  unfold processBranches at h ⊢
  rw [if_neg (by simp [callArgs])] at h ⊢
  split at h
  · split at h
    · rfl
    · unfold finish at h ⊢
      split at h
      · rfl
      · dsimp only at h ⊢
        split_ifs at h ⊢
        · rfl
        · split at h <;> cases h
        · split at h <;> cases h
  · rfl

/-- The calls in front of a failure list no edge that the table lacks. -/
theorem Kept.of_file {m : Monitor} {heap : ℕ} {calls : List Call} {kept : List BtsBranch}
    (h : Kept m heap calls kept) (hempty : m.branchHits = ∅)
    (hproper : ∀ call ∈ calls, Proper call)
    (hlen : (calls.flatMap Call.trace).length < 2 ^ 64)
    (hbefore : ∀ out ∈ (runCalls m heap calls).dropLast, out.stop = .returned 0)
    (hlast : ∀ out ∈ (runCalls m heap calls).getLast?, out.stop ≠ .died) {p : UInt64 × UInt64}
    (hp : ∃ f ∈ files (runCalls m heap calls), edgeLine p ∈ f.2) :
    p ∈ recorded m.secBounds m.bbs kept := by
  obtain hall | ⟨before, last, rfl, hret, hfail⟩ := runCalls_cases hbefore hlast
  · rw [h.whole hall]
    exact (files_recorded hempty hproper hlen hall p).mp hp
  · obtain ⟨rest, hkept⟩ := h.before
    rw [List.dropLast_concat] at hkept
    rw [List.flatMap_append, List.length_append] at hlen
    -- the failed call has left no file
    have hfiles : files (runCalls m heap (before ++ [last])) = files (runCalls m heap before) := by
      rw [runCalls_concat]
      unfold files
      rw [List.filterMap_append, List.filterMap_cons_none (failed_file hfail)]
      exact List.append_nil _
    rw [hfiles, files_recorded hempty (fun c hc => hproper c (List.mem_append_left _ hc))
      (by omega) hret] at hp
    rw [← hkept, recorded_append]
    exact List.mem_append_left _ hp

end FuzzMonitor.Branches
