import FuzzMonitor.CellRelease

namespace FuzzMonitor.Branches
open CStrings FuzzMonitor.Graph CellHeap

def decodeLog (entry : HitEntry) (heap : ℕ) : Log :=
  [.use entry.keyId, .alloc .key heap, .use heap, .alloc .address (heap + 1), .use heap,
    .use (heap + 1), .alloc .address (heap + 2), .use heap, .use (heap + 2), .free heap,
    .use (heap + 1), .use (heap + 2), .use entry.value.id]

def entryLog (env : EntryEnv) (key : CText) (entry : HitEntry) (s : FreeState) : Log :=
  match decodeKey key with
  | none => []
  | some r =>
    decodeLog entry s.heap ++ addLog env.graphAdd s.graph ⟨s.heap + 1, r.1⟩ ⟨s.heap + 2, r.2⟩ ++
      ([.free entry.keyId, .free entry.value.id] : Log)

def freeEntriesLog (env : ℕ → EntryEnv) : ℕ → List (CText × HitEntry) → FreeState → Log
  | _, [], _ => []
  | i, e :: es, s =>
    match freeEntry (env i) e.1 e.2 s with
    | none => []
    | some s' => entryLog (env i) e.1 e.2 s ++ freeEntriesLog env (i + 1) es s'

/-- What happens to the cells of a call of free_hashtable that returns. -/
def freeLog (env : FreeEnv) (entries : List (CText × HitEntry)) (graphFilename : Option CText)
    (heap : ℕ) : Log :=
  match graphFilename with
  | none => entries.flatMap fun e => [.free e.2.keyId, .free e.2.value.id]
  | some _ =>
    if !env.fopen then []
    else
      match graphNew env.graphNew with
      | (.ok, some graph) =>
        if entries.length = 0 then []
        else
          match freeEntries env.entry 0 entries ⟨graph, [header], heap, []⟩ with
          | none => []
          | some s => freeEntriesLog env.entry 0 entries ⟨graph, [header], heap, []⟩ ++
              foreachLog .log s.graph
      | _ => []

def givenIds (entries : List (CText × HitEntry)) : List ℕ := entries.flatMap fun e => entryIds e.2

theorem freeEntry_cases {env : EntryEnv} {key : CText} {entry : HitEntry} {s s' : FreeState}
    (h : freeEntry env key entry s = some s') :
    ∃ r gone, decodeKey key = some r ∧
      freeCells (s.graph.graphAdd env.graphAdd ⟨s.heap + 1, r.1⟩ ⟨s.heap + 2, r.2⟩).1
        ⟨s.heap + 1, r.1⟩ ⟨s.heap + 2, r.2⟩ (s.freed ++ [s.heap]) = some gone ∧
      s' = ⟨(s.graph.graphAdd env.graphAdd ⟨s.heap + 1, r.1⟩ ⟨s.heap + 2, r.2⟩).2,
        s.file ++ [labelLine r.1 r.2 entry.value.val], s.heap + 3,
        gone ++ [entry.keyId, entry.value.id]⟩ := by
  unfold freeEntry at h
  cases hdecode : decodeKey key with
  | none =>
    rw [hdecode] at h
    split_ifs at h
  | some r =>
    rw [hdecode] at h
    dsimp only at h
    split_ifs at h
    split at h
    · cases h
    · next gone hfree => exact ⟨r, gone, rfl, hfree, (Option.some.inj h).symm⟩

theorem decodeLog_moves {entry : HitEntry} {heap : ℕ} {ids : List ℕ} (h : Numbered ids heap)
    (hkey : entry.keyId ∈ ids) (hvalue : entry.value.id ∈ ids) :
    Moves ids (decodeLog entry heap) ((heap + 2) :: (heap + 1) :: ids) := by
  have hfrom : heap + 1 ∉ heap :: ids := h.cons.notMem le_rfl
  have hto : heap + 2 ∉ (heap + 1) :: heap :: ids := h.cons.cons.notMem le_rfl
  have hfree : Moves (heap :: (heap + 2) :: (heap + 1) :: ids)
      [.free heap, .use (heap + 1), .use (heap + 2), .use entry.value.id]
      ((heap + 2) :: (heap + 1) :: ids) :=
    .free (.use (by simp) (.use (by simp) (.use (by simp [hvalue]) (Moves.nil (T := CellTag) _))))
  have hlast : Moves ((heap + 2) :: (heap + 1) :: heap :: ids) _ _ :=
    hfree.perm (((List.Perm.swap _ _ _).cons _).trans (.swap _ _ _)) (.refl _)
  refine .use hkey (.alloc .key (h.notMem le_rfl) (.use (by simp) ?_))
  refine .alloc .address hfrom (.use (by simp) (.use (by simp) ?_))
  exact .alloc .address hto (.use (by simp) (.use (by simp) hlast))

theorem entryLog_ledger {env : EntryEnv} (henv : Documented env.graphAdd) {key : CText}
    {entry : HitEntry} {rest : List ℕ} {s s' : FreeState}
    (hs : Numbered (entryIds entry ++ (rest ++ graphIds s.graph)) s.heap)
    (h : freeEntry env key entry s = some s') :
    Ledger (entryIds entry ++ (rest ++ graphIds s.graph)) s.heap (entryLog env key entry s)
        (rest ++ graphIds s'.graph) s'.heap ∧
      s'.freed = s.freed ++ freed (entryLog env key entry s) := by
  obtain ⟨r, gone, hdecode, hfree, rfl⟩ := freeEntry_cases h
  obtain ⟨hfreedAdd, hallocAdd⟩ := addLog_cells env.graphAdd s.graph ⟨s.heap + 1, r.1⟩
    ⟨s.heap + 2, r.2⟩
  have hdec : Moves _ (decodeLog entry s.heap) _ :=
    decodeLog_moves hs (by simp [entryIds]) (by simp [entryIds])
  have hadd := addLog_moves henv (freeCells_accepts hfree) (entryIds entry ++ rest)
  unfold entryLog
  rw [hdecode]
  dsimp only at hadd ⊢
  refine ⟨⟨?_, Nat.le_add_right _ _, ?_⟩, ?_⟩
  · refine (hdec.append (hadd.perm ?_ ?_)).append (.free (.free (.nil _)))
    · apply List.perm_iff_count.mpr
      intro id
      simp only [List.cons_append, List.count_cons, List.count_append]
      omega
    · exact List.perm_append_comm.trans (.of_eq (List.append_assoc _ _ _))
  · have hthree : s.heap + 3 - s.heap = 3 := Nat.add_sub_cancel_left _ _
    rw [allocated_append, allocated_append, hallocAdd, hthree]
    rfl
  · rw [freeCells_eq hfree, freed_append, freed_append, hfreedAdd]
    simp [decodeLog]

theorem freeEntry_represents {env : EntryEnv} (henv : Documented env.graphAdd) {key : CText}
    {entry : HitEntry} {s s' : FreeState} {added : List (UInt64 × UInt64)}
    (hs : Represents s.graph added) (h : freeEntry env key entry s = some s') :
    ∃ added', Represents s'.graph added' := by
  obtain ⟨r, gone, -, hfree, rfl⟩ := freeEntry_cases h
  dsimp only
  rw [graphAdd_accepted henv (freeCells_accepts hfree)]
  exact ⟨_, hs.graphAdd _ _⟩

theorem freeEntriesLog_ledger {env : ℕ → EntryEnv} (henv : ∀ i, Documented (env i).graphAdd)
    {i : ℕ} {es : List (CText × HitEntry)} {s s' : FreeState} {added : List (UInt64 × UInt64)}
    (hrep : Represents s.graph added) (hs : Numbered (givenIds es ++ graphIds s.graph) s.heap)
    (h : freeEntries env i es s = some s') :
    Ledger (givenIds es ++ graphIds s.graph) s.heap (freeEntriesLog env i es s)
        (graphIds s'.graph) s'.heap ∧
      s'.freed = s.freed ++ freed (freeEntriesLog env i es s) ∧
      ∃ added', Represents s'.graph added' := by
  induction es generalizing i s added with
  | nil =>
    cases h
    exact ⟨.nil _ _, (List.append_nil _).symm, added, hrep⟩
  | cons e es ih =>
    unfold freeEntries at h
    unfold freeEntriesLog
    cases hentry : freeEntry (env i) e.1 e.2 s with
    | none =>
      rw [hentry] at h
      cases h
    | some s₁ =>
      rw [hentry] at h
      have hgiven : givenIds (e :: es) = entryIds e.2 ++ givenIds es := List.flatMap_cons
      rw [hgiven, List.append_assoc] at hs ⊢
      obtain ⟨hledger, hfreed⟩ := entryLog_ledger (henv i) hs hentry
      obtain ⟨added₁, hrep₁⟩ := freeEntry_represents (henv i) hrep hentry
      obtain ⟨hrest, hfreed', hrep'⟩ := ih hrep₁ (hledger.numbered hs) h
      refine ⟨hledger.append hrest, ?_, hrep'⟩
      rw [hfreed', hfreed, freed_append, List.append_assoc]

theorem givenIds_ledger (entries : List (CText × HitEntry)) (heap : ℕ) :
    Ledger (givenIds entries) heap
        (entries.flatMap fun e => [.free e.2.keyId, .free e.2.value.id] : Log) [] heap ∧
      freed (entries.flatMap fun e => [.free e.2.keyId, .free e.2.value.id] : Log) =
        givenIds entries := by
  unfold givenIds
  induction entries with
  | nil => exact ⟨.nil [] heap, rfl⟩
  | cons e es ih =>
    obtain ⟨hledger, hfreed⟩ := ih
    have hentry : Ledger (entryIds e.2 ++ es.flatMap fun e => entryIds e.2) heap
        ([.free e.2.keyId, .free e.2.value.id] : Log) (es.flatMap fun e => entryIds e.2) heap := by
      refine ⟨.free (.free (.nil _)), le_rfl, ?_⟩
      rw [Nat.sub_self]
      rfl
    rw [List.flatMap_cons, List.flatMap_cons, freed_append, hfreed]
    exact ⟨hentry.append hledger, rfl⟩

theorem reportGraph_ledger (name : CText) {s : FreeState} {added : List (UInt64 × UInt64)}
    (hs : Represents s.graph added) :
    Ledger (graphIds s.graph) s.heap (foreachLog .log s.graph) [] s.heap ∧
      (reportGraph name s).freed = s.freed ++ freed (foreachLog .log s.graph) := by
  have hmoves := foreach_moves .log hs.lengths []
  rw [List.append_nil] at hmoves
  refine ⟨⟨hmoves, le_rfl, ?_⟩, ?_⟩
  · rw [(foreachLog_cells .log hs.lengths).2, Nat.sub_self]
    rfl
  · unfold reportGraph
    rw [hs.graphEdges]
    dsimp only
    rw [graphForeach_printAndFree hs.lengths, (foreachLog_cells .log hs.lengths).1]

/-- A free_hashtable of a table with entries that returns got through its whole loop. -/
theorem freeHashtable_run {env : FreeEnv} {entries : List (CText × HitEntry)} {name : CText}
    {heap : ℕ} (hne : entries.length ≠ 0)
    (h : (freeHashtable env entries (some name) heap).stop = .returned) :
    env.fopen = true ∧ graphNew env.graphNew = (.ok, some ⟨[], [], 0⟩) ∧
    ∃ s, freeEntries env.entry 0 entries ⟨⟨[], [], 0⟩, [header], heap, []⟩ = some s ∧
      freeHashtable env entries (some name) heap = reportGraph name s := by
  have hopen : env.fopen = true := by
    by_contra hclosed
    unfold freeHashtable at h
    dsimp only at h
    rw [Bool.eq_false_of_not_eq_true hclosed, Bool.not_false, if_pos rfl] at h
    cases h
  unfold freeHashtable at h
  dsimp only at h
  rw [hopen, Bool.not_true, if_neg Bool.false_ne_true] at h
  split at h
  · next graph hnew =>
    cases graphNew_ok hnew
    rw [if_neg hne] at h
    split at h
    · cases h
    · next s hloop =>
      refine ⟨hopen, hnew, s, hloop, ?_⟩
      unfold freeHashtable
      dsimp only
      rw [hopen, Bool.not_true, if_neg Bool.false_ne_true, hnew]
      dsimp only
      rw [if_neg hne, hloop]
  · cases h

theorem freeHashtable_empty (env : FreeEnv) (name : CText) (heap : ℕ) :
    freeLog env [] (some name) heap = [] ∧
      (freeHashtable env [] (some name) heap).freed = [] := by
  constructor
  · unfold freeLog
    dsimp only
    split_ifs with hopen hzero
    · rfl
    · split
      · rfl
      · rfl
    · exact absurd rfl hzero
  · unfold freeHashtable
    dsimp only
    split_ifs with hopen hzero
    · rfl
    · split
      · rfl
      · rfl
    · exact absurd rfl hzero

/-- A call of free_hashtable that returns frees every cell that it is given or allocates. -/
theorem freeLog_ledger {env : FreeEnv} {entries : List (CText × HitEntry)}
    {graphFilename : Option CText} {heap : ℕ} (henv : ∀ i, Documented (env.entry i).graphAdd)
    (hgiven : Numbered (givenIds entries) heap)
    (hret : (freeHashtable env entries graphFilename heap).stop = .returned) :
    (∃ heap', Ledger (givenIds entries) heap (freeLog env entries graphFilename heap) [] heap') ∧
      (freeHashtable env entries graphFilename heap).freed =
        freed (freeLog env entries graphFilename heap) := by
  cases graphFilename with
  | none =>
    obtain ⟨hledger, hfreed⟩ := givenIds_ledger entries heap
    exact ⟨⟨heap, hledger⟩, hfreed.symm⟩
  | some name =>
    by_cases hempty : entries.length = 0
    · obtain ⟨hlog, hfreed⟩ := freeHashtable_empty env name heap
      rw [List.eq_nil_of_length_eq_zero hempty, hlog, hfreed]
      exact ⟨⟨heap, .nil _ _⟩, rfl⟩
    · obtain ⟨hopen, hnew, s, hloop, hrun⟩ := freeHashtable_run hempty hret
      have hstart : givenIds entries ++ graphIds ⟨[], [], 0⟩ = givenIds entries :=
        List.append_nil _
      obtain ⟨hledger, hfreed, added, hrep⟩ :=
        freeEntriesLog_ledger henv represents_empty (hstart.symm ▸ hgiven) hloop
      obtain ⟨hreport, hfreed'⟩ := reportGraph_ledger name hrep
      rw [hrun, hfreed', hfreed]
      unfold freeLog
      dsimp only
      rw [hopen, Bool.not_true, if_neg Bool.false_ne_true, hnew]
      dsimp only
      rw [if_neg hempty, hloop]
      rw [hstart] at hledger
      dsimp only at hledger ⊢
      rw [freed_append]
      exact ⟨⟨s.heap, hledger.append hreport⟩, rfl⟩

/-- The entries that the iterator yields hold the cells of the table. -/
theorem givenIds_perm {t : BranchHits} {entries : List (CText × HitEntry)}
    (h : entries.Perm (t.entries.map fun e => (e.1, e.2))) :
    (givenIds entries).Perm (heldIds t) := by
  have hflat := h.flatMap_right fun e => entryIds e.2
  rw [List.flatMap_map] at hflat
  exact hflat

/-- Whatever a call of process_branches makes, its table holds cells of its own. When it returns 0,
its address cells are all freed once and not read behind that, and each key and count is freed once
or held by one entry. A free_hashtable with a graph file frees its address cells likewise. -/
theorem address_cells_released :
    (∀ (env : CallEnv) (trace : List BtsBranch) (m : Monitor) (args : Args),
      Numbered (heldIds m.branchHits) args.heap →
        Numbered (heldIds (processBranches env trace m args).branchHits)
          (processBranches env trace m args).heap ∧
        ((∀ i, Documented (env.branch i).graphAdd) →
          (processBranches env trace m args).stop = .returned 0 →
            (processBranches env trace m args).freed = freed (callLog env trace m args) ∧
            allocated (callLog env trace m args) =
              List.range' args.heap ((processBranches env trace m args).heap - args.heap) ∧
            ReleasesAddresses (callLog env trace m args) ∧
            ∀ id ∈ allocated (callLog env trace m args), FreedOrHeld (callLog env trace m args)
              (processBranches env trace m args).branchHits id)) ∧
    (∀ (env : FreeEnv) (t : BranchHits) (entries : List (CText × HitEntry)) (name : CText)
      (heap : ℕ), (∀ i, Documented (env.entry i).graphAdd) →
      entries.Perm (t.entries.map fun e => (e.1, e.2)) → Numbered (heldIds t) heap →
        (freeHashtable env entries (some name) heap).stop = .returned →
          (freeHashtable env entries (some name) heap).freed =
            freed (freeLog env entries (some name) heap) ∧
          ReleasesAddresses (freeLog env entries (some name) heap)) := by
  constructor
  · intro env trace m args hm
    refine ⟨processBranches_numbered env trace hm, fun henv hret => ?_⟩
    obtain ⟨hledger, hfreed, -⟩ := callLog_ledger henv hm hret
    obtain ⟨haddresses, hcells⟩ := callLog_released henv hm hret
    exact ⟨hfreed, hledger.allocated_eq, haddresses, hcells⟩
  · intro env t entries name heap henv hperm ht hret
    have hgiven := ht.perm (givenIds_perm hperm).symm le_rfl
    obtain ⟨⟨heap', hledger⟩, hfreed⟩ := freeLog_ledger henv hgiven hret
    refine ⟨hfreed, hledger.nodup_allocated, fun id hid => ?_⟩
    exact (hledger.released hgiven (mem_allocated.mpr ⟨_, hid⟩)).1 List.not_mem_nil

def repeatMonitor : Monitor := ⟨sampleHits, none, [], some "graphs".toList, 0⟩

def repeatTrace : List BtsBranch := [⟨16, 80, 0⟩, ⟨16, 96, 0⟩, ⟨16, 80, 0⟩, ⟨80, 16, 0⟩]

theorem sampleHits_numbered : Numbered (heldIds sampleHits) 2 := ⟨by decide, by decide⟩

theorem address_cells_released_repeatTrace :
    ReleasesAddresses (callLog .succeed repeatTrace repeatMonitor (callArgs 2)) ∧
    ReleasesAddresses (freeLog .succeed (sampleHits.entries.map fun e => (e.1, e.2))
      (some "graph.gv".toList) 2) := by
  constructor
  · have hcall := (address_cells_released.1 .succeed repeatTrace repeatMonitor (callArgs 2)
      sampleHits_numbered).2 (fun _ => documented_succeed)
      (processBranches_succeed repeatTrace repeatMonitor 2)
    exact hcall.2.2.1
  · exact (address_cells_released.2 .succeed sampleHits _ "graph.gv".toList 2
      (fun _ => documented_succeed) (.refl _) sampleHits_numbered
      (freeHashtable_file [((16, 80), ⟨0, ⟨1, 1⟩⟩)] _ 2).1).2

end FuzzMonitor.Branches
