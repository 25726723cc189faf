import FuzzMonitor.CellLog

namespace FuzzMonitor.Branches
open CStrings FuzzMonitor.Graph CellHeap Tally

def useIf (p : Prop) [Decidable p] (id : ℕ) : List ℕ := if p then [id] else []

def resolveUses (fromId toId : ℕ) (branch : BtsBranch) :
    List BasicBlock → UInt64 → UInt64 → List ℕ
  | [], fromBb, toBb => fromId :: useIf (fromBb = 0) fromId ++ toId :: useIf (toBb = 0) toId
  | bb :: bbs, fromBb, toBb =>
    let fromHit := branch.from ≥ bb.from ∧ branch.from < bb.to
    let toHit := branch.to ≥ bb.from ∧ branch.to < bb.to
    let fromBb := if fromHit then bb.from else fromBb
    let toBb := if toHit then bb.from else toBb
    useIf fromHit fromId ++ useIf toHit toId ++ fromId :: useIf (fromBb ≠ 0) toId ++
      if fromBb ≠ 0 ∧ toBb ≠ 0 then [fromId, toId]
      else resolveUses fromId toId branch bbs fromBb toBb

def resolveLog (bbs : List BasicBlock) (branch : BtsBranch) (heap : ℕ) : Log :=
  ([.alloc .address heap, .alloc .address (heap + 1), .use heap, .use (heap + 1)] : Log) ++
    (resolveUses heap (heap + 1) branch bbs 0 0).map .use ++
      ([.alloc .key (heap + 2), .use (heap + 2), .use heap, .use (heap + 1)] : Log)

def hitLog (t : BranchHits) (key : CText) (keyId : ℕ) : Log :=
  match t.lookup key with
  | some entry => [.use keyId, .use entry.keyId, .use entry.value.id, .free keyId]
  | none => [.use keyId, .alloc .value (keyId + 1), .use (keyId + 1), .use keyId]

def recordLog (bbs : List BasicBlock) (env : BranchEnv) (branch : BtsBranch) (s : LoopState) :
    Log :=
  let r := resolve bbs branch
  resolveLog bbs branch s.heap ++ addLog env.graphAdd s.graph ⟨s.heap, r.1⟩ ⟨s.heap + 1, r.2⟩ ++
    hitLog s.branchHits (hashKey r.1 r.2) (s.heap + 2)

def branchLoopLog (secBounds : Option SectionBounds) (bbs : List BasicBlock)
    (env : ℕ → BranchEnv) : ℕ → List BtsBranch → LoopState → Log
  | _, [], _ => []
  | i, branch :: branches, s =>
    if skipped secBounds branch then branchLoopLog secBounds bbs env (i + 1) branches s
    else
      match recordBranch bbs (env i) branch s with
      | (_, some _) => []
      | (s', none) =>
        recordLog bbs (env i) branch s ++ branchLoopLog secBounds bbs env (i + 1) branches s'

def finishLog (s : LoopState) : Log :=
  (depthConnUses s.graph).map .use ++
    foreachLog (if s.newBranches > 0 then .file else .noPrint) s.graph

def callLog (env : CallEnv) (trace : List BtsBranch) (m : Monitor) (args : Args) : Log :=
  if args.newBranches = none ∨ args.filteredCount = none then []
  else
    match graphNew env.graphNew with
    | (.ok, some graph) =>
      let s : LoopState := ⟨graph, m.branchHits, 0, 0, args.heap, []⟩
      match branchLoop m.secBounds m.bbs env.branch 0 trace s with
      | (_, some _) => []
      | (s', none) => branchLoopLog m.secBounds m.bbs env.branch 0 trace s ++ finishLog s'
    | _ => []

def entryIds (e : HitEntry) : List ℕ := [e.keyId, e.value.id]

def heldIds (t : BranchHits) : List ℕ := t.entries.flatMap fun e => entryIds e.2

theorem mem_heldIds {t : BranchHits} {id : ℕ} :
    id ∈ heldIds t ↔ ∃ key entry, t.lookup key = some entry ∧ id ∈ entryIds entry := by
  unfold heldIds
  rw [List.mem_flatMap]
  constructor
  · rintro ⟨⟨key, entry⟩, hentry, hid⟩
    exact ⟨key, entry, AList.mem_lookup_iff.mpr hentry, hid⟩
  · rintro ⟨key, entry, hget, hid⟩
    exact ⟨⟨key, entry⟩, AList.mem_lookup_iff.mp hget, hid⟩

def HeldOnce (t : BranchHits) (id : ℕ) : Prop :=
  ∃! key, ∃ entry, t.lookup key = some entry ∧ id ∈ entryIds entry

theorem heldOnce_of_mem {t : BranchHits} (ht : (heldIds t).Nodup) {id : ℕ} (h : id ∈ heldIds t) :
    HeldOnce t id := by
  obtain ⟨key, entry, hget, hid⟩ := mem_heldIds.mp h
  refine ⟨key, ⟨entry, hget, hid⟩, ?_⟩
  rintro key' ⟨entry', hget', hid'⟩
  by_contra hne
  have hsymm : Std.Symm (Function.onFun List.Disjoint
      fun e : (_ : CText) × HitEntry => entryIds e.2) := ⟨fun _ _ h => h.symm⟩
  have hapart := (List.nodup_flatMap.mp ht).2.forall (AList.mem_lookup_iff.mp hget')
    (AList.mem_lookup_iff.mp hget) fun heq => hne (congrArg Sigma.fst heq)
  exact hapart hid' hid

theorem mem_useIf {p : Prop} [Decidable p] {id n : ℕ} (h : n ∈ useIf p id) : n = id := by
  unfold useIf at h
  split_ifs at h
  · exact List.mem_singleton.mp h
  · contradiction

theorem mem_resolveUses {fromId toId id : ℕ} {branch : BtsBranch} {bbs : List BasicBlock}
    {fromBb toBb : UInt64} (h : id ∈ resolveUses fromId toId branch bbs fromBb toBb) :
    id = fromId ∨ id = toId := by
  induction bbs generalizing fromBb toBb with
  | nil =>
    unfold resolveUses at h
    rw [List.cons_append, List.mem_cons, List.mem_append, List.mem_cons] at h
    rcases h with h | h | h | h
    · exact .inl h
    · exact .inl (mem_useIf h)
    · exact .inr h
    · exact .inr (mem_useIf h)
  | cons bb bbs ih =>
    unfold resolveUses at h
    dsimp only at h
    rw [List.append_assoc, List.append_assoc, List.mem_append, List.mem_append,
      List.cons_append, List.mem_cons, List.mem_append] at h
    rcases h with h | h | h | h | h
    · exact .inl (mem_useIf h)
    · exact .inr (mem_useIf h)
    · exact .inl h
    · exact .inr (mem_useIf h)
    · generalize (if branch.from ≥ bb.from ∧ branch.from < bb.to then bb.from else fromBb) = f,
        (if branch.to ≥ bb.from ∧ branch.to < bb.to then bb.from else toBb) = t at h
      split_ifs at h
      · simpa using h
      · exact ih h

theorem heldIds_insert_fresh {t : BranchHits} {key : CText} (entry : HitEntry)
    (h : t.lookup key = none) : heldIds (t.insert key entry) = entryIds entry ++ heldIds t := by
  unfold heldIds
  rw [AList.entries_insert_of_notMem (AList.lookup_eq_none.mp h), List.flatMap_cons]

theorem heldIds_insert_present {t : BranchHits} {key : CText} {entry old : HitEntry}
    (h : t.lookup key = some old) (hids : entryIds entry = entryIds old) :
    (heldIds (t.insert key entry)).Perm (heldIds t) := by
  have hsplit := (entries_perm h).flatMap_right fun e => entryIds e.2
  rw [List.flatMap_cons, ← hids] at hsplit
  exact hsplit.symm

def loopIds (s : LoopState) : List ℕ := heldIds s.branchHits ++ graphIds s.graph

theorem hitLog_moves {env : BranchEnv} {key : CText} {s s' : LoopState} {rest : List ℕ}
    (h : countHit env key s = (s', none))
    (hrest : ∀ id ∈ heldIds s.branchHits ++ rest, id < s.heap) :
    Moves (s.heap :: heldIds s.branchHits ++ rest) (hitLog s.branchHits key s.heap)
      (heldIds s'.branchHits ++ rest) := by
  have hnew : ∀ n, s.heap ≤ n → n ∉ heldIds s.branchHits ++ rest :=
    fun n hn hmem => absurd (hrest n hmem) (not_lt.mpr hn)
  unfold hitLog
  rcases countHit_cases h with ⟨entry, hget, rfl⟩ | ⟨hget, rfl⟩
  · have hentry : ∀ id ∈ entryIds entry, id ∈ heldIds s.branchHits := by
      intro id hid
      exact mem_heldIds.mpr ⟨key, entry, hget, hid⟩
    have hkey : entry.keyId ∈ s.heap :: heldIds s.branchHits ++ rest := by
      simp [hentry entry.keyId (by simp [entryIds])]
    have hvalue : entry.value.id ∈ s.heap :: heldIds s.branchHits ++ rest := by
      simp [hentry entry.value.id (by simp [entryIds])]
    rw [hget]
    refine Moves.perm ?_ (.refl _) ((heldIds_insert_present hget rfl).symm.append_right rest)
    exact .use (by simp) (.use hkey (.use hvalue (.free (.nil _))))
  · rw [hget]
    dsimp only
    rw [heldIds_insert_fresh _ hget]
    refine .use (by simp) (.alloc .value ?_ (.use (by simp) (.use (by simp) ?_)))
    · rw [List.cons_append, List.mem_cons, not_or]
      exact ⟨Nat.succ_ne_self _, hnew _ (Nat.le_succ _)⟩
    · exact (Moves.nil _).perm (.refl _) (.swap _ _ _)

/-- An entry has the cells of an older one under its key, or two that the log allocates for it. -/
def Stored (t : BranchHits) (log : Log) (t' : BranchHits) : Prop :=
  ∀ key entry, t'.lookup key = some entry →
    (∃ old, t.lookup key = some old ∧ entryIds entry = entryIds old) ∨
      (.alloc .key entry.keyId ∈ log ∧ .alloc .value entry.value.id ∈ log)

/-- What a part of the loop does with cells, as its log has it. -/
structure Tracked (s : LoopState) (log : Log) (s' : LoopState) : Prop where
  ledger : Ledger (loopIds s) s.heap log (loopIds s') s'.heap
  freed_eq : s'.freed = s.freed ++ freed log
  stored : Stored s.branchHits log s'.branchHits

theorem Tracked.refl (s : LoopState) : Tracked s [] s :=
  ⟨.nil _ _, (List.append_nil _).symm, fun _ entry h => .inl ⟨entry, h, rfl⟩⟩

theorem Tracked.trans {s s₁ s' : LoopState} {log log' : Log} (h : Tracked s log s₁)
    (h' : Tracked s₁ log' s') : Tracked s (log ++ log') s' := by
  refine ⟨h.ledger.append h'.ledger, ?_, fun key entry hget => ?_⟩
  · rw [h'.freed_eq, h.freed_eq, freed_append, List.append_assoc]
  · rcases h'.stored key entry hget with ⟨mid, hmid, hids⟩ | ⟨hkey, hvalue⟩
    · rcases h.stored key mid hmid with ⟨old, hold, hids'⟩ | ⟨hkey, hvalue⟩
      · exact .inl ⟨old, hold, hids.trans hids'⟩
      · obtain ⟨hkeyId, hrest⟩ := List.cons.inj hids
        rw [hkeyId, (List.cons.inj hrest).1]
        exact .inr ⟨List.mem_append_left _ hkey, List.mem_append_left _ hvalue⟩
    · exact .inr ⟨List.mem_append_right _ hkey, List.mem_append_right _ hvalue⟩

/-- What the lookup of the key allocates and frees. -/
theorem hitLog_cells {env : BranchEnv} {key : CText} {s s' : LoopState}
    (h : countHit env key s = (s', none)) :
    s.heap < s'.heap ∧
      allocated (hitLog s.branchHits key s.heap) =
        List.range' (s.heap + 1) (s'.heap - (s.heap + 1)) ∧
      s'.freed = s.freed ++ freed (hitLog s.branchHits key s.heap) ∧ s'.graph = s.graph := by
  unfold hitLog
  rcases countHit_cases h with ⟨entry, hget, rfl⟩ | ⟨hget, rfl⟩
  · rw [hget]
    dsimp only
    rw [Nat.sub_self]
    exact ⟨Nat.lt_succ_self _, rfl, rfl, rfl⟩
  · have hone : s.heap + 2 - (s.heap + 1) = 1 := by omega
    rw [hget]
    dsimp only
    rw [hone]
    exact ⟨by omega, rfl, (List.append_nil _).symm, rfl⟩

theorem hitLog_stored {env : BranchEnv} {key : CText} {s s' : LoopState}
    (h : countHit env key s = (s', none)) :
    Stored s.branchHits (.alloc .key s.heap :: hitLog s.branchHits key s.heap) s'.branchHits := by
  intro k entry hentry
  have hother : ∀ e, (s.branchHits.insert key e).lookup k = some entry → k ≠ key →
      s.branchHits.lookup k = some entry := by
    intro e he hne
    rwa [AList.lookup_insert_ne hne] at he
  unfold hitLog
  rcases countHit_cases h with ⟨old, hget, rfl⟩ | ⟨hget, rfl⟩
  · by_cases hk : k = key
    · subst hk
      rw [AList.lookup_insert] at hentry
      cases hentry
      exact .inl ⟨old, hget, rfl⟩
    · exact .inl ⟨entry, hother _ hentry hk, rfl⟩
  · by_cases hk : k = key
    · subst hk
      rw [AList.lookup_insert] at hentry
      cases hentry
      rw [hget]
      exact .inr ⟨by simp, by simp⟩
    · exact .inl ⟨entry, hother _ hentry hk, rfl⟩

theorem Stored.mono {t t' : BranchHits} {log log' : Log} (h : Stored t log t')
    (hsub : log ⊆ log') : Stored t log' t' := by
  intro key entry hentry
  rcases h key entry hentry with hold | ⟨hkey, hvalue⟩
  · exact .inl hold
  · exact .inr ⟨hsub hkey, hsub hvalue⟩

theorem resolveLog_moves (bbs : List BasicBlock) (branch : BtsBranch) {heap : ℕ} {ids : List ℕ}
    (h : Numbered ids heap) :
    Moves ids (resolveLog bbs branch heap) ((heap + 2) :: (heap + 1) :: heap :: ids) := by
  have hto : heap + 1 ∉ heap :: ids := h.cons.notMem le_rfl
  have hkey : heap + 2 ∉ (heap + 1) :: heap :: ids := h.cons.cons.notMem le_rfl
  unfold resolveLog
  rw [List.append_assoc]
  refine .alloc .address (h.notMem le_rfl) (.alloc .address hto (.use ?_ (.use ?_ ?_)))
  · simp
  · simp
  refine .uses (fun id hid => ?_) (.alloc .key hkey (.use ?_ (.use ?_ (.use ?_ (.nil _)))))
  · rcases mem_resolveUses hid with rfl | rfl
    · simp
    · simp
  · simp
  · simp
  · simp

theorem resolveLog_cells (bbs : List BasicBlock) (branch : BtsBranch) (heap : ℕ) :
    freed (resolveLog bbs branch heap) = [] ∧
      allocated (resolveLog bbs branch heap) = [heap, heap + 1, heap + 2] := by
  unfold resolveLog
  rw [freed_append, freed_append, freed_uses, allocated_append, allocated_append, allocated_uses]
  exact ⟨rfl, rfl⟩

theorem recordLog_tracked {bbs : List BasicBlock} {env : BranchEnv}
    (henv : Documented env.graphAdd) {branch : BtsBranch} {s s' : LoopState}
    (hs : Numbered (loopIds s) s.heap) (h : recordBranch bbs env branch s = (s', none)) :
    Tracked s (recordLog bbs env branch s) s' := by
  obtain ⟨gone, hfree, hcount⟩ := recordBranch_cases h
  obtain ⟨hheap, halloc, hfreed, hgraph⟩ := hitLog_cells hcount
  have hstored := hitLog_stored hcount
  have hadd := addLog_moves henv (freeCells_accepts hfree) ((s.heap + 2) :: heldIds s.branchHits)
  have hnumbered : ∀ n ∈ heldIds s.branchHits ++ graphIds s'.graph, n < s.heap + 2 := by
    intro n hn
    rw [hgraph] at hn
    rcases List.mem_append.mp hn with hn | hn
    · exact (hs.below n (List.mem_append_left _ hn)).trans (by omega)
    · rcases mem_graphIds_graphAdd henv (freeCells_accepts hfree) hn with rfl | rfl | hn
      · exact Nat.lt_succ_self _
      · exact Nat.lt_add_of_pos_right (by decide)
      · exact (hs.below n (List.mem_append_right _ hn)).trans (by omega)
  have hhit := hitLog_moves hcount hnumbered
  obtain ⟨hfreedRes, hallocRes⟩ := resolveLog_cells bbs branch s.heap
  obtain ⟨hfreedAdd, hallocAdd⟩ := addLog_cells env.graphAdd s.graph
    ⟨s.heap, (resolve bbs branch).1⟩ ⟨s.heap + 1, (resolve bbs branch).2⟩
  rw [freeCells_eq hfree] at hfreed
  unfold recordLog
  dsimp only at hheap halloc hfreed hgraph hstored hadd hhit ⊢
  rw [hashKey_eq]
  refine ⟨⟨?_, ?_, ?_⟩, ?_, ?_⟩
  · rw [← hgraph] at hadd
    refine ((resolveLog_moves bbs branch hs).append (hadd.perm ?_ ?_)).append hhit
    · apply List.perm_iff_count.mpr
      intro id
      unfold loopIds
      simp only [List.cons_append, List.count_cons, List.count_append]
      omega
    · exact List.perm_append_comm
  · omega
  · have hlen : s'.heap - s.heap = s'.heap - (s.heap + 2 + 1) + 3 := by omega
    rw [allocated_append, allocated_append, hallocRes, hallocAdd, halloc, hlen, List.range'_succ,
      List.range'_succ, List.range'_succ]
    rfl
  · rw [hfreed, freed_append, freed_append, hfreedRes, hfreedAdd, List.nil_append,
      List.append_assoc]
  · apply hstored.mono
    apply List.cons_subset.mpr
    exact ⟨by simp [resolveLog], List.subset_append_right _ _⟩

/-- The loop: its log is that of the model, and breaks no rule. -/
theorem branchLoopLog_tracked {secBounds : Option SectionBounds} {bbs : List BasicBlock}
    {env : ℕ → BranchEnv} (henv : ∀ i, Documented (env i).graphAdd) {i : ℕ}
    {trace : List BtsBranch} {s s' : LoopState} (hs : Numbered (loopIds s) s.heap)
    (h : branchLoop secBounds bbs env i trace s = (s', none)) :
    Tracked s (branchLoopLog secBounds bbs env i trace s) s' := by
  induction trace generalizing i s with
  | nil =>
    cases h
    exact .refl _
  | cons branch trace ih =>
    unfold branchLoop at h
    unfold branchLoopLog
    split_ifs at h ⊢
    · exact ih hs h
    · cases hrec : recordBranch bbs (env i) branch s with
      | mk s₁ stop =>
        rw [hrec] at h
        cases stop with
        | some stop => cases h
        | none =>
          have hstep := recordLog_tracked (henv i) hs hrec
          exact hstep.trans (ih (hstep.ledger.numbered hs) h)

theorem finish_freed {env : CallEnv} {m : Monitor} {args : Args} {s : LoopState}
    {added : List (UInt64 × UInt64)} (hs : Represents s.graph added)
    (h : (finish env m args s).stop = .returned 0) :
    (finish env m args s).freed = s.freed ++ freed (finishLog s) := by
  unfold finishLog
  rw [(finish_file hs h).2, freed_append, freed_uses, (foreachLog_cells _ hs.lengths).1]
  rfl

/-- Behind the loop the cells of the graph are freed, and only those. -/
theorem finishLog_ledger {s : LoopState} (hlen : s.graph.nodes.length = s.graph.edges.length) :
    Ledger (loopIds s) s.heap (finishLog s) (heldIds s.branchHits) s.heap := by
  unfold finishLog
  generalize (if s.newBranches > 0 then PrintTo.file else .noPrint) = fd
  refine ⟨?_, le_rfl, ?_⟩
  · have hforeach := (foreach_moves fd hlen (heldIds s.branchHits)).perm List.perm_append_comm
      (.refl _)
    exact .uses (fun id hid => List.mem_append_right _ (mem_depthConnUses hid)) hforeach
  · rw [allocated_append, allocated_uses, (foreachLog_cells fd hlen).2, Nat.sub_self]
    rfl

/-- A call that returns 0: its log is that of the model, and breaks no rule. -/
theorem callLog_ledger {env : CallEnv} {trace : List BtsBranch} {m : Monitor} {args : Args}
    (henv : ∀ i, Documented (env.branch i).graphAdd)
    (hm : Numbered (heldIds m.branchHits) args.heap)
    (hret : (processBranches env trace m args).stop = .returned 0) :
    Ledger (heldIds m.branchHits) args.heap (callLog env trace m args)
        (heldIds (processBranches env trace m args).branchHits)
        (processBranches env trace m args).heap ∧
      (processBranches env trace m args).freed = freed (callLog env trace m args) ∧
      Stored m.branchHits (callLog env trace m args)
        (processBranches env trace m args).branchHits := by
  by_cases hnull : args.newBranches = none ∨ args.filteredCount = none
  · unfold processBranches callLog
    dsimp only
    rw [if_pos hnull, if_pos hnull]
    exact ⟨.nil _ _, rfl, fun _ entry h => .inl ⟨entry, h, rfl⟩⟩
  · obtain ⟨hnew, s, hloop, hrun⟩ := processBranches_run hnull hret
    have hrep := branchLoop_represents henv represents_empty hloop
    have hstart : loopIds ⟨⟨[], [], 0⟩, m.branchHits, 0, 0, args.heap, []⟩ =
        heldIds m.branchHits := List.append_nil _
    obtain ⟨hledger, hgone, hstored⟩ := branchLoopLog_tracked henv (hstart ▸ hm) hloop
    obtain ⟨⟨htable, hheap⟩, -⟩ := finish_cases env m args s
    rw [hrun] at hret ⊢
    unfold callLog
    rw [if_neg hnull, hnew]
    dsimp only
    rw [hloop]
    rw [hstart] at hledger
    dsimp only at hledger hgone hstored ⊢
    rw [htable, hheap, finish_freed hrep hret, hgone, freed_append]
    exact ⟨hledger.append (finishLog_ledger hrep.lengths), rfl,
      hstored.mono (List.subset_append_left _ _)⟩

/-- Every allocation is a cell of its own; an address cell is freed exactly once, and not read
behind that. -/
structure ReleasesAddresses (log : Log) : Prop where
  identities : (allocated log).Nodup
  released : ∀ id, .alloc .address id ∈ log → ReleasedOnce log id

/-- A key or a count is freed once and no entry holds it, or it is not freed and exactly one entry
holds it. -/
def FreedOrHeld (log : Log) (t : BranchHits) (id : ℕ) : Prop :=
  (ReleasedOnce log id ∧ id ∉ heldIds t) ∨ (id ∉ freed log ∧ HeldOnce t id)

theorem callLog_released {env : CallEnv} {trace : List BtsBranch} {m : Monitor} {args : Args}
    (henv : ∀ i, Documented (env.branch i).graphAdd)
    (hm : Numbered (heldIds m.branchHits) args.heap)
    (hret : (processBranches env trace m args).stop = .returned 0) :
    ReleasesAddresses (callLog env trace m args) ∧
      ∀ id ∈ allocated (callLog env trace m args),
        FreedOrHeld (callLog env trace m args) (processBranches env trace m args).branchHits id := by
  obtain ⟨hledger, -, hstored⟩ := callLog_ledger henv hm hret
  have hnodup := hledger.nodup_allocated
  refine ⟨⟨hnodup, fun id hid => ?_⟩, fun id hid => ?_⟩
  · have halloc := mem_allocated.mpr ⟨_, hid⟩
    refine (hledger.released hm halloc).1 fun hheld => ?_
    -- what the table holds was there before the call, or is a key or a count
    obtain ⟨key, entry, hget, hcell⟩ := mem_heldIds.mp hheld
    rcases hstored key entry hget with ⟨old, hold, hids⟩ | ⟨hkey, hvalue⟩
    · rw [hids] at hcell
      rw [hledger.allocated_eq, List.mem_range'_1] at halloc
      exact hm.notMem halloc.1 (mem_heldIds.mpr ⟨key, old, hold, hcell⟩)
    · unfold entryIds at hcell
      rw [List.mem_cons, List.mem_singleton] at hcell
      rcases hcell with rfl | rfl
      · cases tag_unique hnodup hid hkey
      · cases tag_unique hnodup hid hvalue
  · obtain ⟨hgone, hkept⟩ := hledger.released hm hid
    by_cases hheld : id ∈ heldIds (processBranches env trace m args).branchHits
    · exact .inr ⟨hkept hheld, heldOnce_of_mem (hledger.numbered hm).nodup hheld⟩
    · exact .inl ⟨hgone hheld, hheld⟩

theorem countHit_numbered (env : BranchEnv) (key : CText) {s : LoopState}
    (hs : Numbered (heldIds s.branchHits) s.heap) :
    Numbered (heldIds (countHit env key s).1.branchHits) (countHit env key s).1.heap := by
  unfold countHit
  split
  · next entry hget =>
    exact hs.perm (heldIds_insert_present hget rfl).symm (Nat.le_succ s.heap)
  · next hget =>
    split_ifs
    · exact hs
    · exact hs.perm (.refl _) (Nat.le_add_right s.heap 2)
    · dsimp only
      rw [heldIds_insert_fresh _ hget]
      exact hs.cons.cons.perm (.swap _ _ _) le_rfl

theorem recordBranch_numbered (bbs : List BasicBlock) (env : BranchEnv) (branch : BtsBranch)
    {s : LoopState} (hs : Numbered (heldIds s.branchHits) s.heap) :
    Numbered (heldIds (recordBranch bbs env branch s).1.branchHits)
      (recordBranch bbs env branch s).1.heap := by
  unfold recordBranch
  dsimp only
  split_ifs
  · exact hs
  · exact hs
  · split
    · exact hs
    · apply countHit_numbered
      exact hs.perm (.refl _) (Nat.le_add_right s.heap 2)

theorem branchLoop_numbered (secBounds : Option SectionBounds) (bbs : List BasicBlock)
    (env : ℕ → BranchEnv) (i : ℕ) (trace : List BtsBranch) {s : LoopState}
    (hs : Numbered (heldIds s.branchHits) s.heap) :
    Numbered (heldIds (branchLoop secBounds bbs env i trace s).1.branchHits)
      (branchLoop secBounds bbs env i trace s).1.heap := by
  induction trace generalizing i s with
  | nil => exact hs
  | cons branch trace ih =>
    have hstep := recordBranch_numbered bbs (env i) branch hs
    unfold branchLoop
    split_ifs
    · exact ih (i + 1) hs
    · split
      · next hrec =>
        rw [hrec] at hstep
        exact hstep
      · next hrec =>
        rw [hrec] at hstep
        exact ih (i + 1) hstep

theorem processBranches_numbered (env : CallEnv) (trace : List BtsBranch) {m : Monitor}
    {args : Args} (hm : Numbered (heldIds m.branchHits) args.heap) :
    Numbered (heldIds (processBranches env trace m args).branchHits)
      (processBranches env trace m args).heap := by
  unfold processBranches
  dsimp only
  split_ifs
  · exact hm
  split
  · next graph _ =>
    have hloop := branchLoop_numbered m.secBounds m.bbs env.branch 0 trace
      (s := ⟨graph, m.branchHits, 0, 0, args.heap, []⟩) hm
    split
    · next hrun =>
      rw [hrun] at hloop
      exact hloop
    · next s hrun =>
      rw [hrun] at hloop
      obtain ⟨⟨htable, hheap⟩, -⟩ := finish_cases env m args s
      rw [htable, hheap]
      exact hloop
  · exact hm

end FuzzMonitor.Branches
