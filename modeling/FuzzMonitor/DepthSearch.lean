import FuzzMonitor.GraphDepth

namespace FuzzMonitor.Graph
open Adjacency Search

def addrs (g : Graph) (new : List BfsQueueElm) : List UInt64 := new.map fun e => g.addrAt e.index

/-- What scanning some edges of a polled element does: it queues and marks exactly the
undiscovered nodes among the targets. -/
structure Scanned (g : Graph) (q : BfsQueueElm) (es : List Cell) (s s' : Bfs)
    (found : List UInt64) (new : List BfsQueueElm) : Prop where
  queue : s'.queue = s.queue ++ new
  fresh : ∀ e ∈ new, e.depth = q.depth + 1 ∧ e.index < g.nodes.length ∧
    g.addrAt e.index ∈ es.map Cell.val ∧ g.addrAt e.index ∉ found
  nodup : (g.addrs new).Nodup
  marks : Marks g s'.discovered (found ++ g.addrs new)
  complete : ∀ x ∈ es.map Cell.val, x ∈ g.nodes.map Cell.val → x ∈ found ++ g.addrs new
  measure : new.length + s'.discovered.count false = s.discovered.count false
  maxDepth : s'.maxDepth = if es = [] then s.maxDepth else max s.maxDepth (q.depth + 1)

/-- An edge to an address that is no node, or to a node already marked. -/
theorem scanned_skip {g : Graph} {q : BfsQueueElm} {s : Bfs} {found : List UInt64}
    (hm : Marks g s.discovered found) {e : Cell}
    (h : e.val ∈ g.nodes.map Cell.val → e.val ∈ found) :
    Scanned g q [e] s (raiseDepth q s) found [] where
  queue := by simp
  fresh := by simp
  nodup := by simp [addrs]
  marks := by simpa [addrs] using hm
  complete := by simpa [addrs] using h
  measure := by simp
  maxDepth := by simp

theorem visitEdge_spec {g : Graph} (hnd : (g.nodes.map Cell.val).Nodup) (q : BfsQueueElm)
    (s : Bfs) (found : List UInt64) (hm : Marks g s.discovered found) (e : Cell) :
    ∃ s' new, visitEdge g q s e = .ok s' ∧ Scanned g q [e] s s' found new := by
  unfold visitEdge
  cases hf : g.graphFindNodeIndex e.val with
  | none => exact ⟨_, [], rfl, scanned_skip hm fun h => absurd h (graphFindNodeIndex_none hf)⟩
  | some i =>
    obtain ⟨hi, ha⟩ := graphFindNodeIndex_some hf
    have hmark := hm.mark i hi
    dsimp only
    rw [hmark]
    by_cases hin : g.addrAt i ∈ found
    · rw [decide_eq_true hin]
      exact ⟨_, [], rfl, scanned_skip hm fun _ => ha ▸ hin⟩
    · -- the only case that queues an element and marks a node
      rw [decide_eq_false hin] at hmark ⊢
      have hc := count_false_set hmark
      refine ⟨_, [⟨q.depth + 1, i⟩], rfl, ⟨by simp, ?_, by simp [addrs], ?_, ?_, ?_, by simp⟩⟩
      · simpa using ⟨hi, ha, hin⟩
      · simpa [addrs] using hm.set hnd hi
      · simp [addrs, ha]
      · simp only [List.length_singleton, raiseDepth_discovered]
        omega

theorem Scanned.cons {g : Graph} {q : BfsQueueElm} {e : Cell} {es : List Cell} {s s₁ s₂ : Bfs}
    {found : List UInt64} {new₁ new₂ : List BfsQueueElm} (h₁ : Scanned g q [e] s s₁ found new₁)
    (h₂ : Scanned g q es s₁ s₂ (found ++ g.addrs new₁) new₂) :
    Scanned g q (e :: es) s s₂ found (new₁ ++ new₂) := by
  have haddrs : g.addrs (new₁ ++ new₂) = g.addrs new₁ ++ g.addrs new₂ := List.map_append
  refine ⟨?_, ?_, ?_, ?_, ?_, ?_, ?_⟩
  · rw [h₂.queue, h₁.queue, List.append_assoc]
  · intro x hx
    rcases List.mem_append.mp hx with hx | hx
    · obtain ⟨hd, hi, ht, hn⟩ := h₁.fresh x hx
      exact ⟨hd, hi, by simpa using Or.inl (List.mem_singleton.mp ht), hn⟩
    · obtain ⟨hd, hi, ht, hn⟩ := h₂.fresh x hx
      exact ⟨hd, hi, List.mem_cons_of_mem _ ht, fun h => hn (List.mem_append_left _ h)⟩
  · rw [haddrs]
    refine h₁.nodup.append h₂.nodup fun a ha hb => ?_
    obtain ⟨x, hx, rfl⟩ := List.mem_map.mp hb
    exact (h₂.fresh x hx).2.2.2 (List.mem_append_right _ ha)
  · rw [haddrs, ← List.append_assoc]
    exact h₂.marks
  · intro x hx hn
    rw [haddrs, ← List.append_assoc]
    rcases List.mem_cons.mp hx with rfl | hx
    · exact List.mem_append_left _ (h₁.complete _ (by simp) hn)
    · exact h₂.complete x hx hn
  · have hm₁ := h₁.measure
    have hm₂ := h₂.measure
    rw [List.length_append]
    omega
  · rw [h₂.maxDepth, h₁.maxDepth]
    simp only [List.cons_ne_nil, if_false]
    split_ifs <;> omega

theorem visitEdges_spec {g : Graph} (hnd : (g.nodes.map Cell.val).Nodup) (q : BfsQueueElm)
    (es : List Cell) (s : Bfs) (found : List UInt64) (hm : Marks g s.discovered found) :
    ∃ s' new, visitEdges g q es s = .ok s' ∧ Scanned g q es s s' found new := by
  induction es generalizing s found with
  | nil =>
    exact ⟨s, [], rfl, ⟨by simp, by simp, by simp [addrs], by simpa [addrs] using hm, by simp,
      by simp, rfl⟩⟩
  | cons e es ih =>
    obtain ⟨s₁, new₁, he, h₁⟩ := visitEdge_spec hnd q s found hm e
    obtain ⟨s₂, new₂, hes, h₂⟩ := ih s₁ _ h₁.marks
    refine ⟨s₂, new₁ ++ new₂, ?_, h₁.cons h₂⟩
    rw [visitEdges, he]
    exact hes

/-- The loop's state stands for a snapshot of the queue search over the addresses. -/
structure Simulates (g : Graph) (r : UInt64 → UInt64 → Prop) (start : UInt64) (s : Bfs)
    (snap : Snapshot UInt64) : Prop where
  queue : snap.queue = s.queue.map fun e => (e.depth, g.addrAt e.index)
  indices : ∀ e ∈ s.queue, e.index < g.nodes.length
  marks : Marks g s.discovered (snap.found.map Prod.snd)
  inv : Inv r start snap
  deepest : Deepest (snap.done.map Prod.fst) s.maxDepth

abbrev SearchStep (added : List (UInt64 × UInt64)) (a b : UInt64) : Prop :=
  Edge added a b ∧ Source added b

theorem Deepest.snoc {depths : List ℕ} {m : ℕ} (h : Deepest depths m) (d : ℕ) :
    Deepest (depths ++ [d]) (max m (d + 1)) := by
  refine ⟨fun x hx => ?_, ?_⟩
  · rcases List.mem_append.mp hx with hx | hx
    · exact (h.1 x hx).trans (Nat.le_max_left _ _)
    · rw [List.mem_singleton.mp hx]
      exact Nat.le_max_right _ _
  · right
    rcases h.2 with rfl | ⟨x, hx, rfl⟩
    · exact ⟨d, by simp, by omega⟩
    · by_cases hxd : x ≤ d
      · exact ⟨d, by simp, by omega⟩
      · exact ⟨x, List.mem_append_left _ hx, by omega⟩

theorem Represents.source_iff {g : Graph} {added : List (UInt64 × UInt64)}
    (h : Represents g added) (a : UInt64) : a ∈ g.nodes.map Cell.val ↔ Source added a := by
  rw [← sources_rows g h.lengths, h.rows_eq]
  exact AdjList.mem_sources_ofHistory

theorem Represents.targets {g : Graph} {added : List (UInt64 × UInt64)}
    (h : Represents g added) {i : ℕ} (hi : i < g.nodes.length) :
    ∃ es, g.edges[i]? = some es ∧ es ≠ [] ∧
      ∀ b, b ∈ es.map Cell.val ↔ Edge added (g.addrAt i) b := by
  have hi' : i < g.edges.length := h.lengths ▸ hi
  refine ⟨g.edges[i], List.getElem?_eq_getElem hi',
    h.invariant.lists_ne_nil _ (List.getElem_mem hi'), fun b => ?_⟩
  have hrow : (g.addrAt i, g.edges[i].map Cell.val) ∈ g.rows := by
    rw [addrAt_eq (List.getElem?_eq_getElem hi), rows_eq_zip]
    refine List.mem_map.mpr ⟨(g.nodes[i], g.edges[i]), ?_, rfl⟩
    rw [← List.getElem_zip (h := by rw [List.length_zip]; omega)]
    exact List.getElem_mem _
  rw [Edge, ← h.mem_pairs, pairs, Adjacency.mem_pairs]
  constructor
  · exact fun hb => ⟨_, hrow, hb⟩
  · rintro ⟨vs, hvs, hb⟩
    have := List.inj_on_of_nodup_map h.wellFormed.sources_nodup hvs hrow rfl
    rwa [← (Prod.mk.inj this).2]

/-- One poll of the loop is one poll of the search. -/
theorem Simulates.next {g : Graph} {added : List (UInt64 × UInt64)} {start : UInt64}
    {q : BfsQueueElm} {queue : List BfsQueueElm} {discovered : List Bool} {m : ℕ}
    {snap : Snapshot UInt64} {es : List Cell} {s' : Bfs} {new : List BfsQueueElm}
    (h : Simulates g (SearchStep added) start ⟨q :: queue, discovered, m⟩ snap)
    (hrep : Represents g added) (hne : es ≠ [])
    (hes : ∀ b, b ∈ es.map Cell.val ↔ Edge added (g.addrAt q.index) b)
    (hscan : Scanned g q es ⟨queue, discovered, m⟩ s' (snap.found.map Prod.snd) new) :
    ∃ rest new, Polls (SearchStep added) snap q.depth (g.addrAt q.index) rest new ∧
      Simulates g (SearchStep added) start s' (snap.next q.depth (g.addrAt q.index) rest new) := by
  -- the snapshot speaks of addresses where the queue holds indices
  let pair (e : BfsQueueElm) : ℕ × UInt64 := (e.depth, g.addrAt e.index)
  have hsnd : (new.map pair).map Prod.snd = g.addrs new := by
    simp [pair, addrs, Function.comp_def]
  have hpolls : Polls (SearchStep added) snap q.depth (g.addrAt q.index) (queue.map pair)
      (new.map pair) := by
    refine ⟨h.queue, hsnd ▸ hscan.nodup, fun e he => ?_, fun v hv => ?_⟩
    · obtain ⟨x, hx, rfl⟩ := List.mem_map.mp he
      obtain ⟨hd, hi, ht, hn⟩ := hscan.fresh x hx
      exact ⟨hd, ⟨(hes _).mp ht, (hrep.source_iff _).mp (addrAt_mem hi)⟩, hn⟩
    · rw [hsnd]
      exact List.mem_append.mp (hscan.complete v ((hes v).mpr hv.1) ((hrep.source_iff v).mpr hv.2))
  refine ⟨queue.map pair, new.map pair, hpolls, ?_, ?_, ?_, h.inv.next hpolls, ?_⟩
  · rw [hscan.queue, List.map_append]
    rfl
  · rw [hscan.queue]
    intro e he
    rcases List.mem_append.mp he with he | he
    · exact h.indices e (List.mem_cons_of_mem _ he)
    · exact (hscan.fresh e he).2.1
  · rw [hpolls.found_next, List.map_append, hsnd]
    exact hscan.marks
  · rw [hscan.maxDepth, if_neg hne]
    simpa [Snapshot.next] using h.deepest.snoc q.depth

/-- With as much fuel as queued and unmarked nodes, the loop ends in a finished search. -/
theorem bfsLoop_spec {g : Graph} {added : List (UInt64 × UInt64)} (hrep : Represents g added)
    {start : UInt64} (fuel : ℕ) (s : Bfs) (snap : Snapshot UInt64)
    (hsim : Simulates g (SearchStep added) start s snap)
    (hfuel : s.queue.length + s.discovered.count false ≤ fuel) :
    ∃ D snap', bfsLoop g fuel s = .ok D ∧ snap'.queue = [] ∧
      Inv (SearchStep added) start snap' ∧ Deepest (snap'.done.map Prod.fst) D := by
  induction fuel generalizing s snap with
  | zero =>
    obtain ⟨queue, discovered, m⟩ := s
    obtain rfl : queue = [] := List.length_eq_zero_iff.mp (by dsimp only at hfuel; omega)
    exact ⟨m, snap, rfl, hsim.queue, hsim.inv, hsim.deepest⟩
  | succ fuel ih =>
    obtain ⟨queue, discovered, m⟩ := s
    cases queue with
    | nil => exact ⟨m, snap, rfl, hsim.queue, hsim.inv, hsim.deepest⟩
    | cons q queue =>
      obtain ⟨es, hget, hne, hes⟩ := hrep.targets (hsim.indices q List.mem_cons_self)
      obtain ⟨s', new, hvisit, hscan⟩ := visitEdges_spec hrep.invariant.nodes_nodup q es
        ⟨queue, discovered, m⟩ _ hsim.marks
      obtain ⟨_, _, _, hsim'⟩ := hsim.next hrep hne hes hscan
      -- a poll takes one element away, and each one it adds costs an unmarked node
      have hmeasure := hscan.measure
      have hqueue := congrArg List.length hscan.queue
      simp only [List.length_append, List.length_cons] at hmeasure hqueue hfuel
      rw [bfsLoop, hget]
      dsimp only
      rw [hvisit]
      exact ih s' _ hsim' (by omega)

/-- The depths that graph_depth takes the maximum of: 1, and one more than the shortest
non-empty walk to each source it reaches. -/
def Depths (added : List (UInt64 × UInt64)) (a : UInt64) : Set ℕ :=
  {m | m = 1 ∨ ∃ b d, Source added b ∧ NextDist (Edge added) a b d ∧ m = d + 1}

theorem simulates_start {g : Graph} {added : List (UInt64 × UInt64)} (hrep : Represents g added)
    {i : ℕ} (hi : i < g.nodes.length) :
    Simulates g (SearchStep added) (g.addrAt i)
      ⟨[⟨0, i⟩], List.replicate g.nNodes false, 0⟩ ⟨[], [(0, g.addrAt i)]⟩ := by
  have hcount : g.nodes.length ≤ g.nNodes := by
    rw [hrep.counter]
    omega
  refine ⟨rfl, by simpa using hi, ⟨by simpa using hcount, fun j hj => ?_⟩, inv_init _ _, ?_⟩
  · rw [List.getElem?_replicate, if_pos (by omega)]
    simp [Snapshot.found, Snapshot.entries]
  · exact ⟨by simp, Or.inl rfl⟩

/-- A finished search from an address has its depth as the largest one. -/
theorem isGreatest_of_finished {added : List (UInt64 × UInt64)} {start : UInt64}
    {snap : Snapshot UInt64} {D : ℕ} (hq : snap.queue = [])
    (hinv : Inv (SearchStep added) start snap) (hdeep : Deepest (snap.done.map Prod.fst) D) :
    IsGreatest (Depths added start) D := by
  have hdone : snap.done = (0, start) :: snap.found := by
    rw [← hinv.entries_eq, Snapshot.entries, hq, List.append_nil]
  have hfound (d : ℕ) (b : UInt64) :
      (d, b) ∈ snap.found ↔ NextDist (Edge added) start b d ∧ Source added b := by
    rw [hinv.mem_found_iff hq, nextDist_restrict_iff Edge.source]
  rw [hdone] at hdeep
  constructor
  · have hpos : 0 + 1 ≤ D := hdeep.1 0 (by simp)
    rcases hdeep.2 with rfl | ⟨d, hd, rfl⟩
    · omega
    · rcases List.mem_cons.mp hd with rfl | hd
      · exact Or.inl rfl
      · obtain ⟨⟨e, b⟩, he, rfl⟩ := List.mem_map.mp hd
        obtain ⟨hn, hb⟩ := (hfound e b).mp he
        exact Or.inr ⟨b, e, hb, hn, rfl⟩
  · rintro m (rfl | ⟨b, d, hb, hn, rfl⟩)
    · exact hdeep.1 0 (by simp)
    · apply hdeep.1 d
      apply List.mem_cons_of_mem
      exact List.mem_map.mpr ⟨(d, b), (hfound d b).mpr ⟨hn, hb⟩, rfl⟩

theorem graphDepth_spec {g : Graph} {added : List (UInt64 × UInt64)} (hrep : Represents g added)
    {i : ℕ} (hi : i < g.nodes.length) :
    ∃ D, g.graphDepth i = .ok D ∧ IsGreatest (Depths added (g.addrAt i)) D := by
  obtain ⟨D, snap, hloop, hq, hinv, hdeep⟩ := bfsLoop_spec hrep (g.nNodes + 1) _ _
    (simulates_start hrep hi) (by simp; omega)
  have hpos : 0 < g.nNodes := by
    rw [hrep.counter]
    omega
  refine ⟨D, ?_, isGreatest_of_finished hq hinv hdeep⟩
  rw [graphDepth, if_neg (by omega), if_neg (by omega)]
  exact hloop

def SourceDistances (added : List (UInt64 × UInt64)) (a : UInt64) : Set ℕ :=
  {d | d = 0 ∨ ∃ v, Source added v ∧ NextDist (Edge added) a v d}

/-- graph_depth is one more than the farthest source that the start reaches, the start itself
included where it lies on a cycle. -/
theorem graphDepth_exact (adds : List (Cell × Cell)) {i : ℕ} (hi : i < (ofAdds adds).nodes.length) :
    ∃ D, (ofAdds adds).graphDepth i = .ok (1 + D) ∧
      IsGreatest (SourceDistances (history adds) ((ofAdds adds).addrAt i)) D := by
  obtain ⟨D, hdepth, hmem, hle⟩ := graphDepth_spec (represents_ofAdds adds) hi
  have hpos : 1 ≤ D := hle (.inl rfl)
  refine ⟨D - 1, by rw [hdepth, Nat.add_sub_cancel' hpos], ?_, ?_⟩
  · rcases hmem with rfl | ⟨v, d, hv, hd, rfl⟩
    · exact .inl rfl
    · exact .inr ⟨v, hv, hd⟩
  · rintro d (rfl | ⟨v, hv, hd⟩)
    · exact Nat.zero_le _
    · have hmax : d + 1 ≤ D := hle (.inr ⟨v, d, hv, hd, rfl⟩)
      omega

theorem graphDepth_exact_selfLoop :
    ∃ D, (ofAdds [(⟨0, 1⟩, ⟨1, 1⟩), (⟨2, 1⟩, ⟨3, 2⟩)]).graphDepth 0 = .ok (1 + D) ∧
      IsGreatest (SourceDistances (history [(⟨0, 1⟩, ⟨1, 1⟩), (⟨2, 1⟩, ⟨3, 2⟩)])
        ((ofAdds [(⟨0, 1⟩, ⟨1, 1⟩), (⟨2, 1⟩, ⟨3, 2⟩)]).addrAt 0)) D :=
  graphDepth_exact [(⟨0, 1⟩, ⟨1, 1⟩), (⟨2, 1⟩, ⟨3, 2⟩)] (by decide)

/-- The checks at the start of graph_depth: it searches, and its assertion passes. -/
def EntryChecks (g : Graph) (startIdx : ℕ) : Prop := g.nNodes ≠ 0 ∧ g.nodes.length ≥ startIdx

instance (g : Graph) (startIdx : ℕ) : Decidable (EntryChecks g startIdx) :=
  inferInstanceAs (Decidable (_ ∧ _))

/-- Behind its entry checks, graph_depth runs without a failed assertion or an index out of bounds
exactly when the start is not the size of nodes, which they let through. -/
theorem graphDepth_checked_iff (adds : List (Cell × Cell)) {startIdx : ℕ}
    (hchecks : EntryChecks (ofAdds adds) startIdx) :
    (∃ d, (ofAdds adds).graphDepth startIdx = .ok d) ↔ startIdx < (ofAdds adds).nodes.length := by
  have hrep := represents_ofAdds adds
  obtain ⟨hnodes, hsize⟩ := hchecks
  constructor
  · rintro ⟨d, hd⟩
    by_contra hlt
    have hbeyond : (ofAdds adds).edges[startIdx]? = none := by
      rw [List.getElem?_eq_none_iff, ← hrep.lengths]
      omega
    unfold graphDepth bfsLoop at hd
    rw [if_neg hnodes, if_neg (not_not.mpr hsize)] at hd
    simp only [hbeyond] at hd
    contradiction
  · intro hlt
    obtain ⟨d, hd, -⟩ := graphDepth_spec hrep hlt
    exact ⟨d, hd⟩

theorem graphDepth_checked_selfLoop : ∃ d, (ofAdds [(⟨0, 1⟩, ⟨1, 1⟩)]).graphDepth 0 = .ok d :=
  (graphDepth_checked_iff [(⟨0, 1⟩, ⟨1, 1⟩)] (by decide)).mpr (by decide)

/-- One edge: index 1 passes the checks, and edges has no entry there. -/
theorem graphDepth_past_end :
    EntryChecks (ofAdds [(⟨0, 1⟩, ⟨1, 2⟩)]) 1 ∧
      (ofAdds [(⟨0, 1⟩, ⟨1, 2⟩)]).graphDepth 1 = .error .assertion := by decide

end FuzzMonitor.Graph
