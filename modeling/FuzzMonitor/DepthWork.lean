import FuzzMonitor.DepthSearch
import FuzzMonitor.Runs

namespace FuzzMonitor.Graph
open Adjacency Search Runs

def Poll (g : Graph) (s : Bfs) (qElm : BfsQueueElm) (s' : Bfs) : Prop :=
  ∃ queue edgeList, s.queue = qElm :: queue ∧ g.edges[qElm.index]? = some edgeList ∧
    visitEdges g qElm edgeList ⟨queue, s.discovered, s.maxDepth⟩ = .ok s'

def Bfs.start (g : Graph) (startIdx : ℕ) : Bfs :=
  ⟨[⟨0, startIdx⟩], List.replicate g.nNodes false, 0⟩

theorem bfsLoop_run {g : Graph} {fuel : ℕ} {s : Bfs} {D : ℕ} (h : bfsLoop g fuel s = .ok D) :
    ∃ qs s', Run (Poll g) s qs s' ∧ s'.queue = [] ∧ s'.maxDepth = D := by
  induction fuel generalizing s with
  | zero =>
    obtain ⟨queue, discovered, m⟩ := s
    cases queue with
    | nil => exact ⟨[], _, .nil _, rfl, Except.ok.inj h⟩
    | cons q queue => contradiction
  | succ fuel ih =>
    obtain ⟨queue, discovered, m⟩ := s
    cases queue with
    | nil => exact ⟨[], _, .nil _, rfl, Except.ok.inj h⟩
    | cons q queue =>
      rw [bfsLoop] at h
      split at h
      · contradiction
      · next edgeList hget =>
        split at h
        · contradiction
        · next s₁ hvisit =>
          obtain ⟨qs, s', hrun, hend⟩ := ih h
          exact ⟨q :: qs, s', .cons ⟨queue, edgeList, rfl, hget, hvisit⟩ hrun, hend⟩

def entry (g : Graph) (e : BfsQueueElm) : ℕ × UInt64 := (e.depth, g.addrAt e.index)

/-- A run of polls is a run of the search over the addresses: the elements polled are its entries
so far, and no entry is as deep as there are entries. -/
structure Searched (g : Graph) (added : List (UInt64 × UInt64)) (start : UInt64) (s : Bfs)
    (qs : List BfsQueueElm) (snap : Snapshot UInt64) : Prop where
  sim : Simulates g (SearchStep added) start s snap
  done : snap.done = qs.map g.entry
  polled : ∀ q ∈ qs, q.index < g.nodes.length
  shallow : ∀ e ∈ snap.entries, e.1 < snap.entries.length

variable {g : Graph} {added : List (UInt64 × UInt64)} {start : UInt64} {s s' : Bfs}
  {qs : List BfsQueueElm} {q : BfsQueueElm} {snap : Snapshot UInt64}

theorem searched_start (hrep : Represents g added) {i : ℕ} (hi : i < g.nodes.length) :
    Searched g added (g.addrAt i) (.start g i) [] ⟨[], [(0, g.addrAt i)]⟩ where
  sim := simulates_start hrep hi
  done := rfl
  polled := fun _ h => absurd h List.not_mem_nil
  shallow := by simp [Snapshot.entries]

theorem Searched.poll (hs : Searched g added start s qs snap) (hrep : Represents g added)
    (h : Poll g s q s') : ∃ snap', Searched g added start s' (qs ++ [q]) snap' := by
  obtain ⟨queue, discovered, m⟩ := s
  obtain ⟨rest, edgeList, hqueue, hget, hvisit⟩ := h
  dsimp only at hqueue hvisit
  subst hqueue
  have hindex := hs.sim.indices q List.mem_cons_self
  obtain ⟨es, hes, hne, htargets⟩ := hrep.targets hindex
  rw [hget] at hes
  cases hes
  obtain ⟨s₁, new, hvisit₁, hscan⟩ := visitEdges_spec hrep.invariant.nodes_nodup q edgeList
    ⟨rest, discovered, m⟩ _ hs.sim.marks
  rw [hvisit] at hvisit₁
  cases hvisit₁
  obtain ⟨_, _, hpolls, hsim⟩ := hs.sim.next hrep hne htargets hscan
  refine ⟨_, hsim, ?_, ?_, hpolls.shallow_next hs.shallow⟩
  · rw [List.map_append, ← hs.done]
    rfl
  · intro e he
    rcases List.mem_append.mp he with he | he
    · exact hs.polled e he
    · rw [List.mem_singleton.mp he]
      exact hindex

theorem searched_of_run (hrep : Represents g added) {i : ℕ} (hi : i < g.nodes.length)
    (hrun : Run (Poll g) (.start g i) qs s) :
    ∃ snap, Searched g added (g.addrAt i) s qs snap :=
  hrun.history (J := fun s qs => ∃ snap, Searched g added (g.addrAt i) s qs snap)
    ⟨_, searched_start hrep hi⟩ fun _ _ _ _ ⟨_, hs⟩ hpoll => hs.poll hrep hpoll

/-- The elements queued so far, in the order in which they were: the queue is first in, first
out, so these are the polled ones and those that wait. -/
def queued (s : Bfs) (qs : List BfsQueueElm) : List BfsQueueElm := qs ++ s.queue

theorem Searched.entries_eq (hs : Searched g added start s qs snap) :
    snap.entries = (queued s qs).map g.entry := by
  unfold Snapshot.entries queued
  rw [hs.done, hs.sim.queue, List.map_append]
  rfl

theorem Searched.index_lt (hs : Searched g added start s qs snap) {e : BfsQueueElm}
    (he : e ∈ queued s qs) : e.index < g.nodes.length := by
  rcases List.mem_append.mp he with he | he
  · exact hs.polled e he
  · exact hs.sim.indices e he

theorem Searched.addrs_eq (hs : Searched g added start s qs snap) :
    ∃ found : List UInt64, found.Nodup ∧ g.addrs (queued s qs) = start :: found := by
  refine ⟨snap.found.map Prod.snd, hs.sim.inv.nodup, ?_⟩
  have hentries := congrArg (List.map Prod.snd) hs.sim.inv.entries_eq
  rw [hs.entries_eq, List.map_map] at hentries
  exact hentries

theorem Searched.length_le (hs : Searched g added start s qs snap) :
    (queued s qs).length ≤ g.nodes.length + 1 := by
  obtain ⟨found, hnodup, haddrs⟩ := hs.addrs_eq
  have hsub : found ⊆ g.nodes.map Cell.val := by
    intro a ha
    have hmem : a ∈ g.addrs (queued s qs) := by
      rw [haddrs]
      exact List.mem_cons_of_mem _ ha
    obtain ⟨e, he, rfl⟩ := List.mem_map.mp hmem
    exact addrAt_mem (hs.index_lt he)
  have hlen := congrArg List.length haddrs
  have hle := (hnodup.subperm hsub).length_le
  unfold addrs at hlen
  rw [List.length_map, List.length_cons] at hlen
  rw [List.length_map] at hle
  omega

theorem count_index_le (g : Graph) (es : List BfsQueueElm) (j : ℕ) :
    (es.map BfsQueueElm.index).count j ≤ (g.addrs es).count (g.addrAt j) := by
  have hmap : g.addrs es = (es.map BfsQueueElm.index).map g.addrAt := by
    rw [List.map_map]
    rfl
  rw [hmap]
  exact List.count_le_count_map

/-- The start may be queued a second time, where an edge leads back to it: it was not marked. -/
theorem Searched.count_le_two (hs : Searched g added start s qs snap) (j : ℕ) :
    ((queued s qs).map BfsQueueElm.index).count j ≤ 2 := by
  obtain ⟨found, hnodup, haddrs⟩ := hs.addrs_eq
  have hle := count_index_le g (queued s qs) j
  have hfound := List.nodup_iff_count_le_one.mp hnodup (g.addrAt j)
  rw [haddrs, List.count_cons] at hle
  split_ifs at hle <;> omega

/-- Every other node is marked before it is queued. -/
theorem Searched.count_le_one {i : ℕ} (hs : Searched g added (g.addrAt i) s qs snap)
    (hnd : (g.nodes.map Cell.val).Nodup) (hi : i < g.nodes.length) {j : ℕ} (hne : j ≠ i) :
    ((queued s qs).map BfsQueueElm.index).count j ≤ 1 := by
  by_cases hmem : j ∈ (queued s qs).map BfsQueueElm.index
  · obtain ⟨e, he, rfl⟩ := List.mem_map.mp hmem
    obtain ⟨found, hnodup, haddrs⟩ := hs.addrs_eq
    have hle := count_index_le g (queued s qs) e.index
    have hfound := List.nodup_iff_count_le_one.mp hnodup (g.addrAt e.index)
    have haddr : g.addrAt i ≠ g.addrAt e.index := by
      intro h
      exact hne (addrAt_injOn hnd hi (hs.index_lt he) h).symm
    rw [haddrs, List.count_cons_of_ne haddr] at hle
    omega
  · rw [List.count_eq_zero_of_not_mem hmem]
    exact Nat.zero_le 1

theorem Searched.maxDepth_le (hs : Searched g added start s qs snap) :
    s.maxDepth ≤ g.nodes.length + 1 := by
  have hlen := hs.length_le
  have hentries := congrArg List.length hs.entries_eq
  rw [List.length_map] at hentries
  rcases hs.sim.deepest.2 with hzero | ⟨d, hd, hmax⟩
  · omega
  · obtain ⟨e, he, rfl⟩ := List.mem_map.mp hd
    have hlt := hs.shallow e (List.mem_append_left _ he)
    omega

/-- graph_depth returns after at most one poll for each node and one more; on its way it queues no
node twice but the start, and that at most twice; and what it returns is at most the number of
nodes and one more. -/
theorem graphDepth_work (adds : List (Cell × Cell)) {i : ℕ} (hi : i < (ofAdds adds).nodes.length) :
    (∃ qs s, Run (Poll (ofAdds adds)) (.start (ofAdds adds) i) qs s ∧ s.queue = [] ∧
      (ofAdds adds).graphDepth i = .ok s.maxDepth ∧
      s.maxDepth ≤ (ofAdds adds).nodes.length + 1) ∧
    ∀ qs s, Run (Poll (ofAdds adds)) (.start (ofAdds adds) i) qs s →
      qs.length ≤ (ofAdds adds).nodes.length + 1 ∧
      ((queued s qs).map BfsQueueElm.index).count i ≤ 2 ∧
      ∀ j, j ≠ i → ((queued s qs).map BfsQueueElm.index).count j ≤ 1 := by
  have hrep := represents_ofAdds adds
  constructor
  · obtain ⟨D, hdepth, -⟩ := graphDepth_spec hrep hi
    have hloop := hdepth
    unfold graphDepth at hloop
    have hnodes := hrep.counter
    rw [if_neg (by omega), if_neg (by omega)] at hloop
    obtain ⟨qs, s, hrun, hempty, hmax⟩ := bfsLoop_run hloop
    obtain ⟨snap, hs⟩ := searched_of_run hrep hi hrun
    exact ⟨qs, s, hrun, hempty, by rw [hmax, hdepth], hs.maxDepth_le⟩
  · intro qs s hrun
    obtain ⟨snap, hs⟩ := searched_of_run hrep hi hrun
    have hlen := hs.length_le
    unfold queued at hlen
    rw [List.length_append] at hlen
    exact ⟨by omega, hs.count_le_two i, fun j hj =>
      hs.count_le_one hrep.invariant.nodes_nodup hi hj⟩

/-- Two nodes in a cycle: the start is queued again behind the other one, and its depth counts
twice. -/
theorem graphDepth_work_cycle :
    ∃ qs s, Run (Poll (ofAdds [(⟨0, 1⟩, ⟨1, 2⟩), (⟨2, 2⟩, ⟨3, 1⟩)]))
        (.start (ofAdds [(⟨0, 1⟩, ⟨1, 2⟩), (⟨2, 2⟩, ⟨3, 1⟩)]) 0) qs s ∧ s.queue = [] ∧
      (ofAdds [(⟨0, 1⟩, ⟨1, 2⟩), (⟨2, 2⟩, ⟨3, 1⟩)]).graphDepth 0 = .ok s.maxDepth ∧
      s.maxDepth ≤ 2 + 1 :=
  (graphDepth_work [(⟨0, 1⟩, ⟨1, 2⟩), (⟨2, 2⟩, ⟨3, 1⟩)] (by decide)).1

example : (ofAdds [(⟨0, 1⟩, ⟨1, 2⟩), (⟨2, 2⟩, ⟨3, 1⟩)]).graphDepth 0 = .ok 3 := by decide

end FuzzMonitor.Graph
