import FuzzMonitor.GraphRep
import FuzzMonitor.Search

namespace FuzzMonitor.Graph
open Adjacency Search

structure BfsQueueElm where
  depth : ℕ
  index : ℕ
  deriving DecidableEq, Repr

/-- The ways graph_depth could go wrong: a failed assertion, or an index beyond
the end of the discovered array. -/
inductive DepthError | assertion | outOfBounds | outOfFuel
  deriving DecidableEq, Repr

structure Bfs where
  queue : List BfsQueueElm
  discovered : List Bool
  maxDepth : ℕ
  deriving DecidableEq, Repr

/-- none stands for -1. -/
def graphFindNodeIndex (g : Graph) (value : UInt64) : Option ℕ :=
  g.nodes.findIdx? fun node => node.val == value

def raiseDepth (qElm : BfsQueueElm) (s : Bfs) : Bfs :=
  { s with maxDepth := if qElm.depth + 1 > s.maxDepth then qElm.depth + 1 else s.maxDepth }

def visitEdge (g : Graph) (qElm : BfsQueueElm) (s : Bfs) (edgeValue : Cell) :
    Except DepthError Bfs :=
  match g.graphFindNodeIndex edgeValue.val with
  -- a target that is no node is never queued, but it raises max_depth
  | none => .ok (raiseDepth qElm s)
  | some idx =>
    match s.discovered[idx]? with
    | none => .error .outOfBounds
    | some true => .ok (raiseDepth qElm s)
    | some false =>
      .ok (raiseDepth qElm
        { s with
          queue := s.queue ++ [⟨qElm.depth + 1, idx⟩]
          discovered := s.discovered.set idx true })

def visitEdges (g : Graph) (qElm : BfsQueueElm) : List Cell → Bfs → Except DepthError Bfs
  | [], s => .ok s
  | e :: es, s =>
    match visitEdge g qElm s e with
    | .error err => .error err
    | .ok s => visitEdges g qElm es s

/-- The outer loop; the fuel bounds the number of polls. -/
def bfsLoop (g : Graph) : ℕ → Bfs → Except DepthError ℕ
  | fuel, ⟨qElm :: queue, discovered, maxDepth⟩ =>
    match fuel with
    | 0 => .error .outOfFuel
    | fuel + 1 =>
      match g.edges[qElm.index]? with
      | none => .error .assertion
      | some edgeList =>
        match visitEdges g qElm edgeList ⟨queue, discovered, maxDepth⟩ with
        | .error err => .error err
        | .ok s => bfsLoop g fuel s
  | _, ⟨[], _, maxDepth⟩ => .ok maxDepth

def graphDepth (g : Graph) (startIdx : ℕ) : Except DepthError ℕ :=
  if g.nNodes = 0 then .ok 0
  else if ¬(g.nodes.length ≥ startIdx) then .error .assertion
  -- the start is queued without being marked as discovered
  else bfsLoop g (g.nNodes + 1) ⟨[⟨0, startIdx⟩], List.replicate g.nNodes false, 0⟩

def depthConnLoop (g : Graph) : List ℕ → ℕ → Except DepthError ℕ
  | [], maxDepth => .ok maxDepth
  | i :: is, maxDepth =>
    match g.graphDepth i with
    | .error err => .error err
    | .ok d => depthConnLoop g is (if d > maxDepth then d else maxDepth)

def graphDepthConn (g : Graph) : Except DepthError ℕ :=
  depthConnLoop g (List.range g.nodes.length) 0

def Edge (added : List (UInt64 × UInt64)) (a b : UInt64) : Prop := (a, b) ∈ added

def Source (added : List (UInt64 × UInt64)) (a : UInt64) : Prop := a ∈ added.map Prod.fst

theorem Edge.source {added : List (UInt64 × UInt64)} (a b : UInt64) (h : Edge added a b) :
    Source added a := List.mem_map_of_mem h

def addrAt (g : Graph) (i : ℕ) : UInt64 := (g.nodes.map Cell.val).getD i 0

structure Marks (g : Graph) (discovered : List Bool) (found : List UInt64) : Prop where
  length : g.nodes.length ≤ discovered.length
  mark : ∀ i < g.nodes.length, discovered[i]? = some (decide (g.addrAt i ∈ found))

/-- The value that maxDepth reaches once the given elements have been polled. -/
def Deepest (depths : List ℕ) (maxDepth : ℕ) : Prop :=
  (∀ d ∈ depths, d + 1 ≤ maxDepth) ∧ (maxDepth = 0 ∨ ∃ d ∈ depths, maxDepth = d + 1)

@[simp] theorem raiseDepth_queue (q : BfsQueueElm) (s : Bfs) :
    (raiseDepth q s).queue = s.queue := rfl

@[simp] theorem raiseDepth_discovered (q : BfsQueueElm) (s : Bfs) :
    (raiseDepth q s).discovered = s.discovered := rfl

@[simp] theorem raiseDepth_maxDepth (q : BfsQueueElm) (s : Bfs) :
    (raiseDepth q s).maxDepth = max s.maxDepth (q.depth + 1) := by
  unfold raiseDepth
  dsimp only
  split_ifs <;> omega

theorem addrAt_eq {g : Graph} {i : ℕ} {n : Cell} (h : g.nodes[i]? = some n) :
    g.addrAt i = n.val := by
  simp [addrAt, h]

theorem addrAt_mem {g : Graph} {i : ℕ} (h : i < g.nodes.length) :
    g.addrAt i ∈ g.nodes.map Cell.val := by
  rw [addrAt_eq (List.getElem?_eq_getElem h)]
  exact List.mem_map_of_mem (List.getElem_mem h)

theorem graphFindNodeIndex_none {g : Graph} {value : UInt64}
    (h : g.graphFindNodeIndex value = none) : value ∉ g.nodes.map Cell.val := by
  intro hm
  obtain ⟨n, hn, rfl⟩ := List.mem_map.mp hm
  have := List.findIdx?_eq_none_iff.mp h n hn
  simp at this

theorem graphFindNodeIndex_some {g : Graph} {value : UInt64} {i : ℕ}
    (h : g.graphFindNodeIndex value = some i) : i < g.nodes.length ∧ g.addrAt i = value := by
  obtain ⟨hi, hv, -⟩ := List.findIdx?_eq_some_iff_getElem.mp h
  refine ⟨hi, ?_⟩
  rw [addrAt_eq (List.getElem?_eq_getElem hi)]
  simpa using hv

theorem addrAt_injOn {g : Graph} (hnd : (g.nodes.map Cell.val).Nodup) {i j : ℕ}
    (hi : i < g.nodes.length) (hj : j < g.nodes.length) (h : g.addrAt i = g.addrAt j) : i = j := by
  have hi' : i < (g.nodes.map Cell.val).length := by simpa using hi
  have hj' : j < (g.nodes.map Cell.val).length := by simpa using hj
  rw [addrAt, addrAt, List.getD_eq_getElem _ _ hi', List.getD_eq_getElem _ _ hj'] at h
  exact hnd.getElem_inj_iff.mp h

theorem Marks.set {g : Graph} {discovered : List Bool} {found : List UInt64}
    (hnd : (g.nodes.map Cell.val).Nodup) (h : Marks g discovered found) {i : ℕ}
    (hi : i < g.nodes.length) : Marks g (discovered.set i true) (found ++ [g.addrAt i]) where
  length := by simpa using h.length
  mark := by
    intro j hj
    have hlen := h.length
    by_cases hij : i = j
    · subst hij
      rw [List.getElem?_set_self (by omega)]
      simp
    · have hne : g.addrAt j ≠ g.addrAt i := fun he => hij (addrAt_injOn hnd hj hi he).symm
      rw [List.getElem?_set_ne hij, h.mark j hj]
      simp [hne]

theorem count_false_set {discovered : List Bool} {i : ℕ} (h : discovered[i]? = some false) :
    (discovered.set i true).count false + 1 = discovered.count false := by
  obtain ⟨hi, hv⟩ := List.getElem?_eq_some_iff.mp h
  rw [List.count_set hi, hv]
  have hpos : 0 < discovered.count false := List.count_pos_iff.mpr (hv ▸ List.getElem_mem hi)
  simp
  omega

end FuzzMonitor.Graph
