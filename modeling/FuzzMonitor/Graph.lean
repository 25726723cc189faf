import FuzzMonitor.Adjacency

namespace FuzzMonitor

inductive CcStat
  | ok | errAlloc | errInvalidCapacity | errInvalidRange | errMaxCapacity
  | errKeyNotFound | errValueNotFound | errOutOfRange | iterEnd
  deriving DecidableEq, Repr

/-- graph.h reuses two error codes for its own answers. -/
abbrev CcStat.graphFromExists : CcStat := .errKeyNotFound
abbrev CcStat.graphBothExist : CcStat := .errValueNotFound

/-- A heap cell holding a uint64_t: which allocation it is, and what it stores.
The stored value is never written again once the cell is in a graph. -/
structure Cell where
  id : ℕ
  val : UInt64
  deriving DecidableEq, Repr

/-- Two parallel arrays: the i-th adjacency list holds the targets of the i-th node. -/
structure Graph where
  nodes : List Cell
  edges : List (List Cell)
  nNodes : ℕ
  deriving DecidableEq, Repr

namespace Graph

/-- The outcomes of malloc and of the two array_new calls of graph_new. -/
structure NewEnv where
  malloc : Bool
  nodesNew : CcStat
  edgesNew : CcStat

def NewEnv.succeed : NewEnv := ⟨true, .ok, .ok⟩

def graphNew (env : NewEnv) : CcStat × Option Graph :=
  if !env.malloc then (.errAlloc, none)
  else if env.nodesNew ≠ .ok then (env.nodesNew, none)
  else if env.edgesNew ≠ .ok then (env.edgesNew, none)
  else (.ok, some ⟨[], [], 0⟩)

/-- What the allocating Collections-C calls of one graph_add call report. -/
structure AddEnv where
  listNew : CcStat
  listAdd : CcStat
  nodesAdd : CcStat
  edgesAdd : CcStat
  deriving DecidableEq, Repr

def AddEnv.succeed : AddEnv := ⟨.ok, .ok, .ok, .ok⟩

def graphAdd (env : AddEnv) (g : Graph) («from» «to» : Cell) : CcStat × Graph :=
  match g.nodes.findIdx? (fun value => value.val == «from».val) with
  | some fromNodeIdx =>
    match g.edges[fromNodeIdx]? with
    | none => (.errOutOfRange, g)
    | some fromNodesList =>
      if fromNodesList.any (fun value => value.val == «to».val) then (.graphBothExist, g)
      else if env.listAdd ≠ .ok then (env.listAdd, g)
      else
        (.graphFromExists,
          { g with
            edges := g.edges.set fromNodeIdx (fromNodesList ++ [«to»])
            nNodes := g.nNodes + 1 })
  | none =>
    if env.listNew ≠ .ok then (env.listNew, g)
    else if env.listAdd ≠ .ok then (env.listAdd, g)
    else if env.nodesAdd ≠ .ok then (env.nodesAdd, g)
    else
      -- from here on a failure leaves a node without its list
      let g := { g with nodes := g.nodes ++ [«from»], nNodes := g.nNodes + 1 }
      if env.edgesAdd ≠ .ok then (env.edgesAdd, g)
      else (.ok, { g with edges := g.edges ++ [[«to»]], nNodes := g.nNodes + 1 })

/-- The loop of graph_foreach from the i-th node on; none is the failed assertion
on array_get_at. -/
def graphForeachFrom {σ : Type*} (g : Graph) (fn : σ → Cell → List Cell → σ) :
    ℕ → List Cell → σ → Option σ
  | _, [], data => some data
  | i, node :: nodes, data =>
    match g.edges[i]? with
    | none => none
    | some connections => graphForeachFrom g fn (i + 1) nodes (fn data node connections)

def graphForeach {σ : Type*} (g : Graph) (fn : σ → Cell → List Cell → σ) (data : σ) : Option σ :=
  graphForeachFrom g fn 0 g.nodes data

def graphNodes (g : Graph) : ℕ := g.nNodes

def graphEdges (g : Graph) : Option ℕ :=
  graphForeach g (fun counter _ fromNodesList => counter + fromNodesList.length) 0

def rows (g : Graph) : Adjacency.Rows UInt64 :=
  (g.nodes.map Cell.val).zip (g.edges.map (List.map Cell.val))

/-- The pairs (nodes[i], x) with x in edges[i], by value. -/
def pairs (g : Graph) : List (UInt64 × UInt64) := Adjacency.pairs g.rows

def ofAdds (adds : List (Cell × Cell)) : Graph :=
  adds.foldl (fun g p => (graphAdd .succeed g p.1 p.2).2) ⟨[], [], 0⟩

def history (adds : List (Cell × Cell)) : List (UInt64 × UInt64) :=
  adds.map fun p => (p.1.val, p.2.val)

end Graph
end FuzzMonitor
