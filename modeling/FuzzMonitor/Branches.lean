import FuzzMonitor.BasicBlocks
import FuzzMonitor.GraphDepth
import FuzzMonitor.Sections
import FuzzMonitor.Tally

namespace FuzzMonitor
open CStrings

structure BtsBranch where
  «from» : UInt64
  «to» : UInt64
  misc : UInt64
  deriving DecidableEq, Repr

/-- An entry of branch_hits: the allocation of its key, and the cell with its count. -/
structure HitEntry where
  keyId : ℕ
  value : Cell
  deriving DecidableEq, Repr

/-- A Collections-C hash table on string keys, as the finite map it implements. -/
abbrev BranchHits := Tally.Table CText HitEntry

/-- The fields of monitor_t that process_branches reads. -/
structure Monitor where
  branchHits : BranchHits
  secBounds : Option SectionBounds
  bbs : List BasicBlock
  graphIndivPath : Option CText
  inputN : UInt64

namespace Branches

def hashKeySep : CText := ['/']
def hashKeySz : ℕ := 64
def pathMax : ℕ := 4096

def skipped (secBounds : Option SectionBounds) (branch : BtsBranch) : Bool :=
  decide (branch.from > 0xFFFFFFFF00000000 ∨ branch.to > 0xFFFFFFFF00000000) ||
    match secBounds with
    | none => false
    | some sec =>
      decide ((branch.from < sec.secStart ∨ branch.from > sec.secEnd) ∨
        (branch.to < sec.secStart ∨ branch.to > sec.secEnd))

/-- The loop over the blocks, for both endpoints at once; 0 marks an endpoint that has
no block yet. -/
def resolveLoop (branch : BtsBranch) : List BasicBlock → UInt64 → UInt64 → UInt64 × UInt64
  | [], fromBb, toBb => (fromBb, toBb)
  | bb :: bbs, fromBb, toBb =>
    -- a block overwrites what an earlier one has found
    let fromBb := if branch.from ≥ bb.from ∧ branch.from < bb.to then bb.from else fromBb
    let toBb := if branch.to ≥ bb.from ∧ branch.to < bb.to then bb.from else toBb
    if fromBb ≠ 0 ∧ toBb ≠ 0 then (fromBb, toBb) else resolveLoop branch bbs fromBb toBb

def resolve (bbs : List BasicBlock) (branch : BtsBranch) : UInt64 × UInt64 :=
  let r := resolveLoop branch bbs 0 0
  (if r.1 = 0 then branch.from else r.1, if r.2 = 0 then branch.to else r.2)

def hashKey (fromBb toBb : UInt64) : CText :=
  snprintf hashKeySz (decimal fromBb ++ hashKeySep ++ decimal toBb)

/-- How process_branches stops: it returns, or the process dies in a failed assertion,
in abort or on a null pointer. -/
inductive Stop
  | returned (ret : ℤ)
  | died
  deriving DecidableEq, Repr

/-- What the calls made for one branch report: whether the mallocs of the address cells,
of the key and of the count find memory, graph_add's own calls, and hashtable_add. -/
structure BranchEnv where
  cells : Bool
  key : Bool
  graphAdd : Graph.AddEnv
  value : Bool
  hashtableAdd : CcStat

def BranchEnv.succeed : BranchEnv := ⟨true, true, .succeed, true, .ok⟩

/-- The variables of the loop, the table, the number of allocations so far and the
allocations released. -/
structure LoopState where
  graph : Graph
  branchHits : BranchHits
  newBranches : UInt64
  filteredCount : UInt64
  heap : ℕ
  freed : List ℕ

/-- The switch on graph_add's answer; BOTH_EXIST falls through to FROM_EXISTS. -/
def freeCells (stat : CcStat) (fromBb toBb : Cell) (freed : List ℕ) : Option (List ℕ) :=
  if stat = .graphBothExist then some (freed ++ [toBb.id, fromBb.id])
  else if stat = .graphFromExists then some (freed ++ [fromBb.id])
  else if stat = .ok then some freed
  else none

def countHit (env : BranchEnv) (key : CText) (s : LoopState) : LoopState × Option Stop :=
  match s.branchHits.lookup key with
  | some entry =>
    -- the entry keeps its own key; the fresh copy is freed
    let value := { entry.value with val := entry.value.val + 1 }
    ({ s with
      branchHits := s.branchHits.insert key { entry with value := value }
      heap := s.heap + 1
      freed := s.freed ++ [s.heap] }, none)
  | none =>
    if !env.value then (s, some .died)
    else if env.hashtableAdd ≠ .ok then ({ s with heap := s.heap + 2 }, some (.returned (-1)))
    else
      ({ s with
        branchHits := s.branchHits.insert key ⟨s.heap, ⟨s.heap + 1, 1⟩⟩
        newBranches := s.newBranches + 1
        heap := s.heap + 2 }, none)

def recordBranch (bbs : List BasicBlock) (env : BranchEnv) (branch : BtsBranch)
    (s : LoopState) : LoopState × Option Stop :=
  let s := { s with filteredCount := s.filteredCount + 1 }
  if !env.cells then (s, some .died)
  else
    let r := resolve bbs branch
    let fromBb : Cell := ⟨s.heap, r.1⟩
    let toBb : Cell := ⟨s.heap + 1, r.2⟩
    if !env.key then (s, some .died)
    else
      let added := s.graph.graphAdd env.graphAdd fromBb toBb
      match freeCells added.1 fromBb toBb s.freed with
      | none => (s, some .died)
      | some freed =>
        countHit env (hashKey r.1 r.2)
          { s with graph := added.2, heap := s.heap + 2, freed := freed }

def branchLoop (secBounds : Option SectionBounds) (bbs : List BasicBlock) (env : ℕ → BranchEnv) :
    ℕ → List BtsBranch → LoopState → LoopState × Option Stop
  | _, [], s => (s, none)
  | i, branch :: branches, s =>
    if skipped secBounds branch then branchLoop secBounds bbs env (i + 1) branches s
    else
      match recordBranch bbs (env i) branch s with
      | (s, some stop) => (s, some stop)
      | (s, none) => branchLoop secBounds bbs env (i + 1) branches s

/-- Where graph_print_and_free prints: the log (fd is NULL), nowhere, or a file. -/
inductive PrintTo
  | log | noPrint | file
  deriving DecidableEq, Repr

def printNode (fd : PrintTo) («from» : Cell) (connections : List Cell) : List CText :=
  match fd with
  | .log =>
    ["0x".toList ++ (hex «from».val).leftpad 10 '0' ++ ' ' :: Nat.toDigits 10 connections.length]
  | .noPrint => []
  | .file => connections.map fun c =>
    "\t\"0x".toList ++ hex «from».val ++ "\" -> \"0x".toList ++ hex c.val ++ "\";\n".toList

/-- The lines written and the cells released, in that order for each edge. -/
def graphPrintAndFree (fd : PrintTo) (out : List CText × List ℕ) («from» : Cell)
    (connections : List Cell) : List CText × List ℕ :=
  (out.1 ++ printNode fd «from» connections, out.2 ++ (connections.map Cell.id ++ [«from».id]))

def graphIndivFile (m : Monitor) : CText :=
  snprintf pathMax (m.graphIndivPath.getD "(null)".toList ++ "/graph.".toList ++
    decimal m.inputN ++ ".gv".toList)

structure CallEnv where
  graphNew : Graph.NewEnv
  branch : ℕ → BranchEnv
  fopen : Bool

/-- Everything a call of process_branches leaves behind: how it stopped, the table, the
pointees of its three output parameters, the file it wrote, and the allocations. -/
structure Outcome where
  stop : Stop
  branchHits : BranchHits
  newBranches : Option UInt64
  filteredCount : Option UInt64
  depth : UInt64
  file : Option (CText × List CText)
  heap : ℕ
  freed : List ℕ

/-- What the caller passes besides the trace: the pointees of the output parameters
(none for a NULL pointer) and the number of allocations so far. -/
structure Args where
  newBranches : Option UInt64
  filteredCount : Option UInt64
  depth : UInt64
  heap : ℕ

def finish (env : CallEnv) (m : Monitor) (args : Args) (s : LoopState) : Outcome :=
  let out : Outcome := ⟨.died, s.branchHits, args.newBranches, args.filteredCount, args.depth,
    none, s.heap, s.freed⟩
  match s.graph.graphDepthConn with
  | .error _ => out
  | .ok depth =>
    let out := { out with depth := UInt64.ofNat depth }
    let done := { out with
      stop := .returned 0
      newBranches := some s.newBranches
      filteredCount := some s.filteredCount }
    if s.newBranches > 0 then
      if !env.fopen then { out with stop := .returned (-1) }
      else
        match s.graph.graphForeach (graphPrintAndFree .file) ([], s.freed) with
        | none => { out with file := some (graphIndivFile m, ["digraph \x7b\n".toList]) }
        | some (lines, freed) =>
          { done with
            file := some (graphIndivFile m, "digraph \x7b\n".toList :: lines ++ ["\x7d\n".toList])
            freed := freed }
    else
      match s.graph.graphForeach (graphPrintAndFree .noPrint) ([], s.freed) with
      | none => out
      | some (_, freed) => { done with freed := freed }

def processBranches (env : CallEnv) (trace : List BtsBranch) (m : Monitor) (args : Args) :
    Outcome :=
  let out : Outcome := ⟨.returned 0, m.branchHits, args.newBranches, args.filteredCount,
    args.depth, none, args.heap, []⟩
  if args.newBranches = none ∨ args.filteredCount = none then out
  else
    match Graph.graphNew env.graphNew with
    | (.ok, some graph) =>
      -- the two counters reach the caller only when the whole call succeeds
      match branchLoop m.secBounds m.bbs env.branch 0 trace
        ⟨graph, m.branchHits, 0, 0, args.heap, []⟩ with
      | (s, some stop) =>
        { out with stop := stop, branchHits := s.branchHits, heap := s.heap, freed := s.freed }
      | (s, none) => finish env m args s
    | _ => { out with stop := .died }

structure Call where
  env : CallEnv
  trace : List BtsBranch

def callArgs (heap : ℕ) : Args := ⟨some 0, some 0, 0, heap⟩

def runCalls : Monitor → ℕ → List Call → List Outcome
  | _, _, [] => []
  | m, heap, call :: calls =>
    let out := processBranches call.env call.trace m (callArgs heap)
    out :: runCalls { m with branchHits := out.branchHits, inputN := m.inputN + 1 } out.heap calls

end Branches
end FuzzMonitor
