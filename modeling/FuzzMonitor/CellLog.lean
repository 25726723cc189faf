import FuzzMonitor.CallGraph
import FuzzMonitor.CellHeap

namespace FuzzMonitor.Branches
open CStrings FuzzMonitor.Graph CellHeap

/-- What a cell is allocated for: an address, a key or a copy of one, or a count. -/
inductive CellTag
  | address | key | value
  deriving DecidableEq, Repr

abbrev Log := List (Event CellTag)

/-- The cells that a search for the value of x looks at, up to the first one that has it. -/
def compareUses (x : Cell) : List Cell → List ℕ
  | [] => []
  | c :: cs => c.id :: x.id :: if c.val = x.val then [] else compareUses x cs

def graphAddUses (g : Graph) («from» «to» : Cell) : List ℕ :=
  compareUses «from» g.nodes ++
    match g.nodes.findIdx? (fun value => value.val == «from».val) with
    | none => []
    | some fromNodeIdx => compareUses «to» ((g.edges[fromNodeIdx]?).getD [])

def findUses (value : UInt64) : List Cell → List ℕ
  | [] => []
  | c :: cs => c.id :: if c.val = value then [] else findUses value cs

def bfsUses (g : Graph) : ℕ → Bfs → List ℕ
  | fuel, ⟨qElm :: queue, discovered, maxDepth⟩ =>
    match fuel with
    | 0 => []
    | fuel + 1 =>
      match g.edges[qElm.index]? with
      | none => []
      | some edgeList =>
        (edgeList.flatMap fun edgeValue => edgeValue.id :: findUses edgeValue.val g.nodes) ++
          match visitEdges g qElm edgeList ⟨queue, discovered, maxDepth⟩ with
          | .error _ => []
          | .ok s => bfsUses g fuel s
  | _, ⟨[], _, _⟩ => []

def graphDepthUses (g : Graph) (startIdx : ℕ) : List ℕ :=
  if g.nNodes = 0 then []
  else bfsUses g (g.nNodes + 1) ⟨[⟨0, startIdx⟩], List.replicate g.nNodes false, 0⟩

def depthConnUses (g : Graph) : List ℕ := (List.range g.nodes.length).flatMap (graphDepthUses g)

def printAndFreeLog (fd : PrintTo) («from» : Cell) (connections : List Cell) : Log :=
  (match fd with
    | .log => .use «from».id :: (connections.map Cell.id).map .free
    | .noPrint => (connections.map Cell.id).map .free
    | .file => connections.flatMap fun c => [.use «from».id, .use c.id, .free c.id]) ++
    [.free «from».id]

def foreachLog (fd : PrintTo) (g : Graph) : Log :=
  (g.graphForeach (fun log «from» connections => log ++ printAndFreeLog fd «from» connections)
    []).getD []

def switchFrees (stat : CcStat) (fromBb toBb : Cell) : List ℕ :=
  if stat = .graphBothExist then [toBb.id, fromBb.id]
  else if stat = .graphFromExists then [fromBb.id]
  else []

def addLog (env : AddEnv) (g : Graph) (fromBb toBb : Cell) : Log :=
  (graphAddUses g fromBb toBb).map .use ++
    (switchFrees (g.graphAdd env fromBb toBb).1 fromBb toBb).map .free

def graphIds (g : Graph) : List ℕ := g.nodes.map Cell.id ++ g.edges.flatten.map Cell.id

theorem freeCells_eq {stat : CcStat} {fromBb toBb : Cell} {freed freed' : List ℕ}
    (h : freeCells stat fromBb toBb freed = some freed') :
    freed' = freed ++ switchFrees stat fromBb toBb := by
  unfold freeCells at h
  unfold switchFrees
  split_ifs at h ⊢
  · exact (Option.some.inj h).symm
  · exact (Option.some.inj h).symm
  · rw [List.append_nil]
    exact (Option.some.inj h).symm

theorem mem_compareUses {x : Cell} {cells : List Cell} {id : ℕ} (h : id ∈ compareUses x cells) :
    id = x.id ∨ id ∈ cells.map Cell.id := by
  induction cells with
  | nil => contradiction
  | cons c cs ih =>
    unfold compareUses at h
    rw [List.mem_cons, List.mem_cons] at h
    rw [List.map_cons, List.mem_cons]
    rcases h with rfl | rfl | h
    · exact .inr (.inl rfl)
    · exact .inl rfl
    · split_ifs at h
      · contradiction
      · rcases ih h with h | h
        · exact .inl h
        · exact .inr (.inr h)

theorem mem_findUses {value : UInt64} {cells : List Cell} {id : ℕ}
    (h : id ∈ findUses value cells) : id ∈ cells.map Cell.id := by
  induction cells with
  | nil => contradiction
  | cons c cs ih =>
    unfold findUses at h
    rw [List.mem_cons] at h
    rw [List.map_cons, List.mem_cons]
    rcases h with rfl | h
    · exact .inl rfl
    · split_ifs at h
      · contradiction
      · exact .inr (ih h)

theorem mem_graphIds_of_edges {g : Graph} {l : List Cell} {i id : ℕ} (hl : g.edges[i]? = some l)
    (h : id ∈ l.map Cell.id) : id ∈ graphIds g := by
  obtain ⟨c, hc, rfl⟩ := List.mem_map.mp h
  apply List.mem_append_right
  exact List.mem_map_of_mem (List.mem_flatten_of_mem (List.mem_of_getElem? hl) hc)

/-- graph_add reads cells of the graph and the two that it is given. -/
theorem mem_graphAddUses {g : Graph} {«from» «to» : Cell} {id : ℕ}
    (h : id ∈ graphAddUses g «from» «to») :
    id = «from».id ∨ id = «to».id ∨ id ∈ graphIds g := by
  unfold graphAddUses at h
  rcases List.mem_append.mp h with h | h
  · rcases mem_compareUses h with h | h
    · exact .inl h
    · exact .inr (.inr (List.mem_append_left _ h))
  · split at h
    · contradiction
    · next i _ =>
      cases hl : g.edges[i]? with
      | none =>
        rw [hl] at h
        contradiction
      | some l =>
        rw [hl] at h
        rcases mem_compareUses h with h | h
        · exact .inr (.inl h)
        · exact .inr (.inr (mem_graphIds_of_edges hl h))

theorem mem_bfsUses {g : Graph} {fuel : ℕ} {s : Bfs} {id : ℕ} (h : id ∈ bfsUses g fuel s) :
    id ∈ graphIds g := by
  induction fuel generalizing s with
  | zero =>
    obtain ⟨queue, discovered, maxDepth⟩ := s
    cases queue with
    | nil => contradiction
    | cons qElm queue => contradiction
  | succ fuel ih =>
    obtain ⟨queue, discovered, maxDepth⟩ := s
    cases queue with
    | nil => contradiction
    | cons qElm queue =>
      unfold bfsUses at h
      dsimp only at h
      cases hl : g.edges[qElm.index]? with
      | none =>
        rw [hl] at h
        contradiction
      | some l =>
        rw [hl] at h
        dsimp only at h
        rcases List.mem_append.mp h with h | h
        · obtain ⟨c, hc, hid⟩ := List.mem_flatMap.mp h
          rcases List.mem_cons.mp hid with rfl | hid
          · exact mem_graphIds_of_edges hl (List.mem_map_of_mem hc)
          · exact List.mem_append_left _ (mem_findUses hid)
        · split at h
          · contradiction
          · exact ih h

theorem mem_depthConnUses {g : Graph} {id : ℕ} (h : id ∈ depthConnUses g) : id ∈ graphIds g := by
  obtain ⟨i, -, hid⟩ := List.mem_flatMap.mp h
  unfold graphDepthUses at hid
  split_ifs at hid
  · contradiction
  · exact mem_bfsUses hid

theorem flatten_set_perm {edges : List (List Cell)} {i : ℕ} {l : List Cell} {c : Cell}
    (hl : edges[i]? = some l) :
    (edges.set i (l ++ [c])).flatten.Perm (c :: edges.flatten) := by
  induction edges generalizing i with
  | nil => contradiction
  | cons e edges ih =>
    cases i with
    | zero =>
      cases hl
      rw [List.set_cons_zero, List.flatten_cons, List.flatten_cons, List.append_assoc]
      exact List.perm_middle
    | succ i =>
      rw [List.set_cons_succ, List.flatten_cons, List.flatten_cons]
      exact ((ih hl).append_left e).trans List.perm_middle

/-- An address cell that graph_add is given goes to the graph or to the switch. -/
theorem graphIds_graphAdd {env : AddEnv} (henv : Documented env) {g : Graph} {fromBb toBb : Cell}
    (h : (g.graphAdd env fromBb toBb).1 = .graphBothExist ∨
      (g.graphAdd env fromBb toBb).1 = .graphFromExists ∨ (g.graphAdd env fromBb toBb).1 = .ok) :
    (switchFrees (g.graphAdd env fromBb toBb).1 fromBb toBb ++
      graphIds (g.graphAdd env fromBb toBb).2).Perm (toBb.id :: fromBb.id :: graphIds g) := by
  have hsame := graphAdd_accepted henv h
  rw [hsame] at h ⊢
  unfold graphAdd at h ⊢
  simp only [AddEnv.succeed, ne_eq, not_true, if_false] at h ⊢
  cases hfind : g.nodes.findIdx? (fun value => value.val == fromBb.val) with
  | none =>
    -- both cells go to the graph
    have hfrees : switchFrees .ok fromBb toBb = [] := rfl
    dsimp only
    rw [hfrees, List.nil_append]
    unfold graphIds
    apply List.perm_iff_count.mpr
    intro id
    simp only [List.map_append, List.flatten_append, List.map_cons, List.map_nil,
      List.flatten_cons, List.flatten_nil, List.append_nil, List.count_append, List.count_cons,
      List.count_nil]
    omega
  | some i =>
    rw [hfind] at h
    dsimp only at h ⊢
    cases hl : g.edges[i]? with
    | none =>
      rw [hl] at h
      simp at h
    | some l =>
      dsimp only
      split_ifs
      · exact List.Perm.refl _
      · have hfrees : switchFrees .graphFromExists fromBb toBb = [fromBb.id] := rfl
        have hset := (flatten_set_perm (c := toBb) hl).map Cell.id
        rw [hfrees]
        unfold graphIds
        exact ((hset.append_left _).trans List.perm_middle).cons fromBb.id |>.trans
          (List.Perm.swap _ _ _)

theorem mem_graphIds_graphAdd {env : AddEnv} (henv : Documented env) {g : Graph}
    {fromBb toBb : Cell} (h : (g.graphAdd env fromBb toBb).1 = .graphBothExist ∨
      (g.graphAdd env fromBb toBb).1 = .graphFromExists ∨ (g.graphAdd env fromBb toBb).1 = .ok)
    {id : ℕ} (hid : id ∈ graphIds (g.graphAdd env fromBb toBb).2) :
    id = toBb.id ∨ id = fromBb.id ∨ id ∈ graphIds g := by
  have hall := (graphIds_graphAdd henv h).mem_iff.mp (List.mem_append_right _ hid)
  rw [List.mem_cons, List.mem_cons] at hall
  exact hall

theorem addLog_moves {env : AddEnv} (henv : Documented env) {g : Graph} {fromBb toBb : Cell}
    (h : (g.graphAdd env fromBb toBb).1 = .graphBothExist ∨
      (g.graphAdd env fromBb toBb).1 = .graphFromExists ∨ (g.graphAdd env fromBb toBb).1 = .ok)
    (rest : List ℕ) :
    Moves (toBb.id :: fromBb.id :: graphIds g ++ rest) (addLog env g fromBb toBb)
      (graphIds (g.graphAdd env fromBb toBb).2 ++ rest) := by
  have hend : Moves (T := CellTag) (graphIds (g.graphAdd env fromBb toBb).2 ++ rest) []
      (graphIds (g.graphAdd env fromBb toBb).2 ++ rest) := .nil _
  have hfrees : Moves _ ((switchFrees (g.graphAdd env fromBb toBb).1 fromBb toBb).map .free ++ [])
      _ := hend.frees
  rw [List.append_nil, ← List.append_assoc] at hfrees
  have hmoves := hfrees.perm ((graphIds_graphAdd henv h).symm.append_right rest) (.refl _)
  refine .uses (fun id hid => ?_) hmoves
  rcases mem_graphAddUses hid with rfl | rfl | hid
  · simp
  · simp
  · simp [hid]

theorem addLog_cells (env : AddEnv) (g : Graph) (fromBb toBb : Cell) :
    freed (addLog env g fromBb toBb) = switchFrees (g.graphAdd env fromBb toBb).1 fromBb toBb ∧
      allocated (addLog env g fromBb toBb) = [] := by
  unfold addLog
  rw [freed_append, freed_uses, freed_frees, allocated_append, allocated_uses, allocated_frees]
  exact ⟨rfl, rfl⟩

/-- graph_print_and_free reads and frees the cells of one node and its list, each once. -/
theorem printAndFree_moves (fd : PrintTo) («from» : Cell) (connections : List Cell)
    (rest : List ℕ) :
    Moves (connections.map Cell.id ++ «from».id :: rest) (printAndFreeLog fd «from» connections)
      rest := by
  unfold printAndFreeLog
  cases fd with
  | log => exact .use (by simp) (.frees (.free (.nil rest)))
  | noPrint => exact .frees (.free (.nil rest))
  | file =>
    dsimp only
    induction connections with
    | nil => exact .free (.nil rest)
    | cons c cs ih => exact .use (by simp) (.use (by simp) (.free ih))

theorem rowIds_perm {nodes : List Cell} {edges : List (List Cell)}
    (hlen : nodes.length = edges.length) :
    (nodes.map Cell.id ++ edges.flatten.map Cell.id).Perm ((nodes.zip edges).flatMap rowIds) := by
  induction nodes generalizing edges with
  | nil =>
    rw [List.eq_nil_of_length_eq_zero hlen.symm]
    exact .refl _
  | cons n nodes ih =>
    cases edges with
    | nil => contradiction
    | cons l edges =>
      have hrest := List.perm_iff_count.mp (ih (Nat.succ.inj hlen))
      apply List.perm_iff_count.mpr
      intro id
      have hcount := hrest id
      unfold rowIds at hcount ⊢
      simp only [List.zip_cons_cons, List.flatMap_cons, List.map_cons, List.flatten_cons,
        List.map_append, List.count_append, List.count_cons, List.count_nil] at hcount ⊢
      omega

theorem foreachLog_eq (fd : PrintTo) {g : Graph} (hlen : g.nodes.length = g.edges.length) :
    foreachLog fd g = (g.nodes.zip g.edges).flatMap fun r => printAndFreeLog fd r.1 r.2 := by
  unfold foreachLog
  rw [graphForeach_eq g hlen, Option.getD_some, List.flatMap_eq_foldl]

/-- graph_foreach frees all cells of the graph, each once, and reads none of them behind that. -/
theorem foreach_moves (fd : PrintTo) {g : Graph} (hlen : g.nodes.length = g.edges.length)
    (rest : List ℕ) : Moves (graphIds g ++ rest) (foreachLog fd g) rest := by
  have hrows : ∀ rows : List (Cell × List Cell), Moves (rows.flatMap rowIds ++ rest)
      (rows.flatMap fun r => printAndFreeLog fd r.1 r.2) rest := by
    intro rows
    induction rows with
    | nil => exact .nil rest
    | cons r rows ih =>
      rw [List.flatMap_cons, List.flatMap_cons, rowIds, List.append_assoc, List.append_assoc]
      exact (printAndFree_moves fd r.1 r.2 _).append ih
  rw [foreachLog_eq fd hlen]
  exact (hrows _).perm ((rowIds_perm hlen).append_right rest) (.refl _)

theorem printAndFreeLog_cells (fd : PrintTo) («from» : Cell) (connections : List Cell) :
    freed (printAndFreeLog fd «from» connections) = rowIds («from», connections) ∧
      allocated (printAndFreeLog fd «from» connections) = [] := by
  unfold printAndFreeLog
  rw [freed_append, allocated_append]
  cases fd with
  | log =>
    dsimp only
    rw [freed_use, allocated_use, freed_frees, allocated_frees]
    exact ⟨rfl, rfl⟩
  | noPrint =>
    dsimp only
    rw [freed_frees, allocated_frees]
    exact ⟨rfl, rfl⟩
  | file =>
    dsimp only
    induction connections with
    | nil => exact ⟨rfl, rfl⟩
    | cons c cs ih =>
      obtain ⟨hfreed, hallocated⟩ := ih
      exact ⟨congrArg (c.id :: ·) hfreed, hallocated⟩

theorem foreachLog_cells (fd : PrintTo) {g : Graph} (hlen : g.nodes.length = g.edges.length) :
    freed (foreachLog fd g) = (g.nodes.zip g.edges).flatMap rowIds ∧
      allocated (foreachLog fd g) = [] := by
  rw [foreachLog_eq fd hlen]
  generalize g.nodes.zip g.edges = rows
  induction rows with
  | nil => exact ⟨rfl, rfl⟩
  | cons r rows ih =>
    obtain ⟨hfreed, hallocated⟩ := printAndFreeLog_cells fd r.1 r.2
    rw [List.flatMap_cons, List.flatMap_cons, freed_append, allocated_append, hfreed, hallocated,
      ih.1, ih.2]
    exact ⟨rfl, rfl⟩

end FuzzMonitor.Branches
