import FuzzMonitor.Graph

namespace FuzzMonitor.Graph
open Adjacency

def statusOf : Added → CcStat
  | .both => .graphBothExist
  | .source => .graphFromExists
  | .fresh => .ok

theorem graphAdd_cons_ne (env : AddEnv) (n : Cell) (ns : List Cell) (e : List Cell)
    (es : List (List Cell)) (k : ℕ) («from» «to» : Cell) (h : n.val ≠ «from».val) :
    graphAdd env ⟨n :: ns, e :: es, k⟩ «from» «to» =
      ((graphAdd env ⟨ns, es, k⟩ «from» «to»).1,
        { nodes := n :: (graphAdd env ⟨ns, es, k⟩ «from» «to»).2.nodes
          edges := e :: (graphAdd env ⟨ns, es, k⟩ «from» «to»).2.edges
          nNodes := (graphAdd env ⟨ns, es, k⟩ «from» «to»).2.nNodes }) := by
  simp only [graphAdd, List.findIdx?_cons, beq_eq_false_iff_ne.mpr h, Bool.false_eq_true, if_false]
  cases ns.findIdx? (fun value => value.val == «from».val) with
  | none =>
    simp only [Option.map_none]
    split_ifs <;> rfl
  | some i =>
    simp only [Option.map_some, List.getElem?_cons_succ, List.set_cons_succ]
    cases es[i]? with
    | none => rfl
    | some l =>
      dsimp only
      split_ifs <;> rfl

/-- The two arrays refine one list of rows: graph_add is the row update, its
return code tells the outcome, and the arrays keep equal lengths. -/
theorem graphAdd_refines (g : Graph) (hlen : g.nodes.length = g.edges.length)
    («from» «to» : Cell) :
    (graphAdd .succeed g «from» «to»).1 = statusOf (add g.rows «from».val «to».val).1 ∧
      (graphAdd .succeed g «from» «to»).2.rows = (add g.rows «from».val «to».val).2 ∧
      (graphAdd .succeed g «from» «to»).2.nodes.length =
        (graphAdd .succeed g «from» «to»).2.edges.length ∧
      (graphAdd .succeed g «from» «to»).2.nNodes =
        g.nNodes + (add g.rows «from».val «to».val).1.count := by
  obtain ⟨nodes, edges, k⟩ := g
  induction nodes generalizing edges with
  | nil =>
    cases edges with
    | nil => exact ⟨rfl, rfl, rfl, rfl⟩
    | cons e es => simp at hlen
  | cons n ns ih =>
    cases edges with
    | nil => simp at hlen
    | cons e es =>
      by_cases hn : n.val = «from».val
      · -- graph_add's loop stops at the first node with this address
        have hany : e.any (fun value => value.val == «to».val) = true ↔
            «to».val ∈ e.map Cell.val := by simp
        by_cases hb : «to».val ∈ e.map Cell.val
        · simp [graphAdd, rows, add, List.findIdx?_cons, hn, hany.mpr hb, hb, statusOf, Added.count]
          simpa using hlen
        · have hany' : e.any (fun value => value.val == «to».val) = false :=
            Bool.eq_false_iff.mpr fun h => hb (hany.mp h)
          simp [graphAdd, rows, add, List.findIdx?_cons, hn, hany', hb, statusOf, Added.count,
            AddEnv.succeed]
          simpa using hlen
      · have hlen' : ns.length = es.length := by simpa using hlen
        obtain ⟨hs, hr, hl, hc⟩ := ih es hlen'
        rw [graphAdd_cons_ne _ _ _ _ _ _ _ _ hn]
        simp only [rows] at hs hr hc ⊢
        simp only [List.map_cons, List.zip_cons_cons, add, if_neg hn, hs, hr, hc,
          List.length_cons, hl, and_self]

structure Represents (g : Graph) (added : List (UInt64 × UInt64)) : Prop where
  lengths : g.nodes.length = g.edges.length
  rows_eq : g.rows = (AdjList.ofHistory added).rows
  counter : g.nNodes = g.nodes.length + g.pairs.length

theorem represents_empty : Represents ⟨[], [], 0⟩ [] := ⟨rfl, rfl, rfl⟩

theorem sources_rows (g : Graph) (h : g.nodes.length = g.edges.length) :
    sources g.rows = g.nodes.map Cell.val := by
  rw [sources, rows, List.map_fst_zip]
  simp [h]

theorem Represents.wellFormed {g : Graph} {added : List (UInt64 × UInt64)}
    (h : Represents g added) : WellFormed g.rows := h.rows_eq ▸ (AdjList.ofHistory added).wellFormed

theorem Represents.graphAdd {g : Graph} {added : List (UInt64 × UInt64)}
    (h : Represents g added) («from» «to» : Cell) :
    Represents (graphAdd .succeed g «from» «to»).2 (added ++ [(«from».val, «to».val)]) := by
  obtain ⟨-, hrows, hlen, hcount⟩ := graphAdd_refines g h.lengths «from» «to»
  refine ⟨hlen, ?_, ?_⟩
  · rw [hrows, h.rows_eq, AdjList.ofHistory, AdjList.ofHistory, List.foldl_append]
    rfl
  · have hsize := length_add g.rows «from».val «to».val
    rw [← hrows, sources_rows _ hlen, sources_rows _ h.lengths, List.length_map,
      List.length_map] at hsize
    rw [hcount, h.counter, pairs, pairs]
    omega

theorem ofAdds_concat (adds : List (Cell × Cell)) (p : Cell × Cell) :
    ofAdds (adds ++ [p]) = (graphAdd .succeed (ofAdds adds) p.1 p.2).2 := by
  simp [ofAdds, List.foldl_append]

theorem represents_ofAdds (adds : List (Cell × Cell)) :
    Represents (ofAdds adds) (history adds) := by
  induction adds using List.reverseRecOn with
  | nil => exact represents_empty
  | append_singleton adds p ih =>
    rw [ofAdds_concat, history, List.map_append]
    exact ih.graphAdd p.1 p.2

theorem Represents.mem_pairs {g : Graph} {added : List (UInt64 × UInt64)}
    (h : Represents g added) (p : UInt64 × UInt64) : p ∈ g.pairs ↔ p ∈ added := by
  rw [pairs, h.rows_eq]
  exact AdjList.mem_pairs_ofHistory

theorem Represents.status {g : Graph} {added : List (UInt64 × UInt64)}
    (h : Represents g added) («from» «to» : Cell) :
    (Graph.graphAdd .succeed g «from» «to»).1 =
      if («from».val, «to».val) ∈ added then .graphBothExist
      else if «from».val ∈ added.map Prod.fst then .graphFromExists
      else .ok := by
  have hsrc : «from».val ∈ sources g.rows ↔ «from».val ∈ added.map Prod.fst := by
    rw [h.rows_eq]
    exact AdjList.mem_sources_ofHistory
  rw [(graphAdd_refines g h.lengths «from» «to»).1, add_outcome h.wellFormed]
  change statusOf (if («from».val, «to».val) ∈ g.pairs then _ else _) = _
  simp only [h.mem_pairs, hsrc]
  split_ifs <;> rfl

theorem graphForeachFrom_eq {σ : Type*} (g : Graph) (fn : σ → Cell → List Cell → σ) (i : ℕ)
    (nodes : List Cell) (data : σ) (h : i + nodes.length ≤ g.edges.length) :
    graphForeachFrom g fn i nodes data =
      some ((nodes.zip (g.edges.drop i)).foldl (fun d v => fn d v.1 v.2) data) := by
  induction nodes generalizing i data with
  | nil => simp [graphForeachFrom]
  | cons node nodes ih =>
    simp only [List.length_cons] at h
    have hi : i < g.edges.length := by omega
    rw [graphForeachFrom, List.getElem?_eq_getElem hi, List.drop_eq_getElem_cons hi]
    dsimp only
    rw [ih (i + 1) _ (by omega), List.zip_cons_cons, List.foldl_cons]

theorem graphForeach_eq {σ : Type*} (g : Graph) (h : g.nodes.length = g.edges.length)
    (fn : σ → Cell → List Cell → σ) (data : σ) :
    graphForeach g fn data = some ((g.nodes.zip g.edges).foldl (fun d v => fn d v.1 v.2) data) := by
  rw [graphForeach, graphForeachFrom_eq g fn 0 g.nodes data (by omega), List.drop_zero]

theorem rows_eq_zip (g : Graph) :
    g.rows = (g.nodes.zip g.edges).map fun v => (v.1.val, v.2.map Cell.val) := by
  rw [rows, List.zip_map]
  rfl

theorem foldl_count {α β : Type*} (l : List (α × List β)) (n : ℕ) :
    l.foldl (fun d v => d + v.2.length) n = n + (l.map fun v => v.2.length).sum := by
  induction l generalizing n with
  | nil => simp
  | cons v l ih => simp only [List.foldl_cons, ih, List.map_cons, List.sum_cons]; omega

theorem Represents.graphEdges {g : Graph} {added : List (UInt64 × UInt64)}
    (h : Represents g added) : graphEdges g = some added.dedup.length := by
  rw [← AdjList.pairs_length_ofHistory, ← h.rows_eq, Graph.graphEdges,
    graphForeach_eq g h.lengths, foldl_count, rows_eq_zip, Nat.zero_add, Adjacency.pairs,
    List.length_flatMap, List.map_map]
  simp [Function.comp_def]

/-- What holds of the two arrays after every history of additions. -/
structure Invariant (g : Graph) (added : List (UInt64 × UInt64)) : Prop where
  nodes_nodup : (g.nodes.map Cell.val).Nodup
  lengths : g.nodes.length = g.edges.length
  lists_ne_nil : ∀ l ∈ g.edges, l ≠ []
  lists_nodup : ∀ l ∈ g.edges, (l.map Cell.val).Nodup
  pairs_nodup : g.pairs.Nodup
  mem_pairs : ∀ p, p ∈ g.pairs ↔ p ∈ added

theorem Represents.invariant {g : Graph} {added : List (UInt64 × UInt64)}
    (h : Represents g added) : Invariant g added := by
  have hsnd : g.rows.map Prod.snd = g.edges.map (List.map Cell.val) := by
    rw [rows, List.map_snd_zip]
    simp [h.lengths]
  have hrow : ∀ l ∈ g.edges, ∃ r ∈ g.rows, r.2 = l.map Cell.val := fun l hl => by
    have hm : l.map Cell.val ∈ g.rows.map Prod.snd := hsnd ▸ List.mem_map_of_mem hl
    exact List.mem_map.mp hm
  refine ⟨?_, h.lengths, fun l hl hnil => ?_, fun l hl => ?_, h.wellFormed.pairs_nodup, h.mem_pairs⟩
  · rw [← sources_rows g h.lengths]
    exact h.wellFormed.sources_nodup
  · obtain ⟨r, hr, he⟩ := hrow l hl
    exact h.wellFormed.targets_ne_nil r hr (by rw [he, hnil]; rfl)
  · obtain ⟨r, hr, he⟩ := hrow l hl
    exact he ▸ h.wellFormed.targets_nodup r hr

/-- Graphs made by graph_new and graph_add: the representation, the return codes,
the edge count and the visits of graph_foreach. -/
theorem graph_representation (adds : List (Cell × Cell)) :
    graphNew .succeed = (.ok, some (ofAdds [])) ∧
    Invariant (ofAdds adds) (history adds) ∧
    (∀ «from» «to» : Cell, (graphAdd .succeed (ofAdds adds) «from» «to»).1 =
      if («from».val, «to».val) ∈ history adds then .graphBothExist
      else if «from».val ∈ (history adds).map Prod.fst then .graphFromExists
      else .ok) ∧
    graphEdges (ofAdds adds) = some (history adds).dedup.length ∧
    (∃ visits : List (Cell × List Cell),
      (∀ (σ : Type) (fn : σ → Cell → List Cell → σ) (data : σ),
        graphForeach (ofAdds adds) fn data =
          some (visits.foldl (fun d v => fn d v.1 v.2) data)) ∧
      (visits.map fun v => v.1.val).Nodup ∧
      (∀ a, a ∈ (visits.map fun v => v.1.val) ↔ a ∈ (history adds).map Prod.fst) ∧
      (visits.flatMap fun v => v.2.map fun x => (v.1.val, x.val)).Nodup ∧
      (∀ p, p ∈ (visits.flatMap fun v => v.2.map fun x => (v.1.val, x.val)) ↔
        p ∈ history adds)) := by
  have h := represents_ofAdds adds
  have hs : ((ofAdds adds).nodes.zip (ofAdds adds).edges).map (fun v => v.1.val) =
      sources (ofAdds adds).rows := by
    rw [rows_eq_zip, sources, List.map_map]
    rfl
  have hp : ((ofAdds adds).nodes.zip (ofAdds adds).edges).flatMap
      (fun v => v.2.map fun x => (v.1.val, x.val)) = (ofAdds adds).pairs := by
    rw [pairs, rows_eq_zip, Adjacency.pairs, List.flatMap_map]
    simp only [List.map_map, Function.comp_def]
  refine ⟨rfl, h.invariant, h.status, h.graphEdges, (ofAdds adds).nodes.zip (ofAdds adds).edges,
    fun _ => graphForeach_eq _ h.lengths, ?_⟩
  rw [hs, hp]
  refine ⟨h.wellFormed.sources_nodup, fun a => ?_, h.wellFormed.pairs_nodup, h.mem_pairs⟩
  rw [h.rows_eq]
  exact AdjList.mem_sources_ofHistory

end FuzzMonitor.Graph
