import FuzzMonitor.DepthConn

namespace FuzzMonitor.Graph
open Adjacency Search

def SamePairs (added added' : List (UInt64 × UInt64)) : Prop := ∀ p, p ∈ added ↔ p ∈ added'

theorem SamePairs.edge {added added' : List (UInt64 × UInt64)} (h : SamePairs added added') :
    Edge added = Edge added' := by
  funext a b
  exact propext (h (a, b))

theorem SamePairs.source {added added' : List (UInt64 × UInt64)} (h : SamePairs added added') :
    Source added = Source added' := by
  funext a
  unfold Source
  simp only [List.mem_map, h _]

theorem SamePairs.depths {added added' : List (UInt64 × UInt64)} (h : SamePairs added added') :
    Depths added = Depths added' := by
  funext a
  unfold Depths
  rw [h.edge, h.source]

theorem length_eq_of_mem_iff {α : Type*} {l l' : List α} (hl : l.Nodup) (hl' : l'.Nodup)
    (h : ∀ a, a ∈ l ↔ a ∈ l') : l.length = l'.length :=
  ((List.perm_ext_iff_of_nodup hl hl').mpr h).length_eq

variable {g g' : Graph} {added added' : List (UInt64 × UInt64)}

theorem SamePairs.graphNodes (h : SamePairs added added') (hg : Represents g added)
    (hg' : Represents g' added') : g.graphNodes = g'.graphNodes := by
  have hnodes : (g.nodes.map Cell.val).length = (g'.nodes.map Cell.val).length := by
    apply length_eq_of_mem_iff hg.invariant.nodes_nodup hg'.invariant.nodes_nodup
    intro a
    rw [hg.source_iff, hg'.source_iff, h.source]
  have hpairs : g.pairs.length = g'.pairs.length := by
    apply length_eq_of_mem_iff hg.invariant.pairs_nodup hg'.invariant.pairs_nodup
    intro p
    rw [hg.mem_pairs, hg'.mem_pairs, h p]
  rw [List.length_map, List.length_map] at hnodes
  unfold Graph.graphNodes
  rw [hg.counter, hg'.counter, hnodes, hpairs]

theorem SamePairs.graphEdges (h : SamePairs added added') (hg : Represents g added)
    (hg' : Represents g' added') : g.graphEdges = g'.graphEdges := by
  have hlen : added.dedup.length = added'.dedup.length := by
    apply length_eq_of_mem_iff added.nodup_dedup added'.nodup_dedup
    intro p
    rw [List.mem_dedup, List.mem_dedup, h p]
  rw [hg.graphEdges, hg'.graphEdges, hlen]

theorem SamePairs.graphDepth (h : SamePairs added added') (hg : Represents g added)
    (hg' : Represents g' added') {i j : ℕ} (hi : i < g.nodes.length) (hj : j < g'.nodes.length)
    (haddr : g.addrAt i = g'.addrAt j) : g.graphDepth i = g'.graphDepth j := by
  obtain ⟨D, hD, hgreat⟩ := graphDepth_spec hg hi
  obtain ⟨D', hD', hgreat'⟩ := graphDepth_spec hg' hj
  rw [haddr, h.depths] at hgreat
  rw [hD, hD', hgreat.unique hgreat']

theorem SamePairs.graphDepthConn (h : SamePairs added added') (hg : Represents g added)
    (hg' : Represents g' added') : g.graphDepthConn = g'.graphDepthConn := by
  obtain ⟨D, hD, hgreat⟩ := graphDepthConn_spec hg
  obtain ⟨D', hD', hgreat'⟩ := graphDepthConn_spec hg'
  rw [h.source, h.depths] at hgreat
  rw [hD, hD', hgreat.unique hgreat']

theorem Represents.exists_index (hg : Represents g added) {a : UInt64} (ha : Source added a) :
    ∃ i, g.graphFindNodeIndex a = some i := by
  apply Option.ne_none_iff_exists'.mp
  intro hnone
  exact graphFindNodeIndex_none hnone ((hg.source_iff a).mpr ha)

/-- The measures of a graph depend on the set of its edges only, not on the order of the
additions nor on their number. -/
theorem graph_measures_agree (adds adds' : List (Cell × Cell))
    (h : ∀ p, p ∈ history adds ↔ p ∈ history adds') :
    (ofAdds adds).graphNodes = (ofAdds adds').graphNodes ∧
      (ofAdds adds).graphEdges = (ofAdds adds').graphEdges ∧
      (ofAdds adds).graphDepthConn = (ofAdds adds').graphDepthConn ∧
      ∀ a ∈ (history adds).map Prod.fst, ∃ i j,
        (ofAdds adds).graphFindNodeIndex a = some i ∧
        (ofAdds adds').graphFindNodeIndex a = some j ∧
        (ofAdds adds).graphDepth i = (ofAdds adds').graphDepth j := by
  have hsame : SamePairs (history adds) (history adds') := h
  have hg := represents_ofAdds adds
  have hg' := represents_ofAdds adds'
  refine ⟨hsame.graphNodes hg hg', hsame.graphEdges hg hg', hsame.graphDepthConn hg hg', ?_⟩
  intro a ha
  have ha' : Source (history adds') a := by
    rw [← hsame.source]
    exact ha
  obtain ⟨i, hi⟩ := hg.exists_index ha
  obtain ⟨j, hj⟩ := hg'.exists_index ha'
  obtain ⟨hilt, hiaddr⟩ := graphFindNodeIndex_some hi
  obtain ⟨hjlt, hjaddr⟩ := graphFindNodeIndex_some hj
  exact ⟨i, j, hi, hj, hsame.graphDepth hg hg' hilt hjlt (hiaddr.trans hjaddr.symm)⟩

theorem graph_measures_agree_swapped :
    (ofAdds [(⟨0, 1⟩, ⟨1, 2⟩), (⟨2, 2⟩, ⟨3, 3⟩)]).graphDepthConn =
      (ofAdds [(⟨0, 2⟩, ⟨1, 3⟩), (⟨2, 1⟩, ⟨3, 2⟩), (⟨4, 2⟩, ⟨5, 3⟩)]).graphDepthConn := by
  refine (graph_measures_agree [(⟨0, 1⟩, ⟨1, 2⟩), (⟨2, 2⟩, ⟨3, 3⟩)]
    [(⟨0, 2⟩, ⟨1, 3⟩), (⟨2, 1⟩, ⟨3, 2⟩), (⟨4, 2⟩, ⟨5, 3⟩)] fun p => ?_).2.2.1
  simp only [history, List.map_cons, List.map_nil, List.mem_cons, List.not_mem_nil, or_false]
  tauto

/-- Sources and pairs are as many as sources and targets together exactly where no target is a
source and each target has one pair. -/
theorem card_sources_add_card_iff {α : Type*} [DecidableEq α] (E : Finset (α × α)) :
    (E.image Prod.fst).card + E.card = (E.image Prod.fst ∪ E.image Prod.snd).card ↔
      Disjoint (E.image Prod.fst) (E.image Prod.snd) ∧ Set.InjOn Prod.snd (E : Set (α × α)) := by
  have hunion := Finset.card_union_le (E.image Prod.fst) (E.image Prod.snd)
  have hsnd : (E.image Prod.snd).card ≤ E.card := Finset.card_image_le
  rw [← Finset.card_union_eq_card_add_card, ← Finset.card_image_iff]
  omega

theorem toFinset_map {α β : Type*} [DecidableEq α] [DecidableEq β] (f : α → β) (l : List α) :
    (l.map f).toFinset = l.toFinset.image f := by
  ext b
  simp only [List.mem_toFinset, List.mem_map, Finset.mem_image]

def vertices (added : List (UInt64 × UInt64)) : List UInt64 :=
  (added.map Prod.fst ++ added.map Prod.snd).dedup

theorem vertices_length (added : List (UInt64 × UInt64)) :
    (vertices added).length =
      (added.toFinset.image Prod.fst ∪ added.toFinset.image Prod.snd).card := by
  unfold vertices
  rw [← List.card_toFinset, List.toFinset_append, toFinset_map, toFinset_map]

/-- The counter counts the distinct sources and the distinct pairs. -/
theorem Represents.graphNodes_eq (hg : Represents g added) :
    g.graphNodes = (added.toFinset.image Prod.fst).card + added.toFinset.card := by
  have hnodes : (g.nodes.map Cell.val).toFinset = added.toFinset.image Prod.fst := by
    ext a
    rw [List.mem_toFinset, hg.source_iff, ← toFinset_map, List.mem_toFinset]
    rfl
  have hpairs : g.pairs.toFinset = added.toFinset := by
    ext p
    rw [List.mem_toFinset, List.mem_toFinset, hg.mem_pairs]
  rw [← hnodes, ← hpairs, List.toFinset_card_of_nodup hg.invariant.nodes_nodup,
    List.toFinset_card_of_nodup hg.invariant.pairs_nodup, List.length_map]
  exact hg.counter

/-- graph_nodes is the number of vertices exactly for graphs in which no target is a source and
no two edges have one target. -/
theorem graphNodes_eq_vertices_iff (adds : List (Cell × Cell)) :
    (ofAdds adds).graphNodes = (vertices (history adds)).length ↔
      (∀ p ∈ history adds, p.2 ∉ (history adds).map Prod.fst) ∧
        ∀ p ∈ history adds, ∀ q ∈ history adds, p.2 = q.2 → p = q := by
  rw [(represents_ofAdds adds).graphNodes_eq, vertices_length, card_sources_add_card_iff]
  apply and_congr
  · rw [Finset.disjoint_right, ← toFinset_map, ← toFinset_map]
    simp only [List.mem_toFinset, List.forall_mem_map]
  · unfold Set.InjOn
    rw [List.coe_toFinset]
    rfl

/-- A single self-loop counts its source and its edge. -/
theorem graphNodes_selfLoop :
    (ofAdds [(⟨0, 1⟩, ⟨1, 1⟩)]).graphNodes = 2 ∧
      (vertices (history [(⟨0, 1⟩, ⟨1, 1⟩)])).length = 1 := by decide

end FuzzMonitor.Graph
