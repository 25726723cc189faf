import FuzzMonitor.DepthSearch

namespace FuzzMonitor.Graph
open Adjacency Search

theorem depthConnLoop_spec {g : Graph} {added : List (UInt64 × UInt64)}
    (hrep : Represents g added) (is : List ℕ) (his : ∀ i ∈ is, i < g.nodes.length) (m : ℕ) :
    ∃ D, depthConnLoop g is m = .ok D ∧
      IsGreatest {x | x = m ∨ ∃ i ∈ is, x ∈ Depths added (g.addrAt i)} D := by
  induction is generalizing m with
  | nil => exact ⟨m, rfl, Or.inl rfl, by simp [upperBounds]⟩
  | cons i is ih =>
    obtain ⟨d, hd, hgreat⟩ := graphDepth_spec hrep (his i List.mem_cons_self)
    have hmax : (if d > m then d else m) = max m d := by split_ifs <;> omega
    obtain ⟨D, hD, hmem, hub⟩ := ih (fun j hj => his j (List.mem_cons_of_mem _ hj)) (max m d)
    have hle : max m d ≤ D := hub (Or.inl rfl)
    refine ⟨D, by rw [depthConnLoop, hd]; dsimp only; rw [hmax]; exact hD, ?_, ?_⟩
    · rcases hmem with rfl | ⟨j, hj, hx⟩
      · rcases le_total m d with h | h
        · rw [max_eq_right h]
          exact Or.inr ⟨i, List.mem_cons_self, hgreat.1⟩
        · exact Or.inl (max_eq_left h)
      · exact Or.inr ⟨j, List.mem_cons_of_mem _ hj, hx⟩
    · rintro x (rfl | ⟨j, hj, hx⟩)
      · exact (le_max_left _ _).trans hle
      · rcases List.mem_cons.mp hj with rfl | hj
        · exact (hgreat.2 hx).trans ((le_max_right _ _).trans hle)
        · exact hub (Or.inr ⟨j, hj, hx⟩)

/-- graph_depth_conn never fails and returns the largest of all depths, 0 for no source. -/
theorem graphDepthConn_spec {g : Graph} {added : List (UInt64 × UInt64)}
    (hrep : Represents g added) :
    ∃ D, g.graphDepthConn = .ok D ∧
      IsGreatest {x | x = 0 ∨ ∃ a, Source added a ∧ x ∈ Depths added a} D := by
  obtain ⟨D, hD, hgreat⟩ := depthConnLoop_spec hrep (List.range g.nodes.length)
    (fun i hi => List.mem_range.mp hi) 0
  have hset : {x | x = 0 ∨ ∃ i ∈ List.range g.nodes.length, x ∈ Depths added (g.addrAt i)} =
      {x | x = 0 ∨ ∃ a, Source added a ∧ x ∈ Depths added a} := by
    ext x
    refine or_congr_right ⟨?_, ?_⟩
    · rintro ⟨i, hi, hx⟩
      exact ⟨_, (hrep.source_iff _).mp (addrAt_mem (List.mem_range.mp hi)), hx⟩
    · rintro ⟨a, ha, hx⟩
      obtain ⟨n, hn, rfl⟩ := List.mem_map.mp ((hrep.source_iff a).mpr ha)
      obtain ⟨i, hi, rfl⟩ := List.getElem_of_mem hn
      exact ⟨i, List.mem_range.mpr hi, by rwa [addrAt_eq (List.getElem?_eq_getElem hi)]⟩
  exact ⟨D, hD, hset ▸ hgreat⟩

def Distances (added : List (UInt64 × UInt64)) : Set ℕ :=
  {d | ∃ s v, Source added s ∧ Dist (Edge added) s v d}

/-- The depth of a graph: the largest shortest-path distance from a source, 0 without edges. -/
noncomputable def trueDepth (added : List (UInt64 × UInt64)) : ℕ := sSup (Distances added)

theorem distance_le {added : List (UInt64 × UInt64)} {D : ℕ}
    (hub : ∀ s, Source added s → ∀ m ∈ Depths added s, m ≤ D) {d : ℕ}
    (hd : d ∈ Distances added) : d ≤ D := by
  obtain ⟨s, v, hs, hdist⟩ := hd
  cases d with
  | zero => exact Nat.zero_le D
  | succ n =>
    obtain ⟨b, hw, hr⟩ := walk_succ.mp hdist.1
    cases n with
    | zero => exact hub s hs 1 (Or.inl rfl)
    | succ n =>
      obtain ⟨e, -, he⟩ := exists_nextDist (by omega) hw
      have hle : n + 1 + 1 ≤ e + 1 := hdist.2 (Walk.step he.1.2 hr)
      exact hle.trans (hub s hs _ (Or.inr ⟨b, e, hr.source, he, rfl⟩))

/-- Some vertex that is not a source lies farther from a source than any source does;
a source on a cycle counts as far from itself as its shortest cycle is long. -/
def LeafDeepest (added : List (UInt64 × UInt64)) : Prop :=
  ∃ s v d, Source added s ∧ ¬Source added v ∧ Dist (Edge added) s v d ∧
    ∀ s' v' e, Source added s' → Source added v' → NextDist (Edge added) s' v' e → e < d

theorem Dist.pos {r : UInt64 → UInt64 → Prop} {a b : UInt64} {d : ℕ} (hne : a ≠ b)
    (h : Dist r a b d) : 1 ≤ d := by
  rw [← nextDist_iff_dist hne] at h
  exact h.1.1

/-- A largest depth that is a distance in the graph is the distance of a leaf: a source at
that distance would have raised the depth by one more. -/
theorem leafDeepest_of_mem {added : List (UInt64 × UInt64)} {D : ℕ}
    (hub : ∀ s, Source added s → ∀ m ∈ Depths added s, m ≤ D) (hD : D ∈ Distances added) :
    LeafDeepest added := by
  obtain ⟨s, v, hs, hdist⟩ := hD
  have hpos : 1 ≤ D := hub s hs 1 (Or.inl rfl)
  refine ⟨s, v, D, hs, fun hv => ?_, hdist, fun s' v' e hs' hv' he => ?_⟩
  · have hsv : s ≠ v := by
      rintro rfl
      have hzero := hdist.unique (dist_self _ s)
      omega
    have hle := hub s hs (D + 1)
      (Or.inr ⟨v, D, hv, (nextDist_iff_dist hsv D).mpr hdist, rfl⟩)
    omega
  · exact hub s' hs' (e + 1) (Or.inr ⟨v', e, hv', he, rfl⟩)

theorem depth_le_of_leaf {added : List (UInt64 × UInt64)} {s v : UInt64} {d : ℕ}
    (hs : Source added s) (hv : ¬Source added v) (hdist : Dist (Edge added) s v d)
    (hall : ∀ s' v' e, Source added s' → Source added v' → NextDist (Edge added) s' v' e → e < d)
    {a : UInt64} (ha : Source added a) {m : ℕ} (hm : m ∈ Depths added a) : m ≤ d := by
  have hsv : s ≠ v := by
    rintro rfl
    exact hv hs
  rcases hm with rfl | ⟨b, e, hb, he, rfl⟩
  · exact Dist.pos hsv hdist
  · exact hall a b e ha hb he

/-- graph_depth_conn is the depth of the graph exactly for the empty graph and for
graphs whose deepest vertex is a leaf. -/
theorem graphDepthConn_eq_trueDepth_iff (adds : List (Cell × Cell)) :
    (ofAdds adds).graphDepthConn = .ok (trueDepth (history adds)) ↔
      adds = [] ∨ LeafDeepest (history adds) := by
  obtain ⟨D, hD, hmem, hub⟩ := graphDepthConn_spec (represents_ofAdds adds)
  have hdepths : ∀ s, Source (history adds) s → ∀ m ∈ Depths (history adds) s, m ≤ D :=
    fun s hs m hm => hub (Or.inr ⟨s, hs, hm⟩)
  have hbdd : BddAbove (Distances (history adds)) := ⟨D, fun d hd => distance_le hdepths hd⟩
  rw [hD, Except.ok.injEq]
  constructor
  · intro heq
    cases adds with
    | nil => exact Or.inl rfl
    | cons p adds =>
      right
      have hp : Source (history (p :: adds)) p.1.val := by simp [Source, history]
      have hne : (Distances (history (p :: adds))).Nonempty := ⟨0, _, _, hp, dist_self _ _⟩
      exact leafDeepest_of_mem hdepths (heq ▸ Nat.sSup_mem hne hbdd)
  · rintro (rfl | ⟨s, v, d, hs, hv, hdist, hall⟩)
    · have hempty : Distances (history []) = ∅ := by
        ext d
        simp [Distances, Source, history]
      rcases hmem with rfl | ⟨a, ha, -⟩
      · rw [trueDepth, hempty, csSup_empty]
        rfl
      · simp [Source, history] at ha
    · have hd : d ∈ Distances (history adds) := ⟨s, v, hs, hdist⟩
      have hDd : D ≤ d := by
        rcases hmem with rfl | ⟨a, ha, hm⟩
        · exact Nat.zero_le d
        · exact depth_le_of_leaf hs hv hdist hall ha hm
      apply le_antisymm
      · exact hDd.trans (le_csSup hbdd hd)
      · exact csSup_le ⟨d, hd⟩ fun _ hx => distance_le hdepths hx

/-- A single self-loop: the only vertex is at distance 0, and the code reports 2. -/
theorem graphDepthConn_selfLoop :
    (ofAdds [(⟨0, 1⟩, ⟨1, 1⟩)]).graphDepthConn = .ok 2 ∧
      trueDepth (history [(⟨0, 1⟩, ⟨1, 1⟩)]) = 0 := by
  have hstay : ∀ n v, Walk (Edge (history [(⟨0, 1⟩, ⟨1, 1⟩)])) n 1 v → v = 1 := by
    intro n v hw
    cases hw with
    | refl => rfl
    | step _ hr => exact (Prod.mk.inj (List.mem_singleton.mp hr)).2
  have hset : Distances (history [(⟨0, 1⟩, ⟨1, 1⟩)]) = {0} := by
    ext d
    constructor
    · rintro ⟨s, v, hs, hdist⟩
      obtain rfl : s = 1 := by simpa [Source, history] using hs
      obtain rfl := hstay d v hdist.1
      exact hdist.unique (dist_self _ _)
    · rintro rfl
      exact ⟨1, 1, by simp [Source, history], dist_self _ _⟩
  exact ⟨by decide, by rw [trueDepth, hset, csSup_singleton]⟩

end FuzzMonitor.Graph
