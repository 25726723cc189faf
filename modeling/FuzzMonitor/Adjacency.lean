import Mathlib

namespace FuzzMonitor.Adjacency

variable {α : Type*}

/-- A directed graph as rows: each source with its targets, in insertion order. -/
abbrev Rows (α : Type*) := List (α × List α)

def sources (rows : Rows α) : List α := rows.map Prod.fst

def pairs (rows : Rows α) : List (α × α) := rows.flatMap fun r => r.2.map (r.1, ·)

/-- Which part of a pair was there before it was added. -/
inductive Added | both | source | fresh
  deriving DecidableEq, Repr

def Added.count : Added → ℕ
  | .both => 0
  | .source => 1
  | .fresh => 2

structure WellFormed (rows : Rows α) : Prop where
  sources_nodup : (sources rows).Nodup
  targets_ne_nil : ∀ r ∈ rows, r.2 ≠ []
  targets_nodup : ∀ r ∈ rows, r.2.Nodup

theorem wellFormed_nil : WellFormed ([] : Rows α) := ⟨List.nodup_nil, by simp, by simp⟩

theorem WellFormed.tail {r : α × List α} {rows : Rows α} (h : WellFormed (r :: rows)) :
    WellFormed rows where
  sources_nodup := (List.nodup_cons.mp h.sources_nodup).2
  targets_ne_nil := fun s hs => h.targets_ne_nil s (List.mem_cons_of_mem _ hs)
  targets_nodup := fun s hs => h.targets_nodup s (List.mem_cons_of_mem _ hs)

theorem wellFormed_cons {r : α × List α} {rows : Rows α} (hs : r.1 ∉ sources rows)
    (hne : r.2 ≠ []) (hnd : r.2.Nodup) (h : WellFormed rows) : WellFormed (r :: rows) where
  sources_nodup := List.nodup_cons.mpr ⟨hs, h.sources_nodup⟩
  targets_ne_nil := by simpa using ⟨hne, fun _ _ => h.targets_ne_nil _⟩
  targets_nodup := by simpa using ⟨hnd, fun _ _ => h.targets_nodup _⟩

theorem mem_pairs {rows : Rows α} {a b : α} :
    (a, b) ∈ pairs rows ↔ ∃ vs, (a, vs) ∈ rows ∧ b ∈ vs := by
  simp only [pairs, List.mem_flatMap, List.mem_map, Prod.mk.injEq, Prod.exists]
  constructor
  · rintro ⟨v, vs, hr, w, hw, rfl, rfl⟩
    exact ⟨vs, hr, hw⟩
  · rintro ⟨vs, hr, hb⟩
    exact ⟨a, vs, hr, b, hb, rfl, rfl⟩

theorem WellFormed.mem_sources {rows : Rows α} (h : WellFormed rows) {a : α} :
    a ∈ sources rows ↔ ∃ b, (a, b) ∈ pairs rows := by
  simp only [sources, List.mem_map, mem_pairs, Prod.exists]
  constructor
  · rintro ⟨_, vs, hr, rfl⟩
    obtain ⟨b, hb⟩ := List.exists_mem_of_ne_nil vs (h.targets_ne_nil _ hr)
    exact ⟨b, vs, hr, hb⟩
  · rintro ⟨_, vs, hr, _⟩
    exact ⟨a, vs, hr, rfl⟩

theorem WellFormed.pairs_nodup {rows : Rows α} (h : WellFormed rows) : (pairs rows).Nodup := by
  refine List.nodup_flatMap.mpr ⟨fun r hr => ?_, ?_⟩
  · exact (h.targets_nodup r hr).map fun _ _ hp => (Prod.mk.inj hp).2
  · refine (List.pairwise_map.mp h.sources_nodup).imp fun hne p hp hq => ?_
    obtain ⟨_, _, rfl⟩ := List.mem_map.mp hp
    obtain ⟨_, _, he⟩ := List.mem_map.mp hq
    exact hne (Prod.mk.inj he).1.symm

variable [DecidableEq α]

def add : Rows α → α → α → Added × Rows α
  | [], a, b => (.fresh, [(a, [b])])
  | (v, vs) :: rows, a, b =>
    if v = a then
      if b ∈ vs then (.both, (v, vs) :: rows) else (.source, (v, vs ++ [b]) :: rows)
    else ((add rows a b).1, (v, vs) :: (add rows a b).2)

theorem sources_add (rows : Rows α) (a b : α) :
    sources (add rows a b).2 = if a ∈ sources rows then sources rows else sources rows ++ [a] := by
  induction rows with
  | nil => simp [add, sources]
  | cons r rows ih =>
    obtain ⟨v, vs⟩ := r
    by_cases hv : v = a
    · subst hv
      by_cases hb : b ∈ vs <;> simp [add, hb, sources]
    · simp only [sources] at ih
      simp only [add, if_neg hv, sources, List.map_cons, ih, List.mem_cons, Ne.symm hv, false_or]
      split_ifs with h <;> simp [h]

theorem mem_pairs_add (rows : Rows α) (a b : α) (p : α × α) :
    p ∈ pairs (add rows a b).2 ↔ p ∈ pairs rows ∨ p = (a, b) := by
  induction rows with
  | nil => simp [add, pairs]
  | cons r rows ih =>
    obtain ⟨v, vs⟩ := r
    by_cases hv : v = a
    · subst hv
      by_cases hb : b ∈ vs
      · have hp : p = (v, b) → p ∈ pairs ((v, vs) :: rows) := by
          rintro rfl
          exact mem_pairs.mpr ⟨vs, List.mem_cons_self, hb⟩
        simpa [add, hb] using hp
      · simp only [add, if_true, if_neg hb, pairs, List.flatMap_cons, List.map_append,
          List.map_cons, List.map_nil, List.mem_append, List.mem_singleton]
        tauto
    · simp only [pairs] at ih
      simp only [add, if_neg hv, pairs, List.flatMap_cons, List.mem_append, ih]
      tauto

theorem add_wellFormed {rows : Rows α} (h : WellFormed rows) (a b : α) :
    WellFormed (add rows a b).2 := by
  induction rows with
  | nil => exact wellFormed_cons (by simp [sources]) (by simp) (by simp) wellFormed_nil
  | cons r rows ih =>
    obtain ⟨v, vs⟩ := r
    have hv := (List.nodup_cons.mp h.sources_nodup).1
    have hnd : vs.Nodup := h.targets_nodup _ List.mem_cons_self
    by_cases ha : v = a
    · subst ha
      by_cases hb : b ∈ vs
      · simpa [add, hb] using h
      · simp only [add, if_true, if_neg hb]
        refine wellFormed_cons hv (by simp) ?_ h.tail
        exact hnd.append (List.nodup_singleton b) (List.disjoint_singleton.mpr hb)
    · simp only [add, if_neg ha]
      refine wellFormed_cons ?_ (h.targets_ne_nil _ List.mem_cons_self) hnd (ih h.tail)
      rw [sources_add]
      split_ifs
      · exact hv
      · exact fun hm => (List.mem_append.mp hm).elim hv (by simp [ha])

theorem add_outcome {rows : Rows α} (h : WellFormed rows) (a b : α) :
    (add rows a b).1 =
      if (a, b) ∈ pairs rows then .both else if a ∈ sources rows then .source else .fresh := by
  induction rows with
  | nil => simp [add, pairs, sources]
  | cons r rows ih =>
    obtain ⟨v, vs⟩ := r
    by_cases ha : v = a
    · subst ha
      -- the source has no second row, so this one decides
      have hv := (List.nodup_cons.mp h.sources_nodup).1
      have hrow : (v, b) ∈ pairs ((v, vs) :: rows) ↔ b ∈ vs := by
        have hn : (v, b) ∉ pairs rows := fun hp => hv (h.tail.mem_sources.mpr ⟨b, hp⟩)
        simp only [pairs] at hn
        simp only [pairs, List.flatMap_cons, List.mem_append, hn, or_false]
        simp
      have hsrc : v ∈ sources ((v, vs) :: rows) := List.mem_cons_self
      by_cases hb : b ∈ vs <;> simp [add, hb, hrow, hsrc]
    · have hrow : (a, b) ∈ pairs ((v, vs) :: rows) ↔ (a, b) ∈ pairs rows := by
        simp [pairs, ha]
      have hsrc : a ∈ sources ((v, vs) :: rows) ↔ a ∈ sources rows := by
        simp [sources, Ne.symm ha]
      simp [add, if_neg ha, ih h.tail, hrow, hsrc]

theorem length_add (rows : Rows α) (a b : α) :
    (sources (add rows a b).2).length + (pairs (add rows a b).2).length =
      (sources rows).length + (pairs rows).length + (add rows a b).1.count := by
  induction rows with
  | nil => simp [add, sources, pairs, Added.count]
  | cons r rows ih =>
    obtain ⟨v, vs⟩ := r
    simp only [sources, pairs] at ih
    by_cases hv : v = a
    · by_cases hb : b ∈ vs
      · simp [add, hv, hb, sources, pairs, Added.count]
      · simp [add, hv, hb, sources, pairs, Added.count]
        omega
    · simp only [add, if_neg hv, sources, pairs, List.map_cons, List.length_cons,
        List.flatMap_cons, List.length_append]
      omega

/-- A graph that cannot hold a repeated source, a repeated pair or an empty row. -/
structure AdjList (α : Type*) where
  rows : Rows α
  wellFormed : WellFormed rows

def AdjList.empty : AdjList α := ⟨[], wellFormed_nil⟩

def AdjList.add (g : AdjList α) (p : α × α) : AdjList α :=
  ⟨(Adjacency.add g.rows p.1 p.2).2, add_wellFormed g.wellFormed p.1 p.2⟩

def AdjList.ofHistory (added : List (α × α)) : AdjList α := added.foldl AdjList.add AdjList.empty

theorem AdjList.mem_pairs_foldl (added : List (α × α)) (g : AdjList α) (p : α × α) :
    p ∈ pairs (added.foldl AdjList.add g).rows ↔ p ∈ pairs g.rows ∨ p ∈ added := by
  induction added generalizing g with
  | nil => simp
  | cons q added ih =>
    rw [List.foldl_cons, ih, List.mem_cons]
    simp only [AdjList.add, mem_pairs_add]
    tauto

theorem AdjList.mem_pairs_ofHistory {added : List (α × α)} {p : α × α} :
    p ∈ pairs (AdjList.ofHistory added).rows ↔ p ∈ added := by
  rw [AdjList.ofHistory, AdjList.mem_pairs_foldl]
  simp [AdjList.empty, pairs]

theorem AdjList.mem_sources_ofHistory {added : List (α × α)} {a : α} :
    a ∈ sources (AdjList.ofHistory added).rows ↔ a ∈ added.map Prod.fst := by
  rw [(AdjList.ofHistory added).wellFormed.mem_sources]
  simp [AdjList.mem_pairs_ofHistory]

theorem AdjList.pairs_length_ofHistory (added : List (α × α)) :
    (pairs (AdjList.ofHistory added).rows).length = added.dedup.length := by
  apply List.Perm.length_eq
  apply (List.perm_ext_iff_of_nodup (AdjList.wellFormed _).pairs_nodup (List.nodup_dedup _)).mpr
  simp [AdjList.mem_pairs_ofHistory]

end FuzzMonitor.Adjacency
