import Mathlib

namespace FuzzMonitor.Tally

variable {K V : Type*} [DecidableEq K]

/-- A finite map whose values carry a count. -/
abbrev Table (K V : Type*) := AList (fun _ : K => V)

def total (val : V → ℕ) (t : Table K V) : ℕ := (t.entries.map fun e => val e.2).sum

/-- The table counts the occurrences of each key in a history, and has no entry
for a key that never occurred. -/
structure Tallies (val : V → ℕ) (t : Table K V) (ks : List K) : Prop where
  lookup : ∀ k, (t.lookup k).map val = if k ∈ ks then some (ks.count k) else none
  total : total val t = ks.length

theorem entries_perm {t : Table K V} {k : K} {w : V} (h : t.lookup k = some w) :
    t.entries.Perm (⟨k, w⟩ :: (t.erase k).entries) := by
  have hmem : (⟨k, w⟩ : Σ _ : K, V) ∈ t.entries := AList.mem_lookup_iff.mp h
  obtain ⟨v, l₁, l₂, hk, hl, he⟩ := List.exists_of_kerase (List.mem_keys_of_mem hmem)
  have hv : v = w := t.nodupKeys.eq_of_mk_mem (by rw [hl]; simp) hmem
  subst hv
  have herase : (t.erase k).entries = l₁ ++ l₂ := he
  rw [herase, hl]
  exact List.perm_middle

theorem total_eq_erase {val : V → ℕ} {t : Table K V} {k : K} {w : V}
    (h : t.lookup k = some w) : total val t = val w + total val (t.erase k) := by
  unfold total
  rw [((entries_perm h).map _).sum_eq, List.map_cons, List.sum_cons]

theorem total_insert_fresh {val : V → ℕ} {t : Table K V} {k : K} (v : V)
    (h : t.lookup k = none) : total val (t.insert k v) = val v + total val t := by
  rw [total, AList.entries_insert_of_notMem (AList.lookup_eq_none.mp h), List.map_cons,
    List.sum_cons, total]

theorem total_insert_present {val : V → ℕ} {t : Table K V} {k : K} {w : V} (v : V)
    (h : t.lookup k = some w) :
    total val (t.insert k v) + val w = total val t + val v := by
  have hi : total val (t.insert k v) = val v + total val (t.erase k) := by
    simp [total, AList.erase]
  rw [hi, total_eq_erase h]
  omega

theorem length_insert_fresh {t : Table K V} {k : K} (v : V) (h : t.lookup k = none) :
    (t.insert k v).entries.length = t.entries.length + 1 := by
  rw [AList.entries_insert_of_notMem (AList.lookup_eq_none.mp h), List.length_cons]

theorem length_insert_present {t : Table K V} {k : K} {w : V} (v : V)
    (h : t.lookup k = some w) : (t.insert k v).entries.length = t.entries.length := by
  have hmem : (⟨k, w⟩ : Σ _ : K, V) ∈ t.entries := AList.mem_lookup_iff.mp h
  obtain ⟨_, l₁, l₂, _, hl, he⟩ := List.exists_of_kerase (List.mem_keys_of_mem hmem)
  rw [AList.entries_insert, he, hl]
  simp only [List.length_cons, List.length_append]
  omega

theorem tallies_empty (val : V → ℕ) : Tallies val (∅ : Table K V) [] :=
  ⟨fun _ => rfl, rfl⟩

theorem Tallies.lookup_eq_none {val : V → ℕ} {t : Table K V} {ks : List K}
    (h : Tallies val t ks) (k : K) : t.lookup k = none ↔ k ∉ ks := by
  have hk := h.lookup k
  rw [← Option.map_eq_none_iff (f := val), hk]
  split_ifs with hm <;> simp [hm]

theorem Tallies.mem_keys {val : V → ℕ} {t : Table K V} {ks : List K} (h : Tallies val t ks)
    (k : K) : k ∈ t.keys ↔ k ∈ ks := by
  rw [← not_iff_not, ← h.lookup_eq_none, AList.lookup_eq_none]
  rfl

theorem Tallies.val_eq_count {val : V → ℕ} {t : Table K V} {ks : List K}
    (h : Tallies val t ks) {k : K} {w : V} (hw : t.lookup k = some w) :
    k ∈ ks ∧ val w = ks.count k := by
  have hk := h.lookup k
  rw [hw, Option.map_some] at hk
  split_ifs at hk with hm
  exact ⟨hm, Option.some.inj hk⟩

theorem Tallies.val_le_length {val : V → ℕ} {t : Table K V} {ks : List K}
    (h : Tallies val t ks) {k : K} {w : V} (hw : t.lookup k = some w) : val w ≤ ks.length := by
  rw [(h.val_eq_count hw).2]
  exact List.count_le_length

/-- A table on encoded keys, read through an injective encoding. -/
theorem Tallies.lookup_map {P : Type*} [BEq P] [LawfulBEq P] {val : V → ℕ} {t : Table K V}
    {f : P → K} (hf : Function.Injective f) {ps : List P} (h : Tallies val t (ps.map f)) (p : P) :
    (t.lookup (f p)).map val = if ps.count p = 0 then none else some (ps.count p) := by
  rw [h.lookup, List.count_map_of_injective ps f hf]
  simp only [List.count_eq_zero, List.mem_map_of_injective hf, ite_not]

theorem Tallies.insert_fresh {val : V → ℕ} {t : Table K V} {ks : List K}
    (h : Tallies val t ks) {k : K} {v : V} (hk : t.lookup k = none) (hv : val v = 1) :
    Tallies val (t.insert k v) (ks ++ [k]) := by
  have hnot := (h.lookup_eq_none k).mp hk
  refine ⟨fun j => ?_, ?_⟩
  · by_cases hj : j = k
    · subst hj
      simp [hv, List.count_append, List.count_eq_zero_of_not_mem hnot]
    · rw [AList.lookup_insert_ne hj, h.lookup j]
      simp [hj, List.count_append, Ne.symm hj]
  · rw [total_insert_fresh v hk, h.total, hv, List.length_append, List.length_singleton]
    omega

theorem Tallies.insert_present {val : V → ℕ} {t : Table K V} {ks : List K}
    (h : Tallies val t ks) {k : K} {v w : V} (hk : t.lookup k = some w)
    (hv : val v = val w + 1) : Tallies val (t.insert k v) (ks ++ [k]) := by
  obtain ⟨hmem, hcount⟩ := h.val_eq_count hk
  refine ⟨fun j => ?_, ?_⟩
  · by_cases hj : j = k
    · subst hj
      simp [hv, hcount, List.count_append]
    · rw [AList.lookup_insert_ne hj, h.lookup j]
      simp [hj, List.count_append, Ne.symm hj]
  · have ht : Tally.total val (t.insert k v) + val w = Tally.total val t + val v :=
      total_insert_present v hk
    rw [h.total] at ht
    rw [List.length_append, List.length_singleton]
    omega

theorem Tallies.keys_perm {val : V → ℕ} {t : Table K V} {ks : List K} (h : Tallies val t ks) :
    t.keys.Perm ks.dedup := by
  rw [List.perm_ext_iff_of_nodup t.keys_nodup ks.nodup_dedup]
  intro k
  rw [List.mem_dedup]
  exact h.mem_keys k

/-- The counts of some of the keys add up to the occurrences of these keys. -/
theorem Tallies.sum_filter {val : V → ℕ} {t : Table K V} {ks : List K} (h : Tallies val t ks)
    (q : K → Bool) : ((t.entries.filter fun e => q e.1).map fun e => val e.2).sum = ks.countP q := by
  have hcounts : ((t.entries.filter fun e => q e.1).map fun e => val e.2) =
      (t.keys.filter q).map fun k => ks.count k := by
    unfold AList.keys List.keys
    rw [List.filter_map, List.map_map]
    apply List.map_congr_left
    intro e he
    have hmem := (List.mem_filter.mp he).1
    exact (h.val_eq_count (AList.mem_lookup_iff.mpr hmem)).2
  rw [hcounts, ((h.keys_perm.filter q).map _).sum_eq, List.sum_map_count_dedup_filter_eq_countP]

theorem Tallies.entries_card {val : V → ℕ} {t : Table K V} {ks : List K} (h : Tallies val t ks) :
    t.entries.length = ks.toFinset.card := by
  have hkeys : t.keys.length = t.entries.length := List.length_map _
  rw [← hkeys, h.keys_perm.length_eq, List.card_toFinset]

/-- A table on encoded keys has one entry for each code. -/
theorem Tallies.entries_card_map {P : Type*} [DecidableEq P] {val : V → ℕ} {t : Table K V}
    {f : P → K} {ps : List P} (h : Tallies val t (ps.map f)) :
    t.entries.length = (ps.toFinset.image f).card := by
  have himage : (ps.map f).toFinset = ps.toFinset.image f := by
    ext k
    rw [List.mem_toFinset, List.mem_map, Finset.mem_image]
    simp only [List.mem_toFinset]
  rw [h.entries_card, himage]

/-- The table of the images of a history has no more entries than the table of the history. -/
theorem Tallies.entries_map_le {J W : Type*} [DecidableEq J] {val : V → ℕ} {t : Table K V}
    {ks : List K} {val' : W → ℕ} {t' : Table J W} {f : K → J} (h : Tallies val t ks)
    (h' : Tallies val' t' (ks.map f)) : t'.entries.length ≤ t.entries.length := by
  rw [h.entries_card, h'.entries_card_map]
  exact Finset.card_image_le

/-- Two tables of one history, in any order, hold the same counts. -/
theorem Tallies.eq_of_perm {val : V → ℕ} {s t : Table K V} {ks js : List K}
    (hs : Tallies val s ks) (ht : Tallies val t js) (h : ks.Perm js) (k : K) :
    (s.lookup k).map val = (t.lookup k).map val := by
  rw [hs.lookup, ht.lookup, h.count_eq]
  simp only [h.mem_iff]

end FuzzMonitor.Tally
