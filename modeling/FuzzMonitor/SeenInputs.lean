import FuzzMonitor.MonitorLoop
import FuzzMonitor.Runs

namespace FuzzMonitor.MonitorLoop
open Tally Runs Crc64 Inotify Branches Perf

structure Counting where
  env : SeenEnv
  hash : UInt64
  bufHash : ℕ

def Counts (s : SeenInputs) (c : Counting) (s' : SeenInputs) : Prop :=
  c.bufHash = s.heap ∧ countInput c.env c.hash s = some s'

def SeenInputs.start : SeenInputs := ⟨∅, 0, 0, 0, 0, []⟩

def SeenEntry.count (e : SeenEntry) : ℕ := e.value.toNat

/-- What a pass does that leaves the given value at the hash, under the given key. -/
structure Counted (hash : UInt64) (entry : SeenEntry) (s s' : SeenInputs) : Prop where
  table : s'.table = s.table.insert hash entry
  freed : s'.freed = if entry.value > 1 then s.freed ++ [s.heap] else s.freed
  heap : s.heap < s'.heap
  raised : entry.value.toUInt64 > s.maxSeenInput →
    s'.maxSeenInput = entry.value.toUInt64 ∧ s'.maxSeenInputK = hash
  kept : ¬entry.value.toUInt64 > s.maxSeenInput →
    s'.maxSeenInput = s.maxSeenInput ∧ s'.maxSeenInputK = s.maxSeenInputK
  total : s'.seenTotal =
    if (s.seenTotal + 1).toNat > 2 * s'.table.entries.length
    then .ofNat s'.table.entries.length else s.seenTotal + 1

theorem counted_noteMax (hash : UInt64) (entry : SeenEntry) (s : SeenInputs) (heap : ℕ)
    (hheap : s.heap < heap) :
    Counted hash entry s (resetTotal (noteMax hash s.heap entry.value
      { s with table := s.table.insert hash entry, seenTotal := s.seenTotal + 1, heap := heap })) := by
  unfold resetTotal noteMax
  dsimp only
  constructor
  · split_ifs <;> rfl
  · split_ifs <;> rfl
  · split_ifs <;> exact hheap
  · intro hmax
    rw [if_pos hmax]
    split_ifs <;> exact ⟨rfl, rfl⟩
  · intro hmax
    rw [if_neg hmax]
    split_ifs <;> exact ⟨rfl, rfl⟩
  · split_ifs <;> rfl

theorem seenValue_cases {env : SeenEnv} {hash : UInt64} {bufHash : ℕ} {s s' : SeenInputs}
    {value : UInt32} (h : seenValue env hash bufHash s = some (value, s')) :
    (∃ e, s.table.lookup hash = some e ∧ value = e.value + 1 ∧
        s' = { s with table := s.table.insert hash { e with value := e.value + 1 } }) ∨
      (s.table.lookup hash = none ∧ value = 1 ∧
        s' = { s with table := s.table.insert hash ⟨bufHash, 1⟩, heap := s.heap + 1 }) := by
  unfold seenValue at h
  split at h
  · next e hlookup =>
    rw [Option.some.injEq, Prod.mk.injEq] at h
    exact .inl ⟨e, hlookup, h.1.symm, h.2.symm⟩
  · next hlookup =>
    split_ifs at h
    rw [Option.some.injEq, Prod.mk.injEq] at h
    exact .inr ⟨hlookup, h.1.symm, h.2.symm⟩

/-- A pass either increments the entry of the hash or makes one that owns the allocation. -/
theorem countInput_cases {env : SeenEnv} {hash : UInt64} {s s' : SeenInputs}
    (h : countInput env hash s = some s') :
    (∃ e, s.table.lookup hash = some e ∧ Counted hash { e with value := e.value + 1 } s s') ∨
      (s.table.lookup hash = none ∧ Counted hash ⟨s.heap, 1⟩ s s') := by
  unfold countInput at h
  dsimp only at h
  split_ifs at h
  split at h
  · contradiction
  · next value s₁ hvalue =>
    rw [← Option.some.inj h]
    rcases seenValue_cases hvalue with ⟨e, hlookup, rfl, rfl⟩ | ⟨hlookup, rfl, rfl⟩
    · exact .inl ⟨e, hlookup, counted_noteMax hash { e with value := e.value + 1 } s _
        (Nat.lt_succ_self _)⟩
    · exact .inr ⟨hlookup, counted_noteMax hash ⟨s.heap, 1⟩ s _ (by dsimp only; omega)⟩

theorem SeenEntry.count_incr {e : SeenEntry} (h : e.count + 1 < 2 ^ 32) :
    ({ e with value := e.value + 1 } : SeenEntry).count = e.count + 1 := by
  unfold SeenEntry.count at h ⊢
  rw [UInt32.toNat_add, UInt32.toNat_one, Nat.mod_eq_of_lt h]

theorem SeenEntry.count_toUInt64 (e : SeenEntry) : e.value.toUInt64.toNat = e.count :=
  UInt32.toNat_toUInt64 e.value

/-- The counts of the table, as many as inputs; the total lies between one and two inputs for
each entry. -/
structure Tallied (s : SeenInputs) (hashes : List UInt64) : Prop where
  tallies : Tallies SeenEntry.count s.table hashes
  size_le : s.table.entries.length ≤ hashes.length
  total_ge : s.table.entries.length ≤ s.seenTotal.toNat
  total_le : s.seenTotal.toNat ≤ 2 * s.table.entries.length

theorem Counted.total_bounds {hash : UInt64} {entry : SeenEntry} {s s' : SeenInputs}
    (h : Counted hash entry s s') {size : ℕ} (hsize : size < 2 ^ 32)
    (hge : size ≤ s.seenTotal.toNat) (hle : s.seenTotal.toNat ≤ 2 * size)
    (hnew : s'.table.entries.length = size ∨ s'.table.entries.length = size + 1) :
    s'.table.entries.length ≤ s'.seenTotal.toNat ∧
      s'.seenTotal.toNat ≤ 2 * s'.table.entries.length := by
  have hadd : (s.seenTotal + 1).toNat = s.seenTotal.toNat + 1 := by
    rw [UInt64.toNat_add, UInt64.toNat_one, Nat.mod_eq_of_lt (by omega)]
  rw [h.total]
  split_ifs with hreset
  · rw [UInt64.toNat_ofNat_of_lt' (by rw [UInt64.size]; omega)]
    omega
  · omega

theorem Tallied.step {c : Counting} {s s' : SeenInputs} {hashes : List UInt64}
    (hs : Tallied s hashes) (hlen : hashes.length + 1 < 2 ^ 32) (h : Counts s c s') :
    Tallied s' (hashes ++ [c.hash]) := by
  have hsize := hs.size_le
  rcases countInput_cases h.2 with ⟨e, hlookup, hc⟩ | ⟨hlookup, hc⟩
  · have hvalue : e.count ≤ hashes.length := hs.tallies.val_le_length hlookup
    have hsame : s'.table.entries.length = s.table.entries.length := by
      rw [hc.table, length_insert_present _ hlookup]
    obtain ⟨hge, hle⟩ := hc.total_bounds (by omega) hs.total_ge hs.total_le (.inl hsame)
    refine ⟨?_, ?_, hge, hle⟩
    · rw [hc.table]
      exact hs.tallies.insert_present hlookup (SeenEntry.count_incr (by omega))
    · rw [hsame, List.length_append]
      omega
  · have hmore : s'.table.entries.length = s.table.entries.length + 1 := by
      rw [hc.table, length_insert_fresh _ hlookup]
    obtain ⟨hge, hle⟩ := hc.total_bounds (by omega) hs.total_ge hs.total_le (.inr hmore)
    refine ⟨?_, ?_, hge, hle⟩
    · rw [hc.table]
      exact hs.tallies.insert_fresh hlookup rfl
    · rw [hmore, List.length_append, List.length_singleton]
      omega

/-- The maximum bounds every entry, and belongs to the key noted with it. -/
structure Greatest (s : SeenInputs) : Prop where
  le : ∀ k e, s.table.lookup k = some e → e.count ≤ s.maxSeenInput.toNat
  attained : s.maxSeenInput.toNat = 0 ∨
    ∃ e, s.table.lookup s.maxSeenInputK = some e ∧ e.count = s.maxSeenInput.toNat

theorem Greatest.step {hash : UInt64} {entry : SeenEntry} {s s' : SeenInputs} (hs : Greatest s)
    (h : Counted hash entry s s') (hpos : 0 < entry.count)
    (hup : ∀ e, s.table.lookup hash = some e → e.count < entry.count) : Greatest s' := by
  have hentry : s'.table.lookup hash = some entry := by rw [h.table, AList.lookup_insert]
  have hother : ∀ k, k ≠ hash → s'.table.lookup k = s.table.lookup k := by
    intro k hk
    rw [h.table, AList.lookup_insert_ne hk]
  by_cases hraised : entry.value.toUInt64 > s.maxSeenInput
  · obtain ⟨hmax, hkey⟩ := h.raised hraised
    rw [gt_iff_lt, UInt64.lt_iff_toNat_lt, SeenEntry.count_toUInt64] at hraised
    have hnew : s'.maxSeenInput.toNat = entry.count := by rw [hmax, SeenEntry.count_toUInt64]
    refine ⟨fun k e hk => ?_, .inr ⟨entry, hkey ▸ hentry, hnew.symm⟩⟩
    rw [hnew]
    by_cases heq : k = hash
    · rw [heq, hentry] at hk
      rw [Option.some.inj hk]
    · rw [hother k heq] at hk
      have hle := hs.le k e hk
      omega
  · obtain ⟨hmax, hkey⟩ := h.kept hraised
    rw [gt_iff_lt, UInt64.lt_iff_toNat_lt, SeenEntry.count_toUInt64] at hraised
    refine ⟨fun k e hk => ?_, .inr ?_⟩
    · rw [hmax]
      by_cases heq : k = hash
      · rw [heq, hentry] at hk
        rw [← Option.some.inj hk]
        omega
      · rw [hother k heq] at hk
        exact hs.le k e hk
    · rw [hmax, hkey]
      rcases hs.attained with hzero | ⟨e, hk, he⟩
      · omega
      · -- the hash itself cannot hold the maximum: its entry goes up and stays within
        have hne : s.maxSeenInputK ≠ hash := by
          intro heq
          have hlt := hup e (heq ▸ hk)
          omega
        exact ⟨e, (hother _ hne).trans hk, he⟩

def Holds (t : Table UInt64 SeenEntry) (id : ℕ) : Prop :=
  ∃ k e, t.lookup k = some e ∧ e.keyId = id

theorem holds_insert_present {t : Table UInt64 SeenEntry} {hash : UInt64} {old entry : SeenEntry}
    (h : t.lookup hash = some old) (hkey : entry.keyId = old.keyId) (id : ℕ) :
    Holds (t.insert hash entry) id ↔ Holds t id := by
  constructor
  · rintro ⟨k, e, hk, rfl⟩
    by_cases heq : k = hash
    · rw [heq, AList.lookup_insert] at hk
      exact ⟨hash, old, h, by rw [← hkey, Option.some.inj hk]⟩
    · rw [AList.lookup_insert_ne heq] at hk
      exact ⟨k, e, hk, rfl⟩
  · rintro ⟨k, e, hk, rfl⟩
    by_cases heq : k = hash
    · rw [heq, h] at hk
      exact ⟨hash, entry, AList.lookup_insert t, by rw [hkey, Option.some.inj hk]⟩
    · exact ⟨k, e, (AList.lookup_insert_ne heq).trans hk, rfl⟩

theorem holds_insert_fresh {t : Table UInt64 SeenEntry} {hash : UInt64} {entry : SeenEntry}
    (h : t.lookup hash = none) (id : ℕ) :
    Holds (t.insert hash entry) id ↔ Holds t id ∨ id = entry.keyId := by
  constructor
  · rintro ⟨k, e, hk, rfl⟩
    by_cases heq : k = hash
    · rw [heq, AList.lookup_insert] at hk
      exact .inr (by rw [Option.some.inj hk])
    · rw [AList.lookup_insert_ne heq] at hk
      exact .inl ⟨k, e, hk, rfl⟩
  · rintro (⟨k, e, hk, rfl⟩ | rfl)
    · have hne : k ≠ hash := by
        intro heq
        rw [heq, h] at hk
        contradiction
      exact ⟨k, e, (AList.lookup_insert_ne hne).trans hk, rfl⟩
    · exact ⟨hash, entry, AList.lookup_insert t, rfl⟩

/-- The allocations made for hashes are the released ones and the keys, and none is both. -/
structure Owned (s : SeenInputs) (ids : List ℕ) : Prop where
  below : ∀ id ∈ ids, id < s.heap
  mem_iff : ∀ id, id ∈ ids ↔ id ∈ s.freed ∨ Holds s.table id
  held : ∀ id, Holds s.table id → id ∉ s.freed
  once : s.freed.Nodup

/-- An allocation that is still to be made is neither released nor a key. -/
theorem Owned.heap_fresh {s : SeenInputs} {ids : List ℕ} (hs : Owned s ids) :
    s.heap ∉ s.freed ∧ ¬Holds s.table s.heap := by
  rw [← not_or, ← hs.mem_iff]
  intro hid
  exact Nat.lt_irrefl _ (hs.below s.heap hid)

theorem Owned.below_step {s s' : SeenInputs} {ids : List ℕ} (hs : Owned s ids)
    (hheap : s.heap < s'.heap) : ∀ id ∈ ids ++ [s.heap], id < s'.heap := by
  intro id hid
  rcases List.mem_append.mp hid with hid | hid
  · have hlt := hs.below id hid
    omega
  · rw [List.mem_singleton.mp hid]
    exact hheap

theorem Owned.step_present {s s' : SeenInputs} {ids : List ℕ} (hs : Owned s ids)
    (hheap : s.heap < s'.heap) (hkeys : ∀ id, Holds s'.table id ↔ Holds s.table id)
    (hfreed : s'.freed = s.freed ++ [s.heap]) : Owned s' (ids ++ [s.heap]) := by
  obtain ⟨hnot, hkey⟩ := hs.heap_fresh
  refine ⟨hs.below_step hheap, fun id => ?_, fun id hid => ?_, ?_⟩
  · rw [hfreed, hkeys, List.mem_append, List.mem_append, hs.mem_iff, or_right_comm]
  · rw [hkeys] at hid
    rw [hfreed, List.mem_append, List.mem_singleton, not_or]
    refine ⟨hs.held id hid, ?_⟩
    rintro rfl
    exact hkey hid
  · rw [hfreed, List.nodup_append_comm, List.singleton_append, List.nodup_cons]
    exact ⟨hnot, hs.once⟩

theorem Owned.step_fresh {s s' : SeenInputs} {ids : List ℕ} (hs : Owned s ids)
    (hheap : s.heap < s'.heap) (hkeys : ∀ id, Holds s'.table id ↔ Holds s.table id ∨ id = s.heap)
    (hfreed : s'.freed = s.freed) : Owned s' (ids ++ [s.heap]) := by
  obtain ⟨hnot, hkey⟩ := hs.heap_fresh
  refine ⟨hs.below_step hheap, fun id => ?_, fun id hid => ?_, ?_⟩
  · rw [hfreed, hkeys, List.mem_append, hs.mem_iff, List.mem_singleton, or_assoc]
  · rw [hfreed]
    rcases (hkeys id).mp hid with hid | rfl
    · exact hs.held id hid
    · exact hnot
  · rw [hfreed]
    exact hs.once

structure Bookkept (s : SeenInputs) (cs : List Counting) : Prop where
  tallied : Tallied s (cs.map Counting.hash)
  greatest : Greatest s
  owned : Owned s (cs.map Counting.bufHash)

theorem bookkept_start : Bookkept .start [] where
  tallied := ⟨tallies_empty _, le_rfl, le_rfl, le_rfl⟩
  greatest := by
    refine ⟨?_, .inl rfl⟩
    intro k e h
    contradiction
  owned := by
    have hkeys : ∀ id, ¬Holds SeenInputs.start.table id := by
      rintro id ⟨k, e, h, _⟩
      contradiction
    refine ⟨?_, ?_, fun id hid => absurd hid (hkeys id), List.nodup_nil⟩
    · intro id hid
      contradiction
    · intro id
      exact iff_of_false List.not_mem_nil (not_or.mpr ⟨List.not_mem_nil, hkeys id⟩)

theorem Tallied.count_pos {s : SeenInputs} {hashes : List UInt64} (hs : Tallied s hashes)
    {k : UInt64} {e : SeenEntry} (h : s.table.lookup k = some e) :
    0 < e.count ∧ e.count ≤ hashes.length := by
  obtain ⟨hmem, hcount⟩ := hs.tallies.val_eq_count h
  exact ⟨hcount ▸ List.count_pos_iff.mpr hmem, hs.tallies.val_le_length h⟩

theorem Counts.freed {c : Counting} {s s' : SeenInputs} {hashes : List UInt64}
    (hs : Tallied s hashes) (hlen : hashes.length + 1 < 2 ^ 32) (h : Counts s c s') :
    s'.freed = if (s.table.lookup c.hash).isSome then s.freed ++ [c.bufHash] else s.freed := by
  rw [h.1]
  rcases countInput_cases h.2 with ⟨e, hlookup, hc⟩ | ⟨hlookup, hc⟩
  · obtain ⟨hpos, hle⟩ := hs.count_pos hlookup
    have hmany : e.value + 1 > 1 := by
      have hincr := SeenEntry.count_incr (e := e) (by omega)
      unfold SeenEntry.count at hincr hpos
      rw [gt_iff_lt, UInt32.lt_iff_toNat_lt, hincr, UInt32.toNat_one]
      omega
    rw [hc.freed, hlookup, if_pos hmany]
    rfl
  · rw [hc.freed, hlookup]
    rfl

theorem Owned.step {c : Counting} {s s' : SeenInputs} {ids : List ℕ} (hs : Owned s ids)
    (h : Counts s c s')
    (hfreed : s'.freed = if (s.table.lookup c.hash).isSome then s.freed ++ [c.bufHash] else s.freed) :
    Owned s' (ids ++ [c.bufHash]) := by
  rw [h.1] at hfreed ⊢
  rcases countInput_cases h.2 with ⟨e, hlookup, hc⟩ | ⟨hlookup, hc⟩
  · rw [hlookup] at hfreed
    apply hs.step_present hc.heap _ hfreed
    intro id
    rw [hc.table]
    apply holds_insert_present hlookup
    rfl
  · rw [hlookup] at hfreed
    apply hs.step_fresh hc.heap _ hfreed
    intro id
    rw [hc.table]
    exact holds_insert_fresh hlookup id

theorem Bookkept.step {c : Counting} {s s' : SeenInputs} {cs : List Counting}
    (hs : Bookkept s cs) (hlen : cs.length + 1 < 2 ^ 32) (h : Counts s c s') :
    Bookkept s' (cs ++ [c]) := by
  have hlen' : (cs.map Counting.hash).length + 1 < 2 ^ 32 := by rwa [List.length_map]
  refine ⟨?_, ?_, ?_⟩
  · rw [List.map_append]
    exact hs.tallied.step hlen' h
  · rcases countInput_cases h.2 with ⟨e, hlookup, hc⟩ | ⟨hlookup, hc⟩
    · have hle := (hs.tallied.count_pos hlookup).2
      have hincr := SeenEntry.count_incr (e := e) (by omega)
      apply hs.greatest.step hc
      · omega
      · intro e' he'
        rw [hlookup] at he'
        rw [← Option.some.inj he', hincr]
        omega
    · apply hs.greatest.step hc Nat.one_pos
      intro e' he'
      rw [hlookup] at he'
      contradiction
  · rw [List.map_append]
    exact hs.owned.step h (h.freed hs.tallied hlen')

/-- Every run of the counting code keeps the books, however often an input comes back. -/
theorem bookkept_of_run {cs : List Counting} {s : SeenInputs} (h : Run Counts .start cs s)
    (hlen : cs.length < 2 ^ 32) : Bookkept s cs := by
  refine h.history (J := fun s cs => cs.length < 2 ^ 32 → Bookkept s cs) ?_ ?_ hlen
  · intro _
    exact bookkept_start
  · intro s cs c s' hs hc hlen
    rw [List.length_append, List.length_singleton] at hlen
    exact (hs (by omega)).step hlen hc

/-- Where there is an entry, the maximum is not the initial one. -/
theorem Bookkept.attained {s : SeenInputs} {cs : List Counting} (hs : Bookkept s cs)
    {k : UInt64} {e : SeenEntry} (h : s.table.lookup k = some e) :
    ∃ e, s.table.lookup s.maxSeenInputK = some e ∧ e.count = s.maxSeenInput.toNat := by
  rcases hs.greatest.attained with hzero | hattained
  · have hpos := (hs.tallied.count_pos h).1
    have hle := hs.greatest.le k e h
    omega
  · exact hattained

theorem Counts.lookup_isSome {c : Counting} {s s' : SeenInputs} (h : Counts s c s') :
    ∃ e, s'.table.lookup c.hash = some e := by
  rcases countInput_cases h.2 with ⟨e, _, hc⟩ | ⟨_, hc⟩
  · exact ⟨_, by rw [hc.table, AList.lookup_insert]⟩
  · exact ⟨_, by rw [hc.table, AList.lookup_insert]⟩

/-- After each pass, with fewer than 2^32 inputs so far: the entries are the numbers of inputs,
the maximum is the greatest of them and its key has it, the total is between the size of the
table and twice that, and the allocation for the hash is released exactly when an equal key
was there, so that every allocation is either a key or released, once. -/
theorem countInput_bookkeeping {cs : List Counting} {c : Counting} {s s' : SeenInputs}
    (hrun : Run Counts .start cs s) (hpass : Counts s c s') (hlen : (cs ++ [c]).length < 2 ^ 32) :
    (∀ k, (s'.table.lookup k).map SeenEntry.count =
      if k ∈ (cs ++ [c]).map Counting.hash then some (((cs ++ [c]).map Counting.hash).count k)
      else none) ∧
    (∀ k e, s'.table.lookup k = some e → e.count ≤ s'.maxSeenInput.toNat) ∧
    (∃ e, s'.table.lookup s'.maxSeenInputK = some e ∧ e.count = s'.maxSeenInput.toNat) ∧
    1 ≤ s'.table.entries.length ∧
    s'.table.entries.length ≤ s'.seenTotal.toNat ∧
    s'.seenTotal.toNat ≤ 2 * s'.table.entries.length ∧
    (s'.freed =
      if (s.table.lookup c.hash).isSome then s.freed ++ [c.bufHash] else s.freed) ∧
    (c.bufHash ∈ s'.freed ↔ (s.table.lookup c.hash).isSome) ∧
    (∀ id ∈ (cs ++ [c]).map Counting.bufHash, id ∉ s'.freed ↔ Holds s'.table id) ∧
    s'.freed.Nodup := by
  have hlen' : cs.length + 1 < 2 ^ 32 := by
    rwa [List.length_append, List.length_singleton] at hlen
  have hbefore : Bookkept s cs := bookkept_of_run hrun (by omega)
  have hafter : Bookkept s' (cs ++ [c]) := hbefore.step hlen' hpass
  obtain ⟨e, he⟩ := hpass.lookup_isSome
  have hsome : 0 < s'.table.entries.length :=
    List.length_pos_of_mem (AList.mem_lookup_iff.mp he)
  have hfreed := hpass.freed hbefore.tallied (by rwa [List.length_map])
  have hnot : c.bufHash ∉ s.freed := hpass.1 ▸ hbefore.owned.heap_fresh.1
  refine ⟨hafter.tallied.tallies.lookup, hafter.greatest.le, hafter.attained he, hsome,
    hafter.tallied.total_ge, hafter.tallied.total_le, hfreed, ?_, ?_, hafter.owned.once⟩
  · rw [hfreed]
    split_ifs with hkey
    · exact iff_of_true (List.mem_append_right _ (List.mem_singleton_self _)) hkey
    · exact iff_of_false hnot hkey
  · intro id hid
    refine ⟨fun hkept => ?_, hafter.owned.held id⟩
    exact ((hafter.owned.mem_iff id).mp hid).resolve_left hkept

def seenOnce : SeenInputs := ⟨(∅ : Table UInt64 SeenEntry).insert 7 ⟨0, 1⟩, 1, 1, 7, 2, []⟩

def seenTwice : SeenInputs := ⟨seenOnce.table.insert 7 ⟨0, 2⟩, 2, 2, 7, 3, [2]⟩

theorem countInput_bookkeeping_twice :
    (seenTwice.table.lookup 7).map SeenEntry.count = some 2 ∧
      (0 ∉ seenTwice.freed ↔ Holds seenTwice.table 0) := by
  have hrun : Run Counts .start [⟨.succeed, 7, 0⟩] seenOnce := .cons ⟨rfl, rfl⟩ (.nil _)
  have hpass : Counts seenOnce ⟨.succeed, 7, 2⟩ seenTwice := ⟨rfl, rfl⟩
  obtain ⟨hvalue, _, _, _, _, _, _, _, hkeys, _⟩ := countInput_bookkeeping hrun hpass (by decide)
  exact ⟨hvalue 7, hkeys 0 (by decide)⟩

section Loop

def Input.hash (i : Input) : Option UInt64 := utilCRC64 i.bytes i.size.toNat

theorem handleInput_lookup_ne (conf : LoopConf) (env : PassEnv) {i : Input} (s : LoopState)
    {k : UInt64} (h : i.hash ≠ some k) :
    (handleInput conf env i s).seen.table.lookup k = s.seen.table.lookup k := by
  unfold Input.hash at h
  unfold handleInput
  dsimp only
  split
  · rfl
  · next hash hhash =>
    have hne : k ≠ hash := by
      intro heq
      exact h (heq ▸ hhash)
    split
    · rfl
    · next seen hseen =>
      obtain ⟨gbl, monitor, heap, outcomes, stop, hframe⟩ :=
        monitorInput_frame conf env i { s with inputs := s.inputs ++ [i], seen := seen }
      rw [hframe]
      rcases countInput_cases hseen with ⟨e, _, hc⟩ | ⟨_, hc⟩
      · rw [hc.table, AList.lookup_insert_ne hne]
      · rw [hc.table, AList.lookup_insert_ne hne]

/-- The counting code went over the hashes of the inputs; only the last input may be missing,
in a loop that stopped at it. -/
def SeenFrom (s : LoopState) : Prop :=
  ∃ cs, Run Counts .start cs s.seen ∧
    cs.map (some ∘ Counting.hash) <+: s.inputs.map Input.hash ∧
    (s.stop = none → cs.map (some ∘ Counting.hash) = s.inputs.map Input.hash)

theorem handleInput_seenFrom (conf : LoopConf) (env : PassEnv) (i : Input) {s : LoopState}
    (hs : SeenFrom s) (hgo : s.stop = none) : SeenFrom (handleInput conf env i s) := by
  obtain ⟨cs, hrun, _, hall⟩ := hs
  have hall := hall hgo
  have hprefix : cs.map (some ∘ Counting.hash) <+: (s.inputs ++ [i]).map Input.hash := by
    rw [List.map_append, hall]
    exact List.prefix_append _ _
  unfold handleInput
  dsimp only
  split
  · exact ⟨cs, hrun, hprefix, fun h => nomatch h⟩
  · next hash hhash =>
    split
    · exact ⟨cs, hrun, hprefix, fun h => nomatch h⟩
    · next seen hseen =>
      obtain ⟨gbl, monitor, heap, outcomes, stop, h⟩ :=
        monitorInput_frame conf env i { s with inputs := s.inputs ++ [i], seen := seen }
      rw [h]
      have hcount : Counts s.seen ⟨env.seen, hash, s.seen.heap⟩ seen := ⟨rfl, hseen⟩
      have hmore : (cs ++ [Counting.mk env.seen hash s.seen.heap]).map (some ∘ Counting.hash) =
          (s.inputs ++ [i]).map Input.hash := by
        rw [List.map_append, List.map_append, hall]
        exact congrArg (fun o => s.inputs.map Input.hash ++ [o]) hhash.symm
      exact ⟨_, hrun.append (.cons hcount (.nil _)), hmore ▸ List.prefix_rfl, fun _ => hmore⟩

theorem pass_seenFrom (conf : LoopConf) (env : PassEnv) {s : LoopState} (hs : SeenFrom s) :
    SeenFrom (pass conf s env) := by
  by_cases hgo : Receives s env
  · rw [pass_of_receives conf hgo]
    obtain ⟨keepRunning, queue, taken, opened, hframe⟩ := receive_frame conf env (arrive s env)
    cases hreceive : receive conf env (arrive s env) with
    | mk receipt s₁ =>
      rw [hreceive] at hframe
      dsimp only at hframe
      have hs₁ : SeenFrom s₁ := hframe ▸ hs
      have hgo₁ : s₁.stop = none := by rw [hframe]; exact hgo.1
      cases receipt with
      | stopped stop =>
        obtain ⟨cs, hrun, hprefix, _⟩ := hs₁
        exact ⟨cs, hrun, hprefix, fun h => nomatch h⟩
      | nothing => exact hs₁
      | input i => exact handleInput_seenFrom conf env i hs₁ hgo₁
  · obtain ⟨cs, hrun, hprefix, hall⟩ := hs
    rcases pass_of_not_receives conf hgo with h | h
    · rw [h]
      exact ⟨cs, hrun, hprefix, hall⟩
    · rw [h]
      exact ⟨cs, hrun, hprefix, fun h => nomatch h⟩

end Loop

end FuzzMonitor.MonitorLoop
