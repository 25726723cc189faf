import FuzzMonitor.Runs

namespace FuzzMonitor.CellHeap
open Runs

/-- What happens to a cell: it is allocated, with a tag that says what for; it is read or written;
or it is freed. -/
inductive Event (T : Type*)
  | alloc (tag : T) (id : ℕ)
  | use (id : ℕ)
  | free (id : ℕ)
  deriving DecidableEq, Repr

variable {T : Type*}

def step (live : Finset ℕ) : Event T → Finset ℕ
  | .alloc _ id => insert id live
  | .use _ => live
  | .free id => live.erase id

/-- Only an allocated cell is used or freed, and an allocation is a new cell. -/
def Allowed (live : Finset ℕ) : Event T → Prop
  | .alloc _ id => id ∉ live
  | .use id => id ∈ live
  | .free id => id ∈ live

abbrev Safe (live : Finset ℕ) (log : List (Event T)) : Prop := Guarded step Allowed live log

def Event.allocated? : Event T → Option ℕ
  | .alloc _ id => some id
  | _ => none

def Event.freed? : Event T → Option ℕ
  | .free id => some id
  | _ => none

def allocated (log : List (Event T)) : List ℕ := log.filterMap Event.allocated?

def freed (log : List (Event T)) : List ℕ := log.filterMap Event.freed?

section Projections

variable (tag : T) (id : ℕ) (log xs ys : List (Event T))

@[simp] theorem allocated_nil : allocated ([] : List (Event T)) = [] := rfl
@[simp] theorem allocated_alloc : allocated (.alloc tag id :: log) = id :: allocated log := rfl
@[simp] theorem allocated_use : allocated (.use id :: log) = allocated log := rfl
@[simp] theorem allocated_free : allocated (.free id :: log) = allocated log := rfl

@[simp] theorem freed_nil : freed ([] : List (Event T)) = [] := rfl
@[simp] theorem freed_alloc : freed (.alloc tag id :: log) = freed log := rfl
@[simp] theorem freed_use : freed (.use id :: log) = freed log := rfl
@[simp] theorem freed_free : freed (.free id :: log) = id :: freed log := rfl

@[simp] theorem allocated_append : allocated (xs ++ ys) = allocated xs ++ allocated ys :=
  List.filterMap_append

@[simp] theorem freed_append : freed (xs ++ ys) = freed xs ++ freed ys := List.filterMap_append

@[simp] theorem allocated_uses (ids : List ℕ) : allocated (ids.map (Event.use (T := T))) = [] := by
  induction ids with
  | nil => rfl
  | cons id ids ih => exact ih

@[simp] theorem freed_uses (ids : List ℕ) : freed (ids.map (Event.use (T := T))) = [] := by
  induction ids with
  | nil => rfl
  | cons id ids ih => exact ih

@[simp] theorem allocated_frees (ids : List ℕ) :
    allocated (ids.map (Event.free (T := T))) = [] := by
  induction ids with
  | nil => rfl
  | cons id ids ih => exact ih

@[simp] theorem freed_frees (ids : List ℕ) : freed (ids.map (Event.free (T := T))) = ids := by
  induction ids with
  | nil => rfl
  | cons id ids ih => exact congrArg (id :: ·) ih

end Projections

theorem mem_allocated {log : List (Event T)} {id : ℕ} :
    id ∈ allocated log ↔ ∃ tag, .alloc tag id ∈ log := by
  unfold allocated
  rw [List.mem_filterMap]
  constructor
  · rintro ⟨event, hevent, hid⟩
    cases event with
    | alloc tag n =>
      cases hid
      exact ⟨tag, hevent⟩
    | use n => contradiction
    | free n => contradiction
  · rintro ⟨tag, htag⟩
    exact ⟨.alloc tag id, htag, rfl⟩

theorem tag_unique {log : List (Event T)} (hlog : (allocated log).Nodup) {tag tag' : T} {id : ℕ}
    (h : .alloc tag id ∈ log) (h' : .alloc tag' id ∈ log) : tag = tag' := by
  induction log with
  | nil => contradiction
  | cons event log ih =>
    cases event with
    | alloc t n =>
      obtain ⟨hn, hrest⟩ := List.nodup_cons.mp hlog
      have hout : ∀ t', .alloc t' n ∉ log := fun t' ht' => hn (mem_allocated.mpr ⟨t', ht'⟩)
      rcases List.mem_cons.mp h with heq | hold
      · cases heq
        rcases List.mem_cons.mp h' with heq' | hold'
        · cases heq'
          rfl
        · exact absurd hold' (hout tag')
      · rcases List.mem_cons.mp h' with heq' | hold'
        · cases heq'
          exact absurd hold (hout tag)
        · exact ih hrest hold hold'
    | use n =>
      have hne : ∀ t' : T, Event.alloc t' id ≠ .use n := fun _ => nofun
      exact ih hlog (List.mem_of_ne_of_mem (hne tag) h) (List.mem_of_ne_of_mem (hne tag') h')
    | free n =>
      have hne : ∀ t' : T, Event.alloc t' id ≠ .free n := fun _ => nofun
      exact ih hlog (List.mem_of_ne_of_mem (hne tag) h) (List.mem_of_ne_of_mem (hne tag') h')

/-- Each cell is freed as often as it is allocated, but for those there before and behind. -/
theorem Safe.balance {live : Finset ℕ} {log : List (Event T)} (h : Safe live log) (id : ℕ) :
    (freed log).count id + (if id ∈ log.foldl step live then 1 else 0) =
      (allocated log).count id + if id ∈ live then 1 else 0 := by
  induction log generalizing live with
  | nil => rfl
  | cons event log ih =>
    obtain ⟨hallowed, hrest⟩ := h
    have hlog := ih hrest
    cases event with
    | alloc tag n =>
      have hnew : n ∉ live := hallowed
      rw [allocated_alloc, freed_alloc, List.foldl_cons, hlog, List.count_cons]
      unfold step
      by_cases hn : id = n
      · subst hn
        simp [hnew]
      · simp [hn, Ne.symm hn]
    | use n => exact hlog
    | free n =>
      have hheld : n ∈ live := hallowed
      rw [allocated_free, freed_free, List.foldl_cons, List.count_cons, Nat.add_right_comm, hlog]
      unfold step
      by_cases hn : id = n
      · subst hn
        simp [hheld]
      · simp [hn, Ne.symm hn]

structure ReleasedOnce (log : List (Event T)) (id : ℕ) : Prop where
  once : (freed log).count id = 1
  unused : ∀ xs ys, log = xs ++ .use id :: ys → id ∉ freed xs

structure Owned (live : Finset ℕ) (ids : List ℕ) : Prop where
  nodup : ids.Nodup
  mem_iff : ∀ id, id ∈ live ↔ id ∈ ids

theorem Owned.perm {live : Finset ℕ} {ids ids' : List ℕ} (h : Owned live ids)
    (hperm : ids.Perm ids') : Owned live ids' :=
  ⟨hperm.nodup_iff.mp h.nodup, fun id => (h.mem_iff id).trans hperm.mem_iff⟩

theorem owned_toFinset {ids : List ℕ} (h : ids.Nodup) : Owned ids.toFinset ids :=
  ⟨h, fun _ => List.mem_toFinset⟩

/-- Started with the cells ids, the log is safe and ends with the cells ids'. -/
def Moves (ids : List ℕ) (log : List (Event T)) (ids' : List ℕ) : Prop :=
  ∀ live, Owned live ids → Safe live log ∧ Owned (log.foldl step live) ids'

namespace Moves

variable {ids ids' ids₁ : List ℕ} {log log' : List (Event T)}

theorem nil (ids : List ℕ) : Moves ids ([] : List (Event T)) ids := fun _ h => ⟨trivial, h⟩

theorem append (h : Moves ids log ids₁) (h' : Moves ids₁ log' ids') :
    Moves ids (log ++ log') ids' := by
  intro live hlive
  obtain ⟨hsafe, hmid⟩ := h live hlive
  obtain ⟨hsafe', hend⟩ := h' _ hmid
  rw [List.foldl_append]
  exact ⟨guarded_append.mpr ⟨hsafe, hsafe'⟩, hend⟩

theorem perm {ids₂ : List ℕ} (h : Moves ids log ids') (hstart : ids₁.Perm ids)
    (hend : ids'.Perm ids₂) : Moves ids₁ log ids₂ := by
  intro live hlive
  obtain ⟨hsafe, howned⟩ := h live (hlive.perm hstart)
  exact ⟨hsafe, howned.perm hend⟩

theorem alloc (tag : T) {id : ℕ} (h : id ∉ ids) (hrest : Moves (id :: ids) log ids') :
    Moves ids (.alloc tag id :: log) ids' := by
  intro live hlive
  have hmore : Owned (insert id live) (id :: ids) := by
    refine ⟨List.nodup_cons.mpr ⟨h, hlive.nodup⟩, fun n => ?_⟩
    rw [Finset.mem_insert, List.mem_cons, hlive.mem_iff]
  obtain ⟨hsafe, hend⟩ := hrest _ hmore
  exact ⟨⟨fun hid => h ((hlive.mem_iff id).mp hid), hsafe⟩, hend⟩

theorem use {id : ℕ} (h : id ∈ ids) (hrest : Moves ids log ids') :
    Moves ids (.use id :: log) ids' := by
  intro live hlive
  obtain ⟨hsafe, hend⟩ := hrest live hlive
  exact ⟨⟨(hlive.mem_iff id).mpr h, hsafe⟩, hend⟩

theorem free {id : ℕ} (hrest : Moves ids log ids') : Moves (id :: ids) (.free id :: log) ids' := by
  intro live hlive
  obtain ⟨hid, hnodup⟩ := List.nodup_cons.mp hlive.nodup
  have hless : Owned (live.erase id) ids := by
    refine ⟨hnodup, fun n => ?_⟩
    rw [Finset.mem_erase, hlive.mem_iff, List.mem_cons]
    constructor
    · rintro ⟨hne, heq | hn⟩
      · exact absurd heq hne
      · exact hn
    · intro hn
      exact ⟨fun heq => hid (heq ▸ hn), .inr hn⟩
  obtain ⟨hsafe, hend⟩ := hrest _ hless
  exact ⟨⟨(hlive.mem_iff id).mpr List.mem_cons_self, hsafe⟩, hend⟩

theorem uses {used : List ℕ} (h : ∀ id ∈ used, id ∈ ids) (hrest : Moves ids log ids') :
    Moves ids (used.map .use ++ log) ids' := by
  induction used with
  | nil => exact hrest
  | cons id used ih =>
    exact use (h id List.mem_cons_self) (ih fun n hn => h n (List.mem_cons_of_mem _ hn))

theorem frees {gone : List ℕ} (hrest : Moves ids log ids') :
    Moves (gone ++ ids) (gone.map .free ++ log) ids' := by
  induction gone with
  | nil => exact hrest
  | cons id gone ih => exact free ih

/-- A new cell that is not there in the end was freed once; one that is there never was. -/
theorem released (h : Moves ids log ids') (hnodup : (ids ++ allocated log).Nodup) {id : ℕ}
    (hid : id ∈ allocated log) :
    (id ∉ ids' → ReleasedOnce log id) ∧ (id ∈ ids' → id ∉ freed log) := by
  obtain ⟨hids, hallocs, hdisjoint⟩ := List.nodup_append.mp hnodup
  have hstart := owned_toFinset hids
  obtain ⟨hsafe, hend⟩ := h _ hstart
  have hnew : id ∉ ids.toFinset := by
    intro hmem
    exact hdisjoint id (List.mem_toFinset.mp hmem) id hid rfl
  have hbalance := hsafe.balance id
  rw [List.count_eq_one_of_mem hallocs hid, if_neg hnew] at hbalance
  constructor
  · intro hgone
    rw [if_neg fun hmem => hgone ((hend.mem_iff id).mp hmem)] at hbalance
    refine ⟨hbalance, ?_⟩
    -- where the cell is used it is allocated, so that the balance leaves no room for a free
    rintro xs ys rfl hfreed
    obtain ⟨hbefore, hused, -⟩ := guarded_append.mp hsafe
    have hprefix := Safe.balance hbefore id
    have hcount : (allocated xs).count id ≤ 1 := by
      have hle := List.nodup_iff_count_le_one.mp hallocs id
      rw [allocated_append, List.count_append] at hle
      omega
    have hlive : id ∈ xs.foldl step ids.toFinset := hused
    rw [if_pos hlive, if_neg hnew] at hprefix
    have hpos := List.count_pos_iff.mpr hfreed
    omega
  · intro hkept hfreed
    rw [if_pos ((hend.mem_iff id).mpr hkept)] at hbalance
    have hpos := List.count_pos_iff.mpr hfreed
    omega

theorem mem_or_allocated (h : Moves ids log ids') (hids : ids.Nodup) {id : ℕ} (hid : id ∈ ids') :
    id ∈ ids ∨ id ∈ allocated log := by
  obtain ⟨hsafe, hend⟩ := h _ (owned_toFinset hids)
  have hbalance := hsafe.balance id
  rw [if_pos ((hend.mem_iff id).mpr hid)] at hbalance
  by_cases hold : id ∈ ids
  · exact .inl hold
  · rw [if_neg fun hmem => hold (List.mem_toFinset.mp hmem)] at hbalance
    exact .inr (List.count_pos_iff.mp (by omega))

end Moves

/-- The cells are listed once, in a program that numbers its allocations and has come to heap. -/
structure Numbered (ids : List ℕ) (heap : ℕ) : Prop where
  nodup : ids.Nodup
  below : ∀ id ∈ ids, id < heap

theorem Numbered.notMem {ids : List ℕ} {heap id : ℕ} (h : Numbered ids heap) (hid : heap ≤ id) :
    id ∉ ids := fun hmem => absurd (h.below id hmem) (not_lt.mpr hid)

theorem Numbered.perm {ids ids' : List ℕ} {heap heap' : ℕ} (h : Numbered ids heap)
    (hperm : ids.Perm ids') (hle : heap ≤ heap') : Numbered ids' heap' := by
  refine ⟨hperm.nodup_iff.mp h.nodup, fun id hid => ?_⟩
  exact (h.below id (hperm.mem_iff.mpr hid)).trans_le hle

theorem Numbered.cons {ids : List ℕ} {heap : ℕ} (h : Numbered ids heap) :
    Numbered (heap :: ids) (heap + 1) := by
  refine ⟨List.nodup_cons.mpr ⟨h.notMem le_rfl, h.nodup⟩, fun id hid => ?_⟩
  rcases List.mem_cons.mp hid with rfl | hid
  · exact Nat.lt_succ_self id
  · exact (h.below id hid).trans (Nat.lt_succ_self heap)

/-- The log of a program that numbers its allocations from heap to heap'. -/
structure Ledger (ids : List ℕ) (heap : ℕ) (log : List (Event T)) (ids' : List ℕ) (heap' : ℕ) :
    Prop where
  moves : Moves ids log ids'
  le : heap ≤ heap'
  allocated_eq : allocated log = List.range' heap (heap' - heap)

namespace Ledger

variable {ids ids' ids₁ : List ℕ} {heap heap' heap₁ : ℕ} {log log' : List (Event T)}

theorem nil (ids : List ℕ) (heap : ℕ) : Ledger ids heap ([] : List (Event T)) ids heap :=
  ⟨.nil ids, le_rfl, by rw [Nat.sub_self]; rfl⟩

theorem of_moves {n : ℕ} (h : Moves ids log ids') (halloc : allocated log = List.range' heap n) :
    Ledger ids heap log ids' (heap + n) :=
  ⟨h, Nat.le_add_right _ _, by rw [halloc, Nat.add_sub_cancel_left]⟩

theorem append (h : Ledger ids heap log ids₁ heap₁) (h' : Ledger ids₁ heap₁ log' ids' heap') :
    Ledger ids heap (log ++ log') ids' heap' := by
  have hle := h.le
  have hle' := h'.le
  refine ⟨h.moves.append h'.moves, hle.trans hle', ?_⟩
  have hheap : heap₁ = heap + (heap₁ - heap) := by omega
  have hlen : heap' - heap = heap₁ - heap + (heap' - heap₁) := by omega
  rw [allocated_append, h.allocated_eq, h'.allocated_eq, hlen]
  nth_rewrite 2 [hheap]
  exact List.range'_append_1

theorem perm_left (h : Ledger ids heap log ids' heap') (hstart : ids₁.Perm ids) :
    Ledger ids₁ heap log ids' heap' :=
  ⟨h.moves.perm hstart (.refl _), h.le, h.allocated_eq⟩

theorem numbered (h : Ledger ids heap log ids' heap') (hids : Numbered ids heap) :
    Numbered ids' heap' := by
  have hle := h.le
  refine ⟨(h.moves _ (owned_toFinset hids.nodup)).2.nodup, fun id hid => ?_⟩
  rcases h.moves.mem_or_allocated hids.nodup hid with hold | hnew
  · exact (hids.below id hold).trans_le hle
  · rw [h.allocated_eq, List.mem_range'_1] at hnew
    omega

theorem nodup_allocated (h : Ledger ids heap log ids' heap') : (allocated log).Nodup := by
  rw [h.allocated_eq]
  exact List.nodup_range'

/-- A cell that is allocated and not there in the end is freed once; one that is there is not
freed. -/
theorem released (h : Ledger ids heap log ids' heap') (hids : Numbered ids heap) {id : ℕ}
    (hid : id ∈ allocated log) :
    (id ∉ ids' → ReleasedOnce log id) ∧ (id ∈ ids' → id ∉ freed log) := by
  apply h.moves.released _ hid
  rw [h.allocated_eq]
  refine List.nodup_append.mpr ⟨hids.nodup, List.nodup_range', fun old hold new hnew heq => ?_⟩
  rw [List.mem_range'_1] at hnew
  exact hids.notMem hnew.1 (heq ▸ hold)

end Ledger
end FuzzMonitor.CellHeap
