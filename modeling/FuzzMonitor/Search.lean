import Mathlib

namespace FuzzMonitor.Search

variable {α : Type*}

inductive Walk (r : α → α → Prop) : ℕ → α → α → Prop
  | refl (a : α) : Walk r 0 a a
  | step {n : ℕ} {a b c : α} : Walk r n a b → r b c → Walk r (n + 1) a c

/-- The shortest-path distance; a vertex is at distance 0 from itself. -/
def Dist (r : α → α → Prop) (a b : α) (n : ℕ) : Prop := IsLeast {m | Walk r m a b} n

/-- The length of a shortest walk that takes at least one step. -/
def NextDist (r : α → α → Prop) (a b : α) (n : ℕ) : Prop :=
  IsLeast {m | 1 ≤ m ∧ Walk r m a b} n

theorem walk_zero {r : α → α → Prop} {a b : α} : Walk r 0 a b ↔ a = b := by
  constructor
  · intro h
    cases h
    rfl
  · rintro rfl
    exact .refl a

theorem walk_succ {r : α → α → Prop} {n : ℕ} {a c : α} :
    Walk r (n + 1) a c ↔ ∃ b, Walk r n a b ∧ r b c := by
  constructor
  · intro h
    cases h with
    | step hw hr => exact ⟨_, hw, hr⟩
  · rintro ⟨b, hw, hr⟩
    exact .step hw hr

theorem dist_self (r : α → α → Prop) (a : α) : Dist r a a 0 :=
  ⟨.refl a, fun _ _ => Nat.zero_le _⟩

theorem Dist.unique {r : α → α → Prop} {a b : α} {m n : ℕ} (hm : Dist r a b m)
    (hn : Dist r a b n) : m = n := IsLeast.unique hm hn

theorem exists_nextDist {r : α → α → Prop} {a b : α} {n : ℕ} (hn : 1 ≤ n) (h : Walk r n a b) :
    ∃ m ≤ n, NextDist r a b m := by
  classical
  have hex : ∃ m, 1 ≤ m ∧ Walk r m a b := ⟨n, hn, h⟩
  exact ⟨Nat.find hex, Nat.find_le ⟨hn, h⟩, Nat.find_spec hex, fun _ hm => Nat.find_le hm⟩

theorem nextDist_iff_dist {r : α → α → Prop} {a b : α} (hne : a ≠ b) (n : ℕ) :
    NextDist r a b n ↔ Dist r a b n := by
  have hset : {m | 1 ≤ m ∧ Walk r m a b} = {m | Walk r m a b} := by
    ext m
    refine ⟨And.right, fun h => ⟨?_, h⟩⟩
    cases h with
    | refl => exact absurd rfl hne
    | step => omega
  rw [NextDist, hset, Dist]

/-- Steps may be restricted to a set that contains every vertex with a step:
only the last vertex of a walk is affected. -/
theorem walk_restrict_iff {r : α → α → Prop} {p : α → Prop} (hp : ∀ a b, r a b → p a) (n : ℕ)
    (a c : α) : Walk (fun x y => r x y ∧ p y) (n + 1) a c ↔ Walk r (n + 1) a c ∧ p c := by
  induction n generalizing c with
  | zero =>
    simp only [walk_succ, walk_zero]
    constructor
    · rintro ⟨b, hb, hr, hc⟩
      exact ⟨⟨b, hb, hr⟩, hc⟩
    · rintro ⟨⟨b, hb, hr⟩, hc⟩
      exact ⟨b, hb, hr, hc⟩
  | succ n ih =>
    rw [walk_succ, walk_succ]
    constructor
    · rintro ⟨b, hw, hr, hc⟩
      exact ⟨⟨b, ((ih b).mp hw).1, hr⟩, hc⟩
    · rintro ⟨⟨b, hw, hr⟩, hc⟩
      exact ⟨b, (ih b).mpr ⟨hw, hp b c hr⟩, hr, hc⟩

theorem nextDist_restrict_iff {r : α → α → Prop} {p : α → Prop} (hp : ∀ a b, r a b → p a)
    (n : ℕ) (a c : α) :
    NextDist (fun x y => r x y ∧ p y) a c n ↔ NextDist r a c n ∧ p c := by
  have hwalk : ∀ m, 1 ≤ m →
      (Walk (fun x y => r x y ∧ p y) m a c ↔ Walk r m a c ∧ p c) := by
    intro m hm
    obtain ⟨k, rfl⟩ : ∃ k, m = k + 1 := ⟨m - 1, by omega⟩
    exact walk_restrict_iff hp k a c
  constructor
  · rintro ⟨⟨h1, hw⟩, hmin⟩
    obtain ⟨hr, hc⟩ := (hwalk n h1).mp hw
    exact ⟨⟨⟨h1, hr⟩, fun m hm => hmin ⟨hm.1, (hwalk m hm.1).mpr ⟨hm.2, hc⟩⟩⟩, hc⟩
  · rintro ⟨⟨⟨h1, hw⟩, hmin⟩, hc⟩
    exact ⟨⟨h1, (hwalk n h1).mpr ⟨hw, hc⟩⟩, fun m hm => hmin ⟨hm.1, ((hwalk m hm.1).mp hm.2).1⟩⟩

/-- A queue search in progress: the entries polled so far and those still queued,
each a depth and a vertex. The first entry ever queued is the start. -/
structure Snapshot (α : Type*) where
  done : List (ℕ × α)
  queue : List (ℕ × α)

def Snapshot.entries (s : Snapshot α) : List (ℕ × α) := s.done ++ s.queue

/-- What has been discovered; the start counts only once a step leads back to it. -/
def Snapshot.found (s : Snapshot α) : List (ℕ × α) := s.entries.tail

/-- Polling the head of the queue appends exactly the undiscovered successors. -/
structure Polls (r : α → α → Prop) (s : Snapshot α) (d : ℕ) (u : α) (rest new : List (ℕ × α)) :
    Prop where
  head : s.queue = (d, u) :: rest
  nodup : (new.map Prod.snd).Nodup
  fresh : ∀ e ∈ new, e.1 = d + 1 ∧ r u e.2 ∧ e.2 ∉ s.found.map Prod.snd
  complete : ∀ v, r u v → v ∈ s.found.map Prod.snd ∨ v ∈ new.map Prod.snd

structure Inv (r : α → α → Prop) (start : α) (s : Snapshot α) : Prop where
  entries_eq : s.entries = (0, start) :: s.found
  nodup : (s.found.map Prod.snd).Nodup
  sound : ∀ e ∈ s.found, 1 ≤ e.1 ∧ Walk r e.1 start e.2
  sorted : (s.entries.map Prod.fst).Pairwise (· ≤ ·)
  level : ∀ q ∈ s.queue.head?, ∀ e ∈ s.entries, e.1 ≤ q.1 + 1
  closed : ∀ q ∈ s.done, ∀ v, r q.2 v → ∃ e ∈ s.found, e.2 = v ∧ e.1 ≤ q.1 + 1

theorem inv_init (r : α → α → Prop) (start : α) : Inv r start ⟨[], [(0, start)]⟩ where
  entries_eq := rfl
  nodup := by simp [Snapshot.found, Snapshot.entries]
  sound := by simp [Snapshot.found, Snapshot.entries]
  sorted := by simp [Snapshot.entries]
  level := by simp [Snapshot.entries]
  closed := by simp

def Snapshot.next (s : Snapshot α) (d : ℕ) (u : α) (rest new : List (ℕ × α)) : Snapshot α :=
  ⟨s.done ++ [(d, u)], rest ++ new⟩

theorem Polls.entries_next {r : α → α → Prop} {s : Snapshot α} {d : ℕ} {u : α}
    {rest new : List (ℕ × α)} (h : Polls r s d u rest new) :
    (s.next d u rest new).entries = s.entries ++ new := by
  simp [Snapshot.next, Snapshot.entries, h.head]

theorem Polls.head_mem {r : α → α → Prop} {s : Snapshot α} {d : ℕ} {u : α}
    {rest new : List (ℕ × α)} (h : Polls r s d u rest new) : (d, u) ∈ s.entries := by
  apply List.mem_append_right
  rw [h.head]
  exact List.mem_cons_self

theorem Polls.found_next {r : α → α → Prop} {s : Snapshot α} {d : ℕ} {u : α}
    {rest new : List (ℕ × α)} (h : Polls r s d u rest new) :
    (s.next d u rest new).found = s.found ++ new := by
  have hne : s.entries ≠ [] := by simp [Snapshot.entries, h.head]
  rw [Snapshot.found, h.entries_next, List.tail_append_of_ne_nil hne, Snapshot.found]

/-- An entry is one deeper than one in front of it, so no entry is as deep as there are
entries. -/
theorem Polls.shallow_next {r : α → α → Prop} {s : Snapshot α} {d : ℕ} {u : α}
    {rest new : List (ℕ × α)} (h : Polls r s d u rest new)
    (hs : ∀ e ∈ s.entries, e.1 < s.entries.length) :
    ∀ e ∈ (s.next d u rest new).entries, e.1 < (s.next d u rest new).entries.length := by
  have hd := hs (d, u) h.head_mem
  rw [h.entries_next, List.length_append]
  intro e he
  rcases List.mem_append.mp he with he | he
  · have hold := hs e he
    omega
  · have hnew := List.length_pos_of_mem he
    rw [(h.fresh e he).1]
    omega

theorem Inv.walk {r : α → α → Prop} {start : α} {s : Snapshot α} (h : Inv r start s)
    {e : ℕ × α} (he : e ∈ s.entries) : Walk r e.1 start e.2 := by
  rw [h.entries_eq] at he
  rcases List.mem_cons.mp he with rfl | he
  · exact .refl start
  · exact (h.sound e he).2

section Next

variable {r : α → α → Prop} {start : α} {s : Snapshot α} {d : ℕ} {u : α} {rest new : List (ℕ × α)}

/-- While (d, u) is at the head, no entry is deeper than d + 1. -/
theorem Inv.entries_le (h : Inv r start s) (hp : Polls r s d u rest new) :
    ∀ e ∈ s.entries, e.1 ≤ d + 1 := by
  intro e he
  exact h.level (d, u) (by simp [hp.head]) e he

/-- No vertex is discovered twice. -/
theorem Inv.nodup_next (h : Inv r start s) (hp : Polls r s d u rest new) :
    ((s.next d u rest new).found.map Prod.snd).Nodup := by
  rw [hp.found_next, List.map_append]
  apply h.nodup.append hp.nodup
  intro v hv hv'
  obtain ⟨e, he, rfl⟩ := List.mem_map.mp hv'
  exact (hp.fresh e he).2.2 hv

theorem Inv.sound_next (h : Inv r start s) (hp : Polls r s d u rest new) :
    ∀ e ∈ (s.next d u rest new).found, 1 ≤ e.1 ∧ Walk r e.1 start e.2 := by
  rw [hp.found_next]
  intro e he
  rcases List.mem_append.mp he with he | he
  · exact h.sound e he
  · obtain ⟨hd, hr, -⟩ := hp.fresh e he
    rw [hd]
    exact ⟨by omega, .step (h.walk hp.head_mem) hr⟩

theorem Inv.sorted_next (h : Inv r start s) (hp : Polls r s d u rest new) :
    ((s.next d u rest new).entries.map Prod.fst).Pairwise (· ≤ ·) := by
  have hnew : ∀ e ∈ new, e.1 = d + 1 := fun e he => (hp.fresh e he).1
  rw [hp.entries_next, List.map_append]
  refine List.pairwise_append.mpr ⟨h.sorted, ?_, ?_⟩
  · apply List.pairwise_map.mpr
    apply List.pairwise_of_forall_mem_list
    intro e he f hf
    rw [hnew e he, hnew f hf]
  · intro a ha b hb
    obtain ⟨e, he, rfl⟩ := List.mem_map.mp ha
    obtain ⟨f, hf, rfl⟩ := List.mem_map.mp hb
    rw [hnew f hf]
    exact h.entries_le hp e he

theorem Inv.le_of_queued (h : Inv r start s) (hp : Polls r s d u rest new) :
    ∀ q ∈ rest ++ new, d ≤ q.1 := by
  intro q hq
  rcases List.mem_append.mp hq with hq | hq
  · have hs := h.sorted
    rw [Snapshot.entries, hp.head, List.map_append, List.map_cons] at hs
    exact List.rel_of_pairwise_cons (List.pairwise_append.mp hs).2.1 (List.mem_map_of_mem hq)
  · rw [(hp.fresh q hq).1]
    omega

theorem Inv.level_next (h : Inv r start s) (hp : Polls r s d u rest new) :
    ∀ q ∈ (s.next d u rest new).queue.head?, ∀ e ∈ (s.next d u rest new).entries,
      e.1 ≤ q.1 + 1 := by
  intro q hq e he
  have hd : d ≤ q.1 := h.le_of_queued hp q (List.mem_of_mem_head? hq)
  rw [hp.entries_next] at he
  rcases List.mem_append.mp he with he | he
  · exact (h.entries_le hp e he).trans (by omega)
  · rw [(hp.fresh e he).1]
    omega

/-- The successors of a polled vertex have been discovered, at most one level deeper. -/
theorem Inv.closed_next (h : Inv r start s) (hp : Polls r s d u rest new) :
    ∀ q ∈ (s.next d u rest new).done, ∀ v, r q.2 v →
      ∃ e ∈ (s.next d u rest new).found, e.2 = v ∧ e.1 ≤ q.1 + 1 := by
  intro q hq v hv
  rw [hp.found_next]
  rcases List.mem_append.mp hq with hq | hq
  · obtain ⟨e, he, h1, h2⟩ := h.closed q hq v hv
    exact ⟨e, List.mem_append_left _ he, h1, h2⟩
  · obtain rfl := List.mem_singleton.mp hq
    rcases hp.complete v hv with hf | hn
    · obtain ⟨e, he, rfl⟩ := List.mem_map.mp hf
      exact ⟨e, List.mem_append_left _ he, rfl, h.entries_le hp e (List.mem_of_mem_tail he)⟩
    · obtain ⟨e, he, rfl⟩ := List.mem_map.mp hn
      exact ⟨e, List.mem_append_right _ he, rfl, (hp.fresh e he).1.le⟩

theorem Inv.next (h : Inv r start s) (hp : Polls r s d u rest new) :
    Inv r start (s.next d u rest new) where
  entries_eq := by rw [hp.entries_next, hp.found_next, h.entries_eq, List.cons_append]
  nodup := h.nodup_next hp
  sound := h.sound_next hp
  sorted := h.sorted_next hp
  level := h.level_next hp
  closed := h.closed_next hp

end Next

/-- When the queue is empty, every walk of at least one step ends at a discovery
that is no deeper than the walk is long. -/
theorem Inv.complete {r : α → α → Prop} {start : α} {s : Snapshot α} (h : Inv r start s)
    (hq : s.queue = []) {n : ℕ} {v : α} (hw : Walk r (n + 1) start v) :
    ∃ e ∈ s.found, e.2 = v ∧ e.1 ≤ n + 1 := by
  have hdone : s.done = (0, start) :: s.found := by
    rw [← h.entries_eq, Snapshot.entries, hq, List.append_nil]
  -- induction on the walk: its last vertex but one has been polled
  induction n generalizing v with
  | zero =>
    obtain ⟨b, hb, hr⟩ := walk_succ.mp hw
    rw [← walk_zero.mp hb] at hr
    exact h.closed (0, start) (by rw [hdone]; exact List.mem_cons_self) v hr
  | succ n ih =>
    obtain ⟨b, hb, hr⟩ := walk_succ.mp hw
    obtain ⟨f, hf, rfl, hle⟩ := ih hb
    obtain ⟨e, he, hv, hd⟩ := h.closed f (by rw [hdone]; exact List.mem_cons_of_mem _ hf) v hr
    exact ⟨e, he, hv, by omega⟩

/-- A finished search has found exactly the shortest non-empty walks. -/
theorem Inv.mem_found_iff {r : α → α → Prop} {start : α} {s : Snapshot α} (h : Inv r start s)
    (hq : s.queue = []) (d : ℕ) (v : α) : (d, v) ∈ s.found ↔ NextDist r start v d := by
  have hleast : ∀ e ∈ s.found, NextDist r start e.2 e.1 := by
    intro e he
    refine ⟨h.sound e he, ?_⟩
    rintro m ⟨hm, hw⟩
    obtain ⟨n, rfl⟩ : ∃ n, m = n + 1 := ⟨m - 1, by omega⟩
    obtain ⟨f, hf, hv, hle⟩ := h.complete hq hw
    -- the vertex was discovered once, so f is e
    rwa [List.inj_on_of_nodup_map h.nodup he hf hv.symm]
  constructor
  · exact fun he => hleast (d, v) he
  · intro hd
    obtain ⟨n, rfl⟩ : ∃ n, d = n + 1 := ⟨d - 1, by have := hd.1.1; omega⟩
    obtain ⟨⟨k, w⟩, he, rfl, -⟩ := h.complete hq hd.1.2
    rwa [← IsLeast.unique (hleast _ he) hd]

end FuzzMonitor.Search
