import FuzzMonitor.FreeHashtable

namespace FuzzMonitor.Branches
open CStrings Tally

def countOf (t : BranchHits) (k : CText) : UInt64 :=
  ((t.lookup k).map fun e => e.value.val).getD 0

/-- The second table is the first with the keys counted on top of it: other keys keep their
entries. -/
structure Adds (t : BranchHits) (keys : List CText) (t' : BranchHits) : Prop where
  other : ∀ k ∉ keys, t'.lookup k = t.lookup k
  counted : ∀ k ∈ keys, (t'.lookup k).map (fun e => e.value.val) =
    some (countOf t k + UInt64.ofNat (keys.count k))

theorem Adds.refl (t : BranchHits) : Adds t [] t :=
  ⟨fun _ _ => rfl, fun _ hk => absurd hk List.not_mem_nil⟩

theorem Adds.countOf_eq {t t' : BranchHits} {keys : List CText} (h : Adds t keys t') (k : CText) :
    countOf t' k = countOf t k + UInt64.ofNat (keys.count k) := by
  by_cases hk : k ∈ keys
  · have hcount := h.counted k hk
    unfold countOf at hcount ⊢
    rw [hcount]
    rfl
  · rw [List.count_eq_zero_of_not_mem hk]
    unfold countOf
    rw [h.other k hk]
    exact (UInt64.add_zero _).symm

theorem Adds.insert {t t' : BranchHits} {keys : List CText} {k : CText} {entry : HitEntry}
    (h : Adds t keys t') (hentry : entry.value.val = countOf t' k + 1) :
    Adds t (keys ++ [k]) (t'.insert k entry) := by
  constructor
  · intro j hj
    rw [List.mem_append, not_or, List.mem_singleton] at hj
    rw [AList.lookup_insert_ne hj.2]
    exact h.other j hj.1
  · intro j hj
    by_cases hjk : j = k
    · subst hjk
      rw [AList.lookup_insert, Option.map_some, hentry, h.countOf_eq, List.count_append,
        List.count_singleton_self, UInt64.ofNat_add, UInt64.add_assoc]
      rfl
    · have hold : j ∈ keys := by simpa [hjk] using hj
      have hcount : [k].count j = 0 := List.count_eq_zero_of_not_mem (by simpa using hjk)
      rw [AList.lookup_insert_ne hjk, h.counted j hold, List.count_append, hcount, Nat.add_zero]

theorem Adds.same_iff {t t' : BranchHits} {keys : List CText} (h : Adds t keys t')
    (hlen : keys.length < 2 ^ 64) : (∀ k, t'.lookup k = t.lookup k) ↔ keys = [] := by
  constructor
  · intro hsame
    by_contra hne
    obtain ⟨k, hk⟩ := List.exists_mem_of_ne_nil keys hne
    have hcount : countOf t k = countOf t k + UInt64.ofNat (keys.count k) := by
      rw [← h.countOf_eq k]
      unfold countOf
      rw [hsame k]
    have hpos : 0 < keys.count k := List.count_pos_iff.mpr hk
    have hle : keys.count k ≤ keys.length := List.count_le_length
    have hlt := (countOf t k).toNat_lt
    have hnat := congrArg UInt64.toNat hcount
    rw [UInt64.toNat_add, UInt64.toNat_ofNat', Nat.mod_eq_of_lt (a := keys.count k) (by omega)]
      at hnat
    omega
  · rintro rfl k
    exact h.other k List.not_mem_nil

/-- A loop that stops does so at a branch behind some that it got through. -/
theorem branchLoop_stopped {secBounds : Option SectionBounds} {bbs : List BasicBlock}
    {env : ℕ → BranchEnv} {i : ℕ} {trace : List BtsBranch} {s s' : LoopState} {stop : Stop}
    (h : branchLoop secBounds bbs env i trace s = (s', some stop)) :
    ∃ before branch later s₁, trace = before ++ branch :: later ∧
      skipped secBounds branch = false ∧
      branchLoop secBounds bbs env i before s = (s₁, none) ∧
      recordBranch bbs (env (i + before.length)) branch s₁ = (s', some stop) := by
  induction trace generalizing i s with
  | nil => cases (Prod.mk.inj h).2
  | cons branch trace ih =>
    unfold branchLoop at h
    split_ifs at h with hskip
    · obtain ⟨before, b, later, s₁, rfl, hb, hloop, hrec⟩ := ih h
      refine ⟨branch :: before, b, later, s₁, rfl, hb, ?_, ?_⟩
      · rw [branchLoop, if_pos hskip]
        exact hloop
      · rw [List.length_cons, Nat.add_comm before.length, ← Nat.add_assoc]
        exact hrec
    · cases hrec : recordBranch bbs (env i) branch s with
      | mk s₁ stop₁ =>
        rw [hrec] at h
        cases stop₁ with
        | some stop₁ =>
          cases h
          exact ⟨[], branch, trace, s, rfl, by simpa using hskip, rfl, hrec⟩
        | none =>
          obtain ⟨before, b, later, s₂, rfl, hb, hloop, hstop⟩ := ih h
          refine ⟨branch :: before, b, later, s₂, rfl, hb, ?_, ?_⟩
          · rw [branchLoop, if_neg hskip, hrec]
            exact hloop
          · rw [List.length_cons, Nat.add_comm before.length, ← Nat.add_assoc]
            exact hstop

/-- A branch for which process_branches returns -1 has a key that hashtable_add did not add. -/
theorem recordBranch_failed {bbs : List BasicBlock} {env : BranchEnv} {branch : BtsBranch}
    {s s' : LoopState} (h : recordBranch bbs env branch s = (s', some (.returned (-1)))) :
    s'.branchHits = s.branchHits ∧ env.hashtableAdd ≠ .ok ∧
      s.branchHits.lookup (pairKey (resolve bbs branch)) = none := by
  unfold recordBranch at h
  simp only [hashKey_eq] at h
  split_ifs at h
  · cases (Prod.mk.inj h).2
  · cases (Prod.mk.inj h).2
  · split at h
    · cases (Prod.mk.inj h).2
    · unfold countHit at h
      dsimp only at h
      split at h
      · cases (Prod.mk.inj h).2
      · next hget =>
        split_ifs at h with hvalue hadd
        · cases (Prod.mk.inj h).2
        · rw [← (Prod.mk.inj h).1]
          exact ⟨rfl, hadd, hget⟩
        · cases (Prod.mk.inj h).2

/-- The loop has added the new pairs to the table t; the counter of new branches moved only if
one of them was not in t. -/
structure Added (t : BranchHits) (new : List (UInt64 × UInt64)) (s : LoopState) : Prop where
  adds : Adds t (new.map pairKey) s.branchHits
  fresh : s.newBranches > 0 → ∃ p ∈ new, t.lookup (pairKey p) = none

theorem Added.record {t : BranchHits} {new : List (UInt64 × UInt64)} {bbs : List BasicBlock}
    {env : BranchEnv} {branch : BtsBranch} {s s' : LoopState} (hs : Added t new s)
    (h : recordBranch bbs env branch s = (s', none)) : Added t (new ++ [resolve bbs branch]) s' := by
  obtain ⟨freed, -, hcount⟩ := recordBranch_cases h
  rcases countHit_cases hcount with ⟨entry, hget, rfl⟩ | ⟨hget, rfl⟩
  · refine ⟨?_, fun hnew => ?_⟩
    · rw [List.map_append]
      apply hs.adds.insert
      unfold countOf
      dsimp only at hget ⊢
      rw [hget]
      rfl
    · obtain ⟨p, hp, hnone⟩ := hs.fresh hnew
      exact ⟨p, List.mem_append_left _ hp, hnone⟩
  · dsimp only at hget
    refine ⟨?_, fun _ => ⟨resolve bbs branch, List.mem_append_right _ (List.mem_singleton_self _), ?_⟩⟩
    · rw [List.map_append]
      apply hs.adds.insert
      unfold countOf
      dsimp only
      rw [hget]
      rfl
    · by_contra hold
      by_cases hmem : pairKey (resolve bbs branch) ∈ new.map pairKey
      · have hsome := hs.adds.counted _ hmem
        rw [hget] at hsome
        contradiction
      · rw [hs.adds.other _ hmem] at hget
        exact hold hget

theorem branchLoop_added {t : BranchHits} {secBounds : Option SectionBounds}
    {bbs : List BasicBlock} {env : ℕ → BranchEnv} {i heap : ℕ} {trace : List BtsBranch}
    {s : LoopState} (h : branchLoop secBounds bbs env i trace
      ⟨⟨[], [], 0⟩, t, 0, 0, heap, []⟩ = (s, none)) :
    Added t (recorded secBounds bbs trace) s ∧
      ∀ hist : List (UInt64 × UInt64), Tallies hits t (hist.map pairKey) →
        hist.length + trace.length < 2 ^ 64 →
        Tallies hits s.branchHits ((hist ++ recorded secBounds bbs trace).map pairKey) := by
  constructor
  · have hstart : Added t [] ⟨⟨[], [], 0⟩, t, 0, 0, heap, []⟩ :=
      ⟨.refl t, fun hpos => absurd hpos (UInt64.lt_irrefl 0)⟩
    exact branchLoop_keeps (fun _ _ _ _ _ hs hrec => hs.record hrec) hstart h
  · intro hist ht hlen
    have hstart : Counted t.entries.length hist [] ⟨⟨[], [], 0⟩, t, 0, 0, heap, []⟩ := by
      refine ⟨?_, rfl, Nat.le_refl _, rfl⟩
      rw [List.append_nil]
      exact ht
    exact (branchLoop_counted hstart (by simpa using hlen) h).tallies

/-- Where a failed call stops: at a branch whose key hashtable_add does not add, or behind the
loop, where the graph file of an input with a new branch cannot be opened. -/
inductive FailsBehind (env : CallEnv) (m : Monitor) (out : Outcome) :
    List BtsBranch → List BtsBranch → Prop
  | add {before later : List BtsBranch} {branch : BtsBranch}
      (hkept : skipped m.secBounds branch = false)
      (hadd : (env.branch before.length).hashtableAdd ≠ .ok)
      (hnew : out.branchHits.lookup (pairKey (resolve m.bbs branch)) = none) :
      FailsBehind env m out before (branch :: later)
  | openFile {before : List BtsBranch} (hfopen : env.fopen = false)
      (hnew : ∃ p ∈ recorded m.secBounds m.bbs before, m.branchHits.lookup (pairKey p) = none) :
      FailsBehind env m out before []

/-- What a call that returns -1 leaves behind: the part of the trace before the failure is in the
table, and the counters are not reported. -/
structure LeftBehind (m : Monitor) (args : Args) (before : List BtsBranch) (out : Outcome) :
    Prop where
  adds : Adds m.branchHits ((recorded m.secBounds m.bbs before).map pairKey) out.branchHits
  tallies : ∀ hist : List (UInt64 × UInt64), Tallies hits m.branchHits (hist.map pairKey) →
    hist.length + before.length < 2 ^ 64 →
    Tallies hits out.branchHits ((hist ++ recorded m.secBounds m.bbs before).map pairKey)
  newBranches : out.newBranches = args.newBranches
  filteredCount : out.filteredCount = args.filteredCount

/-- What finish hands back when process_branches returns -1. -/
theorem finish_failed {env : CallEnv} {m : Monitor} {args : Args} {s : LoopState}
    (h : (finish env m args s).stop = .returned (-1)) :
    s.newBranches > 0 ∧ env.fopen = false ∧
    (finish env m args s).branchHits = s.branchHits ∧
    (finish env m args s).newBranches = args.newBranches ∧
    (finish env m args s).filteredCount = args.filteredCount := by
  obtain ⟨⟨htable, -⟩, ⟨hstop, -⟩ | ⟨-, ⟨hnew, hfopen⟩, hcounts⟩ | hstop⟩ := finish_cases env m args s
  · rw [hstop] at h
    contradiction
  · exact ⟨hnew, hfopen, htable, hcounts⟩
  · rw [hstop] at h
    contradiction

theorem processBranches_failed {env : CallEnv} {trace : List BtsBranch} {m : Monitor}
    {args : Args} (h : (processBranches env trace m args).stop = .returned (-1)) :
    ∃ before rest, trace = before ++ rest ∧
      FailsBehind env m (processBranches env trace m args) before rest ∧
      LeftBehind m args before (processBranches env trace m args) := by
  unfold processBranches at h ⊢
  dsimp only at h ⊢
  by_cases hargs : args.newBranches = none ∨ args.filteredCount = none
  · rw [if_pos hargs] at h
    simp at h
  · rw [if_neg hargs] at h ⊢
    split at h
    · next g hnew =>
      cases graphNew_ok hnew
      split at h
      · next s stop hloop =>
        dsimp only at h
        subst h
        obtain ⟨before, branch, later, s₁, rfl, hkept, hbefore, hrec⟩ := branchLoop_stopped hloop
        obtain ⟨hsame, hadd, hget⟩ := recordBranch_failed hrec
        rw [Nat.zero_add] at hadd
        obtain ⟨hadded, htallies⟩ := branchLoop_added hbefore
        rw [← hsame] at hget htallies
        exact ⟨before, branch :: later, rfl, .add hkept hadd hget, hsame ▸ hadded.adds, htallies,
          rfl, rfl⟩
      · next s hloop =>
        obtain ⟨hadded, htallies⟩ := branchLoop_added hloop
        obtain ⟨hnew, hfopen, htable, hnewOut, hfilteredOut⟩ := finish_failed h
        rw [← htable] at htallies
        exact ⟨trace, [], (List.append_nil _).symm, .openFile hfopen (hadded.fresh hnew),
          htable ▸ hadded.adds, htallies, hnewOut, hfilteredOut⟩
    · cases h

/-- A failed call keeps the part of its trace before the failure: the table differs from the one
before the call unless the failure is at the first recorded branch, and the final graph file
lists that part with the edges from before. -/
theorem failed_trace_recorded {env : CallEnv} {trace : List BtsBranch} {m : Monitor} {args : Args}
    (hlen : trace.length < 2 ^ 64) (h : (processBranches env trace m args).stop = .returned (-1)) :
    ∃ before rest, trace = before ++ rest ∧
      FailsBehind env m (processBranches env trace m args) before rest ∧
      LeftBehind m args before (processBranches env trace m args) ∧
      ((∀ k, (processBranches env trace m args).branchHits.lookup k = m.branchHits.lookup k) ↔
        recorded m.secBounds m.bbs before = []) ∧
      ∀ (hist : List (UInt64 × UInt64)) (entries : List (CText × HitEntry)) (name : CText)
        (heap : ℕ), Tallies hits m.branchHits (hist.map pairKey) →
        hist.length + trace.length < 2 ^ 64 →
        entries.Perm ((processBranches env trace m args).branchHits.entries.map
          fun e => (e.1, e.2)) →
        (∀ p ∈ hist ++ recorded m.secBounds m.bbs before,
          p.1.toNat < 2 ^ 63 ∧ p.2.toNat < 2 ^ 63) →
        ∃ file, (freeHashtable .succeed entries (some name) heap).file = some (name, file) ∧
          ListsEdges (hist ++ recorded m.secBounds m.bbs before) file := by
  obtain ⟨before, rest, htrace, hfails, hleft⟩ := processBranches_failed h
  have hprefix : before.length ≤ trace.length := by
    rw [htrace, List.length_append]
    exact Nat.le_add_right _ _
  have hrecorded := recorded_length_le m.secBounds m.bbs before
  refine ⟨before, rest, htrace, hfails, hleft, ?_, ?_⟩
  · rw [hleft.adds.same_iff (by rw [List.length_map]; omega), List.map_eq_nil_iff]
  · intro hist entries name heap htallies hbound hperm hsmall
    exact freeHashtable_lists name heap (hleft.tallies hist htallies (by omega)) hperm hsmall

def noPathMonitor : Monitor := ⟨∅, none, [], none, 0⟩

def failedTrace : List BtsBranch := [⟨16, 80, 0⟩, ⟨80, 16, 0⟩, ⟨16, 90, 0⟩]

def addFails : CallEnv :=
  ⟨.succeed, fun i => if i = 2 then { BranchEnv.succeed with hashtableAdd := .errAlloc } else .succeed,
    true⟩

theorem failed_trace_addFails :
    ∃ before rest file, failedTrace = before ++ rest ∧
      FailsBehind addFails noPathMonitor
        (processBranches addFails failedTrace noPathMonitor (callArgs 0)) before rest ∧
      (freeHashtable .succeed ((processBranches addFails failedTrace noPathMonitor
        (callArgs 0)).branchHits.entries.map fun e => (e.1, e.2)) (some "out.gv".toList) 0).file =
          some ("out.gv".toList, file) ∧
      ListsEdges (recorded none [] before) file := by
  obtain ⟨before, rest, htrace, hfails, -, -, hfile⟩ := @failed_trace_recorded addFails failedTrace
    noPathMonitor (callArgs 0) (by decide) (by decide +kernel)
  have hpairs : recorded none [] failedTrace = [(16, 80), (80, 16), (16, 90)] := by decide
  have hsmall : ∀ p ∈ recorded none [] failedTrace, p.1.toNat < 2 ^ 63 ∧ p.2.toNat < 2 ^ 63 := by
    rw [hpairs]
    simp
  obtain ⟨file, hname, hlists⟩ := hfile [] _ "out.gv".toList 0 (tallies_empty _) (by decide)
    (List.Perm.refl _) fun p hp => by
      apply hsmall p
      rw [htrace, recorded_append]
      exact List.mem_append_left _ hp
  exact ⟨before, rest, file, htrace, hfails, hname, hlists⟩

def openFails : CallEnv := ⟨.succeed, fun _ => .succeed, false⟩

/-- The one edge of the failed trace is in the table. -/
theorem failed_trace_kept :
    (processBranches openFails [⟨16, 80, 0⟩] noPathMonitor (callArgs 0)).stop = .returned (-1) ∧
    (processBranches openFails [⟨16, 80, 0⟩] noPathMonitor (callArgs 0)).branchHits.lookup
      (pairKey (16, 80)) ≠ noPathMonitor.branchHits.lookup (pairKey (16, 80)) := by
  decide

end FuzzMonitor.Branches
