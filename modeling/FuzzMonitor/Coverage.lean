import FuzzMonitor.HashKey

namespace FuzzMonitor.Branches
open CStrings Tally

def hits (e : HitEntry) : ℕ := e.value.val.toNat

/-- The pairs that a trace records: its branches that are not skipped, resolved. -/
def recorded (secBounds : Option SectionBounds) (bbs : List BasicBlock)
    (trace : List BtsBranch) : List (UInt64 × UInt64) :=
  (trace.filter fun branch => !skipped secBounds branch).map (resolve bbs)

theorem recorded_append (secBounds : Option SectionBounds) (bbs : List BasicBlock)
    (s t : List BtsBranch) :
    recorded secBounds bbs (s ++ t) = recorded secBounds bbs s ++ recorded secBounds bbs t := by
  simp only [recorded, List.filter_append, List.map_append]

theorem recorded_length_le (secBounds : Option SectionBounds) (bbs : List BasicBlock)
    (trace : List BtsBranch) : (recorded secBounds bbs trace).length ≤ trace.length := by
  unfold recorded
  rw [List.length_map]
  exact List.length_filter_le _ _

theorem countHit_cases {env : BranchEnv} {key : CText} {s s' : LoopState}
    (h : countHit env key s = (s', none)) :
    (∃ entry, s.branchHits.lookup key = some entry ∧
      s' = { s with
        branchHits := s.branchHits.insert key
          { entry with value := { entry.value with val := entry.value.val + 1 } }
        heap := s.heap + 1
        freed := s.freed ++ [s.heap] }) ∨
    (s.branchHits.lookup key = none ∧
      s' = { s with
        branchHits := s.branchHits.insert key ⟨s.heap, ⟨s.heap + 1, 1⟩⟩
        newBranches := s.newBranches + 1
        heap := s.heap + 2 }) := by
  unfold countHit at h
  split at h
  · next entry hget => exact .inl ⟨entry, hget, (Prod.mk.inj h).1.symm⟩
  · next hget =>
    split_ifs at h
    · cases (Prod.mk.inj h).2
    · cases (Prod.mk.inj h).2
    · exact .inr ⟨hget, (Prod.mk.inj h).1.symm⟩

theorem recordBranch_cases {bbs : List BasicBlock} {env : BranchEnv} {branch : BtsBranch}
    {s s' : LoopState} (h : recordBranch bbs env branch s = (s', none)) :
    ∃ freed, freeCells (s.graph.graphAdd env.graphAdd ⟨s.heap, (resolve bbs branch).1⟩
        ⟨s.heap + 1, (resolve bbs branch).2⟩).1 ⟨s.heap, (resolve bbs branch).1⟩
        ⟨s.heap + 1, (resolve bbs branch).2⟩ s.freed = some freed ∧
      countHit env (pairKey (resolve bbs branch))
        { s with
          filteredCount := s.filteredCount + 1
          graph := (s.graph.graphAdd env.graphAdd ⟨s.heap, (resolve bbs branch).1⟩
            ⟨s.heap + 1, (resolve bbs branch).2⟩).2
          heap := s.heap + 2
          freed := freed } = (s', none) := by
  unfold recordBranch at h
  simp only [hashKey_eq] at h
  split_ifs at h
  · cases (Prod.mk.inj h).2
  · cases (Prod.mk.inj h).2
  · split at h
    · cases (Prod.mk.inj h).2
    · next freed hfree => exact ⟨freed, hfree, h⟩

theorem countHit_stop {env : BranchEnv} {key : CText} {s s' : LoopState} {stop : Stop}
    (h : countHit env key s = (s', some stop)) : stop ≠ .returned 0 := by
  unfold countHit at h
  split at h
  · cases (Prod.mk.inj h).2
  · split_ifs at h
    · cases (Prod.mk.inj h).2
      decide
    · cases (Prod.mk.inj h).2
      decide
    · cases (Prod.mk.inj h).2

theorem recordBranch_stop {bbs : List BasicBlock} {env : BranchEnv} {branch : BtsBranch}
    {s s' : LoopState} {stop : Stop} (h : recordBranch bbs env branch s = (s', some stop)) :
    stop ≠ .returned 0 := by
  unfold recordBranch at h
  dsimp only at h
  split_ifs at h
  · cases (Prod.mk.inj h).2
    decide
  · cases (Prod.mk.inj h).2
    decide
  · split at h
    · cases (Prod.mk.inj h).2
      decide
    · exact countHit_stop h

theorem branchLoop_stop {secBounds : Option SectionBounds} {bbs : List BasicBlock}
    {env : ℕ → BranchEnv} {i : ℕ} {trace : List BtsBranch} {s s' : LoopState} {stop : Stop}
    (h : branchLoop secBounds bbs env i trace s = (s', some stop)) : stop ≠ .returned 0 := by
  induction trace generalizing i s with
  | nil => cases (Prod.mk.inj h).2
  | cons branch trace ih =>
    unfold branchLoop at h
    split_ifs at h
    · exact ih h
    · split at h
      · next hrec =>
        rw [← Option.some.inj (Prod.mk.inj h).2]
        exact recordBranch_stop hrec
      · exact ih h

/-- What each recorded branch keeps, one more pair recorded, holds behind the loop of the pairs
of the whole trace. -/
theorem branchLoop_keeps {secBounds : Option SectionBounds} {bbs : List BasicBlock}
    {env : ℕ → BranchEnv} {I : List (UInt64 × UInt64) → LoopState → Prop}
    (hstep : ∀ i branch new s s', I new s → recordBranch bbs (env i) branch s = (s', none) →
      I (new ++ [resolve bbs branch]) s')
    {i : ℕ} {trace : List BtsBranch} {new : List (UInt64 × UInt64)} {s s' : LoopState}
    (hs : I new s) (h : branchLoop secBounds bbs env i trace s = (s', none)) :
    I (new ++ recorded secBounds bbs trace) s' := by
  induction trace generalizing i s new with
  | nil =>
    rw [← (Prod.mk.inj h).1]
    simpa only [recorded, List.filter_nil, List.map_nil, List.append_nil] using hs
  | cons branch trace ih =>
    unfold branchLoop at h
    unfold recorded
    split_ifs at h with hskip
    · rw [List.filter_cons_of_neg (by simp [hskip])]
      exact ih hs h
    · rw [List.filter_cons_of_pos (by simpa using hskip), List.map_cons]
      split at h
      · cases (Prod.mk.inj h).2
      · next s₁ hrec =>
        have hnext := ih (hstep i branch new s s₁ hs hrec) h
        rw [List.append_assoc] at hnext
        exact hnext

/-- The loop has recorded the new pairs on a table that tallied the old ones. -/
structure Counted (size : ℕ) (old new : List (UInt64 × UInt64)) (s : LoopState) : Prop where
  tallies : Tallies hits s.branchHits ((old ++ new).map pairKey)
  entries : s.branchHits.entries.length = size + s.newBranches.toNat
  fresh : s.newBranches.toNat ≤ new.length
  filtered : s.filteredCount.toNat = new.length

theorem toNat_succ {n : UInt64} (h : n.toNat + 1 < 2 ^ 64) : (n + 1).toNat = n.toNat + 1 := by
  rw [UInt64.toNat_add, UInt64.toNat_one, Nat.mod_eq_of_lt h]

theorem Counted.found {size : ℕ} {old new : List (UInt64 × UInt64)} {s s' : LoopState}
    (hs : Counted size old new s) (hlen : old.length + new.length + 1 < 2 ^ 64)
    {p : UInt64 × UInt64} {entry : HitEntry} (hget : s.branchHits.lookup (pairKey p) = some entry)
    (hhits : s'.branchHits = s.branchHits.insert (pairKey p)
      { entry with value := { entry.value with val := entry.value.val + 1 } })
    (hnew : s'.newBranches = s.newBranches) (hcount : s'.filteredCount = s.filteredCount + 1) :
    Counted size old (new ++ [p]) s' := by
  have hle := hs.tallies.val_le_length hget
  rw [List.length_map, List.length_append] at hle
  refine ⟨?_, ?_, ?_, ?_⟩
  · rw [hhits, ← List.append_assoc, List.map_append]
    exact hs.tallies.insert_present hget (toNat_succ (lt_of_le_of_lt (Nat.succ_le_succ hle) hlen))
  · rw [hhits, length_insert_present _ hget, hnew]
    exact hs.entries
  · rw [hnew, List.length_append]
    exact Nat.le_succ_of_le hs.fresh
  · rw [hcount, List.length_append, toNat_succ (by rw [hs.filtered]; omega), hs.filtered]
    rfl

theorem Counted.missed {size : ℕ} {old new : List (UInt64 × UInt64)} {s s' : LoopState}
    (hs : Counted size old new s) (hlen : old.length + new.length + 1 < 2 ^ 64)
    {p : UInt64 × UInt64} {entry : HitEntry} (hget : s.branchHits.lookup (pairKey p) = none)
    (hone : hits entry = 1) (hhits : s'.branchHits = s.branchHits.insert (pairKey p) entry)
    (hnew : s'.newBranches = s.newBranches + 1)
    (hcount : s'.filteredCount = s.filteredCount + 1) :
    Counted size old (new ++ [p]) s' := by
  have hfresh := hs.fresh
  have hcounter := toNat_succ (n := s.newBranches) (by omega)
  refine ⟨?_, ?_, ?_, ?_⟩
  · rw [hhits, ← List.append_assoc, List.map_append]
    exact hs.tallies.insert_fresh hget hone
  · rw [hhits, length_insert_fresh _ hget, hs.entries, hnew, hcounter]
    rfl
  · rw [hnew, hcounter, List.length_append]
    exact Nat.succ_le_succ hfresh
  · rw [hcount, List.length_append, toNat_succ (by rw [hs.filtered]; omega), hs.filtered]
    rfl

/-- One recorded branch keeps the tally; both counters stay in step with the table. -/
theorem Counted.record {size : ℕ} {old new : List (UInt64 × UInt64)} {bbs : List BasicBlock}
    {env : BranchEnv} {branch : BtsBranch} {s s' : LoopState} (hs : Counted size old new s)
    (hlen : old.length + new.length + 1 < 2 ^ 64)
    (h : recordBranch bbs env branch s = (s', none)) :
    Counted size old (new ++ [resolve bbs branch]) s' := by
  obtain ⟨freed, -, hcount⟩ := recordBranch_cases h
  rcases countHit_cases hcount with ⟨entry, hget, rfl⟩ | ⟨hget, rfl⟩
  · exact hs.found hlen hget rfl rfl rfl
  · exact hs.missed hlen hget rfl rfl rfl rfl

theorem branchLoop_counted {size : ℕ} {old new : List (UInt64 × UInt64)}
    {secBounds : Option SectionBounds} {bbs : List BasicBlock} {env : ℕ → BranchEnv} {i : ℕ}
    {trace : List BtsBranch} {s s' : LoopState} (hs : Counted size old new s)
    (hlen : old.length + new.length + trace.length < 2 ^ 64)
    (h : branchLoop secBounds bbs env i trace s = (s', none)) :
    Counted size old (new ++ recorded secBounds bbs trace) s' := by
  have hrecorded := recorded_length_le secBounds bbs trace
  refine branchLoop_keeps
    (I := fun new s => old.length + new.length < 2 ^ 64 → Counted size old new s)
    (fun i branch new s s' hs hrec hbound => ?_) (fun _ => hs) h ?_
  · rw [List.length_append, List.length_singleton] at hbound
    exact (hs (by omega)).record (by omega) hrec
  · rw [List.length_append]
    omega

theorem graphNew_ok {env : Graph.NewEnv} {g : Graph}
    (h : Graph.graphNew env = (.ok, some g)) : g = ⟨[], [], 0⟩ := by
  unfold Graph.graphNew at h
  split_ifs at h
  · cases (Prod.mk.inj h).2
  · cases (Prod.mk.inj h).2
  · cases (Prod.mk.inj h).2
  · exact (Option.some.inj (Prod.mk.inj h).2).symm

theorem processBranches_run {env : CallEnv} {trace : List BtsBranch} {m : Monitor} {args : Args}
    (hargs : ¬(args.newBranches = none ∨ args.filteredCount = none))
    (h : (processBranches env trace m args).stop = .returned 0) :
    Graph.graphNew env.graphNew = (.ok, some ⟨[], [], 0⟩) ∧
    ∃ s, branchLoop m.secBounds m.bbs env.branch 0 trace
        ⟨⟨[], [], 0⟩, m.branchHits, 0, 0, args.heap, []⟩ = (s, none) ∧
      processBranches env trace m args = finish env m args s := by
  unfold processBranches at h
  dsimp only at h
  rw [if_neg hargs] at h
  split at h
  · next g hnew =>
    cases graphNew_ok hnew
    split at h
    · next s stop hloop => exact absurd h (branchLoop_stop hloop)
    · next s hloop =>
      refine ⟨hnew, s, hloop, ?_⟩
      unfold processBranches
      rw [if_neg hargs, hnew]
      dsimp only
      rw [hloop]
  · cases h

theorem processBranches_ok {env : CallEnv} {trace : List BtsBranch} {m : Monitor} {heap : ℕ}
    (h : (processBranches env trace m (callArgs heap)).stop = .returned 0) :
    ∃ s, branchLoop m.secBounds m.bbs env.branch 0 trace
        ⟨⟨[], [], 0⟩, m.branchHits, 0, 0, heap, []⟩ = (s, none) ∧
      processBranches env trace m (callArgs heap) = finish env m (callArgs heap) s :=
  (processBranches_run (by simp [callArgs]) h).2

theorem finish_cases (env : CallEnv) (m : Monitor) (args : Args) (s : LoopState) :
    ((finish env m args s).branchHits = s.branchHits ∧ (finish env m args s).heap = s.heap) ∧
    (((finish env m args s).stop = .returned 0 ∧
        (finish env m args s).newBranches = some s.newBranches ∧
        (finish env m args s).filteredCount = some s.filteredCount) ∨
      ((finish env m args s).stop = .returned (-1) ∧ (s.newBranches > 0 ∧ env.fopen = false) ∧
        (finish env m args s).newBranches = args.newBranches ∧
        (finish env m args s).filteredCount = args.filteredCount) ∨
      (finish env m args s).stop = .died) := by
  unfold finish
  split
  · exact ⟨⟨rfl, rfl⟩, .inr (.inr rfl)⟩
  · dsimp only
    split_ifs with hnew hfopen
    · exact ⟨⟨rfl, rfl⟩, .inr (.inl ⟨rfl, ⟨hnew, by simpa using hfopen⟩, rfl, rfl⟩)⟩
    · split
      · exact ⟨⟨rfl, rfl⟩, .inr (.inr rfl)⟩
      · exact ⟨⟨rfl, rfl⟩, .inl ⟨rfl, rfl, rfl⟩⟩
    · split
      · exact ⟨⟨rfl, rfl⟩, .inr (.inr rfl)⟩
      · exact ⟨⟨rfl, rfl⟩, .inl ⟨rfl, rfl, rfl⟩⟩

theorem finish_ok {env : CallEnv} {m : Monitor} {args : Args} {s : LoopState}
    (h : (finish env m args s).stop = .returned 0) :
    (finish env m args s).branchHits = s.branchHits ∧
    (finish env m args s).newBranches = some s.newBranches ∧
    (finish env m args s).filteredCount = some s.filteredCount := by
  obtain ⟨⟨htable, -⟩, ⟨-, hcounts⟩ | ⟨hstop, -⟩ | hstop⟩ := finish_cases env m args s
  · exact ⟨htable, hcounts⟩
  · rw [hstop] at h
    contradiction
  · rw [hstop] at h
    contradiction

/-- What a call that returns 0 does to a table that tallies a history. -/
theorem processBranches_counted {m : Monitor} {hist : List (UInt64 × UInt64)} {heap : ℕ}
    {env : CallEnv} {trace : List BtsBranch}
    (hm : Tallies hits m.branchHits (hist.map pairKey))
    (hlen : hist.length + trace.length < 2 ^ 64)
    (h : (processBranches env trace m (callArgs heap)).stop = .returned 0) :
    ∃ s, Counted m.branchHits.entries.length hist (recorded m.secBounds m.bbs trace) s ∧
      (processBranches env trace m (callArgs heap)).branchHits = s.branchHits ∧
      (processBranches env trace m (callArgs heap)).newBranches = some s.newBranches ∧
      (processBranches env trace m (callArgs heap)).filteredCount = some s.filteredCount := by
  obtain ⟨s, hloop, hfinish⟩ := processBranches_ok h
  rw [hfinish] at h ⊢
  have hstart : Counted m.branchHits.entries.length hist []
      ⟨⟨[], [], 0⟩, m.branchHits, 0, 0, heap, []⟩ := by
    refine ⟨?_, rfl, Nat.le_refl _, rfl⟩
    rw [List.append_nil]
    exact hm
  have hs := branchLoop_counted hstart (by simpa using hlen) hloop
  rw [List.nil_append] at hs
  exact ⟨s, hs, finish_ok h⟩

/-- A table that tallies a history, with as many entries as the given number. -/
structure Balanced (t : BranchHits) (hist : List (UInt64 × UInt64)) (news filtered : ℕ) :
    Prop where
  tallies : Tallies hits t (hist.map pairKey)
  entries : t.entries.length = news
  filtered : hist.length = filtered

def Outcome.newCount (out : Outcome) : ℕ := (out.newBranches.getD 0).toNat
def Outcome.filteredTotal (out : Outcome) : ℕ := (out.filteredCount.getD 0).toNat

theorem Balanced.call {m : Monitor} {hist : List (UInt64 × UInt64)} {news filtered heap : ℕ}
    {env : CallEnv} {trace : List BtsBranch} (hm : Balanced m.branchHits hist news filtered)
    (hlen : hist.length + trace.length < 2 ^ 64)
    (h : (processBranches env trace m (callArgs heap)).stop = .returned 0) :
    Balanced (processBranches env trace m (callArgs heap)).branchHits
      (hist ++ recorded m.secBounds m.bbs trace)
      (news + (processBranches env trace m (callArgs heap)).newCount)
      (filtered + (processBranches env trace m (callArgs heap)).filteredTotal) := by
  obtain ⟨s, hs, htable, hnew, hfiltered⟩ := processBranches_counted hm.tallies hlen h
  unfold Outcome.newCount Outcome.filteredTotal
  rw [htable, hnew, hfiltered]
  refine ⟨hs.tallies, ?_, ?_⟩
  · rw [hs.entries, hm.entries]
    rfl
  · rw [List.length_append, hm.filtered, ← hs.filtered]
    rfl

def tableAfter (t : BranchHits) (outs : List Outcome) : BranchHits :=
  outs.foldl (fun _ out => out.branchHits) t

theorem runCalls_balanced {m : Monitor} {hist : List (UInt64 × UInt64)} {news filtered heap : ℕ}
    {calls : List Call} (hm : Balanced m.branchHits hist news filtered)
    (hlen : hist.length + (calls.flatMap Call.trace).length < 2 ^ 64)
    (h : ∀ out ∈ runCalls m heap calls, out.stop = .returned 0) :
    Balanced (tableAfter m.branchHits (runCalls m heap calls))
      (hist ++ recorded m.secBounds m.bbs (calls.flatMap Call.trace))
      (news + ((runCalls m heap calls).map Outcome.newCount).sum)
      (filtered + ((runCalls m heap calls).map Outcome.filteredTotal).sum) := by
  induction calls generalizing m hist news filtered heap with
  | nil => simpa [runCalls, tableAfter, recorded] using hm
  | cons call calls ih =>
    rw [List.flatMap_cons, List.length_append] at hlen
    unfold runCalls at h ⊢
    dsimp only at h ⊢
    have hret := h (processBranches call.env call.trace m (callArgs heap)) List.mem_cons_self
    have hcall := hm.call (by omega) hret
    have hrec := recorded_length_le m.secBounds m.bbs call.trace
    have hrest := ih hcall (by rw [List.length_append]; omega)
      fun out hout => h out (List.mem_cons_of_mem _ hout)
    rw [List.flatMap_cons, recorded_append, ← List.append_assoc, List.map_cons, List.map_cons,
      List.sum_cons, List.sum_cons, ← Nat.add_assoc, ← Nat.add_assoc]
    exact hrest

theorem runCalls_take (m : Monitor) (heap k : ℕ) (calls : List Call) :
    (runCalls m heap calls).take k = runCalls m heap (calls.take k) := by
  induction calls generalizing m heap k with
  | nil => simp [runCalls]
  | cons call calls ih =>
    cases k with
    | zero => rfl
    | succ k => rw [List.take_succ_cons, runCalls, runCalls, List.take_succ_cons, ih]

theorem balanced_empty : Balanced ∅ [] 0 0 := ⟨tallies_empty hits, rfl, rfl⟩

theorem runCalls_empty {m : Monitor} {heap : ℕ} {calls : List Call} (hempty : m.branchHits = ∅)
    (hret : ∀ out ∈ runCalls m heap calls, out.stop = .returned 0)
    (hlen : (calls.flatMap Call.trace).length < 2 ^ 64) :
    Balanced (tableAfter ∅ (runCalls m heap calls))
      (recorded m.secBounds m.bbs (calls.flatMap Call.trace))
      (0 + ((runCalls m heap calls).map Outcome.newCount).sum)
      (0 + ((runCalls m heap calls).map Outcome.filteredTotal).sum) := by
  have hstart : Balanced m.branchHits [] 0 0 := by
    rw [hempty]
    exact balanced_empty
  have h := runCalls_balanced hstart (by simpa using hlen) hret
  rw [hempty, List.nil_append] at h
  exact h

/-- What the table says about a history of resolved branches, and what the counters
reported by the calls say about the table. -/
structure Accounts (t : BranchHits) (hist : List (UInt64 × UInt64)) (outs : List Outcome) :
    Prop where
  hit : ∀ a b, (t.lookup (pairKey (a, b))).map hits =
    if hist.count (a, b) = 0 then none else some (hist.count (a, b))
  entries : t.entries.length = (outs.map Outcome.newCount).sum
  total : total hits t = (outs.map Outcome.filteredTotal).sum

theorem Balanced.accounts {t : BranchHits} {hist : List (UInt64 × UInt64)} {outs : List Outcome}
    (h : Balanced t hist (0 + (outs.map Outcome.newCount).sum)
      (0 + (outs.map Outcome.filteredTotal).sum)) : Accounts t hist outs := by
  refine ⟨fun a b => h.tallies.lookup_map pairKey_injective (a, b), ?_, ?_⟩
  · rw [h.entries, Nat.zero_add]
  · rw [h.tallies.total, List.length_map, h.filtered, Nat.zero_add]

/-- Coverage accounting over whole runs: the table counts every recorded pair, both
counters add up, and only the multiset of branches matters for the final counts. -/
theorem coverage_accounting (m : Monitor) (heap : ℕ) (calls : List Call)
    (hempty : m.branchHits = ∅)
    (hret : ∀ out ∈ runCalls m heap calls, out.stop = .returned 0)
    (hlen : (calls.flatMap Call.trace).length < 2 ^ 64) :
    (∀ k, Accounts (tableAfter ∅ ((runCalls m heap calls).take k))
      (recorded m.secBounds m.bbs ((calls.take k).flatMap Call.trace))
      ((runCalls m heap calls).take k)) ∧
    ∀ (m' : Monitor) (heap' : ℕ) (calls' : List Call), m'.branchHits = ∅ →
      m'.secBounds = m.secBounds → m'.bbs = m.bbs →
      (∀ out ∈ runCalls m' heap' calls', out.stop = .returned 0) →
      (calls'.flatMap Call.trace).Perm (calls.flatMap Call.trace) →
      ∀ key, ((tableAfter ∅ (runCalls m' heap' calls')).lookup key).map hits =
        ((tableAfter ∅ (runCalls m heap calls)).lookup key).map hits := by
  constructor
  · intro k
    have hprefix : ∀ out ∈ runCalls m heap (calls.take k), out.stop = .returned 0 := by
      rw [← runCalls_take]
      exact fun out hout => hret out (List.mem_of_mem_take hout)
    rw [runCalls_take]
    have hle := ((List.take_sublist k calls).flatMap Call.trace).length_le
    exact (runCalls_empty hempty hprefix (lt_of_le_of_lt hle hlen)).accounts
  · intro m' heap' calls' hempty' hsec hbbs hret' hperm key
    -- the two tables tally permutations of one list of pairs
    have h := runCalls_empty hempty hret hlen
    have h' := runCalls_empty hempty' hret' (by rw [hperm.length_eq]; exact hlen)
    rw [hsec, hbbs] at h'
    apply h'.tallies.eq_of_perm h.tallies
    exact ((hperm.filter _).map _).map _

def sampleMonitor : Monitor := ⟨∅, none, [⟨16, 64⟩, ⟨32, 48⟩], some "graphs".toList, 0⟩

def CallEnv.succeed : CallEnv := ⟨.succeed, fun _ => .succeed, true⟩

def sampleCalls : List Call :=
  [⟨.succeed, [⟨17, 80, 0⟩, ⟨17, 80, 0⟩]⟩, ⟨.succeed, [⟨33, 17, 0⟩, ⟨18, 80, 0⟩]⟩]

theorem coverage_accounting_sampleCalls :
    Accounts (tableAfter ∅ ((runCalls sampleMonitor 0 sampleCalls).take 2))
      (recorded none [⟨16, 64⟩, ⟨32, 48⟩] ((sampleCalls.take 2).flatMap Call.trace))
      ((runCalls sampleMonitor 0 sampleCalls).take 2) :=
  (coverage_accounting sampleMonitor 0 sampleCalls rfl (by decide) (by decide)).1 2

end FuzzMonitor.Branches
