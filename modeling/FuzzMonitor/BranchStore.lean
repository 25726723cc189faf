import FuzzMonitor.CallGraph
import FuzzMonitor.RustMonitor

namespace FuzzMonitor.RustMonitor
open CStrings Branches

def branchOf (p : UInt64 × UInt64) : BtsBranch := ⟨p.1, p.2, 0⟩

theorem branchOf_injective : Function.Injective branchOf := by
  intro p q h
  exact Prod.ext (congrArg BtsBranch.from h) (congrArg BtsBranch.to h)

/-- The store and branch_hits hold the same counts. -/
def Agree (hits : BranchStore) (branchHits : BranchHits) : Prop :=
  ∀ p, hits.lookup (branchOf p) = (branchHits.lookup (pairKey p)).map fun e => e.value.val

theorem agree_empty : Agree ∅ ∅ := fun _ => rfl

theorem Agree.insert {hits : BranchStore} {branchHits : BranchHits} (h : Agree hits branchHits)
    (p : UInt64 × UInt64) (entry : HitEntry) :
    Agree (hits.insert (branchOf p) entry.value.val) (branchHits.insert (pairKey p) entry) := by
  intro q
  by_cases hq : q = p
  · rw [hq, AList.lookup_insert, AList.lookup_insert, Option.map_some]
  · rw [AList.lookup_insert_ne (branchOf_injective.ne hq),
      AList.lookup_insert_ne (pairKey_injective.ne hq)]
    exact h q

/-- Without blocks an address stands for itself, 0 included. -/
theorem resolve_nil (branch : BtsBranch) : resolve [] branch = endpoints branch := by
  unfold resolve resolveLoop endpoints
  simp

/-- A branch below the cut-off, as trace2 makes them. -/
def Plain (branch : BtsBranch) : Prop :=
  branch.from ≤ 0xFFFFFFFF00000000 ∧ branch.to ≤ 0xFFFFFFFF00000000 ∧ branch.misc = 0

theorem Plain.branchOf_endpoints {branch : BtsBranch} (h : Plain branch) :
    branchOf (endpoints branch) = branch := by
  unfold branchOf endpoints
  rw [← h.2.2]

theorem Plain.not_skipped {branch : BtsBranch} (h : Plain branch) :
    skipped none branch = false := by
  unfold skipped
  rw [Bool.or_false, decide_eq_false_iff_not, not_or, gt_iff_lt, gt_iff_lt, UInt64.not_lt,
    UInt64.not_lt]
  exact ⟨h.1, h.2.1⟩

/-- Both loops look one branch up and count it, or enter it as new. -/
theorem addLoop_simulates {env : ℕ → BranchEnv} {i : ℕ} {branches : List BtsBranch}
    (hplain : ∀ branch ∈ branches, Plain branch) {s s' : Branches.LoopState} {hits : BranchStore}
    (hs : Agree hits s.branchHits) (h : branchLoop none [] env i branches s = (s', none)) :
    (addLoop branches s.newBranches hits).1 = s'.newBranches ∧
      Agree (addLoop branches s.newBranches hits).2 s'.branchHits := by
  induction branches generalizing i s hits with
  | nil =>
    rw [← (Prod.mk.inj h).1]
    exact ⟨rfl, hs⟩
  | cons branch branches ih =>
    have hbranch := hplain branch List.mem_cons_self
    have hrest : ∀ b ∈ branches, Plain b := fun b hb => hplain b (List.mem_cons_of_mem _ hb)
    have hlookup := hs (endpoints branch)
    rw [hbranch.branchOf_endpoints] at hlookup
    unfold branchLoop at h
    unfold addLoop
    rw [hbranch.not_skipped, if_neg Bool.false_ne_true] at h
    split at h
    · cases (Prod.mk.inj h).2
    · next s₁ hrec =>
      obtain ⟨freed, -, hcount⟩ := recordBranch_cases hrec
      rw [resolve_nil] at hcount
      rcases countHit_cases hcount with ⟨entry, hget, rfl⟩ | ⟨hget, rfl⟩
      · change s.branchHits.lookup (pairKey (endpoints branch)) = some entry at hget
        rw [hget, Option.map_some] at hlookup
        rw [hlookup]
        apply ih hrest _ h
        have hinsert := hs.insert (endpoints branch)
          { entry with value := { entry.value with val := entry.value.val + 1 } }
        rw [hbranch.branchOf_endpoints] at hinsert
        exact hinsert
      · change s.branchHits.lookup (pairKey (endpoints branch)) = none at hget
        rw [hget, Option.map_none] at hlookup
        rw [hlookup]
        apply ih hrest _ h
        have hinsert := hs.insert (endpoints branch) ⟨s.heap + 2, ⟨s.heap + 2 + 1, 1⟩⟩
        rw [hbranch.branchOf_endpoints] at hinsert
        exact hinsert

/-- One list of branches makes the same number of new branches on both sides. -/
theorem add_simulates {env : CallEnv} {trace : List BtsBranch} {m : Monitor} {heap : ℕ}
    {hits : BranchStore} (hsec : m.secBounds = none) (hbbs : m.bbs = [])
    (hplain : ∀ branch ∈ trace, Plain branch) (hm : Agree hits m.branchHits)
    (hret : (processBranches env trace m (callArgs heap)).stop = .returned 0) :
    (processBranches env trace m (callArgs heap)).newBranches = some (hits.add trace).1 ∧
      Agree (hits.add trace).2 (processBranches env trace m (callArgs heap)).branchHits := by
  obtain ⟨s, hloop, hfinish⟩ := processBranches_ok hret
  rw [hfinish] at hret ⊢
  obtain ⟨htable, hnew, -⟩ := finish_ok hret
  rw [hsec, hbbs] at hloop
  obtain ⟨hcount, hagree⟩ := addLoop_simulates hplain hm hloop
  rw [htable, hnew]
  exact ⟨congrArg some hcount.symm, hagree⟩

def addAll : BranchStore → List (List BtsBranch) → List (UInt64 × BranchStore)
  | _, [] => []
  | hits, branches :: rest => hits.add branches :: addAll (hits.add branches).2 rest

/-- The outcome of a call and that of an add: the same count of new branches, and the same
counts held. -/
structure SameCoverage (out : Outcome) (added : UInt64 × BranchStore) : Prop where
  newBranches : out.newBranches = some added.1
  counts : ∀ a b c, added.2.lookup ⟨a, b, 0⟩ = some c ↔
    ∃ entry, out.branchHits.lookup (hashKey a b) = some entry ∧ entry.value.val = c

theorem Agree.sameCoverage {out : Outcome} {added : UInt64 × BranchStore}
    (h : Agree added.2 out.branchHits) (hnew : out.newBranches = some added.1) :
    SameCoverage out added := by
  refine ⟨hnew, fun a b c => ?_⟩
  have hlookup := h (a, b)
  unfold branchOf at hlookup
  rw [hlookup, hashKey_eq, Option.map_eq_some_iff]

theorem runCalls_simulates {m : Monitor} {heap : ℕ} {calls : List Call} {hits : BranchStore}
    (hsec : m.secBounds = none) (hbbs : m.bbs = [])
    (hplain : ∀ call ∈ calls, ∀ branch ∈ call.trace, Plain branch)
    (hm : Agree hits m.branchHits)
    (hret : ∀ out ∈ runCalls m heap calls, out.stop = .returned 0) :
    List.Forall₂ SameCoverage (runCalls m heap calls) (addAll hits (calls.map Call.trace)) := by
  induction calls generalizing m heap hits with
  | nil => exact .nil
  | cons call calls ih =>
    unfold runCalls at hret ⊢
    obtain ⟨hnew, hagree⟩ := add_simulates hsec hbbs (hplain call List.mem_cons_self) hm
      (hret _ List.mem_cons_self)
    refine .cons (hagree.sameCoverage hnew) (ih ?_ ?_ ?_ hagree ?_)
    · exact hsec
    · exact hbbs
    · exact fun c hc => hplain c (List.mem_cons_of_mem _ hc)
    · exact fun out hout => hret out (List.mem_cons_of_mem _ hout)

/-- The two coverage stores agree after every list: BranchStore::add counts the same new
branches as process_branches, and holds the counts that branch_hits holds. -/
theorem stores_agree (m : Monitor) (heap : ℕ) (calls : List Call) (hempty : m.branchHits = ∅)
    (hsec : m.secBounds = none) (hbbs : m.bbs = [])
    (hplain : ∀ call ∈ calls, ∀ branch ∈ call.trace, Plain branch)
    (hret : ∀ out ∈ runCalls m heap calls, out.stop = .returned 0) :
    List.Forall₂ SameCoverage (runCalls m heap calls) (addAll ∅ (calls.map Call.trace)) := by
  apply runCalls_simulates hsec hbbs hplain _ hret
  rw [hempty]
  exact agree_empty

def plainMonitor : Monitor := ⟨∅, none, [], some "graphs".toList, 0⟩

def plainCalls : List Call :=
  [⟨.succeed, [⟨0, 80, 0⟩, ⟨17, 80, 0⟩, ⟨0, 80, 0⟩]⟩, ⟨.succeed, [⟨17, 80, 0⟩, ⟨80, 0, 0⟩]⟩]

theorem stores_agree_plainCalls :
    List.Forall₂ SameCoverage (runCalls plainMonitor 0 plainCalls)
      (addAll ∅ (plainCalls.map Call.trace)) := by
  apply stores_agree plainMonitor 0 plainCalls rfl rfl rfl
  · unfold Plain
    decide
  · exact runCalls_succeed plainMonitor 0 plainCalls (by simp [plainCalls])

end FuzzMonitor.RustMonitor
