import FuzzMonitor.Coverage
import FuzzMonitor.Trace2

namespace FuzzMonitor.RustMonitor
open CStrings Branches PerfTool Trace2

abbrev BranchStore := Tally.Table BtsBranch UInt64

/-- The loop of BranchStore::add; its counts wrap as in the release build. -/
def addLoop : List BtsBranch → UInt64 → BranchStore → UInt64 × BranchStore
  | [], new, hits => (new, hits)
  | branch :: branches, new, hits =>
    match hits.lookup branch with
    | some entry => addLoop branches new (hits.insert branch (entry + 1))
    | none => addLoop branches (new + 1) (hits.insert branch 1)

def BranchStore.add (hits : BranchStore) (branches : List BtsBranch) : UInt64 × BranchStore :=
  addLoop branches 0 hits

def retains (secStart secEnd : UInt64) (bts : BtsBranch) : Bool :=
  decide ((bts.from ≥ secStart ∧ bts.from ≤ secEnd) ∨ (bts.to ≥ secStart ∧ bts.to ≤ secEnd))

/-- The trace that is left of perf's output; none is a panic. -/
def retained (perfOut : CText) (secStart secEnd : UInt64) : Option (List BtsBranch) :=
  (parseOutput perfOut).map fun trace => trace.filter (retains secStart secEnd)

def trace (perfOut : CText) (secStart secEnd : UInt64) (store : BranchStore) :
    Option (UInt64 × UInt64 × BranchStore) :=
  (retained perfOut secStart secEnd).map fun trace =>
    (UInt64.ofNat trace.length, store.add trace)

def endpoints (branch : BtsBranch) : UInt64 × UInt64 := (branch.from, branch.to)

/-- The branches that process_branches counts in filtered_count. -/
def counted (secBounds : Option SectionBounds) (trace : List BtsBranch) : List BtsBranch :=
  trace.filter fun branch => !skipped secBounds branch

def inBounds (sec : SectionBounds) (x : UInt64) : Bool := decide (sec.secStart ≤ x ∧ x ≤ sec.secEnd)

theorem recordBranch_filteredCount {bbs : List BasicBlock} {env : BranchEnv} {branch : BtsBranch}
    {s s' : Branches.LoopState} (h : recordBranch bbs env branch s = (s', none)) :
    s'.filteredCount = s.filteredCount + 1 := by
  obtain ⟨freed, -, hcount⟩ := recordBranch_cases h
  rcases countHit_cases hcount with ⟨entry, -, rfl⟩ | ⟨-, rfl⟩ <;> rfl

theorem branchLoop_filteredCount {secBounds : Option SectionBounds} {bbs : List BasicBlock}
    {env : ℕ → BranchEnv} {i : ℕ} {trace : List BtsBranch} {s s' : Branches.LoopState}
    (h : branchLoop secBounds bbs env i trace s = (s', none)) :
    s'.filteredCount = s.filteredCount + UInt64.ofNat (counted secBounds trace).length := by
  have hlen : (recorded secBounds bbs trace).length = (counted secBounds trace).length :=
    List.length_map _
  have hstep : ∀ i branch new s₁ s₂, s₁.filteredCount =
      s.filteredCount + UInt64.ofNat new.length →
      recordBranch bbs (env i) branch s₁ = (s₂, none) → s₂.filteredCount =
        s.filteredCount + UInt64.ofNat (new ++ [resolve bbs branch]).length := by
    intro i branch new s₁ s₂ hs hrec
    rw [recordBranch_filteredCount hrec, hs, List.length_append, List.length_singleton,
      UInt64.ofNat_add, UInt64.add_assoc]
    rfl
  have hstart : s.filteredCount =
      s.filteredCount + UInt64.ofNat ([] : List (UInt64 × UInt64)).length :=
    (UInt64.add_zero _).symm
  have hall := branchLoop_keeps
    (I := fun new s₁ => s₁.filteredCount = s.filteredCount + UInt64.ofNat new.length)
    hstep hstart h
  rw [List.nil_append, hlen] at hall
  exact hall

theorem filteredCount_eq_counted {env : CallEnv} {trace : List BtsBranch} {m : Monitor} {heap : ℕ}
    (h : (processBranches env trace m (callArgs heap)).stop = .returned 0) :
    (processBranches env trace m (callArgs heap)).filteredCount =
      some (UInt64.ofNat (counted m.secBounds trace).length) := by
  obtain ⟨s, hloop, hfinish⟩ := processBranches_ok h
  rw [hfinish] at h ⊢
  rw [(finish_ok h).2.2, branchLoop_filteredCount hloop]
  exact congrArg some (UInt64.zero_add _)

/-- process_branches counts a branch when both of its ends are inside, retain keeps it when
one of them is. -/
theorem skipped_eq (sec : SectionBounds) (br : BtsBranch) :
    (!skipped (some sec) br) = (!leftOut br && (inBounds sec br.from && inBounds sec br.to)) := by
  rw [Bool.eq_iff_iff]
  simp only [skipped, leftOut, inBounds, Bool.and_eq_true, Bool.not_eq_true',
    Bool.or_eq_false_iff, decide_eq_true_eq, decide_eq_false_iff_not, gt_iff_lt, not_or,
    UInt64.not_lt]

theorem retains_eq (sec : SectionBounds) (br : BtsBranch) :
    retains sec.secStart sec.secEnd br = (inBounds sec br.from || inBounds sec br.to) := by
  unfold retains inBounds
  rw [Bool.decide_or]

theorem retained_eq (records : List BtsBranch) (sec : SectionBounds) :
    (retained (printBranches .machine records) sec.secStart sec.secEnd).map (List.map endpoints) =
      some (((records.filter fun br => !leftOut br).filter fun br =>
        inBounds sec br.from || inBounds sec br.to).map endpoints) := by
  unfold retained
  rw [parseOutput_printBranches, Option.map_some, Option.map_some, List.filter_map, List.map_map]
  congr 2
  apply List.filter_congr
  intro br _
  exact retains_eq sec _

/-- The two lists of pairs agree exactly when no printed branch has one end inside only. -/
theorem filters_agree_iff (records : List BtsBranch) (sec : SectionBounds) :
    (retained (printBranches .machine records) sec.secStart sec.secEnd).map (List.map endpoints) =
        some ((counted (some sec) records).map endpoints) ↔
      ∀ br ∈ records, leftOut br = false → inBounds sec br.from = inBounds sec br.to := by
  have hcounted : counted (some sec) records =
      ((records.filter fun br => !leftOut br).filter fun br =>
        inBounds sec br.from || inBounds sec br.to).filter fun br =>
          inBounds sec br.from && inBounds sec br.to := by
    unfold counted
    rw [List.filter_filter, List.filter_filter]
    apply List.filter_congr
    intro br _
    rw [skipped_eq]
    cases inBounds sec br.from <;> cases inBounds sec br.to <;> simp
  rw [retained_eq, hcounted, Option.some_inj]
  have hmem : ∀ br, br ∈ (records.filter fun br => !leftOut br).filter (fun br =>
      inBounds sec br.from || inBounds sec br.to) ↔
      br ∈ records ∧ leftOut br = false ∧ (inBounds sec br.from || inBounds sec br.to) = true := by
    intro br
    rw [List.mem_filter, List.mem_filter, Bool.not_eq_true', and_assoc]
  constructor
  · intro h br hbr hprinted
    have hlen := congrArg List.length h
    rw [List.length_map, List.length_map, eq_comm, List.length_filter_eq_length_iff] at hlen
    have hboth : (inBounds sec br.from || inBounds sec br.to) = true →
        (inBounds sec br.from && inBounds sec br.to) = true :=
      fun hone => hlen br ((hmem br).mpr ⟨hbr, hprinted, hone⟩)
    revert hboth
    cases inBounds sec br.from <;> cases inBounds sec br.to <;> simp
  · intro h
    congr 1
    symm
    rw [List.filter_eq_self]
    intro br hbr
    obtain ⟨hrecord, hprinted, hone⟩ := (hmem br).mp hbr
    rw [h br hrecord hprinted, Bool.or_self] at hone
    rw [h br hrecord hprinted, Bool.and_self, hone]

/-- A jump out of the section: retain keeps it, and process_branches does not count it. -/
theorem filters_disagree :
    (retained (printBranches .machine [⟨0x1000, 0x5000, 0⟩]) 0x1000 0x2000).map
        (List.map endpoints) = some [(0x1000, 0x5000)] ∧
      (counted (some ⟨0x1000, 0x2000⟩) [⟨0x1000, 0x5000, 0⟩]).map endpoints = [] := by
  constructor
  · exact retained_eq [⟨0x1000, 0x5000, 0⟩] ⟨0x1000, 0x2000⟩
  · decide

end FuzzMonitor.RustMonitor
