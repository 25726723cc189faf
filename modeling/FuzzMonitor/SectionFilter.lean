import FuzzMonitor.Coverage

namespace FuzzMonitor.Branches
open CStrings Sections Tally

def inSection (sh : ElfShdr) (x : UInt64) : Bool :=
  decide (sh.shAddr.toNat ≤ x.toNat ∧ x.toNat < sh.shAddr.toNat + sh.shSize.toNat)

def inside (sh : ElfShdr) (branch : BtsBranch) : Bool :=
  decide (branch.from ≤ 0xFFFFFFFF00000000 ∧ branch.to ≤ 0xFFFFFFFF00000000) &&
    (inSection sh branch.from && inSection sh branch.to)

def touchesEnd (sh : ElfShdr) (branch : BtsBranch) : Bool :=
  decide (branch.from = sh.shAddr + sh.shSize ∨ branch.to = sh.shAddr + sh.shSize)

theorem inside_eq (sh : ElfShdr) (hwrap : sh.shAddr.toNat + sh.shSize.toNat < 2 ^ 64)
    (branch : BtsBranch) :
    inside sh branch = (!skipped (some (boundsOf sh)) branch && !touchesEnd sh branch) := by
  have hend : (sh.shAddr + sh.shSize).toNat = sh.shAddr.toNat + sh.shSize.toNat := by
    rw [UInt64.toNat_add, Nat.mod_eq_of_lt hwrap]
  rw [Bool.eq_iff_iff]
  simp only [inside, inSection, skipped, touchesEnd, boundsOf, Bool.and_eq_true,
    Bool.not_eq_true', Bool.or_eq_false_iff, decide_eq_true_eq, decide_eq_false_iff_not, gt_iff_lt,
    UInt64.lt_iff_toNat_lt, UInt64.le_iff_toNat_le, ← UInt64.toNat_inj, hend]
  omega

theorem filter_inside_length_iff (sh : ElfShdr)
    (hwrap : sh.shAddr.toNat + sh.shSize.toNat < 2 ^ 64) (trace : List BtsBranch) :
    (trace.filter fun b => !skipped (some (boundsOf sh)) b).length =
        (trace.filter (inside sh)).length ↔
      ∀ branch ∈ trace, skipped (some (boundsOf sh)) branch = false →
        touchesEnd sh branch = false := by
  have hfilter : trace.filter (inside sh) =
      (trace.filter fun b => !skipped (some (boundsOf sh)) b).filter
        fun b => !touchesEnd sh b := by
    rw [List.filter_filter]
    apply List.filter_congr
    intro b _
    rw [inside_eq sh hwrap, Bool.and_comm]
  rw [hfilter, eq_comm, List.length_filter_eq_length_iff]
  simp only [List.mem_filter, Bool.not_eq_true', and_imp]

/-- A call counts and records the inside branches of the section that section_find found
exactly when no branch that passes the filter touches the end of the section. -/
theorem sectionFilter_exact_iff (shStr secName : CText) (shTbl : List ElfShdr)
    (bounds : SectionBounds) (sh : ElfShdr) (m : Monitor) (env : CallEnv)
    (trace : List BtsBranch) (heap : ℕ) (hist : List (UInt64 × UInt64))
    (hfound : (shTbl.find? fun sh => (strstr (shName shStr sh) secName).isSome) = some sh)
    (hwrap : sh.shAddr.toNat + sh.shSize.toNat < 2 ^ 64)
    (hsec : m.secBounds = some (findLoop shStr secName shTbl bounds).2)
    (hm : Tallies hits m.branchHits (hist.map pairKey))
    (hlen : hist.length + trace.length < 2 ^ 64)
    (hret : (processBranches env trace m (callArgs heap)).stop = .returned 0) :
    ((processBranches env trace m (callArgs heap)).filteredCount.map UInt64.toNat =
        some (trace.filter (inside sh)).length ∧
      Tallies hits (processBranches env trace m (callArgs heap)).branchHits
        ((hist ++ (trace.filter (inside sh)).map (resolve m.bbs)).map pairKey)) ↔
    ∀ branch ∈ trace, skipped m.secBounds branch = false → touchesEnd sh branch = false := by
  have hbounds : m.secBounds = some (boundsOf sh) := by
    rw [hsec, findLoop_eq, hfound]
  obtain ⟨s, hs, htable, -, hfiltered⟩ := processBranches_counted hm hlen hret
  have hcount := hs.filtered
  have htally := hs.tallies
  unfold recorded at hcount htally
  rw [hbounds] at hcount htally
  rw [List.length_map] at hcount
  rw [htable, hfiltered, hbounds, Option.map_some, hcount, Option.some_inj,
    filter_inside_length_iff sh hwrap]
  apply and_iff_left_of_imp
  intro hend
  have hsame : trace.filter (inside sh) =
      trace.filter fun b => !skipped (some (boundsOf sh)) b := by
    apply List.filter_congr
    intro b hb
    rw [inside_eq sh hwrap]
    cases hskip : skipped (some (boundsOf sh)) b with
    | true => rfl
    | false => rw [hend b hb hskip]; rfl
  rw [hsame]
  exact htally

def sampleShTbl : List ElfShdr := [⟨0, 0, 0, 0⟩, ⟨1, 0x1000, 0, 0x100⟩]

def sampleShStr : CText := "\x00.text\x00".toList

def sectionMonitor : Monitor :=
  ⟨∅, some (findLoop sampleShStr ".text".toList sampleShTbl ⟨0, 0⟩).2, [], some "graphs".toList, 0⟩

theorem sectionFilter_exact_sample :
    (processBranches .succeed [⟨0x1000, 0x10ff, 0⟩] sectionMonitor (callArgs 0)).filteredCount.map
      UInt64.toNat = some 1 :=
  ((sectionFilter_exact_iff sampleShStr ".text".toList sampleShTbl ⟨0, 0⟩
    ⟨1, 0x1000, 0, 0x100⟩ sectionMonitor .succeed [⟨0x1000, 0x10ff, 0⟩] 0 [] (by decide)
    (by decide) rfl (tallies_empty hits) (by decide) (by decide)).mpr (by decide)).1

/-- A jump to the first byte behind the section is counted. -/
theorem sectionFilter_counts_end :
    (findLoop sampleShStr ".text".toList sampleShTbl ⟨0, 0⟩).2 =
        boundsOf ⟨1, 0x1000, 0, 0x100⟩ ∧
    (processBranches .succeed [⟨0x1000, 0x1100, 0⟩] sectionMonitor (callArgs 0)).filteredCount =
        some 1 ∧
    inside ⟨1, 0x1000, 0, 0x100⟩ ⟨0x1000, 0x1100, 0⟩ = false := by
  decide

end FuzzMonitor.Branches
