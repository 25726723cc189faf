import FuzzMonitor.PerfTool

namespace FuzzMonitor.Trace2
open CStrings PerfTool

/-- A carriage return before the newline belongs to the line ending. -/
def stripCr (line : CText) : CText := if line.getLast? = some '\r' then line.dropLast else line

/-- str::lines: the last line may lack its newline, and then keeps a carriage return. -/
def lines (text : CText) : List CText :=
  let pieces := text.splitOn '\n'
  pieces.dropLast.map stripCr ++ (pieces.getLast?.toList.filter (· ≠ []))

/-- u64::from_str_radix in base 10: an optional plus, then digits; none is an error. -/
def fromStrRadix (s : CText) : Option UInt64 :=
  let digits := if s.head? = some '+' then s.tail else s
  if digits = [] ∨ ¬digits.all Char.isDigit then none
  else if Nat.ofDigitChars 10 digits 0 < 2 ^ 64 then some (UInt64.ofNat (Nat.ofDigitChars 10 digits 0))
  else none

/-- The branch that a line names; none is a panic. -/
def parseBranch (line : CText) : Option BtsBranch := do
  let splitted := line.splitOn ','
  let splittedFst ← splitted[1]?
  let splittedSnd ← splitted[2]?
  let «from» ← fromStrRadix splittedFst
  let «to» ← fromStrRadix splittedSnd
  return ⟨«from», «to», 0⟩

def parseLines : List CText → Option (List BtsBranch)
  | [] => some []
  | line :: rest =>
    if "branch".toList.isPrefixOf line then do
      let branch ← parseBranch line
      let branches ← parseLines rest
      return branch :: branches
    else parseLines rest

/-- The branches that trace2 makes of perf's standard output, which is text without any
character beyond ASCII. -/
def parseOutput (perfOut : CText) : Option (List BtsBranch) := parseLines (lines perfOut)

theorem flatMap_newline (ls : List CText) :
    (ls.flatMap fun l => l ++ ['\n']) = ['\n'].intercalate (ls ++ [[]]) := by
  induction ls with
  | nil => rfl
  | cons l ls ih =>
    rw [List.flatMap_cons, ih, List.append_assoc]
    cases ls with
    | nil => simp [List.intercalate]
    | cons l' ls => simp [List.intercalate]

theorem lines_flatMap {ls : List CText} (hls : ∀ l ∈ ls, '\n' ∉ l ∧ l.getLast? ≠ some '\r') :
    lines (ls.flatMap fun l => l ++ ['\n']) = ls := by
  have hsplit : (ls.flatMap fun l => l ++ ['\n']).splitOn '\n' = ls ++ [[]] := by
    rw [flatMap_newline]
    apply List.splitOn_intercalate
    · intro l hl
      rcases List.mem_append.mp hl with hl | hl
      · exact (hls l hl).1
      · simp [List.mem_singleton.mp hl]
    · simp
  have hstrip : ls.map stripCr = ls := by
    refine (List.map_congr_left fun l hl => ?_).trans (List.map_id ls)
    unfold stripCr
    rw [if_neg (hls l hl).2]
    rfl
  unfold lines
  rw [hsplit]
  simp [hstrip]

theorem fromStrRadix_decimal (n : UInt64) : fromStrRadix (decimal n) = some n := by
  have hdigits : (decimal n).all Char.isDigit = true :=
    List.all_eq_true.mpr fun c hc => decimal_isDigit hc
  have hplus : (decimal n).head? ≠ some '+' := by
    intro h
    have hc := decimal_isDigit (List.mem_of_mem_head? h)
    contradiction
  have hvalue : Nat.ofDigitChars 10 (decimal n) 0 = n.toNat := by
    unfold decimal
    exact Nat.ofDigitChars_ten_toDigits
  unfold fromStrRadix
  rw [if_neg hplus]
  simp only [decimal_ne_nil, hdigits, hvalue, n.toNat_lt]
  simp

theorem comma_notMem_decimal (n : UInt64) : ',' ∉ decimal n := by
  intro h
  have := decimal_isDigit h
  contradiction

theorem branchMessage_eq (br : BtsBranch) :
    branchMessage br = "branch".toList ++ ',' :: (decimal br.from ++ ',' :: decimal br.to) := by
  have hword : "branch,".toList = "branch".toList ++ [','] := by decide
  unfold branchMessage
  rw [hword, List.append_assoc, List.append_assoc, List.singleton_append]

theorem parseBranch_branchMessage (br : BtsBranch) :
    parseBranch (branchMessage br) = some ⟨br.from, br.to, 0⟩ := by
  have hfields : branchMessage br =
      [','].intercalate ["branch".toList, decimal br.from, decimal br.to] := by
    rw [branchMessage_eq, List.intercalate_cons_cons, List.intercalate_cons_cons,
      List.intercalate_singleton]
    simp only [List.append_assoc, List.singleton_append]
  have hsplit : (branchMessage br).splitOn ',' =
      ["branch".toList, decimal br.from, decimal br.to] := by
    rw [hfields]
    apply List.splitOn_intercalate
    · simp [comma_notMem_decimal]
    · simp
  unfold parseBranch
  rw [hsplit]
  simp [fromStrRadix_decimal]

/-- Lines that main printed are read back one by one. -/
theorem parseLines_branchMessages (brs : List BtsBranch) :
    parseLines (brs.map branchMessage) = some (brs.map fun br => ⟨br.from, br.to, 0⟩) := by
  induction brs with
  | nil => rfl
  | cons br brs ih =>
    have hprefix : "branch".toList.isPrefixOf (branchMessage br) = true := by
      rw [List.isPrefixOf_iff_prefix, branchMessage_eq]
      exact List.prefix_append _ _
    rw [List.map_cons, parseLines, if_pos hprefix, parseBranch_branchMessage, ih]
    rfl

theorem mem_branchMessage {br : BtsBranch} {c : Char} (h : c ∈ branchMessage br) :
    c ∈ "branch,".toList ∨ c.isDigit := by
  unfold branchMessage at h
  rcases List.mem_append.mp h with h | h
  · rcases List.mem_append.mp h with h | h
    · exact .inl h
    · exact .inr (decimal_isDigit h)
  · rcases List.mem_cons.mp h with rfl | h
    · exact .inl (by decide)
    · exact .inr (decimal_isDigit h)

theorem branchMessage_plain (br : BtsBranch) :
    '\n' ∉ branchMessage br ∧ (branchMessage br).getLast? ≠ some '\r' ∧
      ∀ c ∈ branchMessage br, c.toNat < 128 := by
  refine ⟨fun h => ?_, fun h => ?_, fun c h => ?_⟩
  · rcases mem_branchMessage h with h | h
    · exact absurd h (by decide)
    · exact absurd h (by decide)
  · rcases mem_branchMessage (List.mem_of_getLast? h) with h | h
    · exact absurd h (by decide)
    · exact absurd h (by decide)
  · rcases mem_branchMessage h with h | h
    · have hletters : ∀ c ∈ "branch,".toList, c.toNat < 128 := by simp
      exact hletters c h
    · have hle : c ≤ '9' := by
        simp only [Char.isDigit, Bool.and_eq_true, decide_eq_true_eq] at h
        exact h.2
      exact lt_of_le_of_lt (UInt32.le_iff_toNat_le.mp hle) (by decide)

theorem parseOutput_printBranches (records : List BtsBranch) :
    parseOutput (printBranches .machine records) =
      some ((records.filter fun br => !leftOut br).map fun br => ⟨br.from, br.to, 0⟩) := by
  unfold parseOutput
  rw [printBranches_machine, lines_flatMap]
  · exact parseLines_branchMessages _
  · intro l hl
    obtain ⟨br, -, rfl⟩ := List.mem_map.mp hl
    exact ⟨(branchMessage_plain br).1, (branchMessage_plain br).2.1⟩

theorem printBranches_ascii (records : List BtsBranch) :
    ∀ c ∈ printBranches .machine records, c.toNat < 128 := by
  intro c hc
  rw [printBranches_machine] at hc
  obtain ⟨l, hl, hc⟩ := List.mem_flatMap.mp hc
  obtain ⟨br, -, rfl⟩ := List.mem_map.mp hl
  rcases List.mem_append.mp hc with hc | hc
  · exact (branchMessage_plain br).2.2 c hc
  · rw [List.mem_singleton.mp hc]
    decide

/-- The output is ASCII text, of which trace2 makes exactly the branches that have no kernel
address, in order and without their misc. -/
theorem machine_roundtrip (records : List BtsBranch) :
    (∀ c ∈ printBranches .machine records, c.toNat < 128) ∧
      parseOutput (printBranches .machine records) =
        some ((records.filter fun br => decide (br.from ≤ 0xFFFFFFFF00000000 ∧
          br.to ≤ 0xFFFFFFFF00000000)).map fun br => ⟨br.from, br.to, 0⟩) := by
  refine ⟨printBranches_ascii records, ?_⟩
  rw [parseOutput_printBranches]
  congr 2
  apply List.filter_congr
  intro br _
  unfold leftOut
  rw [← decide_not]
  congr 1
  rw [not_or, gt_iff_lt, gt_iff_lt, UInt64.not_lt, UInt64.not_lt]

end FuzzMonitor.Trace2
