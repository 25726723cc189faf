import FuzzMonitor.LoopReport

namespace FuzzMonitor.MonitorLoop
open CStrings Inotify Branches Perf PerfTool Tally Runs FuzzMonitor.Graph

def Handled.pairs (conf : LoopConf) (m : Monitor) (h : Handled) : List (UInt64 × UInt64) :=
  recorded m.secBounds m.bbs (h.trace conf)

/-- The depths at which sources lie behind sources of a graph, and 0. -/
def ReportedDepths (added : List (UInt64 × UInt64)) : Set ℕ :=
  {x | x = 0 ∨ ∃ a, Source added a ∧ x ∈ Depths added a}

/-- What the line for an input says about it and the inputs before it. -/
structure Row (conf : LoopConf) (m : Monitor) (earlier : List Handled) (one : Handled)
    (line : Report) : Prop where
  fromCorpus : line.fromCorpus = one.input.fromCorpus
  count : line.count = .ofNat (one.trace conf).length
  filteredCount : line.filteredCount.toNat = (one.pairs conf m).length
  newBranches : line.newBranches.toNat =
    ((one.pairs conf m).toFinset \ (earlier.flatMap (Handled.pairs conf m)).toFinset).card
  depth : ∃ D, line.depth = .ofNat D ∧ IsGreatest (ReportedDepths (one.pairs conf m)) D
  seenInputsValue : line.seenInputsValue.toNat =
    ((earlier ++ [one]).map fun h => h.input.hash).count one.input.hash

inductive Rows (conf : LoopConf) (m : Monitor) : List Handled → List Report → Prop
  | nil : Rows conf m [] []
  | concat {earlier : List Handled} {lines : List Report} (h : Rows conf m earlier lines)
      {one : Handled} {line : Report} (hrow : Row conf m earlier one line) :
      Rows conf m (earlier ++ [one]) (lines ++ [line])

theorem Rows.length_eq {conf : LoopConf} {m : Monitor} {handled : List Handled}
    {lines : List Report} (h : Rows conf m handled lines) : handled.length = lines.length := by
  induction h with
  | nil => rfl
  | concat _ _ ih => rw [List.length_append, List.length_append, ih]; rfl

theorem Rows.row {conf : LoopConf} {m : Monitor} {handled : List Handled} {lines : List Report}
    (h : Rows conf m handled lines) {before after : List Report} {line : Report}
    (hlines : lines = before ++ line :: after) :
    ∃ earlier one later, handled = earlier ++ one :: later ∧ earlier.length = before.length ∧
      Row conf m earlier one line := by
  induction h generalizing after with
  | nil => exact absurd hlines.symm (by simp)
  | @concat earlier lines h one last hrow ih =>
    rcases List.eq_nil_or_concat' after with rfl | ⟨after, other, rfl⟩
    · obtain ⟨rfl, hsame⟩ := List.append_inj' hlines rfl
      obtain ⟨rfl, -⟩ := List.cons_eq_cons.mp hsame
      exact ⟨earlier, one, [], rfl, h.length_eq, hrow⟩
    · rw [← List.cons_append, ← List.append_assoc] at hlines
      obtain ⟨front, x, later, rfl, hlen, hx⟩ := ih (List.append_inj' hlines rfl).1
      exact ⟨front, x, later ++ [one], by simp, hlen, hx⟩

end FuzzMonitor.MonitorLoop
