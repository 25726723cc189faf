import FuzzMonitor.RustStart
import FuzzMonitor.SectionAddress

namespace FuzzMonitor.RustMonitor
open CStrings Sections

structure FuzzMonitorOptions where
  tool : MonitoringTool
  sut : List CText
  deriving DecidableEq, Repr

def toolFlag (arg : CText) : Option MonitoringTool :=
  if arg = "-p".toList then some .perf
  else if arg = "-q".toList then some .qemu
  else if arg = "-c".toList then some .cPerf
  else none

def sutMark : CText := "--".toList

def argStep (s : FuzzMonitorOptions × Bool) (arg : CText) : FuzzMonitorOptions × Bool :=
  if s.2 = true then ({ s.1 with sut := s.1.sut ++ [arg] }, true)
  else
    match toolFlag arg with
    | some tool => ({ s.1 with tool := tool }, false)
    | none => if arg = sutMark then (s.1, true) else s

/-- from_args, on all the words of the command line; none is the usage. -/
def fromArgs (args : List CText) : Option FuzzMonitorOptions :=
  let options := (args.foldl argStep (⟨.perf, []⟩, false)).1
  if options.sut = [] then none else some options

/-- How main ends, or the loop of start that it has come to, in which it runs a command. -/
inductive RustRun
  | usage
  | panicked
  | looping (sut : List CText) (s : Start)

/-- main: words gives what objdump and awk leave of a section of a binary, zmq tells whether the
socket is bound. -/
def rustMain (words : CText → CText → List CText) (zmq : Bool) (args : List CText)
    (rs : List Turn) : RustRun :=
  match fromArgs args with
  | none => .usage
  | some ⟨tool, sut⟩ =>
    if !zmq then .panicked
    else
      match getSectionAddress (sectionAddress (words (sut.headD []) ".text".toList)) with
      | some (some (secStart, secEnd)) => .looping sut (start tool secStart secEnd rs)
      | _ => .panicked

theorem foldl_argStep_sut (tool : MonitoringTool) (sut args : List CText) :
    args.foldl argStep (⟨tool, sut⟩, true) = (⟨tool, sut ++ args⟩, true) := by
  induction args generalizing sut with
  | nil => rw [List.append_nil]; rfl
  | cons arg args ih =>
    rw [List.foldl_cons]
    have hstep : argStep (⟨tool, sut⟩, true) arg = (⟨tool, sut ++ [arg]⟩, true) := rfl
    rw [hstep, ih, List.append_assoc]
    rfl

/-- In front of the mark the last option for a tool counts. -/
theorem foldl_argStep_tool {args : List CText} (h : sutMark ∉ args) (tool : MonitoringTool) :
    args.foldl argStep (⟨tool, []⟩, false) =
      (⟨((args.filterMap toolFlag).getLast?).getD tool, []⟩, false) := by
  induction args generalizing tool with
  | nil => rfl
  | cons arg args ih =>
    rw [List.mem_cons, not_or] at h
    rw [List.foldl_cons, List.filterMap_cons]
    cases hflag : toolFlag arg with
    | some tool' =>
      have hstep : argStep (⟨tool, []⟩, false) arg = (⟨tool', []⟩, false) := by
        unfold argStep
        rw [if_neg Bool.false_ne_true, hflag]
      rw [hstep, ih h.2]
      cases hlast : (args.filterMap toolFlag).getLast? with
      | none =>
        rw [List.getLast?_eq_none_iff.mp hlast]
        rfl
      | some last =>
        rw [List.getLast?_cons, hlast]
        rfl
    | none =>
      have hstep : argStep (⟨tool, []⟩, false) arg = (⟨tool, []⟩, false) := by
        unfold argStep
        rw [if_neg Bool.false_ne_true, hflag, if_neg (Ne.symm h.1)]
      rw [hstep, ih h.2]

theorem fromArgs_mark {before : List CText} (h : sutMark ∉ before) (sut : List CText) :
    fromArgs (before ++ sutMark :: sut) =
      if sut = [] then none
      else some ⟨((before.filterMap toolFlag).getLast?).getD .perf, sut⟩ := by
  have hmark : ∀ tool, argStep (⟨tool, []⟩, false) sutMark = (⟨tool, []⟩, true) := fun tool => rfl
  unfold fromArgs
  rw [List.foldl_append, foldl_argStep_tool h, List.foldl_cons, hmark, foldl_argStep_sut,
    List.nil_append]

/-- The command is what stands behind the first mark, and must not be empty; the tool is the last
one that is named in front of it, or perf. -/
theorem fromArgs_iff (args : List CText) (tool : MonitoringTool) (sut : List CText) :
    fromArgs args = some ⟨tool, sut⟩ ↔
      ∃ before, args = before ++ sutMark :: sut ∧ sutMark ∉ before ∧ sut ≠ [] ∧
        tool = ((before.filterMap toolFlag).getLast?).getD .perf := by
  constructor
  · intro h
    by_cases hmem : sutMark ∈ args
    · obtain ⟨before, sut', rfl, hfirst⟩ := List.eq_append_cons_of_mem hmem
      rw [fromArgs_mark hfirst] at h
      split_ifs at h with hsut
      cases h
      exact ⟨before, rfl, hfirst, hsut, rfl⟩
    -- without a mark no word belongs to the command
    · unfold fromArgs at h
      rw [foldl_argStep_tool hmem] at h
      contradiction
  · rintro ⟨before, rfl, hfirst, hsut, rfl⟩
    rw [fromArgs_mark hfirst, if_neg hsut]

example : fromArgs ["fuzz-monitor".toList, "-q".toList, "-c".toList, "--".toList, "./sut".toList,
    "-p".toList] = some ⟨.cPerf, ["./sut".toList, "-p".toList]⟩ := by decide

/-- The Rust program monitors all that stands behind the mark with the last tool that is named in
front of it, and with the bounds that section_find makes of the header of the text of the target, as
long as both are below 2^63; else it panics in front of its loop. -/
theorem rustMain_runs (words : CText → CText → List CText) {before : List CText} (bin : CText)
    (rest : List CText) (sh : ElfShdr) {name address size : CText} (rs : List Turn)
    (hfirst : sutMark ∉ before) (hwords : words bin ".text".toList = [name, address, size])
    (hname : Unbroken name) (haddress : address ≠ []) (hsize : size ≠ [])
    (hshAddr : hexValue 0 address = some sh.shAddr.toNat)
    (hshSize : hexValue 0 size = some sh.shSize.toNat) :
    rustMain words true (before ++ sutMark :: bin :: rest) rs =
      if (boundsOf sh).secStart.toNat < 2 ^ 63 ∧ (boundsOf sh).secEnd.toNat < 2 ^ 63 then
        .looping (bin :: rest) (start (((before.filterMap toolFlag).getLast?).getD .perf)
          (boundsOf sh).secStart (boundsOf sh).secEnd rs)
      else .panicked := by
  obtain ⟨out, hscript, hbounds⟩ :=
    getSectionAddress_bounds sh hname haddress hsize hshAddr hshSize
  unfold rustMain
  rw [fromArgs_mark hfirst, if_neg (List.cons_ne_nil _ _)]
  dsimp only [List.headD_cons]
  rw [hwords, hscript, hbounds]
  by_cases hlow : (boundsOf sh).secStart.toNat < 2 ^ 63 ∧ (boundsOf sh).secEnd.toNat < 2 ^ 63
  · rw [if_pos hlow, if_pos hlow]
    rfl
  · rw [if_neg hlow, if_neg hlow]
    rfl

def sampleWords (_ sect : CText) : List CText :=
  [sect, "0000000000001040".toList, "00000165".toList]

theorem rustMain_runs_sampleWords :
    rustMain sampleWords true ["fuzz-monitor".toList, "-c".toList, sutMark, "./sut".toList]
      sampleReceived =
        .looping ["./sut".toList] (start .cPerf 0x1040 0x11a5 sampleReceived) := by
  have hfirst : sutMark ∉ ["fuzz-monitor".toList, "-c".toList] := by decide
  have hname : Unbroken ".text".toList := by
    unfold Unbroken
    simp
  exact rustMain_runs sampleWords "./sut".toList [] ⟨0, 0x1040, 0, 0x165⟩ sampleReceived hfirst rfl
    hname (by decide) (by decide) (by decide) (by decide)

end FuzzMonitor.RustMonitor
