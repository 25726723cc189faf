import FuzzMonitor.DepthConn
import FuzzMonitor.FreeHashtable

namespace FuzzMonitor.Branches
open CStrings FuzzMonitor.Graph

/-- The allocating calls of the library never report the two codes that graph.h reuses. -/
def Documented (env : AddEnv) : Prop :=
  ∀ stat ∈ [env.listNew, env.listAdd, env.nodesAdd, env.edgesAdd],
    stat ≠ .graphFromExists ∧ stat ≠ .graphBothExist

instance (env : AddEnv) : Decidable (Documented env) := inferInstanceAs (Decidable (∀ _ ∈ _, _))

theorem documented_succeed : Documented .succeed := by decide

theorem freeCells_accepts {stat : CcStat} {fromBb toBb : Cell} {freed freed' : List ℕ}
    (h : freeCells stat fromBb toBb freed = some freed') :
    stat = .graphBothExist ∨ stat = .graphFromExists ∨ stat = .ok := by
  unfold freeCells at h
  split_ifs at h with hboth hfrom hok
  · exact .inl hboth
  · exact .inr (.inl hfrom)
  · exact .inr (.inr hok)

/-- An answer of graph_add that the loop accepts is that of a graph_add that succeeds. -/
theorem graphAdd_accepted {env : AddEnv} (henv : Documented env) {g : Graph} {fromBb toBb : Cell}
    (h : (g.graphAdd env fromBb toBb).1 = .graphBothExist ∨
      (g.graphAdd env fromBb toBb).1 = .graphFromExists ∨ (g.graphAdd env fromBb toBb).1 = .ok) :
    g.graphAdd env fromBb toBb = g.graphAdd .succeed fromBb toBb := by
  have hother : ∀ stat ∈ [env.listNew, env.listAdd, env.nodesAdd, env.edgesAdd], stat ≠ .ok →
      ¬(stat = .graphBothExist ∨ stat = .graphFromExists ∨ stat = .ok) := by
    intro stat hstat hok hall
    rcases hall with hboth | hfrom | hok'
    · exact (henv stat hstat).2 hboth
    · exact (henv stat hstat).1 hfrom
    · exact hok hok'
  have hsucceed : ¬(CcStat.ok ≠ CcStat.ok) := fun h => h rfl
  unfold graphAdd at h ⊢
  simp only [AddEnv.succeed]
  split
  · next i hi =>
    simp only [hi] at h
    split
    · rfl
    · next l hl =>
      simp only [hl] at h
      split_ifs at h ⊢ with hany hadd
      · rfl
      · exact absurd h (hother _ (by simp) hadd)
      · rfl
  · next hnone =>
    simp only [hnone] at h
    split_ifs at h ⊢ with hlist hadd hnodes hedges
    · exact absurd h (hother _ (by simp) hlist)
    · exact absurd h (hother _ (by simp) hadd)
    · exact absurd h (hother _ (by simp) hnodes)
    · exact absurd h (hother _ (by simp) hedges)
    · rfl

variable {secBounds : Option SectionBounds} {bbs : List BasicBlock}

theorem recordBranch_represents {env : BranchEnv} (henv : Documented env.graphAdd)
    {branch : BtsBranch} {s s' : LoopState} {added : List (UInt64 × UInt64)}
    (hs : Represents s.graph added) (h : recordBranch bbs env branch s = (s', none)) :
    Represents s'.graph (added ++ [resolve bbs branch]) := by
  obtain ⟨freed, hfree, hcount⟩ := recordBranch_cases h
  have hadded := hs.graphAdd ⟨s.heap, (resolve bbs branch).1⟩ ⟨s.heap + 1, (resolve bbs branch).2⟩
  rw [← graphAdd_accepted henv (freeCells_accepts hfree)] at hadded
  rcases countHit_cases hcount with ⟨entry, -, rfl⟩ | ⟨-, rfl⟩
  · exact hadded
  · exact hadded

theorem branchLoop_represents {env : ℕ → BranchEnv} (henv : ∀ i, Documented (env i).graphAdd)
    {i : ℕ} {trace : List BtsBranch} {s s' : LoopState} {added : List (UInt64 × UInt64)}
    (hs : Represents s.graph added)
    (h : branchLoop secBounds bbs env i trace s = (s', none)) :
    Represents s'.graph (added ++ recorded secBounds bbs trace) := by
  exact branchLoop_keeps (I := fun added s => Represents s.graph added)
    (fun i _ _ _ _ hs hrec => recordBranch_represents (henv i) hs hrec) hs h

/-- Where all calls succeed, a pass of the loop goes on to the next branch. -/
theorem recordBranch_succeed {branch : BtsBranch} {s : LoopState}
    {added : List (UInt64 × UInt64)} (hs : Represents s.graph added) :
    ∃ s', recordBranch bbs .succeed branch s = (s', none) := by
  obtain ⟨freed, hfreed⟩ := Option.isSome_iff_exists.mp
    (freeCells_isSome hs ⟨s.heap, (resolve bbs branch).1⟩ ⟨s.heap + 1, (resolve bbs branch).2⟩
      s.freed)
  unfold recordBranch
  simp only [BranchEnv.succeed, Bool.not_true, Bool.false_eq_true, if_false, hfreed]
  unfold countHit
  split
  · exact ⟨_, rfl⟩
  · exact ⟨_, rfl⟩

theorem branchLoop_succeed (i : ℕ) (trace : List BtsBranch) {s : LoopState}
    {added : List (UInt64 × UInt64)} (hs : Represents s.graph added) :
    ∃ s', branchLoop secBounds bbs (fun _ => .succeed) i trace s = (s', none) := by
  induction trace generalizing i s added with
  | nil => exact ⟨s, rfl⟩
  | cons branch trace ih =>
    unfold branchLoop
    split_ifs
    · exact ih (i + 1) hs
    · obtain ⟨s₁, hrec⟩ : ∃ s₁, recordBranch bbs .succeed branch s = (s₁, none) :=
        recordBranch_succeed hs
      rw [hrec]
      exact ih (i + 1) (recordBranch_represents documented_succeed hs hrec)

def edgeLines (g : Graph) : List CText :=
  (g.nodes.zip g.edges).flatMap fun v => printNode .file v.1 v.2

def rowIds (r : Cell × List Cell) : List ℕ := r.2.map Cell.id ++ [r.1.id]

theorem graphForeach_printAndFree {g : Graph} (hlen : g.nodes.length = g.edges.length)
    (fd : PrintTo) (out : List CText × List ℕ) :
    g.graphForeach (graphPrintAndFree fd) out =
      some (out.1 ++ (g.nodes.zip g.edges).flatMap (fun r => printNode fd r.1 r.2),
        out.2 ++ (g.nodes.zip g.edges).flatMap rowIds) := by
  rw [graphForeach_eq g hlen]
  congr 1
  generalize g.nodes.zip g.edges = rows
  induction rows generalizing out with
  | nil =>
    rw [List.flatMap_nil, List.flatMap_nil, List.append_nil, List.append_nil]
    rfl
  | cons r rows ih =>
    rw [List.foldl_cons, ih, List.flatMap_cons, List.flatMap_cons, ← List.append_assoc,
      ← List.append_assoc]
    rfl

/-- The part behind the loop, on a graph made by graph_add: it fails only for want of the file,
and writes one exactly when there was a new branch. -/
theorem finish_eq {s : LoopState} {added : List (UInt64 × UInt64)} (hs : Represents s.graph added)
    (env : CallEnv) (m : Monitor) (args : Args) :
    ∃ depth, finish env m args s =
      if s.newBranches > 0 ∧ env.fopen = false then
        ⟨.returned (-1), s.branchHits, args.newBranches, args.filteredCount, depth, none, s.heap,
          s.freed⟩
      else
        ⟨.returned 0, s.branchHits, some s.newBranches, some s.filteredCount, depth,
          if s.newBranches > 0 then
            some (graphIndivFile m, header :: edgeLines s.graph ++ [footer])
          else none,
          s.heap, s.freed ++ (s.graph.nodes.zip s.graph.edges).flatMap rowIds⟩ := by
  obtain ⟨D, hdepth, -⟩ := graphDepthConn_spec hs
  refine ⟨UInt64.ofNat D, ?_⟩
  unfold finish
  rw [hdepth]
  dsimp only
  rw [graphForeach_printAndFree hs.lengths, graphForeach_printAndFree hs.lengths]
  by_cases hnew : s.newBranches > 0
  · rw [if_pos hnew, if_pos hnew]
    cases hfopen : env.fopen with
    | false => rw [Bool.not_false, if_pos rfl, if_pos ⟨hnew, rfl⟩]
    | true =>
      rw [Bool.not_true, if_neg Bool.false_ne_true, if_neg fun h => Bool.noConfusion h.2]
      rfl
  · rw [if_neg hnew, if_neg hnew, if_neg fun h => hnew h.1]

theorem finish_returns_iff {env : CallEnv} {m : Monitor} {args : Args} {s : LoopState}
    {added : List (UInt64 × UInt64)} (hs : Represents s.graph added) :
    (finish env m args s).stop = .returned 0 ↔ (s.newBranches > 0 → env.fopen = true) := by
  obtain ⟨depth, hfinish⟩ := finish_eq hs env m args
  rw [hfinish]
  by_cases hfails : s.newBranches > 0 ∧ env.fopen = false
  · rw [if_pos hfails]
    refine iff_of_false (by simp) fun h => ?_
    have hfopen := h hfails.1
    rw [hfails.2] at hfopen
    contradiction
  · rw [if_neg hfails]
    refine iff_of_true rfl fun hnew => ?_
    exact Bool.eq_true_of_not_eq_false fun hfopen => hfails ⟨hnew, hfopen⟩

theorem finish_file {env : CallEnv} {m : Monitor} {args : Args} {s : LoopState}
    {added : List (UInt64 × UInt64)} (hs : Represents s.graph added)
    (h : (finish env m args s).stop = .returned 0) :
    (finish env m args s).file =
      (if s.newBranches > 0 then some (graphIndivFile m, header :: edgeLines s.graph ++ [footer])
      else none) ∧
    (finish env m args s).freed =
      s.freed ++ (s.graph.nodes.zip s.graph.edges).flatMap rowIds := by
  obtain ⟨depth, hfinish⟩ := finish_eq hs env m args
  have hopen := (finish_returns_iff hs).mp h
  have hsucceeds : ¬(s.newBranches > 0 ∧ env.fopen = false) := by
    rintro ⟨hnew, hfopen⟩
    rw [hopen hnew] at hfopen
    contradiction
  rw [hfinish, if_neg hsucceeds]
  exact ⟨rfl, rfl⟩

/-- process_branches returns 0 where all calls that it makes succeed. -/
theorem processBranches_succeed (trace : List BtsBranch) (m : Monitor) (heap : ℕ) :
    (processBranches .succeed trace m (callArgs heap)).stop = .returned 0 := by
  have hargs : ¬((callArgs heap).newBranches = none ∨ (callArgs heap).filteredCount = none) := by
    simp [callArgs]
  have hnew : Graph.graphNew CallEnv.succeed.graphNew = (.ok, some ⟨[], [], 0⟩) := by decide
  obtain ⟨s, hloop⟩ : ∃ s, branchLoop m.secBounds m.bbs CallEnv.succeed.branch 0 trace
      ⟨⟨[], [], 0⟩, m.branchHits, 0, 0, (callArgs heap).heap, []⟩ = (s, none) :=
    branchLoop_succeed 0 trace represents_empty
  have hrep := branchLoop_represents (fun _ => documented_succeed) represents_empty hloop
  have hrun : processBranches .succeed trace m (callArgs heap) =
      finish .succeed m (callArgs heap) s := by
    unfold processBranches
    rw [if_neg hargs, hnew]
    dsimp only
    rw [hloop]
  rw [hrun]
  exact (finish_returns_iff hrep).mpr fun _ => rfl

theorem runCalls_succeed (m : Monitor) (heap : ℕ) (calls : List Call)
    (henv : ∀ call ∈ calls, call.env = .succeed) :
    ∀ out ∈ runCalls m heap calls, out.stop = .returned 0 := by
  induction calls generalizing m heap with
  | nil => exact fun out hout => absurd hout List.not_mem_nil
  | cons call calls ih =>
    intro out hout
    rcases List.mem_cons.mp hout with rfl | hout
    · rw [henv call List.mem_cons_self]
      exact processBranches_succeed call.trace m heap
    · exact ih _ _ (fun c hc => henv c (List.mem_cons_of_mem _ hc)) out hout

end FuzzMonitor.Branches
