import FuzzMonitor.GraphRep
import FuzzMonitor.Runs

namespace FuzzMonitor.Graph
open Runs

/-- One call of graph_add, with what its own library calls report. -/
structure AddCall where
  env : AddEnv
  «from» : Cell
  «to» : Cell
  deriving DecidableEq, Repr

def AddEnv.reports (env : AddEnv) : List CcStat :=
  env.listNew ::
    if env.listNew ≠ .ok then []
    else env.listAdd ::
      if env.listAdd ≠ .ok then []
      else env.nodesAdd :: if env.nodesAdd ≠ .ok then [] else [env.edgesAdd]

def AddCall.reports (c : AddCall) (g : Graph) : List CcStat :=
  match g.nodes.findIdx? (fun value => value.val == c.from.val) with
  | some fromNodeIdx =>
    match g.edges[fromNodeIdx]? with
    | none => [.errOutOfRange]
    | some fromNodesList =>
      if fromNodesList.any (fun value => value.val == c.to.val) then [.ok]
      else [.ok, c.env.listAdd]
  | none => c.env.reports

def addStep (g : Graph) (c : AddCall) : Graph := (graphAdd c.env g c.from c.to).2

/-- Where a library call reports an error and graph_add returns it, the graph is as before. -/
def Atomic (g : Graph) (c : AddCall) : Prop :=
  ∀ stat ∈ c.reports g, stat ≠ .ok → (graphAdd c.env g c.from c.to).1 = stat → addStep g c = g

/-- The source is new, and only the last of the four calls, array_add on edges, fails. -/
def Torn (g : Graph) (c : AddCall) : Prop :=
  (∀ node ∈ g.nodes, node.val ≠ c.from.val) ∧ c.env.listNew = .ok ∧ c.env.listAdd = .ok ∧
    c.env.nodesAdd = .ok ∧ c.env.edgesAdd ≠ .ok

instance (g : Graph) (c : AddCall) : Decidable (Torn g c) := inferInstanceAs (Decidable (_ ∧ _))

/-- The pairs of the calls in which no library call fails. -/
def completed : Graph → List AddCall → List (Cell × Cell)
  | _, [] => []
  | g, c :: cs =>
    (if c.reports g |>.all (· = .ok) then [(c.from, c.to)] else []) ++ completed (addStep g c) cs

def built (calls : List AddCall) : Graph := calls.foldl addStep ⟨[], [], 0⟩

theorem findIdx?_source_eq_none {g : Graph} {a : UInt64} :
    g.nodes.findIdx? (fun value => value.val == a) = none ↔ ∀ node ∈ g.nodes, node.val ≠ a := by
  rw [List.findIdx?_eq_none_iff]
  simp

/-- What one call does: it succeeds as a call without failures would, or it fails and leaves
the graph alone, or it leaves a new node without its list. -/
theorem addStep_cases (g : Graph) (c : AddCall) :
    ((∀ stat ∈ c.reports g, stat = .ok) ∧ addStep g c = (graphAdd .succeed g c.from c.to).2) ∨
    ((∃ stat ∈ c.reports g, stat ≠ .ok ∧ (graphAdd c.env g c.from c.to).1 = stat) ∧
      ((¬Torn g c ∧ addStep g c = g) ∨
        Torn g c ∧ addStep g c =
          { g with nodes := g.nodes ++ [c.from], nNodes := g.nNodes + 1 })) := by
  obtain ⟨env, «from», «to»⟩ := c
  unfold addStep AddCall.reports
  dsimp only
  cases hsource : g.nodes.findIdx? (fun value => value.val == «from».val) with
  | some i =>
    have hold : ¬Torn g ⟨env, «from», «to»⟩ := by
      intro h
      have hnone := findIdx?_source_eq_none.mpr h.1
      rw [hsource] at hnone
      contradiction
    unfold graphAdd
    simp only [hsource, AddEnv.succeed, ne_eq, not_true_eq_false, if_false]
    cases g.edges[i]? with
    | none => exact .inr ⟨⟨.errOutOfRange, by simp⟩, .inl ⟨hold, rfl⟩⟩
    | some l =>
      dsimp only
      split_ifs with hany hadd
      · exact .inl ⟨by simp, rfl⟩
      · exact .inl ⟨by simp [hadd], rfl⟩
      · exact .inr ⟨⟨env.listAdd, by simp [hadd]⟩, .inl ⟨hold, rfl⟩⟩
  | none =>
    have hnew := findIdx?_source_eq_none.mp hsource
    unfold graphAdd AddEnv.reports Torn
    simp only [hsource, AddEnv.succeed, ne_eq, not_true_eq_false, if_false]
    split_ifs with hlist hadd hnodes hedges
    · exact .inl ⟨by simp [hlist, hadd, hnodes, hedges], rfl⟩
    · exact .inr ⟨⟨env.edgesAdd, by simp [hlist, hadd, hnodes, hedges]⟩,
        .inr ⟨⟨hnew, hlist, hadd, hnodes, hedges⟩, rfl⟩⟩
    · exact .inr ⟨⟨env.nodesAdd, by simp [hlist, hadd, hnodes]⟩,
        .inl ⟨fun h => hnodes h.2.2.2.1, rfl⟩⟩
    · exact .inr ⟨⟨env.listAdd, by simp [hlist, hadd]⟩, .inl ⟨fun h => hadd h.2.2.1, rfl⟩⟩
    · exact .inr ⟨⟨env.listNew, by simp [hlist]⟩, .inl ⟨fun h => hlist h.2.1, rfl⟩⟩

theorem atomic_iff (g : Graph) (c : AddCall) : Atomic g c ↔ ¬Torn g c := by
  unfold Atomic
  rcases addStep_cases g c with ⟨hok, -⟩ | ⟨⟨stat, hstat, hne, hret⟩, hstep⟩
  · refine iff_of_true (fun stat hstat hne => absurd (hok stat hstat) hne) fun htorn => ?_
    have hnone := findIdx?_source_eq_none.mpr htorn.1
    obtain ⟨-, hlist, hadd, hnodes, hedges⟩ := htorn
    apply hedges
    apply hok
    unfold AddCall.reports AddEnv.reports
    simp [hnone, hlist, hadd, hnodes]
  · rcases hstep with ⟨htorn, hstep⟩ | ⟨htorn, hstep⟩
    · exact iff_of_true (fun _ _ _ _ => hstep) htorn
    · refine iff_of_false (fun h => ?_) (not_not.mpr htorn)
      have hsame := h stat hstat hne hret
      rw [hstep] at hsame
      have hcount := congrArg Graph.nNodes hsame
      exact absurd hcount (Nat.succ_ne_self g.nNodes)

theorem addStep_ofAdds {adds : List (Cell × Cell)} {c : AddCall} (h : ¬Torn (ofAdds adds) c) :
    addStep (ofAdds adds) c =
      ofAdds (adds ++ if (c.reports (ofAdds adds)).all (· = .ok) then [(c.from, c.to)] else []) := by
  rcases addStep_cases (ofAdds adds) c with ⟨hok, hstep⟩ | ⟨⟨stat, hstat, hne, -⟩, hstep⟩
  · rw [if_pos (by simpa using hok), ofAdds_concat]
    exact hstep
  · have hfails : ¬(c.reports (ofAdds adds)).all (· = .ok) := by
      intro hall
      exact hne (by simpa using List.all_eq_true.mp hall stat hstat)
    rw [if_neg hfails, List.append_nil]
    rcases hstep with ⟨-, hstep⟩ | ⟨htorn, -⟩
    · exact hstep
    · exact absurd htorn h

/-- Calls that are not torn leave the graph of those among them that succeed. -/
theorem foldl_addStep {calls : List AddCall} {adds : List (Cell × Cell)}
    (h : Guarded addStep (fun g c => ¬Torn g c) (ofAdds adds) calls) :
    calls.foldl addStep (ofAdds adds) = ofAdds (adds ++ completed (ofAdds adds) calls) := by
  induction calls generalizing adds with
  | nil => exact congrArg ofAdds (List.append_nil adds).symm
  | cons c calls ih =>
    obtain ⟨htorn, hrest⟩ := h
    unfold completed
    rw [List.foldl_cons, addStep_ofAdds htorn] at *
    rw [ih hrest, List.append_assoc]

theorem lengths_graphAdd (g : Graph) («from» «to» : Cell) :
    (graphAdd .succeed g «from» «to»).2.nodes.length + g.edges.length =
      (graphAdd .succeed g «from» «to»).2.edges.length + g.nodes.length := by
  unfold graphAdd
  simp only [AddEnv.succeed, ne_eq, not_true_eq_false, if_false]
  split
  · split
    · exact Nat.add_comm _ _
    · split_ifs
      · exact Nat.add_comm _ _
      · dsimp only
        rw [List.length_set]
        exact Nat.add_comm _ _
  · simp only [List.length_append, List.length_singleton]
    omega

/-- No call makes up for a list that is missing. -/
theorem lengths_addStep (g : Graph) (c : AddCall) :
    (addStep g c).edges.length + g.nodes.length + (if Torn g c then 1 else 0) =
      (addStep g c).nodes.length + g.edges.length := by
  rcases addStep_cases g c with ⟨hok, hstep⟩ | ⟨-, ⟨htorn, hstep⟩ | ⟨htorn, hstep⟩⟩
  · have htorn : ¬Torn g c := by
      rw [← atomic_iff]
      exact fun stat hstat hne => absurd (hok stat hstat) hne
    rw [if_neg htorn, hstep]
    exact (lengths_graphAdd g c.from c.to).symm
  · rw [if_neg htorn, hstep, Nat.add_zero]
    exact Nat.add_comm _ _
  · rw [if_pos htorn, hstep]
    dsimp only
    rw [List.length_append, List.length_singleton]
    omega

theorem guarded_of_lengths {g : Graph} {calls : List AddCall}
    (hg : g.edges.length ≤ g.nodes.length)
    (h : (calls.foldl addStep g).nodes.length = (calls.foldl addStep g).edges.length) :
    g.nodes.length = g.edges.length ∧ Guarded addStep (fun g c => ¬Torn g c) g calls := by
  induction calls generalizing g with
  | nil => exact ⟨h, trivial⟩
  | cons c calls ih =>
    have hstep := lengths_addStep g c
    have hstep_le : (addStep g c).edges.length ≤ (addStep g c).nodes.length := by omega
    obtain ⟨hlen, hguarded⟩ := ih hstep_le h
    have htorn : ¬Torn g c := by
      intro htorn
      rw [if_pos htorn] at hstep
      omega
    rw [if_neg htorn] at hstep
    exact ⟨by omega, htorn, hguarded⟩

/-- A failed call of graph_add leaves the graph as it was unless only the last of its library
calls fails; and a graph is that of the successful calls alone, with all its invariants, exactly
when no call that led to it failed there. -/
theorem graphAdd_atomic_iff (calls : List AddCall) :
    (∀ c, Atomic (built calls) c ↔ ¬Torn (built calls) c) ∧
    (built calls = ofAdds (completed ⟨[], [], 0⟩ calls) ↔
      Guarded addStep (fun g c => ¬Torn g c) ⟨[], [], 0⟩ calls) ∧
    (Guarded addStep (fun g c => ¬Torn g c) ⟨[], [], 0⟩ calls →
      Invariant (built calls) (history (completed ⟨[], [], 0⟩ calls))) := by
  have hguarded : Guarded addStep (fun g c => ¬Torn g c) ⟨[], [], 0⟩ calls →
      built calls = ofAdds (completed ⟨[], [], 0⟩ calls) :=
    @foldl_addStep calls []
  refine ⟨atomic_iff (built calls), ⟨fun h => ?_, hguarded⟩, fun h => ?_⟩
  · have hlen : (built calls).nodes.length = (built calls).edges.length := by
      rw [h]
      exact (represents_ofAdds _).lengths
    exact (guarded_of_lengths le_rfl hlen).2
  · rw [hguarded h]
    exact (represents_ofAdds _).invariant

def tearingCall : AddCall := ⟨⟨.ok, .ok, .ok, .errAlloc⟩, ⟨0, 16⟩, ⟨1, 80⟩⟩

theorem graphAdd_tears :
    tearingCall.reports (built []) = [.ok, .ok, .ok, .errAlloc] ∧
      graphAdd tearingCall.env (built []) tearingCall.from tearingCall.to =
        (.errAlloc, ⟨[⟨0, 16⟩], [], 1⟩) ∧
      ¬Atomic (built []) tearingCall := by
  refine ⟨by decide, by decide, ?_⟩
  rw [atomic_iff, not_not]
  decide

end FuzzMonitor.Graph
