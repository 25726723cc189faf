import FuzzMonitor.InputGraphs
import FuzzMonitor.Resolution

namespace FuzzMonitor.Branches
open CStrings Tally FuzzMonitor.Graph

def Apart (b c : BasicBlock) : Prop := ∀ x, ¬(covers b x ∧ covers c x)

theorem Apart.symm {b c : BasicBlock} (h : Apart b c) : Apart c b := fun x hx => h x hx.symm

instance : Std.Symm Apart := ⟨fun _ _ => Apart.symm⟩

theorem apart_of_le {b c : BasicBlock} (h : b.to ≤ c.from) : Apart b c := by
  rintro x ⟨hb, hc⟩
  simp only [covers, ge_iff_le, decide_eq_true_eq, UInt64.le_iff_toNat_le,
    UInt64.lt_iff_toNat_lt] at hb hc h
  omega

/-- Pairwise disjoint blocks, none of which starts at the marker 0. -/
structure DisjointBlocks (bbs : List BasicBlock) : Prop where
  apart : bbs.Pairwise Apart
  nonzero : ∀ b ∈ bbs, b.from ≠ 0

theorem DisjointBlocks.perm {bbs bbs' : List BasicBlock} (h : DisjointBlocks bbs)
    (hperm : bbs'.Perm bbs) : DisjointBlocks bbs' where
  apart := (hperm.pairwise_iff Apart.symm).mpr h.apart
  nonzero := fun b hb => h.nonzero b (hperm.mem_iff.mp hb)

/-- An address is in one of the blocks at most. -/
theorem DisjointBlocks.eq_of_covers {bbs : List BasicBlock} (h : DisjointBlocks bbs)
    {b c : BasicBlock} (hb : b ∈ bbs) (hc : c ∈ bbs) {x : UInt64} (hbx : covers b x)
    (hcx : covers c x) : b = c := by
  by_contra hne
  exact h.apart.forall hb hc hne x ⟨hbx, hcx⟩

/-- The start of the block that contains x; an address without a block stands for itself. -/
def blockStart (bbs : List BasicBlock) (x : UInt64) : UInt64 :=
  ((bbs.find? fun bb => covers bb x).map BasicBlock.from).getD x

theorem DisjointBlocks.blockStart_eq {bbs : List BasicBlock} (h : DisjointBlocks bbs)
    {b : BasicBlock} (hb : b ∈ bbs) {x : UInt64} (hx : covers b x) : blockStart bbs x = b.from := by
  have hsome : (bbs.find? fun bb => covers bb x).isSome := List.find?_isSome.mpr ⟨b, hb, hx⟩
  obtain ⟨c, hc⟩ := Option.isSome_iff_exists.mp hsome
  have hcx : covers c x := by simpa using List.find?_some hc
  unfold blockStart
  rw [hc, h.eq_of_covers hb (List.mem_of_find?_eq_some hc) hx hcx]
  rfl

theorem blockStart_self {bbs : List BasicBlock} {x : UInt64} (h : ∀ b ∈ bbs, ¬covers b x) :
    blockStart bbs x = x := by
  unfold blockStart
  rw [List.find?_eq_none.mpr h]
  rfl

theorem DisjointBlocks.blockStart_perm {bbs bbs' : List BasicBlock} (h : DisjointBlocks bbs)
    (hperm : bbs'.Perm bbs) : blockStart bbs' = blockStart bbs := by
  funext x
  by_cases hx : ∃ b ∈ bbs, covers b x
  · obtain ⟨b, hb, hbx⟩ := hx
    rw [h.blockStart_eq hb hbx, (h.perm hperm).blockStart_eq (hperm.mem_iff.mpr hb) hbx]
  · simp only [not_exists, not_and] at hx
    rw [blockStart_self hx, blockStart_self fun b hb => hx b (hperm.mem_iff.mp hb)]

theorem DisjointBlocks.steady {bbs : List BasicBlock} (h : DisjointBlocks bbs) :
    Steady (fun _ => True) bbs :=
  steady_of_agree fun _ hb _ hc _ _ hbx hcx => congrArg _ (h.eq_of_covers hb hc hbx hcx)

theorem DisjointBlocks.firstStart_getD {bbs : List BasicBlock} (h : DisjointBlocks bbs)
    (x : UInt64) : (firstStart bbs x).getD x = blockStart bbs x := by
  unfold firstStart
  cases hfirst : firstBlock bbs x with
  | none =>
    have hnone : ∀ b ∈ bbs, ¬covers b x := fun b hb hbx =>
      h.nonzero b hb (firstBlock_eq_none hfirst b hb hbx)
    rw [blockStart_self hnone]
    rfl
  | some b =>
    obtain ⟨hb, hbx, -⟩ := firstBlock_spec hfirst
    rw [h.blockStart_eq hb hbx]
    rfl

theorem DisjointBlocks.scanned {bbs p : List BasicBlock} (h : DisjointBlocks bbs) {x y : UInt64}
    (hp : Scanned bbs x y p) :
    (if lastStart p x = 0 then x else lastStart p x) = blockStart bbs x := by
  rw [← h.firstStart_getD]
  exact h.steady.scanned trivial trivial hp

theorem DisjointBlocks.resolve_eq {bbs : List BasicBlock} (h : DisjointBlocks bbs)
    (branch : BtsBranch) :
    resolve bbs branch = (blockStart bbs branch.from, blockStart bbs branch.to) := by
  obtain ⟨p, hp, hresolve⟩ := resolve_scanned bbs branch
  rw [hresolve, h.scanned hp, h.scanned hp.symm]

def blockEdges (secBounds : Option SectionBounds) (bbs : List BasicBlock)
    (trace : List BtsBranch) : List (UInt64 × UInt64) :=
  (trace.filter fun branch => !skipped secBounds branch).map fun branch =>
    (blockStart bbs branch.from, blockStart bbs branch.to)

theorem DisjointBlocks.recorded_eq {bbs : List BasicBlock} (h : DisjointBlocks bbs)
    (secBounds : Option SectionBounds) (trace : List BtsBranch) :
    recorded secBounds bbs trace = blockEdges secBounds bbs trace := by
  unfold recorded blockEdges
  congr 1
  funext branch
  exact h.resolve_eq branch

theorem branchLoop_keys {secBounds : Option SectionBounds} {bbs : List BasicBlock}
    {env : ℕ → BranchEnv} {i : ℕ} {trace : List BtsBranch} {s s' : LoopState}
    (h : branchLoop secBounds bbs env i trace s = (s', none)) (key : CText) :
    key ∈ s'.branchHits ↔
      key ∈ s.branchHits ∨ key ∈ (recorded secBounds bbs trace).map pairKey := by
  have hstep : ∀ i branch recs s₁ s₂,
      (∀ key, key ∈ s₁.branchHits ↔ key ∈ s.branchHits ∨ key ∈ recs.map pairKey) →
      recordBranch bbs (env i) branch s₁ = (s₂, none) →
      ∀ key, key ∈ s₂.branchHits ↔
        key ∈ s.branchHits ∨ key ∈ (recs ++ [resolve bbs branch]).map pairKey := by
    intro i branch recs s₁ s₂ hs hrec
    obtain ⟨freed, -, hcount⟩ := recordBranch_cases hrec
    rcases countHit_cases hcount with ⟨entry, -, rfl⟩ | ⟨-, rfl⟩
    · exact mem_insert_recorded hs
    · exact mem_insert_recorded hs
  have hstart : ∀ key, key ∈ s.branchHits ↔ key ∈ s.branchHits ∨ key ∈ [].map pairKey :=
    fun _ => (or_iff_left List.not_mem_nil).symm
  exact branchLoop_keeps
    (I := fun recs s' => ∀ key, key ∈ s'.branchHits ↔ key ∈ s.branchHits ∨ key ∈ recs.map pairKey)
    hstep hstart h key

theorem recordBranch_congr {bbs bbs' : List BasicBlock} (h : resolve bbs' = resolve bbs) :
    recordBranch bbs' = recordBranch bbs := by
  funext env branch s
  unfold recordBranch
  rw [h]

theorem branchLoop_congr {bbs bbs' : List BasicBlock} (h : resolve bbs' = resolve bbs)
    (secBounds : Option SectionBounds) (env : ℕ → BranchEnv) (i : ℕ) (trace : List BtsBranch)
    (s : LoopState) :
    branchLoop secBounds bbs' env i trace s = branchLoop secBounds bbs env i trace s := by
  induction trace generalizing i s with
  | nil => rfl
  | cons branch trace ih =>
    unfold branchLoop
    simp only [ih, recordBranch_congr h]

/-- process_branches uses the blocks for nothing but to resolve addresses. -/
theorem processBranches_congr {bbs bbs' : List BasicBlock} (h : resolve bbs' = resolve bbs)
    (env : CallEnv) (trace : List BtsBranch) (m : Monitor) (args : Args) :
    processBranches env trace { m with bbs := bbs' } args =
      processBranches env trace { m with bbs := bbs } args := by
  unfold processBranches
  dsimp only
  simp only [branchLoop_congr h]
  rfl

/-- On disjoint blocks each endpoint stands for the block that contains it, or for itself; a call
that returns 0 has added exactly these edges to its graph, and their keys to the table; and the
order of the blocks changes nothing in what any call does. -/
theorem disjointBlocks_recorded {bbs : List BasicBlock} (h : DisjointBlocks bbs) :
    (∀ x, (∀ b ∈ bbs, covers b x → blockStart bbs x = b.from) ∧
      ((∀ b ∈ bbs, ¬covers b x) → blockStart bbs x = x)) ∧
    (∀ (env : CallEnv) (trace : List BtsBranch) (m : Monitor) (heap : ℕ), m.bbs = bbs →
      (∀ i, Documented (env.branch i).graphAdd) →
      (processBranches env trace m (callArgs heap)).stop = .returned 0 →
      ∃ s, branchLoop m.secBounds bbs env.branch 0 trace
          ⟨⟨[], [], 0⟩, m.branchHits, 0, 0, heap, []⟩ = (s, none) ∧
        (∀ p, p ∈ s.graph.pairs ↔ p ∈ blockEdges m.secBounds bbs trace) ∧
        ∀ key, key ∈ (processBranches env trace m (callArgs heap)).branchHits ↔
          key ∈ m.branchHits ∨ key ∈ (blockEdges m.secBounds bbs trace).map pairKey) ∧
    ∀ bbs', bbs'.Perm bbs → ∀ (env : CallEnv) (trace : List BtsBranch) (m : Monitor) (args : Args),
      processBranches env trace { m with bbs := bbs' } args =
        processBranches env trace { m with bbs := bbs } args := by
  refine ⟨fun x => ⟨fun b hb hx => h.blockStart_eq hb hx, blockStart_self⟩, ?_, ?_⟩
  · rintro env trace m heap rfl henv hret
    obtain ⟨s, hloop, hfinish⟩ := processBranches_ok hret
    have hgraph := branchLoop_represents henv represents_empty hloop
    rw [hfinish] at hret ⊢
    rw [← h.recorded_eq]
    refine ⟨s, hloop, hgraph.mem_pairs, fun key => ?_⟩
    rw [(finish_ok hret).1]
    exact branchLoop_keys hloop key
  · intro bbs' hperm env trace m args
    apply processBranches_congr
    funext branch
    rw [h.resolve_eq, (h.perm hperm).resolve_eq, h.blockStart_perm hperm]

/-- Two adjacent blocks, the later one first: one branch from block to block, and one from
outside of both. -/
theorem disjointBlocks_recorded_adjacent :
    ∃ s, branchLoop none [⟨32, 48⟩, ⟨16, 32⟩] CallEnv.succeed.branch 0
        [⟨33, 17, 0⟩, ⟨80, 16, 0⟩] ⟨⟨[], [], 0⟩, ∅, 0, 0, 0, []⟩ = (s, none) ∧
      ∀ p, p ∈ s.graph.pairs ↔
        p ∈ blockEdges none [⟨32, 48⟩, ⟨16, 32⟩] [⟨33, 17, 0⟩, ⟨80, 16, 0⟩] := by
  have hapart : Apart ⟨32, 48⟩ ⟨16, 32⟩ := (apart_of_le (by decide)).symm
  have h : DisjointBlocks [⟨32, 48⟩, ⟨16, 32⟩] := ⟨by simpa using hapart, by decide⟩
  obtain ⟨s, hloop, hpairs, _⟩ := (disjointBlocks_recorded h).2.1 .succeed
    [⟨33, 17, 0⟩, ⟨80, 16, 0⟩] ⟨∅, none, [⟨32, 48⟩, ⟨16, 32⟩], none, 0⟩ 0 rfl
    (fun _ => documented_succeed) (processBranches_succeed _ _ 0)
  exact ⟨s, hloop, hpairs⟩

end FuzzMonitor.Branches
