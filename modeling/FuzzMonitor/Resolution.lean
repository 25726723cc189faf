import FuzzMonitor.Branches

namespace FuzzMonitor.Branches

/-- An address that passes the filter; a branch passes when both its endpoints do. -/
def admitted (secBounds : Option SectionBounds) (x : UInt64) : Bool :=
  !skipped secBounds ⟨x, x, 0⟩

def Resolves (secBounds : Option SectionBounds) (bbs : List BasicBlock) (x v : UInt64) : Prop :=
  ∃ branch, skipped secBounds branch = false ∧
    ((branch.from = x ∧ (resolve bbs branch).1 = v) ∨
      (branch.to = x ∧ (resolve bbs branch).2 = v))

/-- The resolution of an address depends on the address alone. -/
def AddressAlone (secBounds : Option SectionBounds) (bbs : List BasicBlock) : Prop :=
  ∀ x v w, Resolves secBounds bbs x v → Resolves secBounds bbs x w → v = w

def covers (bb : BasicBlock) (x : UInt64) : Bool := decide (x ≥ bb.from ∧ x < bb.to)

/-- The first block that holds an address and does not start at the marker 0. -/
def firstBlock (bbs : List BasicBlock) (x : UInt64) : Option BasicBlock :=
  bbs.find? fun bb => covers bb x && bb.from != 0

def lastBlock (bbs : List BasicBlock) (x : UInt64) : Option BasicBlock :=
  (bbs.filter fun bb => covers bb x).getLast?

/-- The parts of a list that end with a block that is the first one, of those that do not start at
0, to hold some address of A; and the whole list, if such a block is missing for an address of A. -/
inductive NewGround (A : UInt64 → Prop) (bbs : List BasicBlock) : List BasicBlock → Prop
  | block {front back : List BasicBlock} {c : BasicBlock} {y : UInt64}
      (hbbs : bbs = front ++ c :: back) (hc : c.from ≠ 0) (hy : A y) (hcov : covers c y)
      (hnew : ∀ b ∈ front, covers b y → b.from = 0) : NewGround A bbs (front ++ [c])
  | finish {y : UInt64} (hy : A y) (hnone : ∀ b ∈ bbs, covers b y → b.from = 0) :
      NewGround A bbs bbs

/-- Wherever the list comes to new ground, the last block that holds an address starts where the
first one does. -/
def Steady (A : UInt64 → Prop) (bbs : List BasicBlock) : Prop :=
  ∀ p, NewGround A bbs p → ∀ x, A x → ∀ b ∈ firstBlock p x, ∀ c ∈ lastBlock p x, c.from = b.from

/-- No block at the marker 0 stands behind a block with another start that it overlaps in A. -/
def MarkerInFront (A : UInt64 → Prop) (bbs : List BasicBlock) : Prop :=
  bbs.Pairwise fun b c => c.from = 0 → ∀ x, A x → covers b x → covers c x → b.from = 0

/-- The start of the last block that contains x; 0 when no block does. -/
def lastStart (bbs : List BasicBlock) (x : UInt64) : UInt64 :=
  ((lastBlock bbs x).map BasicBlock.from).getD 0

def firstStart (bbs : List BasicBlock) (x : UInt64) : Option UInt64 :=
  (firstBlock bbs x).map BasicBlock.from

def Located (bbs : List BasicBlock) (x y : UInt64) : Prop :=
  lastStart bbs x ≠ 0 ∧ lastStart bbs y ≠ 0

/-- The part of the list up to the first block after which both addresses are located,
or the whole list when that never happens. -/
structure Scanned (bbs : List BasicBlock) (x y : UInt64) (p : List BasicBlock) : Prop where
  initial : p <+: bbs
  before : ∀ q, q <+: p → q ≠ p → ¬Located q x y
  ends : p = bbs ∨ Located p x y

theorem skipped_eq_false_iff (secBounds : Option SectionBounds) (branch : BtsBranch) :
    skipped secBounds branch = false ↔
      admitted secBounds branch.from ∧ admitted secBounds branch.to := by
  unfold admitted skipped
  cases secBounds with
  | none => simp
  | some sec =>
    simp only [Bool.or_eq_false_iff, decide_eq_false_iff_not, Bool.not_eq_true', or_self, not_or]
    tauto

@[simp] theorem lastStart_nil (x : UInt64) : lastStart [] x = 0 := rfl

theorem lastStart_concat (p : List BasicBlock) (bb : BasicBlock) (x : UInt64) :
    lastStart (p ++ [bb]) x = if x ≥ bb.from ∧ x < bb.to then bb.from else lastStart p x := by
  unfold lastStart lastBlock covers
  rw [List.filter_append]
  split_ifs with h
  · rw [List.filter_cons_of_pos (by simpa using h), List.filter_nil, List.getLast?_append]
    rfl
  · rw [List.filter_cons_of_neg (by simpa using h), List.filter_nil, List.append_nil]

theorem Scanned.unique {bbs p q : List BasicBlock} {x y : UInt64} (hp : Scanned bbs x y p)
    (hq : Scanned bbs x y q) : p = q := by
  have key : ∀ {p q}, Scanned bbs x y p → Scanned bbs x y q → p <+: q → p = q := by
    intro p q hp hq hle
    by_contra hne
    rcases hp.ends with rfl | hloc
    · exact hne (hle.eq_of_length_le hq.initial.length_le)
    · exact hq.before p hle hne hloc
  rcases List.prefix_or_prefix_of_prefix hp.initial hq.initial with h | h
  · exact key hp hq h
  · exact (key hq hp h).symm

theorem resolveLoop_scanned (branch : BtsBranch) (rest pre : List BasicBlock)
    (hpre : ∀ q, q <+: pre → ¬Located q branch.from branch.to) :
    ∃ p, Scanned (pre ++ rest) branch.from branch.to p ∧
      resolveLoop branch rest (lastStart pre branch.from) (lastStart pre branch.to) =
        (lastStart p branch.from, lastStart p branch.to) := by
  induction rest generalizing pre with
  | nil =>
    refine ⟨pre, ⟨?_, fun q hq _ => hpre q hq, ?_⟩, rfl⟩
    · rw [List.append_nil]
    · rw [List.append_nil]
      exact .inl rfl
  | cons bb rest ih =>
    have hinit : pre ++ [bb] <+: pre ++ bb :: rest := ⟨rest, by simp⟩
    have hstep : resolveLoop branch (bb :: rest) (lastStart pre branch.from)
        (lastStart pre branch.to) =
        if lastStart (pre ++ [bb]) branch.from ≠ 0 ∧ lastStart (pre ++ [bb]) branch.to ≠ 0 then
          (lastStart (pre ++ [bb]) branch.from, lastStart (pre ++ [bb]) branch.to)
        else resolveLoop branch rest (lastStart (pre ++ [bb]) branch.from)
          (lastStart (pre ++ [bb]) branch.to) := by
      rw [lastStart_concat, lastStart_concat]
      rfl
    rw [hstep]
    split_ifs with hloc
    · -- the joint exit: this block is the last one scanned
      refine ⟨pre ++ [bb], ⟨hinit, fun q hq hne => ?_, .inr hloc⟩, rfl⟩
      exact hpre q ((List.prefix_concat_iff.mp hq).resolve_left hne)
    · have hnext := ih (pre ++ [bb]) fun q hq => by
        rcases List.prefix_concat_iff.mp hq with rfl | hq
        · exact hloc
        · exact hpre q hq
      rw [List.append_assoc, List.singleton_append] at hnext
      exact hnext

theorem resolve_scanned (bbs : List BasicBlock) (branch : BtsBranch) :
    ∃ p, Scanned bbs branch.from branch.to p ∧
      resolve bbs branch =
        (if lastStart p branch.from = 0 then branch.from else lastStart p branch.from,
          if lastStart p branch.to = 0 then branch.to else lastStart p branch.to) := by
  have hnil : ∀ q, q <+: [] → ¬Located q branch.from branch.to := by
    intro q hq h
    rw [List.prefix_nil.mp hq] at h
    exact h.1 rfl
  obtain ⟨p, hp, hloop⟩ := resolveLoop_scanned branch bbs [] hnil
  rw [lastStart_nil, lastStart_nil] at hloop
  refine ⟨p, hp, ?_⟩
  unfold resolve
  rw [hloop]

theorem Scanned.symm {bbs p : List BasicBlock} {x y : UInt64} (h : Scanned bbs x y p) :
    Scanned bbs y x p :=
  ⟨h.initial, fun q hq hne hloc => h.before q hq hne hloc.symm, h.ends.imp_right And.symm⟩

theorem firstStart_ne_zero {bbs : List BasicBlock} {x s : UInt64} (h : firstStart bbs x = some s) :
    s ≠ 0 := by
  unfold firstStart at h
  obtain ⟨bb, hfind, rfl⟩ := Option.map_eq_some_iff.mp h
  have hbb := List.find?_some hfind
  simp only [Bool.and_eq_true, bne_iff_ne] at hbb
  exact hbb.2

theorem resolveLoop_self (x misc : UInt64) (bbs : List BasicBlock) :
    resolveLoop ⟨x, x, misc⟩ bbs 0 0 =
      ((firstStart bbs x).getD 0, (firstStart bbs x).getD 0) := by
  induction bbs with
  | nil => rfl
  | cons bb bbs ih =>
    unfold resolveLoop firstStart firstBlock covers
    dsimp only
    by_cases hc : x ≥ bb.from ∧ x < bb.to
    · by_cases hz : bb.from = 0
      · -- a block at 0 leaves the marker as it was
        rw [if_pos hc, hz, if_neg (by simp), List.find?_cons_of_neg (by simp [hz])]
        exact ih
      · rw [if_pos hc, if_pos ⟨hz, hz⟩, List.find?_cons_of_pos (by simpa [hz] using hc)]
        rfl
    · rw [if_neg hc, if_neg (by simp), List.find?_cons_of_neg (by simp [hc])]
      exact ih

theorem resolve_self (bbs : List BasicBlock) (x misc : UInt64) :
    (resolve bbs ⟨x, x, misc⟩).1 = (firstStart bbs x).getD x := by
  unfold resolve
  rw [resolveLoop_self]
  cases h : firstStart bbs x with
  | none => rfl
  | some s => exact if_neg (firstStart_ne_zero h)

theorem Resolves.scanned {secBounds : Option SectionBounds} {bbs : List BasicBlock}
    {x v : UInt64} (h : Resolves secBounds bbs x v) :
    ∃ y p, admitted secBounds x ∧ admitted secBounds y ∧ Scanned bbs x y p ∧
      v = if lastStart p x = 0 then x else lastStart p x := by
  obtain ⟨branch, hskip, hend⟩ := h
  obtain ⟨hfrom, hto⟩ := (skipped_eq_false_iff secBounds branch).mp hskip
  obtain ⟨p, hp, hres⟩ := resolve_scanned bbs branch
  rcases hend with ⟨rfl, hv⟩ | ⟨rfl, hv⟩
  · refine ⟨branch.to, p, hfrom, hto, hp, ?_⟩
    rw [← hv, hres]
  · refine ⟨branch.from, p, hto, hfrom, hp.symm, ?_⟩
    rw [← hv, hres]

theorem lastStart_mem {p : List BasicBlock} {x : UInt64} (h : lastStart p x ≠ 0) :
    ∃ b ∈ p, covers b x ∧ b.from = lastStart p x := by
  unfold lastStart lastBlock at h ⊢
  cases hlast : (p.filter fun bb => covers bb x).getLast? with
  | none => simp [hlast] at h
  | some b =>
    have hb := List.mem_of_getLast? hlast
    rw [List.mem_filter] at hb
    exact ⟨b, hb.1, hb.2, rfl⟩

theorem lastStart_eq_zero {p : List BasicBlock} {x : UInt64}
    (h : ∀ b ∈ p, covers b x → b.from = 0) : lastStart p x = 0 := by
  by_contra hne
  obtain ⟨b, hb, hcov, hstart⟩ := lastStart_mem hne
  exact hne (hstart ▸ h b hb hcov)

theorem firstBlock_spec {bbs : List BasicBlock} {x : UInt64} {b : BasicBlock}
    (h : firstBlock bbs x = some b) : b ∈ bbs ∧ covers b x ∧ b.from ≠ 0 := by
  have hb := List.find?_some h
  rw [Bool.and_eq_true, bne_iff_ne] at hb
  exact ⟨List.mem_of_find?_eq_some h, hb⟩

theorem firstBlock_eq_none {bbs : List BasicBlock} {x : UInt64} (h : firstBlock bbs x = none) :
    ∀ b ∈ bbs, covers b x → b.from = 0 := by
  intro b hb hcov
  have hnot := List.find?_eq_none.mp h b hb
  by_contra hne
  exact hnot (by simp [hcov, hne])

theorem firstBlock_split {bbs : List BasicBlock} {x : UInt64} {b : BasicBlock}
    (h : firstBlock bbs x = some b) :
    ∃ front back, bbs = front ++ b :: back ∧ firstBlock (front ++ [b]) x = some b ∧
      ∀ c ∈ front, covers c x → c.from = 0 := by
  obtain ⟨hb, front, back, hbbs, hfront⟩ := List.find?_eq_some_iff_append.mp h
  have hnone : firstBlock front x = none :=
    List.find?_eq_none.mpr fun c hc hbad => by simpa [hbad] using hfront c hc
  refine ⟨front, back, hbbs, ?_, firstBlock_eq_none hnone⟩
  unfold firstBlock at hnone ⊢
  rw [List.find?_append, hnone, Option.none_or]
  exact List.find?_cons_of_pos hb

theorem lastBlock_of_mem {p : List BasicBlock} {x : UInt64} {b : BasicBlock} (hb : b ∈ p)
    (hcov : covers b x) : ∃ c, lastBlock p x = some c ∧ lastStart p x = c.from := by
  have hmem : b ∈ p.filter fun bb => covers bb x := List.mem_filter.mpr ⟨hb, hcov⟩
  have hlast := List.getLast?_eq_getLast_of_ne_nil (List.ne_nil_of_mem hmem)
  refine ⟨_, hlast, ?_⟩
  unfold lastStart lastBlock
  rw [hlast]
  rfl

/-- The first block for y ends the scan, where x has its block by then. -/
theorem Scanned.eq_newGround {bbs front back p : List BasicBlock} {c : BasicBlock} {x y : UInt64}
    (hp : Scanned bbs x y p) (hbbs : bbs = front ++ c :: back) (hc : c.from ≠ 0)
    (hcov : covers c y) (hnew : ∀ b ∈ front, covers b y → b.from = 0)
    (hx : lastStart (front ++ [c]) x ≠ 0) : p = front ++ [c] := by
  have hinit : front ++ [c] <+: bbs := ⟨back, by rw [hbbs]; simp⟩
  have hy : lastStart (front ++ [c]) y ≠ 0 := by
    unfold covers at hcov
    rw [lastStart_concat, if_pos (of_decide_eq_true hcov)]
    exact hc
  rcases List.prefix_or_prefix_of_prefix hp.initial hinit with hle | hle
  · refine (List.prefix_concat_iff.mp hle).resolve_right fun hfront => ?_
    -- a scan that stops in front of c has not found y
    have hzero := lastStart_eq_zero fun b hb => hnew b (hfront.subset hb)
    rcases hp.ends with rfl | hloc
    · have hlen := hinit.length_le.trans hfront.length_le
      rw [List.length_append, List.length_singleton] at hlen
      omega
    · exact hloc.2 hzero
  · by_contra hne
    exact hp.before _ hle (Ne.symm hne) ⟨hx, hy⟩

theorem Steady.lastStart_eq {A : UInt64 → Prop} {bbs p : List BasicBlock} (h : Steady A bbs)
    (hp : NewGround A bbs p) {x : UInt64} (hx : A x) {b : BasicBlock}
    (hb : firstBlock p x = some b) : lastStart p x = b.from := by
  obtain ⟨hmem, hcov, -⟩ := firstBlock_spec hb
  obtain ⟨c, hc, hstart⟩ := lastBlock_of_mem hmem hcov
  rw [hstart, h p hp x hx b hb c hc]

/-- A scan of a steady list ends where the later one of two addresses has its first block, and
finds the first block of each. -/
theorem Steady.scanned {A : UInt64 → Prop} {bbs p : List BasicBlock} (h : Steady A bbs)
    {x y : UInt64} (hx : A x) (hy : A y) (hp : Scanned bbs x y p) :
    (if lastStart p x = 0 then x else lastStart p x) = (firstStart bbs x).getD x := by
  unfold firstStart
  cases hfx : firstBlock bbs x with
  | none =>
    have hnone := firstBlock_eq_none hfx
    rw [if_pos (lastStart_eq_zero fun b hb => hnone b (hp.initial.subset hb))]
    rfl
  | some b =>
    obtain ⟨-, hcovb, hb⟩ := firstBlock_spec hfx
    have hvalue : lastStart p x = b.from →
        (if lastStart p x = 0 then x else lastStart p x) = b.from := by
      intro heq
      rw [heq, if_neg hb]
    apply hvalue
    cases hfy : firstBlock bbs y with
    | none =>
      have hnone := firstBlock_eq_none hfy
      have hall : p = bbs := hp.ends.resolve_right fun hloc =>
        hloc.2 (lastStart_eq_zero fun b hb => hnone b (hp.initial.subset hb))
      rw [hall]
      exact h.lastStart_eq (.finish hy hnone) hx hfx
    | some c =>
      obtain ⟨-, hcovc, hc⟩ := firstBlock_spec hfy
      obtain ⟨front, back, hbbs, hfront, hnew⟩ := firstBlock_split hfx
      obtain ⟨front', back', hbbs', hfront', hnew'⟩ := firstBlock_split hfy
      have hQ : front ++ [b] <+: bbs := ⟨back, by rw [hbbs]; simp⟩
      have hP : front' ++ [c] <+: bbs := ⟨back', by rw [hbbs']; simp⟩
      rcases List.prefix_or_prefix_of_prefix hQ hP with hle | hle
      · have hlast := h.lastStart_eq (.block hbbs' hc hy hcovc hnew') hx
          (hle.find?_eq_some hfront)
        rw [hp.eq_newGround hbbs' hc hcovc hnew' (hlast ▸ hb)]
        exact hlast
      · have hlast := h.lastStart_eq (.block hbbs hb hx hcovb hnew) hy
          (hle.find?_eq_some hfront')
        rw [hp.symm.eq_newGround hbbs hb hcovb hnew (hlast ▸ hc)]
        unfold covers at hcovb
        rw [lastStart_concat, if_pos (of_decide_eq_true hcovb)]

/-- Blocks that start at the same place wherever they overlap. -/
theorem steady_of_agree {A : UInt64 → Prop} {bbs : List BasicBlock}
    (hagree : ∀ b ∈ bbs, ∀ c ∈ bbs, ∀ x, A x → covers b x → covers c x → b.from = c.from) :
    Steady A bbs := by
  intro p hp x hx b hb c hc
  have hsub : p ⊆ bbs := by
    cases hp with
    | block hbbs =>
      rw [hbbs]
      simp
    | finish => exact List.Subset.refl _
  obtain ⟨hbmem, hbcov, -⟩ := firstBlock_spec hb
  obtain ⟨hcmem, hccov⟩ := List.mem_filter.mp (List.mem_of_getLast? hc)
  exact (hagree b (hsub hbmem) c (hsub hcmem) x hx hbcov hccov).symm

theorem addressAlone_of_steady {secBounds : Option SectionBounds} {bbs : List BasicBlock}
    (h : Steady (fun x => admitted secBounds x) bbs) : AddressAlone secBounds bbs := by
  have hfirst : ∀ {x u}, Resolves secBounds bbs x u → u = (firstStart bbs x).getD x := by
    intro x u hu
    obtain ⟨y, p, hx, hy, hp, rfl⟩ := hu.scanned
    exact h.scanned hx hy hp
  intro x v w hv hw
  rw [hfirst hv, hfirst hw]

/-- Behind a block with a start other than 0 an address keeps such a start. -/
theorem MarkerInFront.lastStart_ne_zero {A : UInt64 → Prop} {p : List BasicBlock}
    (h : MarkerInFront A p) {x : UInt64} (hx : A x) {b : BasicBlock} (hb : b ∈ p)
    (hcov : covers b x) (hne : b.from ≠ 0) : lastStart p x ≠ 0 := by
  induction p using List.reverseRecOn with
  | nil => exact absurd hb List.not_mem_nil
  | append_singleton p c ih =>
    obtain ⟨hp, -, hbehind⟩ := List.pairwise_append.mp h
    rw [lastStart_concat]
    rcases List.mem_append.mp hb with hb | hb
    · split_ifs with hc
      · intro hzero
        have hccov : covers c x := decide_eq_true hc
        exact hne (hbehind b hb c (List.mem_singleton_self c) hzero x hx hcov hccov)
      · exact ih hp hb
    · rw [List.mem_singleton] at hb
      subst hb
      unfold covers at hcov
      rw [if_pos (of_decide_eq_true hcov)]
      exact hne

theorem steady_of_addressAlone {secBounds : Option SectionBounds} {bbs : List BasicBlock}
    (hmarker : MarkerInFront (fun x => admitted secBounds x) bbs)
    (halone : AddressAlone secBounds bbs) : Steady (fun x => admitted secBounds x) bbs := by
  intro p hp x hx b hb c hc
  obtain ⟨hmem, hcov, hne⟩ := firstBlock_spec hb
  have hinit : p <+: bbs := by
    cases hp with
    | @block _ back _ _ hbbs => exact ⟨back, by rw [hbbs]; simp⟩
    | finish => exact List.prefix_rfl
  have hlast : lastStart p x ≠ 0 :=
    MarkerInFront.lastStart_ne_zero (hmarker.sublist hinit.sublist) hx hmem hcov hne
  have hstart : lastStart p x = c.from := by
    unfold lastStart
    rw [hc]
    rfl
  -- compare the branch from x to itself with the one from x to the new ground
  have hself : Resolves secBounds bbs x b.from := by
    refine ⟨⟨x, x, 0⟩, (skipped_eq_false_iff secBounds _).mpr ⟨hx, hx⟩, .inl ⟨rfl, ?_⟩⟩
    rw [resolve_self]
    unfold firstStart
    rw [firstBlock, hinit.find?_eq_some hb]
    rfl
  have hother : ∀ y, admitted secBounds y → (∀ q, Scanned bbs x y q → q = p) →
      Resolves secBounds bbs x c.from := by
    intro y hy hscan
    obtain ⟨q, hq, hres⟩ := resolve_scanned bbs ⟨x, y, 0⟩
    refine ⟨⟨x, y, 0⟩, (skipped_eq_false_iff secBounds _).mpr ⟨hx, hy⟩, .inl ⟨rfl, ?_⟩⟩
    rw [hres, hscan q hq, ← hstart]
    exact if_neg hlast
  cases hp with
  | block hbbs hc' hy hccov hnew =>
    exact halone x _ _ (hother _ hy fun q hq => hq.eq_newGround hbbs hc' hccov hnew hlast) hself
  | finish hy hnone =>
    refine halone x _ _ (hother _ hy fun q hq => hq.ends.resolve_right fun hloc => ?_) hself
    exact hloc.2 (lastStart_eq_zero fun b hb => hnone b (hq.initial.subset hb))

/-- On steady block lists resolution depends on the address alone; and on no others, as long as
blocks at the marker 0 do not take back what blocks in front of them have found. -/
theorem addressAlone_steady (secBounds : Option SectionBounds) (bbs : List BasicBlock) :
    (Steady (fun x => admitted secBounds x) bbs → AddressAlone secBounds bbs) ∧
      (MarkerInFront (fun x => admitted secBounds x) bbs →
        AddressAlone secBounds bbs → Steady (fun x => admitted secBounds x) bbs) :=
  ⟨addressAlone_of_steady, steady_of_addressAlone⟩

theorem addressAlone_steady_repeated : AddressAlone none [⟨16, 64⟩, ⟨16, 32⟩] :=
  (addressAlone_steady none [⟨16, 64⟩, ⟨16, 32⟩]).1
    (steady_of_agree fun b hb c hc _ _ _ _ => by
      simp only [List.mem_cons, List.not_mem_nil, or_false] at hb hc
      rcases hb with rfl | rfl <;> rcases hc with rfl | rfl <;> rfl)

/-- Two nested blocks: 37 is in both, 17 in the outer one only and 80 in neither. -/
theorem not_addressAlone_nested : ¬AddressAlone none [⟨16, 64⟩, ⟨32, 48⟩] := by
  intro h
  have houter : Resolves none [⟨16, 64⟩, ⟨32, 48⟩] 37 16 :=
    ⟨⟨37, 17, 0⟩, by decide, .inl (by decide)⟩
  have hinner : Resolves none [⟨16, 64⟩, ⟨32, 48⟩] 37 32 :=
    ⟨⟨37, 80, 0⟩, by decide, .inl (by decide)⟩
  exact absurd (h 37 16 32 houter hinner) (by decide)

end FuzzMonitor.Branches
