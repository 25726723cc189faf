import FuzzMonitor.CallGraph

namespace FuzzMonitor.Branches
open CStrings Tally FuzzMonitor.Graph

def edgeLine (p : UInt64 × UInt64) : CText :=
  "\t\"0x".toList ++ hex p.1 ++ "\" -> \"0x".toList ++ hex p.2 ++ "\";\n".toList

theorem edgeLine_injective : Function.Injective edgeLine := by
  have hquote : "\" -> \"0x".toList = '"' :: " -> \"0x".toList := by decide
  have hend : "\";\n".toList = '"' :: ";\n".toList := by decide
  intro p q h
  unfold edgeLine at h
  rw [hquote, hend] at h
  simp only [List.append_assoc, List.cons_append] at h
  obtain ⟨hfst, hrest⟩ := append_separator_inj (quote_notMem_hex p.1) (quote_notMem_hex q.1)
    (List.append_cancel_left h)
  obtain ⟨hsnd, -⟩ := append_separator_inj (quote_notMem_hex p.2) (quote_notMem_hex q.2)
    (List.append_cancel_left hrest)
  exact Prod.ext (hex_injective hfst) (hex_injective hsnd)

/-- A line starts with a tabulator, the first and the last line of a file do not. -/
theorem edgeLine_ne (p : UInt64 × UInt64) : edgeLine p ≠ header ∧ edgeLine p ≠ footer := by
  have hhead : (edgeLine p).head? = some '\t' := by
    unfold edgeLine
    simp
  constructor
  · intro h
    rw [h] at hhead
    exact absurd hhead (by decide)
  · intro h
    rw [h] at hhead
    exact absurd hhead (by decide)

theorem edgeLines_eq (g : Graph) : edgeLines g = g.pairs.map edgeLine := by
  unfold edgeLines
  rw [pairs, rows_eq_zip, Adjacency.pairs, List.flatMap_map, List.map_flatMap]
  congr 1
  funext v
  unfold printNode
  rw [List.map_map, List.map_map]
  rfl

theorem edgeLines_perm {g : Graph} {added : List (UInt64 × UInt64)} (hg : Represents g added) :
    (edgeLines g).Perm (added.dedup.map edgeLine) := by
  rw [edgeLines_eq]
  apply List.Perm.map
  rw [List.perm_ext_iff_of_nodup hg.invariant.pairs_nodup added.nodup_dedup]
  intro p
  rw [hg.mem_pairs, List.mem_dedup]

theorem mem_insert_recorded {before hits : BranchHits} {recs : List (UInt64 × UInt64)}
    (hkeys : ∀ key, key ∈ hits ↔ key ∈ before ∨ key ∈ recs.map pairKey) {p : UInt64 × UInt64}
    {entry : HitEntry} (key : CText) :
    key ∈ hits.insert (pairKey p) entry ↔ key ∈ before ∨ key ∈ (recs ++ [p]).map pairKey := by
  rw [AList.mem_insert, hkeys, List.map_append, List.mem_append, List.map_singleton,
    List.mem_singleton, or_comm, or_assoc]

/-- What the loop does to the table on its way through the given pairs: their keys are there,
and there were new branches if one of them was not before. -/
structure Grown (before : BranchHits) (recs : List (UInt64 × UInt64)) (s : LoopState) : Prop where
  keys : ∀ key, key ∈ s.branchHits ↔ key ∈ before ∨ key ∈ recs.map pairKey
  fresh : s.newBranches.toNat ≤ recs.length
  news : s.newBranches = 0 ↔ ∀ p ∈ recs, pairKey p ∈ before

theorem Grown.found {before : BranchHits} {recs : List (UInt64 × UInt64)} {s s' : LoopState}
    (hs : Grown before recs s) {p : UInt64 × UInt64} {entry : HitEntry}
    (hmem : pairKey p ∈ s.branchHits)
    (hhits : s'.branchHits = s.branchHits.insert (pairKey p) entry)
    (hnew : s'.newBranches = s.newBranches) : Grown before (recs ++ [p]) s' := by
  refine ⟨fun key => ?_, ?_, ?_⟩
  · rw [hhits]
    exact mem_insert_recorded hs.keys key
  · rw [hnew, List.length_append]
    exact Nat.le_succ_of_le hs.fresh
  · rw [hnew, hs.news]
    constructor
    · intro hall q hq
      rcases List.mem_append.mp hq with hq | hq
      · exact hall q hq
      · rw [List.mem_singleton.mp hq]
        rcases (hs.keys _).mp hmem with hold | hrec
        · exact hold
        · exact hall p ((List.mem_map_of_injective pairKey_injective).mp hrec)
    · exact fun hall q hq => hall q (List.mem_append_left _ hq)

theorem Grown.missed {before : BranchHits} {recs : List (UInt64 × UInt64)} {s s' : LoopState}
    (hs : Grown before recs s) (hlen : recs.length + 1 < 2 ^ 64) {p : UInt64 × UInt64}
    {entry : HitEntry} (hmem : pairKey p ∉ s.branchHits)
    (hhits : s'.branchHits = s.branchHits.insert (pairKey p) entry)
    (hnew : s'.newBranches = s.newBranches + 1) : Grown before (recs ++ [p]) s' := by
  have hfresh := hs.fresh
  have hcount : s'.newBranches.toNat = s.newBranches.toNat + 1 := by
    rw [hnew]
    exact toNat_succ (by omega)
  refine ⟨fun key => ?_, ?_, ?_⟩
  · rw [hhits]
    exact mem_insert_recorded hs.keys key
  · rw [hcount, List.length_append]
    exact Nat.succ_le_succ hfresh
  · refine iff_of_false (fun hzero => ?_) fun hall => ?_
    · rw [hzero] at hcount
      exact absurd hcount (by simp)
    · apply hmem
      rw [hs.keys]
      exact .inl (hall p (List.mem_append_right _ (List.mem_singleton_self p)))

theorem Grown.record {before : BranchHits} {recs : List (UInt64 × UInt64)}
    {bbs : List BasicBlock} {env : BranchEnv} {branch : BtsBranch} {s s' : LoopState}
    (hs : Grown before recs s) (hlen : recs.length + 1 < 2 ^ 64)
    (h : recordBranch bbs env branch s = (s', none)) :
    Grown before (recs ++ [resolve bbs branch]) s' := by
  obtain ⟨freed, -, hcount⟩ := recordBranch_cases h
  rcases countHit_cases hcount with ⟨entry, hget, rfl⟩ | ⟨hget, rfl⟩
  · exact hs.found (AList.lookup_isSome.mp (by rw [hget]; rfl)) rfl rfl
  · exact hs.missed hlen (AList.lookup_eq_none.mp hget) rfl rfl

theorem branchLoop_grown {before : BranchHits} {recs : List (UInt64 × UInt64)}
    {secBounds : Option SectionBounds} {bbs : List BasicBlock} {env : ℕ → BranchEnv} {i : ℕ}
    {trace : List BtsBranch} {s s' : LoopState} (hs : Grown before recs s)
    (hlen : recs.length + trace.length < 2 ^ 64)
    (h : branchLoop secBounds bbs env i trace s = (s', none)) :
    Grown before (recs ++ recorded secBounds bbs trace) s' := by
  have hrecorded := recorded_length_le secBounds bbs trace
  refine branchLoop_keeps (I := fun recs s => recs.length < 2 ^ 64 → Grown before recs s)
    (fun i branch recs s s' hs hrec hbound => ?_) (fun _ => hs) h ?_
  · rw [List.length_append, List.length_singleton] at hbound
    exact (hs (by omega)).record hbound hrec
  · rw [List.length_append]
    omega

def indivText (graphIndivPath : Option CText) (inputN : UInt64) : CText :=
  graphIndivPath.getD "(null)".toList ++ "/graph.".toList ++ decimal inputN ++ ".gv".toList

theorem indivText_injective (graphIndivPath : Option CText) :
    Function.Injective (indivText graphIndivPath) := by
  intro a b h
  unfold indivText at h
  exact decimal_injective (List.append_cancel_left (List.append_cancel_right h))

def ListsOnce (recs : List (UInt64 × UInt64)) (file : List CText) : Prop :=
  ∃ lines, file = header :: lines ++ [footer] ∧ lines.Perm (recs.dedup.map edgeLine)

theorem ListsOnce.mem_iff {recs : List (UInt64 × UInt64)} {file : List CText}
    (h : ListsOnce recs file) (p : UInt64 × UInt64) : edgeLine p ∈ file ↔ p ∈ recs := by
  obtain ⟨lines, rfl, hperm⟩ := h
  obtain ⟨hheader, hfooter⟩ := edgeLine_ne p
  rw [List.cons_append, List.mem_cons, or_iff_right hheader, List.mem_append, List.mem_singleton,
    or_iff_left hfooter, hperm.mem_iff, List.mem_map_of_injective edgeLine_injective,
    List.mem_dedup]

/-- What a call that returns 0 does: its keys are entered, and the file with its edges is
written if one of them is new. -/
structure Written (m : Monitor) (trace : List BtsBranch) (out : Outcome) : Prop where
  keys : ∀ key, key ∈ out.branchHits ↔
    key ∈ m.branchHits ∨ key ∈ (recorded m.secBounds m.bbs trace).map pairKey
  isSome : out.file.isSome ↔ ∃ p ∈ recorded m.secBounds m.bbs trace, pairKey p ∉ m.branchHits
  lists : ∀ f, out.file = some f →
    f.1 = graphIndivFile m ∧ ListsOnce (recorded m.secBounds m.bbs trace) f.2

theorem processBranches_written {m : Monitor} {heap : ℕ} {env : CallEnv} {trace : List BtsBranch}
    (henv : ∀ i, Documented (env.branch i).graphAdd) (hlen : trace.length < 2 ^ 64)
    (hret : (processBranches env trace m (callArgs heap)).stop = .returned 0) :
    Written m trace (processBranches env trace m (callArgs heap)) := by
  obtain ⟨s, hloop, hfinish⟩ := processBranches_ok hret
  rw [hfinish] at hret ⊢
  have hrep := branchLoop_represents henv represents_empty hloop
  have hstart : Grown m.branchHits [] ⟨⟨[], [], 0⟩, m.branchHits, 0, 0, heap, []⟩ :=
    ⟨by simp, le_rfl, by simp⟩
  have hgrown := branchLoop_grown hstart (by simpa using hlen) hloop
  rw [List.nil_append] at hrep hgrown
  obtain ⟨hfile, -⟩ := finish_file hrep hret
  have hnews : s.newBranches > 0 ↔
      ∃ p ∈ recorded m.secBounds m.bbs trace, pairKey p ∉ m.branchHits := by
    rw [gt_iff_lt, UInt64.pos_iff_ne_zero, ne_eq, hgrown.news]
    simp only [not_forall, exists_prop]
  refine ⟨fun key => ?_, ?_, ?_⟩
  · rw [(finish_ok hret).1]
    exact hgrown.keys key
  · rw [hfile, ← hnews]
    split_ifs with h
    · exact iff_of_true rfl h
    · exact iff_of_false (by simp) h
  · intro f hf
    rw [hfile] at hf
    split_ifs at hf
    rw [← Option.some.inj hf]
    exact ⟨rfl, edgeLines s.graph, rfl, edgeLines_perm hrep⟩

def files (outs : List Outcome) : List (CText × List CText) := outs.filterMap Outcome.file

/-- What holds of one input: its file is written exactly when the table before the call lacks a
key that the table after it has, and lists each edge of its own trace once. -/
structure PerInput (secBounds : Option SectionBounds) (bbs : List BasicBlock)
    (before : BranchHits) (trace : List BtsBranch) (out : Outcome) : Prop where
  written : out.file.isSome ↔ ∃ key, key ∈ out.branchHits ∧ key ∉ before
  listed : ∀ f, out.file = some f → ListsOnce (recorded secBounds bbs trace) f.2

theorem Written.perInput {m : Monitor} {trace : List BtsBranch} {out : Outcome}
    (h : Written m trace out) : PerInput m.secBounds m.bbs m.branchHits trace out := by
  refine ⟨?_, fun f hf => (h.lists f hf).2⟩
  rw [h.isSome]
  constructor
  · rintro ⟨p, hp, hnew⟩
    exact ⟨pairKey p, (h.keys _).mpr (.inr (List.mem_map_of_mem hp)), hnew⟩
  · rintro ⟨key, hkey, hnew⟩
    obtain ⟨p, hp, rfl⟩ := List.mem_map.mp (((h.keys key).mp hkey).resolve_left hnew)
    exact ⟨p, hp, hnew⟩

/-- A call that may be made: its count is a uint64_t, and the library behaves as documented. -/
structure Proper (call : Call) : Prop where
  count : call.trace.length < 2 ^ 64
  documented : ∀ i, Documented (call.env.branch i).graphAdd

theorem Proper.written {call : Call} (h : Proper call) {m : Monitor} {heap : ℕ}
    (hret : (processBranches call.env call.trace m (callArgs heap)).stop = .returned 0) :
    Written m call.trace (processBranches call.env call.trace m (callArgs heap)) :=
  processBranches_written h.documented h.count hret

def next (m : Monitor) (out : Outcome) : Monitor :=
  { m with branchHits := out.branchHits, inputN := m.inputN + 1 }

/-- A run of calls that return 0 starts with one of them. -/
theorem runCalls_cons {m : Monitor} {heap : ℕ} {call : Call} {calls : List Call}
    (hproper : ∀ c ∈ call :: calls, Proper c)
    (hret : ∀ out ∈ runCalls m heap (call :: calls), out.stop = .returned 0) :
    ∃ out, runCalls m heap (call :: calls) = out :: runCalls (next m out) out.heap calls ∧
      Written m call.trace out ∧ (∀ c ∈ calls, Proper c) ∧
      ∀ o ∈ runCalls (next m out) out.heap calls, o.stop = .returned 0 :=
  ⟨processBranches call.env call.trace m (callArgs heap), rfl,
    (hproper call List.mem_cons_self).written (hret _ List.mem_cons_self),
    fun c hc => hproper c (List.mem_cons_of_mem _ hc),
    fun o ho => hret o (List.mem_cons_of_mem _ ho)⟩

theorem mem_files_cons {out : Outcome} {outs : List Outcome} {f : CText × List CText} :
    f ∈ files (out :: outs) ↔ out.file = some f ∨ f ∈ files outs := by
  unfold files
  simp only [List.mem_filterMap, List.mem_cons, exists_eq_or_imp]

theorem runCalls_perInput {m : Monitor} {heap : ℕ} {calls : List Call}
    (hproper : ∀ call ∈ calls, Proper call)
    (hret : ∀ out ∈ runCalls m heap calls, out.stop = .returned 0) (k : ℕ) {call : Call}
    {out : Outcome} (hcall : calls[k]? = some call) (hout : (runCalls m heap calls)[k]? = some out) :
    PerInput m.secBounds m.bbs (tableAfter m.branchHits ((runCalls m heap calls).take k))
      call.trace out := by
  induction calls generalizing m heap k with
  | nil => simp at hcall
  | cons first calls ih =>
    obtain ⟨out₁, hrun, hwritten, hrest, hrets⟩ := runCalls_cons hproper hret
    rw [hrun] at hout ⊢
    cases k with
    | zero =>
      cases hcall
      cases hout
      exact hwritten.perInput
    | succ k =>
      rw [List.getElem?_cons_succ] at hcall hout
      rw [List.take_succ_cons]
      exact ih hrest hrets k hcall hout

/-- A key is in the table after a call when it was there before, or its edge is listed: where
no file is written, the trace has nothing new. -/
theorem Written.mem_iff {m : Monitor} {trace : List BtsBranch} {out : Outcome}
    (h : Written m trace out) (p : UInt64 × UInt64) :
    pairKey p ∈ out.branchHits ↔
      pairKey p ∈ m.branchHits ∨ ∃ f, out.file = some f ∧ edgeLine p ∈ f.2 := by
  rw [h.keys, List.mem_map_of_injective pairKey_injective]
  constructor
  · rintro (hold | hrec)
    · exact .inl hold
    · by_cases hnew : pairKey p ∈ m.branchHits
      · exact .inl hnew
      · obtain ⟨f, hf⟩ := Option.isSome_iff_exists.mp (h.isSome.mpr ⟨p, hrec, hnew⟩)
        exact .inr ⟨f, hf, ((h.lists f hf).2.mem_iff p).mpr hrec⟩
  · rintro (hold | ⟨f, hf, hline⟩)
    · exact .inl hold
    · exact .inr (((h.lists f hf).2.mem_iff p).mp hline)

/-- The keys of the table after a run are those from before and those of the edges listed. -/
theorem runCalls_union {m : Monitor} {heap : ℕ} {calls : List Call}
    (hproper : ∀ call ∈ calls, Proper call)
    (hret : ∀ out ∈ runCalls m heap calls, out.stop = .returned 0) (p : UInt64 × UInt64) :
    pairKey p ∈ tableAfter m.branchHits (runCalls m heap calls) ↔
      pairKey p ∈ m.branchHits ∨ ∃ f ∈ files (runCalls m heap calls), edgeLine p ∈ f.2 := by
  induction calls generalizing m heap with
  | nil => simp [runCalls, tableAfter, files]
  | cons first calls ih =>
    obtain ⟨out, hrun, hwritten, hrest, hrets⟩ := runCalls_cons hproper hret
    have hafter : tableAfter m.branchHits (runCalls m heap (first :: calls)) =
        tableAfter out.branchHits (runCalls (next m out) out.heap calls) := by
      rw [hrun]
      rfl
    have hlater := ih hrest hrets
    change _ ↔ pairKey p ∈ out.branchHits ∨ _ at hlater
    rw [hafter, hrun, hwritten.mem_iff, or_assoc] at *
    simp only [mem_files_cons, or_and_right, exists_or]
    exact hlater

theorem inputN_shift (a : UInt64) (n : ℕ) :
    a + 1 + UInt64.ofNat n = a + UInt64.ofNat (n + 1) := by
  rw [UInt64.ofNat_add, UInt64.add_assoc, UInt64.add_comm 1]
  rfl

theorem inputN_ne (a : UInt64) {n : ℕ} (h : n + 1 < 2 ^ 64) : a ≠ a + UInt64.ofNat (n + 1) := by
  intro heq
  have hzero : UInt64.ofNat (n + 1) = 0 := left_eq_add.mp heq
  have hnat := congrArg UInt64.toNat hzero
  rw [UInt64.toNat_ofNat', UInt64.toNat_zero, Nat.mod_eq_of_lt h] at hnat
  exact Nat.succ_ne_zero n hnat

/-- The names of the files of a run with so many calls, from the given number on, fit. -/
def NamesFit (graphIndivPath : Option CText) (inputN : UInt64) (count : ℕ) : Prop :=
  ∀ n < count, (indivText graphIndivPath (inputN + UInt64.ofNat n)).length < pathMax

theorem NamesFit.head {graphIndivPath : Option CText} {inputN : UInt64} {count : ℕ}
    (h : NamesFit graphIndivPath inputN (count + 1)) :
    (indivText graphIndivPath inputN).length < pathMax := by
  have hzero : inputN + UInt64.ofNat 0 = inputN := UInt64.add_zero _
  have hfits := h 0 (Nat.succ_pos _)
  rwa [hzero] at hfits

theorem NamesFit.tail {graphIndivPath : Option CText} {inputN : UInt64} {count : ℕ}
    (h : NamesFit graphIndivPath inputN (count + 1)) :
    NamesFit graphIndivPath (inputN + 1) count := by
  intro n hn
  rw [inputN_shift]
  exact h (n + 1) (Nat.succ_lt_succ hn)

theorem Written.name {m : Monitor} {trace : List BtsBranch} {out : Outcome}
    (h : Written m trace out) (hfits : (indivText m.graphIndivPath m.inputN).length < pathMax)
    {f : CText × List CText} (hf : out.file = some f) :
    f.1 = indivText m.graphIndivPath m.inputN := by
  rw [(h.lists f hf).1]
  exact snprintf_of_lt hfits

/-- A file of a run has the number of one of its inputs. -/
theorem runCalls_name {m : Monitor} {heap : ℕ} {calls : List Call}
    (hproper : ∀ call ∈ calls, Proper call)
    (hret : ∀ out ∈ runCalls m heap calls, out.stop = .returned 0)
    (hnames : NamesFit m.graphIndivPath m.inputN calls.length) :
    ∀ f ∈ files (runCalls m heap calls), ∃ n < calls.length,
      f.1 = indivText m.graphIndivPath (m.inputN + UInt64.ofNat n) := by
  induction calls generalizing m heap with
  | nil => exact fun _ h => absurd h List.not_mem_nil
  | cons first calls ih =>
    obtain ⟨out, hrun, hwritten, hrest, hrets⟩ := runCalls_cons hproper hret
    rw [hrun]
    intro f hf
    rcases mem_files_cons.mp hf with hf | hf
    · refine ⟨0, Nat.succ_pos _, ?_⟩
      rw [hwritten.name hnames.head hf]
      exact congrArg _ (UInt64.add_zero _).symm
    · obtain ⟨n, hn, hname⟩ := ih hrest hrets hnames.tail f hf
      refine ⟨n + 1, Nat.succ_lt_succ hn, ?_⟩
      rw [← inputN_shift]
      exact hname

/-- Up to 2^64 inputs have different numbers, and their files different names. -/
theorem runCalls_names_nodup {m : Monitor} {heap : ℕ} {calls : List Call}
    (hproper : ∀ call ∈ calls, Proper call)
    (hret : ∀ out ∈ runCalls m heap calls, out.stop = .returned 0)
    (hnames : NamesFit m.graphIndivPath m.inputN calls.length) (hcalls : calls.length ≤ 2 ^ 64) :
    ((files (runCalls m heap calls)).map Prod.fst).Nodup := by
  induction calls generalizing m heap with
  | nil => exact List.nodup_nil
  | cons first calls ih =>
    rw [List.length_cons] at hcalls
    obtain ⟨out, hrun, hwritten, hrest, hrets⟩ := runCalls_cons hproper hret
    have hnodup := ih hrest hrets hnames.tail (by omega)
    have hrange := runCalls_name hrest hrets hnames.tail
    rw [hrun]
    cases hfile : out.file with
    | none =>
      have hskip : files (out :: runCalls (next m out) out.heap calls) =
          files (runCalls (next m out) out.heap calls) := List.filterMap_cons_none hfile
      rw [hskip]
      exact hnodup
    | some f =>
      have hadd : files (out :: runCalls (next m out) out.heap calls) =
          f :: files (runCalls (next m out) out.heap calls) := List.filterMap_cons_some hfile
      rw [hadd, List.map_cons, hwritten.name hnames.head hfile]
      refine List.nodup_cons.mpr ⟨fun hmem => ?_, hnodup⟩
      obtain ⟨f', hf', hname⟩ := List.mem_map.mp hmem
      obtain ⟨n, hn, hlater⟩ := hrange f' hf'
      have heq := hname.symm.trans hlater
      change indivText m.graphIndivPath m.inputN =
        indivText m.graphIndivPath (m.inputN + 1 + UInt64.ofNat n) at heq
      rw [inputN_shift] at heq
      exact inputN_ne m.inputN (by omega) (indivText_injective _ heq)

/-- The per-input graphs of a run lose no coverage: no file is written twice while input_n does
not wrap, each lists its own trace, written when that adds a key, and together they list the
edges of the table. -/
theorem inputGraphs_lossless (m : Monitor) (heap : ℕ) (calls : List Call)
    (hempty : m.branchHits = ∅) (hzero : m.inputN = 0)
    (hproper : ∀ call ∈ calls, Proper call)
    (hret : ∀ out ∈ runCalls m heap calls, out.stop = .returned 0)
    (hnames : NamesFit m.graphIndivPath 0 calls.length) :
    (calls.length ≤ 2 ^ 64 → ((files (runCalls m heap calls)).map Prod.fst).Nodup) ∧
      (∀ k call out, calls[k]? = some call → (runCalls m heap calls)[k]? = some out →
        PerInput m.secBounds m.bbs (tableAfter ∅ ((runCalls m heap calls).take k))
          call.trace out) ∧
      ∀ p, (∃ f ∈ files (runCalls m heap calls), edgeLine p ∈ f.2) ↔
        hashKey p.1 p.2 ∈ tableAfter ∅ (runCalls m heap calls) := by
  refine ⟨fun hcalls => ?_, fun k call out hcall hout => ?_, fun p => ?_⟩
  · rw [← hzero] at hnames
    exact runCalls_names_nodup hproper hret hnames hcalls
  · rw [← hempty]
    exact runCalls_perInput hproper hret k hcall hout
  · rw [hashKey_eq, ← hempty, runCalls_union hproper hret, hempty]
    exact (or_iff_right (AList.notMem_empty _)).symm

theorem indivText_length_le (graphIndivPath : Option CText) (n : UInt64) :
    (indivText graphIndivPath n).length ≤ (graphIndivPath.getD "(null)".toList).length + 30 := by
  have hlen := decimal_length_le n
  have hword : "/graph.".toList.length = 7 := by decide
  have hend : ".gv".toList.length = 3 := by decide
  unfold indivText
  rw [List.length_append, List.length_append, List.length_append, hword, hend]
  omega

theorem sampleMonitor_namesFit (n : UInt64) :
    (indivText sampleMonitor.graphIndivPath n).length < pathMax :=
  lt_of_le_of_lt (indivText_length_le _ n) (by decide)

theorem inputGraphs_lossless_sampleCalls :
    ((files (runCalls sampleMonitor 0 sampleCalls)).map Prod.fst).Nodup :=
  (inputGraphs_lossless sampleMonitor 0 sampleCalls rfl rfl
    (fun call hcall => by
      simp only [sampleCalls, List.mem_cons, List.not_mem_nil, or_false] at hcall
      rcases hcall with rfl | rfl <;> exact ⟨by decide, fun _ => documented_succeed⟩)
    (by decide) (fun n _ => sampleMonitor_namesFit _)).1 (by decide)

def idle : Call := ⟨.succeed, []⟩

theorem processBranches_idle (m : Monitor) (heap : ℕ) :
    (processBranches .succeed [] m (callArgs heap)).branchHits = m.branchHits ∧
      (processBranches .succeed [] m (callArgs heap)).file = none ∧
      (processBranches .succeed [] m (callArgs heap)).heap = heap :=
  ⟨rfl, rfl, rfl⟩

theorem files_idle (m : Monitor) (heap n : ℕ) (calls : List Call) :
    files (runCalls m heap (List.replicate n idle ++ calls)) =
      files (runCalls { m with inputN := m.inputN + UInt64.ofNat n } heap calls) := by
  induction n generalizing m with
  | zero =>
    have hzero : m.inputN + UInt64.ofNat 0 = m.inputN := UInt64.add_zero _
    rw [hzero]
    rfl
  | succ n ih =>
    obtain ⟨htable, hfile, hheap⟩ := processBranches_idle m heap
    rw [List.replicate_succ, List.cons_append, runCalls]
    unfold idle
    dsimp only
    unfold files at ih ⊢
    rw [List.filterMap_cons_none hfile, htable, hheap, ← inputN_shift]
    exact ih { m with inputN := m.inputN + 1 }

/-- The files of two inputs with idle ones between them. -/
theorem files_between (m : Monitor) (heap n : ℕ) (first last : Call) :
    files (runCalls m heap (first :: (List.replicate n idle ++ [last]))) =
      let out := processBranches first.env first.trace m (callArgs heap)
      files [out, processBranches last.env last.trace
        { next m out with inputN := m.inputN + 1 + UInt64.ofNat n } (callArgs out.heap)] := by
  have hidle := files_idle (next m (processBranches first.env first.trace m (callArgs heap)))
    (processBranches first.env first.trace m (callArgs heap)).heap n [last]
  have hcons : ∀ out : Outcome, ∀ outs, files (out :: outs) = out.file.toList ++ files outs := by
    intro out outs
    unfold files
    cases hfile : out.file with
    | none => rw [List.filterMap_cons_none hfile, Option.toList_none, List.nil_append]
    | some f => rw [List.filterMap_cons_some hfile, Option.toList_some, List.singleton_append]
  dsimp only
  rw [runCalls, hcons, hcons]
  exact congrArg _ hidle

/-- A new edge, so many inputs without any branch that the number comes back to 0, and another
new edge. -/
def wrapCalls : List Call :=
  ⟨.succeed, [⟨17, 80, 0⟩]⟩ ::
    (List.replicate (2 ^ 64 - 1) idle ++ [⟨.succeed, [⟨18, 90, 0⟩]⟩])

/-- All these calls return 0, and the last one writes the file of the first again. -/
theorem wrapCalls_rewrite :
    (∀ out ∈ runCalls sampleMonitor 0 wrapCalls, out.stop = .returned 0) ∧
      (∀ n, (indivText sampleMonitor.graphIndivPath n).length < pathMax) ∧
      ¬((files (runCalls sampleMonitor 0 wrapCalls)).map Prod.fst).Nodup := by
  refine ⟨?_, sampleMonitor_namesFit, ?_⟩
  · apply runCalls_succeed
    intro call hcall
    unfold wrapCalls at hcall
    rw [List.mem_cons, List.mem_append, List.mem_singleton] at hcall
    rcases hcall with rfl | hcall | rfl
    · rfl
    · rw [List.eq_of_mem_replicate hcall]
      rfl
    · rfl
  · have hwrap : sampleMonitor.inputN + 1 + UInt64.ofNat (2 ^ 64 - 1) = 0 := by decide
    unfold wrapCalls
    rw [files_between, hwrap]
    decide

end FuzzMonitor.Branches
