import FuzzMonitor.Coverage

namespace FuzzMonitor.Branches
open CStrings Tally FuzzMonitor.Graph

/-- What the calls made for one entry report: strdup, the mallocs of the two address
cells, and graph_add's own calls. -/
structure EntryEnv where
  strdup : Bool
  cells : Bool
  graphAdd : AddEnv

structure FreeEnv where
  fopen : Bool
  graphNew : NewEnv
  entry : ℕ → EntryEnv

def FreeEnv.succeed : FreeEnv := ⟨true, .succeed, fun _ => ⟨true, true, .succeed⟩⟩

/-- How free_hashtable stops: it returns, it calls exit, or the process dies in a failed
assertion, in abort or on a null pointer. -/
inductive FreeStop
  | returned | exitFailure | died
  deriving DecidableEq, Repr

/-- The variables of the loop over the entries, the text printed into the file, the number
of allocations so far and the allocations released. -/
structure FreeState where
  graph : Graph
  file : List CText
  heap : ℕ
  freed : List ℕ

def labelLine («from» «to» value : UInt64) : CText :=
  "\t\"0x".toList ++ hex «from» ++ "\" -> \"0x".toList ++ hex «to» ++ "\" [label=\"".toList ++
    decimal value ++ "\"];\n".toList

/-- One pass of the loop with a graph file; the copy of the key is the first of its three
allocations. -/
def freeEntry (env : EntryEnv) (key : CText) (entry : HitEntry) (s : FreeState) :
    Option FreeState :=
  if !env.strdup then none
  else
    match decodeKey key with
    | none => none
    | some r =>
      if !env.cells then none
      else
        let fromCell : Cell := ⟨s.heap + 1, r.1⟩
        let toCell : Cell := ⟨s.heap + 2, r.2⟩
        let added := s.graph.graphAdd env.graphAdd fromCell toCell
        match freeCells added.1 fromCell toCell (s.freed ++ [s.heap]) with
        | none => none
        | some freed =>
          some ⟨added.2, s.file ++ [labelLine r.1 r.2 entry.value.val], s.heap + 3,
            freed ++ [entry.keyId, entry.value.id]⟩

def freeEntries (env : ℕ → EntryEnv) : ℕ → List (CText × HitEntry) → FreeState → Option FreeState
  | _, [], s => some s
  | i, e :: es, s =>
    match freeEntry (env i) e.1 e.2 s with
    | none => none
    | some s => freeEntries env (i + 1) es s

/-- What free_hashtable leaves behind: the file with its text, the lines it logs, and the
allocations released. -/
structure FreeOutcome where
  stop : FreeStop
  file : Option (CText × List CText)
  log : List CText
  freed : List ℕ

def header : CText := "digraph \x7b\n".toList
def footer : CText := "\x7d\n".toList

def reportGraph (name : CText) (s : FreeState) : FreeOutcome :=
  let file := some (name, s.file ++ [footer])
  match s.graph.graphEdges with
  | none => ⟨.died, file, [], s.freed⟩
  | some edges =>
    let line := "graph with ".toList ++ Nat.toDigits 10 s.graph.graphNodes ++
      " nodes and ".toList ++ Nat.toDigits 10 edges ++ " edges".toList
    match s.graph.graphForeach (graphPrintAndFree .log) ([line], s.freed) with
    | none => ⟨.died, file, [line], s.freed⟩
    | some (log, freed) => ⟨.returned, file, log, freed⟩

/-- The entries stand in the order in which the iterator yields them. -/
def freeHashtable (env : FreeEnv) (entries : List (CText × HitEntry))
    (graphFilename : Option CText) (heap : ℕ) : FreeOutcome :=
  match graphFilename with
  | none => ⟨.returned, none, [], entries.flatMap fun e => [e.2.keyId, e.2.value.id]⟩
  | some name =>
    if !env.fopen then ⟨.exitFailure, none, [], []⟩
    else
      match graphNew env.graphNew with
      | (.ok, some graph) =>
        if entries.length = 0 then ⟨.returned, some (name, [header, footer]), [], []⟩
        else
          match freeEntries env.entry 0 entries ⟨graph, [header], heap, []⟩ with
          | none => ⟨.died, some (name, [header]), [], []⟩
          | some s => reportGraph name s
      | _ => ⟨.died, some (name, []), [], []⟩

def printedLine (e : (UInt64 × UInt64) × HitEntry) : CText :=
  labelLine (readBack e.1.1) (readBack e.1.2) e.2.value.val

theorem freeCells_isSome {g : Graph} {added : List (UInt64 × UInt64)} (h : Represents g added)
    (fromCell toCell : Cell) (freed : List ℕ) :
    (freeCells (g.graphAdd .succeed fromCell toCell).1 fromCell toCell freed).isSome := by
  rw [h.status]
  unfold freeCells
  split_ifs <;> simp_all

theorem freeEntry_printed (e : (UInt64 × UInt64) × HitEntry) (i : ℕ) (s : FreeState)
    (added : List (UInt64 × UInt64)) (hs : Represents s.graph added) :
    ∃ s', freeEntry (FreeEnv.succeed.entry i) (pairKey e.1) e.2 s = some s' ∧
      s'.file = s.file ++ [printedLine e] ∧
      Represents s'.graph (added ++ [(readBack e.1.1, readBack e.1.2)]) := by
  have hadded := hs.graphAdd ⟨s.heap + 1, readBack e.1.1⟩ ⟨s.heap + 2, readBack e.1.2⟩
  obtain ⟨freed, hfreed⟩ := Option.isSome_iff_exists.mp
    (freeCells_isSome hs ⟨s.heap + 1, readBack e.1.1⟩ ⟨s.heap + 2, readBack e.1.2⟩
      (s.freed ++ [s.heap]))
  unfold freeEntry
  rw [decodeKey_pairKey]
  simp only [FreeEnv.succeed, Bool.not_true, Bool.false_eq_true, if_false, hfreed]
  exact ⟨_, rfl, rfl, hadded⟩

/-- The loop on the keys of recorded edges prints one line for each, and leaves a graph that
represents what it read back. -/
theorem freeEntries_printed (es : List ((UInt64 × UInt64) × HitEntry)) (i : ℕ) (s : FreeState)
    (added : List (UInt64 × UInt64)) (hs : Represents s.graph added) :
    ∃ s', freeEntries FreeEnv.succeed.entry i (es.map fun e => (pairKey e.1, e.2)) s = some s' ∧
      s'.file = s.file ++ es.map printedLine ∧
      Represents s'.graph (added ++ es.map fun e => (readBack e.1.1, readBack e.1.2)) := by
  induction es generalizing i s added with
  | nil => exact ⟨s, rfl, (List.append_nil _).symm, by simpa using hs⟩
  | cons e es ih =>
    obtain ⟨s₁, hentry, hfile₁, hrep₁⟩ := freeEntry_printed e i s added hs
    obtain ⟨s', hloop, hfile, hrep⟩ := ih (i + 1) s₁ _ hrep₁
    refine ⟨s', ?_, ?_, ?_⟩
    · rw [List.map_cons, freeEntries, hentry]
      exact hloop
    · rw [hfile, hfile₁, List.map_cons, List.append_assoc]
      rfl
    · rw [List.append_assoc] at hrep
      exact hrep

theorem reportGraph_file {s : FreeState} {added : List (UInt64 × UInt64)} (name : CText)
    (h : Represents s.graph added) :
    (reportGraph name s).stop = .returned ∧
      (reportGraph name s).file = some (name, s.file ++ [footer]) := by
  unfold reportGraph
  rw [h.graphEdges]
  dsimp only
  rw [graphForeach_eq _ h.lengths]
  exact ⟨rfl, rfl⟩

theorem freeHashtable_file (es : List ((UInt64 × UInt64) × HitEntry)) (name : CText)
    (heap : ℕ) :
    (freeHashtable .succeed (es.map fun e => (pairKey e.1, e.2)) (some name) heap).stop =
        .returned ∧
      (freeHashtable .succeed (es.map fun e => (pairKey e.1, e.2)) (some name) heap).file =
        some (name, header :: es.map printedLine ++ [footer]) := by
  cases es with
  | nil => exact ⟨rfl, rfl⟩
  | cons e es =>
    obtain ⟨s', hloop, hfile, hrep⟩ :=
      freeEntries_printed (e :: es) 0 ⟨⟨[], [], 0⟩, [header], heap, []⟩ [] represents_empty
    have hrun : freeHashtable .succeed ((e :: es).map fun e => (pairKey e.1, e.2)) (some name)
        heap = reportGraph name s' := by
      show (match freeEntries FreeEnv.succeed.entry 0
          ((e :: es).map fun e => (pairKey e.1, e.2)) ⟨⟨[], [], 0⟩, [header], heap, []⟩ with
        | none => _
        | some s => reportGraph name s) = _
      rw [hloop]
    rw [hrun]
    obtain ⟨hstop, hwritten⟩ := reportGraph_file name hrep
    refine ⟨hstop, ?_⟩
    rw [hwritten, hfile]
    rfl

theorem exists_edges {t : BranchHits} {hist : List (UInt64 × UInt64)}
    {entries : List (CText × HitEntry)} (ht : Tallies hits t (hist.map pairKey))
    (hget : ∀ e ∈ entries, t.lookup e.1 = some e.2) :
    ∃ es : List ((UInt64 × UInt64) × HitEntry), es.map (fun e => (pairKey e.1, e.2)) = entries := by
  have hrange : entries ∈ Set.range
      (List.map fun e : (UInt64 × UInt64) × HitEntry => (pairKey e.1, e.2)) := by
    rw [Set.range_list_map]
    intro e he
    obtain ⟨p, -, hp⟩ := List.mem_map.mp (ht.val_eq_count (hget e he)).1
    exact ⟨(p, e.2), Prod.ext hp rfl⟩
  exact hrange

theorem exists_recorded {t : BranchHits} {hist : List (UInt64 × UInt64)}
    {entries : List (CText × HitEntry)} (ht : Tallies hits t (hist.map pairKey))
    (hperm : entries.Perm (t.entries.map fun e => (e.1, e.2))) :
    ∃ es : List ((UInt64 × UInt64) × HitEntry),
      entries = es.map (fun e => (pairKey e.1, e.2)) ∧ (es.map Prod.fst).Perm hist.dedup ∧
      ∀ e ∈ es, hits e.2 = hist.count e.1 := by
  have hget : ∀ e ∈ entries, t.lookup e.1 = some e.2 := by
    intro e he
    obtain ⟨e', he', rfl⟩ := List.mem_map.mp (hperm.mem_iff.mp he)
    exact AList.mem_lookup_iff.mpr he'
  obtain ⟨es, rfl⟩ := exists_edges ht hget
  have hkeys : ((es.map Prod.fst).map pairKey).Perm t.keys := by
    have h := hperm.map Prod.fst
    rw [List.map_map, List.map_map] at h
    rw [List.map_map]
    exact h
  refine ⟨es, rfl, ?_, ?_⟩
  · have hnodup : (es.map Prod.fst).Nodup := (hkeys.nodup_iff.mpr t.nodupKeys).of_map pairKey
    apply (List.perm_ext_iff_of_nodup hnodup hist.nodup_dedup).mpr
    intro p
    rw [← List.mem_map_of_injective pairKey_injective, hkeys.mem_iff, ht.mem_keys,
      List.mem_map_of_injective pairKey_injective, List.mem_dedup]
  · intro e he
    have hval := ht.lookup_map pairKey_injective e.1
    rw [hget (pairKey e.1, e.2) (List.mem_map_of_mem he), Option.map_some] at hval
    split_ifs at hval
    exact Option.some.inj hval

/-- Below 2^63 both addresses survive atol, so each line shows its edge and its count. -/
theorem map_printedLine {es : List ((UInt64 × UInt64) × HitEntry)}
    {hist : List (UInt64 × UInt64)} (hcount : ∀ e ∈ es, hits e.2 = hist.count e.1)
    (hsmall : ∀ e ∈ es, e.1.1.toNat < 2 ^ 63 ∧ e.1.2.toNat < 2 ^ 63) :
    es.map printedLine = (es.map Prod.fst).map
      fun p => labelLine p.1 p.2 (UInt64.ofNat (hist.count p)) := by
  rw [List.map_map]
  apply List.map_congr_left
  intro e he
  unfold printedLine
  dsimp only [Function.comp]
  rw [(readBack_eq_iff _).mpr (hsmall e he).1, (readBack_eq_iff _).mpr (hsmall e he).2,
    ← hcount e he]
  show labelLine _ _ e.2.value.val = labelLine _ _ (UInt64.ofNat e.2.value.val.toNat)
  rw [UInt64.ofNat_toNat]

/-- The final graph file lists every recorded edge once, under its own addresses and with
its count. -/
def ListsEdges (hist : List (UInt64 × UInt64)) (file : List CText) : Prop :=
  ∃ body, file = header :: body ++ [footer] ∧
    body.Perm (hist.dedup.map fun p => labelLine p.1 p.2 (UInt64.ofNat (hist.count p)))

theorem freeHashtable_lists {t : BranchHits} {hist : List (UInt64 × UInt64)}
    {entries : List (CText × HitEntry)} (name : CText) (heap : ℕ)
    (ht : Tallies hits t (hist.map pairKey))
    (hperm : entries.Perm (t.entries.map fun e => (e.1, e.2)))
    (hsmall : ∀ p ∈ hist, p.1.toNat < 2 ^ 63 ∧ p.2.toNat < 2 ^ 63) :
    ∃ file, (freeHashtable .succeed entries (some name) heap).file = some (name, file) ∧
      ListsEdges hist file := by
  obtain ⟨es, rfl, hfst, hcount⟩ := exists_recorded ht hperm
  refine ⟨_, (freeHashtable_file es name heap).2, es.map printedLine, rfl, ?_⟩
  have hmem : ∀ e ∈ es, e.1 ∈ hist := fun e he =>
    List.mem_dedup.mp (hfst.mem_iff.mp (List.mem_map_of_mem he))
  rw [map_printedLine hcount fun e he => hsmall e.1 (hmem e he)]
  exact hfst.map _

/-- Every key is written in full and decoded to its own pair, so that the final graph file
is right, exactly when all addresses are below 2^63. -/
theorem freeHashtable_lists_edges_iff (t : BranchHits) (hist : List (UInt64 × UInt64))
    (entries : List (CText × HitEntry)) (name : CText) (heap : ℕ)
    (ht : Tallies hits t (hist.map pairKey))
    (hperm : entries.Perm (t.entries.map fun e => (e.1, e.2))) :
    ((∀ p ∈ hist, hashKey p.1 p.2 = pairKey p ∧ decodeKey (hashKey p.1 p.2) = some p) ∧
      ∃ file, (freeHashtable .succeed entries (some name) heap).file = some (name, file) ∧
        ListsEdges hist file) ↔
    ∀ p ∈ hist, p.1.toNat < 2 ^ 63 ∧ p.2.toNat < 2 ^ 63 := by
  have hdecode : ∀ p : UInt64 × UInt64, decodeKey (hashKey p.1 p.2) = some p ↔
      p.1.toNat < 2 ^ 63 ∧ p.2.toNat < 2 ^ 63 := by
    intro p
    rw [hashKey_eq, decodeKey_pairKey, Option.some_inj, Prod.ext_iff, readBack_eq_iff,
      readBack_eq_iff]
  constructor
  · intro h p hp
    exact (hdecode p).mp (h.1 p hp).2
  · intro h
    exact ⟨fun p hp => ⟨hashKey_eq p.1 p.2, (hdecode p).mpr (h p hp)⟩,
      freeHashtable_lists name heap ht hperm h⟩

def sampleHits : BranchHits := (∅ : BranchHits).insert (pairKey (16, 80)) ⟨0, ⟨1, 1⟩⟩

theorem sampleHits_tallies : Tallies hits sampleHits ([(16, 80)].map pairKey) :=
  (tallies_empty hits).insert_fresh rfl rfl

theorem freeHashtable_lists_sampleHits :
    (∀ p ∈ [((16 : UInt64), (80 : UInt64))],
      hashKey p.1 p.2 = pairKey p ∧ decodeKey (hashKey p.1 p.2) = some p) ∧
    ∃ file, (freeHashtable .succeed (sampleHits.entries.map fun e => (e.1, e.2))
        (some "graph.gv".toList) 0).file = some ("graph.gv".toList, file) ∧
      ListsEdges [(16, 80)] file :=
  (freeHashtable_lists_edges_iff sampleHits [(16, 80)] _ "graph.gv".toList 0 sampleHits_tallies
    (List.Perm.refl _)).mpr (by simp)

/-- Two recorded edges from the upper half of the address space are read back as one, under
an address of neither. -/
theorem decodeKey_merges :
    skipped none ⟨0x8000000000000000, 80, 0⟩ = false ∧
    skipped none ⟨0x8000000000000010, 80, 0⟩ = false ∧
    decodeKey (hashKey 0x8000000000000000 80) = some (0x7fffffffffffffff, 80) ∧
    decodeKey (hashKey 0x8000000000000010 80) = some (0x7fffffffffffffff, 80) := by
  decide

end FuzzMonitor.Branches
