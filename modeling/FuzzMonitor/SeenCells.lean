import FuzzMonitor.CellHeap
import FuzzMonitor.LoopCoverage

namespace FuzzMonitor.MonitorLoop
open CStrings Inotify Branches Perf Tally Runs Crc64 CellHeap

inductive SeenTag
  | hash | value
  deriving DecidableEq, Repr

abbrev SeenLog := List (Event SeenTag)

def SeenEntry.valueId (e : SeenEntry) : ℕ := e.keyId + 1

def SeenEntry.cells (e : SeenEntry) : List ℕ := [e.keyId, e.valueId]

def tableCells (t : Table UInt64 SeenEntry) : List ℕ := t.entries.flatMap fun e => e.2.cells

/-- The cells that the table may read to find the hash: the hash, and any key. -/
def searchUses (bufHash : ℕ) (t : Table UInt64 SeenEntry) : List ℕ :=
  bufHash :: t.entries.map fun e => e.2.keyId

def noteUses (bufHash valueId : ℕ) (value : UInt32) (maxSeenInput : UInt64) : List ℕ :=
  valueId :: (if value.toUInt64 > maxSeenInput then [valueId, bufHash] else []) ++ [valueId]

def noteLog (bufHash valueId : ℕ) (value : UInt32) (maxSeenInput : UInt64) : SeenLog :=
  (noteUses bufHash valueId value maxSeenInput).map .use ++
    if value > 1 then [.free bufHash] else []

def countLog (env : SeenEnv) (hash : UInt64) (s : SeenInputs) : SeenLog :=
  if !env.hashCell then []
  else
    let bufHash := s.heap
    .alloc .hash bufHash :: (bufHash :: searchUses bufHash s.table).map .use ++
      match s.table.lookup hash with
      | some entry =>
        .use entry.valueId :: noteLog bufHash entry.valueId (entry.value + 1) s.maxSeenInput
      | none =>
        if !env.valueCell then []
        else
          let valueId := bufHash + 1
          .alloc .value valueId :: (valueId :: searchUses bufHash s.table).map .use ++
            if env.hashtableAdd ≠ .ok then [] else noteLog bufHash valueId 1 s.maxSeenInput

def tailLog (printSeenInputs : Bool) (entries : List (UInt64 × SeenEntry)) : SeenLog :=
  entries.flatMap fun e =>
    (if printSeenInputs then e.2.cells else []).map .use ++ e.2.cells.map .free

/-- A pass: the counting code for its input, and the count in the line that is printed when the
pass gets to its end. -/
def passLog (conf : LoopConf) (s : LoopState) (env : PassEnv) : SeenLog :=
  let s' := pass conf s env
  match s'.inputs.drop s.inputs.length with
  | [i] =>
    match utilCRC64 i.bytes i.size.toNat with
    | none => if !env.seen.hashCell then [] else [.alloc .hash s.seen.heap]
    | some hash =>
      countLog env.seen hash s.seen ++
        if s'.stop = none then
          (((s'.seen.table.lookup hash).map SeenEntry.valueId).toList).map .use
        else []
  | _ => []

structure Logging where
  loop : LoopState
  log : SeenLog

def logPass (conf : LoopConf) (r : Logging) (env : PassEnv) : Logging :=
  ⟨pass conf r.loop env, r.log ++ passLog conf r.loop env⟩

def logRun (conf : LoopConf) (m : Monitor) (g : GblStatus) (heap : ℕ) (queue : List InEvent)
    (envs : List PassEnv) : Logging :=
  envs.foldl (logPass conf) ⟨.enter m g heap queue, []⟩

theorem logRun_loop (conf : LoopConf) (m : Monitor) (g : GblStatus) (heap : ℕ)
    (queue : List InEvent) (envs : List PassEnv) :
    (logRun conf m g heap queue envs).loop = loopRun conf m g heap queue envs :=
  (List.foldl_hom Logging.loop fun _ _ => rfl).symm

theorem mem_tableCells {t : Table UInt64 SeenEntry} {k : UInt64} {e : SeenEntry}
    (h : t.lookup k = some e) : e.keyId ∈ tableCells t ∧ e.valueId ∈ tableCells t := by
  have hmem : (⟨k, e⟩ : Σ _ : UInt64, SeenEntry) ∈ t.entries := AList.mem_lookup_iff.mp h
  constructor
  · exact List.mem_flatMap.mpr ⟨_, hmem, List.mem_cons_self⟩
  · exact List.mem_flatMap.mpr ⟨_, hmem, List.mem_cons_of_mem _ (List.mem_singleton_self _)⟩

theorem mem_searchUses {bufHash id : ℕ} {t : Table UInt64 SeenEntry}
    (h : id ∈ searchUses bufHash t) : id = bufHash ∨ id ∈ tableCells t := by
  rcases List.mem_cons.mp h with h | h
  · exact .inl h
  · obtain ⟨e, he, rfl⟩ := List.mem_map.mp h
    exact .inr (List.mem_flatMap.mpr ⟨e, he, List.mem_cons_self⟩)

theorem mem_noteUses {bufHash valueId id : ℕ} {value : UInt32} {maxSeenInput : UInt64}
    (h : id ∈ noteUses bufHash valueId value maxSeenInput) : id = bufHash ∨ id = valueId := by
  unfold noteUses at h
  split_ifs at h
  · simp at h
    omega
  · simp at h
    omega

theorem tableCells_insert_present {t : Table UInt64 SeenEntry} {hash : UInt64} {e : SeenEntry}
    (value : UInt32) (h : t.lookup hash = some e) :
    (tableCells (t.insert hash { e with value := value })).Perm (tableCells t) := by
  unfold tableCells
  refine List.Perm.trans ?_ ((entries_perm h).flatMap_right _).symm
  rw [AList.entries_insert]
  rfl

theorem tableCells_insert_fresh {t : Table UInt64 SeenEntry} {hash : UInt64} (e : SeenEntry)
    (h : t.lookup hash = none) : tableCells (t.insert hash e) = e.cells ++ tableCells t := by
  unfold tableCells
  rw [AList.entries_insert_of_notMem (AList.lookup_eq_none.mp h), List.flatMap_cons]

/-- What the counting code makes of its variables: the allocations it makes and releases. -/
theorem countInput_cells {env : SeenEnv} {hash : UInt64} {s s' : SeenInputs}
    (h : countInput env hash s = some s') :
    env.hashCell = true ∧
    ((∃ e, s.table.lookup hash = some e ∧
        s'.table = s.table.insert hash { e with value := e.value + 1 } ∧ s'.heap = s.heap + 1 ∧
        s'.freed = if e.value + 1 > 1 then s.freed ++ [s.heap] else s.freed) ∨
      (s.table.lookup hash = none ∧ env.valueCell = true ∧ env.hashtableAdd = .ok ∧
        s'.table = s.table.insert hash ⟨s.heap, 1⟩ ∧ s'.heap = s.heap + 2 ∧
        s'.freed = s.freed)) := by
  have hkept : ∀ value s₁, (resetTotal (noteMax hash s.heap value s₁)).table = s₁.table ∧
      (resetTotal (noteMax hash s.heap value s₁)).heap = s₁.heap ∧
      (resetTotal (noteMax hash s.heap value s₁)).freed =
        if value > 1 then s₁.freed ++ [s.heap] else s₁.freed := by
    intro value s₁
    unfold resetTotal noteMax
    dsimp only
    refine ⟨?_, ?_, ?_⟩
    · split_ifs <;> rfl
    · split_ifs <;> rfl
    · split_ifs <;> rfl
  unfold countInput at h
  dsimp only at h
  split_ifs at h with hcell
  refine ⟨by simpa using hcell, ?_⟩
  unfold seenValue at h
  dsimp only at h
  cases hlookup : s.table.lookup hash with
  | some e =>
    rw [hlookup] at h
    obtain ⟨htable, hheap, hfreed⟩ := hkept (e.value + 1)
      { s with seenTotal := s.seenTotal + 1, heap := s.heap + 1,
               table := s.table.insert hash { e with value := e.value + 1 } }
    rw [← Option.some.inj h]
    exact .inl ⟨e, rfl, htable, hheap, hfreed⟩
  | none =>
    rw [hlookup] at h
    dsimp only at h
    split_ifs at h with hvalue hadd
    obtain ⟨htable, hheap, hfreed⟩ := hkept 1
      { s with seenTotal := s.seenTotal + 1, heap := s.heap + 1 + 1,
               table := s.table.insert hash ⟨s.heap, 1⟩ }
    rw [← Option.some.inj h]
    exact .inr ⟨rfl, by simpa using hvalue, by simpa using hadd, htable, hheap, hfreed⟩

theorem noteLog_freed (bufHash valueId : ℕ) (value : UInt32) (maxSeenInput : UInt64) :
    allocated (noteLog bufHash valueId value maxSeenInput) = [] ∧
      freed (noteLog bufHash valueId value maxSeenInput) = if value > 1 then [bufHash] else [] := by
  unfold noteLog
  rw [allocated_append, allocated_uses, freed_append, freed_uses]
  split_ifs <;> exact ⟨rfl, rfl⟩

theorem noteLog_moves {ids : List ℕ} {bufHash valueId : ℕ} (value : UInt32)
    (maxSeenInput : UInt64) (hvalue : valueId ∈ bufHash :: ids) :
    CellHeap.Moves (bufHash :: ids) (noteLog bufHash valueId value maxSeenInput)
      (if value > 1 then ids else bufHash :: ids) := by
  unfold noteLog
  refine .uses (fun id hid => ?_) ?_
  · rcases mem_noteUses hid with rfl | rfl
    · exact List.mem_cons_self
    · exact hvalue
  · split_ifs
    · exact .free (.nil _)
    · exact .nil _

theorem searchUses_live {t : Table UInt64 SeenEntry} {bufHash : ℕ} {ids : List ℕ}
    (hhash : bufHash ∈ ids) (hcells : tableCells t ⊆ ids) :
    ∀ id ∈ searchUses bufHash t, id ∈ ids := by
  intro id hid
  rcases mem_searchUses hid with rfl | hid
  · exact hhash
  · exact hcells hid

/-- What the log of the counting code does. -/
structure CountStep (env : SeenEnv) (hash : UInt64) (s : SeenInputs) (ids : List ℕ) (heap : ℕ) :
    Prop where
  ledger : Ledger (tableCells s.table) s.heap (countLog env hash s) ids heap
  counted : ∀ s', countInput env hash s = some s' →
    ids.Perm (tableCells s'.table) ∧ heap = s'.heap ∧
      s'.freed = s.freed ++ freed (countLog env hash s)
  died : countInput env hash s = none → freed (countLog env hash s) = []

/-- The hash of an input that is in the table already is released. -/
theorem countLog_present {env : SeenEnv} {hash : UInt64} {s : SeenInputs} {e : SeenEntry}
    (hs : CellHeap.Numbered (tableCells s.table) s.heap) (hcell : env.hashCell = true)
    (hlookup : s.table.lookup hash = some e) (hup : e.value + 1 > 1) :
    CountStep env hash s (tableCells s.table) (s.heap + 1) := by
  have hlog : countLog env hash s = .alloc .hash s.heap ::
      (s.heap :: searchUses s.heap s.table).map .use ++
        .use e.valueId :: noteLog s.heap e.valueId (e.value + 1) s.maxSeenInput := by
    unfold countLog
    rw [hcell, hlookup]
    rfl
  have hvalue : e.valueId ∈ s.heap :: tableCells s.table :=
    List.mem_cons_of_mem _ (mem_tableCells hlookup).2
  have hmoves : CellHeap.Moves (tableCells s.table) (countLog env hash s) (tableCells s.table) := by
    have hnote := noteLog_moves (e.value + 1) s.maxSeenInput hvalue
    rw [if_pos hup] at hnote
    rw [hlog]
    refine .alloc .hash (hs.notMem le_rfl) (.uses ?_ (.use hvalue hnote))
    exact List.forall_mem_cons.mpr ⟨List.mem_cons_self,
      searchUses_live List.mem_cons_self (List.subset_cons_self _ _)⟩
  obtain ⟨halloc, hfreed⟩ := noteLog_freed s.heap e.valueId (e.value + 1) s.maxSeenInput
  refine ⟨.of_moves hmoves ?_, fun s' hcount => ?_, fun hnone => ?_⟩
  · rw [hlog, List.cons_append, allocated_alloc, allocated_append, allocated_uses, allocated_use,
      halloc]
    rfl
  · obtain ⟨-, ⟨e', he', htable, hheap, hgone⟩ | ⟨hnone, -⟩⟩ := countInput_cells hcount
    · rw [hlookup] at he'
      cases he'
      rw [if_pos hup] at hgone hfreed
      refine ⟨?_, hheap.symm, ?_⟩
      · rw [htable]
        exact (tableCells_insert_present _ hlookup).symm
      · rw [hgone, hlog, List.cons_append, freed_alloc, freed_append, freed_uses, freed_use, hfreed]
        rfl
    · rw [hlookup] at hnone
      contradiction
  · unfold countInput seenValue at hnone
    simp [hcell, hlookup] at hnone

theorem countLog_absent {env : SeenEnv} {hash : UInt64} {s : SeenInputs}
    (hs : CellHeap.Numbered (tableCells s.table) s.heap) (hcell : env.hashCell = true)
    (hlookup : s.table.lookup hash = none) : ∃ ids heap, CountStep env hash s ids heap := by
  have hsearch : ∀ ids, s.heap ∈ ids → tableCells s.table ⊆ ids →
      ∀ id ∈ s.heap :: searchUses s.heap s.table, id ∈ ids := fun ids hhash hcells =>
    List.forall_mem_cons.mpr ⟨hhash, searchUses_live hhash hcells⟩
  have hone := hsearch (s.heap :: tableCells s.table) List.mem_cons_self (List.subset_cons_self _ _)
  cases hvalueCell : env.valueCell with
  | false =>
    have hlog : countLog env hash s = .alloc .hash s.heap ::
        ((s.heap :: searchUses s.heap s.table).map .use ++ []) := by
      unfold countLog
      rw [hcell, hlookup, hvalueCell]
      rfl
    refine ⟨s.heap :: tableCells s.table, s.heap + 1, .of_moves ?_ ?_, fun s' hcount => ?_,
      fun _ => ?_⟩
    · rw [hlog]
      exact .alloc .hash (hs.notMem le_rfl) (.uses hone (.nil _))
    · rw [hlog, allocated_alloc, allocated_append, allocated_uses]
      rfl
    · obtain ⟨-, ⟨e, he, -⟩ | ⟨-, hvalue, -⟩⟩ := countInput_cells hcount
      · rw [hlookup] at he
        contradiction
      · rw [hvalueCell] at hvalue
        contradiction
    · rw [hlog, freed_alloc, freed_append, freed_uses]
      rfl
  | true =>
    obtain ⟨rest, hrest⟩ : ∃ rest, rest = if env.hashtableAdd ≠ .ok then ([] : SeenLog)
      else noteLog s.heap (s.heap + 1) 1 s.maxSeenInput := ⟨_, rfl⟩
    have hlog : countLog env hash s = .alloc .hash s.heap ::
        ((s.heap :: searchUses s.heap s.table).map .use ++ .alloc .value (s.heap + 1) ::
          (((s.heap + 1) :: searchUses s.heap s.table).map .use ++ rest)) := by
      unfold countLog
      rw [hcell, hlookup, hvalueCell, hrest]
      rfl
    -- a count of 1 releases nothing
    have hend : CellHeap.Moves ((s.heap + 1) :: s.heap :: tableCells s.table) rest
        ((s.heap + 1) :: s.heap :: tableCells s.table) ∧ allocated rest = [] ∧ freed rest = [] := by
      rw [hrest]
      split_ifs
      · exact ⟨.nil _, rfl, rfl⟩
      · have hvalue : s.heap + 1 ∈ s.heap :: (s.heap + 1) :: tableCells s.table :=
          List.mem_cons_of_mem _ List.mem_cons_self
        have hnote := noteLog_moves 1 s.maxSeenInput hvalue
        obtain ⟨halloc, hfreed⟩ := noteLog_freed s.heap (s.heap + 1) 1 s.maxSeenInput
        exact ⟨hnote.perm (.swap _ _ _) (.swap _ _ _), halloc, hfreed⟩
    obtain ⟨hmoves, halloc, hfreed⟩ := hend
    have htwo : ∀ id ∈ (s.heap + 1) :: searchUses s.heap s.table,
        id ∈ (s.heap + 1) :: s.heap :: tableCells s.table :=
      List.forall_mem_cons.mpr ⟨List.mem_cons_self, searchUses_live
        (List.mem_cons_of_mem _ List.mem_cons_self)
        (List.Subset.trans (List.subset_cons_self _ _) (List.subset_cons_self _ _))⟩
    refine ⟨(s.heap + 1) :: s.heap :: tableCells s.table, s.heap + 2, .of_moves ?_ ?_,
      fun s' hcount => ?_, fun _ => ?_⟩
    · rw [hlog]
      refine .alloc .hash (hs.notMem le_rfl) (.uses hone ?_)
      exact .alloc .value (hs.cons.notMem le_rfl) (.uses htwo hmoves)
    · rw [hlog, allocated_alloc, allocated_append, allocated_uses, allocated_alloc,
        allocated_append, allocated_uses, halloc]
      rfl
    · obtain ⟨-, ⟨e, he, -⟩ | ⟨-, -, -, htable, hheap, hgone⟩⟩ := countInput_cells hcount
      · rw [hlookup] at he
        contradiction
      · refine ⟨?_, hheap.symm, ?_⟩
        · rw [htable, tableCells_insert_fresh _ hlookup]
          exact .swap _ _ _
        · rw [hgone, hlog, freed_alloc, freed_append, freed_uses, freed_alloc, freed_append,
            freed_uses, hfreed]
          exact (List.append_nil _).symm
    · rw [hlog, freed_alloc, freed_append, freed_uses, freed_alloc, freed_append, freed_uses,
        hfreed]
      rfl

theorem countLog_step (env : SeenEnv) (hash : UInt64) {s : SeenInputs}
    (hs : CellHeap.Numbered (tableCells s.table) s.heap)
    (hup : ∀ e, s.table.lookup hash = some e → e.value + 1 > 1) :
    ∃ ids heap, CountStep env hash s ids heap := by
  cases hcell : env.hashCell with
  | false =>
    have hlog : countLog env hash s = [] := by
      unfold countLog
      rw [hcell]
      rfl
    refine ⟨tableCells s.table, s.heap, ?_, fun s' hcount => ?_, fun _ => ?_⟩
    · rw [hlog]
      exact .nil _ _
    · rw [(countInput_cells hcount).1] at hcell
      contradiction
    · rw [hlog]
      rfl
  | true =>
    cases hlookup : s.table.lookup hash with
    | some e => exact ⟨_, _, countLog_present hs hcell hlookup (hup e hlookup)⟩
    | none => exact countLog_absent hs hcell hlookup

theorem Tallied.count_up {s : SeenInputs} {hashes : List UInt64} (hs : Tallied s hashes)
    (hlen : hashes.length + 1 < 2 ^ 32) {k : UInt64} {e : SeenEntry}
    (h : s.table.lookup k = some e) : e.value + 1 > 1 := by
  obtain ⟨hpos, hle⟩ := hs.count_pos h
  have hincr := SeenEntry.count_incr (e := e) (by omega)
  unfold SeenEntry.count at hincr hpos
  rw [gt_iff_lt, UInt32.lt_iff_toNat_lt, hincr, UInt32.toNat_one]
  omega

def Broken (s : LoopState) : Prop := s.stop = some .died ∨ s.stop = some .overread

/-- What the second half of a pass does to the variables of the counting code. -/
theorem handleInput_seen (conf : LoopConf) (env : PassEnv) (i : Input) (s : LoopState) :
    (i.hash = none ∧ (handleInput conf env i s).seen = s.seen ∧ Broken (handleInput conf env i s)) ∨
    ∃ hash, i.hash = some hash ∧
      ((countInput env.seen hash s.seen = none ∧ (handleInput conf env i s).seen = s.seen ∧
          (handleInput conf env i s).stop = some .died) ∨
        countInput env.seen hash s.seen = some (handleInput conf env i s).seen) := by
  unfold Input.hash handleInput
  dsimp only
  cases hhash : utilCRC64 i.bytes i.size.toNat with
  | none => exact .inl ⟨rfl, rfl, .inr rfl⟩
  | some hash =>
    refine .inr ⟨hash, rfl, ?_⟩
    dsimp only
    cases hseen : countInput env.seen hash s.seen with
    | none => exact .inl ⟨rfl, rfl, rfl⟩
    | some seen =>
      obtain ⟨gbl, monitor, heap, outcomes, stop, h⟩ :=
        monitorInput_frame conf env i { s with inputs := s.inputs ++ [i], seen := seen }
      dsimp only
      rw [h]
      exact .inr rfl

theorem passLog_input {conf : LoopConf} {env : PassEnv} {i : Input} {s s₁ : LoopState}
    (hpass : pass conf s env = handleInput conf env i s₁) (hinputs : s₁.inputs = s.inputs) :
    passLog conf s env =
      match i.hash with
      | none => if !env.seen.hashCell then [] else [.alloc .hash s.seen.heap]
      | some hash =>
        countLog env.seen hash s.seen ++
          if (handleInput conf env i s₁).stop = none then
            ((((handleInput conf env i s₁).seen.table.lookup hash).map
              SeenEntry.valueId).toList).map .use
          else [] := by
  have hdrop : (handleInput conf env i s₁).inputs.drop s.inputs.length = [i] := by
    obtain ⟨seen, gbl, monitor, heap, outcomes, stop, h⟩ := handleInput_frame conf env i s₁
    rw [h, hinputs]
    exact List.drop_left
  unfold passLog
  dsimp only
  rw [hpass, hdrop]
  rfl

theorem passLog_nil {conf : LoopConf} {env : PassEnv} {s : LoopState}
    (h : (pass conf s env).inputs = s.inputs) : passLog conf s env = [] := by
  unfold passLog
  dsimp only
  rw [h, List.drop_length]

/-- What the log of a run says: its cells are those of the table, its frees those of the model, and
the table has counted all inputs, unless the process died at the last one. -/
structure Logged (r : Logging) : Prop where
  counted : ∃ cs, Run Counts .start cs r.loop.seen ∧ cs.length ≤ r.loop.inputs.length ∧
    (¬Broken r.loop → cs.map (some ∘ Counting.hash) = r.loop.inputs.map Input.hash)
  freed : freed r.log = r.loop.seen.freed
  cells : ∃ ids heap, Ledger [] 0 r.log ids heap ∧
    (¬Broken r.loop → ids.Perm (tableCells r.loop.seen.table) ∧ heap = r.loop.seen.heap)

theorem Logged.congr {r : Logging} (h : Logged r) {s : LoopState} (hseen : s.seen = r.loop.seen)
    (hinputs : s.inputs = r.loop.inputs) (hstop : Broken r.loop → Broken s) :
    Logged ⟨s, r.log ++ []⟩ := by
  obtain ⟨⟨cs, hrun, hle, hall⟩, hfreed, ids, heap, hledger, hcells⟩ := h
  rw [List.append_nil]
  refine ⟨⟨cs, ?_, ?_, fun hok => ?_⟩, ?_, ids, heap, hledger, fun hok => ?_⟩
  · rw [hseen]
    exact hrun
  · rw [hinputs]
    exact hle
  · rw [hinputs]
    exact hall (mt hstop hok)
  · rw [hseen]
    exact hfreed
  · rw [hseen]
    exact hcells (mt hstop hok)

theorem Logged.input {conf : LoopConf} {env : PassEnv} {i : Input} {r : Logging} {s₁ : LoopState}
    (h : Logged r) (hgo : r.loop.stop = none)
    (hpass : pass conf r.loop env = handleInput conf env i s₁) (hseen : s₁.seen = r.loop.seen)
    (hinputs : s₁.inputs = r.loop.inputs)
    (hlen : (pass conf r.loop env).inputs.length < 2 ^ 32) : Logged (logPass conf r env) := by
  obtain ⟨⟨cs, hrun, hle, hall⟩, hfreed, ids, heap, hledger, hcells⟩ := h
  have hok : ¬Broken r.loop := by
    unfold Broken
    rw [hgo]
    exact not_or.mpr ⟨nofun, nofun⟩
  obtain ⟨hperm, rfl⟩ := hcells hok
  have hnumbered : CellHeap.Numbered (tableCells r.loop.seen.table) r.loop.seen.heap :=
    (hledger.numbered ⟨List.nodup_nil, fun _ hid => absurd hid List.not_mem_nil⟩).perm hperm le_rfl
  have hmore : (handleInput conf env i s₁).inputs = r.loop.inputs ++ [i] := by
    obtain ⟨seen, gbl, monitor, heap, outcomes, stop, hframe⟩ := handleInput_frame conf env i s₁
    rw [hframe, hinputs]
  rw [hpass, hmore, List.length_append, List.length_singleton] at hlen
  have hlog := passLog_input hpass hinputs
  have hstep := handleInput_seen conf env i s₁
  rw [hseen] at hstep
  unfold logPass
  rw [hpass, hlog]
  generalize handleInput conf env i s₁ = s' at hmore hstep
  rcases hstep with ⟨hnone, hsame, hbroken⟩ | ⟨hash, hhash, hstep⟩
  -- util_CRC64 reads behind the input: the hash is allocated at most
  · rw [hnone]
    dsimp only
    refine ⟨⟨cs, hsame ▸ hrun, ?_, fun hfine => absurd hbroken hfine⟩, ?_, ?_⟩
    · rw [hmore, List.length_append]
      exact Nat.le_add_right_of_le hle
    · dsimp only
      rw [hsame, freed_append, hfreed]
      split_ifs <;> exact List.append_nil _
    · cases env.seen.hashCell with
      | false => exact ⟨_, _, hledger.append (.nil _ _), fun hfine => absurd hbroken hfine⟩
      | true =>
        have halloc : CellHeap.Moves ids [Event.alloc SeenTag.hash r.loop.seen.heap]
            (r.loop.seen.heap :: ids) :=
          .alloc .hash (fun hid => hnumbered.notMem le_rfl (hperm.mem_iff.mp hid)) (.nil _)
        exact ⟨_, _, hledger.append (Ledger.of_moves (n := 1) halloc rfl),
          fun hfine => absurd hbroken hfine⟩
  · have hbooks := bookkept_of_run hrun (by omega)
    have hup : ∀ e, r.loop.seen.table.lookup hash = some e → e.value + 1 > 1 := fun e he =>
      hbooks.tallied.count_up (by rw [List.length_map]; omega) he
    obtain ⟨ids', heap', hcount⟩ := countLog_step env.seen hash hnumbered hup
    have hnext := hledger.append (hcount.ledger.perm_left hperm)
    rw [hhash]
    dsimp only
    rcases hstep with ⟨hnone, hsame, hdied⟩ | hsome
    -- an assertion fails, behind which nothing is read
    · rw [if_neg (by rw [hdied]; exact nofun), List.append_nil]
      refine ⟨⟨cs, hsame ▸ hrun, ?_, fun hfine => absurd (.inl hdied) hfine⟩, ?_, ids', heap',
        hnext, fun hfine => absurd (.inl hdied) hfine⟩
      · rw [hmore, List.length_append]
        exact Nat.le_add_right_of_le hle
      · dsimp only
        rw [hsame, freed_append, hfreed, hcount.died hnone, List.append_nil]
    · obtain ⟨hperm', rfl, hgone⟩ := hcount.counted _ hsome
      have hcounts : Counts r.loop.seen ⟨env.seen, hash, r.loop.seen.heap⟩ s'.seen := ⟨rfl, hsome⟩
      -- the line reads the count of the entry
      have hline : ∃ used : List ℕ, (∀ id ∈ used, id ∈ ids') ∧
          (if s'.stop = none then
            (((s'.seen.table.lookup hash).map SeenEntry.valueId).toList).map Event.use
            else ([] : SeenLog)) = used.map .use := by
        split_ifs
        · refine ⟨_, fun id hid => ?_, rfl⟩
          obtain ⟨e, he, rfl⟩ := Option.map_eq_some_iff.mp (Option.mem_toList.mp hid)
          exact hperm'.mem_iff.mpr (mem_tableCells he).2
        · exact ⟨[], fun _ hid => absurd hid List.not_mem_nil, rfl⟩
      obtain ⟨used, hused, htail⟩ := hline
      rw [htail, ← List.append_assoc]
      refine ⟨⟨_, hrun.append (.cons hcounts (.nil _)), ?_, fun _ => ?_⟩, ?_, ids', s'.seen.heap,
        ?_, fun _ => ⟨hperm', rfl⟩⟩
      · rw [hmore, List.length_append, List.length_append]
        exact Nat.add_le_add_right hle 1
      · rw [hmore, List.map_append, List.map_append, hall hok, List.map_singleton,
          List.map_singleton, hhash]
        rfl
      · dsimp only
        rw [freed_append, freed_append, freed_uses, hfreed, hgone, List.append_nil]
      · have huses : CellHeap.Moves ids' (used.map (Event.use (T := SeenTag)) ++ []) ids' :=
          .uses hused (.nil _)
        rw [List.append_nil] at huses
        exact hnext.append (Ledger.of_moves (n := 0) huses (allocated_uses used))

theorem logPass_logged (conf : LoopConf) (env : PassEnv) {r : Logging} (h : Logged r)
    (hlen : (pass conf r.loop env).inputs.length < 2 ^ 32) : Logged (logPass conf r env) := by
  rcases pass_cases conf r.loop env with ⟨keepRunning, queue, taken, opened, hpass⟩ |
    ⟨hgo, keepRunning, queue, taken, opened, ret, hpass⟩ |
    ⟨hgo, keepRunning, queue, taken, opened, i, -, hpass⟩
  · have hnil : passLog conf r.loop env = [] := passLog_nil (by rw [hpass])
    unfold logPass
    rw [hnil, hpass]
    exact h.congr rfl rfl id
  · have hnil : passLog conf r.loop env = [] := passLog_nil (by rw [hpass])
    unfold logPass
    rw [hnil, hpass]
    refine h.congr rfl rfl fun hbroken => ?_
    unfold Broken at hbroken
    rw [hgo] at hbroken
    exact absurd hbroken (not_or.mpr ⟨nofun, nofun⟩)
  · exact h.input hgo.1 hpass rfl rfl hlen

theorem logRun_logged (conf : LoopConf) (m : Monitor) (g : GblStatus) (heap : ℕ)
    (queue : List InEvent) (envs : List PassEnv)
    (hlen : (loopRun conf m g heap queue envs).inputs.length < 2 ^ 32) :
    Logged (logRun conf m g heap queue envs) := by
  induction envs using List.reverseRecOn with
  | nil =>
    have hcells : Logged ⟨.enter m g heap queue, []⟩ := ⟨⟨[], .nil _, le_rfl, fun _ => rfl⟩, rfl,
      [], 0, .nil _ _, fun _ => ⟨.refl _, rfl⟩⟩
    exact hcells
  | append_singleton envs env ih =>
    unfold loopRun at hlen
    rw [List.foldl_concat] at hlen
    have hbefore := ih ((pass_inputs_le conf _ env).trans_lt hlen)
    unfold logRun
    rw [List.foldl_concat]
    apply logPass_logged conf env hbefore
    rw [logRun_loop]
    exact hlen

theorem tailLog_moves (printSeenInputs : Bool) (entries : List (UInt64 × SeenEntry)) :
    CellHeap.Moves (entries.flatMap fun e => e.2.cells) (tailLog printSeenInputs entries) [] ∧
      allocated (tailLog printSeenInputs entries) = [] := by
  induction entries with
  | nil => exact ⟨.nil _, rfl⟩
  | cons e entries ih =>
    obtain ⟨hmoves, halloc⟩ := ih
    have hread : ∀ id ∈ (if printSeenInputs then e.2.cells else []),
        id ∈ e.2.cells ++ entries.flatMap fun e => e.2.cells := by
      intro id hid
      split_ifs at hid
      · exact List.mem_append_left _ hid
      · contradiction
    unfold tailLog at hmoves halloc ⊢
    rw [List.flatMap_cons, List.flatMap_cons, List.append_assoc]
    refine ⟨.uses hread (.frees hmoves), ?_⟩
    rw [allocated_append, allocated_append, allocated_uses, allocated_frees, halloc]
    rfl

/-- In every run of monitor_loop on fewer than 2^32 inputs no cell of seen_inputs_table is read or
released after its release, also where the process dies, and the released cells are those of the
model; when monitor_loop returns, each cell has been released exactly once, with or without the
listing, and in any order of the entries. -/
theorem loop_cells (conf : LoopConf) (m : Monitor) (g : GblStatus) (heap : ℕ)
    (queue : List InEvent) (envs : List PassEnv) (printSeenInputs : Bool)
    (hlen : (loopRun conf m g heap queue envs).inputs.length < 2 ^ 32) :
    ∃ r, r = logRun conf m g heap queue envs ∧ r.loop = loopRun conf m g heap queue envs ∧
      Safe ∅ r.log ∧ freed r.log = r.loop.seen.freed ∧
      ∀ ret entries, r.loop.stop = some (.returned ret) →
        entries.Perm (r.loop.seen.table.entries.map fun e => (e.1, e.2)) →
        Safe ∅ (r.log ++ tailLog printSeenInputs entries) ∧
          ∀ id ∈ allocated r.log, ReleasedOnce (r.log ++ tailLog printSeenInputs entries) id := by
  obtain ⟨-, hfreed, ids, heap', hledger, hcells⟩ := logRun_logged conf m g heap queue envs hlen
  have hloop := logRun_loop conf m g heap queue envs
  generalize logRun conf m g heap queue envs = r at hfreed hledger hcells hloop
  have hempty : CellHeap.Owned ∅ [] := owned_toFinset List.nodup_nil
  refine ⟨r, rfl, hloop, (hledger.moves _ hempty).1, hfreed, fun ret entries hstop hperm => ?_⟩
  have hok : ¬Broken r.loop := by
    unfold Broken
    rw [hstop]
    exact not_or.mpr ⟨nofun, nofun⟩
  obtain ⟨hids, -⟩ := hcells hok
  obtain ⟨htail, halloc⟩ := tailLog_moves printSeenInputs entries
  have hgiven : ids.Perm (entries.flatMap fun e => e.2.cells) := by
    refine hids.trans (List.Perm.trans ?_ (hperm.flatMap_right _).symm)
    rw [List.flatMap_map]
    exact .refl _
  have hall : CellHeap.Moves [] (r.log ++ tailLog printSeenInputs entries) [] :=
    hledger.moves.append (htail.perm hgiven (.refl _))
  have hsame : allocated (r.log ++ tailLog printSeenInputs entries) = allocated r.log := by
    rw [allocated_append, halloc, List.append_nil]
  refine ⟨(hall _ hempty).1, fun id hid => ?_⟩
  have hnodup : ([] ++ allocated (r.log ++ tailLog printSeenInputs entries)).Nodup := by
    rw [hsame]
    exact hledger.nodup_allocated
  exact (hall.released hnodup (hsame ▸ hid)).1 List.not_mem_nil

def repeatedEnvs : List PassEnv :=
  [.tracing [1] [⟨16, 80, 0⟩], .tracing [1] [⟨16, 80, 0⟩], .interrupted]

theorem loop_cells_repeatedEnvs :
    ∃ r, r = logRun sampleConf bareMonitor .init 0 [] repeatedEnvs ∧ ∀ id ∈ allocated r.log,
      ReleasedOnce
        (r.log ++ tailLog true (r.loop.seen.table.entries.map fun e => (e.1, e.2))) id := by
  have hlen : (loopRun sampleConf bareMonitor .init 0 [] repeatedEnvs).inputs.length < 2 ^ 32 := by
    decide +kernel
  have hstop : (loopRun sampleConf bareMonitor .init 0 [] repeatedEnvs).stop =
      some (.returned exitSuccess) := by
    decide +kernel
  obtain ⟨r, hr, hloop, -, -, hreturned⟩ :=
    loop_cells sampleConf bareMonitor .init 0 [] repeatedEnvs true hlen
  rw [← hloop] at hstop
  exact ⟨r, hr, (hreturned _ _ hstop (.refl _)).2⟩

end FuzzMonitor.MonitorLoop
