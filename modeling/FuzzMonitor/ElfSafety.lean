import FuzzMonitor.ElfFile

namespace FuzzMonitor.Elf
open CStrings ByteBlock Sections

theorem stored_succ {file : List UInt8} {entsize pos n i size : ℕ} :
    Stored file entsize pos (n + 1) i size ↔
      (∀ b < entsize, pos + b < file.length → sizeofShdr * i + b < size) ∧
        Stored file entsize (pos + entsize) n (i + 1) size := by
  have hnext : ∀ j b, pos + (j + 1) * entsize + b = pos + entsize + j * entsize + b ∧
      sizeofShdr * (i + (j + 1)) + b = sizeofShdr * (i + 1 + j) + b :=
    fun j b => ⟨by ring, by ring⟩
  unfold Stored
  rw [Nat.forall_lt_succ_left]
  simp only [hnext, Nat.zero_mul, Nat.add_zero]

theorem whole_succ {file : List UInt8} {entsize pos n : ℕ} :
    Whole file entsize pos (n + 1) ↔
      (entsize = 0 ∨ pos + entsize ≤ file.length) ∧ Whole file entsize (pos + entsize) n := by
  have hnext : pos + (n + 1) * entsize = pos + entsize + n * entsize := by ring
  unfold Whole
  rw [hnext]
  rcases Nat.eq_zero_or_pos entsize with rfl | hpos
  · simp
  · rcases Nat.eq_zero_or_pos n with rfl | hn
    · simp [hpos.ne']
    · have hmul : 0 < n * entsize := Nat.mul_pos hn hpos
      have hmul' : 0 < (n + 1) * entsize := Nat.mul_pos n.succ_pos hpos
      omega

section Table

variable {file : List UInt8} {entsize : ℕ}

theorem store_isSome_iff (hsize : entsize ≤ maxRwCount) {i pos : ℕ} {tbl : Block} :
    (tbl.store (sizeofShdr * i) (readAt file pos entsize)).isSome ↔
      ∀ b < entsize, pos + b < file.length → sizeofShdr * i + b < tbl.size := by
  have hlen := readAt_length file pos entsize hsize
  rw [Block.store_isSome_iff, Block.Fits, ← List.length_eq_zero_iff, hlen]
  constructor
  · intro hfits b hb hheld
    omega
  · intro hall
    rcases Nat.eq_zero_or_pos (min entsize (file.length - pos)) with hzero | hpos
    · exact .inl hzero
    · have hlast := hall (min entsize (file.length - pos) - 1) (by omega) (by omega)
      omega

/-- The table read makes an access outside the block exactly if some byte of the file would be
stored there. -/
theorem readEntries_fault_iff (hsize : entsize ≤ maxRwCount) (n i pos : ℕ) (tbl : Block) :
    readEntries file entsize n i pos tbl = .error .fault ↔
      ¬Stored file entsize pos n i tbl.size := by
  induction n generalizing i pos tbl with
  | zero => exact iff_of_false nofun fun h => h fun j hj => absurd hj (Nat.not_lt_zero j)
  | succ n ih =>
    have hlen := readAt_length file pos entsize hsize
    have hfirst := @store_isSome_iff file entsize hsize i pos tbl
    rw [stored_succ, ← hfirst]
    unfold readEntries
    dsimp only
    cases hstore : tbl.store (sizeofShdr * i) (readAt file pos entsize) with
    | none => simp
    | some tbl' =>
      rw [← (Block.store_cases hstore).1]
      simp only [Option.isSome_some, true_and]
      split_ifs with hshort
      · refine iff_of_false (fun h => ?_) (not_not.mpr ?_)
        · cases h
        · -- behind the end of the file there is nothing to store
          intro j _ b _ hheld
          omega
      · exact ih (i + 1) (pos + entsize) tbl'

/-- What the table read leaves behind: the whole table is read, and where an entry is as long as
a header, each header is that of its entry. -/
structure Filled (file : List UInt8) (entsize n i pos : ℕ) (tbl tbl' : Block) (pos' : ℕ) :
    Prop where
  pos_eq : pos' = pos + n * entsize
  size_eq : tbl'.size = tbl.size
  whole : Whole file entsize pos n
  before : ∀ off < sizeofShdr * i, tbl'.bytes off = tbl.bytes off
  entries : sizeofShdr ≤ entsize → ∀ j < n, ∀ b < sizeofShdr,
    tbl'.bytes (sizeofShdr * (i + j) + b) = file[pos + j * entsize + b]?

theorem readEntries_filled (hsize : entsize ≤ maxRwCount) {n i pos pos' : ℕ} {tbl tbl' : Block}
    (h : readEntries file entsize n i pos tbl = .ok (pos', tbl')) :
    Filled file entsize n i pos tbl tbl' pos' := by
  induction n generalizing i pos tbl with
  | zero =>
    cases h
    exact ⟨by omega, rfl, .inl (Nat.zero_mul _), fun _ _ => rfl, fun _ j hj => by omega⟩
  | succ n ih =>
    have hlen := readAt_length file pos entsize hsize
    unfold readEntries at h
    dsimp only at h
    cases hstore : tbl.store (sizeofShdr * i) (readAt file pos entsize) with
    | none =>
      rw [hstore] at h
      cases h
    | some tbl₁ =>
      obtain ⟨hsize₁, hbytes₁⟩ := Block.store_cases hstore
      rw [hstore] at h
      dsimp only at h
      split_ifs at h with hshort
      rw [not_not] at hshort
      obtain ⟨hpos, hblock, hwhole, hbefore, hentries⟩ := ih h
      have hnext : sizeofShdr * i < sizeofShdr * (i + 1) :=
        Nat.mul_lt_mul_of_pos_left i.lt_succ_self (by decide)
      refine ⟨by rw [hpos]; ring, hblock.trans hsize₁, whole_succ.mpr ⟨by omega, hwhole⟩, ?_, ?_⟩
      · intro off hoff
        rw [hbefore off (hoff.trans hnext), hbytes₁]
        exact Block.stored_before hoff
      · intro hentry j hj b hb
        cases j with
        | zero =>
          -- the reads that follow store behind this header
          have hbehind : sizeofShdr * i + b < sizeofShdr * (i + 1) := by
            rw [Nat.mul_succ]
            omega
          rw [Nat.add_zero, Nat.zero_mul, Nat.add_zero, hbefore _ hbehind, hbytes₁,
            Block.stored_inside (by omega)]
          exact readAt_getElem? file hsize (by omega)
        | succ j =>
          have hrest := hentries hentry j (by omega) b hb
          have hoff : sizeofShdr * (i + 1 + j) + b = sizeofShdr * (i + (j + 1)) + b := by ring
          have hfile : pos + entsize + j * entsize + b = pos + (j + 1) * entsize + b := by ring
          rwa [hoff, hfile] at hrest

theorem readEntries_of_whole (hsize : entsize ≤ maxRwCount) {n i pos : ℕ} {tbl : Block}
    (hstored : Stored file entsize pos n i tbl.size) (hwhole : Whole file entsize pos n) :
    ∃ r, readEntries file entsize n i pos tbl = .ok r := by
  induction n generalizing i pos tbl with
  | zero => exact ⟨_, rfl⟩
  | succ n ih =>
    have hlen := readAt_length file pos entsize hsize
    obtain ⟨hfirst, hrest⟩ := stored_succ.mp hstored
    obtain ⟨hread, hwhole'⟩ := whole_succ.mp hwhole
    obtain ⟨tbl', hstore⟩ := Option.isSome_iff_exists.mp ((store_isSome_iff hsize).mpr hfirst)
    unfold readEntries
    dsimp only
    rw [hstore]
    dsimp only
    rw [if_neg (by omega)]
    rw [← (Block.store_cases hstore).1] at hrest
    exact ih hrest hwhole'

theorem readEntries_cases (hsize : entsize ≤ maxRwCount) (n i pos : ℕ) (tbl : Block) :
    (¬Stored file entsize pos n i tbl.size ∧
      readEntries file entsize n i pos tbl = .error .fault) ∨
    Stored file entsize pos n i tbl.size ∧
      ((¬Whole file entsize pos n ∧
        ∃ stop, stop ≠ .fault ∧ readEntries file entsize n i pos tbl = .error stop) ∨
      ∃ pos' tbl', readEntries file entsize n i pos tbl = .ok (pos', tbl') ∧
        Filled file entsize n i pos tbl tbl' pos') := by
  have hfault := @readEntries_fault_iff file entsize hsize n i pos tbl
  by_cases hstored : Stored file entsize pos n i tbl.size
  · refine .inr ⟨hstored, ?_⟩
    cases hread : readEntries file entsize n i pos tbl with
    | error stop =>
      refine .inl ⟨fun hwhole => ?_, stop, ?_, rfl⟩
      · obtain ⟨r, hr⟩ := readEntries_of_whole hsize hstored hwhole
        rw [hread] at hr
        cases hr
      · rintro rfl
        exact hfault.mp hread hstored
    | ok r => exact .inr ⟨r.1, r.2, rfl, readEntries_filled hsize hread⟩
  · exact .inl ⟨hstored, hfault.mpr hstored⟩

end Table

/-- An entry of a table that was read is the entry of the file. -/
theorem Filled.shdrAt {file : List UInt8} {eh : ElfEhdr} {pos pos' : ℕ} {tbl tbl' : Block}
    (h : Filled file eh.eShentsize.toNat eh.eShnum.toNat 0 pos tbl tbl' pos')
    (hentry : sizeofShdr ≤ eh.eShentsize.toNat) {i : ℕ} (hi : i < eh.eShnum.toNat) :
    shdrAt eh tbl' i = .ok (fileShdr file eh.eShentsize.toNat pos i) := by
  have hheld : pos + i * eh.eShentsize.toNat + sizeofShdr ≤ file.length := by
    have hmul : (i + 1) * eh.eShentsize.toNat ≤ eh.eShnum.toNat * eh.eShentsize.toNat :=
      Nat.mul_le_mul_right _ hi
    rw [Nat.succ_mul] at hmul
    have hsize : 0 < sizeofShdr := by decide
    rcases h.whole with hzero | hwhole
    · omega
    · omega
  have hlen : ((file.drop (pos + i * eh.eShentsize.toNat)).take sizeofShdr).length = sizeofShdr := by
    rw [List.length_take, List.length_drop]
    omega
  have hload : tbl'.load (sizeofShdr * i) sizeofShdr =
      some ((file.drop (pos + i * eh.eShentsize.toNat)).take sizeofShdr) := by
    apply Block.load_of_bytes hlen
    intro b hb
    have hbyte := h.entries hentry i hi b hb
    rw [Nat.zero_add] at hbyte
    rw [hbyte, List.getElem?_take_of_lt hb, List.getElem?_drop]
  unfold Elf.shdrAt
  rw [if_pos hi, hload]
  rfl

/-- Where a table was stored without a fault in the room for entries shorter than a header, there
is no room for the header that e_shstrndx stands for. -/
theorem shdrAt_fault {file : List UInt8} {eh : ElfEhdr} {pos : ℕ} {tbl : Block} {i : ℕ}
    (hsize : tbl.size = eh.eShentsize.toNat * eh.eShnum.toNat)
    (hstored : Stored file eh.eShentsize.toNat pos eh.eShnum.toNat 0 tbl.size)
    (hwhole : Whole file eh.eShentsize.toNat pos eh.eShnum.toNat)
    (h : ¬(sizeofShdr ≤ eh.eShentsize.toNat ∧ i < eh.eShnum.toNat)) :
    shdrAt eh tbl i = .error .fault := by
  unfold shdrAt
  split_ifs with hi
  · have hshort : eh.eShentsize.toNat < sizeofShdr := Nat.lt_of_not_le fun hle => h ⟨hle, hi⟩
    have hroom : tbl.size ≤ sizeofShdr * i + (sizeofShdr - 1) := by
      unfold sizeofShdr at hshort ⊢
      obtain ⟨m, hm⟩ : ∃ m, eh.eShnum.toNat = m + 1 := ⟨_, (Nat.succ_pred (by omega)).symm⟩
      rw [hm] at hsize hstored hwhole
      rw [Nat.mul_succ] at hsize
      rcases Nat.eq_zero_or_pos eh.eShentsize.toNat with hzero | hpos
      · rw [hzero, Nat.zero_mul] at hsize
        omega
      · -- the last entry is stored inside only if there is no other
        have hheld := hwhole.resolve_left (Nat.mul_pos m.succ_pos hpos).ne'
        rw [Nat.succ_mul] at hheld
        have hlast := hstored m m.lt_succ_self (eh.eShentsize.toNat - 1) (by omega) (by omega)
        have hmul : eh.eShentsize.toNat * m ≤ 63 * m := Nat.mul_le_mul_right m (by omega)
        unfold sizeofShdr at hlast
        omega
    rw [Block.load_eq_none (i := sizeofShdr - 1) (by decide) (tbl.outside _ hroom)]
  · rfl

/-- The string table that a section header stands for is allocated and read from q on, with the
file at pos before. -/
structure StrRead (env : FileEnv) (file : List UInt8) (sh : ElfShdr) (pos q : ℕ) : Prop where
  alloc : env.strAlloc = true
  seek : lseek env sh.shOffset pos = .ok q
  once : sh.shSize.toNat ≤ maxRwCount
  held : sh.shSize.toNat = 0 ∨ q + sh.shSize.toNat ≤ file.length

def strBytes (file : List UInt8) (sh : ElfShdr) (q : ℕ) : List UInt8 :=
  (file.drop q).take sh.shSize.toNat

theorem lseek_error {env : FileEnv} {off : UInt64} {pos : ℕ} {stop : ElfStop}
    (h : lseek env off pos = .error stop) : stop ≠ .fault := by
  unfold lseek at h
  split_ifs at h
  cases h
  exact nofun

theorem readAt_full_iff (file : List UInt8) (q n : ℕ) :
    (readAt file q n).length = n ↔ n ≤ maxRwCount ∧ (n = 0 ∨ q + n ≤ file.length) := by
  unfold readAt
  rw [List.length_take, List.length_drop]
  omega

theorem readSection_cases (env : FileEnv) (file : List UInt8) (pos : ℕ) (sh : ElfShdr) :
    (∃ q, StrRead env file sh pos q ∧
      readSection env file pos sh = .ok (.ofList (strBytes file sh q))) ∨
    (¬∃ q, StrRead env file sh pos q) ∧
      ∃ stop, stop ≠ .fault ∧ readSection env file pos sh = .error stop := by
  have hlarge : maxRwCount < 2 ^ 63 := by decide
  unfold readSection malloc
  cases halloc : env.strAlloc && decide (sh.shSize.toNat < 2 ^ 63) with
  | false =>
    refine .inr ⟨?_, .returned (-1), nofun, rfl⟩
    rintro ⟨q, hread⟩
    rw [hread.alloc, Bool.true_and, decide_eq_false_iff_not] at halloc
    exact halloc (hread.once.trans_lt hlarge)
  | true =>
    rw [Bool.and_eq_true] at halloc
    simp only [if_true]
    cases hseek : lseek env sh.shOffset pos with
    | error stop =>
      refine .inr ⟨?_, stop, lseek_error hseek, rfl⟩
      rintro ⟨q, hread⟩
      rw [hread.seek] at hseek
      cases hseek
    | ok q =>
      have hfull := readAt_full_iff file q sh.shSize.toNat
      dsimp only [bind, Except.bind]
      by_cases hlen : (readAt file q sh.shSize.toNat).length = sh.shSize.toNat
      · obtain ⟨honce, hheld⟩ := hfull.mp hlen
        have hbytes : readAt file q sh.shSize.toNat = strBytes file sh q := by
          unfold readAt strBytes
          rw [min_eq_left honce]
        have hstore := Block.store_all (readAt file q sh.shSize.toNat)
        rw [hlen] at hstore
        rw [hstore]
        dsimp only
        rw [if_neg (not_not.mpr hlen), hbytes]
        exact .inl ⟨q, ⟨halloc.1, hseek, honce, hheld⟩, rfl⟩
      · have hless : (readAt file q sh.shSize.toNat).length ≤ sh.shSize.toNat :=
          (List.length_take_le _ _).trans (min_le_left _ _)
        have hfits : ((Block.alloc sh.shSize.toNat).store 0 (readAt file q sh.shSize.toNat)).isSome :=
          Block.store_isSome_iff.mpr (.inr ((Nat.zero_add _).le.trans hless))
        obtain ⟨buff, hstore⟩ := Option.isSome_iff_exists.mp hfits
        rw [hstore]
        dsimp only
        rw [if_pos hlen]
        refine .inr ⟨?_, .assertFailed, nofun, rfl⟩
        rintro ⟨q', hread⟩
        rw [hread.seek] at hseek
        cases hseek
        exact hlen (hfull.mpr ⟨hread.once, hread.held⟩)

/-- Each name that the loop looks at, from the i-th on, starts in the string table and has a
terminator behind it there. The loop looks at a name if none before it contains the requested
one. -/
def Terminated (str : List UInt8) (secName : CText) (entry : ℕ → ElfShdr) (n i : ℕ) : Prop :=
  ∀ j < n, (∀ k < j, strstr (shName (toText str) (entry (i + k))) secName = none) →
    0 ∈ str.drop (entry (i + j)).shName.toNat

theorem terminated_succ {str : List UInt8} {secName : CText} {entry : ℕ → ElfShdr} {n i : ℕ} :
    Terminated str secName entry (n + 1) i ↔
      0 ∈ str.drop (entry i).shName.toNat ∧
        (strstr (shName (toText str) (entry i)) secName = none →
          Terminated str secName entry n (i + 1)) := by
  have hnext : ∀ k, i + (k + 1) = i + 1 + k := fun k => by omega
  have hbefore : ∀ j, (∀ k < j + 1, strstr (shName (toText str) (entry (i + k))) secName = none) ↔
      strstr (shName (toText str) (entry i)) secName = none ∧
        ∀ k < j, strstr (shName (toText str) (entry (i + 1 + k))) secName = none := by
    intro j
    rw [Nat.forall_lt_succ_left]
    exact and_congr Iff.rfl (forall₂_congr fun k _ => by rw [hnext k])
  unfold Terminated
  rw [Nat.forall_lt_succ_left]
  constructor
  · rintro ⟨hfirst, hrest⟩
    refine ⟨hfirst fun k hk => absurd hk (Nat.not_lt_zero k), fun hnone j hj hnames => ?_⟩
    rw [← hnext j]
    exact hrest j hj ((hbefore j).mpr ⟨hnone, hnames⟩)
  · rintro ⟨hfirst, hrest⟩
    refine ⟨fun _ => hfirst, fun j hj hnames => ?_⟩
    obtain ⟨hnone, hnames'⟩ := (hbefore j).mp hnames
    rw [hnext j]
    exact hrest hnone j hj hnames'

theorem toText_takeWhile (bytes : List UInt8) :
    toText (bytes.takeWhile (· ≠ 0)) = (toText bytes).takeWhile (· ≠ '\x00') := by
  unfold toText
  rw [List.takeWhile_map]
  congr 2
  funext b
  have hchar : Char.ofNat b.toNat = '\x00' ↔ b = 0 := by
    rw [← UInt8.toNat_inj, ← Char.toNat_inj, Char.toNat_ofNat]
    rw [if_pos (.inl (b.toNat_lt.trans (by decide)))]
    exact Iff.rfl
  exact decide_eq_decide.mpr (not_congr hchar.symm)

theorem cString_shName {str : List UInt8} {sh : ElfShdr} (h : 0 ∈ str.drop sh.shName.toNat) :
    ∃ name, (Block.ofList str).cString sh.shName.toNat = some name ∧
      toText name = shName (toText str) sh := by
  refine ⟨_, (Block.cString_ofList str _).trans (if_pos h), ?_⟩
  unfold shName
  rw [toText_takeWhile]
  unfold toText
  rw [List.map_drop]

theorem findSection_eq {eh : ElfEhdr} {tbl : Block} {entry : ℕ → ElfShdr} (str : List UInt8)
    (secName : CText) (bounds : SectionBounds) (n i : ℕ)
    (htbl : ∀ j < n, shdrAt eh tbl (i + j) = .ok (entry (i + j))) :
    (Terminated str secName entry n i →
      findSection eh tbl (.ofList str) secName bounds n i =
        .ok (findLoop (toText str) secName ((List.range' i n).map entry) bounds)) ∧
    (¬Terminated str secName entry n i →
      findSection eh tbl (.ofList str) secName bounds n i = .error .fault) := by
  induction n generalizing i with
  | zero => exact ⟨fun _ => rfl, fun h => absurd (fun j hj => absurd hj (Nat.not_lt_zero j)) h⟩
  | succ n ih =>
    have hfirst : shdrAt eh tbl i = .ok (entry i) := htbl 0 n.succ_pos
    have hrest : ∀ j < n, shdrAt eh tbl (i + 1 + j) = .ok (entry (i + 1 + j)) := by
      intro j hj
      have hnext : i + 1 + j = i + (j + 1) := by omega
      rw [hnext]
      exact htbl (j + 1) (Nat.succ_lt_succ hj)
    obtain ⟨hok, hfault⟩ := ih (i + 1) hrest
    unfold findSection
    rw [hfirst, terminated_succ, List.range'_succ, List.map_cons, findLoop]
    dsimp only [bind, Except.bind]
    by_cases hterm : 0 ∈ str.drop (entry i).shName.toNat
    · obtain ⟨name, hname, htext⟩ := cString_shName hterm
      rw [hname]
      dsimp only
      rw [htext]
      by_cases hnone : strstr (shName (toText str) (entry i)) secName = none
      · rw [if_pos hnone, if_pos hnone]
        exact ⟨fun h => hok (h.2 hnone), fun h => hfault fun hrest => h ⟨hterm, fun _ => hrest⟩⟩
      · rw [if_neg hnone, if_neg hnone]
        exact ⟨fun _ => rfl, fun h => absurd ⟨hterm, fun heq => absurd heq hnone⟩ h⟩
    · have hlost : (Block.ofList str).cString (entry i).shName.toNat = none :=
        (Block.cString_ofList str _).trans (if_neg hterm)
      rw [hlost]
      exact ⟨fun h => absurd h.1 hterm, fun _ => rfl⟩

section Headers

variable {env : FileEnv} {file : List UInt8} {eh : ElfEhdr} {secName : CText}
  {bounds : SectionBounds}

def strShdr (file : List UInt8) (eh : ElfEhdr) (pos : ℕ) : ElfShdr :=
  fileShdr file eh.eShentsize.toNat pos eh.eShstrndx.toNat

def shTbl (file : List UInt8) (eh : ElfEhdr) (pos : ℕ) : List ElfShdr :=
  (List.range eh.eShnum.toNat).map (fileShdr file eh.eShentsize.toNat pos)

def strText (file : List UInt8) (eh : ElfEhdr) (pos q : ℕ) : CText :=
  toText (strBytes file (strShdr file eh pos) q)

def behindTable (eh : ElfEhdr) (pos : ℕ) : ℕ := pos + eh.eShnum.toNat * eh.eShentsize.toNat

/-- The entries have room for a header, e_shstrndx is one of them, and if the string table is
read, the names have terminators in it. -/
structure TableOk (env : FileEnv) (file : List UInt8) (eh : ElfEhdr) (secName : CText)
    (pos : ℕ) : Prop where
  entsize : sizeofShdr ≤ eh.eShentsize.toNat
  strndx : eh.eShstrndx.toNat < eh.eShnum.toNat
  names : ∀ q, StrRead env file (strShdr file eh pos) (behindTable eh pos) q →
    Terminated (strBytes file (strShdr file eh pos) q) secName
      (fileShdr file eh.eShentsize.toNat pos) eh.eShnum.toNat 0

/-- The product of the two sizes fits int; what the file holds of the table at e_shoff is stored
inside the block, and where that is the whole table, it is right. -/
structure HeadersOk (env : FileEnv) (file : List UInt8) (eh : ElfEhdr) (secName : CText) : Prop where
  product : eh.eShentsize.toNat * eh.eShnum.toNat < 2 ^ 31
  stored : ∀ pos, env.tblAlloc = true → lseek env eh.eShoff sizeofEhdr = .ok pos →
    Stored file eh.eShentsize.toNat pos eh.eShnum.toNat 0
      (eh.eShentsize.toNat * eh.eShnum.toNat)
  table : ∀ pos, env.tblAlloc = true → lseek env eh.eShoff sizeofEhdr = .ok pos →
    Whole file eh.eShentsize.toNat pos eh.eShnum.toNat → TableOk env file eh secName pos

theorem headersOk_iff {pos : ℕ} (hproduct : eh.eShentsize.toNat * eh.eShnum.toNat < 2 ^ 31)
    (halloc : env.tblAlloc = true) (hseek : lseek env eh.eShoff sizeofEhdr = .ok pos) :
    HeadersOk env file eh secName ↔
      Stored file eh.eShentsize.toNat pos eh.eShnum.toNat 0
          (eh.eShentsize.toNat * eh.eShnum.toNat) ∧
        (Whole file eh.eShentsize.toNat pos eh.eShnum.toNat → TableOk env file eh secName pos) := by
  have hunique : ∀ pos', lseek env eh.eShoff sizeofEhdr = .ok pos' → pos' = pos :=
    fun pos' h => Except.ok.inj (h.symm.trans hseek)
  constructor
  · intro h
    exact ⟨h.stored pos halloc hseek, h.table pos halloc hseek⟩
  · rintro ⟨hstored, htable⟩
    refine ⟨hproduct, fun pos' _ h => ?_, fun pos' _ h => ?_⟩
    · rw [hunique pos' h]
      exact hstored
    · rw [hunique pos' h]
      exact htable

/-- What section_find does with a table that it has read. -/
theorem findWithTable_cases {pos pos' : ℕ} {tbl tbl' : Block}
    (hsize : tbl.size = eh.eShentsize.toNat * eh.eShnum.toNat)
    (hstored : Stored file eh.eShentsize.toNat pos eh.eShnum.toNat 0 tbl.size)
    (hfilled : Filled file eh.eShentsize.toNat eh.eShnum.toNat 0 pos tbl tbl' pos') :
    (¬TableOk env file eh secName pos ∧
      findWithTable env file eh secName bounds pos' tbl' = .error .fault) ∨
    TableOk env file eh secName pos ∧
      ((∃ stop, stop ≠ .fault ∧ findWithTable env file eh secName bounds pos' tbl' = .error stop) ∨
      ∃ q, StrRead env file (strShdr file eh pos) (behindTable eh pos) q ∧
        findWithTable env file eh secName bounds pos' tbl' =
          .ok (findLoop (strText file eh pos q) secName (shTbl file eh pos) bounds)) := by
  unfold findWithTable
  by_cases hindex : sizeofShdr ≤ eh.eShentsize.toNat ∧ eh.eShstrndx.toNat < eh.eShnum.toNat
  · obtain ⟨hentry, hstrndx⟩ := hindex
    rw [hfilled.shdrAt hentry hstrndx, hfilled.pos_eq]
    dsimp only [bind, Except.bind]
    rcases readSection_cases env file (behindTable eh pos) (strShdr file eh pos) with
      ⟨q, hread, hok⟩ | ⟨hnone, stop, hstop, herror⟩
    · have hunique : ∀ q', StrRead env file (strShdr file eh pos) (behindTable eh pos) q' → q' = q :=
        fun q' hread' => Except.ok.inj (hread'.seek.symm.trans hread.seek)
      have htbl : ∀ j < eh.eShnum.toNat, shdrAt eh tbl' (0 + j) =
          .ok (fileShdr file eh.eShentsize.toNat pos (0 + j)) := by
        intro j hj
        rw [Nat.zero_add]
        exact hfilled.shdrAt hentry hj
      obtain ⟨hfind, hfault⟩ := findSection_eq (strBytes file (strShdr file eh pos) q)
        secName bounds eh.eShnum.toNat 0 htbl
      unfold behindTable strShdr at hok
      rw [hok]
      dsimp only
      by_cases hnames : Terminated (strBytes file (strShdr file eh pos) q) secName
          (fileShdr file eh.eShentsize.toNat pos) eh.eShnum.toNat 0
      · refine .inr ⟨⟨hentry, hstrndx, fun q' hread' => hunique q' hread' ▸ hnames⟩,
          .inr ⟨q, hread, ?_⟩⟩
        unfold strText shTbl
        rw [List.range_eq_range']
        exact hfind hnames
      · exact .inl ⟨fun h => hnames (h.names q hread), hfault hnames⟩
    · unfold behindTable strShdr at herror
      rw [herror]
      exact .inr ⟨⟨hentry, hstrndx, fun q hread => absurd ⟨q, hread⟩ hnone⟩,
        .inl ⟨stop, hstop, rfl⟩⟩
  · rw [shdrAt_fault (hfilled.size_eq.trans hsize) (by rwa [hfilled.size_eq]) hfilled.whole hindex]
    exact .inl ⟨fun h => hindex ⟨h.entsize, h.strndx⟩, rfl⟩

end Headers

theorem findInTable_cases (env : FileEnv) (file : List UInt8) (eh : ElfEhdr) (secName : CText)
    (bounds : SectionBounds) :
    (¬HeadersOk env file eh secName ∧ findInTable env file eh secName bounds = .error .fault) ∨
    HeadersOk env file eh secName ∧
      ((∃ stop, stop ≠ .fault ∧ findInTable env file eh secName bounds = .error stop) ∨
      ∃ pos q, lseek env eh.eShoff sizeofEhdr = .ok pos ∧
        StrRead env file (strShdr file eh pos) (behindTable eh pos) q ∧
        findInTable env file eh secName bounds =
          .ok (findLoop (strText file eh pos q) secName (shTbl file eh pos) bounds)) := by
  have hentsize : eh.eShentsize.toNat ≤ maxRwCount := by
    have hlt := eh.eShentsize.toNat_lt
    unfold maxRwCount
    omega
  unfold findInTable malloc
  by_cases hproduct : eh.eShentsize.toNat * eh.eShnum.toNat < 2 ^ 31
  · have hsmall : eh.eShentsize.toNat * eh.eShnum.toNat < 2 ^ 63 := hproduct.trans (by decide)
    rw [if_neg (not_le.mpr hproduct), decide_eq_true hsmall, Bool.and_true]
    cases halloc : env.tblAlloc with
    | false =>
      have hnone : ¬env.tblAlloc = true := by simp [halloc]
      exact .inr ⟨⟨hproduct, fun _ h => absurd h hnone, fun _ h => absurd h hnone⟩,
        .inl ⟨.returned (-1), nofun, rfl⟩⟩
    | true =>
      rw [if_pos rfl]
      unfold readSectionHeaderTable
      cases hseek : lseek env eh.eShoff sizeofEhdr with
      | error stop =>
        have hnone : ∀ pos, lseek env eh.eShoff sizeofEhdr ≠ .ok pos := fun pos h => by
          rw [hseek] at h
          cases h
        exact .inr ⟨⟨hproduct, fun pos _ h => absurd h (hnone pos),
          fun pos _ h => absurd h (hnone pos)⟩, .inl ⟨stop, lseek_error hseek, rfl⟩⟩
      | ok pos =>
        rw [headersOk_iff hproduct halloc hseek]
        dsimp only [bind, Except.bind]
        rcases @readEntries_cases file _ hentsize eh.eShnum.toNat 0 pos
          (.alloc (eh.eShentsize.toNat * eh.eShnum.toNat)) with ⟨hstored, hread⟩ | ⟨hstored, hread⟩
        · rw [hread]
          exact .inl ⟨fun h => hstored h.1, rfl⟩
        rcases hread with ⟨hwhole, stop, hstop, hread⟩ | ⟨pos', tbl', hread, hfilled⟩
        · rw [hread]
          exact .inr ⟨⟨hstored, fun h => absurd h hwhole⟩, .inl ⟨stop, hstop, rfl⟩⟩
        rw [hread]
        dsimp only
        rcases findWithTable_cases rfl hstored hfilled with ⟨htable, hbad⟩ | ⟨htable, hgood⟩
        · exact .inl ⟨fun h => htable (h.2 hfilled.whole), hbad⟩
        · refine .inr ⟨⟨hstored, fun _ => htable⟩, ?_⟩
          rcases hgood with hstop | ⟨q, hstr, hfound⟩
          · exact .inl hstop
          · exact .inr ⟨pos, q, rfl, hstr, hfound⟩
  · rw [if_pos (not_lt.mp hproduct)]
    exact .inl ⟨fun h => hproduct h.product, rfl⟩

theorem field_take {bytes : List UInt8} {n off len : ℕ} (h : off + len ≤ n) :
    field (bytes.take n) off len = field bytes off len := by
  unfold field
  rw [List.drop_take, List.take_take, min_eq_left (by omega)]

theorem decodeEhdr_take (file : List UInt8) :
    decodeEhdr (file.take sizeofEhdr) = decodeEhdr file := by
  unfold decodeEhdr sizeofEhdr
  rw [field_take (by decide), field_take (by decide), field_take (by decide),
    field_take (by decide)]

theorem isELF_take (file : List UInt8) : isELF (file.take sizeofEhdr) = isELF file := by
  unfold isELF sizeofEhdr
  rw [List.take_take]
  rfl

def HasHeader (env : FileEnv) (file : List UInt8) : Prop :=
  env.opens = true ∧ env.seeks 0 = true ∧ sizeofEhdr ≤ file.length ∧ isELF file = true

theorem lseek_start (env : FileEnv) :
    lseek env 0 0 = if env.seeks 0 then .ok 0 else .error .assertFailed := by
  unfold lseek
  cases hseeks : env.seeks 0 with
  | false => simp [hseeks]
  | true => simp [hseeks]

/-- Without the header of an ELF file section_find rejects the file; else the table decides. -/
theorem sectionFind_cases (env : FileEnv) (file : List UInt8) (secName : CText)
    (bounds : SectionBounds) :
    (HasHeader env file ∧ sectionFind env file secName bounds =
      findInTable env file (decodeEhdr file) secName bounds) ∨
    ¬HasHeader env file ∧
      ∃ stop, stop ≠ .fault ∧ sectionFind env file secName bounds = .error stop := by
  have hread : readAt file 0 sizeofEhdr = file.take sizeofEhdr := rfl
  unfold sectionFind readElfHeader HasHeader
  cases hopens : env.opens with
  | false => exact .inr ⟨nofun, .returned (-1), nofun, rfl⟩
  | true =>
    cases hseeks : env.seeks 0 with
    | false =>
      rw [lseek_start, hseeks]
      exact .inr ⟨nofun, .assertFailed, nofun, rfl⟩
    | true =>
      rw [lseek_start, hseeks, if_pos rfl, Bool.not_true, if_neg Bool.false_ne_true]
      dsimp only [bind, Except.bind]
      rw [hread, List.length_take]
      by_cases hlen : sizeofEhdr ≤ file.length
      · rw [min_eq_left hlen, if_neg (not_not.mpr rfl)]
        dsimp only
        rw [isELF_take, decodeEhdr_take]
        cases helf : isELF file with
        | false => exact .inr ⟨by simp, .returned (-1), nofun, rfl⟩
        | true => exact .inl ⟨⟨rfl, rfl, hlen, rfl⟩, rfl⟩
      · rw [if_pos (by omega)]
        exact .inr ⟨fun h => hlen h.2.2.1, .assertFailed, nofun, rfl⟩

/-- section_find rejects a file or makes only accesses inside what it allocated, exactly if the
file has no ELF header or its headers are right. -/
theorem sectionFind_safe_iff (env : FileEnv) (file : List UInt8) (secName : CText)
    (bounds : SectionBounds) :
    sectionFind env file secName bounds ≠ .error .fault ↔
      (HasHeader env file → HeadersOk env file (decodeEhdr file) secName) := by
  rcases sectionFind_cases env file secName bounds with ⟨hheader, hrun⟩ | ⟨hnone, stop, hstop, hrun⟩
  · rw [hrun]
    rcases findInTable_cases env file (decodeEhdr file) secName bounds with
      ⟨hbad, hfault⟩ | ⟨hok, ⟨stop, hstop, herror⟩ | ⟨pos, q, -, -, hfound⟩⟩
    · exact iff_of_false (not_not.mpr hfault) fun h => hbad (h hheader)
    · rw [herror]
      exact iff_of_true (fun h => hstop (Except.error.inj h)) fun _ => hok
    · rw [hfound]
      exact iff_of_true nofun fun _ => hok
  · rw [hrun]
    exact iff_of_true (fun h => hstop (Except.error.inj h)) fun h => absurd h hnone

def strippedFile : List UInt8 := [0x7f, 0x45, 0x4c, 0x46] ++ List.replicate 60 0

/-- The entry that e_shstrndx stands for is taken from a table without entries. -/
theorem sectionFind_unsafe :
    isELF strippedFile = true ∧
      sectionFind .succeed strippedFile ".text".toList ⟨0, 0⟩ = .error .fault := by
  decide

/-- A result of section_find is that of the search in the section table and the string table that
the file has. -/
theorem sectionFind_refines {env : FileEnv} {file : List UInt8} {secName : CText}
    {bounds : SectionBounds} {r : Int64 × SectionBounds}
    (h : sectionFind env file secName bounds = .ok r) :
    ∃ pos q, lseek env (decodeEhdr file).eShoff sizeofEhdr = .ok pos ∧
      StrRead env file (strShdr file (decodeEhdr file) pos) (behindTable (decodeEhdr file) pos) q ∧
      Sections.sectionFind .succeed (shTbl file (decodeEhdr file) pos)
        (strText file (decodeEhdr file) pos q) secName bounds = some r := by
  rcases sectionFind_cases env file secName bounds with ⟨hheader, hrun⟩ | ⟨hnone, stop, hstop, hrun⟩
  · rw [hrun] at h
    rcases findInTable_cases env file (decodeEhdr file) secName bounds with
      ⟨hbad, hfault⟩ | ⟨hok, ⟨stop, hstop, herror⟩ | ⟨pos, q, hseek, hread, hfound⟩⟩
    · rw [hfault] at h
      cases h
    · rw [herror] at h
      cases h
    · rw [hfound] at h
      exact ⟨pos, q, hseek, hread, congrArg some (Except.ok.inj h)⟩
  · rw [hrun] at h
    cases h

end FuzzMonitor.Elf
