import FuzzMonitor.CStrings

namespace FuzzMonitor
open CStrings

structure BasicBlock where
  «from» : UInt64
  «to» : UInt64
  deriving DecidableEq, Repr

namespace BasicBlocks

def lineSz : ℕ := 1024

def sizeofBasicBlock : ℕ := 16

def bbsSz : ℕ := 1024 * sizeofBasicBlock

/-- How basic_blocks_find can end badly: a failed assertion, or a write to an element
beyond the allocated ones. -/
inductive Fault
  | assertion
  | outOfBounds (index : ℕ)
  deriving DecidableEq, Repr

def storeCol (bbs : List BasicBlock) (bbsN colIdx : ℕ) (value : ℤ) :
    Except Fault (List BasicBlock) :=
  match colIdx with
  | 0 =>
    match bbs[bbsN]? with
    | none => .error (.outOfBounds bbsN)
    | some bb => .ok (bbs.set bbsN { bb with «from» := UInt64.ofInt value })
  | 1 =>
    match bbs[bbsN]? with
    | none => .error (.outOfBounds bbsN)
    | some bb => .ok (bbs.set bbsN { bb with «to» := UInt64.ofInt value })
  | 2 => .ok bbs
  | _ => .error .assertion

def storeRow (bbsN : ℕ) : ℕ → List CText → List BasicBlock → Except Fault (List BasicBlock)
  | _, [], bbs => .ok bbs
  | colIdx, col :: cols, bbs =>
    match storeCol bbs bbsN colIdx (atol col) with
    | .error e => .error e
    | .ok bbs => storeRow bbsN (colIdx + 1) cols bbs

/-- The outer loop over the lines that fgets reads; strtok sees each one up to its
first null byte. -/
def readLoop : List CText → ℕ → List BasicBlock → Except Fault (List BasicBlock × ℕ)
  | [], bbsN, bbs => .ok (bbs, bbsN)
  | line :: lines, bbsN, bbs =>
    -- the guard compares a number of rows with a number of bytes
    if ¬(bbsN < bbsSz) then .error .assertion
    else
      match storeRow bbsN 0 (tokens ' ' (line.takeWhile (· ≠ '\x00'))) bbs with
      | .error e => .error e
      | .ok bbs => readLoop lines (bbsN + 1) bbs

/-- What the process environment decides: the output of a script, whether malloc and
realloc find memory, and what realloc leaves in elements it adds. -/
structure FindEnv where
  popen : CText → Option CText
  malloc : Bool
  realloc : Bool
  fresh : BasicBlock

/-- glibc's realloc to n elements: size 0 frees the block and returns NULL. -/
def reallocBlocks (env : FindEnv) (bbs : List BasicBlock) (n : ℕ) : Option (List BasicBlock) :=
  if n * sizeofBasicBlock = 0 then none
  else if env.realloc then some ((bbs ++ List.replicate (n - bbs.length) env.fresh).take n)
  else none

def basicBlocksFind (env : FindEnv) (r2bbScript bin : CText) :
    Except Fault (List BasicBlock × ℕ) :=
  match env.popen (r2bbScript ++ ' ' :: bin) with
  | none => .error .assertion
  | some stream =>
    if !env.malloc then .error .assertion
    else
      match readLoop (fgetsAll lineSz stream.length stream) 0
        (List.replicate (bbsSz / sizeofBasicBlock) ⟨0, 0⟩) with
      | .error e => .error e
      | .ok (bbs, bbsN) =>
        match reallocBlocks env bbs bbsN with
        | none => .error .assertion
        | some bbs => .ok (bbs, bbsN)

structure Row where
  «from» : CText
  «to» : CText
  size : CText

def Row.line (r : Row) : CText := [' '].intercalate [r.from, r.to, r.size]

/-- Three words on a line that fits the buffer with its newline. -/
structure Row.WellFormed (r : Row) : Prop where
  words : ∀ w ∈ [r.from, r.to, r.size], w ≠ [] ∧ ∀ c ∈ w, c ≠ ' ' ∧ c ≠ '\n' ∧ c ≠ '\x00'
  short : r.line.length + 1 < lineSz

def Row.block (r : Row) : BasicBlock := ⟨UInt64.ofInt (atol r.from), UInt64.ofInt (atol r.to)⟩

def output (rows : List Row) : CText := rows.flatMap fun r => r.line ++ ['\n']

theorem Row.line_eq (r : Row) : r.line = r.from ++ ' ' :: (r.to ++ ' ' :: r.size) := by
  simp [Row.line, List.intercalate]

theorem Row.WellFormed.chars {r : Row} (h : r.WellFormed) {c : Char} (hc : c ∈ r.line) :
    c ≠ '\n' ∧ c ≠ '\x00' := by
  rw [Row.line_eq] at hc
  have hw := h.words
  simp only [List.mem_append, List.mem_cons] at hc hw
  rcases hc with hc | rfl | hc | rfl | hc
  · exact ((hw r.from (by simp)).2 c hc).2
  · decide
  · exact ((hw r.to (by simp)).2 c hc).2
  · decide
  · exact ((hw r.size (by simp)).2 c hc).2

theorem Row.WellFormed.tokens_line {r : Row} (h : r.WellFormed) :
    tokens ' ' ((r.line ++ ['\n']).takeWhile (· ≠ '\x00')) = [r.from, r.to, r.size ++ ['\n']] := by
  have htake : (r.line ++ ['\n']).takeWhile (· ≠ '\x00') =
      [' '].intercalate [r.from, r.to, r.size ++ ['\n']] := by
    rw [List.takeWhile_eq_self_iff.mpr]
    · simp [Row.line_eq, List.intercalate]
    · intro c hc
      rcases List.mem_append.mp hc with hc | hc
      · simpa using (h.chars hc).2
      · rw [List.mem_singleton.mp hc]
        decide
  rw [htake]
  apply tokens_intercalate ' ' _ (by simp)
  have hword : ∀ w ∈ [r.from, r.to, r.size], ' ' ∉ w ∧ w ≠ [] :=
    fun w hw => ⟨fun hs => ((h.words w hw).2 _ hs).1 rfl, (h.words w hw).1⟩
  intro w hw
  rcases List.mem_cons.mp hw with rfl | hw
  · exact hword _ (by simp)
  · rcases List.mem_cons.mp hw with rfl | hw
    · exact hword _ (by simp)
    · rw [List.mem_singleton.mp hw]
      simpa using (hword r.size (by simp)).1

theorem storeRow_ok (r : Row) {bbs : List BasicBlock} {n : ℕ}
    (hn : n < bbs.length) :
    storeRow n 0 [r.from, r.to, r.size ++ ['\n']] bbs = .ok (bbs.set n r.block) := by
  simp [storeRow, storeCol, hn, Row.block]

theorem storeRow_overflow (r : Row) {bbs : List BasicBlock} {n : ℕ}
    (hn : bbs.length ≤ n) :
    storeRow n 0 [r.from, r.to, r.size ++ ['\n']] bbs = .error (.outOfBounds n) := by
  simp [storeRow, storeCol, List.getElem?_eq_none hn]

/-- After the rows in pre, the loop fills the remaining elements one row at a time and
runs out of them, not into the guard, when there are more rows than elements. -/
theorem readLoop_rows (rows : List Row) (hrows : ∀ r ∈ rows, r.WellFormed)
    (pre rest : List BasicBlock) (hcap : pre.length + rest.length < bbsSz) :
    readLoop (rows.map fun r => r.line ++ ['\n']) pre.length (pre ++ rest) =
      if rows.length ≤ rest.length then
        .ok (pre ++ rows.map Row.block ++ rest.drop rows.length, pre.length + rows.length)
      else .error (.outOfBounds (pre.length + rest.length)) := by
  induction rows generalizing pre rest with
  | nil => simp [readLoop]
  | cons r rows ih =>
    have hr := hrows r List.mem_cons_self
    rw [List.map_cons, readLoop, if_neg (not_not.mpr (by omega)), hr.tokens_line]
    cases rest with
    | nil =>
      -- all elements are used up, and the guard does not notice
      rw [storeRow_overflow r (by simp)]
      simp
    | cons bb rest =>
      rw [List.length_cons] at hcap
      rw [storeRow_ok r (by simp)]
      have hset : (pre ++ bb :: rest).set pre.length r.block = (pre ++ [r.block]) ++ rest := by
        simp
      have hlen : (pre ++ [r.block]).length = pre.length + 1 := by simp
      have hloop := ih (fun m hm => hrows m (List.mem_cons_of_mem _ hm)) (pre ++ [r.block]) rest
        (by rw [hlen]; omega)
      dsimp only
      rw [hset, ← hlen, hloop, hlen]
      simp only [List.length_cons, Nat.add_le_add_iff_right, List.map_cons, List.drop_succ_cons,
        List.append_assoc, List.singleton_append, Nat.add_assoc, Nat.add_comm 1]

theorem rows_length_le_output (rows : List Row) : rows.length ≤ (output rows).length := by
  induction rows with
  | nil => exact Nat.zero_le _
  | cons r rows ih =>
    simp only [output, List.flatMap_cons, List.length_append, List.length_cons] at ih ⊢
    omega

theorem fgetsAll_output (rows : List Row) (hrows : ∀ r ∈ rows, r.WellFormed) :
    fgetsAll lineSz (output rows).length (output rows) = rows.map fun r => r.line ++ ['\n'] := by
  have hfit : ∀ l ∈ rows.map Row.line, '\n' ∉ l ∧ l.length + 1 < lineSz := by
    intro l hl
    obtain ⟨r, hr, rfl⟩ := List.mem_map.mp hl
    exact ⟨fun hc => ((hrows r hr).chars hc).1 rfl, (hrows r hr).short⟩
  have hlines := fgetsAll_lines (rows.map Row.line) hfit (output rows).length (by
    rw [List.length_map]
    exact rows_length_le_output rows)
  simpa only [output, List.flatMap_map, List.map_map, Function.comp_def] using hlines

theorem readLoop_fresh (rows : List Row) (hrows : ∀ r ∈ rows, r.WellFormed) (cap : ℕ)
    (hcap : cap < bbsSz) :
    readLoop (rows.map fun r => r.line ++ ['\n']) 0 (List.replicate cap ⟨0, 0⟩) =
      if rows.length ≤ cap then
        .ok (rows.map Row.block ++ List.replicate (cap - rows.length) ⟨0, 0⟩, rows.length)
      else .error (.outOfBounds cap) := by
  have h := readLoop_rows rows hrows [] (List.replicate cap ⟨0, 0⟩) (by simpa using hcap)
  simpa using h

theorem reallocBlocks_take (env : FindEnv) (bbs rest : List BasicBlock) (hbbs : bbs ≠ [])
    (hrealloc : env.realloc = true) :
    reallocBlocks env (bbs ++ rest) bbs.length = some bbs := by
  have hpos : bbs.length * sizeofBasicBlock ≠ 0 := by simp [sizeofBasicBlock, hbbs]
  simp [reallocBlocks, hpos, hrealloc]

theorem basicBlocksFind_rows (env : FindEnv) (r2bbScript bin : CText) (rows : List Row)
    (hrows : ∀ r ∈ rows, r.WellFormed)
    (hpopen : env.popen (r2bbScript ++ ' ' :: bin) = some (output rows))
    (hmalloc : env.malloc = true) (hrealloc : env.realloc = true) :
    basicBlocksFind env r2bbScript bin =
      if rows = [] then .error .assertion
      else if rows.length ≤ 1024 then .ok (rows.map Row.block, rows.length)
      else .error (.outOfBounds 1024) := by
  have hloop := readLoop_fresh rows hrows 1024 (by decide)
  have hcap : bbsSz / sizeofBasicBlock = 1024 := by decide
  unfold basicBlocksFind
  rw [hpopen, hmalloc, hcap]
  dsimp only
  rw [fgetsAll_output rows hrows, hloop]
  by_cases hz : rows = []
  · rw [hz]
    simp [reallocBlocks, -List.reduceReplicate]
  · rw [if_neg hz]
    by_cases hle : rows.length ≤ 1024
    · have hshrink := reallocBlocks_take env (rows.map Row.block)
        (List.replicate (1024 - rows.length) ⟨0, 0⟩) (by simpa using hz) hrealloc
      rw [List.length_map] at hshrink
      simp only [if_pos hle, hshrink, Bool.not_true, Bool.false_eq_true, if_false]
    · simp only [if_neg hle, Bool.not_true, Bool.false_eq_true, if_false]

/-- basic_blocks_find stores every row of the script exactly when there is at least one
and at most as many as it allocates elements for. -/
theorem basicBlocksFind_stores_rows_iff (env : FindEnv) (r2bbScript bin : CText)
    (rows : List Row) (hrows : ∀ r ∈ rows, r.WellFormed)
    (hpopen : env.popen (r2bbScript ++ ' ' :: bin) = some (output rows))
    (hmalloc : env.malloc = true) (hrealloc : env.realloc = true) :
    basicBlocksFind env r2bbScript bin = .ok (rows.map Row.block, rows.length) ↔
      1 ≤ rows.length ∧ rows.length ≤ 1024 := by
  rw [basicBlocksFind_rows env r2bbScript bin rows hrows hpopen hmalloc hrealloc]
  split_ifs with hz hle
  · simp [hz]
  · have hpos : 1 ≤ rows.length := List.length_pos_of_ne_nil hz
    simp [hpos, hle]
  · simp [hle]

def sampleRow : Row := ⟨['1', '6'], ['3', '2'], ['1', '6']⟩

theorem sampleRow_wellFormed : sampleRow.WellFormed := by
  refine ⟨by simp [sampleRow], ?_⟩
  show 9 < 1024
  omega

def printing (rows : List Row) : FindEnv := ⟨fun _ => some (output rows), true, true, ⟨0, 0⟩⟩

theorem basicBlocksFind_stores_sampleRow :
    basicBlocksFind (printing [sampleRow]) [] [] = .ok ([sampleRow.block], 1) :=
  (basicBlocksFind_stores_rows_iff (printing [sampleRow]) [] [] [sampleRow]
    (fun r hr => by rw [List.mem_singleton.mp hr]; exact sampleRow_wellFormed)
    rfl rfl rfl).mpr (by decide)

/-- Row 1024 is written behind the array, and no row at all fails the last assertion. -/
theorem basicBlocksFind_faults :
    sampleRow.WellFormed ∧
    basicBlocksFind (printing (List.replicate 1025 sampleRow)) [] [] = .error (.outOfBounds 1024) ∧
    basicBlocksFind (printing []) [] [] = .error .assertion := by
  refine ⟨sampleRow_wellFormed, ?_, rfl⟩
  rw [basicBlocksFind_rows (printing (List.replicate 1025 sampleRow)) [] [] _
    (fun r hr => by rw [List.eq_of_mem_replicate hr]; exact sampleRow_wellFormed) rfl rfl rfl,
    List.length_replicate, if_neg (by rw [List.replicate_succ]; exact List.cons_ne_nil _ _),
    if_neg (by decide)]

structure Extent where
  «from» : Fin (2 ^ 63)
  «to» : Fin (2 ^ 63)
  size : Fin (2 ^ 63)
  deriving DecidableEq

def Extent.text (e : Extent) : CText :=
  Nat.toDigits 10 e.from ++ ' ' :: (Nat.toDigits 10 e.to ++
    ' ' :: (Nat.toDigits 10 e.size ++ ['\n']))

def Extent.row (e : Extent) : Row :=
  ⟨Nat.toDigits 10 e.from, Nat.toDigits 10 e.to, Nat.toDigits 10 e.size⟩

theorem decimal_ofNat (n : Fin (2 ^ 63)) : decimal (.ofNat n) = Nat.toDigits 10 n := by
  unfold decimal
  rw [UInt64.toNat_ofNat_of_lt' (lt_trans n.isLt (by decide))]

theorem output_rows (es : List Extent) : output (es.map Extent.row) = es.flatMap Extent.text := by
  unfold output
  rw [List.flatMap_map]
  congr 1
  funext e
  rw [Row.line_eq]
  unfold Extent.row Extent.text
  simp

theorem decimal_word (n : Fin (2 ^ 63)) :
    Nat.toDigits 10 n ≠ [] ∧ ∀ c ∈ Nat.toDigits 10 n, c ≠ ' ' ∧ c ≠ '\n' ∧ c ≠ '\x00' := by
  rw [← decimal_ofNat]
  refine ⟨decimal_ne_nil _, fun c hc => ?_⟩
  have hdigit := decimal_isDigit hc
  refine ⟨?_, ?_, ?_⟩ <;> rintro rfl <;> contradiction

theorem Extent.row_wellFormed (e : Extent) : e.row.WellFormed where
  words := by
    intro w hw
    simp only [Extent.row, List.mem_cons, List.not_mem_nil, or_false] at hw
    rcases hw with rfl | rfl | rfl
    · exact decimal_word e.from
    · exact decimal_word e.to
    · exact decimal_word e.size
  short := by
    have hfrom := decimal_length_le (.ofNat e.from)
    have hto := decimal_length_le (.ofNat e.to)
    have hsize := decimal_length_le (.ofNat e.size)
    rw [decimal_ofNat] at hfrom hto hsize
    rw [Row.line_eq]
    simp only [Extent.row, lineSz, List.length_append, List.length_cons]
    omega

theorem atol_toDigits (n : Fin (2 ^ 63)) :
    (UInt64.ofInt (atol (Nat.toDigits 10 n))).toNat = n := by
  have hn := n.isLt
  have htoNat : (UInt64.ofNat n).toNat = n :=
    UInt64.toNat_ofNat_of_lt' (lt_trans hn (by decide))
  rw [← decimal_ofNat, atol_decimal, htoNat]
  unfold UInt64.ofInt longMax
  rw [UInt64.toNat_ofNat']
  omega

/-- What is printed is what is read: every row in its place, with both its addresses. -/
theorem basicBlocksFind_roundtrip (env : FindEnv) (r2bbScript bin : CText) (es : List Extent)
    (hne : es ≠ []) (hlen : es.length ≤ 1024)
    (hpopen : env.popen (r2bbScript ++ ' ' :: bin) = some (es.flatMap Extent.text))
    (hmalloc : env.malloc = true) (hrealloc : env.realloc = true) :
    ∃ bbs, basicBlocksFind env r2bbScript bin = .ok (bbs, es.length) ∧
      bbs.map (fun bb => (bb.from.toNat, bb.to.toNat)) =
        es.map fun e => ((e.from : ℕ), (e.to : ℕ)) := by
  have hrows : ∀ r ∈ es.map Extent.row, r.WellFormed := by
    intro r hr
    obtain ⟨e, _, rfl⟩ := List.mem_map.mp hr
    exact e.row_wellFormed
  rw [← output_rows] at hpopen
  refine ⟨(es.map Extent.row).map Row.block, ?_, ?_⟩
  · rw [basicBlocksFind_rows env r2bbScript bin _ hrows hpopen hmalloc hrealloc,
      if_neg (by simpa using hne), if_pos (by simpa using hlen), List.length_map]
  · rw [List.map_map, List.map_map]
    congr 1
    funext e
    exact Prod.ext (atol_toDigits e.from) (atol_toDigits e.to)

theorem basicBlocksFind_roundtrip_ends :
    ∃ bbs, basicBlocksFind (printing [Extent.row ⟨0, 16, 16⟩, Extent.row ⟨32, Fin.last _, 7⟩]) [] [] =
        .ok (bbs, 2) ∧
      bbs.map (fun bb => (bb.from.toNat, bb.to.toNat)) = [(0, 16), (32, 2 ^ 63 - 1)] :=
  basicBlocksFind_roundtrip _ [] [] [⟨0, 16, 16⟩, ⟨32, Fin.last _, 7⟩] (by simp) (by decide)
    (congrArg some (output_rows [⟨0, 16, 16⟩, ⟨32, Fin.last _, 7⟩])) rfl rfl

end BasicBlocks
end FuzzMonitor
