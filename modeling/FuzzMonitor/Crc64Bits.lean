import FuzzMonitor.ReflectedCrc
import FuzzMonitor.SeenInputs

namespace FuzzMonitor.Crc64
open ReflectedCrc MonitorLoop

/-- The polynomial x^64 + x^4 + x^3 + x + 1 of ISO 3309, reflected. -/
def isoPoly : BitVec 64 := 0xD800000000000000#64

theorem isoPoly_msb : isoPoly.msb = true := by decide

theorem utilCRC64ISOPoly_entries :
    ∀ i : Fin utilCRC64ISOPoly.length, (utilCRC64ISOPoly.get i).toBitVec =
      (bitStep isoPoly)^[8] (BitVec.ofNat 64 i) := by decide +kernel

theorem polyAt_toBitVec (i : UInt8) :
    (polyAt i).toBitVec = (bitStep isoPoly)^[8] (i.toBitVec.setWidth 64) := by
  have hindex : BitVec.ofNat 64 i.toNat = i.toBitVec.setWidth 64 := BitVec.ofNat_toNat 64 i.toBitVec
  rw [← hindex]
  exact utilCRC64ISOPoly_entries _

/-- A pass of the loop is eight bit steps: the table has those of the low byte, and the other
bytes only move down. -/
theorem crcStep_toBitVec (res : UInt64) (b : UInt8) :
    (crcStep res b).toBitVec = feed isoPoly res.toBitVec b.toBitVec := by
  have hlow : (res.toBitVec ^^^ b.toBitVec.setWidth 64).setWidth 8 =
      res.toBitVec.setWidth 8 ^^^ b.toBitVec := by
    rw [BitVec.setWidth_xor, BitVec.setWidth_setWidth_of_le _ (by decide), BitVec.setWidth_eq]
  have hhigh : (res.toBitVec ^^^ b.toBitVec.setWidth 64) >>> 8 = res.toBitVec >>> 8 := by
    rw [BitVec.ushiftRight_xor_distrib, byte_ushiftRight, BitVec.xor_zero]
  unfold crcStep feed
  rw [bitSteps_split isoPoly 8, hlow, hhigh, UInt64.toBitVec_xor, polyAt_toBitVec]
  rfl

theorem crcLoop_eq_crc {len : ℕ} {buf : List UInt8} (h : len ≤ buf.length) (res : UInt64) :
    crcLoop len buf res =
      some (UInt64.ofBitVec (crc isoPoly res.toBitVec ((buf.take len).map UInt8.toBitVec))) := by
  induction len generalizing buf res with
  | zero => rfl
  | succ len ih =>
    cases buf with
    | nil => simp at h
    | cons b buf =>
      rw [crcLoop, ih (Nat.le_of_succ_le_succ h), crcStep_toBitVec]
      rfl

def bitCRC64 (bytes : List UInt8) : UInt64 :=
  .ofBitVec (crc isoPoly 0#64 (bytes.map UInt8.toBitVec))

/-- What util_CRC64 returns is the bitwise CRC of the bytes that it reads. -/
theorem utilCRC64_eq_bitCRC64 {len : ℕ} {buf : List UInt8} (h : len ≤ buf.length) :
    utilCRC64 buf len = some (bitCRC64 (buf.take len)) :=
  crcLoop_eq_crc h 0

theorem utilCRC64_bits (bytes : List UInt8) :
    utilCRC64 bytes bytes.length =
      some (.ofBitVec (crc isoPoly 0#64 (bytes.map UInt8.toBitVec))) := by
  rw [utilCRC64_eq_bitCRC64 le_rfl, List.take_length]
  rfl

example : utilCRC64 [0x31, 0x32, 0x33, 0x34, 0x35, 0x36, 0x37, 0x38, 0x39] 9 =
    some 0x46A5A9388A5BEFFE := by decide +kernel

theorem bitCRC64_append (p q : List UInt8) :
    bitCRC64 (p ++ q) = .ofBitVec
      (crc isoPoly (crc isoPoly 0#64 (p.map UInt8.toBitVec)) (q.map UInt8.toBitVec)) := by
  unfold bitCRC64 crc
  rw [List.map_append, List.foldl_append]

/-- Up to eight bytes inject into the state behind p, and s keeps the states apart. -/
theorem bitCRC64_window_ne (p s : List UInt8) {u v : List UInt8} (hlen : u.length = v.length)
    (hfit : u.length ≤ 8) (hne : u ≠ v) : bitCRC64 (p ++ u ++ s) ≠ bitCRC64 (p ++ v ++ s) := by
  have hinj : Function.Injective UInt8.toBitVec := fun _ _ => UInt8.toBitVec_inj.mp
  have hbytes : u.map UInt8.toBitVec ≠ v.map UInt8.toBitVec := hinj.list_map.ne hne
  have hlen' : (u.map UInt8.toBitVec).length = (v.map UInt8.toBitVec).length := by
    rw [List.length_map, List.length_map, hlen]
  have hfit' : 8 * (u.map UInt8.toBitVec).length ≤ 64 := by
    rw [List.length_map]
    omega
  intro h
  rw [bitCRC64_append, bitCRC64_append, List.map_append, List.map_append] at h
  have hstates := crc_injective isoPoly_msb (s.map UInt8.toBitVec) (UInt64.ofBitVec.inj h)
  unfold crc at hstates
  rw [List.foldl_append, List.foldl_append] at hstates
  exact crc_ne isoPoly_msb _ hlen' hfit' hbytes hstates

/-- The hash of an input, where its size stays within the bytes received. -/
theorem hash_eq_bitCRC64 {i : Input} {hash : UInt64} (h : i.hash = some hash) :
    hash = bitCRC64 i.data := by
  unfold Input.hash at h
  have hle : i.size.toNat ≤ i.bytes.length := by
    rw [← crcLoop_isSome_iff i.size.toNat i.bytes 0]
    unfold utilCRC64 at h
    rw [h, Option.isSome_some]
  rw [utilCRC64_eq_bitCRC64 hle] at h
  exact (Option.some.inj h).symm

/-- Two inputs that differ within eight consecutive bytes have different hashes, and no pass
that handles one of them counts it for the other. -/
theorem window_counted_apart (p s : List UInt8) {u v : List UInt8} (hlen : u.length = v.length)
    (hfit : u.length ≤ 8) (hne : u ≠ v) :
    utilCRC64 (p ++ u ++ s) (p ++ u ++ s).length ≠ utilCRC64 (p ++ v ++ s) (p ++ v ++ s).length ∧
      ∀ (i j : Input) (conf : LoopConf) (env : PassEnv) (st : LoopState) (hash : UInt64),
        i.data = p ++ u ++ s → j.data = p ++ v ++ s → j.hash = some hash →
          (handleInput conf env i st).seen.table.lookup hash = st.seen.table.lookup hash := by
  have hapart := bitCRC64_window_ne p s hlen hfit hne
  constructor
  · rw [utilCRC64_eq_bitCRC64 le_rfl, utilCRC64_eq_bitCRC64 le_rfl, List.take_length,
      List.take_length]
    intro h
    exact hapart (Option.some.inj h)
  · intro i j conf env st hash hi hj hhash
    apply handleInput_lookup_ne
    intro hsame
    apply hapart
    rw [← hi, ← hj, ← hash_eq_bitCRC64 hsame, ← hash_eq_bitCRC64 hhash]

theorem window_counted_apart_byte : utilCRC64 [1, 2, 3] 3 ≠ utilCRC64 [1, 4, 3] 3 :=
  (window_counted_apart [1] [3] (u := [2]) (v := [4]) rfl (by decide) (by decide)).1

theorem bitCRC64_prepend_eq_iff {p : List UInt8} (s : List UInt8) (hfit : p.length ≤ 8) :
    bitCRC64 (p ++ s) = bitCRC64 s ↔ ∀ b ∈ p, b = 0 := by
  have hfit' : 8 * (p.map UInt8.toBitVec).length ≤ 64 := by
    rw [List.length_map]
    omega
  have hzero : ∀ b : UInt8, b.toBitVec = 0#8 ↔ b = 0 := fun b => UInt8.toBitVec_inj (b := 0)
  have hstate : bitCRC64 (p ++ s) = bitCRC64 s ↔
      crc isoPoly 0#64 (p.map UInt8.toBitVec) = 0#64 := by
    rw [bitCRC64_append, bitCRC64]
    constructor
    · intro h
      exact crc_injective isoPoly_msb (s.map UInt8.toBitVec) (UInt64.ofBitVec.inj h)
    · intro h
      rw [h]
  rw [hstate, crc_eq_zero_iff isoPoly_msb hfit', List.forall_mem_map]
  simp only [hzero]

/-- Up to eight bytes in front of a string change its hash exactly when they are not all zero;
then no pass that handles the longer input counts it for the other one, and else the two are
counted under one hash. -/
theorem prepended_counted_iff {p : List UInt8} (s : List UInt8) (hfit : p.length ≤ 8) :
    (utilCRC64 (p ++ s) (p ++ s).length = utilCRC64 s s.length ↔ ∀ b ∈ p, b = 0) ∧
      ∀ (i j : Input) (hash : UInt64), i.data = p ++ s → j.data = s → j.hash = some hash →
        (∀ hash', i.hash = some hash' → (hash' = hash ↔ ∀ b ∈ p, b = 0)) ∧
        ((∃ b ∈ p, b ≠ 0) → ∀ (conf : LoopConf) (env : PassEnv) (st : LoopState),
          (handleInput conf env i st).seen.table.lookup hash = st.seen.table.lookup hash) := by
  have hblock := bitCRC64_prepend_eq_iff s hfit
  constructor
  · rw [utilCRC64_eq_bitCRC64 le_rfl, utilCRC64_eq_bitCRC64 le_rfl, List.take_length,
      List.take_length, Option.some_inj]
    exact hblock
  · intro i j hash hi hj hhash
    have hsame : ∀ hash', i.hash = some hash' → (hash' = hash ↔ ∀ b ∈ p, b = 0) := by
      intro hash' hhash'
      rw [hash_eq_bitCRC64 hhash', hash_eq_bitCRC64 hhash, hi, hj]
      exact hblock
    refine ⟨hsame, ?_⟩
    rintro ⟨b, hb, hne⟩ conf env st
    apply handleInput_lookup_ne
    intro hcounted
    exact hne ((hsame hash hcounted).mp rfl b hb)

theorem prepended_counted_block :
    ¬utilCRC64 ([0, 1] ++ [2, 3]) 4 = utilCRC64 [2, 3] 2 := by
  rw [show (4 : ℕ) = ([0, 1] ++ [2, 3] : List UInt8).length from rfl,
    show (2 : ℕ) = ([2, 3] : List UInt8).length from rfl,
    (prepended_counted_iff (p := [0, 1]) [2, 3] (by decide)).1]
  decide

/-- A zero byte in front of any input. -/
theorem prepended_zero_merged :
    utilCRC64 ([0] ++ [2, 3]) 3 = utilCRC64 [2, 3] 2 ∧ utilCRC64 ([0] ++ []) 1 = utilCRC64 [] 0 := by
  decide +kernel

end FuzzMonitor.Crc64
