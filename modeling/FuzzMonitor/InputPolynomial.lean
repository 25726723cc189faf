import FuzzMonitor.Crc64Bits
import FuzzMonitor.CrcPolynomial
import FuzzMonitor.SeenListing

namespace FuzzMonitor.Crc64
open ReflectedCrc Polynomial

noncomputable def isoModulus : (ZMod 2)[X] := X ^ 64 + X ^ 4 + X ^ 3 + X + 1

theorem isoPoly_getMsbD (i : ℕ) :
    isoPoly.getMsbD i = (decide (i = 4) || decide (i = 3) || decide (i = 1) || decide (i = 0)) := by
  by_cases hi : i < 64
  · revert i
    decide
  · rw [BitVec.getMsbD_of_ge _ _ (by omega)]
    simp only [Bool.false_eq, Bool.or_eq_false_iff, decide_eq_false_iff_not]
    omega

theorem modulus_isoPoly : modulus isoPoly = isoModulus := by
  unfold modulus isoModulus
  rw [add_assoc, add_assoc, add_assoc, add_right_inj]
  ext i
  rw [toPoly_coeff, isoPoly_getMsbD]
  simp only [coeff_add, coeff_X_pow, coeff_X, coeff_one]
  by_cases h4 : i = 4
  · subst h4
    decide
  by_cases h3 : i = 3
  · subst h3
    decide
  by_cases h1 : i = 1
  · subst h1
    decide
  by_cases h0 : i = 0
  · subst h0
    decide
  simp [coeffOf, h4, h3, Ne.symm h1, h1, h0]

/-- The polynomial of a byte string: the first byte has the highest degrees, and in each byte the
low bit. -/
noncomputable def bytesPoly (bytes : List UInt8) : (ZMod 2)[X] :=
  message (bytes.map UInt8.toBitVec)

theorem bitCRC64_remainder (bytes : List UInt8) :
    toPoly (bitCRC64 bytes).toBitVec = (X ^ 64 * bytesPoly bytes) %ₘ isoModulus := by
  rw [← modulus_isoPoly]
  exact crc_eq_remainder isoPoly (by decide) _

/-- util_CRC64 divides polynomials: the bits of its result are the coefficients of the remainder. -/
theorem utilCRC64_remainder (bytes : List UInt8) :
    (utilCRC64 bytes bytes.length).map (fun hash => toPoly hash.toBitVec) =
      some ((X ^ 64 * bytesPoly bytes) %ₘ isoModulus) := by
  rw [utilCRC64_eq_bitCRC64 le_rfl, List.take_length, Option.map_some, bitCRC64_remainder]

/-- Two byte strings, of any lengths, whose polynomials leave the same remainder. -/
def SameResidue (us vs : List UInt8) : Prop := isoModulus ∣ bytesPoly us - bytesPoly vs

theorem bitCRC64_eq_iff (us vs : List UInt8) : bitCRC64 us = bitCRC64 vs ↔ SameResidue us vs := by
  have hcrc := crc_eq_iff isoPoly (by decide) isoPoly_msb (us.map UInt8.toBitVec)
    (vs.map UInt8.toBitVec)
  rw [modulus_isoPoly] at hcrc
  exact ⟨fun h => hcrc.mp (UInt64.ofBitVec.inj h), fun h => congrArg UInt64.ofBitVec (hcrc.mpr h)⟩

theorem sameResidue_iff (us vs : List UInt8) :
    SameResidue us vs ↔ bytesPoly us %ₘ isoModulus = bytesPoly vs %ₘ isoModulus := by
  have hmonic : isoModulus.Monic := modulus_isoPoly ▸ modulus_monic isoPoly
  unfold SameResidue
  rw [← sub_eq_zero (a := bytesPoly us %ₘ isoModulus), ← sub_modByMonic,
    modByMonic_eq_zero_iff_dvd hmonic]

end FuzzMonitor.Crc64

namespace FuzzMonitor.MonitorLoop
open CStrings Inotify Branches Perf Tally Crc64

/-- The hashes of two inputs tell their residues apart. -/
theorem hash_eq_iff {i j : Input} {hash hash' : UInt64} (hi : i.hash = some hash)
    (hj : j.hash = some hash') : hash = hash' ↔ SameResidue i.data j.data := by
  rw [hash_eq_bitCRC64 hi, hash_eq_bitCRC64 hj, bitCRC64_eq_iff]

theorem count_eq_countP {inputs : List Input} {hashes : List UInt64}
    (h : inputs.map Input.hash = hashes.map some) (hash : UInt64) :
    hashes.count hash = inputs.countP fun j => j.hash == some hash := by
  rw [← List.count_map_of_injective hashes some (Option.some_injective _), ← h, List.count,
    List.countP_map]
  rfl

theorem card_toFinset_map_congr {α β γ : Type*} [DecidableEq β] [DecidableEq γ] {f : α → β}
    {g : α → γ} {l : List α} (h : ∀ a ∈ l, ∀ b ∈ l, f a = f b ↔ g a = g b) :
    (l.map f).toFinset.card = (l.map g).toFinset.card := by
  induction l with
  | nil => rfl
  | cons a l ih =>
    have hrest := ih fun b hb c hc => h b (List.mem_cons_of_mem _ hb) c (List.mem_cons_of_mem _ hc)
    have hmem : f a ∈ (l.map f).toFinset ↔ g a ∈ (l.map g).toFinset := by
      rw [List.mem_toFinset, List.mem_toFinset, List.mem_map, List.mem_map]
      refine exists_congr fun b => and_congr_right fun hb => ?_
      exact h b (List.mem_cons_of_mem _ hb) a List.mem_cons_self
    rw [List.map_cons, List.map_cons, List.toFinset_cons, List.toFinset_cons]
    by_cases hf : f a ∈ (l.map f).toFinset
    · rw [Finset.insert_eq_of_mem hf, Finset.insert_eq_of_mem (hmem.mp hf), hrest]
    · rw [Finset.card_insert_of_notMem hf, Finset.card_insert_of_notMem (mt hmem.mpr hf), hrest]

open Classical in
/-- In every run of monitor_loop that returns, on fewer than 2^32 inputs, the listing has one line
for each residue of an input modulo the polynomial, and each input finds in the line of its hash the
number of inputs with its residue. -/
theorem listing_residues (conf : LoopConf) (m : Monitor) (g : GblStatus) (heap : ℕ)
    (queue : List InEvent) (envs : List PassEnv) (ret : ℤ) (entries : List (UInt64 × SeenEntry))
    (hlen : (loopRun conf m g heap queue envs).inputs.length < 2 ^ 32)
    (hstop : (loopRun conf m g heap queue envs).stop = some (.returned ret))
    (hperm : entries.Perm
      ((loopRun conf m g heap queue envs).seen.table.entries.map fun e => (e.1, e.2))) :
    (∀ i ∈ (loopRun conf m g heap queue envs).inputs, ∃ hash, i.hash = some hash ∧
      listLine hash (.ofNat ((loopRun conf m g heap queue envs).inputs.countP
        fun j => SameResidue i.data j.data)) ∈ listing entries) ∧
    (listing entries).length = ((loopRun conf m g heap queue envs).inputs.map fun i =>
      Polynomial.modByMonic (bytesPoly i.data) isoModulus).toFinset.card := by
  obtain ⟨hashes, hhashes, htallies⟩ := loop_hashes hlen hstop
  have hlines := listing_perm htallies hperm
  generalize (loopRun conf m g heap queue envs).inputs = inputs at hhashes
  have hhash : ∀ i ∈ inputs, ∃ hash ∈ hashes, i.hash = some hash := by
    intro i hi
    have hmem : i.hash ∈ hashes.map some := hhashes ▸ List.mem_map_of_mem hi
    obtain ⟨hash, hmem', heq⟩ := List.mem_map.mp hmem
    exact ⟨hash, hmem', heq.symm⟩
  constructor
  · intro i hi
    obtain ⟨hash, hmem, hsome⟩ := hhash i hi
    refine ⟨hash, hsome, ?_⟩
    have hcount : inputs.countP (fun j => SameResidue i.data j.data) = hashes.count hash := by
      rw [count_eq_countP hhashes]
      apply List.countP_congr
      intro j hj
      obtain ⟨hash', -, hsome'⟩ := hhash j hj
      rw [decide_eq_true_iff, hsome', beq_iff_eq, ← hash_eq_iff hsome hsome', Option.some_inj]
      exact eq_comm
    rw [hcount]
    exact hlines.mem_iff.mpr (List.mem_map_of_mem (List.mem_dedup.mpr hmem))
  -- there are as many hashes as residues
  · have hsome := card_toFinset_map_congr (f := some) (g := id) (l := hashes)
      fun _ _ _ _ => Option.some_inj
    rw [hlines.length_eq, List.length_map, ← List.card_toFinset, ← List.map_id hashes, ← hsome,
      ← hhashes]
    apply card_toFinset_map_congr
    intro i hi j hj
    obtain ⟨hash, -, hi⟩ := hhash i hi
    obtain ⟨hash', -, hj⟩ := hhash j hj
    rw [hi, hj, Option.some_inj, hash_eq_iff hi hj, sameResidue_iff]

theorem listing_residues_repeatedEnvs :
    (listing ((loopRun sampleConf bareMonitor .init 0 [] repeatedEnvs).seen.table.entries.map
      fun e => (e.1, e.2))).length = 1 := by
  have hlen : (loopRun sampleConf bareMonitor .init 0 [] repeatedEnvs).inputs.length < 2 ^ 32 := by
    decide +kernel
  have hstop : (loopRun sampleConf bareMonitor .init 0 [] repeatedEnvs).stop =
      some (.returned exitSuccess) := by
    decide +kernel
  have hdata : (loopRun sampleConf bareMonitor .init 0 [] repeatedEnvs).inputs.map Input.data =
      [[1], [1]] := by
    decide +kernel
  obtain ⟨-, hcard⟩ := listing_residues sampleConf bareMonitor .init 0 [] repeatedEnvs
    exitSuccess _ hlen hstop (.refl _)
  have hmap : ∀ inputs : List Input, inputs.map (fun i =>
      Polynomial.modByMonic (bytesPoly i.data) isoModulus) =
        (inputs.map Input.data).map fun data =>
          Polynomial.modByMonic (bytesPoly data) isoModulus := by
    intro inputs
    rw [List.map_map]
    rfl
  rw [hcard, hmap, hdata]
  simp

end FuzzMonitor.MonitorLoop
