import FuzzMonitor.SeenCells

namespace FuzzMonitor.MonitorLoop
open CStrings Inotify Branches Perf Tally Runs

def listLine (key : UInt64) (value : UInt32) : CText :=
  (hex key).leftpad 16 ' ' ++ ' ' :: (decimal value.toUInt64).leftpad 5 ' '

def listing (entries : List (UInt64 × SeenEntry)) : List CText :=
  entries.map fun e => listLine e.1 e.2.value

theorem space_notMem_hex (n : UInt64) : ' ' ∉ hex n := by
  intro h
  obtain ⟨d, hd, heq⟩ := mem_toDigits_sixteen n.toNat h
  revert heq
  interval_cases d <;> decide

theorem space_notMem_decimal (n : UInt64) : ' ' ∉ decimal n := fun h =>
  absurd (decimal_isDigit h) (by decide)

theorem dropWhile_leftpad {s : CText} (h : ' ' ∉ s) (hne : s ≠ []) (n : ℕ) (t : CText) :
    (s.leftpad n ' ' ++ t).dropWhile (· == ' ') = s ++ t := by
  obtain ⟨c, cs, rfl⟩ := List.exists_cons_of_ne_nil hne
  have hc : (c == ' ') = false := beq_false_of_ne fun heq => h (heq ▸ List.mem_cons_self)
  unfold List.leftpad
  rw [List.append_assoc, List.dropWhile_append_of_pos]
  · rw [List.cons_append, List.dropWhile_cons, hc]
    rfl
  · intro c' hc'
    rw [(List.mem_replicate.mp hc').2]
    rfl

/-- The line determines the entry. -/
theorem listLine_injective {k k' : UInt64} {v v' : UInt32} (h : listLine k v = listLine k' v') :
    k = k' ∧ v = v' := by
  have hdrop := congrArg (List.dropWhile (· == ' ')) h
  unfold listLine at hdrop
  rw [dropWhile_leftpad (space_notMem_hex k) Nat.toDigits_ne_nil,
    dropWhile_leftpad (space_notMem_hex k') Nat.toDigits_ne_nil] at hdrop
  -- behind the padding a blank ends the key, and no key holds one
  obtain ⟨hkey, hrest⟩ := append_separator_inj (space_notMem_hex k) (space_notMem_hex k') hdrop
  have hvalue := congrArg (List.dropWhile (· == ' ')) hrest
  rw [← List.append_nil (List.leftpad 5 ' ' (decimal v.toUInt64)),
    ← List.append_nil (List.leftpad 5 ' ' (decimal v'.toUInt64)),
    dropWhile_leftpad (space_notMem_decimal _) (decimal_ne_nil _),
    dropWhile_leftpad (space_notMem_decimal _) (decimal_ne_nil _), List.append_nil,
    List.append_nil] at hvalue
  have hnat := congrArg UInt64.toNat (decimal_injective hvalue)
  rw [UInt32.toNat_toUInt64, UInt32.toNat_toUInt64] at hnat
  exact ⟨hex_injective hkey, UInt32.toNat_inj.mp hnat⟩

theorem loop_hashes {conf : LoopConf} {m : Monitor} {g : GblStatus} {heap : ℕ}
    {queue : List InEvent} {envs : List PassEnv} {ret : ℤ}
    (hlen : (loopRun conf m g heap queue envs).inputs.length < 2 ^ 32)
    (hstop : (loopRun conf m g heap queue envs).stop = some (.returned ret)) :
    ∃ hashes : List UInt64,
      (loopRun conf m g heap queue envs).inputs.map Input.hash = hashes.map some ∧
      Tallies SeenEntry.count (loopRun conf m g heap queue envs).seen.table hashes := by
  have hlogged := logRun_logged conf m g heap queue envs hlen
  obtain ⟨⟨cs, hrun, hle, hall⟩, -, -⟩ := hlogged
  rw [logRun_loop] at hrun hle hall
  have hok : ¬Broken (loopRun conf m g heap queue envs) := by
    unfold Broken
    rw [hstop]
    exact not_or.mpr ⟨nofun, nofun⟩
  refine ⟨cs.map Counting.hash, ?_, (bookkept_of_run hrun (hle.trans_lt hlen)).tallied.tallies⟩
  rw [List.map_map, hall hok]

/-- The lines for a table that has counted some hashes. -/
theorem listing_perm {t : Table UInt64 SeenEntry} {hashes : List UInt64}
    {entries : List (UInt64 × SeenEntry)} (htallies : Tallies SeenEntry.count t hashes)
    (hperm : entries.Perm (t.entries.map fun e => (e.1, e.2))) :
    (listing entries).Perm
      (hashes.dedup.map fun hash => listLine hash (.ofNat (hashes.count hash))) := by
  refine (hperm.map _).trans (List.Perm.trans (.of_eq ?_) (htallies.keys_perm.map _))
  unfold AList.keys List.keys
  rw [List.map_map, List.map_map]
  apply List.map_congr_left
  intro e he
  have hcount := (htallies.val_eq_count (AList.mem_lookup_iff.mpr he)).2
  dsimp only [Function.comp_apply]
  rw [← hcount]
  exact congrArg _ UInt32.ofNat_toNat.symm

/-- In every run of monitor_loop that returns, on fewer than 2^32 inputs, the listing has one line
for each hash of an input, with the number of inputs that have it; a line determines its hash and its
number, so the lines tell which hashes occurred, and their counts add up to the number of inputs. -/
theorem loop_listing (conf : LoopConf) (m : Monitor) (g : GblStatus) (heap : ℕ)
    (queue : List InEvent) (envs : List PassEnv) (ret : ℤ) (entries : List (UInt64 × SeenEntry))
    (hlen : (loopRun conf m g heap queue envs).inputs.length < 2 ^ 32)
    (hstop : (loopRun conf m g heap queue envs).stop = some (.returned ret))
    (hperm : entries.Perm
      ((loopRun conf m g heap queue envs).seen.table.entries.map fun e => (e.1, e.2))) :
    ∃ hashes : List UInt64,
      (loopRun conf m g heap queue envs).inputs.map Input.hash = hashes.map some ∧
      (listing entries).Perm
        (hashes.dedup.map fun hash => listLine hash (.ofNat (hashes.count hash))) ∧
      (∀ hash hash' value value', listLine hash value = listLine hash' value' →
        hash = hash' ∧ value = value') ∧
      (∀ hash, (∃ value, listLine hash value ∈ listing entries) ↔ hash ∈ hashes) ∧
      (entries.map fun e => e.2.count).sum = (loopRun conf m g heap queue envs).inputs.length := by
  obtain ⟨hashes, hhashes, htallies⟩ := loop_hashes hlen hstop
  have hlines := listing_perm htallies hperm
  refine ⟨hashes, hhashes, hlines, fun _ _ _ _ => listLine_injective, fun hash => ?_, ?_⟩
  · constructor
    · rintro ⟨value, hvalue⟩
      obtain ⟨hash', hmem, hline⟩ := List.mem_map.mp (hlines.mem_iff.mp hvalue)
      rw [← (listLine_injective hline).1]
      exact List.mem_dedup.mp hmem
    · intro hmem
      exact ⟨_, hlines.mem_iff.mpr (List.mem_map_of_mem (List.mem_dedup.mpr hmem))⟩
  · have htotal := htallies.total
    unfold total at htotal
    rw [(hperm.map _).sum_eq, List.map_map]
    refine Eq.trans htotal ?_
    have hsize := congrArg List.length hhashes
    rw [List.length_map, List.length_map] at hsize
    exact hsize.symm

theorem loop_listing_repeatedEnvs :
    (((loopRun sampleConf bareMonitor .init 0 [] repeatedEnvs).seen.table.entries.map
      fun e => (e.1, e.2)).map fun e => e.2.count).sum = 2 := by
  have hlen : (loopRun sampleConf bareMonitor .init 0 [] repeatedEnvs).inputs.length < 2 ^ 32 := by
    decide +kernel
  have hstop : (loopRun sampleConf bareMonitor .init 0 [] repeatedEnvs).stop =
      some (.returned exitSuccess) := by
    decide +kernel
  obtain ⟨hashes, -, -, -, -, hsum⟩ := loop_listing sampleConf bareMonitor .init 0 [] repeatedEnvs
    exitSuccess _ hlen hstop (.refl _)
  rw [hsum]
  decide +kernel

end FuzzMonitor.MonitorLoop
