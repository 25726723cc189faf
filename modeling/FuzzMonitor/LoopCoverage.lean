import FuzzMonitor.LoopCalls
import FuzzMonitor.Resolution

namespace FuzzMonitor.MonitorLoop
open CStrings Inotify Branches Perf Tally

theorem flatMap_call (conf : LoopConf) (hs : List Handled) :
    (hs.map (Handled.call conf)).flatMap Call.trace = hs.flatMap (Handled.trace conf) :=
  List.flatMap_map _ _ _

/-- In a loop that monitor_loop returns from no call has died, and if it returns EXIT_SUCCESS all
have returned 0. -/
theorem MakesCalls.ends {conf : LoopConf} {s₀ s : LoopState} {handled : List Handled} {ret : ℤ}
    (h : MakesCalls conf s₀ handled s) (hstop : s.stop = some (.returned ret)) :
    (∀ out ∈ s.outcomes.getLast?, out.stop ≠ .died) ∧
      (ret = exitSuccess → ∀ out ∈ s.outcomes, out.stop = .returned 0) := by
  constructor
  · intro out hout hdied
    rcases h.failed out hout (by rw [hdied]; exact nofun) with ⟨hfail, -⟩ | ⟨-, hleft⟩
    · rw [hdied] at hfail
      contradiction
    · rw [hstop] at hleft
      cases hleft
  · intro hret out hout
    -- a call that fails leaves the loop with EXIT_FAILURE
    by_contra hfail
    obtain ⟨k, hk⟩ := List.mem_iff_getElem?.mp hout
    obtain ⟨-, hlast⟩ := h.failed_last hk hfail
    rcases h.failed out hlast hfail with ⟨-, hleft⟩ | ⟨-, hleft⟩
    · rw [hstop, hret] at hleft
      exact absurd hleft (by decide)
    · rw [hstop] at hleft
      cases hleft

theorem MakesCalls.graphFile {conf : LoopConf} {s₀ s : LoopState} {handled : List Handled} {ret : ℤ}
    (h : MakesCalls conf s₀ handled s) (hstop : s.stop = some (.returned ret))
    (hempty : s₀.monitor.branchHits = ∅) {entries : List (CText × HitEntry)} (name : CText)
    (heap : ℕ) (hperm : entries.Perm (s.monitor.branchHits.entries.map fun e => (e.1, e.2)))
    (hlen : (handled.flatMap (Handled.trace conf)).length < 2 ^ 64)
    (hsmall : ∀ p ∈ recorded s₀.monitor.secBounds s₀.monitor.bbs
      (handled.flatMap (Handled.trace conf)), p.1.toNat < 2 ^ 63 ∧ p.2.toNat < 2 ^ 63) :
    ∃ kept file, Kept s₀.monitor s₀.heap (handled.map (Handled.call conf)) kept ∧
      (ret = exitSuccess → kept = handled.flatMap (Handled.trace conf)) ∧
      (freeHashtable .succeed entries (some name) heap).file = some (name, file) ∧
      ListsEdges (recorded s₀.monitor.secBounds s₀.monitor.bbs kept) file := by
  obtain ⟨hlast, hall⟩ := h.ends hstop
  have hbefore := h.before
  rw [h.outcomes] at hbefore hlast hall
  rw [← flatMap_call] at hlen hsmall ⊢
  obtain ⟨kept, hkept⟩ := runCalls_kept hempty hlen hbefore hlast
  have htable := hkept.tallies
  rw [← h.outcomes, ← h.table] at htable
  obtain ⟨file, hfile, hlists⟩ := freeHashtable_lists name heap htable hperm fun p hp => by
    obtain ⟨lost, hlost⟩ := hkept.cut
    apply hsmall p
    rw [← hlost, recorded_append]
    exact List.mem_append_left _ hp
  exact ⟨kept, file, hkept, fun hret => hkept.whole (hall hret), hfile, hlists⟩

/-- Every edge of a per-input file is kept, and no other edge if monitor_loop returned
EXIT_SUCCESS. -/
theorem MakesCalls.files_agree {conf : LoopConf} {s₀ s : LoopState} {handled : List Handled}
    {ret : ℤ} (h : MakesCalls conf s₀ handled s) (hstop : s.stop = some (.returned ret))
    (hempty : s₀.monitor.branchHits = ∅) (hproper : ∀ one ∈ handled, Proper (one.call conf))
    (hlen : (handled.flatMap (Handled.trace conf)).length < 2 ^ 64) {kept : List BtsBranch}
    (hkept : Kept s₀.monitor s₀.heap (handled.map (Handled.call conf)) kept)
    (p : UInt64 × UInt64) :
    ((∃ f ∈ files s.outcomes, edgeLine p ∈ f.2) →
        p ∈ recorded s₀.monitor.secBounds s₀.monitor.bbs kept) ∧
      (ret = exitSuccess → p ∈ recorded s₀.monitor.secBounds s₀.monitor.bbs kept →
        ∃ f ∈ files s.outcomes, edgeLine p ∈ f.2) := by
  obtain ⟨hlast, hall⟩ := h.ends hstop
  have hbefore := h.before
  have hcalls : ∀ call ∈ handled.map (Handled.call conf), Proper call := by
    intro call hcall
    obtain ⟨one, hone, rfl⟩ := List.mem_map.mp hcall
    exact hproper one hone
  rw [← flatMap_call] at hlen
  rw [h.outcomes] at hbefore hlast hall ⊢
  refine ⟨fun hp => hkept.of_file hempty hcalls hlen hbefore hlast hp, fun hret hp => ?_⟩
  rw [hkept.whole (hall hret)] at hp
  exact (files_recorded hempty hcalls hlen (hall hret) p).mpr hp

/-- An address resolves to the start of a block that contains it, or to itself. -/
theorem resolve_le (bbs : List BasicBlock) (branch : BtsBranch) :
    (resolve bbs branch).1 ≤ branch.from ∧ (resolve bbs branch).2 ≤ branch.to := by
  have hstart : ∀ (p : List BasicBlock) (x : UInt64),
      (if lastStart p x = 0 then x else lastStart p x) ≤ x := by
    intro p x
    split_ifs with h
    · exact UInt64.le_refl x
    · obtain ⟨b, -, hcovers, hfrom⟩ := lastStart_mem h
      rw [← hfrom]
      unfold covers at hcovers
      exact (of_decide_eq_true hcovers).1
  obtain ⟨p, -, hres⟩ := resolve_scanned bbs branch
  rw [hres]
  exact ⟨hstart p branch.from, hstart p branch.to⟩

def PassEnv.traceSize (p : PassEnv) : ℕ := max p.perf.parent.aux.length p.stale.length

/-- What the passes can trace: libraries that behave as documented, less than 2^64 branches in
all, and addresses of the lower half of the address space or of the kernel. -/
structure Tame (passes : List PassEnv) : Prop where
  documented : ∀ p ∈ passes, ∀ i, Documented (p.call.branch i).graphAdd
  bounded : (passes.map PassEnv.traceSize).sum < 2 ^ 64
  user : ∀ p ∈ passes, ∀ b ∈ p.perf.parent.aux ++ p.stale, skipped none b = false →
    b.from.toNat < 2 ^ 63 ∧ b.to.toNat < 2 ^ 63

/-- The branches behind bts_start are those of one of the two buffers. -/
theorem Handled.trace_cases (conf : LoopConf) (h : Handled) :
    h.trace conf = h.env.perf.parent.aux ∨ h.trace conf = h.env.stale := by
  unfold Handled.trace
  split_ifs
  · exact .inl rfl
  · exact .inr rfl

theorem Handled.trace_length_le (conf : LoopConf) (h : Handled) :
    (h.trace conf).length ≤ h.env.traceSize := by
  unfold PassEnv.traceSize
  rcases h.trace_cases conf with htrace | htrace
  · rw [htrace]
    exact le_max_left _ _
  · rw [htrace]
    exact le_max_right _ _

theorem traces_length_le {passes : List PassEnv} {handled : List Handled}
    (hsub : (handled.map Handled.env).Sublist passes) (conf : LoopConf) :
    (handled.flatMap (Handled.trace conf)).length ≤ (passes.map PassEnv.traceSize).sum :=
  calc (handled.flatMap (Handled.trace conf)).length
      = (handled.map fun h => (h.trace conf).length).sum := List.length_flatMap
    _ ≤ (handled.map fun h => h.env.traceSize).sum :=
        List.sum_le_sum fun h _ => h.trace_length_le conf
    _ = ((handled.map Handled.env).map PassEnv.traceSize).sum := by rw [List.map_map]; rfl
    _ ≤ (passes.map PassEnv.traceSize).sum :=
        (hsub.map PassEnv.traceSize).sum_le_sum fun _ _ => Nat.zero_le _

theorem Tame.length {passes : List PassEnv} (htame : Tame passes) {handled : List Handled}
    (hsub : (handled.map Handled.env).Sublist passes) (conf : LoopConf) :
    (handled.flatMap (Handled.trace conf)).length < 2 ^ 64 :=
  lt_of_le_of_lt (traces_length_le hsub conf) htame.bounded

theorem Tame.proper {passes : List PassEnv} (htame : Tame passes) {handled : List Handled}
    (hsub : (handled.map Handled.env).Sublist passes) (conf : LoopConf) :
    ∀ one ∈ handled, Proper (one.call conf) := by
  intro one hone
  have hmem : one.env ∈ passes := hsub.subset (List.mem_map_of_mem hone)
  refine ⟨?_, htame.documented one.env hmem⟩
  calc (one.trace conf).length
      ≤ (handled.map fun h => (h.trace conf).length).sum :=
        List.single_le_sum (fun _ _ => Nat.zero_le _) _ (List.mem_map_of_mem hone)
    _ = (handled.flatMap (Handled.trace conf)).length := List.length_flatMap.symm
    _ < 2 ^ 64 := htame.length hsub conf

theorem Tame.recorded {passes : List PassEnv} (htame : Tame passes) {handled : List Handled}
    (hsub : (handled.map Handled.env).Sublist passes) (conf : LoopConf)
    (secBounds : Option SectionBounds) (bbs : List BasicBlock) :
    ∀ p ∈ recorded secBounds bbs (handled.flatMap (Handled.trace conf)),
      p.1.toNat < 2 ^ 63 ∧ p.2.toNat < 2 ^ 63 := by
  intro p hp
  obtain ⟨b, hb, rfl⟩ := List.mem_map.mp hp
  obtain ⟨hb, hkept⟩ := List.mem_filter.mp hb
  obtain ⟨one, hone, hb⟩ := List.mem_flatMap.mp hb
  have hmem : one.env ∈ passes := hsub.subset (List.mem_map_of_mem hone)
  have hbuf : b ∈ one.env.perf.parent.aux ++ one.env.stale := by
    rcases one.trace_cases conf with htrace | htrace
    · exact List.mem_append_left _ (htrace ▸ hb)
    · exact List.mem_append_right _ (htrace ▸ hb)
  have hnone : skipped none b = false := by
    unfold skipped at hkept ⊢
    rw [Bool.not_eq_true', Bool.or_eq_false_iff] at hkept
    rw [hkept.1]
    rfl
  obtain ⟨hfrom, hto⟩ := htame.user one.env hmem b hbuf hnone
  obtain ⟨hle₁, hle₂⟩ := resolve_le bbs b
  rw [UInt64.le_iff_toNat_le] at hle₁ hle₂
  omega

def PassEnv.tracing (msg : List UInt8) (branches : List BtsBranch) : PassEnv :=
  { PassEnv.quiet (.message msg) [] with
    perf := ⟨⟨3, 1⟩, 4, 1, 10,
      ⟨true, 5, some 100, some 200, [⟨0, .changed (.exited 0), [], true⟩], 0, branches⟩,
      ⟨-1, -1, false, false, false⟩⟩ }

def PassEnv.interrupted : PassEnv := { PassEnv.quiet .again [] with sigint := true }

def bareMonitor : Monitor := ⟨∅, none, [], some "graphs".toList, 0⟩

def sampleEnvs : List PassEnv :=
  [.tracing [1] [⟨16, 80, 0⟩], .tracing [2] [⟨16, 80, 0⟩, ⟨80, 16, 0⟩], .interrupted]

theorem sampleEnvs_tame : Tame sampleEnvs := by
  refine ⟨?_, by decide, ?_⟩
  · unfold sampleEnvs
    simp only [List.forall_mem_cons]
    exact ⟨fun _ => documented_succeed, fun _ => documented_succeed, fun _ => documented_succeed,
      List.forall_mem_nil _⟩
  · decide

end FuzzMonitor.MonitorLoop
