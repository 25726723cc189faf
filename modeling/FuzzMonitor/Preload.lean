import FuzzMonitor.CStrings
import FuzzMonitor.Runs

namespace FuzzMonitor.Preload
open CStrings Runs

inductive Fuzzer
  | afl
  | hongg
  deriving DecidableEq, Repr

def pathNeedle : Fuzzer → CText
  | .afl => "cur_input".toList
  | .hongg => "honggfuzz.input".toList

def skipN : UInt64 := 100

/-- The hooked calls of the process; an open succeeds or not. -/
inductive Call
  | open (path : CText) (ok : Bool)
  | open64 (path : CText) (ok : Bool)
  | close (fd : ℤ)
  | write (fd : ℤ) (buf : List UInt8)
  deriving DecidableEq, Repr

/-- The process: what each of its descriptors is open on, the variables of the library, the
buffers passed to zmq_send, and a record of the writes made to a fuzzer input. -/
structure Process where
  fds : List (Option CText)
  fuzzerOutFd : ℤ
  counter : UInt64
  sent : List (List UInt8)
  inputs : List (List UInt8)
  deriving DecidableEq, Repr

def Process.path (s : Process) (fd : ℤ) : Option CText :=
  if fd < 0 then none else s.fds[fd.toNat]?.join

def isInput (fz : Fuzzer) (s : Process) (fd : ℤ) : Bool :=
  (s.path fd).any fun path => (strstr path (pathNeedle fz)).isSome

/-- The real open: the lowest free number, or -1. -/
def realOpen (path : CText) (ok : Bool) (s : Process) : ℤ × Process :=
  if !ok then (-1, s)
  else
    let fd := s.fds.findIdx Option.isNone
    (fd, { s with fds := (s.fds ++ [none]).set fd (some path) })

def makeOpen (fz : Fuzzer) (path : CText) (ok : Bool) (s : Process) : Process :=
  let r := realOpen path ok s
  if (strstr path (pathNeedle fz)).isSome then { r.2 with fuzzerOutFd := r.1 } else r.2

def writeHook (fd : ℤ) (buf : List UInt8) (s : Process) : Process :=
  -- the number is all that the hook knows of the file
  if fd = s.fuzzerOutFd then
    if s.counter + 1 > skipN then { s with sent := s.sent ++ [buf], counter := 0 }
    else { s with counter := s.counter + 1 }
  else s

def step (fz : Fuzzer) (s : Process) (call : Call) : Process :=
  match call with
  | .open path ok => makeOpen fz path ok s
  | .open64 path ok => makeOpen fz path ok s
  | .close fd => if fd < 0 then s else { s with fds := s.fds.set fd.toNat none }
  | .write fd buf =>
    writeHook fd buf { s with inputs := if isInput fz s fd then s.inputs ++ [buf] else s.inputs }

def Process.start (fds : List (Option CText)) : Process := ⟨fds, 0, 0, [], []⟩

def everyNth {α : Type*} (k : ℕ) (ws : List α) : List α :=
  (ws.zipIdx.filter fun w => (w.2 + 1) % k = 0).map Prod.fst

/-- What is sent is every (SKIP_N + 1)-th write to a fuzzer input, and only such writes are
counted. -/
structure Forwards (s : Process) : Prop where
  sent : s.sent = everyNth (skipN.toNat + 1) s.inputs
  counted : s.counter.toNat = s.inputs.length % (skipN.toNat + 1)

/-- A write goes to the descriptor of the last matching open exactly when that descriptor is
open on a fuzzer input. -/
def Attributed (fz : Fuzzer) (s : Process) : Call → Prop
  | .write fd _ => fd = s.fuzzerOutFd ↔ isInput fz s fd = true
  | _ => True

instance (fz : Fuzzer) (s : Process) : ∀ call, Decidable (Attributed fz s call)
  | .write fd _ => inferInstanceAs (Decidable (fd = s.fuzzerOutFd ↔ isInput fz s fd = true))
  | .open _ _ => isTrue trivial
  | .open64 _ _ => isTrue trivial
  | .close _ => isTrue trivial

theorem everyNth_concat {α : Type*} (k : ℕ) (ws : List α) (w : α) :
    everyNth k (ws ++ [w]) = everyNth k ws ++ if (ws.length + 1) % k = 0 then [w] else [] := by
  unfold everyNth
  rw [List.zipIdx_append, List.filter_append, List.map_append, List.zipIdx_singleton]
  congr 1
  by_cases h : (ws.length + 1) % k = 0
  · rw [if_pos h, List.filter_singleton]
    simp [h]
  · rw [if_neg h, List.filter_singleton]
    simp [h]

theorem makeOpen_forwards {fz : Fuzzer} {path : CText} {ok : Bool} {s : Process}
    (h : Forwards s) : Forwards (makeOpen fz path ok s) := by
  unfold makeOpen realOpen
  dsimp only
  split_ifs <;> exact ⟨h.sent, h.counted⟩

theorem writeHook_inputs (fd : ℤ) (buf : List UInt8) (s : Process) :
    (writeHook fd buf s).inputs = s.inputs := by
  unfold writeHook
  split_ifs <;> rfl

/-- The counter stays at most SKIP_N, and is due to be reset at a multiple of SKIP_N + 1. -/
theorem counter_succ {n : UInt64} {k : ℕ} (h : n.toNat = k % (skipN.toNat + 1)) :
    (n + 1).toNat = n.toNat + 1 ∧ (n + 1 > skipN ↔ (k + 1) % (skipN.toNat + 1) = 0) := by
  have hlimit : skipN.toNat = 100 := rfl
  rw [hlimit] at h ⊢
  have hnext : (n + 1).toNat = n.toNat + 1 := by
    rw [UInt64.toNat_add, UInt64.toNat_one, Nat.mod_eq_of_lt]
    omega
  refine ⟨hnext, ?_⟩
  rw [gt_iff_lt, UInt64.lt_iff_toNat_lt, hnext, hlimit]
  omega

/-- A counted write keeps pace with one more input. -/
theorem writeHook_forwards {buf : List UInt8} {s : Process} (h : Forwards s) :
    Forwards (writeHook s.fuzzerOutFd buf { s with inputs := s.inputs ++ [buf] }) := by
  have hsent := everyNth_concat (skipN.toNat + 1) s.inputs buf
  have hcounted := h.counted
  obtain ⟨hnext, hwrap⟩ := counter_succ hcounted
  unfold writeHook
  rw [if_pos rfl]
  dsimp only
  split_ifs with hsend
  · have hzero := hwrap.mp hsend
    refine ⟨?_, ?_⟩
    · rw [hsent, if_pos hzero, h.sent]
    · rw [List.length_append, List.length_singleton, hzero]
      rfl
  · have hpos := mt hwrap.mpr hsend
    refine ⟨?_, ?_⟩
    · rw [hsent, if_neg hpos, List.append_nil, h.sent]
    · have hskip : skipN.toNat + 1 = 101 := rfl
      rw [hskip] at hcounted hpos ⊢
      rw [List.length_append, List.length_singleton, hnext]
      omega

theorem counter_ne {n : UInt64} {k : ℕ} (h : n.toNat = k % (skipN.toNat + 1)) :
    (if n + 1 > skipN then 0 else n + 1).toNat ≠ k % (skipN.toNat + 1) ∧
      n.toNat ≠ (k + 1) % (skipN.toNat + 1) := by
  obtain ⟨hnext, hwrap⟩ := counter_succ h
  have hskip : skipN.toNat + 1 = 101 := rfl
  rw [hskip] at h hwrap ⊢
  refine ⟨?_, by omega⟩
  split_ifs with hsend
  · have hzero := hwrap.mp hsend
    rw [UInt64.toNat_zero]
    omega
  · rw [hnext]
    omega

theorem writeHook_counter (buf : List UInt8) (s : Process) :
    (writeHook s.fuzzerOutFd buf s).counter =
      if s.counter + 1 > skipN then 0 else s.counter + 1 := by
  unfold writeHook
  rw [if_pos rfl]
  split_ifs <;> rfl

/-- A call keeps the forwarding right exactly when it is attributed to the right file. -/
theorem step_forwards_iff {fz : Fuzzer} {s : Process} (call : Call) (h : Forwards s) :
    Forwards (step fz s call) ↔ Attributed fz s call := by
  cases call with
  | «open» path ok => exact iff_of_true (makeOpen_forwards h) trivial
  | open64 path ok => exact iff_of_true (makeOpen_forwards h) trivial
  | close fd =>
    refine iff_of_true ?_ trivial
    unfold step
    dsimp only
    split_ifs <;> exact ⟨h.sent, h.counted⟩
  | write fd buf =>
    unfold step Attributed
    dsimp only
    obtain ⟨hmoved, hstayed⟩ := counter_ne h.counted
    cases hinput : isInput fz s fd with
    | true =>
      simp only [if_true, iff_true]
      by_cases hfd : fd = s.fuzzerOutFd
      · rw [hfd]
        exact iff_of_true (writeHook_forwards h) rfl
      · refine iff_of_false (fun hbad => ?_) hfd
        have hcounted := hbad.counted
        unfold writeHook at hcounted
        rw [if_neg hfd, List.length_append] at hcounted
        exact hstayed hcounted
    | false =>
      simp only [Bool.false_eq_true, if_false, iff_false]
      by_cases hfd : fd = s.fuzzerOutFd
      · refine iff_of_false (fun hbad => ?_) (not_not.mpr hfd)
        have hcounted := hbad.counted
        rw [hfd, writeHook_counter, writeHook_inputs] at hcounted
        exact hmoved hcounted
      · refine iff_of_true ?_ hfd
        unfold writeHook
        rw [if_neg hfd]
        exact h

/-- All along a run the library forwards the fuzzer's inputs and nothing else exactly when
every write goes to the remembered descriptor if and only if it is to an input. -/
theorem forwards_iff (fz : Fuzzer) (fds : List (Option CText)) (calls : List Call) :
    (∀ xs, xs <+: calls → Forwards (xs.foldl (step fz) (.start fds))) ↔
      Guarded (step fz) (Attributed fz) (.start fds) calls :=
  always_iff_guarded (I := Forwards) (J := fun _ => True) (K := fun _ => True)
    (fun _ _ _ _ => trivial) (fun _ call _ _ h => step_forwards_iff call h) trivial
    ⟨rfl, rfl⟩ fun _ _ => trivial

def stdFds : List (Option CText) := List.replicate 3 (some "/dev/null".toList)

def logCalls : List Call :=
  .open "out/.cur_input".toList true :: .close 3 :: .open "out/log".toList true ::
    List.replicate 101 (.write 3 [0])

/-- The writes to the log are counted, and the last of them is sent. -/
theorem forwards_log :
    (logCalls.foldl (step .afl) (.start stdFds)).inputs = [] ∧
      (logCalls.foldl (step .afl) (.start stdFds)).sent = [[0]] ∧
      ¬Forwards (logCalls.foldl (step .afl) (.start stdFds)) := by
  have hinputs : (logCalls.foldl (step .afl) (.start stdFds)).inputs = [] := by decide +kernel
  have hsent : (logCalls.foldl (step .afl) (.start stdFds)).sent = [[0]] := by decide +kernel
  refine ⟨hinputs, hsent, fun h => ?_⟩
  have hforwards := h.sent
  rw [hinputs, hsent] at hforwards
  exact absurd hforwards (by decide)

end FuzzMonitor.Preload
