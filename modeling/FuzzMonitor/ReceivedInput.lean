import FuzzMonitor.MonitorLoop
import FuzzMonitor.PerfTool
import FuzzMonitor.Runs

namespace FuzzMonitor.MonitorLoop
open CStrings Inotify Branches Perf PerfTool Runs Crc64

/-- The size is that of bytes received, within the buffer. -/
structure Within (i : Input) : Prop where
  nonneg : 0 ≤ i.size
  le : i.size ≤ bufSz
  received : i.size ≤ i.bytes.length

theorem Within.reads {i : Input} (h : Within i) :
    (utilCRC64 i.bytes i.size.toNat).isSome ∧ i.data.length = i.size.toNat := by
  have hreceived := h.received
  have hle : i.size.toNat ≤ i.bytes.length := by omega
  refine ⟨(crcLoop_isSome_iff _ _ _).mpr hle, ?_⟩
  unfold Input.data
  rw [List.length_take, min_eq_left hle]

def FitsBuffer (s : LoopState) (env : PassEnv) : Prop :=
  Receives s env → ∀ msg, env.zmq = .message msg → msg.length ≤ bufSz

theorem handleInput_inputs (conf : LoopConf) (env : PassEnv) (i : Input) (s : LoopState) :
    (handleInput conf env i s).inputs = s.inputs ++ [i] := by
  obtain ⟨seen, gbl, monitor, heap, outcomes, stop, h⟩ := handleInput_frame conf env i s
  rw [h]

def messageInput (msg : List UInt8) : Input :=
  ⟨false, (zmqRecv msg bufSz).2, (zmqRecv msg bufSz).1⟩

theorem messageInput_size (msg : List UInt8) :
    (messageInput msg).size = (min msg.length intMax : ℕ) := (Nat.cast_min _ _).symm

theorem messageInput_size_of_le {msg : List UInt8} (h : msg.length ≤ bufSz) :
    (messageInput msg).size = msg.length := by
  have hmax : bufSz < intMax := by decide
  rw [messageInput_size, min_eq_left (by omega)]

theorem messageInput_bytes_of_le {msg : List UInt8} (h : msg.length ≤ bufSz) :
    (messageInput msg).bytes = msg := List.take_of_length_le h

/-- zmq_recv returns the length of the whole message, so the size is within the buffer
exactly for a message that fits. -/
theorem within_message_iff (msg : List UInt8) :
    Within (messageInput msg) ↔ msg.length ≤ bufSz := by
  constructor
  · intro h
    have hle := h.le
    rw [messageInput_size, Nat.cast_le] at hle
    have hmax : bufSz < intMax := by decide
    omega
  · intro h
    refine ⟨?_, ?_, ?_⟩
    · rw [messageInput_size_of_le h]
      exact Int.natCast_nonneg _
    · rw [messageInput_size_of_le h, Nat.cast_le]
      exact h
    · rw [messageInput_size_of_le h, messageInput_bytes_of_le h]

theorem within_readCorpusFile {filePath : CText} {file : FileAnswer} {bufLen : ℕ}
    (hlen : bufLen ≤ bufSz) (h : (readCorpusFile filePath file bufLen).ret ≠ -1) :
    Within ⟨true, (readCorpusFile filePath file bufLen).bytes,
      (readCorpusFile filePath file bufLen).ret⟩ := by
  cases file with
  | openFailed => exact absurd rfl h
  | readFailed => exact absurd rfl h
  | contents bytes =>
    have hle : (bytes.take bufLen).length ≤ bufSz := by
      rw [List.length_take]
      omega
    exact ⟨Int.natCast_nonneg _, Int.ofNat_le.mpr hle, le_rfl⟩

theorem within_maybeRead (answer : ReadAnswer) (wd : ℤ) (path : CText)
    (file : CText → FileAnswer)
    (hfail : (inotifyMaybeRead answer wd path bufSz file).ret ≠ -1)
    (hnone : (inotifyMaybeRead answer wd path bufSz file).ret ≠ 0) :
    Within ⟨true, (inotifyMaybeRead answer wd path bufSz file).bytes,
      (inotifyMaybeRead answer wd path bufSz file).ret⟩ := by
  unfold inotifyMaybeRead at hfail hnone ⊢
  split at hfail
  · exact absurd rfl hnone
  · exact absurd rfl hfail
  · dsimp only at hfail hnone ⊢
    split_ifs at hfail hnone ⊢
    · exact absurd rfl hnone
    · exact absurd rfl hfail
    · exact absurd rfl hnone
    · exact within_readCorpusFile le_rfl hfail

theorem receiveCorpus_within {conf : LoopConf} {env : PassEnv} {s s' : LoopState} {i : Input}
    (h : receiveCorpus conf env s = (.input i, s')) : Within i := by
  unfold receiveCorpus at h
  generalize (if env.inotifyFails then (ReadAnswer.failed, s.queue)
    else readQueue inEventSize s.queue) = read at h
  dsimp only at h
  split_ifs at h with hfail hnone
  · cases h
  · cases h
  · cases h
    exact within_maybeRead _ _ _ _ hfail hnone

theorem receive_inputs (conf : LoopConf) (env : PassEnv) (s : LoopState) :
    (receive conf env s).2.inputs = s.inputs := by
  obtain ⟨keepRunning, queue, taken, opened, h⟩ := receive_frame conf env s
  rw [h]

/-- What is received is within the buffer, or nothing is, exactly when a message fits. -/
theorem receive_within_iff (conf : LoopConf) (env : PassEnv) (s : LoopState) :
    (∀ i, (receive conf env s).1 = .input i → Within i) ↔
      ∀ msg, env.zmq = .message msg → msg.length ≤ bufSz := by
  unfold receive
  cases hzmq : env.zmq with
  | message msg =>
    simp only [Receipt.input.injEq, ZmqAnswer.message.injEq, forall_eq']
    exact within_message_iff msg
  | again =>
    refine iff_of_true (fun i hi => ?_) fun _ heq => ZmqAnswer.noConfusion heq
    exact receiveCorpus_within (Prod.ext hi rfl)
  | failed =>
    refine iff_of_true (fun i hi => ?_) fun _ heq => ZmqAnswer.noConfusion heq
    dsimp only at hi
    split_ifs at hi

theorem pass_within_iff (conf : LoopConf) (env : PassEnv) (s : LoopState)
    (hs : ∀ i ∈ s.inputs, Within i) :
    (∀ i ∈ (pass conf s env).inputs, Within i) ↔ FitsBuffer s env := by
  unfold FitsBuffer
  by_cases hgo : Receives s env
  · rw [pass_of_receives conf hgo, ← receive_within_iff conf env (arrive s env)]
    simp only [hgo, true_imp_iff]
    have hkept : (receive conf env (arrive s env)).2.inputs = s.inputs :=
      receive_inputs conf env (arrive s env)
    cases hreceive : receive conf env (arrive s env) with
    | mk receipt s₁ =>
      rw [hreceive] at hkept
      cases receipt with
      | stopped stop => exact iff_of_true (hkept ▸ hs) fun _ heq => Receipt.noConfusion heq
      | nothing => exact iff_of_true (hkept ▸ hs) fun _ heq => Receipt.noConfusion heq
      | input i =>
        dsimp only at hkept ⊢
        rw [handleInput_inputs, hkept]
        simp only [Receipt.input.injEq, forall_eq']
        constructor
        · intro hall
          exact hall i (List.mem_append_right _ (List.mem_singleton_self i))
        · intro hi j hj
          rcases List.mem_append.mp hj with hj | hj
          · exact hs j hj
          · rw [List.mem_singleton.mp hj]
            exact hi
  · refine iff_of_true ?_ fun h => absurd h hgo
    rcases pass_of_not_receives conf hgo with h | h
    · rw [h]
      exact hs
    · rw [h]
      exact hs

/-- All along a run the sizes stay within the buffer exactly when every message received
fits it; corpus files may be of any length. -/
theorem inputs_within_iff (conf : LoopConf) (m : Monitor) (g : GblStatus) (heap : ℕ)
    (queue : List InEvent) (envs : List PassEnv) :
    (∀ xs, xs <+: envs →
      ∀ i ∈ (xs.foldl (pass conf) (.enter m g heap queue)).inputs, Within i) ↔
    Guarded (pass conf) FitsBuffer (.enter m g heap queue) envs :=
  always_iff_guarded (I := fun s => ∀ i ∈ s.inputs, Within i) (J := fun _ => True)
    (K := fun _ => True) (fun _ _ _ _ => trivial)
    (fun s env _ _ hs => pass_within_iff conf env s hs) trivial
    (fun _ hi => absurd hi List.not_mem_nil) fun _ _ => trivial

/-- A message of one byte more than the buffer holds. -/
theorem inputs_exceed :
    ¬∀ i ∈ (pass sampleConf (sampleLoop [])
      (.quiet (.message (List.replicate (bufSz + 1) 0)) [])).inputs, Within i := by
  rw [pass_within_iff _ _ _ fun _ hi => absurd hi List.not_mem_nil]
  intro h
  have hle := h ⟨rfl, rfl, rfl⟩ _ rfl
  rw [List.length_replicate] at hle
  omega

/-- Where the loop hands a message on, it is the whole message if that fits the buffer. -/
theorem messageInput_data_of_le {msg : List UInt8} (h : msg.length ≤ bufSz) :
    (messageInput msg).data = msg := by
  unfold Input.data
  rw [messageInput_size_of_le h, messageInput_bytes_of_le h, Int.toNat_natCast,
    List.take_length]

theorem readPipe_eq_iff {pieces : List (List UInt8)} (hpieces : ∀ p ∈ pieces, p ≠ [])
    (count : ℕ) :
    readPipe pieces count = pieces.flatten ↔
      pieces.flatten.length ≤ count ∧ pieces.length ≤ 1 := by
  unfold readPipe
  cases pieces with
  | nil => simp
  | cons p rest =>
    rw [List.headD_cons, List.flatten_cons, List.length_append, List.length_cons]
    cases rest with
    | nil => simp
    | cons q rest =>
      have hpos : 0 < q.length :=
        List.length_pos_iff.mpr (hpieces q (List.mem_cons_of_mem _ List.mem_cons_self))
      refine iff_of_false (fun h => ?_) fun h => by simp at h
      have hlen := congrArg List.length h
      rw [List.length_take, List.length_append, List.flatten_cons, List.length_append] at hlen
      omega

theorem mainMachine_api (argv : List CText) (pieces : List (List UInt8)) (env : ApiEnv)
    (stale : List BtsBranch) :
    (mainMachine argv (some pieces) env stale).api =
      some (readPipe pieces readSz, argv.drop 2) := by
  unfold mainMachine
  dsimp only
  split
  · rfl
  · split_ifs <;> rfl

/-- monitor_loop hands the whole message to perf_monitor_api, and perf's main does so exactly
when the message has at most 511 bytes and the pipe delivers it in one piece. -/
theorem target_input_iff (bytes : List UInt8) (hfits : bytes.length ≤ bufSz)
    (pieces : List (List UInt8)) (hpieces : ∀ p ∈ pieces, p ≠ []) (hsent : pieces.flatten = bytes)
    (conf : LoopConf) (penv : PassEnv) (s : LoopState) (hzmq : penv.zmq = .message bytes)
    (argv : List CText) (env : ApiEnv) (stale : List BtsBranch) :
    (∃ i, (receive conf penv s).1 = .input i ∧ i.data = bytes) ∧
      ((mainMachine argv (some pieces) env stale).api = some (bytes, argv.drop 2) ↔
        bytes.length ≤ readSz ∧ pieces.length ≤ 1) := by
  constructor
  · refine ⟨messageInput bytes, ?_, messageInput_data_of_le hfits⟩
    unfold receive
    rw [hzmq]
    rfl
  · rw [mainMachine_api, Option.some_inj, Prod.mk.injEq, and_iff_left rfl, ← hsent]
    exact readPipe_eq_iff hpieces readSz

theorem target_input_whole :
    (mainMachine ["./perf/perf".toList, "x".toList, "./sut".toList] (some [[1, 2, 3]])
      (PassEnv.quiet .again []).perf []).api = some ([1, 2, 3], ["./sut".toList]) :=
  ((target_input_iff [1, 2, 3] (by decide) [[1, 2, 3]] (by decide) rfl sampleConf
    (.quiet (.message [1, 2, 3]) []) (sampleLoop []) rfl
    ["./perf/perf".toList, "x".toList, "./sut".toList] (PassEnv.quiet .again []).perf []).2).mpr
    ⟨by decide, by decide⟩

/-- Two bytes in two pieces: the target gets the first one only. So it is with the first 511
bytes of a longer message. -/
theorem target_input_cut :
    (mainMachine ["./perf/perf".toList, "x".toList, "./sut".toList] (some [[1], [2]])
      (PassEnv.quiet .again []).perf []).api = some ([1], ["./sut".toList]) ∧
    (mainMachine ["./perf/perf".toList, "x".toList, "./sut".toList]
      (some [List.replicate 512 0]) (PassEnv.quiet .again []).perf []).api =
        some (List.replicate 511 0, ["./sut".toList]) := by
  rw [mainMachine_api, mainMachine_api]
  refine ⟨rfl, ?_⟩
  unfold readPipe
  rw [List.headD_cons, List.take_replicate]
  rfl

end FuzzMonitor.MonitorLoop
