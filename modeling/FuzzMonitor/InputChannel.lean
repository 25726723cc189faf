import FuzzMonitor.Transport
import FuzzMonitor.Preload
import FuzzMonitor.LoopCalls

namespace FuzzMonitor.InputChannel
open CStrings Inotify MonitorLoop Runs Transport Preload

variable {P Z : Type*} [DecidableEq P]

/-- The fuzzers with the library preloaded, the state of the ZeroMQ sockets between them and the
monitor, and monitor_loop. -/
structure System (P Z : Type*) where
  fuzzers : P → Process
  sockets : Z
  loop : LoopState

/-- A hooked call of a fuzzer, or a pass of monitor_loop, which the sockets provide with the
answer of zmq_recv. -/
inductive Action (P : Type*)
  | fuzzer (p : P) (call : Call)
  | pass (env : PassEnv)

/-- What a call of a fuzzer hands to zmq_send, whose answer the hook of write does not look at. -/
def handedOver (before after : Process) : Option (List UInt8) :=
  (after.sent.drop before.sent.length).head?

def callFuzzer (t : Sockets P (List UInt8) Z) (fz : P → Fuzzer) (p : P) (call : Call)
    (s : System P Z) : System P Z :=
  let after := Preload.step (fz p) (s.fuzzers p) call
  { s with
    fuzzers := Function.update s.fuzzers p after
    sockets :=
      match handedOver (s.fuzzers p) after with
      | none => s.sockets
      | some msg => (t.send p msg s.sockets).2 }

/-- A pass that does not come to zmq_recv, or whose zmq_recv fails, leaves the sockets alone. -/
def passLoop (t : Sockets P (List UInt8) Z) (conf : LoopConf) (env : PassEnv) (s : System P Z) :
    System P Z :=
  if Receives s.loop env ∧ env.zmq ≠ .failed then
    match t.receive s.sockets with
    | (some msg, z) =>
      { s with sockets := z, loop := pass conf s.loop { env with zmq := .message msg } }
    | (none, z) => { s with sockets := z, loop := pass conf s.loop { env with zmq := .again } }
  else { s with loop := pass conf s.loop env }

def step (t : Sockets P (List UInt8) Z) (fz : P → Fuzzer) (conf : LoopConf) (s : System P Z) :
    Action P → System P Z
  | .fuzzer p call => callFuzzer t fz p call s
  | .pass env => passLoop t conf env s

def System.start (fds : P → List (Option CText)) (z : Z) (m : Monitor) (g : Perf.GblStatus)
    (heap : ℕ) (queue : List InEvent) : System P Z :=
  ⟨fun p => .start (fds p), z, .enter m g heap queue⟩

def ofMessage (msg : List UInt8) : Input := ⟨false, (zmqRecv msg bufSz).2, (zmqRecv msg bufSz).1⟩

def zmqInputs (s : LoopState) : List Input := s.inputs.filter fun i => !i.fromCorpus

def Action.callOf (p : P) : Action P → List Call
  | .fuzzer q call => if q = p then [call] else []
  | .pass _ => []

def callsOf (p : P) (acts : List (Action P)) : List Call := acts.flatMap (Action.callOf p)

def Accepts (t : Sockets P (List UInt8) Z) (fz : P → Fuzzer) (p : P) (s : System P Z) :
    Action P → Prop
  | .fuzzer q call => q = p → ∀ msg ∈ handedOver (s.fuzzers p)
      (Preload.step (fz p) (s.fuzzers p) call), (t.send p msg s.sockets).1 = true
  | .pass _ => True

theorem makeOpen_sent (fz : Fuzzer) (path : CText) (ok : Bool) (s : Process) :
    (makeOpen fz path ok s).sent = s.sent := by
  unfold makeOpen realOpen
  dsimp only
  split_ifs <;> rfl

theorem writeHook_sent (fd : ℤ) (buf : List UInt8) (s : Process) :
    (writeHook fd buf s).sent = s.sent ∨ (writeHook fd buf s).sent = s.sent ++ [buf] := by
  unfold writeHook
  split_ifs
  · exact .inr rfl
  · exact .inl rfl
  · exact .inl rfl

theorem step_sent (fz : Fuzzer) (s : Process) (call : Call) :
    (Preload.step fz s call).sent = s.sent ∨
      ∃ buf, (Preload.step fz s call).sent = s.sent ++ [buf] := by
  cases call with
  | «open» path ok => exact .inl (makeOpen_sent fz path ok s)
  | open64 path ok => exact .inl (makeOpen_sent fz path ok s)
  | close fd =>
    unfold Preload.step
    dsimp only
    split_ifs <;> exact .inl rfl
  | write fd buf =>
    exact (writeHook_sent fd buf
      { s with inputs := if isInput fz s fd then s.inputs ++ [buf] else s.inputs }).imp id
        fun h => ⟨buf, h⟩

theorem sent_eq (fz : Fuzzer) (s : Process) (call : Call) :
    (Preload.step fz s call).sent =
      s.sent ++ (handedOver s (Preload.step fz s call)).toList := by
  unfold handedOver
  rcases step_sent fz s call with h | ⟨buf, h⟩
  · rw [h, List.drop_length]
    exact (List.append_nil _).symm
  · rw [h, List.drop_left]
    rfl

theorem pass_not_receives_inputs (conf : LoopConf) {s : LoopState} {env : PassEnv}
    (h : ¬Receives s env) : (pass conf s env).inputs = s.inputs := by
  rcases pass_of_not_receives conf h with h | h <;> rw [h] <;> rfl

theorem pass_message_inputs (conf : LoopConf) {s : LoopState} {env : PassEnv} {msg : List UInt8}
    (hgo : Receives s env) (hzmq : env.zmq = .message msg) :
    (pass conf s env).inputs = s.inputs ++ [ofMessage msg] := by
  have hreceive : receive conf env (arrive s env) = (.input (ofMessage msg), arrive s env) := by
    unfold receive
    rw [hzmq]
    rfl
  rw [pass_of_receives conf hgo, hreceive]
  obtain ⟨seen, gbl, monitor, heap, outcomes, stop, hframe⟩ :=
    handleInput_frame conf env (ofMessage msg) (arrive s env)
  dsimp only
  rw [hframe]
  rfl

theorem receiveCorpus_fromCorpus {conf : LoopConf} {env : PassEnv} {s : LoopState} {i : Input}
    (h : (receiveCorpus conf env s).1 = .input i) : i.fromCorpus = true := by
  unfold receiveCorpus at h
  dsimp only at h
  split_ifs at h
  all_goals cases h
  all_goals rfl

theorem pass_zmqInputs (conf : LoopConf) (s : LoopState) {env : PassEnv}
    (hzmq : ∀ msg, env.zmq ≠ .message msg) : zmqInputs (pass conf s env) = zmqInputs s := by
  unfold zmqInputs
  rcases pass_cases conf s env with ⟨keepRunning, queue, taken, opened, h⟩ |
    ⟨-, keepRunning, queue, taken, opened, ret, h⟩ |
    ⟨-, keepRunning, queue, taken, opened, i, hreceive, h⟩
  · rw [h]
  · rw [h]
  · have hcorpus : i.fromCorpus = true := by
      unfold receive at hreceive
      cases hanswer : env.zmq with
      | message msg => exact absurd hanswer (hzmq msg)
      | again =>
        rw [hanswer] at hreceive
        exact receiveCorpus_fromCorpus hreceive
      | failed =>
        rw [hanswer] at hreceive
        dsimp only at hreceive
        split_ifs at hreceive
    rw [h]
    obtain ⟨seen, gbl, monitor, heap, outcomes, stop, hframe⟩ := handleInput_frame conf env i
      { s with keepRunning := keepRunning, queue := queue, taken := taken, opened := opened }
    rw [hframe]
    dsimp only
    rw [List.filter_append, List.filter_cons_of_neg (by simp [hcorpus]), List.filter_nil,
      List.append_nil]

/-- What holds in every interleaving: the monitor has handed on what it took, what was taken or
waits is left of what was accepted, and that was passed to zmq_send. -/
structure Linked (rel : List (List UInt8) → List (List UInt8) → Prop)
    (waiting : Z → P → List (List UInt8)) (s : System P Z) (taken : List (P × List UInt8))
    (put : P → List (List UInt8)) : Prop where
  inputs : zmqInputs s.loop = taken.map fun x => ofMessage x.2
  delivered : Delivered rel (waiting s.sockets) taken put
  sent : ∀ p, (put p).Sublist (s.fuzzers p).sent

section Steps
variable {rel : List (List UInt8) → List (List UInt8) → Prop} {t : Sockets P (List UInt8) Z}
  {waiting : Z → P → List (List UInt8)} {s : System P Z} {taken : List (P × List UInt8)}
  {put : P → List (List UInt8)}

theorem callFuzzer_linked (ht : Keeps rel t waiting) (hrel : Leaves rel) (fz : P → Fuzzer) (p : P)
    (call : Call) (h : Linked rel waiting s taken put) :
    ∃ put', Linked rel waiting (callFuzzer t fz p call s) taken put' ∧
      ∀ q, put q = (s.fuzzers q).sent → Accepts t fz q s (.fuzzer p call) →
        put' q = ((callFuzzer t fz p call s).fuzzers q).sent := by
  have hgrown := sent_eq (fz p) (s.fuzzers p) call
  have hsent : ∀ q, ((callFuzzer t fz p call s).fuzzers q).sent = if q = p then
      (s.fuzzers p).sent ++ (handedOver (s.fuzzers p)
        (Preload.step (fz p) (s.fuzzers p) call)).toList else (s.fuzzers q).sent := by
    intro q
    unfold callFuzzer
    dsimp only
    split_ifs with hq
    · rw [hq, Function.update_self, hgrown]
    · rw [Function.update_of_ne hq]
  have hkept : ∀ q, (put q).Sublist ((callFuzzer t fz p call s).fuzzers q).sent := by
    intro q
    rw [hsent]
    split_ifs with hq
    · rw [hq]
      exact (h.sent p).trans (List.sublist_append_left _ _)
    · exact h.sent q
  cases hmsg : handedOver (s.fuzzers p) (Preload.step (fz p) (s.fuzzers p) call) with
  | none =>
    have hsame : (callFuzzer t fz p call s).sockets = s.sockets := by
      unfold callFuzzer
      dsimp only
      rw [hmsg]
    refine ⟨put, ⟨h.inputs, hsame ▸ h.delivered, hkept⟩, fun q hq _ => ?_⟩
    rw [hsent, hmsg, hq]
    split_ifs with heq
    · rw [heq]
      exact (List.append_nil _).symm
    · rfl
  | some msg =>
    have hmoved : (callFuzzer t fz p call s).sockets = (t.send p msg s.sockets).2 := by
      unfold callFuzzer
      dsimp only
      rw [hmsg]
    cases hok : (t.send p msg s.sockets).1 with
    | true =>
      refine ⟨Function.update put p (put p ++ [msg]),
        ⟨h.inputs, hmoved ▸ ht.send_accepted hrel h.delivered hok, fun q => ?_⟩, fun q hq _ => ?_⟩
      · rw [hsent, hmsg]
        split_ifs with heq
        · rw [heq, Function.update_self]
          exact (h.sent p).append_right _
        · rw [Function.update_of_ne heq]
          exact h.sent q
      · rw [hsent, hmsg]
        split_ifs with heq
        · rw [heq, Function.update_self, ← heq, hq]
          rfl
        · rw [Function.update_of_ne heq, hq]
    | false =>
      -- what a failed zmq_send drops is not among the accepted messages
      refine ⟨put, ⟨h.inputs, hmoved ▸ ht.send_refused hrel h.delivered hok, hkept⟩,
        fun q hq haccepts => ?_⟩
      rw [hsent, hq]
      split_ifs with heq
      · subst heq
        have hbad := haccepts rfl msg hmsg
        rw [hok] at hbad
        contradiction
      · rfl

theorem passLoop_linked (ht : Keeps rel t waiting) (hrel : Leaves rel) (conf : LoopConf)
    (env : PassEnv) (h : Linked rel waiting s taken put) :
    ∃ taken', Linked rel waiting (passLoop t conf env s) taken' put := by
  unfold passLoop
  split_ifs with hgo
  · cases hreceive : t.receive s.sockets with
    | mk answer z =>
      cases answer with
      | none =>
        -- zmq_recv finds no message, and an input may come from the corpus only
        have hagain : ∀ msg, ({ env with zmq := .again } : PassEnv).zmq ≠ .message msg :=
          fun _ => nofun
        exact ⟨taken, (pass_zmqInputs conf s.loop hagain).trans h.inputs,
          h.delivered.mono hrel (ht.empty _ _ hreceive), h.sent⟩
      | some msg =>
        -- the message leaves the sockets and becomes an input in one pass
        obtain ⟨p, hdelivered⟩ := ht.receive_some hrel h.delivered hreceive
        refine ⟨taken ++ [(p, msg)], ?_, hdelivered, h.sent⟩
        have hgo' : Receives s.loop { env with zmq := .message msg } := hgo.1
        have hinputs := pass_message_inputs conf hgo' rfl
        have hprev := h.inputs
        unfold zmqInputs at hprev ⊢
        dsimp only
        rw [hinputs, List.filter_append, hprev, List.map_append]
        rfl
  · refine ⟨taken, Eq.trans ?_ h.inputs, h.delivered, h.sent⟩
    by_cases hreceives : Receives s.loop env
    · apply pass_zmqInputs
      intro msg hmsg
      exact hgo ⟨hreceives, by rw [hmsg]; exact nofun⟩
    · unfold zmqInputs
      rw [pass_not_receives_inputs conf hreceives]

omit [DecidableEq P] in
theorem passLoop_fuzzers (t : Sockets P (List UInt8) Z) (conf : LoopConf) (env : PassEnv)
    (s : System P Z) : (passLoop t conf env s).fuzzers = s.fuzzers := by
  unfold passLoop
  split_ifs
  · rcases t.receive s.sockets with ⟨_ | msg, z⟩ <;> rfl
  · rfl

/-- Where no zmq_send of a fuzzer has failed, all that it passed on was accepted. -/
theorem step_linked (ht : Keeps rel t waiting) (hrel : Leaves rel) (fz : P → Fuzzer)
    (conf : LoopConf) (a : Action P) (h : Linked rel waiting s taken put) :
    ∃ taken' put', Linked rel waiting (step t fz conf s a) taken' put' ∧
      ∀ p, put p = (s.fuzzers p).sent → Accepts t fz p s a →
        put' p = ((step t fz conf s a).fuzzers p).sent := by
  cases a with
  | fuzzer p call =>
    obtain ⟨put', hlinked, hall⟩ := callFuzzer_linked ht hrel fz p call h
    exact ⟨taken, put', hlinked, hall⟩
  | pass env =>
    obtain ⟨taken', hlinked⟩ := passLoop_linked ht hrel conf env h
    refine ⟨taken', put, hlinked, fun p hp _ => ?_⟩
    rw [hp]
    exact congrArg (fun f : P → Process => (f p).sent) (passLoop_fuzzers t conf env s).symm

theorem run_linked (ht : Keeps rel t waiting) (hrel : Leaves rel) (fz : P → Fuzzer)
    (conf : LoopConf) (acts : List (Action P)) (h : Linked rel waiting s taken put) :
    ∃ taken' put', Linked rel waiting (acts.foldl (step t fz conf) s) taken' put' ∧
      ∀ p, put p = (s.fuzzers p).sent → Guarded (step t fz conf) (Accepts t fz p) s acts →
        put' p = ((acts.foldl (step t fz conf) s).fuzzers p).sent := by
  induction acts generalizing s taken put with
  | nil => exact ⟨taken, put, h, fun _ hp _ => hp⟩
  | cons a acts ih =>
    obtain ⟨taken₁, put₁, hlinked, hstep⟩ := step_linked ht hrel fz conf a h
    obtain ⟨taken', put', hlinked', hrest⟩ := ih hlinked
    exact ⟨taken', put', hlinked', fun p hp hall => hrest p (hstep p hp hall.1) hall.2⟩

end Steps

theorem start_linked {rel : List (List UInt8) → List (List UInt8) → Prop} (hrel : Leaves rel)
    {waiting : Z → P → List (List UInt8)} (fds : P → List (Option CText)) {z : Z} (m : Monitor)
    (g : Perf.GblStatus) (heap : ℕ) (queue : List InEvent) (hz : ∀ p, waiting z p = []) :
    Linked rel waiting (System.start fds z m g heap queue) [] fun _ => [] := by
  refine ⟨rfl, fun p => ?_, fun _ => List.nil_sublist _⟩
  change rel ([] ++ waiting z p) []
  rw [hz]
  exact hrel.refl []

theorem step_fuzzers (t : Sockets P (List UInt8) Z) (fz : P → Fuzzer) (conf : LoopConf)
    (s : System P Z) (a : Action P) (p : P) : (step t fz conf s a).fuzzers p =
      (a.callOf p).foldl (Preload.step (fz p)) (s.fuzzers p) := by
  cases a with
  | pass env => exact congrFun (passLoop_fuzzers t conf env s) p
  | fuzzer q call =>
    change (callFuzzer t fz q call s).fuzzers p = _
    unfold callFuzzer Action.callOf
    dsimp only
    by_cases hq : q = p
    · subst hq
      rw [Function.update_self, if_pos rfl]
      rfl
    · rw [Function.update_of_ne (Ne.symm hq), if_neg hq]
      rfl

/-- A fuzzer is driven by its own calls. -/
theorem run_fuzzers (t : Sockets P (List UInt8) Z) (fz : P → Fuzzer) (conf : LoopConf)
    (s : System P Z) (acts : List (Action P)) (p : P) :
    (acts.foldl (step t fz conf) s).fuzzers p =
      (callsOf p acts).foldl (Preload.step (fz p)) (s.fuzzers p) := by
  induction acts generalizing s with
  | nil => rfl
  | cons a acts ih =>
    unfold callsOf at ih ⊢
    rw [List.foldl_cons, ih, List.flatMap_cons, List.foldl_append, step_fuzzers]

theorem run_forwards {fz : Fuzzer} {s : Process} {calls : List Call}
    (hcalls : Guarded (Preload.step fz) (Attributed fz) s calls) (h : Forwards s) :
    Forwards (calls.foldl (Preload.step fz) s) := by
  induction calls generalizing s with
  | nil => exact h
  | cons call calls ih => exact ih hcalls.2 ((step_forwards_iff call h).mpr hcalls.1)

/-- Over sockets that lose nothing, in every interleaving, where no zmq_send of a fuzzer fails and
its writes are attributed, every 101st write to its inputs is handed on to monitor_loop or waits
for it, in order. -/
theorem writes_sampled (t : Sockets P (List UInt8) Z) {waiting : Z → P → List (List UInt8)}
    (hsockets : Lossless t waiting) (fz : P → Fuzzer) (conf : LoopConf)
    (fds : P → List (Option CText)) {z : Z} (hz : ∀ p, waiting z p = []) (m : Monitor)
    (g : Perf.GblStatus) (heap : ℕ) (queue : List InEvent) (acts : List (Action P)) {p : P}
    (hall : Guarded (step t fz conf) (Accepts t fz p) (System.start fds z m g heap queue) acts)
    (hcalls : Guarded (Preload.step (fz p)) (Attributed (fz p)) (.start (fds p)) (callsOf p acts)) :
    ∃ s, ∃ taken : List (P × List UInt8),
      s = acts.foldl (step t fz conf) (System.start fds z m g heap queue) ∧
      zmqInputs s.loop = taken.map (fun x => ofMessage x.2) ∧
      ofSender p taken ++ waiting s.sockets p =
        everyNth (skipN.toNat + 1) (s.fuzzers p).inputs := by
  obtain ⟨taken, put, hlinked, hput⟩ := run_linked hsockets leaves_eq fz conf acts
    (start_linked leaves_eq fds m g heap queue hz)
  refine ⟨_, taken, rfl, hlinked.inputs, ?_⟩
  have hdelivered : ofSender p taken ++
      waiting (acts.foldl (step t fz conf) (System.start fds z m g heap queue)).sockets p =
        put p := hlinked.delivered p
  rw [hdelivered, hput p rfl hall, run_fuzzers]
  exact (run_forwards hcalls ⟨rfl, rfl⟩).sent

def sampleActions : List (Action Bool) :=
  .fuzzer true (.open "out/.cur_input".toList true) ::
    .fuzzer false (.open "out/.cur_input".toList true) ::
    (List.replicate 101 (.fuzzer true (.write 3 [7])) ++
      List.replicate 101 (.fuzzer false (.write 3 [8])) ++
      [.pass (.quiet .again []), .fuzzer true (.write 3 [9])])

theorem writes_sampled_sampleActions :
    ∃ s, ∃ taken : List (Bool × List UInt8),
      s = sampleActions.foldl (step (queues [true, false]) (fun _ => .afl) sampleConf)
        (System.start (fun _ => stdFds) (fun _ => []) ⟨∅, none, [], none, 0⟩ .init 0 []) ∧
      zmqInputs s.loop = taken.map (fun x => ofMessage x.2) ∧
      ofSender true taken ++ s.sockets true =
        everyNth (skipN.toNat + 1) (s.fuzzers true).inputs := by
  have hcalls : Guarded (Preload.step .afl) (Attributed .afl) (.start stdFds)
      (callsOf true sampleActions) := by decide +kernel
  refine writes_sampled (queues [true, false]) (queues_lossless _) (fun _ => .afl) sampleConf
    (fun _ => stdFds) (fun _ => rfl) ⟨∅, none, [], none, 0⟩ .init 0 [] sampleActions ?_ hcalls
  apply guarded_of_forall
  intro s a
  cases a with
  | fuzzer q call => exact fun _ _ _ => rfl
  | pass env => trivial

end FuzzMonitor.InputChannel
