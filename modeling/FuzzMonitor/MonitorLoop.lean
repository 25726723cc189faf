import FuzzMonitor.Crc64
import FuzzMonitor.Inotify
import FuzzMonitor.Perf

namespace FuzzMonitor.MonitorLoop
open CStrings Inotify Branches Perf Crc64

def bufSz : ℕ := 1024 * 1024

def inEventSize : ℕ := sizeofInEvent + nameMax + 1

def intMax : ℕ := 2 ^ 31 - 1

def exitSuccess : ℤ := 0
def exitFailure : ℤ := 1

inductive FileAnswer
  | openFailed
  | readFailed
  | contents (bytes : List UInt8)
  deriving DecidableEq, Repr

/-- What inotify_maybe_read returns, the bytes it leaves in the caller's buffer, and the
file it tried to open. -/
structure MaybeRead where
  ret : ℤ
  bytes : List UInt8
  opened : Option CText
  deriving DecidableEq, Repr

def readCorpusFile (filePath : CText) (file : FileAnswer) (bufLen : ℕ) : MaybeRead :=
  match file with
  | .openFailed => ⟨-1, [], some filePath⟩
  | .readFailed => ⟨-1, [], some filePath⟩
  | .contents bytes => ⟨(bytes.take bufLen).length, bytes.take bufLen, some filePath⟩

/-- The answer is that of the read of inotify_fd; file tells what each path holds. -/
def inotifyMaybeRead (answer : ReadAnswer) (wd : ℤ) (path : CText) (bufLen : ℕ)
    (file : CText → FileAnswer) : MaybeRead :=
  match answer with
  | .again => ⟨0, [], none⟩
  | .failed => ⟨-1, [], none⟩
  -- only the first event in the buffer is looked at
  | .events inEvent _ =>
    if inEvent.wd ≠ wd then ⟨0, [], none⟩
    else if inEvent.mask &&& inDeleteSelf = inDeleteSelf then ⟨-1, [], none⟩
    else if inEvent.len = 0 then ⟨0, [], none⟩
    else
      let filePath := snprintf pathMax (path ++ '/' :: inEvent.name)
      readCorpusFile filePath (file filePath) bufLen

/-- An answer of zmq_recv; failed is any error but EAGAIN. -/
inductive ZmqAnswer
  | message (bytes : List UInt8)
  | again
  | failed
  deriving DecidableEq, Repr

/-- zmq_recv stores what fits the buffer and returns the length of the whole message. -/
def zmqRecv (msg : List UInt8) (len : ℕ) : ℤ × List UInt8 :=
  (min msg.length intMax, msg.take len)

/-- An input that the loop hands on: whether it is from the corpus, the bytes received into
buf, and size. -/
structure Input where
  fromCorpus : Bool
  bytes : List UInt8
  size : ℤ
  deriving DecidableEq, Repr

def Input.data (i : Input) : List UInt8 := i.bytes.take i.size.toNat

structure SeenEntry where
  keyId : ℕ
  value : UInt32
  deriving DecidableEq, Repr

/-- The variables of monitor_loop that count inputs, the number of allocations made for them
and the allocations released. -/
structure SeenInputs where
  table : Tally.Table UInt64 SeenEntry
  seenTotal : UInt64
  maxSeenInput : UInt64
  maxSeenInputK : UInt64
  heap : ℕ
  freed : List ℕ

structure SeenEnv where
  hashCell : Bool
  valueCell : Bool
  hashtableAdd : CcStat

def SeenEnv.succeed : SeenEnv := ⟨true, true, .ok⟩

/-- The lookup of the hash, and the increment or the insertion that follows; none is a
failed assertion. -/
def seenValue (env : SeenEnv) (hash : UInt64) (bufHash : ℕ) (s : SeenInputs) :
    Option (UInt32 × SeenInputs) :=
  match s.table.lookup hash with
  | some entry =>
    some (entry.value + 1,
      { s with table := s.table.insert hash { entry with value := entry.value + 1 } })
  | none =>
    if !env.valueCell then none
    else if env.hashtableAdd ≠ .ok then none
    else some (1, { s with table := s.table.insert hash ⟨bufHash, 1⟩, heap := s.heap + 1 })

/-- The update of the maximum, with the release of a hash that did not become a key. -/
def noteMax (hash : UInt64) (bufHash : ℕ) (value : UInt32) (s : SeenInputs) : SeenInputs :=
  let released := if value > 1 then s.freed ++ [bufHash] else s.freed
  if value.toUInt64 > s.maxSeenInput then
    { s with maxSeenInput := value.toUInt64, maxSeenInputK := hash, freed := released }
  else { s with freed := released }

/-- seen_avg > 2, the average taken as an exact rational, resets seen_total. -/
def resetTotal (s : SeenInputs) : SeenInputs :=
  if s.seenTotal.toNat > 2 * s.table.entries.length then
    { s with seenTotal := UInt64.ofNat s.table.entries.length }
  else s

/-- The counting code for one input; none is a process that died. -/
def countInput (env : SeenEnv) (hash : UInt64) (s : SeenInputs) : Option SeenInputs :=
  if !env.hashCell then none
  else
    let bufHash := s.heap
    match seenValue env hash bufHash { s with seenTotal := s.seenTotal + 1, heap := s.heap + 1 } with
    | none => none
    | some (value, s) => some (resetTotal (noteMax hash bufHash value s))

/-- How the loop stops: monitor_loop returns, the process dies, the hash reads behind the
bytes received, or perf_monitor_api does not return. -/
inductive LoopEnd
  | returned (ret : ℤ)
  | died
  | overread
  | stuck
  deriving DecidableEq, Repr

/-- The variables of the second loop of monitor_loop with the monitor and gbl_status; what
is queued on the inotify descriptor; and a record of the run: the events that its reads took
from the queue, the files it tried to open, the inputs it handed on and the outcomes of
process_branches. -/
structure LoopState where
  keepRunning : Bool
  queue : List InEvent
  seen : SeenInputs
  gbl : GblStatus
  monitor : Monitor
  heap : ℕ
  taken : List InEvent
  opened : List CText
  inputs : List Input
  outcomes : List Outcome
  stop : Option LoopEnd

/-- What the world decides in one pass: the events queued since the last one, whether SIGINT
is delivered before the loop's test and before the test of a failed zmq_recv, the answers
of zmq_recv and of the read of the inotify descriptor, the files, the counting code's
allocations, the calls of perf_monitor_api and process_branches, and the branches behind
bts_start when perf_monitor_api did not assign it. -/
structure PassEnv where
  arrived : List InEvent
  sigint : Bool
  sigintRecv : Bool
  zmq : ZmqAnswer
  inotifyFails : Bool
  file : CText → FileAnswer
  seen : SeenEnv
  perf : ApiEnv
  call : CallEnv
  stale : List BtsBranch

structure LoopConf where
  sut : List CText
  fuzzCorpusPath : CText
  watchD : ℤ

/-- The first half of a pass: an input, or none for continue. -/
inductive Receipt
  | stopped (stop : LoopEnd)
  | nothing
  | input (i : Input)

def receiveCorpus (conf : LoopConf) (env : PassEnv) (s : LoopState) : Receipt × LoopState :=
  let read := if env.inotifyFails then (.failed, s.queue) else readQueue inEventSize s.queue
  let r := inotifyMaybeRead read.1 conf.watchD conf.fuzzCorpusPath bufSz env.file
  let s := { s with
    queue := read.2
    taken := s.taken ++ read.1.taken
    opened := s.opened ++ r.opened.toList }
  if r.ret = -1 then (.stopped (.returned exitFailure), s)
  else if r.ret = 0 then (.nothing, s)
  else (.input ⟨true, r.bytes, r.ret⟩, s)

def receive (conf : LoopConf) (env : PassEnv) (s : LoopState) : Receipt × LoopState :=
  match env.zmq with
  | .message msg => (.input ⟨false, (zmqRecv msg bufSz).2, (zmqRecv msg bufSz).1⟩, s)
  | .again => receiveCorpus conf env s
  | .failed =>
    let s := { s with keepRunning := s.keepRunning && !env.sigintRecv }
    if !s.keepRunning then (.stopped (.returned exitSuccess), s)
    else (.stopped (.returned exitFailure), s)

def monitorBranches (env : PassEnv) (trace : List BtsBranch) (s : LoopState) : LoopState :=
  let out := processBranches env.call trace s.monitor (callArgs s.heap)
  let s := { s with
    monitor := { s.monitor with branchHits := out.branchHits }
    heap := out.heap
    outcomes := s.outcomes ++ [out] }
  match out.stop with
  | .died => { s with stop := some .died }
  | .returned ret =>
    if ret = -1 then { s with stop := some (.returned exitFailure) }
    else { s with monitor := { s.monitor with inputN := s.monitor.inputN + 1 } }

def monitorInput (conf : LoopConf) (env : PassEnv) (i : Input) (s : LoopState) : LoopState :=
  match perfMonitorApi i.data conf.sut true env.perf s.gbl with
  | (none, p) => { s with gbl := p.gbl, stop := some .stuck }
  | (some ret, p) =>
    let s := { s with gbl := p.gbl }
    if ret = perfFailure then { s with stop := some (.returned exitFailure) }
    else monitorBranches env (if p.outs.isSome then env.perf.parent.aux else env.stale) s

def handleInput (conf : LoopConf) (env : PassEnv) (i : Input) (s : LoopState) : LoopState :=
  let s := { s with inputs := s.inputs ++ [i] }
  match utilCRC64 i.bytes i.size.toNat with
  | none => { s with stop := some .overread }
  | some hash =>
    match countInput env.seen hash s.seen with
    | none => { s with stop := some .died }
    | some seen => monitorInput conf env i { s with seen := seen }

theorem receiveCorpus_frame (conf : LoopConf) (env : PassEnv) (s : LoopState) :
    ∃ queue taken opened, (receiveCorpus conf env s).2 =
      { s with queue := queue, taken := taken, opened := opened } := by
  unfold receiveCorpus
  dsimp only
  split_ifs <;> exact ⟨_, _, _, rfl⟩

/-- Nothing is counted, monitored or recorded as an input before the second half of a pass. -/
theorem receive_frame (conf : LoopConf) (env : PassEnv) (s : LoopState) :
    ∃ keepRunning queue taken opened, (receive conf env s).2 =
      { s with keepRunning := keepRunning, queue := queue, taken := taken, opened := opened } := by
  unfold receive
  split
  · exact ⟨_, _, _, _, rfl⟩
  · obtain ⟨queue, taken, opened, h⟩ := receiveCorpus_frame conf env s
    exact ⟨s.keepRunning, queue, taken, opened, h⟩
  · dsimp only
    split_ifs <;> exact ⟨_, _, _, _, rfl⟩

theorem monitorBranches_frame (env : PassEnv) (trace : List BtsBranch) (s : LoopState) :
    ∃ monitor heap outcomes stop, monitorBranches env trace s =
      { s with monitor := monitor, heap := heap, outcomes := outcomes, stop := stop } := by
  unfold monitorBranches
  dsimp only
  split
  · exact ⟨_, _, _, _, rfl⟩
  · split_ifs <;> exact ⟨_, _, _, _, rfl⟩

theorem monitorInput_frame (conf : LoopConf) (env : PassEnv) (i : Input) (s : LoopState) :
    ∃ gbl monitor heap outcomes stop, monitorInput conf env i s =
      { s with gbl := gbl, monitor := monitor, heap := heap, outcomes := outcomes, stop := stop } := by
  unfold monitorInput
  split
  · exact ⟨_, _, _, _, _, rfl⟩
  · next ret p _ =>
    dsimp only
    split_ifs
    · exact ⟨_, _, _, _, _, rfl⟩
    · obtain ⟨monitor, heap, outcomes, stop, h⟩ :=
        monitorBranches_frame env env.perf.parent.aux { s with gbl := p.gbl }
      exact ⟨p.gbl, monitor, heap, outcomes, stop, h⟩
    · obtain ⟨monitor, heap, outcomes, stop, h⟩ :=
        monitorBranches_frame env env.stale { s with gbl := p.gbl }
      exact ⟨p.gbl, monitor, heap, outcomes, stop, h⟩

/-- What follows the receipt of an input records it, and has nothing to do with the events. -/
theorem handleInput_frame (conf : LoopConf) (env : PassEnv) (i : Input) (s : LoopState) :
    ∃ seen gbl monitor heap outcomes stop, handleInput conf env i s =
      { s with inputs := s.inputs ++ [i], seen := seen, gbl := gbl, monitor := monitor,
               heap := heap, outcomes := outcomes, stop := stop } := by
  unfold handleInput
  dsimp only
  split
  · exact ⟨_, _, _, _, _, _, rfl⟩
  · split
    · exact ⟨_, _, _, _, _, _, rfl⟩
    · next seen _ =>
      obtain ⟨gbl, monitor, heap, outcomes, stop, h⟩ :=
        monitorInput_frame conf env i { s with inputs := s.inputs ++ [i], seen := seen }
      exact ⟨seen, gbl, monitor, heap, outcomes, stop, h⟩

def runPass (conf : LoopConf) (env : PassEnv) (s : LoopState) : LoopState :=
  let s := { s with keepRunning := s.keepRunning && !env.sigint }
  if !s.keepRunning then { s with stop := some (.returned exitSuccess) }
  else
    match receive conf env s with
    | (.stopped stop, s) => { s with stop := some stop }
    | (.nothing, s) => s
    | (.input i, s) => handleInput conf env i s

/-- What happens between two passes and in the next one; a stopped loop makes no pass. -/
def pass (conf : LoopConf) (s : LoopState) (env : PassEnv) : LoopState :=
  let s := { s with queue := s.queue ++ env.arrived }
  if s.stop.isSome then s else runPass conf env s

def Receives (s : LoopState) (env : PassEnv) : Prop :=
  s.stop = none ∧ s.keepRunning = true ∧ env.sigint = false

instance (s : LoopState) (env : PassEnv) : Decidable (Receives s env) :=
  inferInstanceAs (Decidable (_ ∧ _))

def arrive (s : LoopState) (env : PassEnv) : LoopState := { s with queue := s.queue ++ env.arrived }

theorem pass_of_receives (conf : LoopConf) {s : LoopState} {env : PassEnv} (h : Receives s env) :
    pass conf s env =
      match receive conf env (arrive s env) with
      | (.stopped stop, s) => { s with stop := some stop }
      | (.nothing, s) => s
      | (.input i, s) => handleInput conf env i s := by
  obtain ⟨keepRunning, queue, seen, gbl, monitor, heap, taken, opened, inputs, outcomes, stop⟩ := s
  obtain ⟨rfl, rfl, hsigint⟩ : stop = none ∧ keepRunning = true ∧ env.sigint = false := h
  unfold pass runPass
  rw [hsigint]
  rfl

theorem pass_of_not_receives (conf : LoopConf) {s : LoopState} {env : PassEnv}
    (h : ¬Receives s env) :
    pass conf s env = arrive s env ∨
      pass conf s env =
        { arrive s env with keepRunning := false, stop := some (.returned exitSuccess) } := by
  unfold pass
  dsimp only
  split_ifs with hstop
  · exact .inl rfl
  · have hrun : (s.keepRunning && !env.sigint) = false := by
      by_contra hrun
      rw [Bool.not_eq_false, Bool.and_eq_true, Bool.not_eq_true'] at hrun
      exact h ⟨by simpa using hstop, hrun⟩
    right
    unfold runPass
    dsimp only
    rw [hrun]
    rfl

def LoopState.enter (m : Monitor) (g : GblStatus) (heap : ℕ) (queue : List InEvent) : LoopState :=
  ⟨true, queue, ⟨∅, 0, 0, 0, 0, []⟩, g, m, heap, [], [], [], [], none⟩

def PassEnv.quiet (zmq : ZmqAnswer) (arrived : List InEvent) : PassEnv :=
  ⟨arrived, false, false, zmq, false, fun _ => .contents [], .succeed,
    ⟨⟨-1, 0⟩, -1, -1, -1, ⟨false, -1, none, none, [], 0, []⟩, ⟨-1, -1, false, false, false⟩⟩,
    ⟨.succeed, fun _ => .succeed, true⟩, []⟩

def sampleConf : LoopConf := ⟨["./sut".toList], "corpus".toList, 1⟩

def sampleLoop (queue : List InEvent) : LoopState :=
  .enter ⟨∅, none, [], some "graphs".toList, 0⟩ .init 0 queue

end FuzzMonitor.MonitorLoop
