import FuzzMonitor.Branches

namespace FuzzMonitor.Perf
open CStrings

def perfFailure : ℤ := -1
def perfSuccess : ℤ := 1

def sigTrap : ℕ := 5
def sigKill : ℕ := 9

inductive Ptr
  | null | mapFailed | addr (n : ℕ)
  deriving DecidableEq, Repr

structure GblStatus where
  childPid : ℤ
  perfFd : ℤ
  dataReady : UInt64
  mmapBuf : Ptr
  mmapAux : Ptr
  deriving DecidableEq, Repr

def GblStatus.init : GblStatus := ⟨-1, -1, 0, .null, .null⟩

/-- A status that waitpid reports without options: the child exited, was killed by a
signal, or was stopped by one. -/
inductive Status
  | exited (code : ℕ)
  | signaled (sig : ℕ)
  | stopped (sig : ℕ)
  deriving DecidableEq, Repr

inductive WaitResult
  | eintr
  | error
  | changed (status : Status)
  deriving DecidableEq, Repr

inductive Syscall
  | openFile (path : CText) (fd : ℤ)
  | readFile (fd size : ℤ)
  | writeFile (fd : ℤ) (data : List UInt8) (size : ℤ)
  | close (fd : ℤ)
  | unlink (path : CText)
  | fork (pid : ℤ)
  | dup2 (fd target : ℤ)
  | traceme (ok : Bool)
  | raise (sig : ℕ)
  | execv (argv : List CText) (ok : Bool)
  | sigaction (ok : Bool)
  | perfEventOpen (pid fd : ℤ)
  | mmap (fd : ℤ) (result : Ptr)
  | munmap (addr : Ptr)
  | fcntl (fd : ℤ)
  | ioctl (fd : ℤ)
  | waitpid (pid : ℤ) (result : WaitResult)
  | ptraceCont (pid : ℤ) (ok : Bool)
  | kill (pid : ℤ) (sig : ℕ)
  deriving DecidableEq, Repr

/-- The global status, the calls made so far, what analyze_bts assigned through its two
arguments, and the branches for which it made its log calls when they are NULL. -/
structure PerfState where
  gbl : GblStatus
  calls : List Syscall
  outs : Option (Ptr × UInt64)
  printed : List (UInt64 × UInt64)

def PerfState.did (s : PerfState) (call : Syscall) : PerfState :=
  { s with calls := s.calls ++ [call] }

/-- aux holds the records below aux_head; bts tells whether both arguments are non-NULL. -/
def analyzeBts (bts : Bool) (aux : List BtsBranch) (s : PerfState) : PerfState :=
  if bts then { s with outs := some (s.gbl.mmapAux, UInt64.ofNat aux.length) }
  else
    { s with
      printed := s.printed ++
        (aux.filter fun br => !decide (br.from > 0xFFFFFFFF00000000 ∨
          br.to > 0xFFFFFFFF00000000)).map fun br => (br.from, br.to) }

def perfSigHandler (s : PerfState) : PerfState :=
  { s.did (.kill s.gbl.childPid sigTrap) with
    gbl := { s.gbl with dataReady := s.gbl.dataReady + 1 } }

structure InitEnv where
  typeFd : ℤ
  readSize : ℤ

def btsTypePath : CText := "/sys/bus/event_source/devices/intel_bts/type".toList

def perfInit (env : InitEnv) (s : PerfState) : Bool × PerfState :=
  let s := s.did (.openFile btsTypePath env.typeFd)
  if env.typeFd = -1 then (false, s)
  else
    let s := s.did (.readFile env.typeFd env.readSize)
    (!decide (env.readSize < 0), s.did (.close env.typeFd))

/-- One waitpid of perf_parent's loop: the SIGIO deliveries up to its return, its result,
the records below aux_head by then, and the outcome of the PTRACE_CONT that may follow. -/
structure WaitStep where
  sigio : ℕ
  result : WaitResult
  aux : List BtsBranch
  cont : Bool
  deriving DecidableEq, Repr

/-- How the loop ends; blocked is a loop that is still waiting for its child. -/
inductive WaitEnd
  | blocked | done | waitFailed | contFailed
  deriving DecidableEq, Repr

def drainReady (bts : Bool) (aux : List BtsBranch) (s : PerfState) : PerfState :=
  if s.gbl.dataReady > 0 then
    analyzeBts bts aux { s with gbl := { s.gbl with dataReady := s.gbl.dataReady - 1 } }
  else s

/-- One pass of the loop; none goes round again. -/
def waitOnce (bts : Bool) (step : WaitStep) (s : PerfState) : Option WaitEnd × PerfState :=
  let s := perfSigHandler^[step.sigio] s
  let s := s.did (.waitpid s.gbl.childPid step.result)
  match step.result with
  | .eintr => (none, s)
  | .error => (some .waitFailed, s)
  | .changed status =>
    let s := drainReady bts step.aux s
    match status with
    | .exited _ => (some .done, s)
    | .signaled _ => (some .done, s)
    | .stopped sig =>
      -- the loop is left although the child is only stopped
      if sig ≠ sigTrap then (some .done, s)
      else
        let s := s.did (.ptraceCont s.gbl.childPid step.cont)
        if !step.cont then (some .contFailed, s) else (none, s)

def waitLoop (bts : Bool) : List WaitStep → PerfState → WaitEnd × PerfState
  | [], s => (.blocked, s)
  | step :: steps, s =>
    match waitOnce bts step s with
    | (some stop, s) => (stop, s)
    | (none, s) => waitLoop bts steps s

/-- The outcomes of perf_parent's system calls; a mapping that fails is none. The late
SIGIO deliveries are those after the loop. -/
structure ParentEnv where
  sigaction : Bool
  perfFd : ℤ
  mmapBuf : Option ℕ
  mmapAux : Option ℕ
  waits : List WaitStep
  lateSigio : ℕ
  aux : List BtsBranch

def mmapResult : Option ℕ → Ptr
  | none => .mapFailed
  | some n => .addr n

/-- The labels of perf_parent's clean-up ladder, each falling through to the next. -/
def bailPerfOpen (s : PerfState) : Option ℤ × PerfState :=
  (some perfFailure, s.did (.kill s.gbl.childPid sigKill))

def bailPerfBuf (s : PerfState) : Option ℤ × PerfState :=
  bailPerfOpen (s.did (.close s.gbl.perfFd))

def bailPerfAux (s : PerfState) : Option ℤ × PerfState :=
  bailPerfBuf (s.did (.munmap s.gbl.mmapBuf))

def bailPerfWait (s : PerfState) : Option ℤ × PerfState :=
  bailPerfAux (s.did (.munmap s.gbl.mmapAux))

def perfWait (bts : Bool) (env : ParentEnv) (s : PerfState) : Option ℤ × PerfState :=
  match waitLoop bts env.waits s with
  | (.blocked, s) => (none, s)
  | (.waitFailed, s) => bailPerfWait s
  -- returns without going through the ladder
  | (.contFailed, s) => (some perfFailure, s)
  | (.done, s) => (some perfSuccess, analyzeBts bts env.aux (perfSigHandler^[env.lateSigio] s))

/-- The result is none while perf_parent has not returned. -/
def perfParent (bts : Bool) (env : ParentEnv) (s : PerfState) : Option ℤ × PerfState :=
  let s := s.did (.sigaction env.sigaction)
  if !env.sigaction then (some perfFailure, s)
  else
    let s := { s.did (.perfEventOpen s.gbl.childPid env.perfFd) with
      gbl := { s.gbl with perfFd := env.perfFd } }
    if env.perfFd = -1 then bailPerfOpen s
    else
      let s := { s.did (.mmap env.perfFd (mmapResult env.mmapBuf)) with
        gbl := { s.gbl with mmapBuf := mmapResult env.mmapBuf } }
      if env.mmapBuf = none then bailPerfBuf s
      else
        let s := { s.did (.mmap env.perfFd (mmapResult env.mmapAux)) with
          gbl := { s.gbl with mmapAux := mmapResult env.mmapAux } }
        if env.mmapAux = none then bailPerfAux s
        else
          -- F_SETFL, F_SETSIG, F_SETOWN and PERF_EVENT_IOC_ENABLE, none of them checked
          let s := (((s.did (.fcntl env.perfFd)).did (.fcntl env.perfFd)).did
            (.fcntl env.perfFd)).did (.ioctl env.perfFd)
          perfWait bts env s

/-- The outcomes of the child's system calls; resumed tells whether the tracer lets it go
on after raise(SIGTRAP). -/
structure ChildEnv where
  inputFd : ℤ
  nullFd : ℤ
  traceme : Bool
  resumed : Bool
  execv : Bool

/-- The result is none when the child never returns. -/
def perfChild (argv : List CText) (env : ChildEnv) (s : PerfState) : Option ℤ × PerfState :=
  let s := s.did (.openFile "/dev/null".toList env.nullFd)
  if env.nullFd = -1 then (some perfFailure, s)
  else
    let s := (s.did (.dup2 env.nullFd 1)).did (.dup2 env.nullFd 2)
    let s := s.did (.traceme env.traceme)
    if !env.traceme then (some perfFailure, s)
    else
      let s := s.did (.raise sigTrap)
      if !env.resumed then (none, s)
      else
        let s := s.did (.execv argv env.execv)
        if env.execv then (none, s) else (some perfFailure, s)

def closeAux (s : PerfState) : PerfState :=
  if s.gbl.mmapAux ≠ .null then
    { s.did (.munmap s.gbl.mmapAux) with gbl := { s.gbl with mmapAux := .null } }
  else s

def closeBuf (s : PerfState) : PerfState :=
  if s.gbl.mmapBuf ≠ .null then
    { s.did (.munmap s.gbl.mmapBuf) with gbl := { s.gbl with mmapBuf := .null } }
  else s

def closeFd (s : PerfState) : PerfState :=
  if s.gbl.perfFd ≠ -1 then
    { s.did (.close s.gbl.perfFd) with gbl := { s.gbl with perfFd := -1 } }
  else s

def perfClose (s : PerfState) : PerfState := closeFd (closeBuf (closeAux s))

/-- The outcomes of all system calls of one perf_monitor_api call. The fork result is 0
in the child: each of the two processes sees its own calls. -/
structure ApiEnv where
  init : InitEnv
  inputFd : ℤ
  written : ℤ
  fork : ℤ
  parent : ParentEnv
  child : ChildEnv

def inputPath : CText := "./.input".toList

def apiParent (bts : Bool) (env : ApiEnv) (s : PerfState) : Option ℤ × PerfState :=
  match perfParent bts env.parent (s.did (.close env.inputFd)) with
  | (none, s) => (none, s)
  | (some ret, s) => (some ret, s.did (.unlink inputPath))

def apiChild (argv : List CText) (env : ApiEnv) (s : PerfState) : Option ℤ × PerfState :=
  let s := s.did (.openFile inputPath env.child.inputFd)
  if env.child.inputFd = -1 then (some perfFailure, s)
  else
    let s := (s.did (.dup2 env.child.inputFd 0)).did (.close env.child.inputFd)
    match perfChild argv env.child s with
    | (none, s) => (none, s)
    -- what perf_child returned is dropped, and nothing ends the child
    | (some _, s) => (some 0, s)

def apiFork (bts : Bool) (argv : List CText) (env : ApiEnv) (s : PerfState) :
    Option ℤ × PerfState :=
  let s := { s.did (.fork env.fork) with gbl := { s.gbl with childPid := env.fork } }
  if env.fork < 0 then (some perfFailure, s.did (.unlink inputPath))
  else if env.fork > 0 then apiParent bts env s
  else apiChild argv env s

def perfMonitorApi (data : List UInt8) (argv : List CText) (bts : Bool) (env : ApiEnv)
    (g : GblStatus) : Option ℤ × PerfState :=
  let init := perfInit env.init (perfClose ⟨g, [], none, []⟩)
  if !init.1 then (some perfFailure, init.2)
  else
    let s := init.2.did (.openFile inputPath env.inputFd)
    if env.inputFd = -1 then (some perfFailure, s)
    else
      let s := s.did (.writeFile env.inputFd data env.written)
      if env.written = -1 then
        (some perfFailure, (s.did (.close env.inputFd)).did (.unlink inputPath))
      else apiFork bts argv env (s.did (.close env.inputFd))

end FuzzMonitor.Perf
