import FuzzMonitor.Perf

namespace FuzzMonitor.PerfTool
open CStrings Perf

inductive LLevel
  | machine
  | fatal
  | error
  | warning
  | info
  | debug
  deriving DecidableEq, Repr

/-- An entry of log_levels, without its prefix, which log_log does not print. -/
structure LogEntry where
  descr : Option CText
  printFuncline : Bool

def logLevels : LLevel → LogEntry
  | .machine => ⟨none, false⟩
  | .fatal => ⟨some ['F'], true⟩
  | .error => ⟨some ['E'], true⟩
  | .warning => ⟨some ['W'], true⟩
  | .info => ⟨some ['I'], false⟩
  | .debug => ⟨some ['D'], true⟩

/-- What log_log writes to standard output; strerr is the text of errno where perr is set. -/
def logLog (ll : LLevel) (fn : CText) (ln : ℕ) (strerr : Option CText) (message : CText) : CText :=
  ((logLevels ll).descr.elim [] fun descr => '[' :: descr ++ "] ".toList) ++
    (if (logLevels ll).printFuncline then fn ++ "():".toList ++ Nat.toDigits 10 ln ++ [' '] else []) ++
    message ++ (strerr.elim [] fun err => ": ".toList ++ err) ++ ['\n']

def logM (logLevel : LLevel) (ln : ℕ) (message : CText) : CText :=
  if logLevel = .machine then logLog .machine "main".toList ln none message else []

def leftOut (br : BtsBranch) : Bool :=
  decide (br.from > 0xFFFFFFFF00000000 ∨ br.to > 0xFFFFFFFF00000000)

def branchMessage (br : BtsBranch) : CText :=
  "branch,".toList ++ decimal br.from ++ ',' :: decimal br.to

def printBranches (logLevel : LLevel) : List BtsBranch → CText
  | [] => []
  | br :: brs =>
    if leftOut br then printBranches logLevel brs
    else logM logLevel 50 (branchMessage br) ++ printBranches logLevel brs

/-- What a reader gets from a pipe that delivers the given pieces: at most count bytes of the
first one; an empty pipe that is closed delivers nothing. -/
def readPipe (pieces : List (List UInt8)) (count : ℕ) : List UInt8 := (pieces.headD []).take count

def readSz : ℕ := 511

/-- What a run of main in 'x' mode leaves behind: the data and the command line that it hands
to perf_monitor_api, its standard output and its exit status (none while it does not end). -/
structure MachineRun where
  api : Option (List UInt8 × List CText)
  output : CText
  exit : Option ℤ
  deriving DecidableEq, Repr

/-- main with the arguments "x" and a command. Standard input is a pipe whose read may fail;
stale is what an unset bts_start leads to. -/
def mainMachine (argv : List CText) (stdin : Option (List (List UInt8))) (env : ApiEnv)
    (stale : List BtsBranch) : MachineRun :=
  match stdin with
  | none => ⟨none, logM .machine 33 "failed reading input".toList, some 1⟩
  | some pieces =>
    let data := readPipe pieces readSz
    let api := some (data, argv.drop 2)
    match perfMonitorApi data (argv.drop 2) true env .init with
    | (none, _) => ⟨api, [], none⟩
    | (some ret, p) =>
      if ret = perfFailure then ⟨api, logM .machine 40 "failed perf monitoring".toList, some 1⟩
      else
        let branches := if p.outs.isSome then env.parent.aux else stale
        ⟨api, printBranches .machine branches, some 0⟩

theorem logM_machine (ln : ℕ) (message : CText) : logM .machine ln message = message ++ ['\n'] := by
  unfold logM logLog logLevels
  simp

theorem printBranches_machine (brs : List BtsBranch) :
    printBranches .machine brs =
      ((brs.filter fun br => !leftOut br).map branchMessage).flatMap fun l => l ++ ['\n'] := by
  induction brs with
  | nil => rfl
  | cons br brs ih =>
    unfold printBranches
    cases hskip : leftOut br with
    | true =>
      rw [if_pos rfl, List.filter_cons_of_neg (by simp [hskip])]
      exact ih
    | false =>
      rw [if_neg Bool.false_ne_true, List.filter_cons_of_pos (by simp [hskip]), logM_machine, ih]
      rfl

end FuzzMonitor.PerfTool
