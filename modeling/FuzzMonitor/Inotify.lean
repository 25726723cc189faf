import FuzzMonitor.CStrings

namespace FuzzMonitor.Inotify
open CStrings

/-- An inotify event: its watch, what happened, and the name of the entry it is about. -/
structure InEvent where
  wd : ℤ
  mask : UInt32
  name : CText
  deriving DecidableEq, Repr

def inCloseWrite : UInt32 := 0x8
def inCreate : UInt32 := 0x100
def inDeleteSelf : UInt32 := 0x400
def inIgnored : UInt32 := 0x8000

def nameMax : ℕ := 255

def sizeofInEvent : ℕ := 16

/-- The len field: the name with its terminator, padded to a multiple of the record's size. -/
def InEvent.len (e : InEvent) : ℕ :=
  if e.name = [] then 0 else (e.name.length / sizeofInEvent + 1) * sizeofInEvent

def InEvent.size (e : InEvent) : ℕ := sizeofInEvent + e.len

/-- How a read of the descriptor ends: nothing is queued, it fails, or it returns whole
events, the first of them and the others behind it. -/
inductive ReadAnswer
  | again
  | failed
  | events (first : InEvent) (others : List InEvent)
  deriving DecidableEq, Repr

def ReadAnswer.taken : ReadAnswer → List InEvent
  | .again => []
  | .failed => []
  | .events first others => first :: others

def fitting : ℕ → List InEvent → List InEvent
  | _, [] => []
  | room, e :: es => if e.size ≤ room then e :: fitting (room - e.size) es else []

/-- A non-blocking read into a buffer of the given size: its answer and the queue it leaves.
It fails when the buffer is too small for the first event. -/
def readQueue (size : ℕ) (queue : List InEvent) : ReadAnswer × List InEvent :=
  match queue with
  | [] => (.again, [])
  | e :: es =>
    if size < e.size then (.failed, e :: es)
    else (.events e (fitting (size - e.size) es), es.drop (fitting (size - e.size) es).length)

theorem fitting_append_drop (room : ℕ) (es : List InEvent) :
    fitting room es ++ es.drop (fitting room es).length = es := by
  induction es generalizing room with
  | nil => rfl
  | cons e es ih =>
    unfold fitting
    split_ifs
    · rw [List.cons_append, List.length_cons, List.drop_succ_cons, ih]
    · rfl

/-- A read loses nothing: what it does not take stays queued. -/
theorem readQueue_taken (size : ℕ) (queue : List InEvent) :
    (readQueue size queue).1.taken ++ (readQueue size queue).2 = queue := by
  cases queue with
  | nil => rfl
  | cons e es =>
    unfold readQueue
    dsimp only
    split_ifs
    · rfl
    · exact congrArg (e :: ·) (fitting_append_drop _ es)

theorem InEvent.size_le {e : InEvent} (h : e.name.length ≤ nameMax) :
    e.size ≤ sizeofInEvent + nameMax + 1 := by
  unfold nameMax at h
  unfold InEvent.size InEvent.len sizeofInEvent nameMax
  split_ifs <;> omega

end FuzzMonitor.Inotify
