import FuzzMonitor.CorpusEvents

namespace FuzzMonitor.MonitorLoop
open CStrings Inotify Runs

/-- Where the first loop of monitor_loop stands: before it adds the watch of the corpus
directory; in inotify_wait4_creation before the watch of the parent is added, in the read
loop, or behind it; or it is left, with the watch, by an interrupt or by a failure. -/
inductive Phase
  | addWatch
  | addParent
  | reading
  | removing
  | watching
  | interrupted
  | failed
  deriving DecidableEq, Repr

/-- The loop with what the kernel has: whether the corpus directory exists, the watch of its
parent, the number of the next watch and the queue of the descriptor. -/
structure SetUp where
  phase : Phase
  keepRunning : Bool
  watchD : ℤ
  corpusExists : Bool
  parentWd : Option ℤ
  nextWd : ℤ
  queue : List InEvent
  deriving DecidableEq, Repr

/-- Whether the calls of one step succeed: adding a watch, the read, removing the watch. -/
structure StepEnv where
  addOk : Bool
  readFails : Bool
  rmOk : Bool
  deriving DecidableEq, Repr

inductive Action
  | monitor (env : StepEnv)
  | createCorpus
  | createOther (name : CText)
  | interrupt
  deriving DecidableEq, Repr

def inIsDir : UInt32 := 0x40000000

def parentPath (path : CText) : CText :=
  match strrchr path '/' with
  | some n => path.take n
  | none => []

/-- What follows the last slash: the entry of the parent that is waited for. -/
def entryName (path : CText) : CText :=
  match strrchr path '/' with
  | some n => path.drop (n + 1)
  | none => path

/-- Whether the parent can be watched: the empty path names nothing, and the parent of a path
that ends in a slash is the corpus directory. -/
def watchesParent (path : CText) (env : StepEnv) (s : SetUp) : Bool :=
  env.addOk && parentPath path ≠ [] && (entryName path ≠ [] || s.corpusExists)

def endsWait (path : CText) (inEvent : InEvent) : Bool :=
  inEvent.mask &&& inCreate = inCreate && (strstr inEvent.name (entryName path)).isSome

def waitStep (path : CText) (env : StepEnv) (s : SetUp) : SetUp :=
  if !s.keepRunning then { s with phase := .removing }
  else
    let read := if env.readFails then (.failed, s.queue) else readQueue inEventSize s.queue
    match read.1 with
    | .again => s
    | .failed => { s with phase := .removing }
    -- the events behind the first are read and not looked at
    | .events inEvent _ =>
      if endsWait path inEvent then { s with phase := .removing, queue := read.2 }
      else { s with queue := read.2 }

def monitorStep (path : CText) (env : StepEnv) (s : SetUp) : SetUp :=
  match s.phase with
  | .addWatch =>
    if !s.keepRunning then { s with phase := .interrupted }
    else if !env.addOk then { s with phase := .failed }
    else if s.corpusExists then
      { s with phase := .watching, watchD := s.nextWd, nextWd := s.nextWd + 1 }
    else if strrchr path '/' = none then { s with phase := .failed }
    else { s with phase := .addParent }
  | .addParent =>
    if !watchesParent path env s then { s with phase := .failed }
    else { s with phase := .reading, parentWd := some s.nextWd, nextWd := s.nextWd + 1 }
  | .reading => waitStep path env s
  | .removing =>
    if !env.rmOk then { s with phase := .failed }
    else
      -- the kernel reports the end of a watch
      let ignored := s.parentWd.toList.map fun wd => ⟨wd, inIgnored, []⟩
      { s with phase := .addWatch, parentWd := none, queue := s.queue ++ ignored }
  | .watching | .interrupted | .failed => s

def SetUp.create (s : SetUp) (mask : UInt32) (name : CText) : SetUp :=
  { s with queue := s.queue ++ s.parentWd.toList.map fun wd => ⟨wd, mask, name⟩ }

/-- The corpus directory is created once, and no other entry has its name. -/
def step (path : CText) (s : SetUp) (a : Action) : SetUp :=
  match a with
  | .monitor env => monitorStep path env s
  | .createCorpus =>
    if s.corpusExists || (entryName path).length > nameMax then s
    else { s.create (inCreate ||| inIsDir) (entryName path) with corpusExists := true }
  | .createOther name =>
    if name = [] || name = entryName path || name.length > nameMax then s
    else s.create inCreate name
  | .interrupt => { s with keepRunning := false }

def SetUp.start (corpusExists : Bool) : SetUp := ⟨.addWatch, true, 0, corpusExists, none, 1, []⟩

def corpusCreated (path : CText) (e : InEvent) : Bool :=
  e.mask &&& inCreate = inCreate && e.name = entryName path

/-- The answer of the read in a turn of the read loop; where none is made, none is taken. -/
def waitRead (env : StepEnv) (s : SetUp) : ReadAnswer :=
  if s.keepRunning && !env.readFails then (readQueue inEventSize s.queue).1 else .failed

/-- What holds all along: the parent is watched from the start of the wait to its end, and the
creation of the corpus directory is queued at most once, after it. -/
structure Sane (path : CText) (s : SetUp) : Prop where
  watched : s.phase = .reading → s.parentWd ≠ none
  unwatched : s.phase = .addWatch ∨ s.phase = .addParent → s.parentWd = none
  uncreated : s.corpusExists = false ∨ s.phase = .addParent →
    ∀ e ∈ s.queue, corpusCreated path e = false
  once : (s.queue.filter (corpusCreated path)).length ≤ 1

theorem endsWait_of_corpusCreated {path : CText} {e : InEvent} (h : corpusCreated path e = true) :
    endsWait path e = true := by
  unfold corpusCreated at h
  rw [Bool.and_eq_true, decide_eq_true_eq, decide_eq_true_eq] at h
  unfold endsWait
  rw [h.2, strstr_self, h.1]
  rfl

theorem readQueue_suffix (size : ℕ) (queue : List InEvent) :
    (readQueue size queue).2 <:+ queue := ⟨_, readQueue_taken size queue⟩

/-- A turn of the read loop waits on, leaves the loop, or reads; after a read it waits on when
the first event does not end the wait. -/
theorem waitStep_cases (path : CText) (env : StepEnv) (s : SetUp) :
    (waitRead env s = .again ∧ waitStep path env s = s) ∨
    (waitRead env s = .failed ∧ waitStep path env s = { s with phase := .removing }) ∨
    ∃ first others queue, waitRead env s = .events first others ∧
      readQueue inEventSize s.queue = (.events first others, queue) ∧
      waitStep path env s = { s with
        phase := if endsWait path first then .removing else s.phase
        queue := queue } := by
  unfold waitStep waitRead
  cases hrun : s.keepRunning with
  | false => exact .inr (.inl ⟨rfl, rfl⟩)
  | true =>
    cases hfails : env.readFails with
    | true => exact .inr (.inl ⟨rfl, rfl⟩)
    | false =>
      simp only [Bool.not_true, Bool.false_eq_true, if_false, Bool.not_false, Bool.and_self,
        if_true]
      cases hread : readQueue inEventSize s.queue with
      | mk answer queue =>
        cases answer with
        | again => exact .inl ⟨rfl, rfl⟩
        | failed => exact .inr (.inl ⟨rfl, rfl⟩)
        | events first others =>
          refine .inr (.inr ⟨first, others, queue, rfl, rfl, ?_⟩)
          dsimp only
          split_ifs <;> rfl

theorem waitStep_corpusExists (path : CText) (env : StepEnv) (s : SetUp) :
    (waitStep path env s).corpusExists = s.corpusExists := by
  rcases waitStep_cases path env s with ⟨-, h⟩ | ⟨-, h⟩ | ⟨first, others, queue, -, -, h⟩ <;> rw [h]

inductive Moves (path : CText) (env : StepEnv) (s : SetUp) : SetUp → Prop
  | leave (p : Phase) (hleft : p = .interrupted ∨ p = .failed) :
      Moves path env s { s with phase := p }
  | watch (hphase : s.phase = .addWatch) : Moves path env s
      { s with phase := .watching, watchD := s.nextWd, nextWd := s.nextWd + 1 }
  | absent (hphase : s.phase = .addWatch) (hexists : s.corpusExists = false) :
      Moves path env s { s with phase := .addParent }
  | watchParent (hphase : s.phase = .addParent) : Moves path env s
      { s with phase := .reading, parentWd := some s.nextWd, nextWd := s.nextWd + 1 }
  | wait (hphase : s.phase = .reading) : Moves path env s (waitStep path env s)
  | remove (hphase : s.phase = .removing) : Moves path env s
      { s with
        phase := .addWatch
        parentWd := none
        queue := s.queue ++ s.parentWd.toList.map fun wd => ⟨wd, inIgnored, []⟩ }
  | stay (hphase : s.phase ≠ .reading) : Moves path env s s

theorem monitorStep_moves (path : CText) (env : StepEnv) (s : SetUp) :
    Moves path env s (monitorStep path env s) := by
  unfold monitorStep
  cases hphase : s.phase with
  | addWatch =>
    dsimp only
    split_ifs with hrun hadd hexists
    · exact .leave .interrupted (.inl rfl)
    · exact .leave .failed (.inr rfl)
    · exact .watch hphase
    · exact .leave .failed (.inr rfl)
    · exact .absent hphase (by simpa using hexists)
  | addParent =>
    dsimp only
    split_ifs
    · exact .leave .failed (.inr rfl)
    · exact .watchParent hphase
  | reading => exact .wait hphase
  | removing =>
    dsimp only
    split_ifs
    · exact .leave .failed (.inr rfl)
    · exact .remove hphase
  | watching => exact .stay (by simp [hphase])
  | interrupted => exact .stay (by simp [hphase])
  | failed => exact .stay (by simp [hphase])

theorem Sane.leave {path : CText} {s s' : SetUp} (hs : Sane path s)
    (hphase : s'.phase ≠ .reading ∧ s'.phase ≠ .addWatch ∧ s'.phase ≠ .addParent)
    (hqueue : s'.queue = s.queue) (hexists : s'.corpusExists = s.corpusExists) :
    Sane path s' := by
  obtain ⟨hreading, hadd, hparent⟩ := hphase
  refine ⟨fun h => absurd h hreading, fun h => ?_, fun h => ?_, ?_⟩
  · exact absurd h (not_or.mpr ⟨hadd, hparent⟩)
  · rw [hqueue]
    exact hs.uncreated (.inl (hexists ▸ h.resolve_right hparent))
  · rw [hqueue]
    exact hs.once

theorem waitStep_sane {path : CText} {env : StepEnv} {s : SetUp} (hs : Sane path s)
    (hphase : s.phase = .reading) : Sane path (waitStep path env s) := by
  have hwatched := hs.watched hphase
  rcases waitStep_cases path env s with ⟨-, h⟩ | ⟨-, h⟩ | ⟨first, others, queue, -, hread, h⟩
  · rw [h]
    exact hs
  · rw [h]
    refine ⟨by simp, by simp, fun hun => hs.uncreated (.inl ?_), hs.once⟩
    simpa using hun
  · have hsuffix : queue <:+ s.queue := by
      have hsuf := readQueue_suffix inEventSize s.queue
      rwa [hread] at hsuf
    have hleft : (waitStep path env s).phase ≠ .addWatch ∧
        (waitStep path env s).phase ≠ .addParent := by
      rw [h, hphase]
      dsimp only
      split_ifs <;> decide
    refine ⟨fun _ => by rw [h]; exact hwatched, fun hun => ?_, fun hun e he => ?_, ?_⟩
    · exact absurd hun (by simp [hleft])
    · rw [waitStep_corpusExists] at hun
      rw [h] at he
      exact hs.uncreated (.inl (hun.resolve_right hleft.2)) e (hsuffix.subset he)
    · rw [h]
      exact (hsuffix.sublist.filter _).length_le.trans hs.once

theorem Sane.queueOthers {path : CText} {s : SetUp} (hs : Sane path s) {es : List InEvent}
    (hes : ∀ e ∈ es, corpusCreated path e = false) :
    Sane path { s with queue := s.queue ++ es } := by
  refine ⟨hs.watched, hs.unwatched, fun h e he => ?_, ?_⟩
  · rcases List.mem_append.mp he with he | he
    · exact hs.uncreated h e he
    · exact hes e he
  · have hnone : es.filter (corpusCreated path) = [] :=
      List.filter_eq_nil_iff.mpr fun e he => by simp [hes e he]
    dsimp only
    rw [List.filter_append, hnone, List.append_nil]
    exact hs.once

/-- The event of the end of a watch is not that of a creation. -/
theorem not_corpusCreated_ignored (path : CText) (wd : ℤ) :
    corpusCreated path ⟨wd, inIgnored, []⟩ = false := by
  have hmask : decide (inIgnored &&& inCreate = inCreate) = false := by decide
  unfold corpusCreated
  dsimp only
  rw [hmask, Bool.false_and]

theorem Moves.sane {path : CText} {env : StepEnv} {s s' : SetUp} (h : Moves path env s s')
    (hs : Sane path s) : Sane path s' := by
  cases h with
  | leave p hleft =>
    refine hs.leave ?_ rfl rfl
    rcases hleft with rfl | rfl <;> simp
  | watch hphase => exact hs.leave (by simp) rfl rfl
  | absent hphase hexists =>
    exact ⟨by simp, fun _ => hs.unwatched (.inl hphase), fun _ => hs.uncreated (.inl hexists),
      hs.once⟩
  | watchParent hphase => exact ⟨by simp, by simp, fun _ => hs.uncreated (.inr hphase), hs.once⟩
  | wait hphase => exact waitStep_sane hs hphase
  | remove hphase =>
    have hignored : ∀ e ∈ s.parentWd.toList.map fun wd => (⟨wd, inIgnored, []⟩ : InEvent),
        corpusCreated path e = false := by
      intro e he
      obtain ⟨wd, -, rfl⟩ := List.mem_map.mp he
      exact not_corpusCreated_ignored path wd
    have hqueue := hs.queueOthers hignored
    exact ⟨by simp, by simp, fun h => hqueue.uncreated (.inl (by simpa using h)), hqueue.once⟩
  | stay hphase => exact hs

/-- The creation of the directory is queued when the parent is watched. -/
theorem step_sane (path : CText) (s : SetUp) (a : Action) (hs : Sane path s) :
    Sane path (step path s a) := by
  cases a with
  | monitor env => exact (monitorStep_moves path env s).sane hs
  | createCorpus =>
    unfold step
    dsimp only
    split_ifs with hskip
    · exact hs
    · have hnew : ∀ e ∈ s.queue, corpusCreated path e = false := by
        apply hs.uncreated
        simp only [Bool.or_eq_true, not_or] at hskip
        exact .inl (by simpa using hskip.1)
      have hone : s.parentWd.toList.length ≤ 1 := by
        cases s.parentWd <;> simp
      refine ⟨hs.watched, hs.unwatched, fun h e he => ?_, ?_⟩
      · have hparent : s.phase = .addParent := h.resolve_left (by simp)
        have hwd : s.parentWd = none := hs.unwatched (.inr hparent)
        unfold SetUp.create at he
        rw [hwd] at he
        exact hnew e (by simpa using he)
      · unfold SetUp.create
        dsimp only
        rw [List.filter_append, List.filter_eq_nil_iff.mpr fun e he => by simp [hnew e he],
          List.nil_append]
        calc _ ≤ _ := List.length_filter_le _ _
          _ = s.parentWd.toList.length := List.length_map _
          _ ≤ 1 := hone
  | createOther name =>
    unfold step
    dsimp only
    split_ifs with hskip
    · exact hs
    · have hother : ∀ e ∈ s.parentWd.toList.map fun wd => (⟨wd, inCreate, name⟩ : InEvent),
          corpusCreated path e = false := by
        intro e he
        obtain ⟨wd, -, rfl⟩ := List.mem_map.mp he
        simp only [Bool.or_eq_true, not_or, decide_eq_true_eq] at hskip
        unfold corpusCreated
        rw [Bool.and_eq_false_iff]
        exact .inr (decide_eq_false hskip.1.2)
      exact hs.queueOthers hother
  | interrupt => exact ⟨hs.watched, hs.unwatched, hs.uncreated, hs.once⟩

theorem start_sane (path : CText) (corpusExists : Bool) : Sane path (.start corpusExists) :=
  ⟨by simp [SetUp.start], fun _ => rfl, by simp [SetUp.start], by simp [SetUp.start]⟩

/-- What is queued comes from watches made so far; once the corpus directory is watched, from
watches made before. -/
structure Numbered (s : SetUp) : Prop where
  parent : ∀ wd, s.parentWd = some wd → wd < s.nextWd
  events : ∀ e ∈ s.queue, e.wd < s.nextWd ∧ e.name.length ≤ nameMax
  watch : s.phase = .watching → s.parentWd = none ∧ ∀ e ∈ s.queue, e.wd < s.watchD

theorem Numbered.leave {s s' : SetUp} (hs : Numbered s) (hphase : s'.phase ≠ .watching)
    (hparent : s'.parentWd = s.parentWd) (hnext : s'.nextWd = s.nextWd)
    (hqueue : ∀ e ∈ s'.queue, e ∈ s.queue) : Numbered s' := by
  refine ⟨fun wd hwd => ?_, fun e he => ?_, fun h => absurd h hphase⟩
  · rw [hnext]
    exact hs.parent wd (hparent ▸ hwd)
  · rw [hnext]
    exact hs.events e (hqueue e he)

theorem Numbered.create {s : SetUp} (hs : Numbered s) (mask : UInt32) {name : CText}
    (hname : name.length ≤ nameMax) : Numbered (s.create mask name) := by
  refine ⟨hs.parent, fun e he => ?_, fun h => ⟨(hs.watch h).1, fun e he => ?_⟩⟩
  · rcases List.mem_append.mp he with he | he
    · exact hs.events e he
    · obtain ⟨wd, hwd, rfl⟩ := List.mem_map.mp he
      exact ⟨hs.parent wd (Option.mem_toList.mp hwd), hname⟩
  · unfold SetUp.create at he
    rw [(hs.watch h).1] at he
    exact (hs.watch h).2 e (by simpa using he)

theorem waitStep_numbered {path : CText} {env : StepEnv} {s : SetUp} (hn : Numbered s)
    (hphase : s.phase = .reading) : Numbered (waitStep path env s) := by
  rcases waitStep_cases path env s with ⟨-, h⟩ | ⟨-, h⟩ | ⟨first, others, queue, -, hread, h⟩
  · rw [h]
    exact hn
  · rw [h]
    exact hn.leave (by simp) rfl rfl fun _ he => he
  · have hsuffix := readQueue_suffix inEventSize s.queue
    rw [hread] at hsuffix
    rw [h, hphase]
    refine hn.leave ?_ rfl rfl fun e he => hsuffix.subset he
    dsimp only
    split_ifs <;> simp

theorem Moves.numbered {path : CText} {env : StepEnv} {s s' : SetUp} (h : Moves path env s s')
    (hs : Sane path s) (hn : Numbered s) : Numbered s' := by
  have hlater : ∀ e ∈ s.queue, e.wd < s.nextWd + 1 ∧ e.name.length ≤ nameMax := by
    intro e he
    obtain ⟨hlt, hname⟩ := hn.events e he
    exact ⟨by omega, hname⟩
  cases h with
  | leave p hleft =>
    refine hn.leave ?_ rfl rfl fun _ he => he
    rcases hleft with rfl | rfl <;> simp
  | watch hphase =>
    have hwd : s.parentWd = none := hs.unwatched (.inl hphase)
    refine ⟨fun wd h => ?_, hlater, fun _ => ⟨hwd, fun e he => (hn.events e he).1⟩⟩
    rw [hwd] at h
    cases h
  | absent hphase hexists => exact hn.leave (by simp) rfl rfl fun _ he => he
  | watchParent hphase =>
    refine ⟨fun wd h => ?_, hlater, fun h => Phase.noConfusion h⟩
    rw [← Option.some.inj h]
    exact lt_add_one s.nextWd
  | wait hphase => exact waitStep_numbered hn hphase
  | remove hphase =>
    refine ⟨fun wd h => absurd h (by simp), fun e he => ?_, fun h => Phase.noConfusion h⟩
    rcases List.mem_append.mp he with he | he
    · exact hn.events e he
    · obtain ⟨wd, hwd, rfl⟩ := List.mem_map.mp he
      exact ⟨hn.parent wd (Option.mem_toList.mp hwd), Nat.zero_le _⟩
  | stay hphase => exact hn

theorem step_numbered (path : CText) (s : SetUp) (a : Action) (hs : Sane path s)
    (hn : Numbered s) : Numbered (step path s a) := by
  cases a with
  | monitor env => exact (monitorStep_moves path env s).numbered hs hn
  | createCorpus =>
    unfold step
    dsimp only
    split_ifs with hskip
    · exact hn
    · have hshort : (entryName path).length ≤ nameMax := by
        simp only [Bool.or_eq_true, decide_eq_true_eq, not_or, not_lt] at hskip
        exact hskip.2
      have hcreated := hn.create (inCreate ||| inIsDir) hshort
      exact ⟨hcreated.parent, hcreated.events, hcreated.watch⟩
  | createOther name =>
    unfold step
    dsimp only
    split_ifs with hskip
    · exact hn
    · simp only [Bool.or_eq_true, decide_eq_true_eq, not_or, not_lt] at hskip
      exact hn.create inCreate hskip.2
  | interrupt => exact ⟨hn.parent, hn.events, hn.watch⟩

/-- The second loop starts with a queue whose events are none of the corpus watch. -/
theorem watching_delivered (path : CText) (corpusExists : Bool) (acts : List Action)
    (h : (acts.foldl (step path) (.start corpusExists)).phase = .watching) :
    ∀ e ∈ (acts.foldl (step path) (.start corpusExists)).queue,
      Delivered (acts.foldl (step path) (.start corpusExists)).watchD e := by
  have hrun : Sane path (acts.foldl (step path) (.start corpusExists)) ∧
      Numbered (acts.foldl (step path) (.start corpusExists)) := by
    apply foldl_keeps (I := fun s => Sane path s ∧ Numbered s)
    · exact fun s a _ hs => ⟨step_sane path s a hs.1, step_numbered path s a hs.1 hs.2⟩
    · exact ⟨start_sane path corpusExists, by simp [SetUp.start], by simp [SetUp.start],
        by simp [SetUp.start]⟩
  intro e he
  have hearlier := (hrun.2.watch h).2 e he
  exact ⟨(hrun.2.events e he).2, fun heq => absurd heq (ne_of_lt hearlier)⟩

end FuzzMonitor.MonitorLoop
