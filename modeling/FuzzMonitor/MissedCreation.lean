import FuzzMonitor.WaitCreation

namespace FuzzMonitor.MonitorLoop
open CStrings Inotify Runs

/-- The monitor waits for an event that will not come. -/
def Missed (path : CText) (s : SetUp) : Prop :=
  s.corpusExists = true ∧ s.phase = .reading ∧ ∀ e ∈ s.queue, corpusCreated path e = false

instance (path : CText) (s : SetUp) : Decidable (Missed path s) :=
  inferInstanceAs (Decidable (_ ∧ _ ∧ _))

/-- The step does not start the wait when the directory exists already, and does not read the
event of its creation behind an event that the wait passes over. -/
def Harmless (path : CText) (s : SetUp) : Action → Prop
  | .monitor env =>
    (s.phase = .addParent → watchesParent path env s = true → s.corpusExists = false) ∧
    (s.phase = .reading → ∀ first others, waitRead env s = .events first others →
      endsWait path first = false → ∀ e ∈ others, corpusCreated path e = false)
  | _ => True

/-- The event of the creation stays queued behind the first event of a read exactly when it
is not among the others that the read takes. -/
theorem missed_read_iff {path : CText} {s : SetUp} (hs : Sane path s)
    (hphase : s.phase = .reading) (hok : ¬Missed path s) {first : InEvent}
    {others queue : List InEvent}
    (hread : readQueue inEventSize s.queue = (.events first others, queue))
    (hwait : endsWait path first = false) :
    ¬Missed path { s with queue := queue } ↔ ∀ e ∈ others, corpusCreated path e = false := by
  have hfirst : corpusCreated path first = false := by
    by_contra h
    rw [endsWait_of_corpusCreated (by simpa using h)] at hwait
    exact Bool.noConfusion hwait
  have hqueue : s.queue = first :: (others ++ queue) := by
    have hkept := readQueue_taken inEventSize s.queue
    rw [hread] at hkept
    exact hkept.symm
  cases hexists : s.corpusExists with
  | false =>
    have hnone := hs.uncreated (.inl hexists)
    rw [hqueue] at hnone
    refine iff_of_true (fun h => Bool.noConfusion h.1) fun e he => ?_
    exact hnone e (List.mem_cons_of_mem _ (List.mem_append_left _ he))
  | true =>
    -- the one event of the creation is read as another event or left in the queue
    have hsome : ∃ e ∈ others ++ queue, corpusCreated path e = true := by
      by_contra hno
      refine hok ⟨hexists, hphase, ?_⟩
      rw [hqueue]
      intro e he
      rcases List.mem_cons.mp he with rfl | he
      · exact hfirst
      · exact Bool.eq_false_iff.mpr fun hc => hno ⟨e, he, hc⟩
    have honce := hs.once
    rw [hqueue, List.filter_cons_of_neg (by simp [hfirst]), List.filter_append,
      List.length_append] at honce
    constructor
    · intro hleft e he
      by_contra hcreated
      have hpos : 0 < (others.filter (corpusCreated path)).length :=
        List.length_pos_of_mem (List.mem_filter.mpr ⟨he, by simpa using hcreated⟩)
      refine hleft ⟨rfl, hphase, fun e' he' => ?_⟩
      by_contra hcreated'
      have hpos' : 0 < (queue.filter (corpusCreated path)).length :=
        List.length_pos_of_mem (List.mem_filter.mpr ⟨he', by simpa using hcreated'⟩)
      omega
    · rintro hothers ⟨-, -, hrest⟩
      obtain ⟨e, he, hcreated⟩ := hsome
      rcases List.mem_append.mp he with he | he
      · simp [hothers e he] at hcreated
      · simp [hrest e he] at hcreated

theorem missed_waitStep_iff {path : CText} {env : StepEnv} {s : SetUp} (hs : Sane path s)
    (hphase : s.phase = .reading) (hok : ¬Missed path s) :
    ¬Missed path (waitStep path env s) ↔ Harmless path s (.monitor env) := by
  unfold Harmless
  simp only [hphase, reduceCtorEq, false_imp_iff, true_and, true_imp_iff]
  rcases waitStep_cases path env s with ⟨ha, h⟩ | ⟨ha, h⟩ | ⟨first, others, queue, ha, hread, h⟩
  · rw [h, ha]
    exact iff_of_true hok fun _ _ heq => ReadAnswer.noConfusion heq
  · rw [h, ha]
    exact iff_of_true (fun hm => Phase.noConfusion hm.2.1) fun _ _ heq => ReadAnswer.noConfusion heq
  · rw [h, ha]
    cases hends : endsWait path first with
    | true =>
      refine iff_of_true (fun hm => Phase.noConfusion hm.2.1) ?_
      rintro _ _ heq hwait
      cases heq
      exact Bool.noConfusion (hends.symm.trans hwait)
    | false =>
      simp only [Bool.false_eq_true, if_false]
      rw [missed_read_iff hs hphase hok hread hends]
      constructor
      · rintro hothers _ _ heq -
        cases heq
        exact hothers
      · intro hall
        exact hall first others rfl hends

theorem missed_addParent_iff {path : CText} {env : StepEnv} {s : SetUp} (hs : Sane path s)
    (hphase : s.phase = .addParent) :
    ¬Missed path (monitorStep path env s) ↔
      (watchesParent path env s = true → s.corpusExists = false) := by
  unfold monitorStep
  rw [hphase]
  dsimp only
  cases hwatch : watchesParent path env s with
  | false => exact iff_of_true (fun hm => Phase.noConfusion hm.2.1) (by simp)
  | true =>
    simp only [Bool.not_true, Bool.false_eq_true, if_false, true_imp_iff]
    rw [← Bool.not_eq_true, not_iff_not]
    exact ⟨fun hm => hm.1, fun hexists => ⟨hexists, rfl, hs.uncreated (.inr hphase)⟩⟩

theorem Moves.not_reading {path : CText} {env : StepEnv} {s s' : SetUp} (h : Moves path env s s')
    (hparent : s.phase ≠ .addParent) (hreading : s.phase ≠ .reading) : s'.phase ≠ .reading := by
  cases h with
  | leave p hleft => rcases hleft with rfl | rfl <;> simp
  | watch hphase => simp
  | absent hphase hexists => simp
  | watchParent hphase => exact absurd hphase hparent
  | wait hphase => exact absurd hphase hreading
  | remove hphase => simp
  | stay hphase => exact hphase

theorem missed_create {path : CText} {s : SetUp} (hok : ¬Missed path s) (mask : UInt32)
    (name : CText) : ¬Missed path (s.create mask name) := by
  rintro ⟨hexists, hphase, hnone⟩
  exact hok ⟨hexists, hphase, fun e he => hnone e (List.mem_append_left _ he)⟩

/-- While the monitor waits, the creation is queued. -/
theorem missed_createCorpus {path : CText} {s : SetUp} (hs : Sane path s)
    (hok : ¬Missed path s) : ¬Missed path (step path s .createCorpus) := by
  unfold step
  dsimp only
  split_ifs
  · exact hok
  · rintro ⟨-, hphase, hnone⟩
    obtain ⟨wd, hwd⟩ := Option.ne_none_iff_exists'.mp (hs.watched hphase)
    have hcreated : corpusCreated path ⟨wd, inCreate ||| inIsDir, entryName path⟩ = true := by
      have hmask : (inCreate ||| inIsDir) &&& inCreate = inCreate := by decide
      unfold corpusCreated
      rw [Bool.and_eq_true, decide_eq_true_eq, decide_eq_true_eq]
      exact ⟨hmask, rfl⟩
    have hmem : ⟨wd, inCreate ||| inIsDir, entryName path⟩ ∈
        (s.create (inCreate ||| inIsDir) (entryName path)).queue := by
      unfold SetUp.create
      rw [hwd]
      simp
    rw [hnone _ hmem] at hcreated
    exact Bool.noConfusion hcreated

/-- A step leads to a missed creation exactly when it is not harmless. -/
theorem missed_step_iff {path : CText} {s : SetUp} (a : Action) (hs : Sane path s)
    (hok : ¬Missed path s) : ¬Missed path (step path s a) ↔ Harmless path s a := by
  cases a with
  | monitor env =>
    by_cases hparent : s.phase = .addParent
    · refine (missed_addParent_iff hs hparent).trans
        ⟨fun h => ⟨fun _ => h, ?_⟩, fun h => h.1 hparent⟩
      rw [hparent]
      exact fun h => Phase.noConfusion h
    · by_cases hreading : s.phase = .reading
      · have hwait : step path s (.monitor env) = waitStep path env s := by
          unfold step monitorStep
          rw [hreading]
        rw [hwait]
        exact missed_waitStep_iff hs hreading hok
      · refine iff_of_true ?_ ⟨fun h => absurd h hparent, fun h => absurd h hreading⟩
        rintro ⟨-, hphase, -⟩
        exact (monitorStep_moves path env s).not_reading hparent hreading hphase
  | createCorpus => exact iff_of_true (missed_createCorpus hs hok) trivial
  | createOther name =>
    refine iff_of_true ?_ trivial
    unfold step
    dsimp only
    split_ifs
    · exact hok
    · exact missed_create hok inCreate name
  | interrupt => exact iff_of_true hok trivial

/-- In no state of a run does the monitor wait for an event that will not come exactly when no
wait starts behind the creation, and none reads its event behind another one. -/
theorem creation_missed_iff (path : CText) (corpusExists : Bool) (acts : List Action) :
    (∀ xs, xs <+: acts → ¬Missed path (xs.foldl (step path) (.start corpusExists))) ↔
      Guarded (step path) (Harmless path) (.start corpusExists) acts :=
  always_iff_guarded (I := fun s => ¬Missed path s) (J := Sane path) (K := fun _ => True)
    (fun s a hs _ => step_sane path s a hs) (fun _ a hs _ hok => missed_step_iff a hs hok)
    (start_sane path corpusExists) (fun h => Phase.noConfusion h.2.1) fun _ _ => trivial

def StepEnv.succeed : StepEnv := ⟨true, false, true⟩

def samplePath : CText := "out/queue".toList

/-- The directory is created between the failed watch of it and the watch of its parent, or
right behind another entry, so that one read takes both events. -/
theorem creation_missed_race :
    Missed samplePath ([Action.monitor .succeed, .createCorpus, .monitor .succeed].foldl
      (step samplePath) (.start false)) ∧
    Missed samplePath ([Action.monitor .succeed, .monitor .succeed, .createOther "crashes".toList,
      .createCorpus, .monitor .succeed].foldl (step samplePath) (.start false)) := by
  decide

end FuzzMonitor.MonitorLoop
