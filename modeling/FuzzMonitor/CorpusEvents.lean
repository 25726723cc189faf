import FuzzMonitor.MonitorLoop
import FuzzMonitor.Runs

namespace FuzzMonitor.MonitorLoop
open CStrings Inotify Branches Perf Runs

def corpusEvent (wd : ℤ) (e : InEvent) : Bool :=
  decide (e.wd = wd ∧ e.mask &&& inCloseWrite = inCloseWrite ∧ e.name ≠ [])

def corpusFile (conf : LoopConf) (e : InEvent) : CText := conf.fuzzCorpusPath ++ '/' :: e.name

def corpusFiles (conf : LoopConf) (es : List InEvent) : List CText :=
  (es.filter (corpusEvent conf.watchD)).map (corpusFile conf)

/-- What the kernel queues: names of at most NAME_MAX bytes, and for the corpus watch, set
with IN_CLOSE_WRITE and IN_DELETE_SELF, no named event of another kind. -/
structure Delivered (wd : ℤ) (e : InEvent) : Prop where
  short : e.name.length ≤ nameMax
  mask : e.wd = wd → e.name ≠ [] → e.mask = inCloseWrite

/-- All events that arrived are queued or taken, and the loop tried to open exactly the files
of the corpus events taken, once for each event. -/
structure EventsKept (conf : LoopConf) (arrived : List InEvent) (s : LoopState) : Prop where
  conserved : s.taken ++ s.queue = arrived
  opened : s.opened = corpusFiles conf s.taken

/-- The answer of the read that a pass makes of the inotify descriptor; a pass that makes no
read takes as little from the queue as one whose read fails. -/
def passRead (s : LoopState) (env : PassEnv) : ReadAnswer :=
  if Receives s env ∧ env.zmq = .again ∧ env.inotifyFails = false then
    (readQueue inEventSize (s.queue ++ env.arrived)).1
  else .failed

/-- The read of a pass returns no corpus event behind another event, and the path of the
file that its first event is about fits the buffer for it. -/
def Separate (conf : LoopConf) (s : LoopState) (env : PassEnv) : Prop :=
  ∀ first others, passRead s env = .events first others →
    (∀ e ∈ others, corpusEvent conf.watchD e = false) ∧
      (corpusEvent conf.watchD first = true → (corpusFile conf first).length < pathMax)

theorem InEvent.len_eq_zero_iff (e : InEvent) : e.len = 0 ↔ e.name = [] := by
  unfold InEvent.len sizeofInEvent
  split_ifs with h
  · simp [h]
  · simp [h]

/-- The file that inotify_maybe_read opens: that of the first event, if it is a corpus event. -/
theorem inotifyMaybeRead_opened (conf : LoopConf) {first : InEvent} (others : List InEvent)
    (bufLen : ℕ) (file : CText → FileAnswer) (h : Delivered conf.watchD first) :
    (inotifyMaybeRead (.events first others) conf.watchD conf.fuzzCorpusPath bufLen file).opened =
      if corpusEvent conf.watchD first then some (snprintf pathMax (corpusFile conf first))
      else none := by
  have hlen := InEvent.len_eq_zero_iff first
  have hread : ∀ path answer, (readCorpusFile path answer bufLen).opened = some path := by
    intro path answer
    cases answer <;> rfl
  unfold inotifyMaybeRead corpusEvent
  dsimp only
  by_cases hwd : first.wd = conf.watchD
  · rw [if_neg (not_not.mpr hwd)]
    by_cases hname : first.name = []
    · simp only [hlen.mpr hname, if_true, hname, ne_eq, not_true, and_false,
        decide_false, Bool.false_eq_true, if_false]
      split_ifs <;> rfl
    · have hmask := h.mask hwd hname
      rw [if_neg (by rw [hmask]; decide), if_neg (fun h => hname (hlen.mp h)),
        if_pos (by rw [hmask]; simp [hwd, hname]), hread]
      rfl
  · rw [if_pos hwd, if_neg (by simp [hwd])]

/-- One read keeps up with the events exactly when the corpus events it takes come first. -/
theorem read_opened_iff (conf : LoopConf) {first : InEvent} (others : List InEvent) (bufLen : ℕ)
    (file : CText → FileAnswer) (h : Delivered conf.watchD first) :
    (inotifyMaybeRead (.events first others) conf.watchD conf.fuzzCorpusPath bufLen
        file).opened.toList = corpusFiles conf (first :: others) ↔
      (∀ e ∈ others, corpusEvent conf.watchD e = false) ∧
        (corpusEvent conf.watchD first = true → (corpusFile conf first).length < pathMax) := by
  have hothers : corpusFiles conf others = [] ↔ ∀ e ∈ others, corpusEvent conf.watchD e = false := by
    unfold corpusFiles
    rw [List.map_eq_nil_iff, List.filter_eq_nil_iff]
    simp
  have hfits : snprintf pathMax (corpusFile conf first) = corpusFile conf first ↔ _ :=
    snprintf_eq_iff (by decide)
  rw [inotifyMaybeRead_opened conf others bufLen file h, ← hothers]
  cases hfirst : corpusEvent conf.watchD first with
  | true =>
    have hcons : corpusFiles conf (first :: others) =
        corpusFile conf first :: corpusFiles conf others := by
      unfold corpusFiles
      rw [List.filter_cons_of_pos hfirst, List.map_cons]
    rw [hcons, if_pos rfl, Option.toList_some, List.cons.injEq, hfits, eq_comm (a := [])]
    tauto
  | false =>
    have hcons : corpusFiles conf (first :: others) = corpusFiles conf others := by
      unfold corpusFiles
      rw [List.filter_cons_of_neg (by simp [hfirst])]
    rw [hcons, if_neg (by simp), Option.toList_none, eq_comm (a := [])]
    simp

structure SameReads (s s' : LoopState) : Prop where
  queue : s'.queue = s.queue
  taken : s'.taken = s.taken
  opened : s'.opened = s.opened

theorem SameReads.refl (s : LoopState) : SameReads s s := ⟨rfl, rfl, rfl⟩

theorem handleInput_sameReads (conf : LoopConf) (env : PassEnv) (i : Input) (s : LoopState) :
    SameReads s (handleInput conf env i s) := by
  obtain ⟨seen, gbl, monitor, heap, outcomes, stop, h⟩ := handleInput_frame conf env i s
  rw [h]
  exact ⟨rfl, rfl, rfl⟩

structure Polled (conf : LoopConf) (env : PassEnv) (answer : ReadAnswer) (s s' : LoopState) :
    Prop where
  conserved : s'.taken ++ s'.queue = s.taken ++ s.queue
  taken : s'.taken = s.taken ++ answer.taken
  opened : s'.opened = s.opened ++
    (inotifyMaybeRead answer conf.watchD conf.fuzzCorpusPath bufSz env.file).opened.toList

theorem SameReads.polled {conf : LoopConf} {env : PassEnv} {s s' : LoopState}
    (h : SameReads s s') : Polled conf env .failed s s' := by
  refine ⟨?_, ?_, ?_⟩
  · rw [h.taken, h.queue]
  · rw [h.taken]
    exact (List.append_nil _).symm
  · rw [h.opened]
    exact (List.append_nil _).symm

theorem Polled.trans {conf : LoopConf} {env : PassEnv} {answer : ReadAnswer}
    {s₁ s₂ s₃ : LoopState} (h : Polled conf env answer s₁ s₂) (h' : SameReads s₂ s₃) :
    Polled conf env answer s₁ s₃ := by
  refine ⟨?_, ?_, ?_⟩
  · rw [h'.taken, h'.queue]
    exact h.conserved
  · rw [h'.taken]
    exact h.taken
  · rw [h'.opened]
    exact h.opened

theorem receiveCorpus_polled (conf : LoopConf) (env : PassEnv) (s : LoopState) :
    Polled conf env (if env.inotifyFails then .failed else (readQueue inEventSize s.queue).1) s
      (receiveCorpus conf env s).2 := by
  unfold receiveCorpus
  cases hfails : env.inotifyFails with
  | true =>
    dsimp only
    simp only [if_true]
    split_ifs <;> exact ⟨by simp [ReadAnswer.taken], rfl, rfl⟩
  | false =>
    have hqueue : s.taken ++ (readQueue inEventSize s.queue).1.taken ++
        (readQueue inEventSize s.queue).2 = s.taken ++ s.queue := by
      rw [List.append_assoc, readQueue_taken]
    dsimp only
    simp only [Bool.false_eq_true, if_false]
    split_ifs <;> exact ⟨hqueue, rfl, rfl⟩

theorem receive_polled (conf : LoopConf) {env : PassEnv} {s s' : LoopState}
    (hs' : SameReads (arrive s env) s') (hgo : Receives s env) :
    Polled conf env (passRead s env) (arrive s env) (receive conf env s').2 := by
  have hread : env.zmq = .again → passRead s env =
      if env.inotifyFails then .failed else (readQueue inEventSize s'.queue).1 := by
    intro hagain
    unfold passRead
    rw [hs'.queue]
    cases hfails : env.inotifyFails with
    | true => simp
    | false =>
      rw [if_pos ⟨hgo, hagain, rfl⟩]
      rfl
  have hnone : env.zmq ≠ .again → passRead s env = .failed := by
    intro hother
    unfold passRead
    rw [if_neg fun h => hother h.2.1]
  unfold receive
  split
  · next hmessage =>
    rw [hnone (by rw [hmessage]; exact ZmqAnswer.noConfusion)]
    exact hs'.polled
  · next hagain =>
    rw [hread hagain]
    obtain ⟨hconserved, htaken, hopened⟩ := receiveCorpus_polled conf env s'
    rw [hs'.taken, hs'.queue] at hconserved
    rw [hs'.taken] at htaken
    rw [hs'.opened] at hopened
    exact ⟨hconserved, htaken, hopened⟩
  · next hfailed =>
    rw [hnone (by rw [hfailed]; exact ZmqAnswer.noConfusion)]
    apply SameReads.polled
    dsimp only
    split_ifs <;> exact ⟨hs'.queue, hs'.taken, hs'.opened⟩

theorem pass_polled (conf : LoopConf) (env : PassEnv) (s : LoopState) :
    Polled conf env (passRead s env) (arrive s env) (pass conf s env) := by
  have hidle : ¬Receives s env → passRead s env = .failed := by
    intro hstop
    unfold passRead
    rw [if_neg fun h => hstop h.1]
  by_cases hgo : Receives s env
  · have hpolled := receive_polled conf (SameReads.refl (arrive s env)) hgo
    rw [pass_of_receives conf hgo]
    cases hreceive : receive conf env (arrive s env) with
    | mk receipt s₁ =>
      rw [hreceive] at hpolled
      cases receipt with
      | stopped stop => exact hpolled.trans ⟨rfl, rfl, rfl⟩
      | nothing => exact hpolled
      | input i => exact hpolled.trans (handleInput_sameReads conf env i s₁)
  · rw [hidle hgo]
    rcases pass_of_not_receives conf hgo with h | h
    · rw [h]
      exact (SameReads.refl _).polled
    · rw [h]
      exact SameReads.polled ⟨rfl, rfl, rfl⟩

theorem pass_opened_iff (conf : LoopConf) (env : PassEnv) (s : LoopState)
    (hqueue : ∀ e ∈ s.queue ++ env.arrived, Delivered conf.watchD e)
    (hs : s.opened = corpusFiles conf s.taken) :
    (pass conf s env).opened = corpusFiles conf (pass conf s env).taken ↔ Separate conf s env := by
  obtain ⟨-, htaken, hopened⟩ := pass_polled conf env s
  have hsplit : corpusFiles conf (s.taken ++ (passRead s env).taken) =
      corpusFiles conf s.taken ++ corpusFiles conf (passRead s env).taken := by
    unfold corpusFiles
    rw [List.filter_append, List.map_append]
  change (pass conf s env).taken = s.taken ++ (passRead s env).taken at htaken
  change (pass conf s env).opened = s.opened ++ _ at hopened
  rw [htaken, hopened, hs, hsplit, List.append_cancel_left_eq]
  unfold Separate
  cases hread : passRead s env with
  | again => exact iff_of_true rfl (by simp)
  | failed => exact iff_of_true rfl (by simp)
  | events first others =>
    have hfirst : Delivered conf.watchD first := by
      apply hqueue
      unfold passRead at hread
      split_ifs at hread
      have hkept := readQueue_taken inEventSize (s.queue ++ env.arrived)
      rw [hread] at hkept
      rw [← hkept]
      exact List.mem_cons_self
    refine (read_opened_iff conf others bufSz env.file hfirst).trans ⟨?_, ?_⟩
    · rintro h first' others' heq
      cases heq
      exact h
    · intro h
      exact h first others rfl

/-- No pass loses an event on its way from the queue to the record. -/
theorem pass_conserved (conf : LoopConf) (env : PassEnv) (s : LoopState) :
    (pass conf s env).taken ++ (pass conf s env).queue = s.taken ++ s.queue ++ env.arrived := by
  rw [(pass_polled conf env s).conserved, List.append_assoc]
  rfl

theorem pass_queue (conf : LoopConf) (env : PassEnv) (s : LoopState) :
    (passRead s env).taken ++ (pass conf s env).queue = s.queue ++ env.arrived := by
  have h := pass_conserved conf env s
  have htaken : (pass conf s env).taken = s.taken ++ (passRead s env).taken :=
    (pass_polled conf env s).taken
  rw [htaken, List.append_assoc, List.append_assoc] at h
  exact List.append_cancel_left h

theorem passes_conserved (conf : LoopConf) (envs : List PassEnv) (s : LoopState) :
    (envs.foldl (pass conf) s).taken ++ (envs.foldl (pass conf) s).queue =
      s.taken ++ s.queue ++ envs.flatMap PassEnv.arrived := by
  induction envs generalizing s with
  | nil => exact (List.append_nil _).symm
  | cons env envs ih =>
    rw [List.foldl_cons, ih, pass_conserved, List.flatMap_cons, List.append_assoc]

/-- All along a run every event that arrives is queued or handled exactly when each read
keeps the corpus events apart. -/
theorem corpusEvents_kept_iff (conf : LoopConf) (m : Monitor) (g : GblStatus) (heap : ℕ)
    (queue : List InEvent) (envs : List PassEnv)
    (hqueue : ∀ e ∈ queue, Delivered conf.watchD e)
    (harrived : ∀ env ∈ envs, ∀ e ∈ env.arrived, Delivered conf.watchD e) :
    (∀ xs, xs <+: envs → EventsKept conf (queue ++ xs.flatMap PassEnv.arrived)
      (xs.foldl (pass conf) (.enter m g heap queue))) ↔
    Guarded (pass conf) (Separate conf) (.enter m g heap queue) envs := by
  rw [← always_iff_guarded
    (I := fun s => s.opened = corpusFiles conf s.taken)
    (J := fun s => ∀ e ∈ s.queue, Delivered conf.watchD e)
    (K := fun env => ∀ e ∈ env.arrived, Delivered conf.watchD e)
    ?_ ?_ hqueue rfl harrived]
  · refine forall₂_congr fun xs _ => ⟨EventsKept.opened, fun hopened => ⟨?_, hopened⟩⟩
    exact passes_conserved conf xs (.enter m g heap queue)
  · intro s env hs henv
    have hall := List.forall_mem_append.mpr ⟨hs, henv⟩
    rw [← pass_queue conf env s] at hall
    exact (List.forall_mem_append.mp hall).2
  · intro s env hs henv hopened
    apply pass_opened_iff conf env s _ hopened
    exact List.forall_mem_append.mpr ⟨hs, henv⟩

def closeWrite (name : CText) : InEvent := ⟨1, inCloseWrite, name⟩

theorem corpusEvents_kept_single :
    EventsKept sampleConf [closeWrite ['a']]
      (pass sampleConf (sampleLoop []) (.quiet .again [closeWrite ['a']])) := by
  refine (corpusEvents_kept_iff sampleConf _ _ _ []
    [PassEnv.quiet .again [closeWrite ['a']]] (by simp) ?_).mpr ⟨?_, trivial⟩ _ (List.prefix_refl _)
  · intro env henv e he
    obtain rfl := List.mem_singleton.mp henv
    obtain rfl := List.mem_singleton.mp he
    exact ⟨by decide, fun _ _ => rfl⟩
  · intro first others h
    have hread : passRead (sampleLoop []) (.quiet .again [closeWrite ['a']]) =
        .events (closeWrite ['a']) [] := by decide
    cases hread.symm.trans h
    exact ⟨by simp, fun _ => by decide⟩

/-- Two files closed before one poll: the read takes both events and opens the first file. -/
theorem corpusEvents_lost :
    (pass sampleConf (sampleLoop []) (.quiet .again [closeWrite ['a'], closeWrite ['b']])).taken =
        [closeWrite ['a'], closeWrite ['b']] ∧
      (pass sampleConf (sampleLoop [])
        (.quiet .again [closeWrite ['a'], closeWrite ['b']])).opened = ["corpus/a".toList] ∧
      ¬EventsKept sampleConf [closeWrite ['a'], closeWrite ['b']]
        (pass sampleConf (sampleLoop []) (.quiet .again [closeWrite ['a'], closeWrite ['b']])) := by
  refine ⟨by decide, by decide, fun h => ?_⟩
  exact absurd h.opened (by decide)

end FuzzMonitor.MonitorLoop
