import Mathlib

namespace FuzzMonitor.Runs

variable {S E : Type*}

/-- Every event is allowed in the state in which it happens. -/
def Guarded (step : S → E → S) (P : S → E → Prop) : S → List E → Prop
  | _, [] => True
  | s, e :: es => P s e ∧ Guarded step P (step s e) es

instance Guarded.decidable {step : S → E → S} {P : S → E → Prop} [∀ s e, Decidable (P s e)] :
    ∀ (s : S) (es : List E), Decidable (Guarded step P s es)
  | _, [] => inferInstanceAs (Decidable True)
  | s, e :: es =>
    have : Decidable (Guarded step P (step s e) es) := Guarded.decidable (step s e) es
    inferInstanceAs (Decidable (P s e ∧ Guarded step P (step s e) es))

theorem guarded_append {step : S → E → S} {P : S → E → Prop} {s : S} {xs ys : List E} :
    Guarded step P s (xs ++ ys) ↔ Guarded step P s xs ∧ Guarded step P (xs.foldl step s) ys := by
  induction xs generalizing s with
  | nil => simp [Guarded]
  | cons x xs ih =>
    rw [List.cons_append, Guarded, Guarded, ih, List.foldl_cons, and_assoc]

theorem guarded_of_forall {step : S → E → S} {P : S → E → Prop} (h : ∀ s e, P s e) (s : S)
    (es : List E) : Guarded step P s es := by
  induction es generalizing s with
  | nil => trivial
  | cons e es ih => exact ⟨h s e, ih (step s e)⟩

theorem foldl_inert {step : S → E → S} {s : S} {es : List E} (h : ∀ e ∈ es, step s e = s) :
    es.foldl step s = s := by
  induction es with
  | nil => rfl
  | cons e es ih =>
    rw [List.foldl_cons, h e List.mem_cons_self]
    exact ih fun e' he' => h e' (List.mem_cons_of_mem _ he')

theorem foldl_keeps {step : S → E → S} {I : S → Prop} {s : S} {es : List E}
    (hstep : ∀ s, ∀ e ∈ es, I s → I (step s e)) (hs : I s) : I (es.foldl step s) := by
  induction es generalizing s with
  | nil => exact hs
  | cons e es ih =>
    apply ih (fun s e' he' => hstep s e' (List.mem_cons_of_mem _ he'))
    exact hstep s e List.mem_cons_self hs

/-- Where, among states with J and events with K, exactly the guarded events keep I, the
states all along a run have I exactly when all its events are guarded. -/
theorem always_iff_guarded {step : S → E → S} {I J : S → Prop} {K : E → Prop}
    {C : S → E → Prop} (hkeep : ∀ s e, J s → K e → J (step s e))
    (hstep : ∀ s e, J s → K e → I s → (I (step s e) ↔ C s e)) {s : S} {es : List E}
    (hJ : J s) (hI : I s) (hK : ∀ e ∈ es, K e) :
    (∀ xs, xs <+: es → I (xs.foldl step s)) ↔ Guarded step C s es := by
  induction es generalizing s with
  | nil =>
    refine iff_of_true (fun xs hxs => ?_) trivial
    rw [List.prefix_nil.mp hxs]
    exact hI
  | cons e es ih =>
    have he : K e := hK e List.mem_cons_self
    have hes : ∀ e' ∈ es, K e' := fun e' he' => hK e' (List.mem_cons_of_mem _ he')
    constructor
    · intro hall
      have hone : I (step s e) := hall [e] ⟨es, rfl⟩
      refine ⟨(hstep s e hJ he hI).mp hone, (ih (hkeep s e hJ he) hone hes).mp ?_⟩
      intro xs hxs
      exact hall (e :: xs) (List.cons_prefix_cons.mpr ⟨rfl, hxs⟩)
    · rintro ⟨hc, hrest⟩ xs hxs
      have hone : I (step s e) := (hstep s e hJ he hI).mpr hc
      cases xs with
      | nil => exact hI
      | cons x xs =>
        obtain ⟨rfl, hprefix⟩ := List.cons_prefix_cons.mp hxs
        exact (ih (hkeep s x hJ he) hone hes).mpr hrest xs hprefix

section UntilStop
variable (started finished : E → Bool)

/-- The events with an effect where a run stops in front of the first one that is not started, and
behind the first one that is not finished. -/
def untilStop : List E → List E
  | [] => []
  | e :: es => if !started e then [] else if !finished e then [e] else e :: untilStop es

variable {started finished}

theorem untilStop_of_all {es : List E} (h : ∀ e ∈ es, started e = true ∧ finished e = true) :
    untilStop started finished es = es := by
  induction es with
  | nil => rfl
  | cons e es ih =>
    obtain ⟨hstarted, hfinished⟩ := h e List.mem_cons_self
    unfold untilStop
    rw [hstarted, hfinished, ih fun e' he' => h e' (List.mem_cons_of_mem _ he')]
    rfl

theorem untilStop_append_of_stop {es : List E} (h : ∃ e ∈ es, (started e && finished e) = false)
    (fs : List E) : untilStop started finished (es ++ fs) = untilStop started finished es := by
  induction es with
  | nil => simp at h
  | cons e es ih =>
    rw [List.cons_append]
    unfold untilStop
    cases hstarted : started e with
    | false => rfl
    | true =>
      cases hfinished : finished e with
      | false => rfl
      | true =>
        have hrest : ∃ e ∈ es, (started e && finished e) = false := by
          obtain ⟨e', he', hstop⟩ := h
          rcases List.mem_cons.mp he' with rfl | he'
          · rw [hstarted, hfinished] at hstop
            contradiction
          · exact ⟨e', he', hstop⟩
        rw [ih hrest]

/-- The event behind a run without a stop has an effect if it is started. -/
theorem untilStop_concat_of_all {es : List E} (h : ∀ e ∈ es, started e = true ∧ finished e = true)
    (e : E) : untilStop started finished (es ++ [e]) = es ++ if started e then [e] else [] := by
  induction es with
  | nil =>
    rw [List.nil_append, List.nil_append]
    unfold untilStop untilStop
    cases started e <;> cases finished e <;> rfl
  | cons e' es ih =>
    obtain ⟨hstarted, hfinished⟩ := h e' List.mem_cons_self
    rw [List.cons_append, List.cons_append]
    unfold untilStop
    rw [hstarted, hfinished, ih fun d hd => h d (List.mem_cons_of_mem _ hd)]
    rfl

/-- Behind events that are not bad, one more decides whether there is a bad one. -/
theorem exists_mem_concat_iff {bad : E → Prop} {es : List E} (h : ∀ e ∈ es, ¬bad e) (e : E) :
    (∃ d ∈ es ++ [e], bad d) ↔ bad e := by
  constructor
  · rintro ⟨d, hd, hbad⟩
    rcases List.mem_append.mp hd with hd | hd
    · exact absurd hbad (h d hd)
    · rw [← List.mem_singleton.mp hd]
      exact hbad
  · exact fun hbad => ⟨e, List.mem_append_right _ List.mem_cons_self, hbad⟩

theorem untilStop_prefix (es : List E) : untilStop started finished es <+: es := by
  induction es with
  | nil => exact List.prefix_rfl
  | cons e es ih =>
    unfold untilStop
    split_ifs
    · exact List.nil_prefix
    · exact ⟨es, rfl⟩
    · exact List.cons_prefix_cons.mpr ⟨rfl, ih⟩

end UntilStop

inductive Run (R : S → E → S → Prop) : S → List E → S → Prop
  | nil (s : S) : Run R s [] s
  | cons {s u t : S} {e : E} {es : List E} (h : R s e u) (hrun : Run R u es t) :
      Run R s (e :: es) t

variable {R : S → E → S → Prop} {s t : S} {xs ys es : List E}

theorem Run.append {u : S} (h : Run R s xs u) (h' : Run R u ys t) : Run R s (xs ++ ys) t := by
  induction h with
  | nil s => exact h'
  | cons hstep _ ih => exact .cons hstep (ih h')

theorem Run.split (h : Run R s (xs ++ ys) t) : ∃ u, Run R s xs u ∧ Run R u ys t := by
  induction xs generalizing s with
  | nil => exact ⟨s, .nil s, h⟩
  | cons x xs ih =>
    cases h with
    | cons hstep hrun =>
      obtain ⟨u, hxs, hys⟩ := ih hrun
      exact ⟨u, .cons hstep hxs, hys⟩

/-- A relation to the inputs so far that each step extends holds of all inputs in the end. -/
theorem Run.history {J : S → List E → Prop} (h : Run R s es t) (hs : J s [])
    (hstep : ∀ s es e u, J s es → R s e u → J u (es ++ [e])) : J t es := by
  suffices hfrom : ∀ before, J s before → J t (before ++ es) from hfrom [] hs
  clear hs
  induction h with
  | nil s =>
    intro before hs
    rw [List.append_nil]
    exact hs
  | @cons s u t e es h _ ih =>
    intro before hs
    rw [List.append_cons]
    exact ih (before ++ [e]) (hstep s before e u hs h)

theorem Run.keeps {I : S → Prop} {C : E → Prop}
    (hstep : ∀ s e u, I s → R s e u → (I u ↔ C e)) (h : Run R s es t) (hs : I s)
    (hes : ∀ e ∈ es, C e) : I t := by
  induction h with
  | nil s => exact hs
  | @cons s u t e es h _ ih =>
    have hu := (hstep s e u hs h).mpr (hes e List.mem_cons_self)
    exact ih hu fun e' he' => hes e' (List.mem_cons_of_mem _ he')

/-- The invariant holds in every state of a run exactly when all its inputs are good. -/
theorem Run.always_iff {I : S → Prop} {C : E → Prop}
    (hstep : ∀ s e u, I s → R s e u → (I u ↔ C e)) (h : Run R s es t) (hs : I s) :
    (∀ xs ys u, es = xs ++ ys → Run R s xs u → Run R u ys t → I u) ↔ ∀ e ∈ es, C e := by
  constructor
  · intro hall e he
    obtain ⟨xs, ys, rfl⟩ := List.append_of_mem he
    obtain ⟨u, hxs, hrest⟩ := h.split
    -- the states before and after e both satisfy the invariant
    cases hrest with
    | @cons _ v _ _ _ hev hys =>
      have hu := hall xs (e :: ys) u rfl hxs (.cons hev hys)
      have hv := hall (xs ++ [e]) ys v (by simp) (hxs.append (.cons hev (.nil v))) hys
      exact (hstep u e v hu hev).mp hv
  · rintro hes xs ys u rfl hxs -
    exact hxs.keeps hstep hs fun e he => hes e (List.mem_append_left _ he)

end FuzzMonitor.Runs
