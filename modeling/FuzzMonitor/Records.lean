import Mathlib

namespace FuzzMonitor.Records

variable {α β : Type*} [LinearOrder α]

/-- An observed value with the best one by then, and whether it is better than all before. -/
structure Entry (α : Type*) where
  value : α
  best : α
  isNew : Bool

def observe (best x : α) : Entry α := ⟨x, max best x, decide (best < x)⟩

/-- A program that compares values of its own type, and keeps the greater one, observes. -/
theorem entry_eq_observe {γ : Type*} [LT γ] [DecidableLT γ] {f : γ → α}
    (hf : ∀ a b : γ, a < b ↔ f a < f b) (best x : γ) :
    (⟨f x, f (if decide (x > best) then x else best), decide (x > best)⟩ : Entry α) =
      observe (f best) (f x) := by
  unfold observe
  rw [Entry.mk.injEq]
  by_cases h : x > best
  · have hlt : f best < f x := (hf best x).mp h
    rw [decide_eq_true h, if_pos rfl, max_eq_right hlt.le, decide_eq_true hlt]
    exact ⟨rfl, rfl, rfl⟩
  · have hle : ¬f best < f x := fun hlt => h ((hf best x).mpr hlt)
    rw [decide_eq_false h, if_neg Bool.false_ne_true, max_eq_left (not_lt.mp hle),
      decide_eq_false hle]
    exact ⟨rfl, rfl, rfl⟩

/-- The lines of an observer that starts with the best value b, and what is best by now; a line has
its entry among other things. -/
inductive Tracks (entry : β → Entry α) (b : α) : List β → α → Prop
  | nil : Tracks entry b [] b
  | concat {lines : List β} {best : α} (h : Tracks entry b lines best) {line : β} {x : α}
      (hline : entry line = observe best x) : Tracks entry b (lines ++ [line]) (max best x)

theorem Tracks.best_eq {entry : β → Entry α} {b best : α} {lines : List β}
    (h : Tracks entry b lines best) :
    best = (lines.map fun line => (entry line).value).foldl max b := by
  induction h with
  | nil => rfl
  | concat h hline ih =>
    rw [List.map_append, List.map_singleton, List.foldl_append, ← ih, hline]
    rfl

/-- A line shows the maximum up to itself, and is new if it exceeds the one before. -/
theorem Tracks.columns {entry : β → Entry α} {b best : α} {lines : List β}
    (h : Tracks entry b lines best) {before after : List β} {line : β}
    (hlines : lines = before ++ line :: after) :
    (entry line).best =
        ((before ++ [line]).map fun line => (entry line).value).foldl max b ∧
      ((entry line).isNew = true ↔
        (before.map fun line => (entry line).value).foldl max b < (entry line).value) := by
  induction h generalizing after with
  | nil => exact absurd hlines.symm (by simp)
  | @concat lines best h last x hlast ih =>
    rcases List.eq_nil_or_concat' after with rfl | ⟨after, other, rfl⟩
    · obtain ⟨rfl, hsame⟩ := List.append_inj' hlines rfl
      obtain ⟨rfl, -⟩ := List.cons_eq_cons.mp hsame
      rw [List.map_append, List.map_singleton, List.foldl_append, ← h.best_eq, hlast]
      exact ⟨rfl, decide_eq_true_iff⟩
    · rw [← List.cons_append, ← List.append_assoc] at hlines
      exact ih (List.append_inj' hlines rfl).1

/-- Whoever sees all new lines, and perhaps others, knows the best value from the last one. -/
theorem Tracks.filter {entry : β → Entry α} {b best : α} {lines : List β}
    (h : Tracks entry b lines best) {p : β → Bool}
    (hp : ∀ line ∈ lines, (entry line).isNew = true → p line = true) :
    (((lines.filter p).getLast?).map fun line => (entry line).best).getD b = best := by
  induction h with
  | nil => rfl
  | @concat lines best h last x hlast ih =>
    have hprev := ih fun line hline => hp line (List.mem_append_left _ hline)
    have hbest : (entry last).best = max best x := by
      rw [hlast]
      rfl
    rw [List.filter_append]
    cases hseen : p last with
    | true =>
      rw [List.filter_cons_of_pos hseen, List.filter_nil, List.getLast?_concat]
      exact hbest
    | false =>
      have hold : ¬best < x := by
        intro hlt
        have hnew : (entry last).isNew = true := by
          rw [hlast]
          exact decide_eq_true hlt
        have hshown := hp last (List.mem_append_right _ (List.mem_singleton_self _)) hnew
        rw [hseen] at hshown
        contradiction
      rw [List.filter_cons_of_neg (by simp [hseen]), List.filter_nil, List.append_nil, hprev,
        max_eq_left (not_lt.mp hold)]

end FuzzMonitor.Records
