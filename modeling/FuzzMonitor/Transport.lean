import Mathlib

namespace FuzzMonitor.Transport

variable {P M Z : Type*}

/-- The calls of a transport from many senders to one receiver, on its own states: whether a
message is accepted, and the next message, if there is one. -/
structure Sockets (P M Z : Type*) where
  send : P → M → Z → Bool × Z
  receive : Z → Option M × Z

/-- What the calls do to the messages that wait in the transport: an accepted message waits behind
those of its sender, a receiver gets the first one of a sender, and no call touches other
messages. With Eq for rel nothing is lost, with List.Sublist messages may be. -/
structure Keeps (rel : List M → List M → Prop) (t : Sockets P M Z) (waiting : Z → P → List M) :
    Prop where
  accepted : ∀ p m z, (t.send p m z).1 = true →
    rel (waiting (t.send p m z).2 p) (waiting z p ++ [m])
  refused : ∀ p m z, (t.send p m z).1 = false → rel (waiting (t.send p m z).2 p) (waiting z p)
  others : ∀ p m z q, q ≠ p → rel (waiting (t.send p m z).2 q) (waiting z q)
  received : ∀ z m z', t.receive z = (some m, z') → ∃ p,
    rel (m :: waiting z' p) (waiting z p) ∧ ∀ q, q ≠ p → rel (waiting z' q) (waiting z q)
  empty : ∀ z z', t.receive z = (none, z') → ∀ p, rel (waiting z' p) (waiting z p)

abbrev Lossless (t : Sockets P M Z) (waiting : Z → P → List M) : Prop := Keeps Eq t waiting

theorem Keeps.mono {rel rel' : List M → List M → Prop} {t : Sockets P M Z}
    {waiting : Z → P → List M} (himp : ∀ {l₁ l₂}, rel l₁ l₂ → rel' l₁ l₂)
    (h : Keeps rel t waiting) : Keeps rel' t waiting where
  accepted p m z hok := himp (h.accepted p m z hok)
  refused p m z hno := himp (h.refused p m z hno)
  others p m z q hq := himp (h.others p m z q hq)
  received z m z' hreceive := by
    obtain ⟨p, hself, hothers⟩ := h.received z m z' hreceive
    exact ⟨p, himp hself, fun q hq => himp (hothers q hq)⟩
  empty z z' hreceive p := himp (h.empty z z' hreceive p)

/-- A relation between what is left of some messages and these messages. -/
structure Leaves (rel : List M → List M → Prop) : Prop where
  refl : ∀ l, rel l l
  trans : ∀ {l₁ l₂ l₃}, rel l₁ l₂ → rel l₂ l₃ → rel l₁ l₃
  append_left : ∀ l {l₁ l₂}, rel l₁ l₂ → rel (l ++ l₁) (l ++ l₂)
  append_right : ∀ l {l₁ l₂}, rel l₁ l₂ → rel (l₁ ++ l) (l₂ ++ l)

theorem leaves_eq : Leaves (Eq (α := List M)) :=
  ⟨fun _ => rfl, Eq.trans, fun _ _ _ h => h ▸ rfl, fun _ _ _ h => h ▸ rfl⟩

section Senders
variable [DecidableEq P]

def ofSender (p : P) (taken : List (P × M)) : List M :=
  (taken.filter fun t => t.1 = p).map Prod.snd

theorem ofSender_concat_self (p : P) (taken : List (P × M)) (m : M) :
    ofSender p (taken ++ [(p, m)]) = ofSender p taken ++ [m] := by
  unfold ofSender
  rw [List.filter_append, List.map_append]
  simp

theorem ofSender_concat_of_ne {p q : P} (h : q ≠ p) (taken : List (P × M)) (m : M) :
    ofSender q (taken ++ [(p, m)]) = ofSender q taken := by
  unfold ofSender
  rw [List.filter_append, List.map_append]
  simp [h.symm]

/-- What was taken from a sender and what waits of it is left of what was accepted from it. -/
def Delivered (rel : List M → List M → Prop) (held : P → List M) (taken : List (P × M))
    (put : P → List M) : Prop := ∀ p, rel (ofSender p taken ++ held p) (put p)

variable {rel : List M → List M → Prop} {t : Sockets P M Z} {waiting : Z → P → List M} {z : Z}
  {taken : List (P × M)} {put : P → List M}

theorem Delivered.mono (hrel : Leaves rel) {held held' : P → List M}
    (h : Delivered rel held taken put) (hheld : ∀ p, rel (held' p) (held p)) :
    Delivered rel held' taken put :=
  fun p => hrel.trans (hrel.append_left _ (hheld p)) (h p)

theorem Keeps.send_accepted (ht : Keeps rel t waiting) (hrel : Leaves rel)
    (h : Delivered rel (waiting z) taken put) {p : P} {m : M} (hok : (t.send p m z).1 = true) :
    Delivered rel (waiting (t.send p m z).2) taken (Function.update put p (put p ++ [m])) := by
  intro q
  by_cases hq : q = p
  · subst hq
    have hgrown := hrel.append_left (ofSender q taken) (ht.accepted q m z hok)
    rw [← List.append_assoc] at hgrown
    rw [Function.update_self]
    exact hrel.trans hgrown (hrel.append_right [m] (h q))
  · rw [Function.update_of_ne hq]
    exact hrel.trans (hrel.append_left _ (ht.others p m z q hq)) (h q)

theorem Keeps.send_refused (ht : Keeps rel t waiting) (hrel : Leaves rel)
    (h : Delivered rel (waiting z) taken put) {p : P} {m : M} (hno : (t.send p m z).1 = false) :
    Delivered rel (waiting (t.send p m z).2) taken put := by
  refine h.mono hrel fun q => ?_
  by_cases hq : q = p
  · subst hq
    exact ht.refused q m z hno
  · exact ht.others p m z q hq

/-- A received message is the next one of some sender. -/
theorem Keeps.receive_some (ht : Keeps rel t waiting) (hrel : Leaves rel)
    (h : Delivered rel (waiting z) taken put) {m : M} {z' : Z}
    (hreceive : t.receive z = (some m, z')) :
    ∃ p, Delivered rel (waiting z') (taken ++ [(p, m)]) put := by
  obtain ⟨p, hself, hothers⟩ := ht.received z m z' hreceive
  refine ⟨p, fun q => ?_⟩
  by_cases hq : q = p
  · subst hq
    have hshrunk := hrel.append_left (ofSender q taken) hself
    rw [ofSender_concat_self, List.append_assoc]
    exact hrel.trans hshrunk (h q)
  · rw [ofSender_concat_of_ne hq]
    exact hrel.trans (hrel.append_left _ (hothers q hq)) (h q)

/-- A queue for each sender; the receiver looks at them in the given order. -/
def queues (ps : List P) : Sockets P M (P → List M) where
  send p m z := (true, Function.update z p (z p ++ [m]))
  receive z :=
    match ps.find? fun p => !(z p).isEmpty with
    | none => (none, z)
    | some p => ((z p).head?, Function.update z p (z p).tail)

omit [DecidableEq P] in
theorem queues_found {ps : List P} {z : P → List M} {p : P}
    (h : (ps.find? fun p => !(z p).isEmpty) = some p) : ∃ m rest, z p = m :: rest := by
  have hp := List.find?_some h
  cases hz : z p with
  | nil => simp [hz] at hp
  | cons m rest => exact ⟨m, rest, rfl⟩

theorem queues_lossless (ps : List P) : Lossless (queues (M := M) ps) fun z => z where
  accepted p m z _ := Function.update_self p _ z
  refused p m z h := absurd h (by simp [queues])
  others p m z q h := Function.update_of_ne h _ z
  received z m z' h := by
    unfold queues at h
    dsimp only at h
    split at h
    · cases h
    · next p hfind =>
      obtain ⟨m', rest, hz⟩ := queues_found hfind
      rw [hz] at h
      cases h
      exact ⟨p, by rw [Function.update_self, hz]; rfl, fun q hq => Function.update_of_ne hq _ z⟩
  empty z z' h p := by
    unfold queues at h
    dsimp only at h
    split at h
    · cases h
      rfl
    · next p hfind =>
      obtain ⟨m', rest, hz⟩ := queues_found hfind
      rw [hz] at h
      cases h

end Senders
end FuzzMonitor.Transport
