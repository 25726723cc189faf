import Mathlib

namespace FuzzMonitor.GetOpt

variable {C : Type*}

/-- The options that a program knows, with whether they take an argument, the letter that starts
an option word, and whether operands may stand in front of options. -/
structure Spec (C : Type*) where
  takesArg : C → Option Bool
  dash : C
  permute : Bool

inductive Found (C : Type*)
  | flag (c : C)
  | arg (c : C) (optarg : List C)
  | unknown (c : C)
  | missing (c : C)
  deriving DecidableEq, Repr

/-- The letters behind the dash of a word. The last one may be left waiting for the next word. -/
def cluster (spec : Spec C) : List C → List (Found C) × Option C
  | [] => ([], none)
  | c :: cs =>
    match spec.takesArg c with
    | none => (.unknown c :: (cluster spec cs).1, (cluster spec cs).2)
    | some false => (.flag c :: (cluster spec cs).1, (cluster spec cs).2)
    | some true => if cs = [] then ([], some c) else ([.arg c cs], none)

/-- A piece of a command line: flags in one word, with an option at its end whose argument is
attached or is the next word, or an operand. -/
inductive Piece (C : Type*)
  | flags (cs : List C)
  | attached (cs : List C) (c : C) (optarg : List C)
  | separate (cs : List C) (c : C) (optarg : List C)
  | operand (w : List C)
  deriving DecidableEq, Repr

def Piece.words (dash : C) : Piece C → List (List C)
  | .flags cs => [dash :: cs]
  | .attached cs c optarg => [dash :: (cs ++ c :: optarg)]
  | .separate cs c optarg => [dash :: (cs ++ [c]), optarg]
  | .operand w => [w]

def Piece.found : Piece C → List (Found C)
  | .flags cs => cs.map .flag
  | .attached cs c optarg => cs.map .flag ++ [.arg c optarg]
  | .separate cs c optarg => cs.map .flag ++ [.arg c optarg]
  | .operand _ => []

def Piece.operands : Piece C → List (List C)
  | .operand w => [w]
  | _ => []

theorem cluster_flags {spec : Spec C} {cs : List C} (h : ∀ c ∈ cs, spec.takesArg c = some false)
    (rest : List C) :
    cluster spec (cs ++ rest) =
      (cs.map .flag ++ (cluster spec rest).1, (cluster spec rest).2) := by
  induction cs with
  | nil => rfl
  | cons c cs ih =>
    have hrest := ih fun d hd => h d (List.mem_cons_of_mem _ hd)
    rw [List.cons_append, cluster, h c List.mem_cons_self, hrest]
    rfl

theorem cluster_arg {spec : Spec C} {c : C} (h : spec.takesArg c = some true) (optarg : List C) :
    cluster spec (c :: optarg) =
      if optarg = [] then ([], some c) else ([.arg c optarg], none) := by
  rw [cluster, h]

/-- The words that getopt looks at where it finds no option. -/
def looked (spec : Spec C) (ws : List (List C)) : List (List C) :=
  if spec.permute then ws else ws.take 1

theorem looked_cons (spec : Spec C) (w : List C) (ws : List (List C)) :
    looked spec (w :: ws) = w :: if spec.permute then looked spec ws else [] := by
  unfold looked
  cases spec.permute <;> rfl

section Words
variable [DecidableEq C]

def isOption (spec : Spec C) (w : List C) : Bool := w.head? = some spec.dash && w.tail ≠ []

/-- What all calls find in the words, and the operands that are left behind them; an option
may wait for the first word as its argument. -/
def getopt (spec : Spec C) : Option C → List (List C) → List (Found C) × List (List C)
  | none, [] => ([], [])
  | some c, [] => ([.missing c], [])
  | some c, w :: ws => (.arg c w :: (getopt spec none ws).1, (getopt spec none ws).2)
  | none, w :: ws =>
    if w = [spec.dash, spec.dash] then ([], ws)
    else if isOption spec w then
      let r := cluster spec w.tail
      (r.1 ++ (getopt spec r.2 ws).1, (getopt spec r.2 ws).2)
    else if spec.permute then ((getopt spec none ws).1, w :: (getopt spec none ws).2)
    else ([], w :: ws)

def Piece.Proper (spec : Spec C) : Piece C → Prop
  | .flags cs => cs ≠ [] ∧ ∀ c ∈ cs, spec.takesArg c = some false
  | .attached cs c optarg =>
    (∀ c ∈ cs, spec.takesArg c = some false) ∧ spec.takesArg c = some true ∧ optarg ≠ []
  | .separate cs c _ => (∀ c ∈ cs, spec.takesArg c = some false) ∧ spec.takesArg c = some true
  | .operand w => spec.permute = true ∧ isOption spec w = false

theorem getopt_word {spec : Spec C} (hdash : spec.takesArg spec.dash = none) {c : C} {cs : List C}
    (hknown : (spec.takesArg c).isSome) (ws : List (List C)) :
    getopt spec none ((spec.dash :: c :: cs) :: ws) =
      ((cluster spec (c :: cs)).1 ++ (getopt spec (cluster spec (c :: cs)).2 ws).1,
        (getopt spec (cluster spec (c :: cs)).2 ws).2) := by
  have hend : spec.dash :: c :: cs ≠ [spec.dash, spec.dash] := by
    intro heq
    rw [List.cons.injEq, List.cons.injEq] at heq
    rw [heq.2.1, hdash] at hknown
    contradiction
  have hopt : isOption spec (spec.dash :: c :: cs) = true := by simp [isOption]
  rw [getopt, if_neg hend, if_pos hopt]
  rfl

/-- Flags in front of the letters of a word are found first. -/
theorem getopt_flags {spec : Spec C} (hdash : spec.takesArg spec.dash = none) {cs : List C}
    (rest : List C) (hflags : ∀ c ∈ cs, spec.takesArg c = some false)
    (hrest : ∀ c ∈ rest.head?, (spec.takesArg c).isSome) (hne : cs ++ rest ≠ [])
    (ws : List (List C)) :
    getopt spec none ((spec.dash :: (cs ++ rest)) :: ws) =
      (cs.map .flag ++ ((cluster spec rest).1 ++ (getopt spec (cluster spec rest).2 ws).1),
        (getopt spec (cluster spec rest).2 ws).2) := by
  have hcluster := cluster_flags hflags rest
  obtain ⟨c, letters, heq⟩ := List.exists_cons_of_ne_nil hne
  have hknown : (spec.takesArg c).isSome := by
    cases cs with
    | nil =>
      rw [List.nil_append] at heq
      exact hrest c (by rw [heq]; rfl)
    | cons d cs =>
      rw [List.cons_append, List.cons.injEq] at heq
      rw [← heq.1, hflags d List.mem_cons_self]
      rfl
  rw [heq] at hcluster ⊢
  rw [getopt_word hdash hknown, hcluster]
  simp only [List.append_assoc]

theorem getopt_piece {spec : Spec C} (hdash : spec.takesArg spec.dash = none) {p : Piece C}
    (hp : p.Proper spec) (ws : List (List C)) :
    getopt spec none (p.words spec.dash ++ ws) =
      (p.found ++ (getopt spec none ws).1, p.operands ++ (getopt spec none ws).2) := by
  cases p with
  | flags cs =>
    have h := getopt_flags hdash [] hp.2 (by simp) (by simpa using hp.1) ws
    rw [List.append_nil] at h
    exact h
  | attached cs c optarg =>
    obtain ⟨hflags, harg, hne⟩ := hp
    have h := getopt_flags hdash (c :: optarg) hflags (by simp [harg]) (by simp) ws
    rw [cluster_arg harg, if_neg hne] at h
    simpa [Piece.words, Piece.found, Piece.operands] using h
  | separate cs c optarg =>
    obtain ⟨hflags, harg⟩ := hp
    have h := getopt_flags hdash [c] hflags (by simp [harg]) (by simp) (optarg :: ws)
    rw [cluster_arg harg, if_pos rfl] at h
    simpa [Piece.words, Piece.found, Piece.operands, getopt] using h
  | operand w =>
    obtain ⟨hpermute, hop⟩ := hp
    have hend : w ≠ [spec.dash, spec.dash] := by
      rintro rfl
      simp [isOption] at hop
    show getopt spec none (w :: ws) = _
    rw [getopt, if_neg hend, hop, if_neg Bool.false_ne_true, if_pos hpermute]
    rfl

/-- A command line of pieces is read back, however the pieces are ordered. -/
theorem getopt_pieces {spec : Spec C} (hdash : spec.takesArg spec.dash = none)
    {ps : List (Piece C)} (hps : ∀ p ∈ ps, p.Proper spec) (ws : List (List C)) :
    getopt spec none (ps.flatMap (Piece.words spec.dash) ++ ws) =
      (ps.flatMap Piece.found ++ (getopt spec none ws).1,
        ps.flatMap Piece.operands ++ (getopt spec none ws).2) := by
  induction ps with
  | nil => rfl
  | cons p ps ih =>
    have hrest := ih fun q hq => hps q (List.mem_cons_of_mem _ hq)
    rw [List.flatMap_cons, List.append_assoc, getopt_piece hdash (hps p List.mem_cons_self), hrest]
    simp only [List.flatMap_cons, List.append_assoc]

theorem getopt_operands_length_le (spec : Spec C) (waiting : Option C) (ws : List (List C)) :
    (getopt spec waiting ws).2.length ≤ ws.length := by
  induction ws generalizing waiting with
  | nil => cases waiting <;> exact le_rfl
  | cons w ws ih =>
    cases waiting with
    -- the word is the argument of an option
    | some c => exact (ih none).trans (Nat.le_succ _)
    | none =>
      unfold getopt
      split_ifs
      · exact Nat.le_succ _
      · exact (ih _).trans (Nat.le_succ _)
      · exact Nat.succ_le_succ (ih none)
      · exact le_rfl

/-- Where getopt looks at no option, it finds none and leaves all words. -/
theorem getopt_of_looked {spec : Spec C} {ws : List (List C)}
    (h : ∀ w ∈ looked spec ws, isOption spec w = false) : getopt spec none ws = ([], ws) := by
  induction ws with
  | nil => rfl
  | cons w ws ih =>
    rw [looked_cons, List.forall_mem_cons] at h
    have hend : w ≠ [spec.dash, spec.dash] := by
      rintro rfl
      simp [isOption] at h
    rw [getopt, if_neg hend, h.1, if_neg Bool.false_ne_true]
    cases hpermute : spec.permute with
    | true =>
      rw [hpermute, if_pos rfl] at h
      rw [if_pos rfl, ih h.2]
    | false => rw [if_neg Bool.false_ne_true]

/-- Words are all left as operands exactly when none of those that getopt looks at is an
option. -/
theorem getopt_operands_eq_iff (spec : Spec C) (ws : List (List C)) :
    (getopt spec none ws).2 = ws ↔ ∀ w ∈ looked spec ws, isOption spec w = false := by
  refine ⟨fun h => ?_, fun h => by rw [getopt_of_looked h]⟩
  induction ws with
  | nil => simp [looked]
  | cons w ws ih =>
    -- an option, or the end of the options, leaves a word less
    have hlost : ∀ operands : List (List C), operands.length ≤ ws.length → operands ≠ w :: ws := by
      rintro operands hlen rfl
      rw [List.length_cons] at hlen
      omega
    rw [looked_cons, List.forall_mem_cons]
    rw [getopt] at h
    by_cases hend : w = [spec.dash, spec.dash]
    · rw [if_pos hend] at h
      exact absurd h (hlost ws le_rfl)
    · rw [if_neg hend] at h
      cases hopt : isOption spec w with
      | true =>
        rw [hopt, if_pos rfl] at h
        exact absurd h (hlost _ (getopt_operands_length_le spec _ ws))
      | false =>
        rw [hopt, if_neg Bool.false_ne_true] at h
        refine ⟨rfl, ?_⟩
        cases hpermute : spec.permute with
        | true =>
          rw [hpermute, if_pos rfl, List.cons.injEq] at h
          exact ih h.2
        | false => exact List.forall_mem_nil _

end Words
end FuzzMonitor.GetOpt
