import Mathlib

namespace FuzzMonitor.ByteBlock

/-- An allocated block: its bytes are none where nothing was stored, and outside. -/
@[ext]
structure Block where
  size : ℕ
  bytes : ℕ → Option UInt8
  outside : ∀ n, size ≤ n → bytes n = none

def Block.alloc (size : ℕ) : Block := ⟨size, fun _ => none, fun _ _ => rfl⟩

def Block.ofList (xs : List UInt8) : Block :=
  ⟨xs.length, fun n => xs[n]?, fun _ h => List.getElem?_eq_none h⟩

def Block.stored (b : Block) (off : ℕ) (xs : List UInt8) (n : ℕ) : Option UInt8 :=
  if off ≤ n ∧ n < off + xs.length then xs[n - off]? else b.bytes n

/-- All of xs lies inside; to store nothing is no access. -/
def Block.Fits (b : Block) (off : ℕ) (xs : List UInt8) : Prop := xs = [] ∨ off + xs.length ≤ b.size

instance (b : Block) (off : ℕ) (xs : List UInt8) : Decidable (b.Fits off xs) :=
  inferInstanceAs (Decidable (_ ∨ _))

theorem Block.stored_outside {b : Block} {off : ℕ} {xs : List UInt8} (h : b.Fits off xs) (n : ℕ)
    (hn : b.size ≤ n) : b.stored off xs n = none := by
  unfold stored
  rcases h with rfl | h
  · rw [List.length_nil, if_neg (by omega)]
    exact b.outside n hn
  · rw [if_neg (by omega)]
    exact b.outside n hn

def Block.store (b : Block) (off : ℕ) (xs : List UInt8) : Option Block :=
  if h : b.Fits off xs then some ⟨b.size, b.stored off xs, stored_outside h⟩ else none

/-- Loads len bytes; none is an access outside the block or to a byte that was not stored. -/
def Block.load (b : Block) : ℕ → ℕ → Option (List UInt8)
  | _, 0 => some []
  | off, len + 1 =>
    match b.bytes off with
    | none => none
    | some x => (b.load (off + 1) len).map (x :: ·)

def Block.scan (b : Block) : ℕ → ℕ → Option (List UInt8)
  | _, 0 => none
  | off, len + 1 =>
    match b.bytes off with
    | none => none
    | some x => if x = 0 then some [] else (b.scan (off + 1) len).map (x :: ·)

/-- The string that starts at off; none if it has no terminator in the block. -/
def Block.cString (b : Block) (off : ℕ) : Option (List UInt8) := b.scan off (b.size - off)

theorem Block.store_isSome_iff {b : Block} {off : ℕ} {xs : List UInt8} :
    (b.store off xs).isSome ↔ b.Fits off xs := by
  unfold store
  split_ifs with h
  · exact iff_of_true rfl h
  · exact iff_of_false (by simp) h

theorem Block.store_cases {b b' : Block} {off : ℕ} {xs : List UInt8} (h : b.store off xs = some b') :
    b'.size = b.size ∧ b'.bytes = b.stored off xs := by
  unfold store at h
  split_ifs at h
  cases h
  exact ⟨rfl, rfl⟩

theorem Block.stored_inside {b : Block} {off i : ℕ} {xs : List UInt8} (hi : i < xs.length) :
    b.stored off xs (off + i) = xs[i]? := by
  unfold stored
  rw [if_pos (by omega), Nat.add_sub_cancel_left]

theorem Block.stored_before {b : Block} {off n : ℕ} {xs : List UInt8} (hn : n < off) :
    b.stored off xs n = b.bytes n := if_neg (by omega)

theorem Block.store_all (xs : List UInt8) : (alloc xs.length).store 0 xs = some (ofList xs) := by
  unfold store
  rw [dif_pos (.inr (Nat.zero_add _).le)]
  have hbytes : (alloc xs.length).stored 0 xs = fun n => xs[n]? := by
    funext n
    unfold stored
    split_ifs with h
    · rfl
    · exact (List.getElem?_eq_none (by omega)).symm
  exact congrArg some (Block.ext rfl hbytes)

theorem Block.load_of_bytes {b : Block} {off len : ℕ} {xs : List UInt8} (hlen : xs.length = len)
    (h : ∀ i < len, b.bytes (off + i) = xs[i]?) : b.load off len = some xs := by
  subst hlen
  induction xs generalizing off with
  | nil => rfl
  | cons x xs ih =>
    have hx : b.bytes off = some x := h 0 (Nat.succ_pos _)
    have hxs : b.load (off + 1) xs.length = some xs := by
      apply ih
      intro i hi
      have hnext := h (i + 1) (Nat.succ_lt_succ hi)
      rw [List.getElem?_cons_succ] at hnext
      rw [← hnext]
      congr 1
      omega
    rw [List.length_cons, load, hx, hxs]
    rfl

theorem Block.load_eq_none {b : Block} {off len i : ℕ} (hi : i < len)
    (h : b.bytes (off + i) = none) : b.load off len = none := by
  induction len generalizing off i with
  | zero => contradiction
  | succ len ih =>
    unfold load
    cases hoff : b.bytes off with
    | none => rfl
    | some x =>
      cases i with
      | zero =>
        rw [Nat.add_zero, hoff] at h
        contradiction
      | succ i =>
        have hrest : b.load (off + 1) len = none := by
          apply ih (Nat.lt_of_succ_lt_succ hi)
          rw [← h]
          congr 1
          omega
        dsimp only
        rw [hrest]
        rfl

theorem Block.scan_ofList (xs : List UInt8) (off : ℕ) :
    (ofList xs).scan off (xs.length - off) =
      if 0 ∈ xs.drop off then some ((xs.drop off).takeWhile (· ≠ 0)) else none := by
  induction hlen : xs.length - off generalizing off with
  | zero =>
    rw [List.drop_eq_nil_of_le (by omega), if_neg List.not_mem_nil]
    rfl
  | succ len ih =>
    have hoff : off < xs.length := by omega
    have hbyte : (ofList xs).bytes off = some xs[off] := List.getElem?_eq_getElem hoff
    unfold scan
    rw [hbyte, List.drop_eq_getElem_cons hoff]
    dsimp only
    by_cases hzero : xs[off] = 0
    · rw [if_pos hzero, hzero, if_pos List.mem_cons_self]
      rfl
    · have hmem : 0 ∈ xs[off] :: xs.drop (off + 1) ↔ 0 ∈ xs.drop (off + 1) := by
        rw [List.mem_cons]
        exact or_iff_right fun heq => hzero heq.symm
      rw [if_neg hzero, ih (off + 1) (by omega), List.takeWhile_cons_of_pos (by simpa using hzero)]
      simp only [hmem]
      split_ifs
      · rfl
      · rfl

/-- In a filled block a string is there exactly where a terminator follows. -/
theorem Block.cString_ofList (xs : List UInt8) (off : ℕ) :
    (ofList xs).cString off =
      if 0 ∈ xs.drop off then some ((xs.drop off).takeWhile (· ≠ 0)) else none :=
  scan_ofList xs off

end FuzzMonitor.ByteBlock
