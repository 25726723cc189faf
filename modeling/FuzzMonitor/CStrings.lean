import Mathlib

namespace FuzzMonitor.CStrings

/-- The bytes of a C string up to its terminator. -/
abbrev CText := List Char

def decimal (n : UInt64) : CText := Nat.toDigits 10 n.toNat
def hex (n : UInt64) : CText := Nat.toDigits 16 n.toNat

/-- What snprintf leaves in a buffer of the given size. -/
def snprintf (size : ℕ) (text : CText) : CText := text.take (size - 1)

theorem snprintf_of_lt {size : ℕ} {text : CText} (h : text.length < size) :
    snprintf size text = text := List.take_of_length_le (by omega)

theorem snprintf_eq_iff {size : ℕ} {text : CText} (h : 0 < size) :
    snprintf size text = text ↔ text.length < size := by
  unfold snprintf
  rw [List.take_eq_self_iff]
  omega

theorem decimal_isDigit {n : UInt64} {c : Char} (h : c ∈ decimal n) : c.isDigit :=
  Nat.isDigit_of_mem_toDigits (by decide) (by decide) h

theorem decimal_ne_nil (n : UInt64) : decimal n ≠ [] := Nat.toDigits_ne_nil

theorem decimal_length_le (n : UInt64) : (decimal n).length ≤ 20 := by
  apply (Nat.length_toDigits_le_iff (by decide) (by decide)).mpr
  have := n.toNat_lt
  omega

theorem decimal_injective : Function.Injective decimal := by
  intro a b h
  have hv := congrArg (fun s => Nat.ofDigitChars 10 s 0) h
  simp only [decimal, Nat.ofDigitChars_ten_toDigits] at hv
  exact UInt64.toNat_inj.mp hv

theorem digitChar_inj : ∀ m < 16, ∀ n < 16, Nat.digitChar m = Nat.digitChar n → m = n := by
  decide

theorem toDigits_sixteen_injective : Function.Injective (Nat.toDigits 16) := by
  intro m
  induction m using Nat.strong_induction_on with
  | _ m ih =>
    intro n h
    rw [Nat.toDigits_eq_if (by decide), Nat.toDigits_eq_if (n := n) (by decide)] at h
    -- the last digit, and the number in front of it
    split_ifs at h with hm hn hn
    · exact digitChar_inj m hm n hn (List.singleton_inj.mp h)
    · have hlen := congrArg List.length h
      have hpos := Nat.length_toDigits_pos (b := 16) (n := n / 16)
      rw [List.length_append, List.length_singleton, List.length_singleton] at hlen
      omega
    · have hlen := congrArg List.length h
      have hpos := Nat.length_toDigits_pos (b := 16) (n := m / 16)
      rw [List.length_append, List.length_singleton, List.length_singleton] at hlen
      omega
    · obtain ⟨hfront, hlast⟩ := List.append_inj' h rfl
      have hdiv := ih (m / 16) (by omega) hfront
      have hmod := digitChar_inj (m % 16) (by omega) (n % 16) (by omega)
        (List.singleton_inj.mp hlast)
      omega

theorem hex_injective : Function.Injective hex := fun _ _ h =>
  UInt64.toNat_inj.mp (toDigits_sixteen_injective h)

theorem mem_toDigits_sixteen (n : ℕ) {c : Char} (h : c ∈ Nat.toDigits 16 n) :
    ∃ d < 16, c = Nat.digitChar d := by
  induction n using Nat.strong_induction_on with
  | _ n ih =>
    rw [Nat.toDigits_eq_if (by decide)] at h
    split_ifs at h with hn
    · exact ⟨n, hn, List.mem_singleton.mp h⟩
    · rcases List.mem_append.mp h with h | h
      · exact ih (n / 16) (by omega) h
      · exact ⟨n % 16, by omega, List.mem_singleton.mp h⟩

theorem quote_notMem_hex (n : UInt64) : '"' ∉ hex n := by
  intro h
  obtain ⟨d, hd, heq⟩ := mem_toDigits_sixteen n.toNat h
  revert heq
  interval_cases d <;> decide

def strstr : CText → CText → Option ℕ
  | [], needle => if needle = [] then some 0 else none
  | c :: cs, needle =>
    if needle.isPrefixOf (c :: cs) then some 0 else (strstr cs needle).map (· + 1)

theorem strstr_singleton_append {d : Char} (pre post : CText) (h : d ∉ pre) :
    strstr (pre ++ d :: post) [d] = some pre.length := by
  induction pre with
  | nil => simp [strstr]
  | cons c cs ih =>
    simp only [List.mem_cons, not_or] at h
    simp [strstr, ih h.2, h.1]

theorem append_separator_inj {d : Char} {xs ys xs' ys' : CText} (hx : d ∉ xs) (hy : d ∉ ys)
    (h : xs ++ d :: xs' = ys ++ d :: ys') : xs = ys ∧ xs' = ys' := by
  have hlen : xs.length = ys.length := by
    apply Option.some.inj
    rw [← strstr_singleton_append xs xs' hx, ← strstr_singleton_append ys ys' hy, h]
  obtain ⟨hfst, hrest⟩ := List.append_inj h hlen
  exact ⟨hfst, (List.cons.inj hrest).2⟩

theorem strstr_self (s : CText) : strstr s s = some 0 := by
  cases s with
  | nil => rfl
  | cons c cs => simp [strstr]

def strrchr : CText → Char → Option ℕ
  | [], _ => none
  | c :: cs, d =>
    match strrchr cs d with
    | some n => some (n + 1)
    | none => if c = d then some 0 else none

def isSpace (c : Char) : Bool := c ∈ [' ', '\t', '\n', '\x0b', '\x0c', '\r']

def longMax : ℤ := 2 ^ 63 - 1
def longMin : ℤ := -2 ^ 63

/-- glibc's atol: leading blanks, a sign, then the digits, saturating at the
bounds of a signed long. -/
def atol (s : CText) : ℤ :=
  match s.dropWhile isSpace with
  | '-' :: ds => max longMin (-(Nat.ofDigitChars 10 (ds.takeWhile Char.isDigit) 0 : ℤ))
  | '+' :: ds => min longMax (Nat.ofDigitChars 10 (ds.takeWhile Char.isDigit) 0)
  | ds => min longMax (Nat.ofDigitChars 10 (ds.takeWhile Char.isDigit) 0)

theorem not_isSpace_of_isDigit {c : Char} (h : c.isDigit) : isSpace c = false := by
  by_contra hs
  simp only [isSpace, List.mem_cons, List.not_mem_nil, or_false, Bool.not_eq_false,
    decide_eq_true_eq] at hs
  rcases hs with rfl | rfl | rfl | rfl | rfl | rfl <;> simp at h

theorem atol_of_digits {ds : CText} (rest : CText) (hne : ds ≠ [])
    (hd : ∀ c ∈ ds, c.isDigit) (hrest : ∀ c, rest.head? = some c → ¬c.isDigit) :
    atol (ds ++ rest) = min longMax (Nat.ofDigitChars 10 ds 0) := by
  have hstop : rest.takeWhile Char.isDigit = [] := by
    cases rest with
    | nil => rfl
    | cons c cs => exact List.takeWhile_cons_of_neg (hrest c rfl)
  have htake : (ds ++ rest).takeWhile Char.isDigit = ds := by
    rw [List.takeWhile_append_of_pos hd, hstop, List.append_nil]
  obtain ⟨c, cs, rfl⟩ := List.exists_cons_of_ne_nil hne
  have hc := hd c (by simp)
  have hdrop : (c :: cs ++ rest).dropWhile isSpace = c :: cs ++ rest :=
    List.dropWhile_cons_of_neg (by simp [not_isSpace_of_isDigit hc])
  unfold atol
  rw [hdrop]
  split
  · rename_i ds' h
    obtain ⟨rfl, -⟩ := List.cons.inj h
    simp at hc
  · rename_i ds' h
    obtain ⟨rfl, -⟩ := List.cons.inj h
    simp at hc
  · rw [htake]

/-- A number printed with %PRIu64 reads back up to the saturation. -/
theorem atol_decimal (n : UInt64) : atol (decimal n) = min longMax n.toNat := by
  have h := atol_of_digits [] (decimal_ne_nil n) (fun _ => decimal_isDigit) (by simp)
  rw [List.append_nil] at h
  simpa only [decimal, Nat.ofDigitChars_ten_toDigits] using h

/-- At most n characters, up to and including the first newline. -/
def lineOf : ℕ → CText → CText
  | 0, _ => []
  | _, [] => []
  | n + 1, c :: cs => if c = '\n' then [c] else c :: lineOf n cs

def fgets (size : ℕ) (stream : CText) : Option (CText × CText) :=
  if stream = [] then none
  else some (lineOf (size - 1) stream, stream.drop (lineOf (size - 1) stream).length)

def fgetsAll (size : ℕ) : ℕ → CText → List CText
  | 0, _ => []
  | fuel + 1, stream =>
    match fgets size stream with
    | none => []
    | some (line, rest) => line :: fgetsAll size fuel rest

theorem lineOf_append {n : ℕ} {l rest : CText} (hl : '\n' ∉ l) (hn : l.length < n) :
    lineOf n (l ++ '\n' :: rest) = l ++ ['\n'] := by
  induction l generalizing n with
  | nil =>
    obtain ⟨k, rfl⟩ : ∃ k, n = k + 1 := ⟨n - 1, by omega⟩
    simp [lineOf]
  | cons c cs ih =>
    rw [List.length_cons] at hn
    obtain ⟨k, rfl⟩ : ∃ k, n = k + 1 := ⟨n - 1, by omega⟩
    rw [List.mem_cons, not_or] at hl
    rw [List.cons_append, lineOf, if_neg (Ne.symm hl.1), ih hl.2 (by omega), List.cons_append]

theorem fgetsAll_lines {size : ℕ} (ls : List CText)
    (hls : ∀ l ∈ ls, '\n' ∉ l ∧ l.length + 1 < size) (fuel : ℕ) (h : ls.length ≤ fuel) :
    fgetsAll size fuel (ls.flatMap fun l => l ++ ['\n']) = ls.map fun l => l ++ ['\n'] := by
  induction ls generalizing fuel with
  | nil => cases fuel <;> simp [fgetsAll, fgets]
  | cons l ls ih =>
    obtain ⟨hl, hsize⟩ := hls l List.mem_cons_self
    obtain ⟨k, rfl⟩ : ∃ k, fuel = k + 1 := ⟨fuel - 1, by rw [List.length_cons] at h; omega⟩
    have hline : lineOf (size - 1) (l ++ '\n' :: ls.flatMap fun l => l ++ ['\n']) = l ++ ['\n'] :=
      lineOf_append hl (by omega)
    rw [List.length_cons] at h
    rw [List.flatMap_cons, List.append_assoc, List.singleton_append, fgetsAll, fgets,
      if_neg (by simp), hline]
    have hdrop : ∀ t : CText, (l ++ '\n' :: t).drop (l ++ ['\n']).length = t := fun t => by
      simp [List.drop_append]
    dsimp only
    rw [hdrop, List.map_cons, ih (fun m hm => hls m (List.mem_cons_of_mem _ hm)) k (by omega)]

/-- The tokens that repeated strtok calls return for a single delimiter. -/
def tokens (d : Char) (s : CText) : List CText := (s.splitOn d).filter (· ≠ [])

theorem tokens_intercalate (d : Char) (ws : List CText) (hne : ws ≠ [])
    (hws : ∀ w ∈ ws, d ∉ w ∧ w ≠ []) : tokens d ([d].intercalate ws) = ws := by
  rw [tokens, List.splitOn_intercalate d (fun w hw => (hws w hw).1) hne, List.filter_eq_self]
  intro w hw
  simpa using (hws w hw).2

end FuzzMonitor.CStrings
