import FuzzMonitor.Trace2

namespace FuzzMonitor.RustMonitor
open CStrings Trace2

def hexDigit (c : Char) : Option ℕ :=
  if '0' ≤ c ∧ c ≤ '9' then some (c.toNat - '0'.toNat)
  else if 'a' ≤ c ∧ c ≤ 'f' then some (c.toNat - 'a'.toNat + 10)
  else if 'A' ≤ c ∧ c ≤ 'F' then some (c.toNat - 'A'.toNat + 10)
  else none

def hexValue (value : ℕ) : CText → Option ℕ
  | [] => some value
  | c :: cs => (hexDigit c).bind fun d => hexValue (16 * value + d) cs

/-- u64::from_str_radix in base 16: an optional plus, then digits; none is an error. -/
def fromStrRadix16 (s : CText) : Option UInt64 :=
  let digits := if s.head? = some '+' then s.tail else s
  if digits = [] then none
  else (hexValue 0 digits).bind fun n => if n < 2 ^ 64 then some (UInt64.ofNat n) else none

def pcPrefix : CText := "pc=0x".toList

/-- The two loops of parse_trace, over the parts of all lines; none is a panic. -/
def parseParts : List CText → Option (List UInt64)
  | [] => some []
  | part :: rest =>
    if pcPrefix.isPrefixOf part then do
      let pc ← fromStrRadix16 (part.drop 5)
      let traceLines ← parseParts rest
      return pc :: traceLines
    else parseParts rest

def parseTrace (traceOut : CText) : Option (List UInt64) :=
  parseParts ((lines traceOut).flatMap fun line => line.splitOn ' ')

theorem hexDigit_digitChar : ∀ d < 16, hexDigit (Nat.digitChar d) = some d := by decide

theorem hexValue_append (value : ℕ) (s t : CText) :
    hexValue value (s ++ t) = (hexValue value s).bind fun n => hexValue n t := by
  induction s generalizing value with
  | nil => rfl
  | cons c s ih =>
    rw [List.cons_append, hexValue, hexValue, Option.bind_assoc]
    congr 1
    funext d
    exact ih (16 * value + d)

theorem hexValue_toDigits (n : ℕ) : hexValue 0 (Nat.toDigits 16 n) = some n := by
  induction n using Nat.strong_induction_on with
  | _ n ih =>
    rw [Nat.toDigits_eq_if (by decide)]
    split_ifs with hn
    · rw [hexValue, hexDigit_digitChar n hn]
      simp [hexValue]
    · rw [hexValue_append, ih (n / 16) (by omega), Option.bind_some, hexValue,
        hexDigit_digitChar (n % 16) (by omega), Option.bind_some, hexValue]
      congr 1
      omega

theorem hexDigit_hex {n : UInt64} {c : Char} (h : c ∈ hex n) : ∃ d < 16, c = Nat.digitChar d := by
  unfold hex at h
  generalize n.toNat = k at h
  induction k using Nat.strong_induction_on with
  | _ k ih =>
    rw [Nat.toDigits_eq_if (by decide)] at h
    split_ifs at h with hk
    · exact ⟨k, hk, List.mem_singleton.mp h⟩
    · rcases List.mem_append.mp h with h | h
      · exact ih (k / 16) (by omega) h
      · exact ⟨k % 16, by omega, List.mem_singleton.mp h⟩

theorem fromStrRadix16_hex (n : UInt64) : fromStrRadix16 (hex n) = some n := by
  -- no digit is the sign that from_str_radix would skip
  have hplus : (hex n).head? ≠ some '+' := by
    intro h
    obtain ⟨d, hd, hc⟩ := hexDigit_hex (List.mem_of_mem_head? h)
    have hall : ∀ d < 16, '+' ≠ Nat.digitChar d := by decide
    exact hall d hd hc
  have hne : hex n ≠ [] := Nat.toDigits_ne_nil
  unfold fromStrRadix16
  rw [if_neg hplus]
  dsimp only
  rw [if_neg hne]
  unfold hex
  rw [hexValue_toDigits, Option.bind_some, if_pos n.toNat_lt, UInt64.ofNat_toNat]

def Unbroken (w : CText) : Prop := ∀ c ∈ w, c ∉ [' ', '\n', '\r']

/-- A word of a line that simpletrace.py prints: a program counter, or anything else. -/
inductive TraceWord
  | pc (value : UInt64)
  | other (text : CText)

def TraceWord.text : TraceWord → CText
  | .pc value => pcPrefix ++ hex value
  | .other text => text

/-- Other words do not look like a program counter, and are words of one line. -/
def TraceWord.Plain : TraceWord → Prop
  | .pc _ => True
  | .other text => pcPrefix.isPrefixOf text = false ∧ Unbroken text

def TraceWord.value : TraceWord → Option UInt64
  | .pc value => some value
  | .other _ => none

def lineText (ws : List TraceWord) : CText := [' '].intercalate (ws.map TraceWord.text)

theorem hex_unbroken (n : UInt64) : Unbroken (hex n) := by
  have hdigits : ∀ d < 16, Nat.digitChar d ∉ [' ', '\n', '\r'] := by decide
  intro c hc
  obtain ⟨d, hd, rfl⟩ := hexDigit_hex hc
  exact hdigits d hd

theorem TraceWord.text_unbroken {w : TraceWord} (hw : w.Plain) : Unbroken w.text := by
  cases w with
  | other text => exact hw.2
  | pc value =>
    have hletters : Unbroken pcPrefix := by
      unfold Unbroken pcPrefix
      simp
    intro c hc
    rcases List.mem_append.mp hc with hc | hc
    · exact hletters c hc
    · exact hex_unbroken value c hc

theorem mem_intercalate {d c : Char} {ls : List CText} (h : c ∈ [d].intercalate ls) :
    c = d ∨ ∃ l ∈ ls, c ∈ l := by
  induction ls with
  | nil => simp at h
  | cons l ls ih =>
    cases ls with
    | nil =>
      rw [List.intercalate_singleton] at h
      exact .inr ⟨l, List.mem_cons_self, h⟩
    | cons l' ls =>
      rw [List.intercalate_cons_cons] at h
      rcases List.mem_append.mp h with h | h
      · rcases List.mem_append.mp h with h | h
        · exact .inr ⟨l, List.mem_cons_self, h⟩
        · exact .inl (List.mem_singleton.mp h)
      · rcases ih h with h | ⟨k, hk, hc⟩
        · exact .inl h
        · exact .inr ⟨k, List.mem_cons_of_mem _ hk, hc⟩

theorem words_line {ws : List CText} (hws : ∀ w ∈ ws, Unbroken w) :
    '\n' ∉ [' '].intercalate ws ∧ ([' '].intercalate ws).getLast? ≠ some '\r' := by
  have hchars : ∀ c ∈ [' '].intercalate ws, c ≠ '\n' ∧ c ≠ '\r' := by
    intro c hc
    rcases mem_intercalate hc with rfl | ⟨w, hw, hc⟩
    · decide
    · have hnot := hws w hw c hc
      simp only [List.mem_cons, List.not_mem_nil, or_false, not_or] at hnot
      exact hnot.2
  exact ⟨fun h => (hchars _ h).1 rfl, fun h => (hchars _ (List.mem_of_getLast? h)).2 rfl⟩

theorem words_splitOn {ws : List CText} (hne : ws ≠ []) (hws : ∀ w ∈ ws, Unbroken w) :
    ([' '].intercalate ws).splitOn ' ' = ws :=
  List.splitOn_intercalate _ (fun w hw hspace => hws w hw ' ' hspace (by simp)) hne

theorem map_text_unbroken {ws : List TraceWord} (hws : ∀ w ∈ ws, w.Plain) :
    ∀ w ∈ ws.map TraceWord.text, Unbroken w := by
  intro t ht
  obtain ⟨w, hw, rfl⟩ := List.mem_map.mp ht
  exact TraceWord.text_unbroken (hws w hw)

/-- The parts of printed lines are read back one by one. -/
theorem parseParts_words {ws : List TraceWord} (hws : ∀ w ∈ ws, w.Plain) :
    parseParts (ws.map TraceWord.text) = some (ws.filterMap TraceWord.value) := by
  induction ws with
  | nil => rfl
  | cons w ws ih =>
    have hrest := ih fun w hw => hws w (List.mem_cons_of_mem _ hw)
    rw [List.map_cons, parseParts, hrest]
    cases w with
    | other text =>
      have hplain : TraceWord.Plain (.other text) := hws _ List.mem_cons_self
      rw [TraceWord.text, hplain.1, if_neg Bool.false_ne_true, List.filterMap_cons_none rfl]
    | pc value =>
      have hprefix : pcPrefix.isPrefixOf (pcPrefix ++ hex value) = true := by
        rw [List.isPrefixOf_iff_prefix]
        exact List.prefix_append _ _
      have hdrop : (pcPrefix ++ hex value).drop 5 = hex value := by
        have hlen : pcPrefix.length = 5 := by decide
        rw [← hlen, List.drop_left]
      rw [TraceWord.text, if_pos hprefix, hdrop, fromStrRadix16_hex,
        List.filterMap_cons_some (f := TraceWord.value) rfl]
      rfl

/-- parse_trace does not panic on the lines of simpletrace.py, and makes of them all program
counters in order, whatever other words the lines have. -/
theorem parseTrace_lines (ls : List (List TraceWord)) (hne : ∀ ws ∈ ls, ws ≠ [])
    (hls : ∀ ws ∈ ls, ∀ w ∈ ws, w.Plain) :
    parseTrace ((ls.map lineText).flatMap fun line => line ++ ['\n']) =
      some (ls.flatMap fun ws => ws.filterMap TraceWord.value) := by
  have hlines : ∀ l ∈ ls.map lineText, '\n' ∉ l ∧ l.getLast? ≠ some '\r' := by
    intro l hl
    obtain ⟨ws, hws, rfl⟩ := List.mem_map.mp hl
    exact words_line (map_text_unbroken (hls ws hws))
  have hparts : ((ls.map lineText).flatMap fun line => line.splitOn ' ') =
      ls.flatten.map TraceWord.text := by
    rw [List.flatMap_map, List.map_flatten, ← List.flatMap_def]
    exact List.flatMap_congr fun ws hws => words_splitOn (by simpa using hne ws hws)
      (map_text_unbroken (hls ws hws))
  unfold parseTrace
  rw [lines_flatMap hlines, hparts, parseParts_words, List.filterMap_flatten, ← List.flatMap_def]
  intro w hw
  obtain ⟨ws, hws, hw⟩ := List.mem_flatten.mp hw
  exact hls ws hws w hw

def sampleLines : List (List TraceWord) :=
  [[.other "exec_tb".toList, .other "tb=0x7f".toList, .pc 0x400080],
    [.other "exec_tb_exit".toList, .other "last_tb=0x7f".toList],
    [.pc 0x40009c, .other "exec_tb".toList, .pc 0x400080]]

theorem parseTrace_sampleLines :
    parseTrace ((sampleLines.map lineText).flatMap fun line => line ++ ['\n']) =
      some [0x400080, 0x40009c, 0x400080] := by
  have hplain : ∀ ws ∈ sampleLines, ∀ w ∈ ws, w.Plain := by
    unfold sampleLines
    simp only [List.forall_mem_cons, TraceWord.Plain]
    unfold Unbroken
    refine ⟨⟨⟨by decide, by simp⟩, ⟨by decide, by simp⟩, trivial, nofun⟩,
      ⟨⟨by decide, by simp⟩, ⟨by decide, by simp⟩, nofun⟩,
      ⟨trivial, ⟨by decide, by simp⟩, trivial, nofun⟩, nofun⟩
  exact parseTrace_lines sampleLines (by simp [sampleLines]) hplain

end FuzzMonitor.RustMonitor
