import FuzzMonitor.QemuTrace
import FuzzMonitor.Sections

namespace FuzzMonitor.RustMonitor
open CStrings Trace2 Sections

/-- A number of the base 16 in bash, whose arithmetic is that of a signed word of 64 bits and
wraps; none is an error. -/
def bashNumber (s : CText) : Option UInt64 :=
  if s = [] then none else (hexValue 0 s).map UInt64.ofNat

def bashText (n : UInt64) : CText :=
  if n.toNat < 2 ^ 63 then decimal n else '-' :: decimal (0 - n)

/-- section_address.sh, from the words that objdump and awk leave in line on: the name, the
address and the size of the section. None is its exit with 1. -/
def sectionAddress : List CText → Option CText
  | [name, address, size] => do
    let line1 ← bashNumber address
    let line3 ← bashNumber size
    let line2 := line1 + line3
    let line := [' '].intercalate [name, bashText line1, bashText line2, bashText line3]
    let hexLine := [' '].intercalate
      (name :: [line1, line2, line3].map fun n => "0x".toList ++ hex n)
    return line ++ '\n' :: hexLine ++ ['\n']
  | _ => none

/-- get_section_address, on the output of the script; none is a panic. -/
def getSectionAddress : Option CText → Option (Option (UInt64 × UInt64))
  | none => some none
  | some out => do
    let line ← (lines out)[0]?
    let splittedFst ← (line.splitOn ' ')[1]?
    let splittedSnd ← (line.splitOn ' ')[2]?
    let start ← fromStrRadix splittedFst
    let stop ← fromStrRadix splittedSnd
    return some (start, stop)

theorem fromStrRadix_bashText (n : UInt64) :
    fromStrRadix (bashText n) = if n.toNat < 2 ^ 63 then some n else none := by
  unfold bashText
  split_ifs with h
  · exact fromStrRadix_decimal n
  -- from_str_radix takes no minus sign for an unsigned number
  · unfold fromStrRadix
    simp

theorem decimal_unbroken (n : UInt64) : Unbroken (decimal n) := by
  intro c hc hbad
  have hdigit := decimal_isDigit hc
  simp only [List.mem_cons, List.not_mem_nil, or_false] at hbad
  rcases hbad with rfl | rfl | rfl <;> contradiction

theorem bashText_unbroken (n : UInt64) : Unbroken (bashText n) := by
  unfold bashText
  split_ifs
  · exact decimal_unbroken n
  · intro c hc
    rcases List.mem_cons.mp hc with rfl | hc
    · decide
    · exact decimal_unbroken _ c hc

theorem hexText_unbroken (n : UInt64) : Unbroken ("0x".toList ++ hex n) := by
  have hletters : Unbroken "0x".toList := by
    unfold Unbroken
    simp
  intro c hc
  rcases List.mem_append.mp hc with hc | hc
  · exact hletters c hc
  · exact hex_unbroken n c hc

theorem bashNumber_eq {s : CText} {n : UInt64} (hne : s ≠ []) (h : hexValue 0 s = some n.toNat) :
    bashNumber s = some n := by
  unfold bashNumber
  rw [if_neg hne, h, Option.map_some, UInt64.ofNat_toNat]

theorem getSectionAddress_words {ws : List CText} {line : CText} (hne : ws ≠ [])
    (hws : ∀ w ∈ ws, Unbroken w) (hline : '\n' ∉ line ∧ line.getLast? ≠ some '\r') :
    getSectionAddress (some ([' '].intercalate ws ++ '\n' :: line ++ ['\n'])) = (do
      let start ← ws[1]?.bind fromStrRadix
      let stop ← ws[2]?.bind fromStrRadix
      return some (start, stop)) := by
  have hlines : ∀ l ∈ [[' '].intercalate ws, line], '\n' ∉ l ∧ l.getLast? ≠ some '\r' := by
    rw [List.forall_mem_cons, List.forall_mem_singleton]
    exact ⟨words_line hws, hline⟩
  have htext : [' '].intercalate ws ++ '\n' :: line ++ ['\n'] =
      [[' '].intercalate ws, line].flatMap fun l => l ++ ['\n'] := by simp
  unfold getSectionAddress
  dsimp only
  rw [htext, lines_flatMap hlines, List.getElem?_cons_zero]
  dsimp only [bind, Option.bind_some]
  rw [words_splitOn hne hws]
  cases ws[1]? with
  | none => rfl
  | some fst =>
    cases ws[2]? with
    | none => simp
    | some snd => rfl

/-- The Rust program finds in the output of the script the bounds that section_find makes of the
same section header, as long as both are below 2^63, and panics else. -/
theorem getSectionAddress_bounds (sh : ElfShdr) {name address size : CText}
    (hname : Unbroken name) (haddress : address ≠ []) (hsize : size ≠ [])
    (hshAddr : hexValue 0 address = some sh.shAddr.toNat)
    (hshSize : hexValue 0 size = some sh.shSize.toNat) :
    ∃ out, sectionAddress [name, address, size] = some out ∧
      getSectionAddress (some out) =
        if (boundsOf sh).secStart.toNat < 2 ^ 63 ∧ (boundsOf sh).secEnd.toNat < 2 ^ 63 then
          some (some ((boundsOf sh).secStart, (boundsOf sh).secEnd))
        else none := by
  let words := [name, bashText sh.shAddr, bashText (sh.shAddr + sh.shSize), bashText sh.shSize]
  let hexWords := name :: [sh.shAddr, sh.shAddr + sh.shSize, sh.shSize].map fun n =>
    "0x".toList ++ hex n
  have hwords : ∀ w ∈ words, Unbroken w := by
    simp only [words, List.forall_mem_cons]
    exact ⟨hname, bashText_unbroken _, bashText_unbroken _, bashText_unbroken _, nofun⟩
  have hhexWords : ∀ w ∈ hexWords, Unbroken w := by
    simp only [hexWords, List.forall_mem_cons, List.map_cons]
    exact ⟨hname, hexText_unbroken _, hexText_unbroken _, hexText_unbroken _, nofun⟩
  refine ⟨[' '].intercalate words ++ '\n' :: [' '].intercalate hexWords ++ ['\n'], ?_, ?_⟩
  · unfold sectionAddress
    dsimp only
    rw [bashNumber_eq haddress hshAddr, bashNumber_eq hsize hshSize]
    rfl
  · rw [getSectionAddress_words (List.cons_ne_nil _ _) hwords (words_line hhexWords)]
    have hstart : words[1]?.bind fromStrRadix =
        fromStrRadix (bashText (boundsOf sh).secStart) := rfl
    have hstop : words[2]?.bind fromStrRadix = fromStrRadix (bashText (boundsOf sh).secEnd) := rfl
    rw [hstart, hstop, fromStrRadix_bashText, fromStrRadix_bashText]
    by_cases hlow : (boundsOf sh).secStart.toNat < 2 ^ 63
    · by_cases hhigh : (boundsOf sh).secEnd.toNat < 2 ^ 63
      · rw [if_pos hlow, if_pos hhigh, if_pos ⟨hlow, hhigh⟩]
        rfl
      · have hboth :
            ¬((boundsOf sh).secStart.toNat < 2 ^ 63 ∧ (boundsOf sh).secEnd.toNat < 2 ^ 63) :=
          fun h => hhigh h.2
        rw [if_pos hlow, if_neg hhigh, if_neg hboth]
        rfl
    · have hboth : ¬((boundsOf sh).secStart.toNat < 2 ^ 63 ∧ (boundsOf sh).secEnd.toNat < 2 ^ 63) :=
        fun h => hlow h.1
      rw [if_neg hlow, if_neg hboth]
      rfl

end FuzzMonitor.RustMonitor
