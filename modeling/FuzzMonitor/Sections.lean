import FuzzMonitor.CStrings

namespace FuzzMonitor
open CStrings

structure SectionBounds where
  secStart : UInt64
  secEnd : UInt64
  deriving DecidableEq, Repr

structure ElfShdr where
  shName : UInt32
  shAddr : UInt64
  shOffset : UInt64
  shSize : UInt64
  deriving DecidableEq, Repr

namespace Sections

def shName (shStr : CText) (sh : ElfShdr) : CText :=
  (shStr.drop sh.shName.toNat).takeWhile (· ≠ '\x00')

def boundsOf (sh : ElfShdr) : SectionBounds := ⟨sh.shAddr, sh.shAddr + sh.shSize⟩

/-- The loop of section_find over the section table, with its return value and what it
leaves in bounds. -/
def findLoop (shStr secName : CText) : List ElfShdr → SectionBounds → Int64 × SectionBounds
  | [], bounds => (0, bounds)
  | sh :: shTbl, bounds =>
    -- any name that contains the requested one will do
    if strstr (shName shStr sh) secName = none then findLoop shStr secName shTbl bounds
    else (((boundsOf sh).secEnd - (boundsOf sh).secStart).toInt64, boundsOf sh)

theorem boundsOf_size (sh : ElfShdr) :
    (boundsOf sh).secEnd - (boundsOf sh).secStart = sh.shSize := by
  show sh.shAddr + sh.shSize - sh.shAddr = sh.shSize
  exact add_sub_cancel_left _ _

/-- The first section whose name contains the requested one decides the result. -/
theorem findLoop_eq (shStr secName : CText) (shTbl : List ElfShdr) (bounds : SectionBounds) :
    findLoop shStr secName shTbl bounds =
      match shTbl.find? fun sh => (strstr (shName shStr sh) secName).isSome with
      | none => (0, bounds)
      | some sh => (sh.shSize.toInt64, boundsOf sh) := by
  induction shTbl with
  | nil => rfl
  | cons sh shTbl ih =>
    unfold findLoop
    by_cases h : strstr (shName shStr sh) secName = none
    · rw [if_pos h, ih, List.find?_cons_of_neg (by simp [h])]
    · rw [if_neg h, List.find?_cons_of_pos (by simpa using Option.isSome_iff_ne_none.mpr h),
        boundsOf_size]

end Sections
end FuzzMonitor
