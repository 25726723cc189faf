import FuzzMonitor.ByteBlock
import FuzzMonitor.SectionName

namespace FuzzMonitor.Elf
open CStrings ByteBlock Sections

def sizeofEhdr : ℕ := 64
def sizeofShdr : ℕ := 64

/-- The most that one read returns. -/
def maxRwCount : ℕ := 0x7ffff000

def leNat : List UInt8 → ℕ
  | [] => 0
  | x :: xs => x.toNat + 256 * leNat xs

def field (bytes : List UInt8) (off len : ℕ) : ℕ := leNat ((bytes.drop off).take len)

structure ElfEhdr where
  eShoff : UInt64
  eShentsize : UInt16
  eShnum : UInt16
  eShstrndx : UInt16
  deriving DecidableEq, Repr

def decodeEhdr (bytes : List UInt8) : ElfEhdr :=
  ⟨.ofNat (field bytes 40 8), .ofNat (field bytes 58 2), .ofNat (field bytes 60 2),
    .ofNat (field bytes 62 2)⟩

def decodeShdr (bytes : List UInt8) : ElfShdr :=
  ⟨.ofNat (field bytes 0 4), .ofNat (field bytes 16 8), .ofNat (field bytes 24 8),
    .ofNat (field bytes 32 8)⟩

def isELF (bytes : List UInt8) : Bool := bytes.take 4 = [0x7f, 0x45, 0x4c, 0x46]

/-- How section_find stops without a result: it returns an error, an assertion fails, or it makes
an access that the allocated memory does not allow, or a sum that int does not hold. -/
inductive ElfStop
  | returned (ret : Int64)
  | assertFailed
  | fault
  deriving DecidableEq, Repr

/-- Whether the file, a regular one, opens, which offsets the kernel lets it be set to, and
whether the two mallocs find memory. -/
structure FileEnv where
  opens : Bool
  seeks : ℕ → Bool
  tblAlloc : Bool
  strAlloc : Bool

def FileEnv.succeed : FileEnv := ⟨true, fun _ => true, true, true⟩

def malloc (ok : Bool) (size : ℕ) : Option Block :=
  if ok && size < 2 ^ 63 then some (.alloc size) else none

/-- assert(lseek(fd, off, SEEK_SET) == off), with the position before and after it. -/
def lseek (env : FileEnv) (off : UInt64) (pos : ℕ) : Except ElfStop ℕ :=
  if off.toNat < 2 ^ 63 && env.seeks off.toNat then .ok off.toNat
  -- the -1 of the lseek that fails is equal to this offset, and the file stays where it is
  else if off = 0xFFFFFFFFFFFFFFFF then .ok pos
  else .error .assertFailed

def readAt (file : List UInt8) (pos count : ℕ) : List UInt8 :=
  (file.drop pos).take (min count maxRwCount)

def readElfHeader (env : FileEnv) (file : List UInt8) : Except ElfStop (List UInt8) := do
  let pos ← lseek env 0 0
  let bytes := readAt file pos sizeofEhdr
  if bytes.length ≠ sizeofEhdr then .error .assertFailed else .ok bytes

/-- The loop of read_section_header_table over n entries from the i-th on. Each read delivers
e_shentsize bytes, while &sh_table[i] advances by the size of a header. -/
def readEntries (file : List UInt8) (entsize : ℕ) : ℕ → ℕ → ℕ → Block → Except ElfStop (ℕ × Block)
  | 0, _, pos, tbl => .ok (pos, tbl)
  | n + 1, i, pos, tbl =>
    let bytes := readAt file pos entsize
    match tbl.store (sizeofShdr * i) bytes with
    | none => .error .fault
    | some tbl =>
      if bytes.length ≠ entsize then .error .assertFailed
      else readEntries file entsize n (i + 1) (pos + entsize) tbl

def readSectionHeaderTable (env : FileEnv) (file : List UInt8) (eh : ElfEhdr) (tbl : Block) :
    Except ElfStop (ℕ × Block) := do
  let pos ← lseek env eh.eShoff sizeofEhdr
  readEntries file eh.eShentsize.toNat eh.eShnum.toNat 0 pos tbl

/-- sh_tbl[i], of which only the entries that were read may be used. -/
def shdrAt (eh : ElfEhdr) (tbl : Block) (i : ℕ) : Except ElfStop ElfShdr :=
  if i < eh.eShnum.toNat then
    match tbl.load (sizeofShdr * i) sizeofShdr with
    | none => .error .fault
    | some bytes => .ok (decodeShdr bytes)
  else .error .fault

def readSection (env : FileEnv) (file : List UInt8) (pos : ℕ) (sh : ElfShdr) :
    Except ElfStop Block :=
  match malloc env.strAlloc sh.shSize.toNat with
  | none => .error (.returned (-1))
  | some buff => do
    let pos ← lseek env sh.shOffset pos
    let bytes := readAt file pos sh.shSize.toNat
    match buff.store 0 bytes with
    | none => .error .fault
    | some buff => if bytes.length ≠ sh.shSize.toNat then .error .assertFailed else .ok buff

def toText (bytes : List UInt8) : CText := bytes.map fun b => Char.ofNat b.toNat

def findSection (eh : ElfEhdr) (tbl shStr : Block) (secName : CText) (bounds : SectionBounds) :
    ℕ → ℕ → Except ElfStop (Int64 × SectionBounds)
  | 0, _ => .ok (0, bounds)
  | n + 1, i => do
    let sh ← shdrAt eh tbl i
    match shStr.cString sh.shName.toNat with
    | none => .error .fault
    | some name =>
      if strstr (toText name) secName = none then findSection eh tbl shStr secName bounds n (i + 1)
      else .ok (((boundsOf sh).secEnd - (boundsOf sh).secStart).toInt64, boundsOf sh)

def findWithTable (env : FileEnv) (file : List UInt8) (eh : ElfEhdr) (secName : CText)
    (bounds : SectionBounds) (pos : ℕ) (tbl : Block) : Except ElfStop (Int64 × SectionBounds) := do
  let sh ← shdrAt eh tbl eh.eShstrndx.toNat
  let shStr ← readSection env file pos sh
  findSection eh tbl shStr secName bounds eh.eShnum.toNat 0

def findInTable (env : FileEnv) (file : List UInt8) (eh : ElfEhdr) (secName : CText)
    (bounds : SectionBounds) : Except ElfStop (Int64 × SectionBounds) :=
  -- the product of two uint16_t has type int
  if eh.eShentsize.toNat * eh.eShnum.toNat ≥ 2 ^ 31 then .error .fault
  else
    match malloc env.tblAlloc (eh.eShentsize.toNat * eh.eShnum.toNat) with
    | none => .error (.returned (-1))
    | some tbl => do
      let (pos, tbl) ← readSectionHeaderTable env file eh tbl
      findWithTable env file eh secName bounds pos tbl

def sectionFind (env : FileEnv) (file : List UInt8) (secName : CText) (bounds : SectionBounds) :
    Except ElfStop (Int64 × SectionBounds) :=
  if !env.opens then .error (.returned (-1))
  else do
    let header ← readElfHeader env file
    if !isELF header then .error (.returned (-1))
    else findInTable env file (decodeEhdr header) secName bounds

def fileShdr (file : List UInt8) (entsize pos i : ℕ) : ElfShdr :=
  decodeShdr ((file.drop (pos + i * entsize)).take sizeofShdr)

def Whole (file : List UInt8) (entsize pos n : ℕ) : Prop :=
  n * entsize = 0 ∨ pos + n * entsize ≤ file.length

/-- Each byte of the table that the file holds is stored inside the block of the given size, where
the i-th entry is stored i headers behind the start. -/
def Stored (file : List UInt8) (entsize pos n i size : ℕ) : Prop :=
  ∀ j < n, ∀ b < entsize, pos + j * entsize + b < file.length →
    sizeofShdr * (i + j) + b < size

theorem readAt_length (file : List UInt8) (pos count : ℕ) (hcount : count ≤ maxRwCount) :
    (readAt file pos count).length = min count (file.length - pos) := by
  unfold readAt
  rw [List.length_take, List.length_drop, min_eq_left hcount]

theorem readAt_getElem? (file : List UInt8) {pos count b : ℕ} (hcount : count ≤ maxRwCount)
    (hb : b < count) : (readAt file pos count)[b]? = file[pos + b]? := by
  unfold readAt
  rw [min_eq_left hcount, List.getElem?_take_of_lt hb, List.getElem?_drop]

end FuzzMonitor.Elf
