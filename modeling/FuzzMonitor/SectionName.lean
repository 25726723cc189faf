import FuzzMonitor.SectionFilter

namespace FuzzMonitor.Sections
open CStrings Branches

/-- What the calls of section_find report: whether the file opens, its header is read and has the
magic bytes, both mallocs find memory, and the section table and the string table are read. -/
structure ElfEnv where
  opens : Bool
  headerRead : Bool
  isElf : Bool
  tblAlloc : Bool
  tblRead : Bool
  strAlloc : Bool
  strRead : Bool

def ElfEnv.succeed : ElfEnv := ⟨true, true, true, true, true, true, true⟩

/-- The file is given by its section table and the contents of its string table; none is a failed
assertion. -/
def sectionFind (env : ElfEnv) (shTbl : List ElfShdr) (shStr secName : CText)
    (bounds : SectionBounds) : Option (Int64 × SectionBounds) :=
  if !env.opens then some (-1, bounds)
  else if !env.headerRead then none
  else if !env.isElf then some (-1, bounds)
  else if !env.tblAlloc then some (-1, bounds)
  else if !env.tblRead then none
  else if !env.strAlloc then some (-1, bounds)
  else if !env.strRead then none
  else some (findLoop shStr secName shTbl bounds)

def Named (shTbl : List ElfShdr) (shStr secName : CText) : Prop :=
  ∃ sh ∈ shTbl, shName shStr sh = secName

/-- The result is that of a section with exactly the requested name; without one, the size is 0
and the bounds are left alone. -/
structure Requested (shTbl : List ElfShdr) (shStr secName : CText) (bounds : SectionBounds)
    (r : Int64 × SectionBounds) : Prop where
  named : Named shTbl shStr secName →
    ∃ sh ∈ shTbl, shName shStr sh = secName ∧ r.2 = boundsOf sh ∧ r.1.toInt = sh.shSize.toNat
  unnamed : ¬Named shTbl shStr secName → r = (0, bounds)

def firstContaining (shTbl : List ElfShdr) (shStr secName : CText) : Option ElfShdr :=
  shTbl.find? fun sh => (strstr (shName shStr sh) secName).isSome

/-- The first section whose name contains the requested one lies where an exactly named one does,
and its size fits the result; or no name is the requested one and the section that contains it
is empty, at the address that the bounds hold already. -/
def FirstIsNamed (shTbl : List ElfShdr) (shStr secName : CText) (bounds : SectionBounds) : Prop :=
  ∀ sh, firstContaining shTbl shStr secName = some sh →
    (Named shTbl shStr secName → sh.shSize.toNat < 2 ^ 63 ∧
      ∃ sh' ∈ shTbl, shName shStr sh' = secName ∧ sh'.shAddr = sh.shAddr ∧ sh'.shSize = sh.shSize) ∧
    (¬Named shTbl shStr secName → sh.shSize = 0 ∧ bounds = ⟨sh.shAddr, sh.shAddr⟩)

theorem firstContaining_isSome {shTbl : List ElfShdr} {shStr secName : CText}
    (h : Named shTbl shStr secName) : (firstContaining shTbl shStr secName).isSome := by
  obtain ⟨sh, hsh, hname⟩ := h
  refine List.find?_isSome.mpr ⟨sh, hsh, ?_⟩
  rw [hname, strstr_self]
  rfl

theorem toInt64_eq_size_iff (size : UInt64) :
    size.toInt64.toInt = size.toNat ↔ size.toNat < 2 ^ 63 := by
  have hlt := size.toNat_lt
  have hint : size.toInt64.toInt = (size.toNat : ℤ).bmod (2 ^ 64) :=
    BitVec.toInt_eq_toNat_bmod size.toBitVec
  rw [hint, Int.bmod_def]
  omega

theorem boundsOf_inj {sh sh' : ElfShdr} :
    boundsOf sh = boundsOf sh' ↔ sh.shAddr = sh'.shAddr ∧ sh.shSize = sh'.shSize := by
  unfold boundsOf
  rw [SectionBounds.mk.injEq]
  constructor
  · rintro ⟨haddr, hend⟩
    rw [haddr] at hend
    exact ⟨haddr, add_left_cancel hend⟩
  · rintro ⟨haddr, hsize⟩
    rw [haddr, hsize]
    exact ⟨rfl, rfl⟩

/-- What the loop returns for the section that it takes. -/
theorem requested_taken_iff {shTbl : List ElfShdr} {shStr secName : CText} {bounds : SectionBounds}
    {sh : ElfShdr} :
    Requested shTbl shStr secName bounds (sh.shSize.toInt64, boundsOf sh) ↔
      (Named shTbl shStr secName → sh.shSize.toNat < 2 ^ 63 ∧ ∃ sh' ∈ shTbl,
        shName shStr sh' = secName ∧ sh'.shAddr = sh.shAddr ∧ sh'.shSize = sh.shSize) ∧
      (¬Named shTbl shStr secName → sh.shSize = 0 ∧ bounds = ⟨sh.shAddr, sh.shAddr⟩) := by
  constructor
  · rintro ⟨hnamed, hunnamed⟩
    refine ⟨fun h => ?_, fun h => ?_⟩
    · obtain ⟨sh', hmem, hname, hbounds, hsize⟩ := hnamed h
      obtain ⟨haddr, hsame⟩ := boundsOf_inj.mp hbounds
      rw [← hsame, toInt64_eq_size_iff] at hsize
      exact ⟨hsize, sh', hmem, hname, haddr.symm, hsame.symm⟩
    · obtain ⟨hsize, hbounds⟩ := Prod.mk.inj (hunnamed h)
      have hzero : sh.shSize = 0 := congrArg Int64.toUInt64 hsize
      refine ⟨hzero, ?_⟩
      rw [← hbounds, boundsOf, hzero, add_zero]
  · rintro ⟨hnamed, hunnamed⟩
    refine ⟨fun h => ?_, fun h => ?_⟩
    · obtain ⟨hsize, sh', hmem, hname, haddr, hsame⟩ := hnamed h
      refine ⟨sh', hmem, hname, boundsOf_inj.mpr ⟨haddr.symm, hsame.symm⟩, ?_⟩
      rw [hsame]
      exact (toInt64_eq_size_iff _).mpr hsize
    · obtain ⟨hzero, hbounds⟩ := hunnamed h
      rw [hbounds, boundsOf, hzero, add_zero]
      rfl

/-- Where the file can be read, section_find finds the requested section exactly when the first
section whose name contains the requested one is that section. -/
theorem sectionFind_requested_iff (shTbl : List ElfShdr) (shStr secName : CText)
    (bounds : SectionBounds) :
    (∃ r, sectionFind .succeed shTbl shStr secName bounds = some r ∧
      Requested shTbl shStr secName bounds r) ↔ FirstIsNamed shTbl shStr secName bounds := by
  have hrun : sectionFind .succeed shTbl shStr secName bounds =
      some (findLoop shStr secName shTbl bounds) := rfl
  rw [hrun, findLoop_eq]
  simp only [Option.some.injEq, exists_eq_left']
  unfold FirstIsNamed
  cases hfirst : firstContaining shTbl shStr secName with
  | none =>
    refine iff_of_true ⟨fun h => ?_, fun _ => ?_⟩ fun sh hsh => nomatch hsh
    · have hsome := firstContaining_isSome h
      rw [hfirst] at hsome
      contradiction
    · unfold firstContaining at hfirst
      rw [hfirst]
  | some sh =>
    unfold firstContaining at hfirst
    rw [hfirst]
    simp only [Option.some.injEq, forall_eq']
    exact requested_taken_iff

/-- The relocations in front of the section that they are for; both names end at the same
place of the string table. -/
def relaText : ElfShdr := ⟨1, 0x400, 0, 0x60⟩

def relaShTbl : List ElfShdr := [⟨0, 0, 0, 0⟩, relaText, ⟨6, 0x1000, 0, 0x100⟩]

def relaShStr : CText := "\x00.rela.text\x00".toList

theorem sectionFind_takes_relocations :
    ¬∃ r, sectionFind .succeed relaShTbl relaShStr ".text".toList ⟨0, 0⟩ = some r ∧
      Requested relaShTbl relaShStr ".text".toList ⟨0, 0⟩ r := by
  rintro ⟨r, hr, hrequested⟩
  have htaken : sectionFind .succeed relaShTbl relaShStr ".text".toList ⟨0, 0⟩ =
      some (relaText.shSize.toInt64, boundsOf relaText) := by decide
  have hnamed : Named relaShTbl relaShStr ".text".toList := by
    unfold Named
    decide
  rw [htaken, Option.some.injEq] at hr
  rw [← hr, requested_taken_iff] at hrequested
  exact absurd (hrequested.1 hnamed).2 (by decide)

end FuzzMonitor.Sections
