import RsProperties.Corruption.InfoReads
import RsProperties.Corruption.AreaReads

/-!
# Damaged files never stop a read

`new_ro` maps a property area after it has checked the file's length, magic and version; `load_path` maps a
property-info image after it has checked its length. Nothing else of the two files is trusted. For every
content of both and every name, the lookups and reads return a value or a typed error: no load leaves the
mapping, no index its slice, no sum its word, no `expect` fails, and no loop goes on. The walks are bounded by
the name alone and by the size of the area, also where links form a cycle.
-/

namespace RsProperties

open ByteMem Guarded

namespace AreaReads

/-- The mapping `new_ro` makes of a file. -/
def mapArea (file : Bytes) : PropertyAreaMap where
  mmap := { data := fun i => file.getD i 0, size := file.length, writable := false }
  dataOffset := propertyAreaSize
  paDataSize := file.length - propertyAreaSize

/-- `new_ro`, behind `validate_file_metadata`. -/
def newRo (file : Bytes) : AreaE PropertyAreaMap := do
  let paDataSize ← (subWord file.length propertyAreaSize : Area ℕ)
  if file.length = 0 then throw (.fileValidation "Cannot mmap zero-sized region")
  else do
    let pa : PropertyAreaMap := { mapArea file with paDataSize := paDataSize }
    let a ← (expect (pa.mmap.toObject propertyAreaSize 4 0 0) : Area ℕ)
    let magic ← (load pa (a + 8) : Area ℕ)
    let version ← (load pa (a + 12) : Area ℕ)
    if magic ≠ propAreaMagic ∨ version ≠ propAreaVersion then
      throw (.fileValidation "Invalid magic or version")
    else return pa

/-- An area file that `new_ro` accepts; everything behind the header is arbitrary. -/
structure AreaImage where
  file : Bytes
  header_le : propertyAreaSize ≤ file.length
  length_le : file.length ≤ isizeMax
  magic : readU32 (fun i => file.getD i 0) 8 = propAreaMagic
  version : readU32 (fun i => file.getD i 0) 12 = propAreaVersion

/-- The area a reader works on. -/
def AreaImage.area (image : AreaImage) : PropertyAreaMap := mapArea image.file

/-- Opening an accepted image gives its area. -/
theorem AreaImage.yields_newRo (image : AreaImage) : Yields (newRo image.file) (.ok image.area) 0 := by
  have hle := image.header_le
  have hlen := image.length_le
  have htop : image.area.mmap.size ≤ usizeMax := hlen.trans (by decide)
  have hobj : image.area.mmap.toObject propertyAreaSize 4 0 0 = .ok 0 :=
    MemoryMap.toObject_eq_ok htop (show 0 + 0 + propertyAreaSize ≤ image.file.length by omega) rfl
  rw [propertyAreaSize] at hle
  refine (runs_subWord image.header_le).yields_seq ?_
  rw [if_neg (by omega)]
  refine (runs_expect hobj).yields_seq ?_
  refine (runs_load32 (show 0 + 8 + 4 ≤ image.file.length by omega)).yields_seq ?_
  refine (runs_load32 (show 0 + 12 + 4 ≤ image.file.length by omega)).yields_seq ?_
  have hheader : ¬ (readU32 image.area.mmap.data (0 + 8) ≠ propAreaMagic ∨
      readU32 image.area.mmap.data (0 + 12) ≠ propAreaVersion) := by
    rintro (h | h)
    · exact h image.magic
    · exact h image.version
  refine cast ?_ (yields_pure (ε := Error) (W := Empty) (V := AreaVisit) image.area)
  exact congrArg (fun x => Yields x (.ok image.area) 0) (if_neg hheader).symm

/-- A node whose two links lead back to it, below the root of an otherwise empty area. -/
def cyclicImage : AreaImage where
  file := List.replicate 8 0 ++ [0x50, 0x52, 0x4f, 0x50, 0xab, 0xd0, 0x6e, 0xfc] ++ List.replicate 112 0 ++
    List.replicate 16 0 ++ [20, 0, 0, 0] ++
    [1, 0, 0, 0, 0, 0, 0, 0, 20, 0, 0, 0, 20, 0, 0, 0, 0, 0, 0, 0] ++ ascii "m" ++ [0, 0, 0]
  header_le := by decide +kernel
  length_le := by decide +kernel
  magic := by decide +kernel
  version := by decide +kernel

end AreaReads

open AreaReads

/-- **Damaged files never hang or crash a read.** The two images are arbitrary behind what loading them
checks. A string has at most `isize::MAX` bytes. The number behind each run bounds the nodes, or the
iterations of the read, that it goes through. -/
theorem damaged_files_read (info : PropertyInfoArea) (image : AreaImage) (name : Str)
    (hname : name.bytes.length ≤ isizeMax) :
    Runs (InfoReads.getPropertyInfoIndexes info name.bytes) (info.getPropertyInfoIndexes name.bytes)
      (name.bytes.count dot + 1) ∧
    (∀ index, Runs (InfoReads.contextOffset info index).run (info.contextOffset index).run 0) ∧
    (∀ offset, Yields (InfoReads.cstr info offset) (info.cstr offset) 0) ∧
    Yields (newRo image.file) (.ok image.area) 0 ∧
    Yields (find image.area name.bytes) (image.area.find name.bytes)
      ((name.bytes.count dot + 1) * (image.area.paDataSize / trieNodeSize + 1)) ∧
    (∀ offset, Yields (propertyInfoName image.area offset) (image.area.propertyInfoName offset) 0) ∧
    (∀ offset, Yields (longPropertyValue image.area offset) (image.area.longPropertyValue offset) 0) ∧
    (∀ len, Yields (readDirtyBackup image.area len) (image.area.readDirtyBackup len) 0) ∧
    ∀ (R : Type) (f : Str → R) (offset fuel : ℕ),
      Yields (readWithCallback image.area (fuel + 1) offset f)
        (f <$> image.area.readWithCallback offset) 1 := by
  have hstr : name.bytes.length ≤ usizeMax := hname.trans (by decide)
  have hsize : image.area.mmap.size ≤ isizeMax := image.length_le
  exact ⟨InfoReads.runs_getPropertyInfoIndexes name hstr, InfoReads.runs_contextOffset,
    InfoReads.yields_cstr, image.yields_newRo, yields_find name hstr, yields_propertyInfoName hsize,
    yields_longPropertyValue hsize, yields_readDirtyBackup, fun _ f offset fuel =>
      yields_readWithCallback hsize fuel offset f⟩

/-- The lookup of `a` goes round the cycle until its bound stops it, and the bound is what was promised. -/
theorem damaged_files_read_cycle :
    cyclicImage.area.find (ascii "a") =
      .error (.fileValidation "Trie node cycle detected (corrupt property area)") ∧
    Yields (find cyclicImage.area (ascii "a")) (cyclicImage.area.find (ascii "a")) 3 := by
  refine ⟨by decide +kernel, ?_⟩
  let info : PropertyInfoArea := { data := fun _ => 0, size := 24, header_le := by decide }
  have hread := damaged_files_read info cyclicImage ⟨ascii "a", by decide⟩ (by decide)
  exact hread.2.2.2.2.1.mono (by decide +kernel)

end RsProperties
