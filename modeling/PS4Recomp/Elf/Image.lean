import PS4Recomp.Library.Bytes

/-!
# Loaded ELF images

The data of `elfloader`: `LoadedELF` and what it holds.

* `AddrRange`, `Segment`, `Section`, `Symbol`, `Relocation` — the records of an image;
* `TLSModule`, `PendingTPOFF` — static TLS;
* `LoadedELF` — the image;
* `putUint64` — the checked write of a word, `none` where the slice expression panics.

Addresses and sizes are 64-bit patterns.  A segment's `Data` is a slice of the image's bytes, kept as
its bounds; maps are functions, with `none` for a missing key.  A string is a list of characters,
one for each byte.
-/

namespace PS4Recomp.Elf

open Library

/-- `AddrRange`: `[Start, End)`. -/
structure AddrRange where
  start : BitVec 64
  stop : BitVec 64
  deriving DecidableEq

/-- `Segment`; `data` holds the bounds of the slice of `MemoryImage`, `none` for `nil`. -/
structure Segment where
  vaddr : BitVec 64
  memsz : BitVec 64
  filesz : BitVec 64
  flags : BitVec 32
  data : Option (ℕ × ℕ) := none
  deriving DecidableEq

/-- The fields of `elf.Section` the loader reads. -/
structure Section where
  addr : BitVec 64
  size : BitVec 64
  deriving DecidableEq

/-- `Symbol`. -/
structure Symbol where
  name : String := ""
  address : BitVec 64 := 0
  size : BitVec 64 := 0
  type : BitVec 8 := 0
  sectionIndex : BitVec 64 := 0
  deriving DecidableEq

/-- `elf.STT_SECTION`, `elf.STT_TLS`, `elf.SHN_UNDEF`. -/
def sttSection : BitVec 8 := 3
def sttTLS : BitVec 8 := 6
def shnUndef : BitVec 64 := 0

/-- `Relocation`. -/
structure Relocation where
  offset : BitVec 64
  type : BitVec 32
  symIdx : BitVec 32 := 0
  symName : String := ""
  addend : BitVec 64 := 0
  pltAddr : BitVec 64 := 0
  deriving DecidableEq

/-- The relocation types. -/
def rX86_64_64 : BitVec 32 := 1
def rX86_64_GLOB_DAT : BitVec 32 := 6
def rX86_64_JUMP_SLOT : BitVec 32 := 7
def rX86_64_RELATIVE : BitVec 32 := 8
def rX86_64_DTPMOD64 : BitVec 32 := 16
def rX86_64_DTPOFF64 : BitVec 32 := 17
def rX86_64_TPOFF64 : BitVec 32 := 18

/-- `TLSModule`. -/
structure TLSModule where
  id : BitVec 64
  name : String := ""
  vaddr : BitVec 64
  filesz : BitVec 64
  memsz : BitVec 64
  align : BitVec 64
  offset : BitVec 64 := 0
  deriving DecidableEq

/-- `pendingTPOFF`. -/
structure PendingTPOFF where
  module : ℕ
  file : String
  offset : BitVec 64
  value : BitVec 64
  deriving DecidableEq

/-- `LoadedELF`. -/
structure LoadedELF where
  fileName : String := ""
  entryPoint : BitVec 64 := 0
  segments : List Segment := []
  sections : String → Option Section := fun _ => none
  symbols : List Symbol := []
  symbolByAddr : BitVec 64 → Option Symbol := fun _ => none
  symbolByName : String → Option Symbol := fun _ => none
  dynSymbols : List Symbol := []
  relocations : List Relocation := []
  initArray : List (BitVec 64) := []
  dynamicTags : BitVec 64 → Option (BitVec 64) := fun _ => none
  neededLibs : List String := []
  importLibs : BitVec 16 → Option String := fun _ => none
  execRanges : List AddrRange := []
  dynlibData : Bytes := []
  minVAddr : BitVec 64 := 0
  maxVAddr : BitVec 64 := 0
  origMinVAddr : BitVec 64 := 0
  origMaxVAddr : BitVec 64 := 0
  procParamAddr : BitVec 64 := 0
  procParamSize : BitVec 64 := 0
  canaryAddr : BitVec 64 := 0
  tlsVaddr : BitVec 64 := 0
  tlsFilesz : BitVec 64 := 0
  tlsMemsz : BitVec 64 := 0
  tlsAlign : BitVec 64 := 0
  tlsModules : List TLSModule := []
  tlsTPOFF : List PendingTPOFF := []
  memoryImage : Bytes := []
  funcBounds : List AddrRange := []
  lsdaBounds : List AddrRange := []
  unwindRanges : List AddrRange := []
  dataRanges : List AddrRange := []
  ehFrameHdrAddr : BitVec 64 := 0
  ehFrameHdrSize : BitVec 64 := 0
  ehFrameAddr : BitVec 64 := 0
  ehFrameSize : BitVec 64 := 0
  seg0Addr : BitVec 64 := 0
  seg0Size : BitVec 64 := 0

/-- `uint64(len(img))`. -/
def len64 (img : Bytes) : BitVec 64 := BitVec.ofNat 64 img.length

/-- `binary.LittleEndian.PutUint64(img[off:off+8], v)`; `none` where the slice panics. -/
def putUint64 (img : Bytes) (off v : BitVec 64) : Option Bytes :=
  if off ≤ off + 8 ∧ (off + 8).toNat ≤ img.length then some (img.putWord off.toNat v) else none

/-- A write succeeds exactly inside the image, and `off + 8` does not wrap there. -/
theorem putUint64_eq_some {img img' : Bytes} {off v : BitVec 64} :
    putUint64 img off v = some img' ↔
      off.toNat + 8 < 2 ^ 64 ∧ off.toNat + 8 ≤ img.length ∧ img' = img.putWord off.toNat v := by
  have hoff := off.isLt
  have hsum : (off + 8).toNat = (off.toNat + 8) % 2 ^ 64 := BitVec.toNat_add off 8
  have hcond : (off ≤ off + 8 ∧ (off + 8).toNat ≤ img.length) ↔
      off.toNat + 8 < 2 ^ 64 ∧ off.toNat + 8 ≤ img.length := by
    rw [BitVec.le_def, hsum]
    constructor
    · intro h
      have hlt : off.toNat + 8 < 2 ^ 64 := by omega
      omega
    · intro h
      omega
  unfold putUint64
  by_cases h : off ≤ off + 8 ∧ (off + 8).toNat ≤ img.length
  · rw [if_pos h, Option.some.injEq]
    rw [hcond] at h
    exact ⟨fun heq => ⟨h.1, h.2, heq.symm⟩, fun heq => heq.2.2.symm⟩
  · rw [if_neg h]
    rw [hcond] at h
    exact ⟨fun heq => (nomatch heq), fun heq => absurd ⟨heq.1, heq.2.1⟩ h⟩

end PS4Recomp.Elf
