import PS4Recomp.Elf.ApplyBias
import PS4Recomp.Library.PartialFold
import PS4Recomp.Library.Readers

/-!
# SELF containers

`ExtractELFFromSELF`: an ELF image put together from a SELF container.

* `index` — a substring of the file; slices and words of it are `none` where a slice panics;
* `SelfEntry`, `PhdrView`, `Container` — the entries, the program headers and what is read with them;
* `readEntries`, `findELF`, `readPhdrs`, `readContainer` — the checks in front of the copies;
* `findSELFSegment`, `Copying`, `copyHeader` — the copies of one header in a pass;
* `extractELFFromSELF` — the image, or an error;
* `readContainer_total` — the checks never panic.

An `int` that is a length or an offset in the file is a natural number; `make` panics past `maxAlloc`.
-/

namespace PS4Recomp.Elf

open Library

/-! ### reads -/

/-- `bytes.Index`. -/
def index (sep : Bytes) : Bytes → Option ℕ
  | [] => if sep = [] then some 0 else none
  | b :: bs => if sep.isPrefixOf (b :: bs) then some 0 else (index sep bs).map (· + 1)

/-- `SELFMagic`. -/
def selfMagic : Bytes := [0x4f, 0x15, 0x3d, 0x1d]

/-- The first bytes of an ELF file. -/
def elfMagic : Bytes := [0x7f, 0x45, 0x4c, 0x46]

/-- `IsSELF`. -/
def isSELF (data : Bytes) : Bool := decide (4 ≤ data.length) && decide (data.take 4 = selfMagic)

def selfHeaderSize : ℕ := 0x20
def selfEntrySize : ℕ := 0x20

/-! ### the container -/

/-- `selfEntry`. -/
structure SelfEntry where
  props : BitVec 64
  offset : BitVec 64
  fileSize : BitVec 64
  memorySize : BitVec 64
  deriving DecidableEq

namespace SelfEntry

def hasBlocks (e : SelfEntry) : Bool := (e.props >>> 11) &&& 1 == 1

def segmentIndex (e : SelfEntry) : BitVec 64 := (e.props >>> 20) &&& 0xffff

/-- The entry at an offset of the table. -/
def read (data : Bytes) (off : ℕ) : Option SelfEntry :=
  (readLE 8 data off).bind fun props =>
  (readLE 8 data (off + 8)).bind fun offset =>
  (readLE 8 data (off + 16)).bind fun fileSize =>
  (readLE 8 data (off + 24)).map fun memorySize => { props, offset, fileSize, memorySize }

end SelfEntry

/-- `phdrView`. -/
structure PhdrView where
  index : ℕ
  type : BitVec 32
  offset : BitVec 64
  filesz : BitVec 64
  deriving DecidableEq

/-- The program header at an offset of the table. -/
def PhdrView.read (data : Bytes) (off index : ℕ) : Option PhdrView :=
  (readLE 4 data off).bind fun type =>
  (readLE 8 data (off + 8)).bind fun offset =>
  (readLE 8 data (off + 32)).map fun filesz => { index, type, offset, filesz }

/-- What is read of a container before the copies. -/
structure Container where
  entries : List SelfEntry
  elfOff : ℕ
  ehdr : Bytes
  phoff : BitVec 64
  phdrTable : Bytes
  phdrs : List PhdrView
  outSize : BitVec 64
  deriving DecidableEq

/-- The entry table, and the offset behind it. -/
def readEntries (data : Bytes) : Option (Except String (List SelfEntry × ℕ)) :=
  if data.length < selfHeaderSize then some (.error "SELF header too short")
  else (readLE 2 data 0x18).bind fun numEntries =>
    let numEntries := numEntries.toNat
    if 4096 < numEntries then some (.error s!"invalid SELF entry count {numEntries}")
    else if data.length < selfHeaderSize + numEntries * selfEntrySize then
      some (.error "SELF entry table is truncated")
    else
      ((List.range numEntries).mapM fun i => SelfEntry.read data (selfHeaderSize + i * selfEntrySize)).map
        fun entries => .ok (entries, selfHeaderSize + numEntries * selfEntrySize)

/-- The test for an ELF header at an offset. -/
def elfAt (data : Bytes) (off : ℕ) : Option Bool :=
  if data.length < off + 64 then some false
  else (slice data off (off + 4)).map (· == elfMagic)

/-- The offset of the embedded ELF: behind the entries, or wherever its first bytes are found. -/
def findELF (data : Bytes) (off : ℕ) : Option (Except String ℕ) :=
  let elfOff := (off + 0xf) / 16 * 16
  (elfAt data elfOff).bind fun here =>
    if here then some (.ok elfOff)
    else (slice data elfOff data.length).map fun rest =>
      match index elfMagic rest with
      | some idx => .ok (elfOff + idx)
      | none =>
          match index elfMagic data with
          | none | some 0 => .error "SELF container does not contain an embedded ELF"
          | some idx => .ok idx

/-- `outSize` behind the program headers that are read. -/
def outSizeOf (start : BitVec 64) (phdrs : List PhdrView) : BitVec 64 :=
  let size := phdrs.foldl (fun size pv => if size < pv.offset + pv.filesz then pv.offset + pv.filesz else size)
    start
  if size < 64 then 64 else size

/-- The ELF header, the program headers and the size of the image. -/
def readPhdrs (data : Bytes) (entries : List SelfEntry) (elfOff : ℕ) :
    Option (Except String Container) :=
  if data.length < elfOff + 64 then some (.error "embedded ELF header is truncated")
  else (slice data elfOff (elfOff + 64)).bind fun ehdr =>
    (slice ehdr 4 5).bind fun cls =>
    if cls ≠ [2] then some (.error "embedded ELF is not 64-bit")
    else (readLE 8 ehdr 32).bind fun phoff =>
      (readLE 2 ehdr 54).bind fun phentsize =>
      (readLE 2 ehdr 56).bind fun phnum =>
      if phentsize < 0x38 ∨ phnum = 0 then some (.error "embedded ELF has no program headers")
      else
        let phdrStart := elfOff + phoff.toNat
        let phdrEnd := phdrStart + phnum.toNat * phentsize.toNat
        if data.length < phoff.toNat ∨ data.length < phdrEnd then
          some (.error "embedded ELF program headers are truncated")
        else
          ((List.range phnum.toNat).mapM fun i =>
              PhdrView.read data (phdrStart + i * phentsize.toNat) i).bind fun phdrs =>
          (slice data phdrStart phdrEnd).map fun phdrTable =>
            .ok { entries, elfOff, ehdr, phoff, phdrTable, phdrs
                  outSize := outSizeOf (BitVec.ofNat 64 (phdrEnd - elfOff)) phdrs }

/-- The checks in front of the copies. -/
def readContainer (data : Bytes) : Option (Except String Container) :=
  match readEntries data with
  | none => none
  | some (.error e) => some (.error e)
  | some (.ok (entries, off)) =>
      match findELF data off with
      | none => none
      | some (.error e) => some (.error e)
      | some (.ok elfOff) => readPhdrs data entries elfOff

/-! ### the copies -/

/-- `findSELFSegment`: the bytes of the first entry of a header that has any, or `nil`. -/
def findSELFSegment (data : Bytes) (phdrIndex : ℕ) (filesz : BitVec 64) :
    List SelfEntry → Option (Option Bytes)
  | [] => some none
  | e :: es =>
      if e.hasBlocks = false ∨ e.segmentIndex.toNat ≠ phdrIndex then
        findSELFSegment data phdrIndex filesz es
      else if len64 data ≤ e.offset ∨ e.fileSize = 0 then findSELFSegment data phdrIndex filesz es
      else
        let stop := e.offset + e.fileSize
        let stop := if len64 data < stop then len64 data else stop
        (slice data e.offset.toNat stop.toNat).map fun seg =>
          if 0 < filesz ∧ filesz < len64 seg then some (seg.take filesz.toNat) else some seg

/-- `out`, `covered` and `copied` between the copies. -/
structure Copying where
  out : Bytes
  covered : List (BitVec 64 × BitVec 64) := []
  copied : ℕ := 0
  deriving DecidableEq

namespace Copying

/-- `isCovered`. -/
def isCovered (st : Copying) (start stop : BitVec 64) : Bool :=
  st.covered.any fun c => decide (c.1 ≤ start) && decide (stop ≤ c.2)

/-- A copy of at most `n` bytes to an offset. -/
def copy (st : Copying) (offset n : BitVec 64) (src : Bytes) : Option Copying :=
  let n := if len64 src < n then len64 src else n
  (copyRange st.out offset (offset + n) (src.take n.toNat)).map fun out =>
    { out, covered := st.covered ++ [(offset, offset + n)], copied := st.copied + 1 }

end Copying

/-- The bytes of the file behind the embedded ELF header, for a header without an entry. -/
def fallback (data : Bytes) (elfOff : ℕ) (offset n : BitVec 64) : Option (Option Bytes) :=
  let srcOff := elfOff + offset.toNat
  if srcOff < data.length then
    let avail := BitVec.ofNat 64 (data.length - srcOff)
    let n := if avail < n then avail else n
    (slice data srcOff (srcOff + n.toNat)).map some
  else some none

/-- One header in the first pass, or in the second. -/
def copyHeader (data : Bytes) (c : Container) (second : Bool) (st : Copying) (ph : PhdrView) :
    Option Copying :=
  if ph.filesz = 0 ∨ c.outSize ≤ ph.offset then some st
  else
    let n := if c.outSize < ph.offset + ph.filesz then c.outSize - ph.offset else ph.filesz
    (findSELFSegment data ph.index ph.filesz c.entries).bind fun src =>
      match second, src with
      | false, none => some st
      | false, some src => st.copy ph.offset n src
      | true, some _ => some st
      | true, none =>
          if st.isCovered ph.offset (ph.offset + n) then some st
          else (fallback data c.elfOff ph.offset n).bind fun src =>
            match src with
            | none => some st
            | some src => st.copy ph.offset n src

/-- The image before the copies: the ELF header without sections, and the program headers. -/
def headers (c : Container) : Option Bytes :=
  (makeBytes c.outSize).bind fun out =>
  (copyRange out 0 64 c.ehdr).bind fun out =>
  (if c.phoff + len64 c.phdrTable ≤ c.outSize then copyRange out c.phoff (len64 out) c.phdrTable
    else some out).bind fun out =>
  (copyRange out 40 48 (toLE 8 0)).bind fun out =>
  (copyRange out 60 62 (toLE 2 0)).bind fun out =>
  copyRange out 62 64 (toLE 2 0)

/-- The two passes. -/
def copies (data : Bytes) (c : Container) (out : Bytes) : Option Copying :=
  (c.phdrs.foldlM (copyHeader data c false) { out }).bind fun st =>
    c.phdrs.foldlM (copyHeader data c true) st

/-- The checks behind the copies; 62 is `elf.EM_X86_64`. -/
def finish (st : Copying) : Option (Except String Bytes) :=
  if st.copied = 0 then some (.error "SELF contained no loadable segment data")
  else if elfMagic.isPrefixOf st.out = false then some (.error "reconstructed SELF image is not an ELF")
  else (readLE 2 st.out 18).map fun machine =>
    if machine ≠ 62 then .error "reconstructed SELF image is not x86-64" else .ok st.out

/-- `ExtractELFFromSELF`; `none` where it panics. -/
def extractELFFromSELF (data : Bytes) : Option (Except String Bytes) :=
  if isSELF data = false then some (.ok data)
  else
    match readContainer data with
    | none => none
    | some (.error e) => some (.error e)
    | some (.ok c) => ((headers c).bind (copies data c)).bind finish

/-! ### the checks -/

variable {data : Bytes} {c : Container}

theorem SelfEntry.read_total {off : ℕ} (h : off + selfEntrySize ≤ data.length) :
    ∃ e, SelfEntry.read data off = some e := by
  rw [selfEntrySize] at h
  obtain ⟨props, hprops⟩ := readLE_total 8 data (by omega : off + 8 ≤ data.length)
  obtain ⟨offset, hoffset⟩ := readLE_total 8 data (by omega : off + 8 + 8 ≤ data.length)
  obtain ⟨size, hsize⟩ := readLE_total 8 data (by omega : off + 16 + 8 ≤ data.length)
  obtain ⟨mem, hmem⟩ := readLE_total 8 data (by omega : off + 24 + 8 ≤ data.length)
  refine ⟨{ props, offset, fileSize := size, memorySize := mem }, ?_⟩
  rw [SelfEntry.read, hprops, Option.bind_some, hoffset, Option.bind_some, hsize, Option.bind_some, hmem,
    Option.map_some]

theorem PhdrView.read_total {off : ℕ} (index : ℕ) (h : off + 0x38 ≤ data.length) :
    ∃ ph, PhdrView.read data off index = some ph := by
  obtain ⟨type, htype⟩ := readLE_total 4 data (by omega : off + 4 ≤ data.length)
  obtain ⟨offset, hoffset⟩ := readLE_total 8 data (by omega : off + 8 + 8 ≤ data.length)
  obtain ⟨size, hsize⟩ := readLE_total 8 data (by omega : off + 32 + 8 ≤ data.length)
  refine ⟨{ index, type, offset, filesz := size }, ?_⟩
  rw [PhdrView.read, htype, Option.bind_some, hoffset, Option.bind_some, hsize, Option.map_some]

/-- What the checks of a container come to. -/
structure Container.Checked (data : Bytes) (c : Container) : Prop where
  elf : c.elfOff + 64 ≤ data.length
  ehdr : c.ehdr.length = 64
  table : c.phoff.toNat + c.phdrTable.length ≤ c.outSize.toNat
  size : 64 ≤ c.outSize.toNat
  fits : ∀ ph ∈ c.phdrs, ph.offset + ph.filesz ≤ c.outSize

theorem readEntries_total (data : Bytes) : ∃ r, readEntries data = some r ∧
    ∀ entries off, r = .ok (entries, off) → off % 16 = 0 ∧ off ≤ data.length := by
  rw [readEntries]
  by_cases hshort : data.length < selfHeaderSize
  · rw [if_pos hshort]
    exact ⟨_, rfl, fun _ _ h => (by cases h)⟩
  · rw [if_neg hshort]
    rw [selfHeaderSize] at hshort ⊢
    obtain ⟨n, hn⟩ := readLE_total 2 data (by omega : 0x18 + 2 ≤ data.length)
    rw [hn, Option.bind_some]
    dsimp only
    split
    · exact ⟨_, rfl, fun _ _ h => (by cases h)⟩
    · split
      · exact ⟨_, rfl, fun _ _ h => (by cases h)⟩
      · rename_i hfit
        rw [selfEntrySize] at hfit ⊢
        obtain ⟨entries, hentries⟩ := mapM_total (l := List.range n.toNat)
          (g := fun i => SelfEntry.read data (0x20 + i * 0x20)) fun i hi => by
            rw [List.mem_range] at hi
            exact SelfEntry.read_total (by rw [selfEntrySize]; omega)
        rw [hentries]
        refine ⟨_, rfl, fun _ off h => ?_⟩
        cases h
        omega

theorem findELF_total {off : ℕ} (hal : off % 16 = 0) (hle : off ≤ data.length) :
    ∃ r, findELF data off = some r := by
  have hsame : (off + 0xf) / 16 * 16 = off := by omega
  rw [findELF, hsame]
  have hat : ∃ here, elfAt data off = some here := by
    rw [elfAt]
    split
    · exact ⟨_, rfl⟩
    · obtain ⟨bs, hbs, -⟩ := slice_total data (by omega : off ≤ off + 4) (by omega)
      rw [hbs]
      exact ⟨_, rfl⟩
  obtain ⟨here, hhere⟩ := hat
  rw [hhere, Option.bind_some]
  split
  · exact ⟨_, rfl⟩
  · obtain ⟨bs, hbs, -⟩ := slice_total data hle (Nat.le_refl _)
    rw [hbs]
    exact ⟨_, rfl⟩

/-- The size is at least 64, the given start and every end of a header. -/
theorem outSizeOf_spec (start : BitVec 64) (phdrs : List PhdrView) :
    start ≤ outSizeOf start phdrs ∧ 64 ≤ outSizeOf start phdrs ∧
      ∀ ph ∈ phdrs, ph.offset + ph.filesz ≤ outSizeOf start phdrs := by
  have hmax : ∀ (phdrs : List PhdrView) (start : BitVec 64),
      let size := phdrs.foldl
        (fun size pv => if size < pv.offset + pv.filesz then pv.offset + pv.filesz else size) start
      start ≤ size ∧ ∀ ph ∈ phdrs, ph.offset + ph.filesz ≤ size := by
    intro phdrs
    induction phdrs with
    | nil => exact fun start => ⟨BitVec.le_refl _, fun ph hph => (by cases hph)⟩
    | cons pv rest ih =>
        intro start
        obtain ⟨hstart, hrest⟩ := ih (if start < pv.offset + pv.filesz then pv.offset + pv.filesz else start)
        have hboth : start ≤ (if start < pv.offset + pv.filesz then pv.offset + pv.filesz else start) ∧
            pv.offset + pv.filesz ≤
              (if start < pv.offset + pv.filesz then pv.offset + pv.filesz else start) := by
          split
          · rename_i hlt
            exact ⟨BitVec.le_of_lt hlt, BitVec.le_refl _⟩
          · rename_i hge
            exact ⟨BitVec.le_refl _, BitVec.not_lt.1 hge⟩
        refine ⟨BitVec.le_trans hboth.1 hstart, fun ph hph => ?_⟩
        rcases List.mem_cons.1 hph with rfl | hph
        · exact BitVec.le_trans hboth.2 hstart
        · exact hrest ph hph
  obtain ⟨hstart, hends⟩ := hmax phdrs start
  rw [outSizeOf]
  split
  · rename_i hsmall
    have hle := BitVec.le_of_lt hsmall
    exact ⟨BitVec.le_trans hstart hle, BitVec.le_refl _, fun ph hph => BitVec.le_trans (hends ph hph) hle⟩
  · rename_i hlarge
    exact ⟨hstart, BitVec.not_lt.1 hlarge, hends⟩

theorem readPhdrs_total (hlen : data.length < 2 ^ 63) (entries : List SelfEntry) (elfOff : ℕ) :
    ∃ r, readPhdrs data entries elfOff = some r ∧ ∀ c, r = .ok c → c.Checked data := by
  rw [readPhdrs]
  split
  · exact ⟨_, rfl, fun _ h => (by cases h)⟩
  · rename_i hfit
    obtain ⟨ehdr, hehdr, hlen64⟩ := slice_total data (by omega : elfOff ≤ elfOff + 64) (by omega)
    rw [Nat.add_sub_cancel_left] at hlen64
    obtain ⟨cls, hcls, -⟩ := slice_total ehdr (by omega : 4 ≤ 5) (by omega)
    rw [hehdr, Option.bind_some, hcls, Option.bind_some]
    split
    · exact ⟨_, rfl, fun _ h => (by cases h)⟩
    · obtain ⟨phoff, hphoff⟩ := readLE_total 8 ehdr (by omega : 32 + 8 ≤ ehdr.length)
      obtain ⟨phentsize, hphentsize⟩ := readLE_total 2 ehdr (by omega : 54 + 2 ≤ ehdr.length)
      obtain ⟨phnum, hphnum⟩ := readLE_total 2 ehdr (by omega : 56 + 2 ≤ ehdr.length)
      rw [hphoff, Option.bind_some, hphentsize, Option.bind_some, hphnum, Option.bind_some]
      split
      · exact ⟨_, rfl, fun _ h => (by cases h)⟩
      · rename_i hsize
        rw [not_or, BitVec.not_lt, BitVec.le_def] at hsize
        dsimp only
        split
        · exact ⟨_, rfl, fun _ h => (by cases h)⟩
        · rename_i hends
          rw [not_or] at hends
          have hsmall : 0x38 ≤ phentsize.toNat := hsize.1
          obtain ⟨phdrs, hphdrs⟩ := mapM_total (l := List.range phnum.toNat)
            (g := fun i => PhdrView.read data (elfOff + phoff.toNat + i * phentsize.toNat) i) fun i hi => by
              rw [List.mem_range] at hi
              have hrow : (i + 1) * phentsize.toNat ≤ phnum.toNat * phentsize.toNat :=
                Nat.mul_le_mul_right _ hi
              rw [Nat.succ_mul] at hrow
              exact PhdrView.read_total i (by omega)
          obtain ⟨table, htable, htlen⟩ := slice_total data (Nat.le_add_right
            (elfOff + phoff.toNat) (phnum.toNat * phentsize.toNat)) (by omega)
          rw [hphdrs, Option.bind_some, htable]
          refine ⟨_, rfl, fun c hc => ?_⟩
          cases hc
          obtain ⟨hstart, h64, hends'⟩ := outSizeOf_spec (BitVec.ofNat 64
            (elfOff + phoff.toNat + phnum.toNat * phentsize.toNat - elfOff)) phdrs
          rw [BitVec.le_def] at hstart h64
          rw [BitVec.toNat_ofNat, Nat.mod_eq_of_lt (by omega)] at hstart
          refine ⟨by dsimp only; omega, hlen64, ?_, h64, hends'⟩
          dsimp only
          omega

theorem readContainer_total {data : Bytes} (hlen : data.length < 2 ^ 63) :
    ∃ r, readContainer data = some r ∧ ∀ c, r = .ok c → c.Checked data := by
  rw [readContainer]
  obtain ⟨r, hr, hspec⟩ := readEntries_total data
  rw [hr]
  cases r with
  | error e => exact ⟨_, rfl, fun _ h => (by cases h)⟩
  | ok table =>
      obtain ⟨entries, off⟩ := table
      obtain ⟨hal, hle⟩ := hspec entries off rfl
      obtain ⟨r, hr⟩ := findELF_total hal hle
      dsimp only
      rw [hr]
      cases r with
      | error e => exact ⟨_, rfl, fun _ h => (by cases h)⟩
      | ok elfOff => exact readPhdrs_total hlen entries elfOff

end PS4Recomp.Elf
