import PS4Recomp.Elf.EhPointers
import PS4Recomp.Elf.FuncExtents

/-!
# Unwind tables

`attachUnwind`: the function extents of an image, from its `.eh_frame`.

* `CieInfo`, `parseAug`, `parseCIE`, `cieRecordEnd` — what a common record says about those that name it;
* `Fde`, `Walk`, `recordFde`, `walkRecord`, `walkFrom`, `walkEHFrame` — the records one after the other;
* `scanFrom`, `scanBackwardEHFrame` — the search for their start;
* `Found`, `findHdr`, `parseEHFrameHdr`, `tryHdr`, `windowFrom`, `parseEHFrameWindow` — the tables of
  `.eh_frame_hdr`;
* `Attach`, `attachProgs`, `attachUnwind` — what is stored in the image.

A result is `none` where the code panics. The loops over positions end because the position moves; the one
over records counts to `maxRecords`. `Fde` keeps, next to an extent, the record it was read from.
-/

namespace PS4Recomp.Elf

open Library

/-! ### records -/

/-- `cieInfo`. -/
structure CieInfo where
  enc : BitVec 8 := dwEHPEUdata8
  lsdaEnc : BitVec 8 := dwEHPEOmit
  hasLSDA : Bool := false
  hasAugZ : Bool := false
  ok : Bool := false
  deriving DecidableEq

/-- The loop of `parseCIE` over the letters behind the `z`. -/
def parseAug (img : Bytes) (dataEnd : ℕ) : List (BitVec 8) → ℕ → CieInfo → Option CieInfo
  | [], _, info => some { info with ok := true }
  | ch :: chs, i, info =>
      if dataEnd ≤ i then some info
      else if ch = 0x4c then
        img[i]?.bind fun b => parseAug img dataEnd chs (i + 1) { info with hasLSDA := true, lsdaEnc := b }
      else if ch = 0x52 then
        img[i]?.bind fun b => parseAug img dataEnd chs (i + 1) { info with enc := b }
      else if ch = 0x50 then
        if dataEnd < i + 1 then some info
        else img[i]?.bind fun penc => (ehRead 0 penc img (i + 1)).bind fun r =>
          match r with
          | none => some info
          | some (_, i) => if dataEnd < i then some info else parseAug img dataEnd chs i info
      else some info

/-- The numbers behind the augmentation string: the alignments and the return register. -/
def skipFactors (img : Bytes) (ver : BitVec 8) (i stop : ℕ) : Option (Option ℕ) :=
  (readULEB img i stop).bind fun r =>
    match r with
    | none => some none
    | some (_, i) => (readSLEB img i stop).bind fun r =>
        match r with
        | none => some none
        | some (_, i) =>
            if ver = 1 then if stop ≤ i then some none else some (some (i + 1))
            else (readULEB img i stop).map fun r => r.map Prod.snd

/-- `parseCIE`. -/
def parseCIE (img : Bytes) (start stop : BitVec 64) : Option CieInfo :=
  if stop < start + 8 ∨ len64 img < stop then some {}
  else
    let i := start.toNat + 8
    if stop.toNat ≤ i then some {}
    else img[i]?.bind fun ver => (slice img (i + 1) stop.toNat).bind fun rest =>
      let aug := rest.takeWhile (· ≠ 0)
      let i := i + 1 + aug.length
      if stop.toNat ≤ i then some {}
      else (skipFactors img ver (i + 1) stop.toNat).bind fun r =>
        match r with
        | none => some {}
        | some i =>
            if aug.head? ≠ some 0x7a then some { ok := true }
            else (readULEB img i stop.toNat).bind fun r =>
              match r with
              | none => some { hasAugZ := true }
              | some (augLen, i) =>
                  let dataEnd := BitVec.ofNat 64 i + augLen
                  if stop < dataEnd then some { hasAugZ := true }
                  else parseAug img dataEnd.toNat aug.tail i { hasAugZ := true }

/-- `cieRecordEnd`. -/
def cieRecordEnd (img : Bytes) (cieVA limit : BitVec 64) : Option (BitVec 64) :=
  if len64 img < cieVA + 4 ∨ limit < cieVA + 4 then some cieVA
  else (readLE 4 img cieVA.toNat).map fun length =>
    if length = 0 ∨ length = 0xffffffff then cieVA
    else
      let stop := cieVA + 4 + length.setWidth 64
      if len64 img < stop ∨ limit < stop then cieVA else stop

/-- An extent, and the record it was read from: from behind its length to its end, the encoding that its
common record names, and the end of the two fields. -/
structure Fde where
  body : BitVec 64
  recEnd : BitVec 64
  enc : BitVec 8
  range : AddrRange
  next : ℕ

/-- `cies`, `bounds` and `lsdaBounds` between the records. -/
structure Walk where
  cies : BitVec 64 → Option CieInfo := fun _ => none
  fdes : List Fde := []
  lsdaBounds : List AddrRange := []

/-- `bounds`. -/
def Walk.bounds (w : Walk) : List AddrRange := w.fdes.map Fde.range

/-- What is kept of a record whose common record can be read. -/
def recordFde (img : Bytes) (frameVA body recEnd : BitVec 64) (info : CieInfo) (w : Walk) : Option Walk :=
  (readFDERange info.enc img (body + 4).toNat).bind fun r =>
    match r with
    | none => some w
    | some ((start, size), fdeOff) =>
        let range : AddrRange := { start, stop := start + size }
        let w := { w with fdes := w.fdes ++ [{ body, recEnd, enc := info.enc, range, next := fdeOff }] }
        if info.hasAugZ ∧ info.hasLSDA ∧ info.lsdaEnc ≠ dwEHPEOmit ∧ fdeOff < recEnd.toNat then
          (readULEB img fdeOff recEnd.toNat).bind fun r =>
            match r with
            | none => some w
            | some (augLen, augDataOff) =>
                if 0 < augLen ∧ augDataOff < recEnd.toNat then
                  (ehRead frameVA info.lsdaEnc img augDataOff).map fun r =>
                    match r with
                    | none => w
                    | some (lsdaVal, _) =>
                        if lsdaVal ≠ 0 then { w with lsdaBounds := w.lsdaBounds ++ [range] } else w
                else some w
        else some w

/-- One record of `WalkEHFrame`, common or not. -/
def walkRecord (img : Bytes) (frameVA limit pos recEnd : BitVec 64) (w : Walk) : Option Walk :=
  let body := pos + 4
  (readLE 4 img body.toNat).bind fun id32 =>
    let id : BitVec 64 := id32.setWidth 64
    if id = 0 then
      (parseCIE img pos recEnd).map fun info => { w with cies := Function.update w.cies pos (some info) }
    else if body < id then some w
    else
      let cieVA := body - id
      (match w.cies cieVA with
        | some info => some (info, w)
        | none => (cieRecordEnd img cieVA limit).bind fun stop => (parseCIE img cieVA stop).map fun info =>
            (info, { w with cies := Function.update w.cies cieVA (some info) })).bind fun (info, w) =>
        if info.ok then recordFde img frameVA body recEnd info w else some w

/-- `maxRecords`. -/
def maxRecords : ℕ := 2 ^ 22

/-- The loop of `WalkEHFrame`, for at most `n` more records. -/
def walkFrom (img : Bytes) (frameVA limit : BitVec 64) : ℕ → BitVec 64 → Walk → Option (BitVec 64 × Walk)
  | 0, pos, w => some (pos, w)
  | n + 1, pos, w =>
      if limit < pos + 4 then some (pos, w)
      else (readLE 4 img pos.toNat).bind fun length32 =>
        let body := pos + 4
        if length32 = 0 then some (body, w)
        else if length32 = 0xffffffff then
          if limit < pos + 12 then some (pos, w)
          else (readLE 8 img body.toNat).bind fun longLen =>
            let recEnd := pos + 12 + longLen
            if longLen = 0 ∨ recEnd < pos ∨ limit < recEnd then some (pos, w)
            else walkFrom img frameVA limit n recEnd w
        else
          let recEnd := body + length32.setWidth 64
          if recEnd < body ∨ limit < recEnd then some (pos, w)
          else if recEnd < body + 4 then some (pos, w)
          else (walkRecord img frameVA limit pos recEnd w).bind fun w =>
            walkFrom img frameVA limit n recEnd w

/-- `WalkEHFrame`. -/
def walkEHFrame (img : Bytes) (frameVA limit : BitVec 64) : Option (BitVec 64 × Walk) :=
  if len64 img ≤ frameVA ∨ len64 img < limit ∨ limit ≤ frameVA then some (frameVA, {})
  else walkFrom img frameVA limit maxRecords frameVA {}

/-! ### the search -/

/-- What `scanBackwardEHFrame` has found: the start, the end and the records. -/
structure Scan where
  start : BitVec 64 := 0
  stop : BitVec 64 := 0
  walk : Walk := {}

/-- A common record may begin at a position. -/
def mayStart (img : Bytes) (pos : BitVec 64) : Option Bool :=
  (readLE 4 img pos.toNat).bind fun len32 => (readLE 4 img (pos + 4).toNat).bind fun id =>
    if id = 0 ∧ 12 ≤ len32 ∧ len32 ≤ 256 then
      img[(pos + 8).toNat]?.map fun version => version == 1 || version == 3
    else some false

/-- The records from a position, where they end at the limit. -/
def scanAt (img : Bytes) (limit pos : BitVec 64) (found : Scan) : Option Scan :=
  (mayStart img pos).bind fun may =>
    if may then (walkEHFrame img pos limit).map fun (walkEnd, w) =>
      if walkEnd = limit ∧ w.bounds ≠ [] then { start := pos, stop := walkEnd, walk := w } else found
    else some found

theorem toNat_sub_four_lt {pos : BitVec 64} (h : ¬ pos < 4) : (pos - 4).toNat < pos.toNat := by
  rw [BitVec.not_lt] at h
  have hle : 4 ≤ pos.toNat := BitVec.le_def.1 h
  rw [BitVec.toNat_sub_of_le h]
  show pos.toNat - 4 < pos.toNat
  omega

/-- The loop of `scanBackwardEHFrame`. -/
def scanFrom (img : Bytes) (limit minAddr pos : BitVec 64) (found : Scan) : Option Scan :=
  if pos < minAddr then some found
  else if limit < pos + 16 then
    if h : pos < 4 then some found
    else scanFrom img limit minAddr (pos - 4) found
  else (scanAt img limit pos found).bind fun found =>
    if h : pos < 4 then some found
    else scanFrom img limit minAddr (pos - 4) found
termination_by pos.toNat
decreasing_by
  · exact toNat_sub_four_lt h
  · exact toNat_sub_four_lt h

/-- `scanBackwardEHFrame`. -/
def scanBackwardEHFrame (img : Bytes) (limit : BitVec 64) : Option Scan :=
  let limit := if len64 img < limit then len64 img else limit
  let maxLookback : BitVec 64 := 32 * 1024 * 1024
  let minAddr := if maxLookback < limit then limit - maxLookback else 0
  scanFrom img limit minAddr (limit - 4) {}

/-! ### the headers -/

/-- What `parseEHFrameHdr` finds. -/
structure Found where
  frameVA : BitVec 64
  stop : BitVec 64
  walk : Walk
  hdrVA : BitVec 64
  hdrEnd : BitVec 64

/-- The address of the records, where the header sits elsewhere than the linker had it. -/
def unbias (pcrelBias : BitVec 64) (enc : BitVec 8) (frameVA : BitVec 64) : Option (BitVec 64) :=
  if pcrelBias ≠ 0 ∧ enc &&& 0x70 = dwEHPEpcrel then
    if (frameVA - pcrelBias).toInt ≤ 0 then none else some (frameVA - pcrelBias)
  else some frameVA

/-- `parseEHFrameHdr`, but for what it stores. -/
def findHdr (img : Bytes) (hdrVA hdrSize pcrelBias : BitVec 64) : Option (Option Found) :=
  if hdrSize < 4 ∨ len64 img ≤ hdrVA ∨ len64 img < hdrVA + 4 then some none
  else img[hdrVA.toNat]?.bind fun version =>
    if version ≠ 1 then some none
    else img[hdrVA.toNat + 1]?.bind fun enc => (ehRead hdrVA enc img (hdrVA.toNat + 4)).bind fun r =>
      match r with
      | none => some none
      | some (frameVA, off) =>
          match unbias pcrelBias enc frameVA with
          | none => some none
          | some frameVA =>
              if frameVA = 0 ∨ len64 img ≤ frameVA then some none
              else img[hdrVA.toNat + 2]?.bind fun countEnc => (ehRead hdrVA countEnc img off).bind fun r =>
                match r with
                | none => some none
                | some _ =>
                    let limit := if frameVA < hdrVA ∧ hdrVA < len64 img then hdrVA else len64 img
                    (walkEHFrame img frameVA limit).map fun (stop, walk) =>
                      if walk.bounds = [] ∨ stop ≤ frameVA then none
                      else
                        let hdrEnd := if len64 img < hdrVA + hdrSize then len64 img else hdrVA + hdrSize
                        some { frameVA, stop, walk, hdrVA, hdrEnd }

/-- The image with the unwind information that was found. -/
def Found.store (f : Found) (l : LoadedELF) : LoadedELF :=
  { l with
    funcBounds := normalizeBounds f.walk.bounds
    lsdaBounds := normalizeBounds f.walk.lsdaBounds
    dataRanges := mergeRanges [{ start := f.frameVA, stop := f.stop }, { start := f.hdrVA, stop := f.hdrEnd }]
    ehFrameHdrAddr := f.hdrVA
    ehFrameHdrSize := f.hdrEnd - f.hdrVA
    ehFrameAddr := f.frameVA
    ehFrameSize := f.stop - f.frameVA }

/-- An image, and the records behind its function extents. -/
structure Attach where
  elf : LoadedELF
  fdes : List Fde := []

/-- `parseEHFrameHdr`: the image, and whether anything was found. -/
def parseEHFrameHdr (st : Attach) (hdrVA hdrSize pcrelBias : BitVec 64) : Option (Attach × Bool) :=
  (findHdr st.elf.memoryImage hdrVA hdrSize pcrelBias).map fun r =>
    match r with
    | none => (st, false)
    | some f => ({ elf := f.store st.elf, fdes := f.walk.fdes }, true)

/-- The local function `try` of `parseEHFrameWindow`. -/
def tryHdr (st : Attach) (winVA stop hdr : BitVec 64) : Option (Attach × Bool) :=
  if hdr < winVA ∨ stop < hdr + 4 then some (st, false)
  else (parseEHFrameHdr st hdr (stop - hdr) (hdr - winVA)).map fun (st, ok) =>
    if ok then
      let ranges := mergeRanges (st.elf.dataRanges ++ [{ start := winVA, stop }])
      ({ st with elf := { st.elf with ehFrameHdrAddr := winVA, ehFrameHdrSize := stop - winVA
                                      dataRanges := ranges } },
        decide (st.elf.funcBounds ≠ []))
    else ({ elf := { st.elf with funcBounds := [], dataRanges := [] } }, false)

/-- The loop of `parseEHFrameWindow`. -/
def windowFrom (winVA stop : BitVec 64) (i : ℕ) (st : Attach) : Option (Attach × Bool) :=
  if _h : i + 4 ≤ stop.toNat then
    (slice st.elf.memoryImage i (i + 4)).bind fun bytes =>
      (if bytes = [1, 0x1b, 0x03, 0x3b] then tryHdr st winVA stop (BitVec.ofNat 64 i)
        else some (st, false)).bind fun (st, ok) =>
          if ok then some (st, true) else windowFrom winVA stop (i + 1) st
  else some (st, false)
termination_by stop.toNat - i
decreasing_by omega

/-- `parseEHFrameWindow`. -/
def parseEHFrameWindow (st : Attach) (winVA winSize : BitVec 64) : Option (Attach × Bool) :=
  let img := st.elf.memoryImage
  if len64 img ≤ winVA then some (st, false)
  else
    let stop := if len64 img < winVA + winSize then len64 img else winVA + winSize
    img[winVA.toNat]?.bind fun version =>
      (if version = 1 then tryHdr st winVA stop winVA else some (st, false)).bind fun (st, ok) =>
        if ok then some (st, true) else windowFrom winVA stop winVA.toNat st

/-! ### `attachUnwind` -/

/-- The fields of a program header that are read. -/
structure ProgHeader where
  type : BitVec 32
  vaddr : BitVec 64
  filesz : BitVec 64
  deriving DecidableEq

/-- `elf.PT_GNU_EH_FRAME`. -/
def ptGnuEhFrame : BitVec 32 := 0x6474e550

/-- A program header that is looked at. -/
def ProgHeader.unwind (p : ProgHeader) : Bool := decide (p.type = ptGnuEhFrame) && decide (4 ≤ p.filesz)

/-- The image with the executable ranges in the scope of the unwind information. -/
def LoadedELF.scoped (l : LoadedELF) : LoadedELF :=
  { l with unwindRanges := mergeRanges (l.unwindRanges ++ l.execRanges) }

/-- The image without unwind information. -/
def LoadedELF.cleared (l : LoadedELF) : LoadedELF :=
  { l with
    funcBounds := [], unwindRanges := [], dataRanges := [], ehFrameHdrAddr := 0, ehFrameHdrSize := 0
    ehFrameAddr := 0, ehFrameSize := 0 }

/-- The image with the records that a search has found in front of a program header. -/
def Scan.store (s : Scan) (p : ProgHeader) (l : LoadedELF) : LoadedELF :=
  { l.scoped with
    funcBounds := normalizeBounds s.walk.bounds
    lsdaBounds := normalizeBounds s.walk.lsdaBounds
    dataRanges := mergeRanges [{ start := s.start, stop := s.stop },
      { start := p.vaddr, stop := p.vaddr + p.filesz }]
    ehFrameAddr := s.start
    ehFrameSize := s.stop - s.start
    ehFrameHdrAddr := 0
    ehFrameHdrSize := 0 }

/-- The loop of `attachUnwind` over the program headers. -/
def attachProgs : List ProgHeader → Attach → Option (Attach × Bool)
  | [], st => some (st, false)
  | p :: ps, st =>
      if p.unwind then
        (parseEHFrameWindow st p.vaddr p.filesz).bind fun (st, ok) =>
          if ok then some ({ st with elf := st.elf.scoped }, true)
          else (scanBackwardEHFrame st.elf.memoryImage p.vaddr).bind fun s =>
            if s.walk.bounds ≠ [] then some ({ elf := s.store p st.elf, fdes := s.walk.fdes }, true)
            else attachProgs ps { elf := st.elf.cleared }
      else attachProgs ps st

/-- The `.eh_frame_hdr` section. -/
def attachHdrSection (st : Attach) : Option (Attach × Bool) :=
  match st.elf.sections ".eh_frame_hdr" with
  | none => some (st, false)
  | some sec =>
      if 4 ≤ sec.size then (parseEHFrameHdr st sec.addr sec.size 0).map fun (st, ok) =>
        if ok then ({ st with elf := st.elf.scoped }, true) else ({ elf := st.elf.cleared }, false)
      else some (st, false)

/-- The `.eh_frame` section. -/
def attachFrameSection (st : Attach) : Option Attach :=
  match st.elf.sections ".eh_frame" with
  | none => some st
  | some sec =>
      if 8 ≤ sec.size ∧ sec.addr ≠ 0 then
        (walkEHFrame st.elf.memoryImage sec.addr (sec.addr + sec.size)).map fun (stop, w) =>
          if w.bounds ≠ [] then
            { elf := { st.elf.scoped with
                funcBounds := normalizeBounds w.bounds
                lsdaBounds := normalizeBounds w.lsdaBounds
                dataRanges := mergeRanges [{ start := sec.addr, stop }]
                ehFrameAddr := sec.addr
                ehFrameSize := stop - sec.addr }
              fdes := w.fdes }
          else st
      else some st

/-- `attachUnwind`; the image is not `nil`, nor is the file. -/
def attachUnwind (l : LoadedELF) (progs : List ProgHeader) : Option Attach :=
  if l.memoryImage = [] then some { elf := l }
  else (attachProgs progs { elf := l }).bind fun (st, ok) =>
    if ok then some st
    else (attachHdrSection st).bind fun (st, ok) => if ok then some st else attachFrameSection st

end PS4Recomp.Elf
