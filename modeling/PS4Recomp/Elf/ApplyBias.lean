import PS4Recomp.Elf.Image
import PS4Recomp.Library.BinarySearch
import PS4Recomp.Library.Patches
import PS4Recomp.Library.PartialFold
import PS4Recomp.Library.Rounding

/-!
# Moving an image

`ApplyBias` of `modules.go`, and the lookups of a loaded image.

* `makeBytes`, `copyRange` — a fresh image with the mapped bytes at their new place;
* `slotValue`, `biasSlot` — what a relocation slot is patched to;
* `rebuildByName`, `rebuildByAddr` — the symbol maps made from the symbol list;
* `applyBias` — the moved image, `none` where Go panics, `moveBy`, `applyBias_eq` — what it is;
* `funcExtent` — the unwind extent of an address;
* `Translated` — every address moved, every relative slot adjusted, every lookup the same;
* `Movable` — what is inside the address space and apart, `BiasHolds` — what else it takes;
* **`applyBias_translates`** — a movable image is translated, and two moves are one, exactly when
  `BiasHolds`;
* `applyBias_untranslated` — an image with an LSDA range and a relative relocation.

An address of 0 stands for none and stays 0; the value of an `STT_TLS` symbol is an offset.
`ResolveNID` is a function `canon` on names, the empty string where it finds none.
-/

namespace PS4Recomp.Elf

open Library

/-! ### the lookups -/

/-- How an extent compares with an address. -/
def AddrRange.cmp (addr : BitVec 64) (r : AddrRange) : Ordering :=
  if r.stop ≤ addr then .lt else if addr < r.start then .gt else .eq

/-- `rangeContains`. -/
def rangeContains (rs : List AddrRange) (addr : BitVec 64) : Bool :=
  (binarySearch (AddrRange.cmp addr) rs).2

/-- `FuncExtent`. -/
def funcExtent (l : LoadedELF) (addr : BitVec 64) : Option AddrRange :=
  let found := binarySearch (AddrRange.cmp addr) l.funcBounds
  if found.2 then l.funcBounds[found.1]? else none

/-! ### `ApplyBias` -/

/-- The size that Go's allocator does not go past. -/
def maxAlloc : ℕ := 2 ^ 48

/-- `make([]byte, n)`. -/
def makeBytes (n : BitVec 64) : Option Bytes :=
  if n.toNat ≤ maxAlloc then some (List.replicate n.toNat 0) else none

/-- `alignUp`. -/
def alignUp (v a : BitVec 64) : BitVec 64 := if a = 0 then v else (v + a - 1) &&& ~~~(a - 1)

/-- `copy(dst[lo:hi], src)`, where the slice expression may panic. -/
def copyRange (dst : Bytes) (lo hi : BitVec 64) (src : Bytes) : Option Bytes :=
  if lo ≤ hi ∧ hi.toNat ≤ dst.length then
    some (dst.put lo.toNat (src.take (hi.toNat - lo.toNat)))
  else none

/-- The local function `shift`. -/
def shift (delta addr : BitVec 64) : BitVec 64 := if addr = 0 then 0 else addr + delta

/-- The bounds of `img[vaddr:end]` for a segment in an image of the given length. -/
def Segment.slice (len : BitVec 64) (s : Segment) : Option (ℕ × ℕ) :=
  let stop := if len < s.vaddr + s.memsz then len else s.vaddr + s.memsz
  if s.vaddr < stop then some (s.vaddr.toNat, stop.toNat) else none

/-- A segment moved in an image of the given length. -/
def Segment.bias (delta len : BitVec 64) (s : Segment) : Segment :=
  let moved := { s with vaddr := s.vaddr + delta }
  { moved with data := moved.slice len }

/-- A range moved. -/
def AddrRange.bias (delta : BitVec 64) (r : AddrRange) : AddrRange :=
  { start := r.start + delta, stop := r.stop + delta }

/-- A symbol moved, unless it has no address or its value is an offset. -/
def Symbol.bias (delta : BitVec 64) (s : Symbol) : Symbol :=
  if s.address ≠ 0 ∧ s.type ≠ sttTLS then { s with address := s.address + delta } else s

/-- A relocation moved. -/
def Relocation.bias (delta : BitVec 64) (r : Relocation) : Relocation :=
  { r with offset := r.offset + delta, pltAddr := shift delta r.pltAddr }

/-- `SymbolByName` made from the symbols. -/
def rebuildByName (symbols : List Symbol) : String → Option Symbol :=
  symbols.foldl (fun m s => if s.name ≠ "" then Function.update m s.name (some s) else m) fun _ => none

/-- `SymbolByAddr` made from the symbols. -/
def rebuildByAddr (symbols : List Symbol) : BitVec 64 → Option Symbol :=
  symbols.foldl (fun m s => if s.address ≠ 0 then Function.update m s.address (some s) else m)
    fun _ => none

/-- A relocation that names the stack guard. -/
def isGuard (canon : String → String) (r : Relocation) : Bool :=
  r.symName == "__stack_chk_guard" || canon r.symName == "__stack_chk_guard"

/-- What the slot of a moved relocation is set to, if anything. -/
def slotValue (canon : String → String) (canaryAddr : BitVec 64) (dynSymbols : List Symbol)
    (delta : BitVec 64) (r : Relocation) : Option (BitVec 64) :=
  if r.type = rX86_64_RELATIVE then some (r.addend + delta)
  else if r.type = rX86_64_JUMP_SLOT then if r.pltAddr ≠ 0 then some r.pltAddr else none
  else if r.type = rX86_64_64 ∨ r.type = rX86_64_GLOB_DAT then
    if isGuard canon r ∧ canaryAddr ≠ 0 then some canaryAddr
    else match dynSymbols[r.symIdx.toNat]? with
      | some sym => if sym.address ≠ 0 then some (sym.address + r.addend) else none
      | none => none
  else none

/-- The slot of one relocation set, when it ends inside the image. -/
def biasSlot (value : Relocation → Option (BitVec 64)) (img : Bytes) (r : Relocation) : Option Bytes :=
  match value r with
  | some v => if r.offset + 8 ≤ len64 img then putUint64 img r.offset v else some img
  | none => some img

/-- The fields of a moved image, all but its bytes and what depends on their number. -/
def movedFields (delta : BitVec 64) (len : BitVec 64) (l : LoadedELF) : LoadedELF :=
  let symbols := l.symbols.map (Symbol.bias delta)
  { l with
    entryPoint := shift delta l.entryPoint
    minVAddr := l.minVAddr + delta
    maxVAddr := l.maxVAddr + delta
    origMinVAddr := l.origMinVAddr + delta
    origMaxVAddr := l.origMaxVAddr + delta
    canaryAddr := shift delta l.canaryAddr
    seg0Addr := shift delta l.seg0Addr
    tlsVaddr := shift delta l.tlsVaddr
    ehFrameHdrAddr := shift delta l.ehFrameHdrAddr
    ehFrameAddr := shift delta l.ehFrameAddr
    segments := l.segments.map (Segment.bias delta len)
    execRanges := l.execRanges.map (AddrRange.bias delta)
    funcBounds := l.funcBounds.map (AddrRange.bias delta)
    unwindRanges := l.unwindRanges.map (AddrRange.bias delta)
    dataRanges := l.dataRanges.map (AddrRange.bias delta)
    symbols := symbols
    symbolByAddr := rebuildByAddr symbols
    symbolByName := rebuildByName symbols
    dynSymbols := l.dynSymbols.map (Symbol.bias delta)
    initArray := l.initArray.map (shift delta)
    relocations := l.relocations.map (Relocation.bias delta) }

/-- `ApplyBias`. -/
def applyBias (canon : String → String) (delta : BitVec 64) (l : LoadedELF) : Option LoadedELF :=
  if delta = 0 then some l
  else do
    let newImg ← makeBytes (alignUp (l.maxVAddr + delta) 4096)
    let newImg ←
      if l.minVAddr < l.maxVAddr ∧ l.maxVAddr ≤ len64 l.memoryImage then
        copyRange newImg (l.minVAddr + delta) (l.maxVAddr + delta)
          ((l.memoryImage.take l.maxVAddr.toNat).drop l.minVAddr.toNat)
      else some newImg
    let moved := movedFields delta (len64 newImg) l
    let img ← moved.relocations.foldlM
      (biasSlot (slotValue canon moved.canaryAddr moved.dynSymbols delta)) newImg
    some { moved with memoryImage := img }

/-! ### a translation -/

/-- An image moved by `delta`: every address, every relative slot and every lookup. -/
structure Translated (delta : BitVec 64) (l l' : LoadedELF) : Prop where
  entryPoint : l'.entryPoint = shift delta l.entryPoint
  minVAddr : l'.minVAddr = l.minVAddr + delta
  maxVAddr : l'.maxVAddr = l.maxVAddr + delta
  origMinVAddr : l'.origMinVAddr = l.origMinVAddr + delta
  origMaxVAddr : l'.origMaxVAddr = l.origMaxVAddr + delta
  segments : l'.segments.map (fun s => (s.vaddr, s.memsz)) =
    l.segments.map fun s => (s.vaddr + delta, s.memsz)
  sections : ∀ name, l'.sections name =
    (l.sections name).map fun s => { s with addr := shift delta s.addr }
  execRanges : l'.execRanges = l.execRanges.map (AddrRange.bias delta)
  funcBounds : l'.funcBounds = l.funcBounds.map (AddrRange.bias delta)
  lsdaBounds : l'.lsdaBounds = l.lsdaBounds.map (AddrRange.bias delta)
  unwindRanges : l'.unwindRanges = l.unwindRanges.map (AddrRange.bias delta)
  dataRanges : l'.dataRanges = l.dataRanges.map (AddrRange.bias delta)
  symbols : l'.symbols = l.symbols.map (Symbol.bias delta)
  dynSymbols : l'.dynSymbols = l.dynSymbols.map (Symbol.bias delta)
  initArray : l'.initArray = l.initArray.map (shift delta)
  relocations : l'.relocations = l.relocations.map (Relocation.bias delta)
  tlsVaddr : l'.tlsVaddr = shift delta l.tlsVaddr
  procParamAddr : l'.procParamAddr = shift delta l.procParamAddr
  canaryAddr : l'.canaryAddr = shift delta l.canaryAddr
  seg0Addr : l'.seg0Addr = shift delta l.seg0Addr
  ehFrameHdrAddr : l'.ehFrameHdrAddr = shift delta l.ehFrameHdrAddr
  ehFrameAddr : l'.ehFrameAddr = shift delta l.ehFrameAddr
  slots : ∀ r ∈ l.relocations, r.type = rX86_64_RELATIVE → l.minVAddr.toNat ≤ r.offset.toNat →
    r.offset.toNat + 8 ≤ l.maxVAddr.toNat →
    l'.memoryImage.word (r.offset + delta).toNat = l.memoryImage.word r.offset.toNat + delta
  byAddr : ∀ a, l'.symbolByAddr (a + delta) = (l.symbolByAddr a).map (Symbol.bias delta)
  byName : ∀ name, l'.symbolByName name = (l.symbolByName name).map (Symbol.bias delta)
  funcExtent : ∀ a, funcExtent l' (a + delta) = (funcExtent l a).map (AddrRange.bias delta)

/-! ### one move -/

/-- A relocation whose slot `ApplyBias` may set. -/
def Relocation.Patched (r : Relocation) : Prop :=
  r.type = rX86_64_RELATIVE ∨ r.type = rX86_64_JUMP_SLOT ∨ r.type = rX86_64_64 ∨
    r.type = rX86_64_GLOB_DAT

/-- The mapped range lies in the image's bytes, and the slots in the address space. -/
structure Loaded (l : LoadedELF) : Prop where
  mapped : l.minVAddr < l.maxVAddr
  loaded : l.maxVAddr.toNat ≤ l.memoryImage.length
  size : l.memoryImage.length < 2 ^ 64
  slots : ∀ r ∈ l.relocations, r.Patched → r.offset.toNat + 8 ≤ 2 ^ 64

/-- The mapped range and the slots, moved by `delta`, do not wrap around. -/
structure Fits (l : LoadedELF) (delta : BitVec 64) : Prop where
  mapped : l.minVAddr + delta < l.maxVAddr + delta
  room : (l.maxVAddr + delta).toNat + 4095 ≤ maxAlloc
  slots : ∀ r ∈ l.relocations, r.Patched → (r.offset + delta).toNat + 8 < 2 ^ 64

/-- The number of bytes of the moved image. -/
def movedLen (delta : BitVec 64) (l : LoadedELF) : BitVec 64 := alignUp (l.maxVAddr + delta) 4096

/-- The bytes of the mapped range. -/
def mappedBytes (l : LoadedELF) : Bytes :=
  (l.memoryImage.take l.maxVAddr.toNat).drop l.minVAddr.toNat

/-- The bytes of the moved image before the slots are set. -/
def movedBytes (delta : BitVec 64) (l : LoadedELF) : Bytes :=
  Bytes.put (List.replicate (movedLen delta l).toNat 0) (l.minVAddr + delta).toNat (mappedBytes l)

/-- The words written into the moved image. -/
def slotWrites (canon : String → String) (delta : BitVec 64) (l : LoadedELF) : List (ℕ × BitVec 64) :=
  l.relocations.filterMap fun r =>
    (if (r.offset + delta).toNat + 8 ≤ (movedLen delta l).toNat then
      slotValue canon (shift delta l.canaryAddr) (l.dynSymbols.map (Symbol.bias delta)) delta
        (r.bias delta)
    else none).map fun v => ((r.offset + delta).toNat, v)

/-- The moved image. -/
def moveBy (canon : String → String) (delta : BitVec 64) (l : LoadedELF) : LoadedELF :=
  { movedFields delta (movedLen delta l) l with
    memoryImage := (movedBytes delta l).putWords (slotWrites canon delta l) }

variable {canon : String → String} {delta : BitVec 64} {l : LoadedELF}

theorem slotValue_patched {canary : BitVec 64} {dyn : List Symbol} {r : Relocation} {v : BitVec 64}
    (h : slotValue canon canary dyn delta r = some v) : r.Patched := by
  rw [slotValue] at h
  split at h
  · rename_i ht
    exact .inl ht
  · split at h
    · rename_i ht
      exact .inr (.inl ht)
    · split at h
      · rename_i ht
        exact .inr (.inr ht)
      · cases h

theorem toNat_alignUp {v : BitVec 64} (h : v.toNat + 4095 < 2 ^ 64) :
    v.toNat ≤ (alignUp v 4096).toNat ∧ (alignUp v 4096).toNat ≤ v.toNat + 4095 := by
  have hmask : (4095 : BitVec 64).toNat = 4095 := rfl
  have hsum : (v + 4095).toNat = v.toNat + 4095 := BitVec.toNat_add_of_lt (by omega)
  have heq : alignUp v 4096 = (v + 4095) &&& ~~~4095 := by
    rw [alignUp, if_neg (by decide), add_sub_assoc]
    rfl
  rw [heq]
  have hle := toNat_and_not_le (v + 4095) 4095
  have hge := toNat_sub_le_and_not (v + 4095) 4095
  omega

theorem len64_toNat {img : Bytes} (h : img.length < 2 ^ 64) : (len64 img).toNat = img.length := by
  rw [len64, BitVec.toNat_ofNat, Nat.mod_eq_of_lt h]

theorem biasSlot_eq {value : Relocation → Option (BitVec 64)} {img : Bytes} {r : Relocation}
    (hlen : img.length < 2 ^ 64) (h : ∀ v, value r = some v → r.offset.toNat + 8 < 2 ^ 64) :
    biasSlot value img r = some (img.putWords
      ((if r.offset.toNat + 8 ≤ img.length then value r else none).map
        fun v => (r.offset.toNat, v)).toList) := by
  rw [biasSlot]
  cases hv : value r with
  | none =>
      rw [ite_self]
      rfl
  | some v =>
      have hwrap := h v hv
      have hsum : (r.offset + 8).toNat = r.offset.toNat + 8 := BitVec.toNat_add_of_lt hwrap
      have hcond : r.offset + 8 ≤ len64 img ↔ r.offset.toNat + 8 ≤ img.length := by
        rw [BitVec.le_def, hsum, len64_toNat hlen]
      dsimp only
      by_cases hin : r.offset.toNat + 8 ≤ img.length
      · rw [if_pos (hcond.2 hin), if_pos hin, putUint64_eq_some.2 ⟨hwrap, hin, rfl⟩]
        rfl
      · rw [if_neg (mt hcond.1 hin), if_neg hin]
        rfl

/-- Setting the slots one after the other writes their words. -/
theorem foldlM_biasSlot (value : Relocation → Option (BitVec 64)) (rs : List Relocation) (img : Bytes)
    (hlen : img.length < 2 ^ 64)
    (h : ∀ r ∈ rs, ∀ v, value r = some v → r.offset.toNat + 8 < 2 ^ 64) :
    rs.foldlM (biasSlot value) img = some (img.putWords (rs.filterMap fun r =>
      (if r.offset.toNat + 8 ≤ img.length then value r else none).map
        fun v => (r.offset.toNat, v))) := by
  induction rs generalizing img with
  | nil => rfl
  | cons r rs ih =>
      have hrest := fun r' hr' => h r' (List.mem_cons_of_mem r hr')
      rw [List.foldlM_cons, biasSlot_eq hlen (h r List.mem_cons_self), Option.bind_eq_bind,
        Option.bind_some, ih _ (by rwa [Bytes.length_putWords]) hrest, Bytes.length_putWords,
        ← Bytes.putWords_append, List.filterMap_cons]
      cases ((if r.offset.toNat + 8 ≤ img.length then value r else none).map
        fun v => (r.offset.toNat, v)) with
      | none => rfl
      | some w => rfl

/-- What the moved range and the length of the moved image are. -/
theorem Fits.bounds (h : Fits l delta) :
    (l.minVAddr + delta).toNat < (l.maxVAddr + delta).toNat ∧
      (l.maxVAddr + delta).toNat ≤ (movedLen delta l).toNat ∧
      (movedLen delta l).toNat ≤ maxAlloc := by
  have hmapped := h.mapped
  have hroom := h.room
  rw [BitVec.lt_def] at hmapped
  rw [maxAlloc] at hroom ⊢
  obtain ⟨hge, hle⟩ := toNat_alignUp (v := l.maxVAddr + delta) (by omega)
  rw [movedLen]
  omega

/-- The mapped range keeps its length, and what is in it its place. -/
theorem Fits.shifted (hl : Loaded l) (h : Fits l delta) {a : ℕ} (hlo : l.minVAddr.toNat ≤ a)
    (hhi : a ≤ l.maxVAddr.toNat) :
    (a + delta.toNat) % 2 ^ 64 + l.minVAddr.toNat = a + (l.minVAddr + delta).toNat := by
  have hmapped := hl.mapped
  have hmoved := h.mapped
  rw [BitVec.lt_def] at hmapped hmoved
  rw [BitVec.toNat_add] at hmoved ⊢
  rw [BitVec.toNat_add] at hmoved
  have hmax := l.maxVAddr.isLt
  have hdelta := delta.isLt
  omega

theorem length_mappedBytes (hl : Loaded l) :
    (mappedBytes l).length = l.maxVAddr.toNat - l.minVAddr.toNat := by
  have hloaded := hl.loaded
  rw [mappedBytes, List.length_drop, List.length_take]
  omega

theorem length_movedBytes (delta : BitVec 64) (l : LoadedELF) :
    (movedBytes delta l).length = (movedLen delta l).toNat := by
  rw [movedBytes, Bytes.length_put, List.length_replicate]

/-- **One move.**  Inside the address space `ApplyBias` returns, and this is what it returns. -/
theorem applyBias_eq (hne : delta ≠ 0) (hl : Loaded l) (h : Fits l delta) :
    applyBias canon delta l = some (moveBy canon delta l) := by
  obtain ⟨hmapped, hmax, hlen⟩ := h.bounds
  have halloc : maxAlloc < 2 ^ 64 := by decide
  have hmake : makeBytes (movedLen delta l) = some (List.replicate (movedLen delta l).toNat 0) := by
    rw [makeBytes, if_pos hlen]
  have hsize : (l.maxVAddr + delta).toNat - (l.minVAddr + delta).toNat = (mappedBytes l).length := by
    have hrange := hl.mapped
    rw [BitVec.lt_def] at hrange
    have hshift := h.shifted hl (a := l.maxVAddr.toNat) hrange.le le_rfl
    rw [← BitVec.toNat_add] at hshift
    rw [length_mappedBytes hl]
    omega
  have hcopy : copyRange (List.replicate (movedLen delta l).toNat 0) (l.minVAddr + delta)
      (l.maxVAddr + delta) (mappedBytes l) = some (movedBytes delta l) := by
    rw [copyRange, if_pos, hsize, List.take_length]
    · rfl
    · rw [BitVec.le_def, List.length_replicate]
      omega
  have hlen64 : len64 (movedBytes delta l) = movedLen delta l := by
    apply BitVec.eq_of_toNat_eq
    rw [len64_toNat (by rw [length_movedBytes]; omega), length_movedBytes]
  have hcond : l.minVAddr < l.maxVAddr ∧ l.maxVAddr ≤ len64 l.memoryImage := by
    refine ⟨hl.mapped, ?_⟩
    rw [BitVec.le_def, len64_toNat hl.size]
    exact hl.loaded
  have hslots := foldlM_biasSlot
    (slotValue canon (shift delta l.canaryAddr) (l.dynSymbols.map (Symbol.bias delta)) delta)
    (l.relocations.map (Relocation.bias delta)) (movedBytes delta l)
    (by rw [length_movedBytes]; omega)
    (by
      intro r hr v hv
      obtain ⟨r', hr', rfl⟩ := List.mem_map.1 hr
      have hp : (r'.bias delta).Patched := slotValue_patched hv
      exact h.slots r' hr' hp)
  rw [List.filterMap_map, length_movedBytes] at hslots
  rw [movedLen] at hmake
  rw [applyBias, if_neg hne, hmake, Option.bind_eq_bind, Option.bind_some, if_pos hcond]
  rw [← movedLen, ← mappedBytes, hcopy, Option.bind_some]
  dsimp only
  rw [hlen64]
  exact congrArg (fun o : Option Bytes => o.bind fun img =>
    some { movedFields delta (movedLen delta l) l with memoryImage := img }) hslots

/-! ### moved records -/

theorem shift_zero (a : BitVec 64) : shift 0 a = a := by
  rw [shift]
  split
  · rename_i h
    exact h.symm
  · exact add_zero a

theorem shift_shift {d₁ d₂ a : BitVec 64} (h : a ≠ 0 → a + d₁ ≠ 0) :
    shift d₂ (shift d₁ a) = shift (d₁ + d₂) a := by
  by_cases ha : a = 0
  · subst ha
    rfl
  · rw [shift, shift, if_neg ha, if_neg (h ha), shift, if_neg ha, BitVec.add_assoc]

/-- An address that a move by `delta ≠ 0` leaves is 0. -/
theorem eq_zero_of_shift {a : BitVec 64} (hne : delta ≠ 0) (h : a = shift delta a) : a = 0 := by
  rw [shift] at h
  split at h
  · exact h
  · exact absurd (left_eq_add.1 h) hne

theorem AddrRange.bias_zero (r : AddrRange) : r.bias 0 = r := by
  rw [AddrRange.bias, add_zero, add_zero]

theorem AddrRange.bias_bias (d₁ d₂ : BitVec 64) (r : AddrRange) :
    (r.bias d₁).bias d₂ = r.bias (d₁ + d₂) := by
  simp only [AddrRange.bias, BitVec.add_assoc]

theorem Segment.bias_bias (d₁ d₂ len₁ len₂ : BitVec 64) (s : Segment) :
    (s.bias d₁ len₁).bias d₂ len₂ = s.bias (d₁ + d₂) len₂ := by
  simp only [Segment.bias, Segment.slice, BitVec.add_assoc]

/-- A symbol whose address does not become 0. -/
def Symbol.Moves (delta : BitVec 64) (s : Symbol) : Prop := s.address ≠ 0 → s.address + delta ≠ 0

theorem Symbol.bias_name (delta : BitVec 64) (s : Symbol) : (s.bias delta).name = s.name := by
  rw [Symbol.bias]
  split <;> rfl

theorem Symbol.bias_type (delta : BitVec 64) (s : Symbol) : (s.bias delta).type = s.type := by
  rw [Symbol.bias]
  split <;> rfl

theorem Symbol.bias_zero (s : Symbol) : s.bias 0 = s := by
  rw [Symbol.bias]
  split
  · rw [add_zero]
  · rfl

theorem Symbol.bias_of_tls {s : Symbol} (h : s.type = sttTLS) : s.bias delta = s := by
  rw [Symbol.bias, if_neg fun hc => hc.2 h]

theorem Symbol.bias_address {s : Symbol} (h : s.type ≠ sttTLS) :
    (s.bias delta).address = shift delta s.address := by
  rw [Symbol.bias, shift]
  by_cases ha : s.address = 0
  · rw [if_neg fun hc => hc.1 ha, if_pos ha, ha]
  · rw [if_pos ⟨ha, h⟩, if_neg ha]

theorem Symbol.bias_restore (delta : BitVec 64) (s : Symbol) :
    { s.bias delta with address := s.address } = s := by
  rw [Symbol.bias]
  split <;> rfl

theorem Symbol.ext_address {s t : Symbol} (h : s.bias delta = t.bias delta)
    (ha : s.address = t.address) : s = t := by
  rw [← bias_restore delta s, h, ha, bias_restore]

theorem Symbol.bias_bias {d₁ d₂ : BitVec 64} {s : Symbol} (h : s.Moves d₁) :
    (s.bias d₁).bias d₂ = s.bias (d₁ + d₂) := by
  by_cases ht : s.type = sttTLS
  · rw [bias_of_tls ht, bias_of_tls ht, bias_of_tls ht]
  · by_cases ha : s.address = 0
    · have hstay : ∀ d, s.bias d = s := fun d => if_neg fun hc => hc.1 ha
      rw [hstay, hstay, hstay]
    · have hmove : ∀ d, s.bias d = { s with address := s.address + d } := fun d => if_pos ⟨ha, ht⟩
      rw [hmove, hmove, Symbol.bias, if_pos ⟨h ha, ht⟩]
      dsimp only
      rw [BitVec.add_assoc]

theorem Symbol.bias_injective {s t : Symbol} (hs : s.Moves delta) (ht : t.Moves delta)
    (h : s.bias delta = t.bias delta) : s = t := by
  have htype : s.type = t.type := by rw [← bias_type delta s, h, bias_type]
  by_cases htls : s.type = sttTLS
  · rwa [bias_of_tls htls, bias_of_tls (htype ▸ htls)] at h
  · refine ext_address h ?_
    have haddr := congrArg Symbol.address h
    rw [bias_address htls, bias_address (htype ▸ htls), shift, shift] at haddr
    split at haddr
    · rename_i hs0
      split at haddr
      · rename_i ht0
        rw [hs0, ht0]
      · rename_i ht0
        exact absurd haddr.symm (ht ht0)
    · rename_i hs0
      split at haddr
      · exact absurd haddr (hs hs0)
      · exact add_right_cancel haddr

theorem Relocation.bias_bias {d₁ d₂ : BitVec 64} {r : Relocation}
    (h : r.pltAddr ≠ 0 → r.pltAddr + d₁ ≠ 0) : (r.bias d₁).bias d₂ = r.bias (d₁ + d₂) := by
  simp only [Relocation.bias, BitVec.add_assoc, shift_shift h]

/-! ### the symbol maps -/

theorem rebuildByName_bias (delta : BitVec 64) (symbols : List Symbol) (name : String) :
    rebuildByName (symbols.map (Symbol.bias delta)) name =
      (rebuildByName symbols name).map (Symbol.bias delta) := by
  rw [rebuildByName, rebuildByName, List.foldl_map]
  refine List.foldl_rel (r := fun (m' m : String → Option Symbol) =>
    m' name = (m name).map (Symbol.bias delta)) rfl ?_
  intro s hs m' m hm
  rw [Symbol.bias_name]
  split
  · by_cases hname : name = s.name
    · rw [hname, Function.update_self, Function.update_self]
      rfl
    · rw [Function.update_of_ne hname, Function.update_of_ne hname, hm]
  · exact hm

theorem rebuildByName_mem {symbols : List Symbol} {name : String} {s : Symbol}
    (h : rebuildByName symbols name = some s) : s ∈ symbols := by
  revert h
  refine List.foldlRecOn (motive := fun m : String → Option Symbol => m name = some s → s ∈ symbols)
    symbols _ (fun h => nomatch h) ?_
  intro m ih t ht h
  split at h
  · by_cases hname : name = t.name
    · rw [hname, Function.update_self, Option.some.injEq] at h
      rwa [← h]
    · rw [Function.update_of_ne hname] at h
      exact ih h
  · exact ih h

theorem rebuildByAddr_mem {symbols : List Symbol} {a : BitVec 64} {s : Symbol}
    (h : rebuildByAddr symbols a = some s) : s ∈ symbols := by
  revert h
  refine List.foldlRecOn (motive := fun m : BitVec 64 → Option Symbol => m a = some s → s ∈ symbols)
    symbols _ (fun h => nomatch h) ?_
  intro m ih t ht h
  split at h
  · by_cases ha : a = t.address
    · rw [ha, Function.update_self, Option.some.injEq] at h
      rwa [← h]
    · rw [Function.update_of_ne ha] at h
      exact ih h
  · exact ih h

/-- Answers that are moved to the same ones are the same. -/
theorem map_bias_injective {o o' : Option Symbol} (ho : ∀ s, o = some s → s.Moves delta)
    (ho' : ∀ s, o' = some s → s.Moves delta)
    (h : o.map (Symbol.bias delta) = o'.map (Symbol.bias delta)) : o = o' := by
  cases o with
  | none => cases o' with
    | none => rfl
    | some t => cases h
  | some s => cases o' with
    | none => cases h
    | some t =>
        rw [Option.map_some, Option.map_some, Option.some.injEq] at h
        rw [Symbol.bias_injective (ho s rfl) (ho' t rfl) h]

theorem rebuildByAddr_bias {symbols : List Symbol} (hmoves : ∀ s ∈ symbols, s.Moves delta)
    (htls : ∀ s ∈ symbols, s.type = sttTLS → s.address = 0) (a : BitVec 64) :
    rebuildByAddr (symbols.map (Symbol.bias delta)) (a + delta) =
      (rebuildByAddr symbols a).map (Symbol.bias delta) := by
  rw [rebuildByAddr, rebuildByAddr, List.foldl_map]
  refine List.foldl_rel (r := fun (m' m : BitVec 64 → Option Symbol) =>
    m' (a + delta) = (m a).map (Symbol.bias delta)) rfl ?_
  intro s hs m' m hm
  by_cases haddr : s.address = 0
  · have hstay : s.bias delta = s := if_neg fun hc => hc.1 haddr
    rw [hstay, if_neg (not_not_intro haddr), if_neg (not_not_intro haddr)]
    exact hm
  · have hmove : (s.bias delta).address = s.address + delta := by
      rw [Symbol.bias_address fun ht => haddr (htls s hs ht), shift, if_neg haddr]
    rw [hmove, if_pos (hmoves s hs haddr), if_pos haddr]
    by_cases ha : a = s.address
    · rw [ha, Function.update_self, Function.update_self]
      rfl
    · rw [Function.update_of_ne ha, Function.update_of_ne fun h => ha (add_right_cancel h), hm]

/-! ### the extent of an address -/

/-- An address that moves as far as the image does. -/
def MovesWith (l : LoadedELF) (delta x : BitVec 64) : Prop :=
  (x + delta).toNat + l.minVAddr.toNat = x.toNat + (l.minVAddr + delta).toNat

theorem AddrRange.cmp_eq_eq {addr : BitVec 64} {r : AddrRange} :
    AddrRange.cmp addr r = .eq ↔ r.start ≤ addr ∧ addr < r.stop := by
  simp only [AddrRange.cmp, BitVec.le_def, BitVec.lt_def]
  split
  · refine iff_of_false (fun h => nomatch h) ?_
    omega
  · split
    · refine iff_of_false (fun h => nomatch h) ?_
      omega
    · refine iff_of_true rfl ?_
      omega

/-- A moved extent contains the moved address and no other. -/
theorem AddrRange.cmp_bias_eq {r : AddrRange} (hstart : MovesWith l delta r.start)
    (hstop : MovesWith l delta r.stop) (a : BitVec 64) :
    AddrRange.cmp (a + delta) (r.bias delta) = .eq ↔ AddrRange.cmp a r = .eq := by
  rw [cmp_eq_eq, cmp_eq_eq]
  rw [MovesWith, BitVec.toNat_add, BitVec.toNat_add] at hstart hstop
  simp only [AddrRange.bias, BitVec.le_def, BitVec.lt_def, BitVec.toNat_add]
  have ha := a.isLt
  have hs := r.start.isLt
  have he := r.stop.isLt
  have hm := l.minVAddr.isLt
  have hd := delta.isLt
  omega

theorem funcExtent_bias {l' : LoadedELF} (hbounds : l'.funcBounds = l.funcBounds.map (AddrRange.bias delta))
    (h : ∀ r ∈ l.funcBounds, MovesWith l delta r.start ∧ MovesWith l delta r.stop) (a : BitVec 64) :
    funcExtent l' (a + delta) = (funcExtent l a).map (AddrRange.bias delta) := by
  rw [funcExtent, funcExtent, hbounds]
  by_cases ha : MovesWith l delta a
  · have hcmp : ∀ r ∈ l.funcBounds, AddrRange.cmp (a + delta) (r.bias delta) = AddrRange.cmp a r := by
      intro r hr
      obtain ⟨hstart, hstop⟩ := h r hr
      rw [MovesWith] at ha hstart hstop
      simp only [AddrRange.cmp, AddrRange.bias, BitVec.le_def, BitVec.lt_def]
      have hle : (r.stop + delta).toNat ≤ (a + delta).toNat ↔ r.stop.toNat ≤ a.toNat := by omega
      have hlt : (a + delta).toNat < (r.start + delta).toNat ↔ a.toNat < r.start.toNat := by omega
      simp only [hle, hlt]
    rw [binarySearch_congr hcmp, List.getElem?_map]
    split
    · rfl
    · rfl
  · -- an address that moves otherwise is in no extent, before and after
    have hmiss : ∀ r ∈ l.funcBounds, AddrRange.cmp a r ≠ .eq := by
      intro r hr heq
      obtain ⟨hstart, hstop⟩ := h r hr
      obtain ⟨hge, hlt⟩ := AddrRange.cmp_eq_eq.1 heq
      rw [BitVec.le_def] at hge
      rw [BitVec.lt_def] at hlt
      apply ha
      rw [MovesWith, BitVec.toNat_add, BitVec.toNat_add] at hstart hstop ⊢
      have hd := delta.isLt
      have he := r.stop.isLt
      omega
    have hmiss' : ∀ r ∈ l.funcBounds.map (AddrRange.bias delta), AddrRange.cmp (a + delta) r ≠ .eq := by
      intro moved hmoved
      obtain ⟨r, hr, rfl⟩ := List.mem_map.1 hmoved
      exact mt (AddrRange.cmp_bias_eq (h r hr).1 (h r hr).2 a).1 (hmiss r hr)
    rw [binarySearch_miss hmiss, binarySearch_miss hmiss']
    rfl

/-! ### slots of a moved image -/

/-- No slot behind a relative one overlaps it. -/
def RelativeApart (l : LoadedELF) : Prop :=
  l.relocations.Pairwise fun r r' => r.type = rX86_64_RELATIVE → r'.Patched →
    r'.offset.toNat + 8 ≤ r.offset.toNat ∨ r.offset.toNat + 8 ≤ r'.offset.toNat

/-- The slot of a relocation lies in the mapped range. -/
def Mapped (l : LoadedELF) (r : Relocation) : Prop :=
  l.minVAddr.toNat ≤ r.offset.toNat ∧ r.offset.toNat + 8 ≤ l.maxVAddr.toNat

theorem apart_moved {a b : BitVec 64} (ha : a.toNat + 8 ≤ 2 ^ 64) (hb : b.toNat + 8 ≤ 2 ^ 64)
    (h : b.toNat + 8 ≤ a.toNat ∨ a.toNat + 8 ≤ b.toNat) :
    (b + delta).toNat + 8 ≤ (a + delta).toNat ∨ (a + delta).toNat + 8 ≤ (b + delta).toNat := by
  rw [BitVec.toNat_add, BitVec.toNat_add]
  have hd := delta.isLt
  omega

theorem Mapped.shifted (hl : Loaded l) (h : Fits l delta) {r : Relocation} (hr : Mapped l r) :
    (r.offset + delta).toNat + l.minVAddr.toNat = r.offset.toNat + (l.minVAddr + delta).toNat := by
  obtain ⟨hlo, hhi⟩ := hr
  rw [BitVec.toNat_add]
  exact h.shifted hl hlo (by omega)

theorem Mapped.bias (hl : Loaded l) (h : Fits l delta) {r : Relocation} (hr : Mapped l r) :
    (l.minVAddr + delta).toNat ≤ (r.offset + delta).toNat ∧
      (r.offset + delta).toNat + 8 ≤ (l.maxVAddr + delta).toNat := by
  have hoff := hr.shifted hl h
  obtain ⟨hlo, hhi⟩ := hr
  have hrange := hl.mapped
  rw [BitVec.lt_def] at hrange
  have hmax := h.shifted hl hrange.le le_rfl
  rw [← BitVec.toNat_add] at hmax
  omega

/-- **A relative slot.**  It holds its addend moved by `delta`. -/
theorem word_relative (canon : String → String) (hl : Loaded l) (h : Fits l delta) (hapart : RelativeApart l)
    {r : Relocation} (hr : r ∈ l.relocations) (hrel : r.type = rX86_64_RELATIVE) (hin : Mapped l r) :
    (moveBy canon delta l).memoryImage.word (r.offset + delta).toNat = r.addend + delta := by
  obtain ⟨pre, post, hsplit⟩ := List.append_of_mem hr
  obtain ⟨-, hslot⟩ := hin.bias hl h
  obtain ⟨-, hmax, -⟩ := h.bounds
  have hpost : ∀ r' ∈ post, r'.Patched →
      (r'.offset + delta).toNat + 8 ≤ (r.offset + delta).toNat ∨
        (r.offset + delta).toNat + 8 ≤ (r'.offset + delta).toNat := by
    intro r' hr' hp
    have hmem : r' ∈ l.relocations := by
      rw [hsplit]
      exact List.mem_append_right _ (List.mem_cons_of_mem _ hr')
    have hdisj := hapart
    rw [RelativeApart, hsplit] at hdisj
    have hrel' := (List.pairwise_cons.1 (List.pairwise_append.1 hdisj).2.1).1 r' hr' hrel hp
    exact apart_moved (hl.slots r hr (.inl hrel)) (hl.slots r' hmem hp) hrel'
  have hvalue : slotValue canon (shift delta l.canaryAddr) (l.dynSymbols.map (Symbol.bias delta)) delta
      (r.bias delta) = some (r.addend + delta) := if_pos hrel
  show ((movedBytes delta l).putWords (slotWrites canon delta l)).word _ = _
  rw [slotWrites, hsplit, List.filterMap_append, List.filterMap_cons, if_pos (by omega), hvalue]
  refine Bytes.word_putWords (w := ((r.offset + delta).toNat, r.addend + delta)) _
    (by rw [length_movedBytes]; exact hslot.trans hmax) ?_
  intro w hw
  obtain ⟨r', hr', hsome⟩ := List.mem_filterMap.1 hw
  obtain ⟨v, hv, rfl⟩ := Option.map_eq_some_iff.1 hsome
  split at hv
  · have hp : (r'.bias delta).Patched := slotValue_patched hv
    exact hpost r' hr' hp
  · cases hv

theorem Fits.length (hl : Loaded l) (h : Fits l delta) :
    (l.maxVAddr + delta).toNat - (l.minVAddr + delta).toNat = l.maxVAddr.toNat - l.minVAddr.toNat := by
  have hrange := hl.mapped
  rw [BitVec.lt_def] at hrange
  have hmax := h.shifted hl hrange.le le_rfl
  rw [← BitVec.toNat_add] at hmax
  omega

theorem get_movedBytes (hl : Loaded l) (h : Fits l delta) {k : ℕ}
    (hk : k < l.maxVAddr.toNat - l.minVAddr.toNat) :
    (movedBytes delta l).get ((l.minVAddr + delta).toNat + k) =
      l.memoryImage.get (l.minVAddr.toNat + k) := by
  have hlength := h.length hl
  obtain ⟨hmin, hlen, -⟩ := h.bounds
  rw [movedBytes, Bytes.get_put, List.length_replicate, if_pos, Nat.add_sub_cancel_left, mappedBytes,
    Bytes.get_drop_take _ (by omega)]
  rw [length_mappedBytes hl]
  omega

theorem get_movedBytes_outside (hl : Loaded l) (h : Fits l delta) {j : ℕ}
    (hj : j < (l.minVAddr + delta).toNat ∨ (l.maxVAddr + delta).toNat ≤ j) :
    (movedBytes delta l).get j = 0 := by
  have hlength := h.length hl
  obtain ⟨hmin, -, -⟩ := h.bounds
  rw [movedBytes, Bytes.get_put, if_neg]
  · rw [Bytes.get, List.getD_eq_getElem?_getD, List.getElem?_replicate]
    split <;> rfl
  · rw [length_mappedBytes hl]
    omega

/-! ### two moves -/

/-- The addresses that a move shifts unless they are 0. -/
def LoadedELF.addresses (l : LoadedELF) : List (BitVec 64) :=
  [l.entryPoint, l.canaryAddr, l.seg0Addr, l.tlsVaddr, l.ehFrameHdrAddr, l.ehFrameAddr] ++
    l.initArray ++ l.relocations.map Relocation.pltAddr

/-- An image that can be moved by `d₁` and by `d₁ + d₂`: nothing that has an address loses it or wraps
around, and the slots do not overlap the ends of the mapped range or a relative slot before them. -/
structure Movable (l : LoadedELF) (d₁ d₂ : BitVec 64) : Prop where
  loaded : Loaded l
  once : Fits l d₁
  twice : Fits l (d₁ + d₂)
  apart : RelativeApart l
  relative : ∀ r ∈ l.relocations, r.type = rX86_64_RELATIVE → Mapped l r
  inside : ∀ r ∈ l.relocations, r.Patched → Mapped l r ∨
    r.offset.toNat + 8 ≤ l.minVAddr.toNat ∨ l.maxVAddr.toNat ≤ r.offset.toNat
  addresses : ∀ a ∈ l.addresses, a ≠ 0 → a + d₁ ≠ 0 ∧ a + (d₁ + d₂) ≠ 0
  symbols : ∀ s ∈ l.symbols, s.Moves d₁
  dynSymbols : ∀ s ∈ l.dynSymbols, s.Moves d₁ ∧ s.Moves (d₁ + d₂)
  byName : ∀ name s, l.symbolByName name = some s → s.Moves d₁
  byAddr : ∀ a s, l.symbolByAddr a = some s → s.Moves d₁
  tls : ∀ s ∈ l.symbols, s.type = sttTLS → s.address = 0
  extents : ∀ r ∈ l.funcBounds, MovesWith l d₁ r.start ∧ MovesWith l d₁ r.stop

variable {d₁ d₂ : BitVec 64}

theorem Movable.pltAddr (h : Movable l d₁ d₂) {r : Relocation} (hr : r ∈ l.relocations)
    (hne : r.pltAddr ≠ 0) : r.pltAddr + d₁ ≠ 0 ∧ r.pltAddr + (d₁ + d₂) ≠ 0 :=
  h.addresses _ (List.mem_append_right _ (List.mem_map_of_mem hr)) hne

theorem Movable.canaryAddr (h : Movable l d₁ d₂) (hne : l.canaryAddr ≠ 0) :
    l.canaryAddr + d₁ ≠ 0 ∧ l.canaryAddr + (d₁ + d₂) ≠ 0 :=
  h.addresses _ (by simp [LoadedELF.addresses]) hne

theorem movedFields_movedFields (h : Movable l d₁ d₂) (len₁ len₂ : BitVec 64) :
    movedFields d₂ len₂ (movedFields d₁ len₁ l) = movedFields (d₁ + d₂) len₂ l := by
  have hshift : ∀ a ∈ l.addresses, shift d₂ (shift d₁ a) = shift (d₁ + d₂) a :=
    fun a ha => shift_shift fun hne => (h.addresses a ha hne).1
  have hhead : ∀ a ∈ [l.entryPoint, l.canaryAddr, l.seg0Addr, l.tlsVaddr, l.ehFrameHdrAddr,
      l.ehFrameAddr], shift d₂ (shift d₁ a) = shift (d₁ + d₂) a :=
    fun a ha => hshift a (List.mem_append_left _ (List.mem_append_left _ ha))
  simp only [List.forall_mem_cons] at hhead
  obtain ⟨hentry, hcanary, hseg0, htls, hhdr, heh, -⟩ := hhead
  have hinit : (l.initArray.map (shift d₁)).map (shift d₂) = l.initArray.map (shift (d₁ + d₂)) := by
    rw [List.map_map]
    exact List.map_congr_left fun a ha =>
      hshift a (List.mem_append_left _ (List.mem_append_right _ ha))
  have hranges : ∀ rs : List AddrRange, (rs.map (AddrRange.bias d₁)).map (AddrRange.bias d₂) =
      rs.map (AddrRange.bias (d₁ + d₂)) := by
    intro rs
    rw [List.map_map]
    exact List.map_congr_left fun r _ => AddrRange.bias_bias d₁ d₂ r
  have hsegments : (l.segments.map (Segment.bias d₁ len₁)).map (Segment.bias d₂ len₂) =
      l.segments.map (Segment.bias (d₁ + d₂) len₂) := by
    rw [List.map_map]
    exact List.map_congr_left fun s _ => Segment.bias_bias d₁ d₂ len₁ len₂ s
  have hsyms : ∀ ss : List Symbol, (∀ s ∈ ss, s.Moves d₁) →
      (ss.map (Symbol.bias d₁)).map (Symbol.bias d₂) = ss.map (Symbol.bias (d₁ + d₂)) := by
    intro ss hss
    rw [List.map_map]
    exact List.map_congr_left fun s hs => Symbol.bias_bias (hss s hs)
  have hrelocs : (l.relocations.map (Relocation.bias d₁)).map (Relocation.bias d₂) =
      l.relocations.map (Relocation.bias (d₁ + d₂)) := by
    rw [List.map_map]
    exact List.map_congr_left fun r hr => Relocation.bias_bias fun hne => (h.pltAddr hr hne).1
  simp only [movedFields, hentry, hcanary, hseg0, htls, hhdr, heh, hinit, hranges, hsegments,
    hsyms _ h.symbols, hsyms _ fun s hs => (h.dynSymbols s hs).1, hrelocs, add_assoc]

/-- What is not a relative slot does not depend on the distance. -/
theorem slotValue_congr {canary : BitVec 64} {dyn : List Symbol} {r : Relocation}
    (h : r.type ≠ rX86_64_RELATIVE) (d d' : BitVec 64) :
    slotValue canon canary dyn d r = slotValue canon canary dyn d' r := by
  rw [slotValue, slotValue, if_neg h, if_neg h]

theorem shift_ne_zero {a : BitVec 64} (h : a ≠ 0 → a + delta ≠ 0) : shift delta a ≠ 0 ↔ a ≠ 0 := by
  rw [shift]
  split
  · rename_i ha
    exact iff_of_false (fun hne => hne rfl) (fun hne => hne ha)
  · rename_i ha
    exact iff_of_true (h ha) ha

theorem Symbol.bias_ne_zero {s : Symbol} (h : s.Moves delta) :
    (s.bias delta).address ≠ 0 ↔ s.address ≠ 0 := by
  by_cases ht : s.type = sttTLS
  · rw [bias_of_tls ht]
  · rw [bias_address ht]
    exact shift_ne_zero h

/-- Which slots are set does not depend on the distance. -/
theorem slotValue_isSome {canary : BitVec 64} {dyn : List Symbol} {r : Relocation}
    (hcanary : canary ≠ 0 → canary + delta ≠ 0) (hplt : r.pltAddr ≠ 0 → r.pltAddr + delta ≠ 0)
    (hdyn : ∀ s ∈ dyn, s.Moves delta) :
    (slotValue canon (shift delta canary) (dyn.map (Symbol.bias delta)) delta (r.bias delta)).isSome =
      (slotValue canon canary dyn 0 r).isSome := by
  have hguard : isGuard canon (r.bias delta) = isGuard canon r := rfl
  have htype : (r.bias delta).type = r.type := rfl
  have hidx : (r.bias delta).symIdx = r.symIdx := rfl
  have hpltAddr : (r.bias delta).pltAddr = shift delta r.pltAddr := rfl
  simp only [slotValue, hguard, htype, hidx, hpltAddr, shift_ne_zero hcanary, shift_ne_zero hplt,
    List.getElem?_map]
  split
  · rfl
  · split
    · split <;> rfl
    · split
      · split
        · rfl
        · cases hs : dyn[r.symIdx.toNat]? with
          | none => rfl
          | some s =>
              have hne := Symbol.bias_ne_zero (hdyn s (List.mem_of_getElem? hs))
              simp only [Option.map_some, hne]
              split <;> rfl
      · rfl

/-- The slot of a relocation that is written holds some value. -/
theorem mem_slotWrites {w : ℕ × BitVec 64} :
    w ∈ slotWrites canon delta l ↔ ∃ r ∈ l.relocations,
      (r.offset + delta).toNat + 8 ≤ (movedLen delta l).toNat ∧ w.1 = (r.offset + delta).toNat ∧
      slotValue canon (shift delta l.canaryAddr) (l.dynSymbols.map (Symbol.bias delta)) delta
        (r.bias delta) = some w.2 := by
  rw [slotWrites, List.mem_filterMap]
  refine exists_congr fun r => and_congr_right fun _ => ?_
  rw [Option.map_eq_some_iff]
  constructor
  · rintro ⟨v, hv, rfl⟩
    split at hv
    · rename_i hin
      exact ⟨hin, rfl, hv⟩
    · cases hv
  · rintro ⟨hin, hoff, hv⟩
    refine ⟨w.2, ?_, ?_⟩
    · rw [if_pos hin]
      exact hv
    · rw [← hoff]

/-- Without relative slots the second move writes what one move writes. -/
theorem slotWrites_moveBy (h : Movable l d₁ d₂) (hrel : ∀ r ∈ l.relocations, r.type ≠ rX86_64_RELATIVE) :
    slotWrites canon d₂ (moveBy canon d₁ l) = slotWrites canon (d₁ + d₂) l := by
  have hlen : movedLen d₂ (moveBy canon d₁ l) = movedLen (d₁ + d₂) l := by
    show alignUp (l.maxVAddr + d₁ + d₂) 4096 = alignUp (l.maxVAddr + (d₁ + d₂)) 4096
    rw [add_assoc]
  have hdyn : (l.dynSymbols.map (Symbol.bias d₁)).map (Symbol.bias d₂) =
      l.dynSymbols.map (Symbol.bias (d₁ + d₂)) := by
    rw [List.map_map]
    exact List.map_congr_left fun s hs => Symbol.bias_bias (h.dynSymbols s hs).1
  have hcanary : shift d₂ (shift d₁ l.canaryAddr) = shift (d₁ + d₂) l.canaryAddr :=
    shift_shift fun hne => (h.canaryAddr hne).1
  show List.filterMap _ (l.relocations.map (Relocation.bias d₁)) = _
  rw [List.filterMap_map, slotWrites]
  refine List.filterMap_congr fun r hr => ?_
  have hoff : (r.bias d₁).offset + d₂ = r.offset + (d₁ + d₂) := add_assoc ..
  have hbias : (r.bias d₁).bias d₂ = r.bias (d₁ + d₂) :=
    Relocation.bias_bias fun hne => (h.pltAddr hr hne).1
  rw [Function.comp_apply, hoff, hlen, hbias]
  show Option.map _ (if _ then slotValue canon (shift d₂ (shift d₁ l.canaryAddr))
    ((l.dynSymbols.map (Symbol.bias d₁)).map (Symbol.bias d₂)) d₂ (r.bias (d₁ + d₂)) else none) = _
  rw [hdyn, hcanary, slotValue_congr (r := r.bias (d₁ + d₂)) (hrel r hr) d₂ (d₁ + d₂)]

/-- A slot that covers a moved byte of the mapped range lies in it. -/
theorem Movable.mapped_of_covers (h : Movable l d₁ d₂) {r : Relocation} (hr : r ∈ l.relocations)
    (hp : r.Patched) {k : ℕ} (hk : k < l.maxVAddr.toNat - l.minVAddr.toNat)
    (hlo : (r.offset + d₁).toNat ≤ (l.minVAddr + d₁).toNat + k)
    (hhi : (l.minVAddr + d₁).toNat + k < (r.offset + d₁).toNat + 8) : Mapped l r := by
  rcases h.inside r hr hp with hin | hout
  · exact hin
  · exfalso
    have hslot := h.loaded.slots r hr hp
    have hslot' := h.once.slots r hr hp
    have hlength := h.once.length h.loaded
    obtain ⟨hmin, -, -⟩ := h.once.bounds
    rw [BitVec.toNat_add] at hlo hhi hslot'
    rw [BitVec.toNat_add, BitVec.toNat_add] at hlength hmin
    rw [BitVec.toNat_add] at hlo hhi
    have hrange := h.loaded.mapped
    rw [BitVec.lt_def] at hrange
    have hd := d₁.isLt
    have hmax := l.maxVAddr.isLt
    omega

/-- A slot that the first move sets is set by one move of the whole distance. -/
theorem Movable.written_again (h : Movable l d₁ d₂) {r : Relocation} (hr : r ∈ l.relocations)
    (hsome : (slotValue canon (shift d₁ l.canaryAddr) (l.dynSymbols.map (Symbol.bias d₁)) d₁
      (r.bias d₁)).isSome) :
    ∃ v, slotValue canon (shift (d₁ + d₂) l.canaryAddr) (l.dynSymbols.map (Symbol.bias (d₁ + d₂)))
      (d₁ + d₂) (r.bias (d₁ + d₂)) = some v := by
  rw [slotValue_isSome (fun hne => (h.canaryAddr hne).1) (fun hne => (h.pltAddr hr hne).1)
    fun s hs => (h.dynSymbols s hs).1] at hsome
  rw [← slotValue_isSome (fun hne => (h.canaryAddr hne).2) (fun hne => (h.pltAddr hr hne).2)
    fun s hs => (h.dynSymbols s hs).2] at hsome
  exact Option.isSome_iff_exists.1 hsome

theorem moveBy_loaded (h : Movable l d₁ d₂) : Loaded (moveBy canon d₁ l) := by
  have hlen : (moveBy canon d₁ l).memoryImage.length = (movedLen d₁ l).toNat := by
    show ((movedBytes d₁ l).putWords _).length = _
    rw [Bytes.length_putWords, length_movedBytes]
  obtain ⟨-, hmax, -⟩ := h.once.bounds
  constructor
  · exact h.once.mapped
  · rw [hlen]
    exact hmax
  · rw [hlen]
    exact (movedLen d₁ l).isLt
  · intro moved hmoved hp
    obtain ⟨r, hr, rfl⟩ := List.mem_map.1 hmoved
    exact (h.once.slots r hr hp).le

theorem moveBy_fits (h : Movable l d₁ d₂) : Fits (moveBy canon d₁ l) d₂ := by
  have htwice := h.twice
  constructor
  · show l.minVAddr + d₁ + d₂ < l.maxVAddr + d₁ + d₂
    rw [add_assoc, add_assoc]
    exact htwice.mapped
  · show (l.maxVAddr + d₁ + d₂).toNat + 4095 ≤ maxAlloc
    rw [add_assoc]
    exact htwice.room
  · intro moved hmoved hp
    obtain ⟨r, hr, rfl⟩ := List.mem_map.1 hmoved
    show (r.offset + d₁ + d₂).toNat + 8 < 2 ^ 64
    rw [add_assoc]
    exact htwice.slots r hr hp

/-- **Two moves.**  Without relative slots they are one. -/
theorem moveBy_moveBy (h : Movable l d₁ d₂) (hrel : ∀ r ∈ l.relocations, r.type ≠ rX86_64_RELATIVE) :
    moveBy canon d₂ (moveBy canon d₁ l) = moveBy canon (d₁ + d₂) l := by
  have hl' : Loaded (moveBy canon d₁ l) := moveBy_loaded h
  have hf' : Fits (moveBy canon d₁ l) d₂ := moveBy_fits h
  have hmin : (moveBy canon d₁ l).minVAddr + d₂ = l.minVAddr + (d₁ + d₂) := add_assoc ..
  have hmax : (moveBy canon d₁ l).maxVAddr + d₂ = l.maxVAddr + (d₁ + d₂) := add_assoc ..
  have hlen : movedLen d₂ (moveBy canon d₁ l) = movedLen (d₁ + d₂) l := by
    rw [movedLen, hmax, movedLen]
  have hwidth := h.once.length h.loaded
  have hwidth₂ := h.twice.length h.loaded
  -- the first move changes the bytes it carries only where the second move writes again
  have hbytes : (movedBytes d₂ (moveBy canon d₁ l)).putWords (slotWrites canon (d₁ + d₂) l) =
      (movedBytes (d₁ + d₂) l).putWords (slotWrites canon (d₁ + d₂) l) := by
    refine Bytes.putWords_congr (by rw [length_movedBytes, length_movedBytes, hlen]) fun j => ?_
    by_cases hj : j < (l.minVAddr + (d₁ + d₂)).toNat ∨ (l.maxVAddr + (d₁ + d₂)).toNat ≤ j
    · refine .inr ?_
      rw [get_movedBytes_outside h.loaded h.twice hj]
      exact get_movedBytes_outside hl' hf' (by rw [hmin, hmax]; exact hj)
    · obtain ⟨k, hk⟩ : ∃ k, j = (l.minVAddr + (d₁ + d₂)).toNat + k :=
        ⟨j - (l.minVAddr + (d₁ + d₂)).toNat, by omega⟩
      have hklt : k < l.maxVAddr.toNat - l.minVAddr.toNat := by omega
      have hcarried : (movedBytes d₂ (moveBy canon d₁ l)).get j =
          (moveBy canon d₁ l).memoryImage.get ((l.minVAddr + d₁).toNat + k) := by
        rw [hk, ← hmin]
        refine get_movedBytes hl' hf' ?_
        show k < (l.maxVAddr + d₁).toNat - (l.minVAddr + d₁).toNat
        omega
      have honce : (movedBytes (d₁ + d₂) l).get j = l.memoryImage.get (l.minVAddr.toNat + k) := by
        rw [hk]
        exact get_movedBytes h.loaded h.twice hklt
      by_cases hfree : ∀ w ∈ slotWrites canon d₁ l,
          (l.minVAddr + d₁).toNat + k < w.1 ∨ w.1 + 8 ≤ (l.minVAddr + d₁).toNat + k
      · refine .inr ?_
        rw [hcarried, honce]
        show ((movedBytes d₁ l).putWords (slotWrites canon d₁ l)).get _ = _
        rw [Bytes.get_putWords _ hfree, get_movedBytes h.loaded h.once hklt]
      · refine .inl ?_
        push Not at hfree
        obtain ⟨w, hw, hlo, hhi⟩ := hfree
        obtain ⟨r, hr, -, hoff, hv⟩ := mem_slotWrites.1 hw
        have hp : (r.bias d₁).Patched := slotValue_patched hv
        have hin := h.mapped_of_covers hr hp hklt (hoff ▸ hlo) (hoff ▸ hhi)
        obtain ⟨v, hv'⟩ := h.written_again hr (Option.isSome_of_mem hv)
        have hpos := hin.shifted h.loaded h.once
        have hpos₂ := hin.shifted h.loaded h.twice
        obtain ⟨-, hend⟩ := hin.bias h.loaded h.twice
        obtain ⟨-, hroom, -⟩ := h.twice.bounds
        refine ⟨((r.offset + (d₁ + d₂)).toNat, v), mem_slotWrites.2 ⟨r, hr, by omega, rfl, hv'⟩, ?_, ?_⟩
        · show (r.offset + (d₁ + d₂)).toNat ≤ j
          omega
        · show j < (r.offset + (d₁ + d₂)).toNat + 8
          omega
  show { movedFields d₂ (movedLen d₂ (moveBy canon d₁ l)) (movedFields d₁ (movedLen d₁ l) l) with
    memoryImage := (movedBytes d₂ (moveBy canon d₁ l)).putWords (slotWrites canon d₂ (moveBy canon d₁ l)) } = _
  rw [movedFields_movedFields h, hlen, slotWrites_moveBy h hrel, hbytes]
  rfl

/-! ### when an image is translated -/

/-- An image without the addresses that a move forgets, and with the maps and the slots that a move
makes. -/
structure Carried (l : LoadedELF) : Prop where
  lsdaBounds : l.lsdaBounds = []
  procParamAddr : l.procParamAddr = 0
  sections : ∀ name s, l.sections name = some s → s.addr = 0
  byName : l.symbolByName = rebuildByName l.symbols
  byAddr : l.symbolByAddr = rebuildByAddr l.symbols
  addends : ∀ r ∈ l.relocations, r.type = rX86_64_RELATIVE →
    l.memoryImage.word r.offset.toNat = r.addend

/-- An image whose bytes and slices are those of a fresh one. -/
structure Settled (canon : String → String) (l : LoadedELF) : Prop where
  segments : l.segments.map (Segment.bias 0 (movedLen 0 l)) = l.segments
  bytes : (movedBytes 0 l).putWords (slotWrites canon 0 l) = l.memoryImage

/-- What it takes for moves by `d₁` and by `d₂` to be a translation. -/
def BiasHolds (canon : String → String) (l : LoadedELF) (d₁ d₂ : BitVec 64) : Prop :=
  d₁ = 0 ∨ Carried l ∧ (d₂ = 0 ∨
    (∀ r ∈ l.relocations, r.type ≠ rX86_64_RELATIVE) ∧ (d₁ + d₂ = 0 → Settled canon l))

theorem map_bias_zero (rs : List AddrRange) : rs.map (AddrRange.bias 0) = rs := by
  have hid : ∀ r ∈ rs, AddrRange.bias 0 r = r := fun r _ => r.bias_zero
  exact (List.map_congr_left hid).trans (List.map_id' rs)

theorem symbols_bias_zero (ss : List Symbol) : ss.map (Symbol.bias 0) = ss := by
  have hid : ∀ s ∈ ss, Symbol.bias 0 s = s := fun s _ => s.bias_zero
  exact (List.map_congr_left hid).trans (List.map_id' ss)

theorem map_shift_zero (as : List (BitVec 64)) : as.map (shift 0) = as := by
  have hid : ∀ a ∈ as, shift 0 a = a := fun a _ => shift_zero a
  exact (List.map_congr_left hid).trans (List.map_id' as)

theorem relocations_bias_zero (rs : List Relocation) : rs.map (Relocation.bias 0) = rs := by
  have hid : ∀ r ∈ rs, Relocation.bias 0 r = r := by
    intro r _
    rw [Relocation.bias, add_zero, shift_zero]
  exact (List.map_congr_left hid).trans (List.map_id' rs)

theorem translated_zero (l : LoadedELF) : Translated 0 l l := by
  constructor
  case segments => simp only [add_zero]
  case sections =>
    intro name
    simp only [shift_zero]
    exact Option.map_id'.symm
  case slots => intros; rw [add_zero, add_zero]
  case byAddr =>
    intro a
    rw [add_zero, show Symbol.bias 0 = id from funext Symbol.bias_zero]
    exact (congrFun Option.map_id _).symm
  case byName =>
    intro name
    rw [show Symbol.bias 0 = id from funext Symbol.bias_zero]
    exact (congrFun Option.map_id _).symm
  case funcExtent =>
    intro a
    rw [add_zero, show AddrRange.bias 0 = id from funext AddrRange.bias_zero]
    exact (congrFun Option.map_id _).symm
  all_goals
    simp only [shift_zero, add_zero, map_bias_zero, symbols_bias_zero, map_shift_zero,
      relocations_bias_zero]

/-- **One move is a translation** exactly when the image is carried. -/
theorem translated_iff (canon : String → String) (h : Movable l d₁ d₂) (hne : d₁ ≠ 0) :
    Translated d₁ l (moveBy canon d₁ l) ↔ Carried l := by
  constructor
  · intro ht
    refine ⟨?_, ?_, ?_, ?_, ?_, ?_⟩
    · have hlsda : l.lsdaBounds = l.lsdaBounds.map (AddrRange.bias d₁) := ht.lsdaBounds
      cases hl : l.lsdaBounds with
      | nil => rfl
      | cons r rs =>
          rw [hl, List.map_cons, List.cons.injEq] at hlsda
          exact absurd (left_eq_add.1 (congrArg AddrRange.start hlsda.1)) hne
    · exact eq_zero_of_shift hne ht.procParamAddr
    · intro name s hs
      have hsec : l.sections name = (l.sections name).map fun s => { s with addr := shift d₁ s.addr } :=
        ht.sections name
      rw [hs, Option.map_some, Option.some.injEq] at hsec
      exact eq_zero_of_shift hne (congrArg Section.addr hsec)
    · funext name
      have hname : rebuildByName (l.symbols.map (Symbol.bias d₁)) name =
          (l.symbolByName name).map (Symbol.bias d₁) := ht.byName name
      rw [rebuildByName_bias] at hname
      exact (map_bias_injective (fun s hs => h.symbols s (rebuildByName_mem hs))
        (fun s hs => h.byName name s hs) hname).symm
    · funext a
      have haddr : rebuildByAddr (l.symbols.map (Symbol.bias d₁)) (a + d₁) =
          (l.symbolByAddr a).map (Symbol.bias d₁) := ht.byAddr a
      rw [rebuildByAddr_bias h.symbols h.tls] at haddr
      exact (map_bias_injective (fun s hs => h.symbols s (rebuildByAddr_mem hs))
        (fun s hs => h.byAddr a s hs) haddr).symm
    · intro r hr hrel
      have hin := h.relative r hr hrel
      have hword := ht.slots r hr hrel hin.1 hin.2
      rw [word_relative canon h.loaded h.once h.apart hr hrel hin] at hword
      exact (add_right_cancel hword).symm
  · intro hc
    constructor
    case segments =>
      show (l.segments.map (Segment.bias d₁ _)).map _ = _
      rw [List.map_map]
      rfl
    case sections =>
      intro name
      show l.sections name = _
      cases hs : l.sections name with
      | none => rfl
      | some s =>
          have haddr : shift d₁ s.addr = s.addr := by
            rw [hc.sections name s hs]
            rfl
          rw [Option.map_some, haddr]
    case lsdaBounds =>
      show l.lsdaBounds = _
      rw [hc.lsdaBounds]
      rfl
    case procParamAddr =>
      show l.procParamAddr = _
      rw [hc.procParamAddr]
      rfl
    case slots =>
      intro r hr hrel _ _
      rw [word_relative canon h.loaded h.once h.apart hr hrel (h.relative r hr hrel), hc.addends r hr hrel]
    case byAddr =>
      intro a
      rw [hc.byAddr]
      exact rebuildByAddr_bias h.symbols h.tls a
    case byName =>
      intro name
      rw [hc.byName]
      exact rebuildByName_bias d₁ l.symbols name
    case funcExtent => exact funcExtent_bias rfl h.extents
    all_goals rfl

theorem moveBy_zero (hc : Carried l) : moveBy canon 0 l = l ↔ Settled canon l := by
  have hfields : moveBy canon 0 l =
      { l with
        segments := l.segments.map (Segment.bias 0 (movedLen 0 l))
        memoryImage := (movedBytes 0 l).putWords (slotWrites canon 0 l) } := by
    rw [moveBy, movedFields]
    simp only [shift_zero, add_zero, map_bias_zero, symbols_bias_zero, map_shift_zero,
      relocations_bias_zero, ← hc.byName, ← hc.byAddr]
  rw [hfields]
  constructor
  · intro h
    exact ⟨congrArg LoadedELF.segments h, congrArg LoadedELF.memoryImage h⟩
  · intro h
    rw [h.segments, h.bytes]

theorem moveBy_apart (h : Movable l d₁ d₂) : RelativeApart (moveBy canon d₁ l) := by
  show (l.relocations.map (Relocation.bias d₁)).Pairwise _
  rw [List.pairwise_map]
  refine h.apart.imp_of_mem ?_
  intro a b ha hb hdisj hrel hp
  exact apart_moved (h.loaded.slots a ha (.inl hrel)) (h.loaded.slots b hb hp) (hdisj hrel hp)

theorem word_moveBy_moveBy (canon : String → String) (h : Movable l d₁ d₂) {r : Relocation}
    (hr : r ∈ l.relocations) (hrel : r.type = rX86_64_RELATIVE) :
    (moveBy canon d₂ (moveBy canon d₁ l)).memoryImage.word (r.offset + d₁ + d₂).toNat =
      r.addend + d₂ := by
  have hmem : r.bias d₁ ∈ (moveBy canon d₁ l).relocations := List.mem_map_of_mem hr
  have hin : Mapped (moveBy canon d₁ l) (r.bias d₁) := (h.relative r hr hrel).bias h.loaded h.once
  have hword := word_relative canon (moveBy_loaded h) (moveBy_fits h) (moveBy_apart h) hmem
    hrel hin
  exact hword

/-- One move puts another value in a relative slot than two moves. -/
theorem moveBy_moveBy_ne (h : Movable l d₁ d₂) (hne : d₁ ≠ 0) {r : Relocation} (hr : r ∈ l.relocations)
    (hrel : r.type = rX86_64_RELATIVE) :
    moveBy canon d₂ (moveBy canon d₁ l) ≠ moveBy canon (d₁ + d₂) l := by
  intro heq
  have hword := word_moveBy_moveBy canon h hr hrel
  rw [heq, add_assoc, word_relative canon h.loaded h.twice h.apart hr hrel (h.relative r hr hrel),
    add_comm d₁, ← add_assoc] at hword
  exact hne (add_eq_left.1 hword)

/-- **Two moves are one** exactly when no slot holds its addend, and, where they cancel, the image is
settled. -/
theorem twice_iff (h : Movable l d₁ d₂) (hne₁ : d₁ ≠ 0) (hne₂ : d₂ ≠ 0) (hc : Carried l) :
    applyBias canon d₂ (moveBy canon d₁ l) = applyBias canon (d₁ + d₂) l ↔
      (∀ r ∈ l.relocations, r.type ≠ rX86_64_RELATIVE) ∧ (d₁ + d₂ = 0 → Settled canon l) := by
  rw [applyBias_eq hne₂ (moveBy_loaded h) (moveBy_fits h)]
  have honce : applyBias canon (d₁ + d₂) l =
      some (if d₁ + d₂ = 0 then l else moveBy canon (d₁ + d₂) l) := by
    split
    · rename_i hzero
      rw [applyBias, if_pos hzero]
    · rename_i hne
      exact applyBias_eq hne h.loaded h.twice
  rw [honce, Option.some.injEq]
  constructor
  · intro heq
    have hrel : ∀ r ∈ l.relocations, r.type ≠ rX86_64_RELATIVE := by
      intro r hr hrel
      split at heq
      · rename_i hzero
        have hword := word_moveBy_moveBy canon h hr hrel
        rw [heq, add_assoc, hzero, add_zero, hc.addends r hr hrel] at hword
        exact hne₂ (left_eq_add.1 hword)
      · exact moveBy_moveBy_ne h hne₁ hr hrel heq
    refine ⟨hrel, fun hzero => ?_⟩
    rw [moveBy_moveBy h hrel, if_pos hzero, hzero] at heq
    exact (moveBy_zero hc).1 heq
  · intro hr
    obtain ⟨hrel, hsettled⟩ := hr
    rw [moveBy_moveBy h hrel]
    split
    · rename_i hzero
      rw [hzero]
      exact (moveBy_zero hc).2 (hsettled hzero)
    · rfl

/-- **Moves.**  A movable image is translated by `ApplyBias`, and two calls do what one does, exactly
when it has no LSDA range, parameter block or section address to forget, its maps are those made
from its symbols, its relative slots hold their addends, and there are none of these where it is
moved again. -/
theorem applyBias_translates (canon : String → String) {l : LoadedELF} {d₁ d₂ : BitVec 64}
    (h : Movable l d₁ d₂) :
    ((∃ l', applyBias canon d₁ l = some l' ∧ Translated d₁ l l') ∧
      (applyBias canon d₁ l).bind (applyBias canon d₂) = applyBias canon (d₁ + d₂) l) ↔
      BiasHolds canon l d₁ d₂ := by
  by_cases hne₁ : d₁ = 0
  · subst hne₁
    have hstay : applyBias canon 0 l = some l := if_pos rfl
    refine iff_of_true ⟨⟨l, hstay, translated_zero l⟩, ?_⟩ (.inl rfl)
    rw [hstay, Option.bind_some, zero_add]
  have hmove : applyBias canon d₁ l = some (moveBy canon d₁ l) := applyBias_eq hne₁ h.loaded h.once
  have hfirst : (∃ l', applyBias canon d₁ l = some l' ∧ Translated d₁ l l') ↔ Carried l := by
    rw [← translated_iff canon h hne₁, hmove]
    constructor
    · intro hex
      obtain ⟨l', heq, ht⟩ := hex
      cases heq
      exact ht
    · exact fun ht => ⟨_, rfl, ht⟩
  rw [hfirst, BiasHolds, or_iff_right hne₁, hmove, Option.bind_some]
  refine and_congr_right fun hc => ?_
  by_cases hne₂ : d₂ = 0
  · subst hne₂
    refine iff_of_true ?_ (.inl rfl)
    rw [add_zero, hmove]
    exact if_pos rfl
  · rw [twice_iff h hne₁ hne₂ hc, or_iff_right hne₂]

/-- Eight mapped bytes with one slot, one symbol and one function. -/
def slotImage (r : Relocation) (lsda : List AddrRange) : LoadedELF :=
  let symbols : List Symbol := [{ name := "start", address := 4 }]
  { maxVAddr := 8
    memoryImage := List.replicate 8 0
    relocations := [r]
    symbols := symbols
    symbolByName := rebuildByName symbols
    symbolByAddr := rebuildByAddr symbols
    funcBounds := [{ start := 0, stop := 8 }]
    lsdaBounds := lsda }

theorem slotImage_movable {r : Relocation} {lsda : List AddrRange} (hoff : r.offset = 0)
    (hplt : r.pltAddr = 0 ∨ r.pltAddr = 4) : Movable (slotImage r lsda) 0x1000 0x1000 := by
  have hmin : (slotImage r lsda).minVAddr = 0 := rfl
  have hmax : (slotImage r lsda).maxVAddr = 8 := rfl
  have hslot : Mapped (slotImage r lsda) r := by
    rw [Mapped, hoff, hmin, hmax]
    decide
  have hmoves : ∀ s ∈ (slotImage r lsda).symbols, s.Moves 0x1000 := by
    intro s hs
    rw [List.mem_singleton.1 hs]
    exact fun _ => by decide
  constructor
  case loaded =>
    have hlen : (slotImage r lsda).memoryImage.length = 8 := rfl
    refine ⟨by rw [hmin, hmax]; decide, by rw [hmax, hlen]; decide, by rw [hlen]; decide,
      fun r' hr' _ => ?_⟩
    rw [List.mem_singleton.1 hr', hoff]
    decide
  case once =>
    refine ⟨by rw [hmin, hmax]; decide, by rw [hmax]; decide, fun r' hr' _ => ?_⟩
    rw [List.mem_singleton.1 hr', hoff]
    decide
  case twice =>
    refine ⟨by rw [hmin, hmax]; decide, by rw [hmax]; decide, fun r' hr' _ => ?_⟩
    rw [List.mem_singleton.1 hr', hoff]
    decide
  case apart => exact List.pairwise_singleton _ _
  case relative =>
    intro r' hr' _
    rw [List.mem_singleton.1 hr']
    exact hslot
  case inside =>
    intro r' hr' _
    rw [List.mem_singleton.1 hr']
    exact .inl hslot
  case addresses =>
    intro a ha
    have hcases : a = 0 ∨ a = 4 := by
      rcases List.mem_append.1 ha with hfixed | hslots
      · have hzero : a ∈ List.replicate 6 (0 : BitVec 64) := hfixed
        exact .inl (List.eq_of_mem_replicate hzero)
      · rw [List.mem_singleton.1 hslots]
        exact hplt
    rcases hcases with rfl | rfl
    · exact fun hne => absurd rfl hne
    · exact fun _ => by decide
  case symbols => exact hmoves
  case dynSymbols => exact fun s hs => nomatch hs
  case byName => exact fun name s hs => hmoves s (rebuildByName_mem hs)
  case byAddr => exact fun a s hs => hmoves s (rebuildByAddr_mem hs)
  case tls =>
    intro s hs ht
    rw [List.mem_singleton.1 hs] at ht
    exact absurd ht (by decide)
  case extents =>
    intro b hb
    rw [List.mem_singleton.1 hb]
    exact ⟨by rw [MovesWith, hmin]; decide, by rw [MovesWith, hmin]; decide⟩

/-- A procedure slot is translated. -/
theorem applyBias_translates_slot :
    let l := slotImage { offset := 0, type := rX86_64_JUMP_SLOT, pltAddr := 4 } []
    let canon := fun _ => ""
    (∃ l', applyBias canon 0x1000 l = some l' ∧ Translated 0x1000 l l') ∧
      (applyBias canon 0x1000 l).bind (applyBias canon 0x1000) =
        applyBias canon (0x1000 + 0x1000) l := by
  refine (applyBias_translates _ (slotImage_movable rfl (.inr rfl))).2 (.inr ⟨?_, .inr ⟨?_, ?_⟩⟩)
  · exact ⟨rfl, rfl, fun name s hs => (nomatch hs), rfl, rfl, fun r hr hrel => by
      rw [List.mem_singleton.1 hr] at hrel
      exact absurd hrel (by decide)⟩
  · intro r hr
    rw [List.mem_singleton.1 hr]
    decide
  · exact fun hzero => absurd hzero (by decide)

/-- An image with an LSDA range is not translated, and a relative slot tells two moves from one. -/
theorem applyBias_untranslated :
    let l := slotImage { offset := 0, type := rX86_64_RELATIVE } [{ start := 0, stop := 8 }]
    let canon := fun _ => ""
    ¬ (∃ l', applyBias canon 0x1000 l = some l' ∧ Translated 0x1000 l l') ∧
      (applyBias canon 0x1000 l).bind (applyBias canon 0x1000) ≠
        applyBias canon (0x1000 + 0x1000) l := by
  intro l canon
  have h : Movable l 0x1000 0x1000 := slotImage_movable rfl (.inl rfl)
  have hne : (0x1000 : BitVec 64) ≠ 0 := by decide
  have hne' : (0x1000 + 0x1000 : BitVec 64) ≠ 0 := by decide
  rw [applyBias_eq hne h.loaded h.once, applyBias_eq hne' h.loaded h.twice, Option.bind_some,
    applyBias_eq hne (moveBy_loaded h) (moveBy_fits h)]
  constructor
  · intro hex
    obtain ⟨l', heq, ht⟩ := hex
    cases heq
    exact absurd ((translated_iff canon h hne).1 ht).lsdaBounds (List.cons_ne_nil _ _)
  · intro heq
    exact moveBy_moveBy_ne h hne (List.mem_singleton.2 rfl) rfl (Option.some.inj heq)

end PS4Recomp.Elf
