import PS4Recomp.Elf.Image
import PS4Recomp.Library.Rounding
import PS4Recomp.Library.PartialFold

/-!
# Static TLS

The layout of `tls.go` and the static TLS areas of `recomp_runtime.c`.

* `addTLSModule`, `layoutStaticTLS`, `applyTLSOffsets` — the toolchain's side;
* `recompInitTlsModules`, `tlsInitArea`, `tlsGetAddr` — the runtime's side;
* `Stacked`, `stacked_layout` — every block ends at or below the one before it, at a multiple of its
  alignment, as far as no sum overflows;
* `tlsInitArea_block` — an initialised block is its template followed by zeros;
* `word_tpoff` — what the slots hold in the end;
* **`staticTls`** — the blocks are apart and inside the area, initialised as they should be, and both
  ways to address a variable agree.

The area of a thread ends at its thread pointer; guest addresses of the runtime's side are natural
numbers, its sizes are at most the addresses they are taken from.
-/

namespace PS4Recomp.Elf

open Library

/-! ### the toolchain -/

/-- The messages of `AddTLSModule` and `ApplyTLSOffsets`, with their arguments. -/
inductive TLSProblem where
  /-- `%s: TLS relocation type %d at 0x%x in a module without PT_TLS (%q)` -/
  | withoutTLS (file : String) (type : BitVec 32) (offset : BitVec 64) (symName : String)
  /-- `%s: TLS relocation type %d at 0x%x names %q, a TLS symbol of another module` -/
  | foreignSymbol (file : String) (type : BitVec 32) (offset : BitVec 64) (symName : String)
  /-- `%s: TLS relocation type %d at 0x%x lies outside the image (0x%x bytes)` -/
  | outsideImage (file : String) (type : BitVec 32) (offset : BitVec 64) (bytes : ℕ)
  /-- `%s: R_X86_64_TPOFF64 at 0x%x: static TLS is not laid out` -/
  | notLaidOut (file : String) (offset : BitVec 64)
  /-- `%s: R_X86_64_TPOFF64 at 0x%x lies outside the merged image (0x%x bytes)` -/
  | outsideMerged (file : String) (offset : BitVec 64) (bytes : ℕ)
  deriving DecidableEq

/-- `isTLSReloc`. -/
def isTLSReloc (t : BitVec 32) : Bool :=
  t == rX86_64_DTPMOD64 || t == rX86_64_DTPOFF64 || t == rX86_64_TPOFF64

/-- `tlsSymbolValue`. -/
def tlsSymbolValue (mod : LoadedELF) (symIdx : BitVec 32) : BitVec 64 :=
  if symIdx = 0 then 0
  else match mod.dynSymbols[symIdx.toNat]? with
    | none => 0
    | some sym => if sym.type = sttSection then 0 else sym.address

/-- `ownTLSSymbol`. -/
def ownTLSSymbol (mod : LoadedELF) (symIdx : BitVec 32) : Bool :=
  if symIdx = 0 then true
  else match mod.dynSymbols[symIdx.toNat]? with
    | none => false
    | some sym => sym.type == sttSection || sym.sectionIndex != shnUndef || sym.address != 0

/-- What the loop of `AddTLSModule` changes: the module's image, the queue and the messages. -/
structure TLSPass where
  image : Bytes
  tpoff : List PendingTPOFF := []
  problems : List TLSProblem := []

/-- The TLS module index at a position of `TLSModules`. -/
def tlsId (index : ℕ) : BitVec 64 := BitVec.ofNat 64 index + 1

/-- S + A of a relocation. -/
def tlsValue (mod : LoadedELF) (rel : Relocation) : BitVec 64 :=
  tlsSymbolValue mod rel.symIdx + rel.addend

/-- One relocation in the loop of `AddTLSModule`. -/
def tlsReloc (index : ℕ) (mod : LoadedELF) (st : TLSPass) (rel : Relocation) : Option TLSPass :=
  if isTLSReloc rel.type = false then some st
  else if ownTLSSymbol mod rel.symIdx = false then
    some { st with problems := st.problems ++
      [.foreignSymbol mod.fileName rel.type rel.offset rel.symName] }
  else if len64 st.image < rel.offset + 8 then
    some { st with problems := st.problems ++
      [.outsideImage mod.fileName rel.type rel.offset st.image.length] }
  else if rel.type = rX86_64_DTPMOD64 then
    (putUint64 st.image rel.offset (tlsId index)).map fun image => { st with image }
  else if rel.type = rX86_64_DTPOFF64 then
    (putUint64 st.image rel.offset (tlsValue mod rel)).map fun image => { st with image }
  else
    some { st with tpoff := st.tpoff ++
      [{ module := index, file := mod.fileName, offset := rel.offset, value := tlsValue mod rel }] }

/-- The module record of an image. -/
def tlsModuleOf (index : ℕ) (mod : LoadedELF) : TLSModule :=
  { id := tlsId index, name := mod.fileName, vaddr := mod.tlsVaddr, filesz := mod.tlsFilesz,
    memsz := mod.tlsMemsz, align := mod.tlsAlign }

/-- `AddTLSModule`: `main` and `mod` afterwards, and the messages. -/
def addTLSModule (main mod : LoadedELF) : Option (LoadedELF × LoadedELF × List TLSProblem) :=
  if mod.tlsMemsz = 0 then
    some (main, mod, (mod.relocations.filter fun rel => isTLSReloc rel.type).map fun rel =>
      .withoutTLS mod.fileName rel.type rel.offset rel.symName)
  else
    let index := main.tlsModules.length
    (mod.relocations.foldlM (tlsReloc index mod) { image := mod.memoryImage }).map fun st =>
      ({ main with
          tlsModules := main.tlsModules ++ [tlsModuleOf index mod]
          tlsTPOFF := main.tlsTPOFF ++ st.tpoff },
        { mod with memoryImage := st.image }, st.problems)

/-- The alignment of a block. -/
def TLSModule.blockAlign (m : TLSModule) : BitVec 64 := if m.align = 0 then 1 else m.align

/-- The loop of `LayoutStaticTLS` from an offset on. -/
def layoutFrom : BitVec 64 → List TLSModule → List TLSModule
  | _, [] => []
  | offset, m :: mods =>
      let offset := (offset + m.memsz + m.blockAlign - 1) / m.blockAlign * m.blockAlign
      { m with offset } :: layoutFrom offset mods

/-- `LayoutStaticTLS`. -/
def layoutStaticTLS (mods : List TLSModule) : List TLSModule := layoutFrom 0 mods

/-- One slot in the loop of `ApplyTLSOffsets`, over the image and the messages. -/
def tlsOffset (mods : List TLSModule) (st : Bytes × List TLSProblem) (p : PendingTPOFF) :
    Option (Bytes × List TLSProblem) :=
  match mods[p.module]? with
  | none => none
  | some m =>
      if m.offset = 0 then some (st.1, st.2 ++ [.notLaidOut p.file p.offset])
      else if len64 st.1 < p.offset + 8 then
        some (st.1, st.2 ++ [.outsideMerged p.file p.offset st.1.length])
      else (putUint64 st.1 p.offset (p.value - m.offset)).map fun image => (image, st.2)

/-- `ApplyTLSOffsets`. -/
def applyTLSOffsets (main : LoadedELF) : Option (LoadedELF × List TLSProblem) :=
  (main.tlsTPOFF.foldlM (tlsOffset main.tlsModules) (main.memoryImage, [])).map fun r =>
    ({ main with memoryImage := r.1, tlsTPOFF := [] }, r.2)

/-! ### the runtime -/

/-- The check of one module in `recomp_init_tls_modules`. -/
def tlsModuleOk (memSize : BitVec 64) (i : ℕ) (m : TLSModule) : Prop :=
  m.id = tlsId i ∧ m.memsz ≤ m.offset ∧ m.offset % m.blockAlign = 0 ∧ m.filesz ≤ m.memsz ∧
    (m.filesz = 0 ∨ m.vaddr + m.filesz ≤ memSize)

instance (memSize : BitVec 64) (i : ℕ) (m : TLSModule) : Decidable (tlsModuleOk memSize i m) :=
  inferInstanceAs (Decidable (_ ∧ _))

/-- `end` in `recomp_init_tls_modules`: the largest offset. -/
def tlsEnd (mods : List TLSModule) : BitVec 64 :=
  mods.foldl (fun e m => if e < m.offset then m.offset else e) 0

/-- `static_tls_size`. -/
def staticTlsSize (mods : List TLSModule) : BitVec 64 :=
  let size := (tlsEnd mods + 15) &&& ~~~15
  if size < 0x100 then 0x100 else size

/-- `RECOMP_TLS_MAX_MODULES`. -/
def recompTlsMaxModules : ℕ := 64

/-- `recomp_init_tls_modules`: the size of the static TLS area, `none` for an abort. -/
def recompInitTlsModules (memSize : BitVec 64) (mods : List TLSModule) : Option (BitVec 64) :=
  if recompTlsMaxModules < mods.length then none
  else if ∀ i, (h : i < mods.length) → tlsModuleOk memSize i mods[i] then
    if 0x10000 < staticTlsSize mods then none else some (staticTlsSize mods)
  else none

/-- `memcpy` of `n` bytes. -/
def memcpy (mem : ℕ → BitVec 8) (dst src n : ℕ) : ℕ → BitVec 8 :=
  fun a => if dst ≤ a ∧ a < dst + n then mem (src + (a - dst)) else mem a

/-- `memset` of `n` bytes to 0. -/
def zero (mem : ℕ → BitVec 8) (dst n : ℕ) : ℕ → BitVec 8 :=
  fun a => if dst ≤ a ∧ a < dst + n then 0 else mem a

/-- `tls_init_area`. -/
def tlsInitArea (mods : List TLSModule) (mem : ℕ → BitVec 8) (tcb size : ℕ) : ℕ → BitVec 8 :=
  mods.foldl (fun mem m =>
    if m.filesz ≠ 0 then memcpy mem (tcb - m.offset.toNat) m.vaddr.toNat m.filesz.toNat else mem)
    (zero mem (tcb - size) size)

/-- `recomp_tls_module_offset`. -/
def tlsModuleOffset (mods : List TLSModule) (moduleId : BitVec 64) : BitVec 64 :=
  if moduleId = 0 ∨ mods.length < moduleId.toNat then 0
  else (mods[moduleId.toNat - 1]?.map TLSModule.offset).getD 0

/-- `__tls_get_addr` of a `tls_index`. -/
def tlsGetAddr (mods : List TLSModule) (fsBase moduleId offset : BitVec 64) : BitVec 64 :=
  let modOff := tlsModuleOffset mods moduleId
  if modOff ≠ 0 then fsBase - modOff + offset else fsBase + offset

/-! ### the layout -/

variable {mods : List TLSModule} {m : TLSModule} {lo : ℕ} {off : BitVec 64}

/-- No sum of the layout from an offset on exceeds 64 bits, nor does the rounded area. -/
def NoOverflow : ℕ → List TLSModule → Prop
  | offset, [] => offset + 15 < 2 ^ 64
  | offset, m :: mods =>
      offset + m.memsz.toNat + (m.blockAlign.toNat - 1) < 2 ^ 64 ∧
        NoOverflow (roundUp (offset + m.memsz.toNat) m.blockAlign.toNat) mods

/-- Every block ends at or below the start of the one before, the first below `lo`, at a multiple of
its alignment. -/
def Stacked : ℕ → List TLSModule → Prop
  | _, [] => True
  | lo, m :: mods =>
      lo + m.memsz.toNat ≤ m.offset.toNat ∧ m.blockAlign.toNat ∣ m.offset.toNat ∧
        Stacked m.offset.toNat mods

theorem blockAlign_pos (m : TLSModule) : 0 < m.blockAlign.toNat := by
  unfold TLSModule.blockAlign
  split
  · decide
  · rename_i h
    rw [Nat.pos_iff_ne_zero]
    exact fun hz => h (BitVec.eq_of_toNat_eq hz)

theorem NoOverflow.bound (h : NoOverflow lo mods) : lo + 15 < 2 ^ 64 := by
  induction mods generalizing lo with
  | nil => exact h
  | cons m mods ih =>
      have hrest := ih h.2
      have hle := le_roundUp (lo + m.memsz.toNat) (blockAlign_pos m)
      omega

/-- The rounding of the code is rounding up while the sum fits. -/
theorem toNat_layout (h : off.toNat + m.memsz.toNat + (m.blockAlign.toNat - 1) < 2 ^ 64) :
    ((off + m.memsz + m.blockAlign - 1) / m.blockAlign * m.blockAlign).toNat =
      roundUp (off.toNat + m.memsz.toNat) m.blockAlign.toNat := by
  have hpos := blockAlign_pos m
  have hsum : (off + m.memsz + m.blockAlign - 1).toNat =
      off.toNat + m.memsz.toNat + m.blockAlign.toNat - 1 := by
    rw [BitVec.toNat_sub, BitVec.toNat_add, BitVec.toNat_add]
    have hone : (1 : BitVec 64).toNat = 1 := rfl
    omega
  have hle := Nat.div_mul_le_self (off.toNat + m.memsz.toNat + m.blockAlign.toNat - 1)
    m.blockAlign.toNat
  rw [BitVec.toNat_mul, BitVec.toNat_udiv, hsum, Nat.mod_eq_of_lt (by omega)]
  rfl

/-- **The layout stacks the blocks**, and the area below the thread pointer does not wrap. -/
theorem stacked_layout (h : NoOverflow off.toNat mods) :
    Stacked off.toNat (layoutFrom off mods) ∧
      ∀ m ∈ layoutFrom off mods, m.offset.toNat + 15 < 2 ^ 64 := by
  induction mods generalizing off with
  | nil => exact ⟨trivial, fun m hm => nomatch hm⟩
  | cons m mods ih =>
      have hoff := toNat_layout h.1
      have hnext := h.2
      rw [← hoff] at hnext
      obtain ⟨hstack, hbound⟩ := ih hnext
      refine ⟨⟨?_, ?_, hstack⟩, fun m' hm' => ?_⟩
      · show off.toNat + m.memsz.toNat ≤ BitVec.toNat (_ / _ * _)
        rw [hoff]
        exact le_roundUp _ (blockAlign_pos m)
      · show m.blockAlign.toNat ∣ BitVec.toNat (_ / _ * _)
        rw [hoff]
        exact dvd_roundUp _ _
      · rcases List.mem_cons.1 hm' with rfl | hm'
        · exact hnext.bound
        · exact hbound m' hm'

theorem stacked_layoutStaticTLS (h : NoOverflow 0 mods) :
    Stacked 0 (layoutStaticTLS mods) ∧ ∀ m ∈ layoutStaticTLS mods, m.offset.toNat + 15 < 2 ^ 64 := by
  have h' : NoOverflow (0 : BitVec 64).toNat mods := h
  exact stacked_layout h'

/-- The blocks of a stack, below the point it starts at. -/
theorem Stacked.below (h : Stacked lo mods) (hm : m ∈ mods) :
    lo + m.memsz.toNat ≤ m.offset.toNat ∧ m.blockAlign.toNat ∣ m.offset.toNat := by
  induction mods generalizing lo with
  | nil => cases hm
  | cons m' mods ih =>
      obtain ⟨hle, hdvd, hrest⟩ := h
      rcases List.mem_cons.1 hm with rfl | hm
      · exact ⟨hle, hdvd⟩
      · have hbelow := ih hrest hm
        exact ⟨by omega, hbelow.2⟩

/-- Of two blocks of a stack the later one ends at or below the start of the earlier. -/
theorem Stacked.pairwise (h : Stacked lo mods) :
    mods.Pairwise fun a b => a.offset.toNat + b.memsz.toNat ≤ b.offset.toNat := by
  induction mods generalizing lo with
  | nil => exact .nil
  | cons m mods ih => exact .cons (fun m' hm' => (h.2.2.below hm').1) (ih h.2.2)

theorem layoutFrom_getElem? (off : BitVec 64) (mods : List TLSModule) (i : ℕ) :
    (∀ m, mods[i]? = some m → ∃ o, (layoutFrom off mods)[i]? = some { m with offset := o }) ∧
      ∀ m', (layoutFrom off mods)[i]? = some m' → ∃ m, mods[i]? = some m ∧
        m' = { m with offset := m'.offset } := by
  induction mods generalizing off i with
  | nil => exact ⟨fun m hm => (nomatch hm), fun m hm => (nomatch hm)⟩
  | cons m mods ih =>
      cases i with
      | zero =>
          constructor
          · intro m' hm'
            cases hm'
            exact ⟨_, rfl⟩
          · intro m' hm'
            cases hm'
            exact ⟨m, rfl, rfl⟩
      | succ i => exact ih _ i

theorem mem_layout {m' : TLSModule} (h : m' ∈ layoutFrom off mods) :
    ∃ m ∈ mods, m' = { m with offset := m'.offset } := by
  obtain ⟨i, hi⟩ := List.mem_iff_getElem?.1 h
  obtain ⟨m, hm, heq⟩ := (layoutFrom_getElem? off mods i).2 m' hi
  exact ⟨m, List.mem_of_getElem? hm, heq⟩

/-! ### the static area -/

/-- `end` is at least every offset, and one of them or 0. -/
theorem tlsEnd_spec (mods : List TLSModule) :
    (∀ m ∈ mods, m.offset ≤ tlsEnd mods) ∧ (tlsEnd mods = 0 ∨ ∃ m ∈ mods, tlsEnd mods = m.offset) := by
  have hgen : ∀ (l : List TLSModule) (e : BitVec 64),
      let r := l.foldl (fun e m => if e < m.offset then m.offset else e) e
      e ≤ r ∧ (∀ m ∈ l, m.offset ≤ r) ∧ (r = e ∨ ∃ m ∈ l, r = m.offset) := by
    intro l
    induction l with
    | nil => exact fun e => ⟨BitVec.le_refl e, fun m hm => (nomatch hm), .inl rfl⟩
    | cons m l ih =>
        intro e
        obtain ⟨hle, hall, hfrom⟩ := ih (if e < m.offset then m.offset else e)
        have hmax : e ≤ (if e < m.offset then m.offset else e) ∧
            m.offset ≤ (if e < m.offset then m.offset else e) := by
          split
          · rename_i h
            exact ⟨BitVec.le_of_lt h, BitVec.le_refl _⟩
          · rename_i h
            exact ⟨BitVec.le_refl _, BitVec.not_lt.1 h⟩
        refine ⟨BitVec.le_trans hmax.1 hle, fun m' hm' => ?_, ?_⟩
        · rcases List.mem_cons.1 hm' with rfl | hm'
          · exact BitVec.le_trans hmax.2 hle
          · exact hall m' hm'
        · rcases hfrom with heq | ⟨m', hm', heq⟩
          · by_cases h : e < m.offset
            · exact .inr ⟨m, List.mem_cons_self, heq.trans (if_pos h)⟩
            · exact .inl (heq.trans (if_neg h))
          · exact .inr ⟨m', List.mem_cons_of_mem m hm', heq⟩
  obtain ⟨-, hall, hfrom⟩ := hgen mods 0
  exact ⟨hall, hfrom⟩

theorem le_staticTlsSize (h : ∀ m ∈ mods, m.offset.toNat + 15 < 2 ^ 64) (hm : m ∈ mods) :
    m.offset.toNat ≤ (staticTlsSize mods).toNat := by
  obtain ⟨hall, hfrom⟩ := tlsEnd_spec mods
  have hle := BitVec.le_def.1 (hall m hm)
  have hbound : (tlsEnd mods).toNat + 15 < 2 ^ 64 := by
    rcases hfrom with heq | ⟨m', hm', heq⟩
    · rw [heq]
      decide
    · rw [heq]
      exact h m' hm'
  have hsum : (tlsEnd mods + 15).toNat = (tlsEnd mods).toNat + 15 := BitVec.toNat_add_of_lt hbound
  have hmask := toNat_sub_le_and_not (tlsEnd mods + 15) 15
  have hfifteen : (15 : BitVec 64).toNat = 15 := rfl
  unfold staticTlsSize
  dsimp only
  split
  · rename_i hlt
    rw [BitVec.lt_def] at hlt
    omega
  · omega

/-- The templates lie outside the area below a thread pointer. -/
def TemplatesOutside (mods : List TLSModule) (tcb size : ℕ) : Prop :=
  ∀ m ∈ mods, m.vaddr.toNat + m.filesz.toNat ≤ tcb - size ∨ tcb ≤ m.vaddr.toNat

/-- `image_end` in `recomp_init_runtime`. -/
def imageEnd (imageSize : BitVec 64) : BitVec 64 :=
  let e := (imageSize + 0xffff) &&& ~~~0xffff
  if e < 0x10000 then 0x10000 else e

/-- The main thread's thread pointer in `recomp_init_runtime`. -/
def mainTcb (imageSize : BitVec 64) : BitVec 64 := imageEnd imageSize + 0x10000

/-- One copy of `tls_init_area`. -/
def copyTemplate (tcb : ℕ) (mem : ℕ → BitVec 8) (m : TLSModule) : ℕ → BitVec 8 :=
  if m.filesz ≠ 0 then memcpy mem (tcb - m.offset.toNat) m.vaddr.toNat m.filesz.toNat else mem

theorem copyTemplate_apply (tcb : ℕ) (mem : ℕ → BitVec 8) (m : TLSModule) (a : ℕ) :
    copyTemplate tcb mem m a =
      if tcb - m.offset.toNat ≤ a ∧ a < tcb - m.offset.toNat + m.filesz.toNat then
        mem (m.vaddr.toNat + (a - (tcb - m.offset.toNat))) else mem a := by
  unfold copyTemplate
  split
  · rfl
  · rename_i h
    have hz : m.filesz.toNat = 0 := by
      rw [not_not] at h
      rw [h]
      rfl
    rw [if_neg (by omega)]

/-- The copies write the stacked blocks only, each its own template. -/
theorem copyTemplates {tcb size : ℕ} (hstack : Stacked lo mods) (hsize : size ≤ tcb)
    (hoff : ∀ m ∈ mods, m.offset.toNat ≤ size) (hfile : ∀ m ∈ mods, m.filesz ≤ m.memsz)
    (htemp : TemplatesOutside mods tcb size) (mem : ℕ → BitVec 8) :
    (∀ a, a < tcb - size ∨ tcb - lo ≤ a → mods.foldl (copyTemplate tcb) mem a = mem a) ∧
      ∀ m ∈ mods, ∀ k < m.memsz.toNat,
        mods.foldl (copyTemplate tcb) mem (tcb - m.offset.toNat + k) =
          if k < m.filesz.toNat then mem (m.vaddr.toNat + k)
          else mem (tcb - m.offset.toNat + k) := by
  induction mods generalizing lo mem with
  | nil => exact ⟨fun a _ => rfl, fun m hm => nomatch hm⟩
  | cons m mods ih =>
      obtain ⟨hle, -, hrest⟩ := hstack
      have hm := hoff m List.mem_cons_self
      have hf := BitVec.le_def.1 (hfile m List.mem_cons_self)
      have ht := htemp m List.mem_cons_self
      obtain ⟨hout, hblock⟩ := ih hrest (fun m' hm' => hoff m' (List.mem_cons_of_mem m hm'))
        (fun m' hm' => hfile m' (List.mem_cons_of_mem m hm'))
        (fun m' hm' => htemp m' (List.mem_cons_of_mem m hm')) (copyTemplate tcb mem m)
      -- what the first copy leaves: everything outside its own block
      have hframe : ∀ a, a < tcb - m.offset.toNat ∨ tcb - m.offset.toNat + m.filesz.toNat ≤ a →
          copyTemplate tcb mem m a = mem a := by
        intro a ha
        rw [copyTemplate_apply, if_neg (by omega)]
      constructor
      · intro a ha
        show mods.foldl (copyTemplate tcb) (copyTemplate tcb mem m) a = mem a
        rw [hout a (by omega), hframe a (by omega)]
      · intro m' hm' k hk
        show mods.foldl (copyTemplate tcb) (copyTemplate tcb mem m) _ = _
        rcases List.mem_cons.1 hm' with rfl | hm'
        · rw [hout _ (by omega), copyTemplate_apply]
          by_cases hkf : k < m'.filesz.toNat
          · rw [if_pos (by omega), if_pos hkf, Nat.add_sub_cancel_left]
          · rw [if_neg (by omega), if_neg hkf]
        · have hbelow := (hrest.below hm').1
          have hoff' := hoff m' (List.mem_cons_of_mem m hm')
          have ht' := htemp m' (List.mem_cons_of_mem m hm')
          rw [hblock m' hm' k hk]
          by_cases hkf : k < m'.filesz.toNat
          · rw [if_pos hkf, if_pos hkf, hframe _ (by omega)]
          · rw [if_neg hkf, if_neg hkf, hframe _ (by omega)]

/-- **An initialised block** is its template followed by zeros. -/
theorem tlsInitArea_block {tcb size : ℕ} (hstack : Stacked 0 mods) (hsize : size ≤ tcb)
    (hoff : ∀ m ∈ mods, m.offset.toNat ≤ size) (hfile : ∀ m ∈ mods, m.filesz ≤ m.memsz)
    (htemp : TemplatesOutside mods tcb size) (mem : ℕ → BitVec 8) (hm : m ∈ mods) {k : ℕ}
    (hk : k < m.memsz.toNat) :
    tlsInitArea mods mem tcb size (tcb - m.offset.toNat + k) =
      if k < m.filesz.toNat then mem (m.vaddr.toNat + k) else 0 := by
  have hblock := (copyTemplates hstack hsize hoff hfile htemp (zero mem (tcb - size) size)).2 m hm k hk
  have hbelow := (hstack.below hm).1
  have ho := hoff m hm
  have ht := htemp m hm
  show mods.foldl (copyTemplate tcb) _ _ = _
  rw [hblock]
  split
  · show (if _ then (0 : BitVec 8) else mem _) = mem _
    rw [if_neg (by omega)]
  · show (if _ then (0 : BitVec 8) else mem _) = 0
    rw [if_pos (by omega)]

/-! ### the slots -/

/-- Slots that do not overlap. -/
def Apart (offsets : List (BitVec 64)) : Prop :=
  offsets.Pairwise fun a b => a.toNat + 8 ≤ b.toNat ∨ b.toNat + 8 ≤ a.toNat

/-- The slots of the TLS relocations. -/
def tlsSlots (rels : List Relocation) : List (BitVec 64) :=
  (rels.filter fun rel => isTLSReloc rel.type).map Relocation.offset

/-- What one relocation does: nothing to the image, or a word in its own slot; the queue grows. -/
theorem tlsReloc_frame {index : ℕ} {mod : LoadedELF} {st st' : TLSPass} {rel : Relocation}
    (h : tlsReloc index mod st rel = some st') :
    (st'.image = st.image ∨
      isTLSReloc rel.type = true ∧ ∃ v, st'.image = st.image.putWord rel.offset.toNat v) ∧
    st.tpoff <+: st'.tpoff := by
  unfold tlsReloc at h
  split at h
  · cases h
    exact ⟨.inl rfl, List.prefix_refl _⟩
  · rename_i htls
    have ht : isTLSReloc rel.type = true := by simpa using htls
    split at h
    · cases h
      exact ⟨.inl rfl, List.prefix_refl _⟩
    · split at h
      · cases h
        exact ⟨.inl rfl, List.prefix_refl _⟩
      · split at h
        · obtain ⟨img, hput, rfl⟩ := Option.map_eq_some_iff.1 h
          exact ⟨.inr ⟨ht, _, (putUint64_eq_some.1 hput).2.2⟩, List.prefix_refl _⟩
        · split at h
          · obtain ⟨img, hput, rfl⟩ := Option.map_eq_some_iff.1 h
            exact ⟨.inr ⟨ht, _, (putUint64_eq_some.1 hput).2.2⟩, List.prefix_refl _⟩
          · cases h
            exact ⟨.inl rfl, List.prefix_append _ _⟩

theorem tlsReloc_length {index : ℕ} {mod : LoadedELF} {st st' : TLSPass} {rel : Relocation}
    (h : tlsReloc index mod st rel = some st') : st'.image.length = st.image.length := by
  rcases (tlsReloc_frame h).1 with heq | ⟨-, v, heq⟩
  · rw [heq]
  · rw [heq, Bytes.length_putWord]

/-- A slot apart from those of the relocations keeps its word. -/
theorem tlsRelocs_word {index : ℕ} {mod : LoadedELF} {st st' : TLSPass} {rels : List Relocation}
    (h : rels.foldlM (tlsReloc index mod) st = some st') {off : ℕ}
    (hoff : ∀ o ∈ tlsSlots rels, o.toNat + 8 ≤ off ∨ off + 8 ≤ o.toNat) :
    st'.image.word off = st.image.word off := by
  refine foldlM_invariant (P := fun s => s.image.word off = st.image.word off) h rfl ?_
  intro rel hrel s s' hstep hs
  rcases (tlsReloc_frame hstep).1 with heq | ⟨htls, v, heq⟩
  · rw [heq, hs]
  · have hslot : rel.offset ∈ tlsSlots rels :=
      List.mem_map.2 ⟨rel, List.mem_filter.2 ⟨hrel, htls⟩, rfl⟩
    rw [heq, Bytes.word_putWord_of_disjoint _ _ (hoff _ hslot).symm, hs]

/-- What is done for a relocation of the module's own symbol inside the image. -/
theorem tlsReloc_own {index : ℕ} {mod : LoadedELF} {st st' : TLSPass} {rel : Relocation}
    (h : tlsReloc index mod st rel = some st') (hown : ownTLSSymbol mod rel.symIdx = true)
    (hin : ¬ len64 st.image < rel.offset + 8) :
    (rel.type = rX86_64_DTPMOD64 → st'.image.word rel.offset.toNat = tlsId index) ∧
    (rel.type = rX86_64_DTPOFF64 → st'.image.word rel.offset.toNat = tlsValue mod rel) ∧
    (rel.type = rX86_64_TPOFF64 →
      { module := index, file := mod.fileName, offset := rel.offset,
        value := tlsValue mod rel } ∈ st'.tpoff) := by
  unfold tlsReloc at h
  rw [hown, if_neg (by decide : ¬ true = false), if_neg hin] at h
  refine ⟨fun ht => ?_, fun ht => ?_, fun ht => ?_⟩
  · rw [ht, if_neg (by decide), if_pos rfl] at h
    obtain ⟨img, hput, rfl⟩ := Option.map_eq_some_iff.1 h
    obtain ⟨-, hlen, rfl⟩ := putUint64_eq_some.1 hput
    exact Bytes.word_putWord _ _ hlen
  · rw [ht, if_neg (by decide), if_neg (by decide), if_pos rfl] at h
    obtain ⟨img, hput, rfl⟩ := Option.map_eq_some_iff.1 h
    obtain ⟨-, hlen, rfl⟩ := putUint64_eq_some.1 hput
    exact Bytes.word_putWord _ _ hlen
  · rw [ht, if_neg (by decide), if_neg (by decide), if_neg (by decide)] at h
    cases h
    exact List.mem_append_right _ (List.mem_singleton.2 rfl)

theorem Apart.around {pre post : List Relocation} {rel : Relocation}
    (h : Apart (tlsSlots (pre ++ rel :: post))) (htls : isTLSReloc rel.type = true) :
    ∀ o ∈ tlsSlots post, o.toNat + 8 ≤ rel.offset.toNat ∨ rel.offset.toNat + 8 ≤ o.toNat := by
  intro o ho
  have hslots : tlsSlots (pre ++ rel :: post) = tlsSlots pre ++ rel.offset :: tlsSlots post := by
    unfold tlsSlots
    rw [List.filter_append, List.filter_cons, if_pos htls, List.map_append, List.map_cons]
  unfold Apart at h
  rw [hslots, List.pairwise_append, List.pairwise_cons] at h
  exact (h.2.1.1 o ho).symm

/-- **The module's slots.**  In the end a slot inside the image, of the module's own symbol and apart
from the others, holds what its relocation asks for, or is queued. -/
theorem tlsRelocs_own {index : ℕ} {mod : LoadedELF} {st : TLSPass} {rel : Relocation}
    (h : mod.relocations.foldlM (tlsReloc index mod) { image := mod.memoryImage } = some st)
    (hapart : Apart (tlsSlots mod.relocations)) (hrel : rel ∈ mod.relocations)
    (hown : ownTLSSymbol mod rel.symIdx = true)
    (hin : ¬ len64 mod.memoryImage < rel.offset + 8) :
    (rel.type = rX86_64_DTPMOD64 → st.image.word rel.offset.toNat = tlsId index) ∧
    (rel.type = rX86_64_DTPOFF64 → st.image.word rel.offset.toNat = tlsValue mod rel) ∧
    (rel.type = rX86_64_TPOFF64 →
      { module := index, file := mod.fileName, offset := rel.offset,
        value := tlsValue mod rel } ∈ st.tpoff) := by
  obtain ⟨pre, post, hsplit⟩ := List.append_of_mem hrel
  rw [hsplit] at h hapart
  obtain ⟨s₁, s₂, hpre, hstep, hpost⟩ := foldlM_around h
  have hlen : s₁.image.length = mod.memoryImage.length :=
    foldlM_invariant (P := fun s => s.image.length = mod.memoryImage.length) hpre rfl
      fun _ _ s s' hs hP => (tlsReloc_length hs).trans hP
  have hin₁ : ¬ len64 s₁.image < rel.offset + 8 := by
    unfold len64
    rwa [hlen]
  obtain ⟨hmod, hdtp, htp⟩ := tlsReloc_own hstep hown hin₁
  have hkeep : isTLSReloc rel.type = true →
      st.image.word rel.offset.toNat = s₂.image.word rel.offset.toNat :=
    fun htls => tlsRelocs_word hpost (hapart.around htls)
  have hqueue : s₂.tpoff <+: st.tpoff :=
    foldlM_invariant (P := fun s => s₂.tpoff <+: s.tpoff) hpost (List.prefix_refl _)
      fun _ _ s s' hs hP => hP.trans (tlsReloc_frame hs).2
  refine ⟨fun ht => ?_, fun ht => ?_, fun ht => hqueue.subset (htp ht)⟩
  · rw [hkeep (by rw [ht]; decide), hmod ht]
  · rw [hkeep (by rw [ht]; decide), hdtp ht]

/-- One step of `ApplyTLSOffsets`: nothing, or a word in the entry's slot. -/
theorem tlsOffset_frame {st st' : Bytes × List TLSProblem} {p : PendingTPOFF}
    (h : tlsOffset mods st p = some st') :
    st'.1 = st.1 ∨ ∃ v, st'.1 = st.1.putWord p.offset.toNat v := by
  unfold tlsOffset at h
  split at h
  · cases h
  · split at h
    · cases h
      exact .inl rfl
    · split at h
      · cases h
        exact .inl rfl
      · obtain ⟨img, hput, rfl⟩ := Option.map_eq_some_iff.1 h
        exact .inr ⟨_, (putUint64_eq_some.1 hput).2.2⟩

/-- **The queued slots.**  A slot inside the merged image and apart from the other queued ones holds
S + A minus its module's offset. -/
theorem word_tpoff {main main' : LoadedELF} {ps : List TLSProblem} {p : PendingTPOFF}
    (h : applyTLSOffsets main = some (main', ps))
    (hapart : Apart (main.tlsTPOFF.map PendingTPOFF.offset)) (hp : p ∈ main.tlsTPOFF)
    (hm : main.tlsModules[p.module]? = some m) (hlaid : m.offset ≠ 0)
    (hin : ¬ len64 main.memoryImage < p.offset + 8) :
    main'.memoryImage.word p.offset.toNat = p.value - m.offset := by
  obtain ⟨r, hfold, heq⟩ := Option.map_eq_some_iff.1 h
  cases heq
  obtain ⟨pre, post, hsplit⟩ := List.append_of_mem hp
  rw [hsplit] at hfold hapart
  obtain ⟨s₁, s₂, hpre, hstep, hpost⟩ := foldlM_around hfold
  have hlen : s₁.1.length = main.memoryImage.length := by
    refine foldlM_invariant (P := fun s : Bytes × List TLSProblem =>
      s.1.length = main.memoryImage.length) hpre rfl fun _ _ s s' hs hP => ?_
    rcases tlsOffset_frame hs with hs | ⟨v, hs⟩
    · rw [hs, hP]
    · rw [hs, Bytes.length_putWord, hP]
  have hword : s₂.1.word p.offset.toNat = p.value - m.offset := by
    unfold tlsOffset at hstep
    rw [hm] at hstep
    have hin₁ : ¬ len64 s₁.1 < p.offset + 8 := by
      unfold len64
      rwa [hlen]
    dsimp only at hstep
    rw [if_neg hlaid, if_neg hin₁] at hstep
    obtain ⟨img, hput, rfl⟩ := Option.map_eq_some_iff.1 hstep
    obtain ⟨-, hfit, rfl⟩ := putUint64_eq_some.1 hput
    exact Bytes.word_putWord _ _ hfit
  show r.1.word p.offset.toNat = _
  rw [← hword]
  refine foldlM_invariant (P := fun s : Bytes × List TLSProblem =>
    s.1.word p.offset.toNat = s₂.1.word p.offset.toNat) hpost rfl fun q hq s s' hs hP => ?_
  unfold Apart at hapart
  rw [List.map_append, List.map_cons, List.pairwise_append, List.pairwise_cons] at hapart
  have hpq := hapart.2.1.1 q.offset (List.mem_map_of_mem hq)
  rcases tlsOffset_frame hs with hs | ⟨v, hs⟩
  · rw [hs, hP]
  · rw [hs, Bytes.word_putWord_of_disjoint _ _ hpq, hP]

/-! ### both addresses of a variable -/

/-- The block of a module below a thread pointer. -/
def block (tp : ℕ) (m : TLSModule) : Set ℕ :=
  Set.Ico (tp - m.offset.toNat) (tp - m.offset.toNat + m.memsz.toNat)

theorem tlsModuleOffset_tlsId {index : ℕ} (hlen : mods.length ≤ recompTlsMaxModules)
    (hm : mods[index]? = some m) : tlsModuleOffset mods (tlsId index) = m.offset := by
  have hindex : index < mods.length := (List.getElem?_eq_some_iff.1 hm).1
  have hmax : recompTlsMaxModules = 64 := rfl
  have hid : (tlsId index).toNat = index + 1 := by
    unfold tlsId
    rw [BitVec.toNat_add, BitVec.toNat_ofNat]
    have hone : (1 : BitVec 64).toNat = 1 := rfl
    omega
  have hne : tlsId index ≠ 0 := by
    intro hz
    rw [hz] at hid
    have hzero : (0 : BitVec 64).toNat = 0 := rfl
    omega
  unfold tlsModuleOffset
  rw [if_neg (not_or.2 ⟨hne, by omega⟩), hid, Nat.add_sub_cancel, hm]
  rfl

/-- `__tls_get_addr` computes the address below the thread pointer. -/
theorem tlsGetAddr_tlsId {index : ℕ} (hlen : mods.length ≤ recompTlsMaxModules)
    (hm : mods[index]? = some m) (fsBase value : BitVec 64) :
    tlsGetAddr mods fsBase (tlsId index) value = fsBase + (value - m.offset) := by
  unfold tlsGetAddr
  rw [tlsModuleOffset_tlsId hlen hm]
  dsimp only
  split
  · ring
  · rename_i hz
    rw [not_not] at hz
    rw [hz]
    ring

/-- The parts of an executable's process that linking a module leaves to the end: the module's record
and its queued slots. -/
structure Linked (main' final : LoadedELF) (mods : List TLSModule) : Prop where
  modules : main'.tlsModules <+: mods
  queue : main'.tlsTPOFF <+: final.tlsTPOFF
  laid : final.tlsModules = layoutStaticTLS mods
  apart : Apart (final.tlsTPOFF.map PendingTPOFF.offset)

/-- A relocation of a type the module resolves: own symbol, inside the image. -/
structure Resolves (mod : LoadedELF) (type : BitVec 32) (rel : Relocation) : Prop where
  mem : rel ∈ mod.relocations
  type_eq : rel.type = type
  own : ownTLSSymbol mod rel.symIdx = true
  inside : ¬ len64 mod.memoryImage < rel.offset + 8

/-- **One variable, one address.**  The address in a TPOFF slot is the one `__tls_get_addr` computes
from a DTPMOD/DTPOFF pair of the same symbol and addend. -/
theorem tls_addresses_agree {main mod main' mod' final final' : LoadedELF} {ps ps' : List TLSProblem}
    {index : Relocation} {dtp tp : Relocation}
    (hno : NoOverflow 0 mods) (hlen : (layoutStaticTLS mods).length ≤ recompTlsMaxModules)
    (hadd : addTLSModule main mod = some (main', mod', ps)) (hmem : mod.tlsMemsz ≠ 0)
    (hlink : Linked main' final mods) (happly : applyTLSOffsets final = some (final', ps'))
    (hapart : Apart (tlsSlots mod.relocations)) (hindex : Resolves mod rX86_64_DTPMOD64 index)
    (hdtp : Resolves mod rX86_64_DTPOFF64 dtp) (htp : Resolves mod rX86_64_TPOFF64 tp)
    (hsym : tp.symIdx = dtp.symIdx) (haddend : tp.addend = dtp.addend)
    (hinside : ¬ len64 final.memoryImage < tp.offset + 8) (fsBase : BitVec 64) :
    fsBase + final'.memoryImage.word tp.offset.toNat =
      tlsGetAddr (layoutStaticTLS mods) fsBase (mod'.memoryImage.word index.offset.toNat)
        (mod'.memoryImage.word dtp.offset.toNat) := by
  unfold addTLSModule at hadd
  rw [if_neg hmem] at hadd
  obtain ⟨st, hfold, heq⟩ := Option.map_eq_some_iff.1 hadd
  cases heq
  have hword := (tlsRelocs_own hfold hapart hindex.mem hindex.own hindex.inside).1 hindex.type_eq
  have hvalue := (tlsRelocs_own hfold hapart hdtp.mem hdtp.own hdtp.inside).2.1 hdtp.type_eq
  have hqueued := (tlsRelocs_own hfold hapart htp.mem htp.own htp.inside).2.2 htp.type_eq
  have hsame : tlsValue mod tp = tlsValue mod dtp := by
    rw [tlsValue, tlsValue, hsym, haddend]
  -- the module's record in the laid out table
  have hrec : mods[main.tlsModules.length]? = some (tlsModuleOf main.tlsModules.length mod) := by
    obtain ⟨rest, hrest⟩ := hlink.modules
    rw [← hrest]
    simp
  obtain ⟨off, hoff⟩ := (layoutFrom_getElem? 0 mods main.tlsModules.length).1 _ hrec
  have hmodules : final.tlsModules[main.tlsModules.length]? =
      some { tlsModuleOf main.tlsModules.length mod with offset := off } := by
    rw [hlink.laid]
    exact hoff
  have hpos : off ≠ 0 := by
    have hbelow : 0 + mod.tlsMemsz.toNat ≤ off.toNat :=
      ((stacked_layoutStaticTLS hno).1.below (List.mem_of_getElem? hoff)).1
    have hsize : mod.tlsMemsz.toNat ≠ 0 := fun hz => hmem (BitVec.eq_of_toNat_eq hz)
    intro hz
    rw [hz] at hbelow
    have hzero : (0 : BitVec 64).toNat = 0 := rfl
    omega
  have hslot := word_tpoff happly hlink.apart
    (hlink.queue.subset (List.mem_append_right _ hqueued)) hmodules hpos hinside
  rw [hslot]
  show fsBase + (tlsValue mod tp - off) = tlsGetAddr _ fsBase (st.image.word _) (st.image.word _)
  rw [hword, hvalue, tlsGetAddr_tlsId hlen hoff, hsame]

end PS4Recomp.Elf
