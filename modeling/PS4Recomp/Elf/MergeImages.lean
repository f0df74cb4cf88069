import PS4Recomp.Elf.AddrRanges

/-!
# Merging images

`MergeImages` of `modules.go`, called for one image after the other.

* `overlaps`, `growImage`, `bindCanary`, `addSymbol` — the pieces;
* `mergeImages` — one call, `none` where it returns an error or panics;
* `Module` — an image as the loader leaves it, `Mergeable` — modules apart from each other;
* `Preserved` — bytes, guard slots, relocations with their symbols, and lookups of a merged image;
* `Merged` — what holds after any number of calls, `mergeImages_step` — and one more;
* **`mergeImages_preserves`** — the images are preserved exactly when `MergeHolds`;
* `mergeImages_forgets` — a second module with an LSDA range and a bound symbol.

The ranges are sorted by insertion; where two function bounds start at one address, Go may put them
in another order.
-/

namespace PS4Recomp.Elf

open Library

/-- `Overlaps`. -/
def overlaps (a b : LoadedELF) : Bool :=
  decide (a.minVAddr < b.maxVAddr) && decide (b.minVAddr < a.maxVAddr)

/-- `canaryValue`. -/
def canaryValue : BitVec 64 := 0x595e9fbd94fda766

/-- The bytes of `dst`, with room for `src`. -/
def growImage (dst src : LoadedELF) : Option Bytes :=
  if len64 dst.memoryImage < src.maxVAddr then
    (makeBytes (alignUp src.maxVAddr 4096)).map fun n => n.put 0 dst.memoryImage
  else some dst.memoryImage

/-- The canary, and the slots that point to it. -/
def bindCanary (canon : String → String) (canaryTarget : BitVec 64) (relocations : List Relocation)
    (img : Bytes) : Option Bytes :=
  if canaryTarget = 0 then some img
  else do
    let img ← if canaryTarget + 8 ≤ len64 img then putUint64 img canaryTarget canaryValue else some img
    relocations.foldlM (biasSlot fun r => if isGuard canon r then some canaryTarget else none) img

/-- `addSymbol`. -/
def addSymbol (loaded : LoadedELF) (sym : Symbol) : LoadedELF :=
  { loaded with
    symbols := loaded.symbols ++ [sym]
    symbolByName :=
      if sym.name ≠ "" ∧ (loaded.symbolByName sym.name).all (fun existing => existing.address == 0) then
        Function.update loaded.symbolByName sym.name (some sym)
      else loaded.symbolByName
    symbolByAddr :=
      if sym.address ≠ 0 ∧ (loaded.symbolByAddr sym.address).all (fun existing => existing.name == "") then
        Function.update loaded.symbolByAddr sym.address (some sym)
      else loaded.symbolByAddr }

/-- A segment of a merged image of the given length. -/
def Segment.resliced (len : BitVec 64) (s : Segment) : Segment :=
  match s.slice len with
  | some bounds => { s with data := some bounds }
  | none => s

/-- The dynamic symbols of a merged image. -/
def mergeDynSymbols (dst src : List Symbol) : List Symbol :=
  if 1 < src.length then (if dst.length = 0 then [{}] else dst) ++ src.tail else dst

/-- `MergeImages`. -/
def mergeImages (canon : String → String) (dst src : LoadedELF) : Option LoadedELF :=
  if overlaps dst src then none
  else do
    let grown ← growImage dst src
    let copied ←
      if src.minVAddr < src.maxVAddr ∧ src.maxVAddr ≤ len64 src.memoryImage then
        copyRange grown src.minVAddr src.maxVAddr (mappedBytes src)
      else some grown
    let relocations := dst.relocations ++ src.relocations
    let canaryTarget := if dst.canaryAddr = 0 then src.canaryAddr else dst.canaryAddr
    let img ← bindCanary canon canaryTarget relocations copied
    let merged :=
      { dst with
        minVAddr := if src.minVAddr < dst.minVAddr then src.minVAddr else dst.minVAddr
        maxVAddr := if dst.maxVAddr < src.maxVAddr then src.maxVAddr else dst.maxVAddr
        execRanges := dst.execRanges ++ src.execRanges
        funcBounds := sortByStart (dst.funcBounds ++ src.funcBounds)
        unwindRanges := mergeRanges (dst.unwindRanges ++ src.unwindRanges)
        dataRanges := mergeRanges (dst.dataRanges ++ src.dataRanges)
        relocations := relocations
        canaryAddr := canaryTarget
        initArray := dst.initArray ++ src.initArray
        dynSymbols := mergeDynSymbols dst.dynSymbols src.dynSymbols
        segments := (dst.segments ++ src.segments).map (Segment.resliced (len64 img))
        memoryImage := img }
    some (src.symbols.foldl addSymbol merged)

/-! ### images that can be merged -/

/-- An address of the mapped range. -/
def InImage (m : LoadedELF) (a : ℕ) : Prop := m.minVAddr.toNat ≤ a ∧ a < m.maxVAddr.toNat

/-- The ranges lie in the mapped range. -/
def Inside (m : LoadedELF) (rs : List AddrRange) : Prop :=
  ∀ r ∈ rs, m.minVAddr ≤ r.start ∧ r.stop ≤ m.maxVAddr

/-- An image as the loader leaves it: its bytes reach as far as its range, its canary is in it and its
guard slots point there, and its lists of ranges are in order. -/
structure Module (canon : String → String) (m : LoadedELF) : Prop where
  mapped : m.minVAddr < m.maxVAddr
  loaded : m.maxVAddr.toNat ≤ m.memoryImage.length
  size : m.memoryImage.length < 2 ^ 64
  room : m.maxVAddr.toNat + 4095 ≤ maxAlloc
  slots : ∀ r ∈ m.relocations, isGuard canon r → r.offset.toNat + 8 < 2 ^ 64
  canary : m.canaryAddr ≠ 0 → m.minVAddr.toNat ≤ m.canaryAddr.toNat ∧
    m.canaryAddr.toNat + 8 ≤ m.maxVAddr.toNat ∧ m.memoryImage.word m.canaryAddr.toNat = canaryValue
  guards : m.canaryAddr ≠ 0 → ∀ r ∈ m.relocations, isGuard canon r →
    r.offset.toNat + 8 ≤ m.memoryImage.length → m.memoryImage.word r.offset.toNat = m.canaryAddr
  funcBounds : Separate m.funcBounds ∧ Inside m m.funcBounds
  lsdaBounds : Separate m.lsdaBounds ∧ Inside m m.lsdaBounds
  unwindRanges : Separate m.unwindRanges
  dataRanges : Separate m.dataRanges

/-- Two images whose mapped ranges do not overlap. -/
def NoOverlap (a b : LoadedELF) : Prop := a.maxVAddr ≤ b.minVAddr ∨ b.maxVAddr ≤ a.minVAddr

/-- Modules apart from each other, whose guard slots do not overlap in part. -/
structure Mergeable (canon : String → String) (imgs : List LoadedELF) : Prop where
  modules : ∀ m ∈ imgs, Module canon m
  disjoint : imgs.Pairwise NoOverlap
  guards : ∀ r ∈ imgs.flatMap LoadedELF.relocations, ∀ r' ∈ imgs.flatMap LoadedELF.relocations,
    isGuard canon r → isGuard canon r' → r.offset = r'.offset ∨
      r.offset.toNat + 8 ≤ r'.offset.toNat ∨ r'.offset.toNat + 8 ≤ r.offset.toNat

/-- An address that no guard slot covers. -/
def Unguarded (canon : String → String) (rs : List Relocation) (a : ℕ) : Prop :=
  ∀ r ∈ rs, isGuard canon r → a < r.offset.toNat ∨ r.offset.toNat + 8 ≤ a

/-- The symbol that the index of a relocation names in a table. -/
def Names (table : List Symbol) (r : Relocation) (sym : Symbol) : Prop :=
  r.symIdx ≠ 0 ∧ table[r.symIdx.toNat]? = some sym

/-- A merged image with all that its inputs have. -/
structure Preserved (canon : String → String) (imgs : List LoadedELF) (merged : LoadedELF) : Prop where
  loaded : ∀ m ∈ imgs, m.maxVAddr.toNat ≤ merged.memoryImage.length
  bytes : ∀ m ∈ imgs, ∀ a, InImage m a → Unguarded canon merged.relocations a →
    merged.memoryImage.get a = m.memoryImage.get a
  canary : (∃ m ∈ imgs, m.canaryAddr ≠ 0) →
    ∃ m ∈ imgs, m.canaryAddr ≠ 0 ∧ merged.canaryAddr = m.canaryAddr
  guards : merged.canaryAddr ≠ 0 → ∀ r ∈ merged.relocations, isGuard canon r →
    r.offset.toNat + 8 ≤ merged.memoryImage.length →
    merged.memoryImage.word r.offset.toNat = merged.canaryAddr
  relocations : merged.relocations = imgs.flatMap LoadedELF.relocations
  symbols : ∀ m ∈ imgs, ∀ r ∈ m.relocations, ∀ sym, Names m.dynSymbols r sym →
    Names merged.dynSymbols r sym
  funcBounds : ∀ m ∈ imgs, ∀ r ∈ m.funcBounds, ∀ addr, r.Has addr → funcExtent merged addr = some r
  unwindRanges : ∀ m ∈ imgs, ∀ r ∈ m.unwindRanges, ∀ addr, r.Has addr →
    rangeContains merged.unwindRanges addr = true
  lsdaBounds : ∀ m ∈ imgs, ∀ r ∈ m.lsdaBounds, functionHasLSDA merged r.start r.stop = true
  dataRanges : ∀ m ∈ imgs, ∀ r ∈ m.dataRanges, ∀ addr, r.Has addr →
    rangeContains merged.dataRanges addr = true

/-- An image above all of the others or below them. -/
def Beside (done : List LoadedELF) (m : LoadedELF) : Prop :=
  (∀ e ∈ done, e.maxVAddr ≤ m.minVAddr) ∨ ∀ e ∈ done, m.maxVAddr ≤ e.minVAddr

/-- The dynamic symbols of images behind each other, without the first of each. -/
def symbolTable (imgs : List LoadedELF) : List Symbol := imgs.flatMap fun m => m.dynSymbols.tail

/-- What it takes for a later image to be preserved: it lies beside the ones before it, has no LSDA
range, and finds its own symbols behind theirs at its own indices. -/
structure Appended (done : List LoadedELF) (m : LoadedELF) : Prop where
  beside : Beside done m
  lsdaBounds : m.lsdaBounds = []
  symbols : ∀ r ∈ m.relocations, ∀ sym, Names m.dynSymbols r sym →
    (symbolTable (done ++ [m]))[r.symIdx.toNat - 1]? = some sym

/-- What it takes for images to be preserved. -/
def MergeHolds (first : LoadedELF) (rest : List LoadedELF) : Prop :=
  ∀ pre m post, rest = pre ++ m :: post → Appended (first :: pre) m

/-! ### the pieces of one call -/

variable {canon : String → String}

theorem inImage_unique {imgs : List LoadedELF} (h : imgs.Pairwise NoOverlap) {m m' : LoadedELF}
    (hm : m ∈ imgs) (hm' : m' ∈ imgs) {a : ℕ} (ha : InImage m a) (ha' : InImage m' a) : m = m' := by
  induction imgs with
  | nil => cases hm
  | cons e imgs ih =>
      obtain ⟨hhead, htail⟩ := List.pairwise_cons.1 h
      have hfalse : ∀ e', InImage e a → InImage e' a → NoOverlap e e' → False := by
        intro e' he he' hno
        rw [NoOverlap, BitVec.le_def, BitVec.le_def] at hno
        have h₁ := he.1
        have h₂ := he.2
        have h₃ := he'.1
        have h₄ := he'.2
        omega
      rcases List.mem_cons.1 hm with heq | hm
      · rcases List.mem_cons.1 hm' with heq' | hm'
        · rw [heq, heq']
        · rw [heq] at ha
          exact absurd (hhead m' hm') fun hno => hfalse m' ha ha' hno
      · rcases List.mem_cons.1 hm' with heq' | hm'
        · rw [heq'] at ha'
          exact absurd (hhead m hm) fun hno => hfalse m ha' ha hno
        · exact ih htail hm hm'

theorem growImage_spec {dst src : LoadedELF} (hsize : dst.memoryImage.length < 2 ^ 64)
    (hsrc : Module canon src) :
    ∃ img, growImage dst src = some img ∧ dst.memoryImage.length ≤ img.length ∧
      src.maxVAddr.toNat ≤ img.length ∧ img.length < 2 ^ 64 ∧
      ∀ a, img.get a = dst.memoryImage.get a := by
  have hlen := len64_toNat hsize
  rw [growImage]
  by_cases hlt : len64 dst.memoryImage < src.maxVAddr
  · have hroom := hsrc.room
    have halloc : maxAlloc < 2 ^ 64 := by decide
    obtain ⟨hge, hle⟩ := toNat_alignUp (v := src.maxVAddr) (by omega)
    rw [if_pos hlt, makeBytes, if_pos (by omega), Option.map_some]
    rw [BitVec.lt_def, hlen] at hlt
    refine ⟨_, rfl, ?_, ?_, ?_, fun a => ?_⟩
    · rw [Bytes.length_put, List.length_replicate]
      omega
    · rw [Bytes.length_put, List.length_replicate]
      omega
    · rw [Bytes.length_put, List.length_replicate]
      exact (alignUp src.maxVAddr 4096).isLt
    · rw [Bytes.get_put, List.length_replicate, Nat.zero_add, Nat.sub_zero]
      by_cases ha : a < dst.memoryImage.length
      · rw [if_pos ⟨Nat.zero_le a, ha, by omega⟩]
      · rw [if_neg fun hc => ha hc.2.1, Bytes.get_of_le (Nat.le_of_not_lt ha), Bytes.get,
          List.getD_eq_getElem?_getD, List.getElem?_replicate]
        split <;> rfl
  · rw [if_neg hlt]
    rw [BitVec.lt_def, hlen] at hlt
    exact ⟨_, rfl, le_rfl, by omega, hsize, fun _ => rfl⟩

/-- The mapped range of `src` copied into an image that reaches as far. -/
theorem copyRange_spec {src : LoadedELF} (hsrc : Module canon src) {img : Bytes}
    (hlen : src.maxVAddr.toNat ≤ img.length) :
    ∃ out, copyRange img src.minVAddr src.maxVAddr (mappedBytes src) = some out ∧
      out.length = img.length ∧ (∀ a, InImage src a → out.get a = src.memoryImage.get a) ∧
      ∀ a, ¬ InImage src a → out.get a = img.get a := by
  have hmapped := hsrc.mapped
  have hloaded := hsrc.loaded
  have hwidth : (mappedBytes src).length = src.maxVAddr.toNat - src.minVAddr.toNat := by
    rw [mappedBytes, List.length_drop, List.length_take]
    omega
  rw [copyRange, if_pos ⟨BitVec.le_of_lt hmapped, hlen⟩, List.take_of_length_le hwidth.le]
  rw [BitVec.lt_def] at hmapped
  refine ⟨_, rfl, Bytes.length_put .., fun a ha => ?_, fun a ha => ?_⟩
  · obtain ⟨hlo, hhi⟩ := ha
    rw [Bytes.get_put, if_pos (by omega), mappedBytes, Bytes.get_drop_take _ (by omega)]
    congr 1
    omega
  · rw [InImage] at ha
    rw [Bytes.get_put, if_neg (by omega)]

/-- The canary and the guard slots change what they cover only, and the slots point to the canary. -/
theorem bindCanary_spec {c : BitVec 64} {rs : List Relocation} {img : Bytes}
    (hsize : img.length < 2 ^ 64) (hc : c ≠ 0 → c.toNat + 8 ≤ img.length)
    (hslots : ∀ r ∈ rs, isGuard canon r → r.offset.toNat + 8 < 2 ^ 64) :
    ∃ out, bindCanary canon c rs img = some out ∧ out.length = img.length ∧
      (∀ a, Unguarded canon rs a →
        out.get a = (if c = 0 then img else img.putWord c.toNat canaryValue).get a) ∧
      (c ≠ 0 → (∀ r ∈ rs, ∀ r' ∈ rs, isGuard canon r → isGuard canon r' → r.offset = r'.offset ∨
          r.offset.toNat + 8 ≤ r'.offset.toNat ∨ r'.offset.toNat + 8 ≤ r.offset.toNat) →
        ∀ r ∈ rs, isGuard canon r → r.offset.toNat + 8 ≤ img.length → out.word r.offset.toNat = c) := by
  rw [bindCanary]
  by_cases hzero : c = 0
  · rw [if_pos hzero, if_pos hzero]
    exact ⟨img, rfl, rfl, fun _ _ => rfl, fun hne => absurd hzero hne⟩
  rw [if_neg hzero, if_neg hzero]
  have hin := hc hzero
  have hwrap : c.toNat + (8 : BitVec 64).toNat < 2 ^ 64 := lt_of_le_of_lt hin hsize
  have hsum : (c + 8).toNat = c.toNat + 8 := BitVec.toNat_add_of_lt hwrap
  rw [if_pos (by rw [BitVec.le_def, hsum, len64_toNat hsize]; exact hin),
    putUint64_eq_some.2 ⟨by omega, hin, rfl⟩, Option.bind_eq_bind, Option.bind_some]
  let value := fun r : Relocation => if isGuard canon r then some c else none
  have hguard : ∀ r v, value r = some v → isGuard canon r = true ∧ v = c := by
    intro r v hv
    by_cases hg : isGuard canon r = true
    · rw [show value r = some c from if_pos hg] at hv
      exact ⟨hg, (Option.some.inj hv).symm⟩
    · rw [show value r = none from if_neg hg] at hv
      cases hv
  have hfold := foldlM_biasSlot value rs (img.putWord c.toNat canaryValue)
    (by rw [Bytes.length_putWord]; exact hsize) (fun r hr v hv => hslots r hr (hguard r v hv).1)
  rw [Bytes.length_putWord] at hfold
  generalize hws : (rs.filterMap fun r => (if r.offset.toNat + 8 ≤ img.length then value r else none).map
    fun v => (r.offset.toNat, v)) = ws at hfold
  have hmem : ∀ w ∈ ws, ∃ r ∈ rs, isGuard canon r = true ∧ w = (r.offset.toNat, c) := by
    intro w hw
    rw [← hws] at hw
    obtain ⟨r, hr, hsome⟩ := List.mem_filterMap.1 hw
    obtain ⟨v, hv, heq⟩ := Option.map_eq_some_iff.1 hsome
    split at hv
    · obtain ⟨hg, hval⟩ := hguard r v hv
      rw [hval] at heq
      exact ⟨r, hr, hg, heq.symm⟩
    · cases hv
  refine ⟨_, hfold, by rw [Bytes.length_putWords, Bytes.length_putWord], fun a ha => ?_, ?_⟩
  · refine Bytes.get_putWords _ fun w hw => ?_
    obtain ⟨r, hr, hg, heq⟩ := hmem w hw
    rw [heq]
    exact ha r hr hg
  · intro _ hapart r hr hg hend
    have hw : (r.offset.toNat, c) ∈ ws := by
      rw [← hws]
      refine List.mem_filterMap.2 ⟨r, hr, ?_⟩
      rw [if_pos hend, show value r = some c from if_pos hg]
      rfl
    refine Bytes.word_putWords_all (w := (r.offset.toNat, c)) _ (fun w hw => ?_)
      (fun w hw w' hw' => ?_) hw (by rw [Bytes.length_putWord]; exact hend)
    · obtain ⟨r', -, -, heq⟩ := hmem w hw
      rw [heq]
    · obtain ⟨r₁, hr₁, hg₁, heq₁⟩ := hmem w hw
      obtain ⟨r₂, hr₂, hg₂, heq₂⟩ := hmem w' hw'
      rw [heq₁, heq₂]
      rcases hapart r₁ hr₁ r₂ hr₂ hg₁ hg₂ with hsame | hdisj
      · left
        show r₁.offset.toNat = r₂.offset.toNat
        rw [hsame]
      · exact .inr hdisj

theorem foldl_addSymbol (syms : List Symbol) (l : LoadedELF) : ∃ symbols byName byAddr,
    syms.foldl addSymbol l =
      { l with symbols := symbols, symbolByName := byName, symbolByAddr := byAddr } := by
  induction syms generalizing l with
  | nil => exact ⟨l.symbols, l.symbolByName, l.symbolByAddr, rfl⟩
  | cons sym syms ih =>
      obtain ⟨symbols, byName, byAddr, heq⟩ := ih (addSymbol l sym)
      exact ⟨symbols, byName, byAddr, heq⟩

theorem tail_mergeDynSymbols (dst src : List Symbol) :
    (mergeDynSymbols dst src).tail = dst.tail ++ src.tail := by
  rw [mergeDynSymbols]
  split
  · cases dst with
    | nil => rfl
    | cons s dst => rfl
  · rename_i hshort
    have hnil : src.tail = [] := by
      rw [← List.length_eq_zero_iff, List.length_tail]
      omega
    rw [hnil, List.append_nil]

/-- Separate lists without common addresses, sorted together. -/
theorem separate_sortByStart {xs ys : List AddrRange} (hx : Separate xs) (hy : Separate ys)
    (hcross : ∀ a ∈ xs, ∀ b ∈ ys, a.stop ≤ b.start ∨ b.stop ≤ a.start) :
    Separate (sortByStart (xs ++ ys)) := by
  have hperm : (sortByStart (xs ++ ys)).Perm (xs ++ ys) := List.perm_insertionSort _ _
  have hne : ∀ r ∈ sortByStart (xs ++ ys), r.start < r.stop := by
    intro r hr
    rcases List.mem_append.1 (hperm.mem_iff.1 hr) with hr | hr
    · exact hx.nonempty r hr
    · exact hy.nonempty r hr
  have hdisj : (xs ++ ys).Pairwise fun a b => a.stop ≤ b.start ∨ b.stop ≤ a.start :=
    List.pairwise_append.2 ⟨hx.apart.imp fun h => .inl h, hy.apart.imp fun h => .inl h, hcross⟩
  have hsorted : (sortByStart (xs ++ ys)).Pairwise fun a b => a.start.toNat ≤ b.start.toNat :=
    List.pairwise_insertionSort (fun a b : AddrRange => a.start ≤ b.start) (xs ++ ys)
  have hboth := (hperm.symm.pairwise hdisj fun {a b} h => h.symm).and hsorted
  refine ⟨hboth.imp_of_mem fun {a b} _ hb h => ?_, hne⟩
  obtain ⟨hor, hle⟩ := h
  rcases hor with hab | hba
  · exact hab
  · have hlt := hne b hb
    rw [BitVec.lt_def] at hlt
    rw [BitVec.le_def] at hba ⊢
    omega

/-! ### any number of calls -/

/-- What holds of the merged image after the images `done`, the first of them `first`. -/
structure Merged (canon : String → String) (first : LoadedELF) (done : List LoadedELF)
    (merged : LoadedELF) : Prop where
  lo : ∃ m ∈ done, merged.minVAddr = m.minVAddr
  lo_le : ∀ m ∈ done, merged.minVAddr ≤ m.minVAddr
  hi : ∃ m ∈ done, merged.maxVAddr = m.maxVAddr
  le_hi : ∀ m ∈ done, m.maxVAddr ≤ merged.maxVAddr
  loaded : merged.maxVAddr.toNat ≤ merged.memoryImage.length
  size : merged.memoryImage.length < 2 ^ 64
  canary : merged.canaryAddr ≠ 0 → ∃ m ∈ done, merged.canaryAddr = m.canaryAddr
  canary_ne : ∀ m ∈ done, m.canaryAddr ≠ 0 → merged.canaryAddr ≠ 0
  bytes : ∀ m ∈ done, ∀ a, InImage m a → Unguarded canon merged.relocations a →
    merged.memoryImage.get a = m.memoryImage.get a
  guards : merged.canaryAddr ≠ 0 → ∀ r ∈ merged.relocations, isGuard canon r →
    r.offset.toNat + 8 ≤ merged.memoryImage.length →
    merged.memoryImage.word r.offset.toNat = merged.canaryAddr
  relocations : merged.relocations = done.flatMap LoadedELF.relocations
  symbols : merged.dynSymbols.tail = symbolTable done
  funcBounds : Separate merged.funcBounds ∧
    ∀ r, r ∈ merged.funcBounds ↔ r ∈ done.flatMap LoadedELF.funcBounds
  unwindRanges : Separate merged.unwindRanges ∧
    ∀ addr, Covers merged.unwindRanges addr ↔ Covers (done.flatMap LoadedELF.unwindRanges) addr
  dataRanges : Separate merged.dataRanges ∧
    ∀ addr, Covers merged.dataRanges addr ↔ Covers (done.flatMap LoadedELF.dataRanges) addr
  lsdaBounds : merged.lsdaBounds = first.lsdaBounds

theorem merged_first {first : LoadedELF} (h : Module canon first) : Merged canon first [first] first := by
  have hmem : ∀ m ∈ [first], m = first := fun m hm => List.mem_singleton.1 hm
  have hself : first ∈ [first] := List.mem_singleton.2 rfl
  constructor
  case lo => exact ⟨first, hself, rfl⟩
  case lo_le => exact fun m hm => by rw [hmem m hm]; exact BitVec.le_refl _
  case hi => exact ⟨first, hself, rfl⟩
  case le_hi => exact fun m hm => by rw [hmem m hm]; exact BitVec.le_refl _
  case loaded => exact h.loaded
  case size => exact h.size
  case canary => exact fun _ => ⟨first, hself, rfl⟩
  case canary_ne => exact fun m hm hne => by rwa [← hmem m hm]
  case bytes => exact fun m hm a _ _ => by rw [hmem m hm]
  case guards => exact h.guards
  case relocations => exact (List.flatMap_singleton _ _).symm
  case symbols => exact (List.flatMap_singleton _ _).symm
  case funcBounds => exact ⟨h.funcBounds.1, fun r => by rw [List.flatMap_singleton]⟩
  case unwindRanges => exact ⟨h.unwindRanges, fun addr => by rw [List.flatMap_singleton]⟩
  case dataRanges => exact ⟨h.dataRanges, fun addr => by rw [List.flatMap_singleton]⟩
  case lsdaBounds => rfl

/-- The merged image overlaps the next one exactly when that one is not beside the ones before. -/
theorem overlaps_iff {first src merged : LoadedELF} {done : List LoadedELF}
    (h : Merged canon first done merged) : overlaps merged src = false ↔ Beside done src := by
  obtain ⟨lo, hlo, hlo_eq⟩ := h.lo
  obtain ⟨hi, hhi, hhi_eq⟩ := h.hi
  rw [overlaps, Bool.and_eq_false_iff, decide_eq_false_iff_not, decide_eq_false_iff_not,
    BitVec.not_lt, BitVec.not_lt, Beside, or_comm]
  refine or_congr ?_ ?_
  · constructor
    · exact fun hle e he => BitVec.le_trans (h.le_hi e he) hle
    · intro hall
      rw [hhi_eq]
      exact hall hi hhi
  · constructor
    · exact fun hle e he => BitVec.le_trans hle (h.lo_le e he)
    · intro hall
      rw [hlo_eq]
      exact hall lo hlo

theorem mergeImages_eq {dst src : LoadedELF} {grown copied img : Bytes} (ho : overlaps dst src = false)
    (hsrc : Module canon src) (hgrow : growImage dst src = some grown)
    (hcopy : copyRange grown src.minVAddr src.maxVAddr (mappedBytes src) = some copied)
    (hbind : bindCanary canon (if dst.canaryAddr = 0 then src.canaryAddr else dst.canaryAddr)
      (dst.relocations ++ src.relocations) copied = some img) :
    ∃ symbols byName byAddr, mergeImages canon dst src = some
      { dst with
        minVAddr := if src.minVAddr < dst.minVAddr then src.minVAddr else dst.minVAddr
        maxVAddr := if dst.maxVAddr < src.maxVAddr then src.maxVAddr else dst.maxVAddr
        execRanges := dst.execRanges ++ src.execRanges
        funcBounds := sortByStart (dst.funcBounds ++ src.funcBounds)
        unwindRanges := mergeRanges (dst.unwindRanges ++ src.unwindRanges)
        dataRanges := mergeRanges (dst.dataRanges ++ src.dataRanges)
        relocations := dst.relocations ++ src.relocations
        canaryAddr := if dst.canaryAddr = 0 then src.canaryAddr else dst.canaryAddr
        initArray := dst.initArray ++ src.initArray
        dynSymbols := mergeDynSymbols dst.dynSymbols src.dynSymbols
        segments := (dst.segments ++ src.segments).map (Segment.resliced (len64 img))
        memoryImage := img
        symbols := symbols
        symbolByName := byName
        symbolByAddr := byAddr } := by
  have hcond : src.minVAddr < src.maxVAddr ∧ src.maxVAddr ≤ len64 src.memoryImage := by
    refine ⟨hsrc.mapped, ?_⟩
    rw [BitVec.le_def, len64_toNat hsrc.size]
    exact hsrc.loaded
  rw [mergeImages, if_neg (by rw [ho]; exact Bool.false_ne_true), hgrow, Option.bind_eq_bind,
    Option.bind_some, if_pos hcond, hcopy, Option.bind_some]
  dsimp only
  rw [hbind, Option.bind_some]
  obtain ⟨symbols, byName, byAddr, heq⟩ := foldl_addSymbol src.symbols _
  exact ⟨symbols, byName, byAddr, congrArg some heq⟩

/-- A shared canary is the one of some image, in the range of that image. -/
theorem canaryTarget_spec {first src merged : LoadedELF} {done : List LoadedELF}
    (h : Merged canon first done merged) {c : BitVec 64}
    (hc : c = if merged.canaryAddr = 0 then src.canaryAddr else merged.canaryAddr) (hne : c ≠ 0) :
    ∃ m ∈ done ++ [src], c = m.canaryAddr ∧ m.canaryAddr ≠ 0 := by
  by_cases hzero : merged.canaryAddr = 0
  · rw [if_pos hzero] at hc
    exact ⟨src, List.mem_append_right _ (List.mem_singleton.2 rfl), hc, hc ▸ hne⟩
  · rw [if_neg hzero] at hc
    obtain ⟨m, hm, heq⟩ := h.canary hzero
    exact ⟨m, List.mem_append_left _ hm, hc.trans heq, heq ▸ hzero⟩

theorem covers_mergeRanges {done : List LoadedELF} {src : LoadedELF} {rs : List AddrRange}
    {f : LoadedELF → List AddrRange} (h : ∀ addr, Covers rs addr ↔ Covers (done.flatMap f) addr)
    (addr : BitVec 64) :
    Covers (mergeRanges (rs ++ f src)) addr ↔ Covers ((done ++ [src]).flatMap f) addr := by
  rw [(mergeRanges_spec _).2, covers_append, h, List.flatMap_append, covers_append,
    List.flatMap_singleton]

/-- **One call.**  An image beside the merged ones is merged with them. -/
theorem mergeImages_step {first src merged : LoadedELF} {done : List LoadedELF}
    (h : Merged canon first done merged) (hall : Mergeable canon (done ++ [src]))
    (hbeside : Beside done src) :
    ∃ merged', mergeImages canon merged src = some merged' ∧
      Merged canon first (done ++ [src]) merged' := by
  have hself : src ∈ done ++ [src] := List.mem_append_right _ (List.mem_singleton.2 rfl)
  have hmem : ∀ m ∈ done ++ [src], m ∈ done ∨ m = src := by
    intro m hm
    rcases List.mem_append.1 hm with hm | hm
    · exact .inl hm
    · exact .inr (List.mem_singleton.1 hm)
  have hsrc := hall.modules src hself
  obtain ⟨-, -, hcross⟩ := List.pairwise_append.1 hall.disjoint
  have hapart : ∀ m ∈ done, NoOverlap m src := fun m hm => hcross m hm src (List.mem_singleton.2 rfl)
  have hrelocs : merged.relocations ++ src.relocations =
      (done ++ [src]).flatMap LoadedELF.relocations := by
    rw [List.flatMap_append, List.flatMap_singleton, h.relocations]
  obtain ⟨grown, hgrow, hlong, hreach, hsize, hgrown⟩ := growImage_spec h.size hsrc
  obtain ⟨copied, hcopy, hcopied, hin, hout⟩ := copyRange_spec hsrc hreach
  generalize hc : (if merged.canaryAddr = 0 then src.canaryAddr else merged.canaryAddr) = c
  have howner := fun hne => canaryTarget_spec h hc.symm hne
  -- the range of every image ends in the image
  have hends : ∀ m ∈ done ++ [src], m.maxVAddr.toNat ≤ copied.length := by
    intro m hm
    rcases hmem m hm with hm | hm
    · have hle := h.le_hi m hm
      have hloaded := h.loaded
      rw [BitVec.le_def] at hle
      omega
    · rw [hm]
      omega
  have hcin : c ≠ 0 → c.toNat + 8 ≤ copied.length := by
    intro hne
    obtain ⟨m, hm, heq, hnonzero⟩ := howner hne
    have hend := hends m hm
    have hcanary := (hall.modules m hm).canary hnonzero
    rw [heq]
    omega
  have hslots : ∀ r ∈ merged.relocations ++ src.relocations, isGuard canon r →
      r.offset.toNat + 8 < 2 ^ 64 := by
    intro r hr hg
    rw [hrelocs] at hr
    obtain ⟨m, hm, hr⟩ := List.mem_flatMap.1 hr
    exact (hall.modules m hm).slots r hr hg
  obtain ⟨img, hbind, himg, hkept, hbound⟩ := bindCanary_spec (by rw [hcopied]; exact hsize) hcin hslots
  rw [← hc] at hbind
  obtain ⟨symbols, byName, byAddr, heq⟩ :=
    mergeImages_eq ((overlaps_iff h).2 hbeside) hsrc hgrow hcopy hbind
  rw [hc] at heq
  refine ⟨_, heq, ?_⟩
  constructor
  case lo =>
    show ∃ m ∈ done ++ [src], (if src.minVAddr < merged.minVAddr then src.minVAddr
      else merged.minVAddr) = m.minVAddr
    split
    · exact ⟨src, hself, rfl⟩
    · obtain ⟨m, hm, hmin⟩ := h.lo
      exact ⟨m, List.mem_append_left _ hm, hmin⟩
  case lo_le =>
    intro m hm
    show (if src.minVAddr < merged.minVAddr then src.minVAddr else merged.minVAddr) ≤ m.minVAddr
    rcases hmem m hm with hm | hm
    · have hle := h.lo_le m hm
      split
      · rename_i hlt
        exact BitVec.le_trans (BitVec.le_of_lt hlt) hle
      · exact hle
    · rw [hm]
      split
      · exact BitVec.le_refl _
      · rename_i hge
        exact BitVec.not_lt.1 hge
  case hi =>
    show ∃ m ∈ done ++ [src], (if merged.maxVAddr < src.maxVAddr then src.maxVAddr
      else merged.maxVAddr) = m.maxVAddr
    split
    · exact ⟨src, hself, rfl⟩
    · obtain ⟨m, hm, hmax⟩ := h.hi
      exact ⟨m, List.mem_append_left _ hm, hmax⟩
  case le_hi =>
    intro m hm
    show m.maxVAddr ≤ if merged.maxVAddr < src.maxVAddr then src.maxVAddr else merged.maxVAddr
    rcases hmem m hm with hm | hm
    · have hle := h.le_hi m hm
      split
      · rename_i hlt
        exact BitVec.le_trans hle (BitVec.le_of_lt hlt)
      · exact hle
    · rw [hm]
      split
      · exact BitVec.le_refl _
      · rename_i hge
        exact BitVec.not_lt.1 hge
  case loaded =>
    show (if merged.maxVAddr < src.maxVAddr then src.maxVAddr else merged.maxVAddr).toNat ≤ img.length
    have hend := hends src hself
    have hloaded := h.loaded
    split <;> omega
  case size =>
    show img.length < 2 ^ 64
    rw [himg, hcopied]
    exact hsize
  case canary =>
    intro hne
    obtain ⟨m, hm, heq, -⟩ := howner hne
    exact ⟨m, hm, heq⟩
  case canary_ne =>
    intro m hm hne
    show c ≠ 0
    rw [← hc]
    split
    · rename_i hzero
      rcases hmem m hm with hm | hm
      · exact absurd hzero (h.canary_ne m hm hne)
      · rwa [← hm]
    · rename_i hnonzero
      exact hnonzero
  case bytes =>
    intro m hm a ha hun
    show img.get a = m.memoryImage.get a
    have hbase : copied.get a = m.memoryImage.get a := by
      rcases hmem m hm with hm | hm
      · have hno := hapart m hm
        rw [NoOverlap, BitVec.le_def, BitVec.le_def] at hno
        have hnot : ¬ InImage src a := by
          rw [InImage] at ha ⊢
          omega
        rw [hout a hnot, hgrown a]
        exact h.bytes m hm a ha fun r hr => hun r (List.mem_append_left _ hr)
      · rw [hm] at ha ⊢
        exact hin a ha
    rw [hkept a hun]
    split
    · exact hbase
    · rename_i hne
      obtain ⟨owner, hmo, heq, hnonzero⟩ := howner hne
      obtain ⟨hlo, hhi, hword⟩ := (hall.modules owner hmo).canary hnonzero
      rw [← heq] at hlo hhi hword
      by_cases hcover : c.toNat ≤ a ∧ a < c.toNat + 8
      · -- the canary lies in the range of its image and holds the value there already
        have hsame : owner = m := inImage_unique hall.disjoint hmo hm (a := a) ⟨by omega, by omega⟩ ha
        rw [hsame] at hword
        obtain ⟨k, hk⟩ : ∃ k, a = c.toNat + k := ⟨a - c.toNat, by omega⟩
        rw [hk, ← hword]
        exact Bytes.get_putWord_word _ _ (by omega) (hcin hne)
      · rw [Bytes.get_putWord_of_disjoint _ _ (by omega)]
        exact hbase
  case guards =>
    intro hne r hr hg hend
    refine hbound hne ?_ r hr hg (by rw [← himg]; exact hend)
    rw [hrelocs]
    exact hall.guards
  case relocations => exact hrelocs
  case symbols =>
    show (mergeDynSymbols merged.dynSymbols src.dynSymbols).tail = _
    rw [tail_mergeDynSymbols, h.symbols, symbolTable, symbolTable, List.flatMap_append,
      List.flatMap_singleton]
  case funcBounds =>
    refine ⟨separate_sortByStart h.funcBounds.1 hsrc.funcBounds.1 fun a ha b hb => ?_, fun r => ?_⟩
    · obtain ⟨m, hm, ham⟩ := List.mem_flatMap.1 ((h.funcBounds.2 a).1 ha)
      obtain ⟨halo, hahi⟩ := (hall.modules m (List.mem_append_left _ hm)).funcBounds.2 a ham
      obtain ⟨hblo, hbhi⟩ := hsrc.funcBounds.2 b hb
      rcases hapart m hm with hbelow | habove
      · exact .inl (BitVec.le_trans hahi (BitVec.le_trans hbelow hblo))
      · exact .inr (BitVec.le_trans hbhi (BitVec.le_trans habove halo))
    · rw [List.flatMap_append, List.flatMap_singleton, List.mem_append, ← h.funcBounds.2 r,
        ← List.mem_append]
      exact (List.perm_insertionSort _ _).mem_iff
  case unwindRanges => exact ⟨(mergeRanges_spec _).1, covers_mergeRanges h.unwindRanges.2⟩
  case dataRanges => exact ⟨(mergeRanges_spec _).1, covers_mergeRanges h.dataRanges.2⟩
  case lsdaBounds => exact h.lsdaBounds

theorem Mergeable.of_append {imgs more : List LoadedELF} (h : Mergeable canon (imgs ++ more)) :
    Mergeable canon imgs := by
  have hmem : ∀ r ∈ imgs.flatMap LoadedELF.relocations,
      r ∈ (imgs ++ more).flatMap LoadedELF.relocations := by
    intro r hr
    rw [List.flatMap_append]
    exact List.mem_append_left _ hr
  exact ⟨fun m hm => h.modules m (List.mem_append_left _ hm), (List.pairwise_append.1 h.disjoint).1,
    fun r hr r' hr' => h.guards r (hmem r hr) r' (hmem r' hr')⟩

/-- **Any number of calls.**  They succeed exactly when each image lies beside those before it. -/
theorem mergeImages_run {first : LoadedELF} {rest done : List LoadedELF} {merged : LoadedELF}
    (h : Merged canon first done merged) (hall : Mergeable canon (done ++ rest)) :
    (∀ merged', rest.foldlM (mergeImages canon) merged = some merged' →
      Merged canon first (done ++ rest) merged') ∧
    ((∃ merged', rest.foldlM (mergeImages canon) merged = some merged') ↔
      ∀ pre m post, rest = pre ++ m :: post → Beside (done ++ pre) m) := by
  induction rest generalizing done merged with
  | nil =>
      refine ⟨fun merged' heq => ?_, iff_of_true ⟨merged, rfl⟩ fun pre m post hsplit => ?_⟩
      · cases heq
        rw [List.append_nil]
        exact h
      · exact absurd hsplit.symm (by simp)
  | cons src rest ih =>
      by_cases hbeside : Beside done src
      · rw [List.append_cons] at hall ⊢
        obtain ⟨next, hnext, hmerged⟩ := mergeImages_step h hall.of_append hbeside
        obtain ⟨hrun, hsucc⟩ := ih hmerged hall
        rw [List.foldlM_cons, hnext, Option.bind_eq_bind, Option.bind_some]
        refine ⟨hrun, hsucc.trans ?_⟩
        constructor
        · intro hrest pre m post hsplit
          cases pre with
          | nil =>
              rw [List.nil_append, List.cons.injEq] at hsplit
              rw [List.append_nil, ← hsplit.1]
              exact hbeside
          | cons e pre =>
              rw [List.cons_append, List.cons.injEq] at hsplit
              rw [← hsplit.1, List.append_cons]
              exact hrest pre m post hsplit.2
        · intro hrest pre m post hsplit
          rw [← List.append_cons]
          exact hrest (src :: pre) m post (by rw [hsplit, List.cons_append])
      · have hfail : mergeImages canon merged src = none := by
          have hover : overlaps merged src = true := by
            rw [← Bool.not_eq_false, overlaps_iff h]
            exact hbeside
          rw [mergeImages, if_pos hover]
        rw [List.foldlM_cons, hfail]
        refine ⟨fun merged' heq => (nomatch heq), iff_of_false (fun hex => ?_) fun hrest => ?_⟩
        · obtain ⟨merged', heq⟩ := hex
          cases heq
        · have hhead := hrest [] src rest rfl
          rw [List.append_nil] at hhead
          exact hbeside hhead

/-! ### when the images are preserved -/

theorem names_iff {table : List Symbol} {r : Relocation} {sym : Symbol} :
    Names table r sym ↔ r.symIdx ≠ 0 ∧ table.tail[r.symIdx.toNat - 1]? = some sym := by
  refine and_congr_right fun hne => ?_
  have hpos : r.symIdx.toNat ≠ 0 := fun hzero => hne (BitVec.eq_of_toNat_eq hzero)
  rw [List.getElem?_tail, Nat.sub_add_cancel (Nat.one_le_iff_ne_zero.2 hpos)]

theorem symbolTable_getElem? (pre post : List LoadedELF) {m : LoadedELF} {r : Relocation} {sym : Symbol}
    (h : Names m.dynSymbols r sym) :
    (symbolTable (pre ++ m :: post))[r.symIdx.toNat - 1]? =
      (symbolTable (pre ++ [m]))[r.symIdx.toNat - 1]? := by
  obtain ⟨hlt, -⟩ := List.getElem?_eq_some_iff.1 (names_iff.1 h).2
  rw [List.append_cons, symbolTable, List.flatMap_append, List.getElem?_append_left]
  · rfl
  · rw [List.flatMap_append, List.flatMap_singleton, List.length_append]
    omega

/-- A merged image has what its inputs have, when the later ones have no LSDA range and find their
symbols. -/
theorem preserved_iff {first merged : LoadedELF} {rest : List LoadedELF}
    (h : Merged canon first (first :: rest) merged) (hall : Mergeable canon (first :: rest)) :
    Preserved canon (first :: rest) merged ↔ ∀ pre m post, rest = pre ++ m :: post →
      m.lsdaBounds = [] ∧ ∀ r ∈ m.relocations, ∀ sym, Names m.dynSymbols r sym →
        (symbolTable (first :: pre ++ [m]))[r.symIdx.toNat - 1]? = some sym := by
  have hfirst : first ∈ first :: rest := List.mem_cons_self
  constructor
  · intro hp pre m post hsplit
    have hmem : m ∈ rest := by
      rw [hsplit]
      exact List.mem_append_right _ List.mem_cons_self
    have hm : m ∈ first :: rest := List.mem_cons_of_mem _ hmem
    refine ⟨?_, fun r hr sym hnames => ?_⟩
    · cases hlsda : m.lsdaBounds with
      | nil => rfl
      | cons r rs =>
          have hr : r ∈ m.lsdaBounds := by
            rw [hlsda]
            exact List.mem_cons_self
          obtain ⟨r', hr', hlo, hhi⟩ := of_functionHasLSDA (hp.lsdaBounds m hm r hr)
          rw [h.lsdaBounds] at hr'
          -- a range of the first image would overlap one of a later image
          obtain ⟨hmlo, hmhi⟩ := (hall.modules m hm).lsdaBounds.2 r hr
          obtain ⟨hflo, hfhi⟩ := (hall.modules first hfirst).lsdaBounds.2 r' hr'
          have hno := (List.pairwise_cons.1 hall.disjoint).1 m hmem
          rw [NoOverlap, BitVec.le_def, BitVec.le_def] at hno
          rw [BitVec.lt_def] at hlo hhi
          rw [BitVec.le_def] at hmlo hmhi hflo hfhi
          omega
    · have hmerged := (names_iff.1 (hp.symbols m hm r hr sym hnames)).2
      rw [h.symbols, hsplit, ← List.cons_append, symbolTable_getElem? _ _ hnames] at hmerged
      exact hmerged
  · intro hrest
    constructor
    case loaded =>
      intro m hm
      have hle := h.le_hi m hm
      rw [BitVec.le_def] at hle
      exact hle.trans h.loaded
    case bytes => exact h.bytes
    case canary =>
      intro hex
      obtain ⟨m, hm, hne⟩ := hex
      have hnonzero := h.canary_ne m hm hne
      obtain ⟨owner, howner, heq⟩ := h.canary hnonzero
      exact ⟨owner, howner, heq ▸ hnonzero, heq⟩
    case guards => exact h.guards
    case relocations => exact h.relocations
    case symbols =>
      intro m hm r hr sym hnames
      refine names_iff.2 ⟨hnames.1, ?_⟩
      rw [h.symbols]
      rcases List.mem_cons.1 hm with heq | hm
      · subst heq
        have hself := symbolTable_getElem? [] rest hnames
        rw [List.nil_append, List.nil_append, symbolTable, symbolTable, List.flatMap_singleton] at hself
        exact hself.trans (names_iff.1 hnames).2
      · obtain ⟨pre, post, hsplit⟩ := List.append_of_mem hm
        rw [hsplit, ← List.cons_append, symbolTable_getElem? _ _ hnames]
        exact (hrest pre m post hsplit).2 r hr sym hnames
    case funcBounds =>
      intro m hm r hr addr hin
      exact h.funcBounds.1.funcExtent ((h.funcBounds.2 r).2 (List.mem_flatMap.2 ⟨m, hm, hr⟩)) hin
    case unwindRanges =>
      intro m hm r hr addr hin
      obtain ⟨r', hr', hin'⟩ := (h.unwindRanges.2 addr).2 ⟨r, List.mem_flatMap.2 ⟨m, hm, hr⟩, hin⟩
      exact h.unwindRanges.1.rangeContains hr' hin'
    case dataRanges =>
      intro m hm r hr addr hin
      obtain ⟨r', hr', hin'⟩ := (h.dataRanges.2 addr).2 ⟨r, List.mem_flatMap.2 ⟨m, hm, hr⟩, hin⟩
      exact h.dataRanges.1.rangeContains hr' hin'
    case lsdaBounds =>
      intro m hm r hr
      rcases List.mem_cons.1 hm with heq | hm
      · subst heq
        rw [← h.lsdaBounds] at hr
        refine functionHasLSDA_of_mem ?_ hr
        rw [h.lsdaBounds]
        exact (hall.modules m hfirst).lsdaBounds.1
      · obtain ⟨pre, post, hsplit⟩ := List.append_of_mem hm
        rw [(hrest pre m post hsplit).1] at hr
        cases hr

/-- **Merging.**  Modules apart from each other are merged with all that they have exactly when each
one after the first lies beside those before it, has no LSDA range, and finds its symbols at its own
indices behind theirs. -/
theorem mergeImages_preserves (canon : String → String) {first : LoadedELF} {rest : List LoadedELF}
    (h : Mergeable canon (first :: rest)) :
    (∃ merged, rest.foldlM (mergeImages canon) first = some merged ∧
      Preserved canon (first :: rest) merged) ↔ MergeHolds first rest := by
  have hstart := merged_first (h.modules first List.mem_cons_self)
  have hall : Mergeable canon ([first] ++ rest) := h
  obtain ⟨hrun, hsucc⟩ := mergeImages_run hstart hall
  constructor
  · intro hex
    obtain ⟨merged, heq, hp⟩ := hex
    have hrest := (preserved_iff (hrun merged heq) h).1 hp
    intro pre m post hsplit
    obtain ⟨hlsda, hsymbols⟩ := hrest pre m post hsplit
    exact ⟨hsucc.1 ⟨merged, heq⟩ pre m post hsplit, hlsda, hsymbols⟩
  · intro hholds
    obtain ⟨merged, heq⟩ := hsucc.2 fun pre m post hsplit => (hholds pre m post hsplit).beside
    refine ⟨merged, heq, (preserved_iff (hrun merged heq) h).2 fun pre m post hsplit => ?_⟩
    exact ⟨(hholds pre m post hsplit).lsdaBounds, (hholds pre m post hsplit).symbols⟩

/-- Eight mapped bytes with a function and a slot for the first dynamic symbol. -/
def guestModule (base : BitVec 64) (dyn : List Symbol) (lsda : List AddrRange) : LoadedELF :=
  { minVAddr := base
    maxVAddr := base + 8
    memoryImage := List.replicate 16 0
    dynSymbols := dyn
    relocations := [{ offset := base, type := rX86_64_GLOB_DAT, symIdx := 1 }]
    funcBounds := [{ start := base, stop := base + 8 }]
    lsdaBounds := lsda }

theorem isGuard_of_empty {r : Relocation} (h : r.symName = "") : ¬ isGuard (fun _ => "") r := by
  rw [isGuard, h]
  decide

theorem guestModule_module {base : BitVec 64} (dyn : List Symbol) {lsda : List AddrRange}
    (hbase : base = 0 ∨ base = 8) (hlsda : lsda = [] ∨ lsda = [{ start := base, stop := base + 8 }]) :
    Module (fun _ => "") (guestModule base dyn lsda) := by
  have hranges : ∀ b : BitVec 64, b = 0 ∨ b = 8 → b < b + 8 ∧ (b + 8).toNat ≤ 16 := by
    intro b hb
    rcases hb with hb | hb
    · rw [hb]
      decide
    · rw [hb]
      decide
  obtain ⟨hlt, hle⟩ := hranges base hbase
  have hfunc : Separate [{ start := base, stop := base + 8 }] ∧
      Inside (guestModule base dyn lsda) [{ start := base, stop := base + 8 }] := by
    refine ⟨⟨List.pairwise_singleton _ _, fun r hr => ?_⟩, fun r hr => ?_⟩
    · rw [List.mem_singleton.1 hr]
      exact hlt
    · rw [List.mem_singleton.1 hr]
      exact ⟨BitVec.le_refl _, BitVec.le_refl _⟩
  have hlen : (guestModule base dyn lsda).memoryImage.length = 16 := List.length_replicate
  constructor
  case mapped => exact hlt
  case loaded =>
    rw [hlen]
    exact hle
  case size =>
    rw [hlen]
    decide
  case room =>
    show (base + 8).toNat + 4095 ≤ maxAlloc
    rw [maxAlloc]
    omega
  case slots =>
    intro r hr hg
    rw [List.mem_singleton.1 hr] at hg
    exact absurd hg (isGuard_of_empty rfl)
  case canary => exact fun hne => absurd rfl hne
  case guards => exact fun hne => absurd rfl hne
  case funcBounds => exact hfunc
  case lsdaBounds =>
    rcases hlsda with heq | heq
    · subst heq
      exact ⟨separate_nil, fun r hr => (by cases hr)⟩
    · subst heq
      exact hfunc
  case unwindRanges => exact separate_nil
  case dataRanges => exact separate_nil

theorem guestModules_mergeable (dyn dyn' : List Symbol) (lsda : List AddrRange)
    (hlsda : lsda = [] ∨ lsda = [{ start := 8, stop := 16 }]) :
    Mergeable (fun _ => "") [guestModule 0 dyn [], guestModule 8 dyn' lsda] := by
  refine ⟨List.forall_mem_cons.2 ⟨guestModule_module dyn (.inl rfl) (.inl rfl), ?_⟩,
    List.pairwise_pair.2 (.inl (BitVec.le_refl _)), fun r hr r' _ hg => ?_⟩
  · intro m hm
    rw [List.mem_singleton.1 hm]
    exact guestModule_module dyn' (.inr rfl) hlsda
  · have hrelocs : r.symName = "" := by
      obtain ⟨m, hm, hr⟩ := List.mem_flatMap.1 hr
      rcases List.mem_cons.1 hm with heq | hm
      · subst heq
        rw [List.mem_singleton.1 hr]
      · rw [List.mem_singleton.1 hm] at hr
        rw [List.mem_singleton.1 hr]
    exact absurd hg (isGuard_of_empty hrelocs)

/-- A module behind one without dynamic symbols keeps its own. -/
theorem mergeImages_preserves_symbols :
    let second := guestModule 8 [{}, { name := "memcpy" }] []
    ∃ merged, [second].foldlM (mergeImages fun _ => "") (guestModule 0 [] []) = some merged ∧
      Preserved (fun _ => "") [guestModule 0 [] [], second] merged := by
  refine (mergeImages_preserves _ (guestModules_mergeable _ _ _ (.inl rfl))).2 fun pre m post hsplit => ?_
  obtain ⟨hpre, hm⟩ : pre = [] ∧ m = guestModule 8 [{}, { name := "memcpy" }] [] := by
    cases pre with
    | nil =>
        rw [List.nil_append, List.cons.injEq] at hsplit
        exact ⟨rfl, hsplit.1.symm⟩
    | cons e pre => simp at hsplit
  subst hpre
  subst hm
  refine ⟨.inl fun e he => ?_, rfl, fun r hr sym hnames => ?_⟩
  · rw [List.mem_singleton.1 he]
    decide
  · rw [List.mem_singleton.1 hr] at hnames ⊢
    exact hnames.2

/-- The LSDA range of a second module is lost, and its relocations name a symbol of the first. -/
theorem mergeImages_forgets :
    (¬ ∃ merged, [guestModule 8 [] [{ start := 8, stop := 16 }]].foldlM (mergeImages fun _ => "")
        (guestModule 0 [] []) = some merged ∧
      Preserved (fun _ => "") [guestModule 0 [] [], guestModule 8 [] [{ start := 8, stop := 16 }]]
        merged) ∧
    ¬ ∃ merged, [guestModule 8 [{}, { name := "memcpy" }] []].foldlM (mergeImages fun _ => "")
        (guestModule 0 [{}, { name := "memset" }] []) = some merged ∧
      Preserved (fun _ => "") [guestModule 0 [{}, { name := "memset" }] [],
        guestModule 8 [{}, { name := "memcpy" }] []] merged := by
  constructor
  · intro hex
    obtain ⟨merged, heq, hp⟩ := hex
    have hall := guestModules_mergeable [] [] [{ start := 8, stop := 16 }] (.inr rfl)
    have hm := (mergeImages_run (merged_first (hall.modules _ List.mem_cons_self)) hall).1 merged heq
    exact absurd ((preserved_iff hm hall).1 hp [] _ [] rfl).1 (List.cons_ne_nil _ _)
  · intro hex
    obtain ⟨merged, heq, hp⟩ := hex
    have hall := guestModules_mergeable [{}, { name := "memset" }] [{}, { name := "memcpy" }] []
      (.inl rfl)
    have hm := (mergeImages_run (merged_first (hall.modules _ List.mem_cons_self)) hall).1 merged heq
    have hsymbols := ((preserved_iff hm hall).1 hp [] _ [] rfl).2 _ (List.mem_singleton.2 rfl)
      { name := "memcpy" } ⟨by decide, rfl⟩
    revert hsymbols
    decide

end PS4Recomp.Elf
