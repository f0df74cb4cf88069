import PS4Recomp.Library.Tiling
import PS4Recomp.Library.Transition

/-!
# Direct memory

The block list of `ps4_direct_mem.c`.

* `DirectMemBlock`, `DirectMem` — the physical blocks and what `ps4_direct_mem_configure` sets;
* `init`, `configure`, `allocate`, `allocateMain`, `release` — the operations;
* `Tiled` — the list fills `[0, total)`, only its last block may be empty, and no two neighbours are
  free; `tiled_split`, `tiled_release`, `tiled_resizeLast` — the operations keep it;
* `Admits` — the length of an allocation does not round up to 0 and no candidate range wraps;
* **`directMem_tiled`** — in runs whose allocations all meet it every state is tiled, and an
  allocated block stays as it is until it is released;
* `directMem_untiled` — an allocation of `2 ^ 64 - 1` bytes leaves an empty block in front of
  another one.

Sizes and addresses are 64-bit patterns; `off_t` is signed.  `calloc` may fail, which the operations
are told by flags.  The mutex makes each operation one step.  The blocks store no memory type (the
argument is unused and the query reports 0 for every block), and the guest address of a mapping is
left out, no operation here reads it.
-/

namespace PS4Recomp.Runtime

open Library Library.Transition

/-! ### the operations -/

/-- `DirectMemBlock`. -/
structure DirectMemBlock where
  physOffset : BitVec 64
  size : BitVec 64
  isFree : Bool
  deriving DecidableEq

/-- `g_direct_blocks`, `g_direct_inited`, and `g_direct_size` once `g_direct_configured`. -/
structure DirectMem where
  blocks : List DirectMemBlock := []
  inited : Bool := false
  configured : Option (BitVec 64) := none

/-- The error codes. -/
inductive DirectMemError where
  | einval | eagain
  deriving DecidableEq

/-- `ORBIS_KERNEL_ERROR_EINVAL` and `ORBIS_KERNEL_ERROR_EAGAIN`. -/
def DirectMemError.code : DirectMemError → BitVec 32
  | .einval => 0x80020016
  | .eagain => 0x80020023

/-- `(x + a - 1) & ~(a - 1)`. -/
def alignUp (x a : BitVec 64) : BitVec 64 := (x + a - 1) &&& ~~~(a - 1)

namespace DirectMem

/-- `get_total_direct_mem_size`; `dflt` is the size of a process without parameters, or the
override. -/
def total (dflt : BitVec 64) (m : DirectMem) : BitVec 64 := m.configured.getD dflt

/-- `ps4_direct_mem_init`. -/
def init (dflt : BitVec 64) (calloc : Bool) (m : DirectMem) : DirectMem :=
  if m.inited then m
  else if calloc then
    { m with blocks := [{ physOffset := 0, size := m.total dflt, isFree := true }], inited := true }
  else { m with blocks := [] }

/-- The last block resized from `oldTotal` to `newTotal`, when it is free, ends there and is large
enough. -/
def resizeLast (oldTotal newTotal : BitVec 64) (blocks : List DirectMemBlock) :
    Option (List DirectMemBlock) :=
  match blocks.getLast? with
  | some last =>
      if last.isFree ∧ last.physOffset + last.size = oldTotal ∧
          (oldTotal < newTotal ∨ oldTotal - newTotal ≤ last.size) then
        some (blocks.dropLast ++ [{ last with size := newTotal - last.physOffset }])
      else none
  | none => none

/-- `ps4_direct_mem_configure`, from the size it computes on. -/
def configure (dflt newTotal : BitVec 64) (m : DirectMem) : DirectMem :=
  let oldTotal := m.total dflt
  if m.inited ∧ newTotal ≠ oldTotal then
    match resizeLast oldTotal newTotal m.blocks with
    | some blocks => { m with blocks, configured := some newTotal }
    | none => { m with configured := some oldTotal }
  else { m with configured := some newTotal }

/-- The first address of a block that the search may use. -/
def fromOf (searchStart : BitVec 64) (b : DirectMemBlock) : BitVec 64 :=
  if searchStart < b.physOffset then b.physOffset else searchStart

/-- The start of a candidate range in a block. -/
def candidate (searchStart alignment : BitVec 64) (b : DirectMemBlock) : BitVec 64 :=
  alignUp (fromOf searchStart b) alignment

/-- The search of `sceKernelAllocateDirectMemory`: the block of the lowest range, what is before and
after it, and the start of the range. -/
def findFit (searchStart searchEnd len alignment : BitVec 64) : List DirectMemBlock →
    Option (List DirectMemBlock × DirectMemBlock × List DirectMemBlock × BitVec 64)
  | [] => none
  | b :: bs =>
      let next := (findFit searchStart searchEnd len alignment bs).map fun r =>
        (b :: r.1, r.2.1, r.2.2.1, r.2.2.2)
      let start := candidate searchStart alignment b
      if b.isFree = false then next
      else if start < fromOf searchStart b ∨ b.physOffset + b.size < start + len then next
      else if searchEnd < start + len then none
      else some ([], b, bs, start)

/-- The allocated part of a block and what is free behind it. -/
def splitTail (len start : BitVec 64) (b : DirectMemBlock) : List DirectMemBlock :=
  let rest := b.size - (start - b.physOffset)
  if len < rest then
    [{ physOffset := start, size := len, isFree := false },
      { physOffset := start + len, size := rest - len, isFree := true }]
  else [{ physOffset := start, size := rest, isFree := false }]

/-- The block of a range in the list, split in up to three. -/
def split (len start : BitVec 64) (b : DirectMemBlock) : List DirectMemBlock :=
  let frontPad := start - b.physOffset
  (if frontPad ≠ 0 then [{ physOffset := b.physOffset, size := frontPad, isFree := true }] else []) ++
    splitTail len start b

/-- The alignment of an allocation. -/
def alignmentOf (alignment : BitVec 64) : BitVec 64 := if alignment = 0 then 4096 else alignment

/-- `sceKernelAllocateDirectMemory`; `callocInit` and `callocSplit` tell whether the allocation of
the first block and those of the split succeed. -/
def allocate (dflt : BitVec 64) (callocInit callocSplit : Bool)
    (searchStart searchEnd length alignment : BitVec 64) (m : DirectMem) :
    DirectMem × Except DirectMemError (BitVec 64) :=
  if length = 0 ∨ searchStart.toInt < 0 ∨ searchEnd.toInt < 0 then (m, .error .einval)
  else
    let alignment := alignmentOf alignment
    let len := alignUp length alignment
    if searchEnd.toInt ≤ searchStart.toInt ∨ searchEnd - searchStart < len then (m, .error .eagain)
    else
      let m := m.init dflt callocInit
      match findFit searchStart searchEnd len alignment m.blocks with
      | none => (m, .error .eagain)
      | some (pre, b, post, start) =>
          let frontPad := start - b.physOffset
          if callocSplit = false ∧ (frontPad ≠ 0 ∨ len < b.size - frontPad) then (m, .error .eagain)
          else ({ m with blocks := pre ++ split len start b ++ post }, .ok start)

/-- `sceKernelAllocateMainDirectMemory`. -/
def allocateMain (dflt : BitVec 64) (callocInit callocSplit : Bool) (length alignment : BitVec 64)
    (m : DirectMem) : DirectMem × Except DirectMemError (BitVec 64) :=
  m.allocate dflt callocInit callocSplit 0 (m.total dflt) length alignment

/-- A free block joined with the block after it, when that is free. -/
def mergeNext (b : DirectMemBlock) (post : List DirectMemBlock) : List DirectMemBlock :=
  match post with
  | n :: post' => if n.isFree then { b with size := b.size + n.size } :: post' else b :: post
  | [] => [b]

/-- The block before a free block joined with it, when that is free. -/
def mergePrev (pre : List DirectMemBlock) (rest : List DirectMemBlock) : List DirectMemBlock :=
  match pre.getLast?, rest with
  | some p, b :: post =>
      if p.isFree then pre.dropLast ++ { p with size := p.size + b.size } :: post else pre ++ rest
  | _, _ => pre ++ rest

/-- `sceKernelReleaseDirectMemory`; its length argument is unused. -/
def release (dflt : BitVec 64) (calloc : Bool) (physAddr : BitVec 64) (m : DirectMem) :
    DirectMem × Except DirectMemError Unit :=
  let m := m.init dflt calloc
  match firstSplit (fun b => !b.isFree && b.physOffset == physAddr) m.blocks with
  | none => (m, .error .einval)
  | some (pre, b, post) =>
      ({ m with blocks := mergePrev pre (mergeNext { b with isFree := true } post) }, .ok ())

end DirectMem

/-- The operations with their arguments. -/
inductive DirectMemOp where
  | init (calloc : Bool)
  | configure (newTotal : BitVec 64)
  | allocate (callocInit callocSplit : Bool) (searchStart searchEnd length alignment : BitVec 64)
  | allocateMain (callocInit callocSplit : Bool) (length alignment : BitVec 64)
  | release (calloc : Bool) (physAddr : BitVec 64)

/-- The state after an operation. -/
def DirectMem.apply (dflt : BitVec 64) (m : DirectMem) : DirectMemOp → DirectMem
  | .init c => m.init dflt c
  | .configure t => m.configure dflt t
  | .allocate ci cs a b n al => (m.allocate dflt ci cs a b n al).1
  | .allocateMain ci cs n al => (m.allocateMain dflt ci cs n al).1
  | .release c a => (m.release dflt c a).1

/-- The runs of the operations, from before the first one. -/
def directMemSystem (dflt : BitVec 64) : System DirectMem DirectMemOp where
  init m := m = {}
  step m op m' := m' = m.apply dflt op

/-! ### the invariant -/

namespace DirectMem

variable {dflt total : BitVec 64} {m : DirectMem} {l pre post : List DirectMemBlock}
  {b : DirectMemBlock}

/-- The blocks fill `[lo, hi)`. -/
abbrev Fills (lo hi : ℕ) (l : List DirectMemBlock) : Prop :=
  Tiles (fun b => b.physOffset.toNat) (fun b => b.size.toNat) lo hi l

/-- A block that another one may follow: it is not empty, and they are not both free. -/
def Next (a b : DirectMemBlock) : Prop := 0 < a.size.toNat ∧ (a.isFree = false ∨ b.isFree = false)

/-- The blocks fill `[0, total)`, only the last may be empty, and no two neighbours are free. -/
structure Tiled (total : BitVec 64) (l : List DirectMemBlock) : Prop where
  fills : Fills 0 total.toNat l
  chain : l.IsChain Next

/-- The list is made by the first operation, and tiled from then on. -/
def Inv (dflt : BitVec 64) (m : DirectMem) : Prop :=
  if m.inited then Tiled (m.total dflt) m.blocks else m.blocks = []

theorem inv_init (calloc : Bool) (h : Inv dflt m) : Inv dflt (m.init dflt calloc) := by
  unfold init
  split
  · exact h
  · rename_i hin
    split
    · show Tiled (m.total dflt) [{ physOffset := 0, size := m.total dflt, isFree := true }]
      refine ⟨⟨rfl, ?_⟩, .singleton _⟩
      show 0 + (m.total dflt).toNat = (m.total dflt).toNat
      omega
    · unfold Inv
      rw [if_neg hin]

theorem tiled_resizeLast {newTotal : BitVec 64} (h : Tiled total l) {l' : List DirectMemBlock}
    (hl : resizeLast total newTotal l = some l') : Tiled newTotal l' := by
  unfold resizeLast at hl
  split at hl
  · rename_i last hlast
    split at hl
    · rename_i hcond
      obtain ⟨-, hend, hfit⟩ := hcond
      cases hl
      have hsplit : l = l.dropLast ++ [last] :=
        (List.dropLast_append_getLast? last hlast).symm
      rw [hsplit] at h
      obtain ⟨mid, hpre, hlo, hhi⟩ := tiles_append.1 h.fills
      have hstart : last.physOffset.toNat = mid := hlo
      have hfill : mid + last.size.toNat = total.toNat := hhi
      obtain ⟨hchain, -, hseam⟩ := List.isChain_append.1 h.chain
      have hle : last.physOffset ≤ newTotal := by
        rw [BitVec.le_def]
        rcases hfit with hlt | hsub
        · rw [BitVec.lt_def] at hlt
          omega
        · by_cases hle : newTotal ≤ total
          · rw [BitVec.le_def, BitVec.toNat_sub_of_le hle] at hsub
            omega
          · rw [BitVec.le_def] at hle
            omega
      refine ⟨tiles_append.2 ⟨mid, hpre, hlo, ?_⟩, List.isChain_append.2 ⟨hchain, .singleton _, ?_⟩⟩
      · show mid + (newTotal - last.physOffset).toNat = newTotal.toNat
        rw [BitVec.toNat_sub_of_le hle]
        rw [BitVec.le_def] at hle
        omega
      · intro z hz y hy
        cases hy
        exact hseam z hz last rfl
    · cases hl
  · cases hl

theorem inv_configure (newTotal : BitVec 64) (h : Inv dflt m) : Inv dflt (m.configure dflt newTotal) := by
  unfold Inv configure at *
  by_cases hin : m.inited
  · rw [if_pos hin] at h
    by_cases hne : newTotal = m.total dflt
    · simp only [hne, ne_eq, not_true_eq_false, and_false, if_false, hin, if_true]
      exact h
    · simp only [hin, ne_eq, hne, not_false_eq_true, and_self, if_true]
      cases hr : resizeLast (m.total dflt) newTotal m.blocks with
      | none =>
          show if true = true then Tiled (m.total dflt) m.blocks else m.blocks = []
          rw [if_pos rfl]
          exact h
      | some l' =>
          show if true = true then Tiled newTotal l' else l' = []
          rw [if_pos rfl]
          exact tiled_resizeLast h hr
  · rw [if_neg hin] at h
    simpa only [hin, Bool.false_eq_true, false_and, if_false] using h

/-! ### allocation -/

theorem le_fromOf (searchStart : BitVec 64) (b : DirectMemBlock) :
    b.physOffset ≤ fromOf searchStart b := by
  unfold fromOf
  split
  · exact BitVec.le_refl _
  · rename_i h
    exact BitVec.not_lt.1 h

/-- The search finds a free block that holds the range, as far as sums do not wrap. -/
theorem findFit_spec {searchStart searchEnd len alignment start : BitVec 64}
    (h : findFit searchStart searchEnd len alignment l = some (pre, b, post, start)) :
    l = pre ++ b :: post ∧ b.isFree = true ∧ start = candidate searchStart alignment b ∧
      fromOf searchStart b ≤ start ∧ start + len ≤ b.physOffset + b.size := by
  induction l generalizing pre with
  | nil => cases h
  | cons c l ih =>
      simp only [findFit] at h
      have hrest : (findFit searchStart searchEnd len alignment l).map
          (fun r => (c :: r.1, r.2.1, r.2.2.1, r.2.2.2)) = some (pre, b, post, start) →
          c :: l = pre ++ b :: post ∧ b.isFree = true ∧ start = candidate searchStart alignment b ∧
            fromOf searchStart b ≤ start ∧ start + len ≤ b.physOffset + b.size := by
        intro hr
        cases hl : findFit searchStart searchEnd len alignment l with
        | none => rw [hl] at hr; cases hr
        | some r =>
            rw [hl] at hr
            cases hr
            obtain ⟨heq, hres⟩ := ih hl
            exact ⟨by rw [heq]; rfl, hres⟩
      split at h
      · exact hrest h
      · rename_i hfree
        split at h
        · exact hrest h
        · rename_i hfit
          split at h
          · cases h
          · cases h
            rw [not_or] at hfit
            exact ⟨rfl, by simpa using hfree, rfl, BitVec.not_lt.1 hfit.1, BitVec.not_lt.1 hfit.2⟩

/-- The pieces of a split fill the block, none is empty and no two neighbours are free. -/
theorem split_spec {len start : BitVec 64} (hlen : 0 < len.toNat)
    (htot : b.physOffset.toNat + b.size.toNat < 2 ^ 64)
    (hstart : b.physOffset.toNat ≤ start.toNat)
    (hend : start.toNat + len.toNat ≤ b.physOffset.toNat + b.size.toNat) :
    Fills b.physOffset.toNat (b.physOffset.toNat + b.size.toNat) (split len start b) ∧
      (split len start b).IsChain Next ∧ ∀ c ∈ split len start b, 0 < c.size.toNat := by
  have hpad : (start - b.physOffset).toNat = start.toNat - b.physOffset.toNat :=
    BitVec.toNat_sub_of_le (BitVec.le_def.2 hstart)
  have hrest : (b.size - (start - b.physOffset)).toNat =
      b.size.toNat - (start.toNat - b.physOffset.toNat) := by
    rw [BitVec.toNat_sub_of_le (by rw [BitVec.le_def, hpad]; omega), hpad]
  -- the pieces from the start of the range on
  have htail : Fills start.toNat (b.physOffset.toNat + b.size.toNat) (splitTail len start b) ∧
      (splitTail len start b).IsChain Next ∧ (∀ c ∈ splitTail len start b, 0 < c.size.toNat) ∧
      ∀ c ∈ (splitTail len start b).head?, c.isFree = false := by
    by_cases hlt : len < b.size - (start - b.physOffset)
    · rw [show splitTail len start b =
        [{ physOffset := start, size := len, isFree := false },
          { physOffset := start + len, size := b.size - (start - b.physOffset) - len,
            isFree := true }] from if_pos hlt]
      have hlt' := hlt
      rw [BitVec.lt_def, hrest] at hlt'
      have hsum : (start + len).toNat = start.toNat + len.toNat :=
        BitVec.toNat_add_of_lt (by omega)
      have hleft : (b.size - (start - b.physOffset) - len).toNat =
          b.size.toNat - (start.toNat - b.physOffset.toNat) - len.toNat := by
        rw [BitVec.toNat_sub_of_le (BitVec.le_of_lt hlt), hrest]
      refine ⟨⟨rfl, hsum, ?_⟩, List.isChain_cons_cons.2 ⟨⟨hlen, .inl rfl⟩, .singleton _⟩, ?_, ?_⟩
      · show start.toNat + len.toNat + (b.size - (start - b.physOffset) - len).toNat = _
        rw [hleft]
        omega
      · intro c hc
        rcases List.mem_cons.1 hc with rfl | hc
        · exact hlen
        · obtain rfl := List.mem_singleton.1 hc
          show 0 < (b.size - (start - b.physOffset) - len).toNat
          rw [hleft]
          omega
      · intro c hc
        cases hc
        rfl
    · rw [show splitTail len start b =
        [{ physOffset := start, size := b.size - (start - b.physOffset), isFree := false }]
          from if_neg hlt]
      refine ⟨⟨rfl, ?_⟩, .singleton _, ?_, ?_⟩
      · show start.toNat + (b.size - (start - b.physOffset)).toNat = _
        rw [hrest]
        omega
      · intro c hc
        obtain rfl := List.mem_singleton.1 hc
        show 0 < (b.size - (start - b.physOffset)).toNat
        rw [hrest]
        omega
      · intro c hc
        cases hc
        rfl
  obtain ⟨hfill, hchain, hpos, hhead⟩ := htail
  by_cases hz : start - b.physOffset = 0
  · have heq : start.toNat = b.physOffset.toNat := by
      rw [hz] at hpad
      have hzero : (0 : BitVec 64).toNat = 0 := rfl
      omega
    rw [show split len start b = splitTail len start b by
        rw [split, if_neg (not_not_intro hz), List.nil_append], ← heq]
    exact ⟨heq ▸ hfill, hchain, hpos⟩
  · have hpadpos : 0 < (start - b.physOffset).toNat := by
      rw [Nat.pos_iff_ne_zero]
      exact fun h => hz (BitVec.eq_of_toNat_eq h)
    rw [show split len start b =
      [{ physOffset := b.physOffset, size := start - b.physOffset, isFree := true }] ++
        splitTail len start b by rw [split, if_pos hz]]
    refine ⟨⟨rfl, ?_⟩, List.isChain_append.2 ⟨.singleton _, hchain, ?_⟩, ?_⟩
    · show Fills (b.physOffset.toNat + (start - b.physOffset).toNat) _ (splitTail len start b)
      rw [hpad, Nat.add_sub_cancel' hstart]
      exact hfill
    · intro x hx y hy
      cases hx
      exact ⟨hpadpos, .inr (hhead y hy)⟩
    · intro c hc
      rcases List.mem_append.1 hc with hc | hc
      · obtain rfl := List.mem_singleton.1 hc
        exact hpadpos
      · exact hpos c hc

/-- A free block of a tiled list split around a range it holds. -/
theorem tiled_split {len start : BitVec 64} (h : Tiled total (pre ++ b :: post))
    (hfree : b.isFree = true) (hlen : 0 < len.toNat) (hwrap : start.toNat + len.toNat < 2 ^ 64)
    (hstart : b.physOffset ≤ start) (hend : start + len ≤ b.physOffset + b.size) :
    Tiled total (pre ++ split len start b ++ post) := by
  have hbound := h.fills.bounds (b := b) (by simp)
  have htot : b.physOffset.toNat + b.size.toNat < 2 ^ 64 := by
    have hlt := total.isLt
    omega
  rw [BitVec.le_def] at hstart
  rw [BitVec.le_def, BitVec.toNat_add_of_lt hwrap, BitVec.toNat_add_of_lt htot] at hend
  obtain ⟨hfill, hchain, hpos⟩ := split_spec hlen htot hstart hend
  obtain ⟨mid, hpre, hlo, hpost⟩ := tiles_append.1 h.fills
  have hmid : b.physOffset.toNat = mid := hlo
  constructor
  · rw [List.append_assoc]
    refine tiles_append.2 ⟨mid, hpre, tiles_append.2 ⟨mid + b.size.toNat, ?_, hpost⟩⟩
    rw [← hmid]
    exact hfill
  · have hold : (pre ++ [b] ++ post).IsChain Next := by
      rw [List.append_assoc]
      exact h.chain
    refine isChain_middle hold hchain ?_ ?_ ?_
    · intro y _
      refine ⟨b, rfl, fun z hz => ⟨hz.1, .inl ?_⟩⟩
      exact hz.2.resolve_right (by simp [hfree])
    · intro y hy
      refine ⟨b, rfl, fun z hz => ⟨hpos y (List.mem_of_getLast? hy), .inr ?_⟩⟩
      exact hz.2.resolve_left (by simp [hfree])
    · intro hnil
      rw [hnil] at hfill
      have heq : b.physOffset.toNat = b.physOffset.toNat + b.size.toNat := hfill
      omega

/-! ### release -/

theorem mergeNext_spec {lo hi : ℕ} (hhi : hi < 2 ^ 64) (hfill : Fills lo hi (b :: post))
    (hchain : (b :: post).IsChain Next) :
    ∃ c rest, mergeNext { b with isFree := true } post = c :: rest ∧ c.isFree = true ∧
      Fills lo hi (c :: rest) ∧ (c :: rest).IsChain Next := by
  cases post with
  | nil => exact ⟨{ b with isFree := true }, [], rfl, rfl, hfill, .singleton _⟩
  | cons n post =>
      rw [List.isChain_cons_cons] at hchain
      by_cases hn : n.isFree = true
      · have hle : lo + b.size.toNat + n.size.toNat ≤ hi := hfill.2.2.le
        have hsum : (b.size + n.size).toNat = b.size.toNat + n.size.toNat :=
          BitVec.toNat_add_of_lt (by omega)
        refine ⟨{ b with size := b.size + n.size, isFree := true }, post, if_pos hn, rfl, ?_, ?_⟩
        · refine ⟨hfill.1, ?_⟩
          show Fills (lo + (b.size + n.size).toNat) hi post
          rw [hsum, ← Nat.add_assoc]
          exact hfill.2.2
        · cases post with
          | nil => exact .singleton _
          | cons q post =>
              obtain ⟨hnq, hrest⟩ := List.isChain_cons_cons.1 hchain.2
              have hq : q.isFree = false := hnq.2.resolve_left (by simp [hn])
              refine List.isChain_cons_cons.2 ⟨⟨?_, .inr hq⟩, hrest⟩
              have hpos := hchain.1.1
              show 0 < (b.size + n.size).toNat
              omega
      · refine ⟨{ b with isFree := true }, n :: post, if_neg hn, rfl, hfill, ?_⟩
        exact List.isChain_cons_cons.2 ⟨⟨hchain.1.1, .inr (by simpa using hn)⟩, hchain.2⟩

theorem tiled_mergePrev {c : DirectMemBlock} {rest : List DirectMemBlock}
    (hfill : Fills 0 total.toNat (pre ++ c :: rest)) (hfree : c.isFree = true)
    (hpre : pre.IsChain Next) (hrest : (c :: rest).IsChain Next)
    (hpos : ∀ p ∈ pre.getLast?, 0 < p.size.toNat) : Tiled total (mergePrev pre (c :: rest)) := by
  cases hlast : pre.getLast? with
  | none =>
      obtain rfl := List.getLast?_eq_none_iff.1 hlast
      exact ⟨hfill, hrest⟩
  | some p =>
      have hp : 0 < p.size.toNat := hpos p hlast
      by_cases hpf : p.isFree = true
      · have heq : mergePrev pre (c :: rest) =
            pre.dropLast ++ { p with size := p.size + c.size } :: rest := by
          unfold mergePrev
          rw [hlast]
          exact if_pos hpf
        rw [heq]
        rw [← List.dropLast_append_getLast? p hlast] at hfill hpre
        rw [List.append_assoc] at hfill
        obtain ⟨mid, hfpre, hlo, hfc⟩ := tiles_append.1 hfill
        obtain ⟨hinit, -, hseam⟩ := List.isChain_append.1 hpre
        have hle : mid + p.size.toNat + c.size.toNat ≤ total.toNat := hfc.2.le
        have hbound := total.isLt
        have hsum : (p.size + c.size).toNat = p.size.toNat + c.size.toNat :=
          BitVec.toNat_add_of_lt (by omega)
        constructor
        · refine tiles_append.2 ⟨mid, hfpre, hlo, ?_⟩
          show Fills (mid + (p.size + c.size).toNat) total.toNat rest
          rw [hsum, ← Nat.add_assoc]
          exact hfc.2
        · refine List.isChain_append.2 ⟨hinit, ?_, fun q hq y hy => ?_⟩
          · cases rest with
            | nil => exact .singleton _
            | cons r rest =>
                obtain ⟨hcr, hrest⟩ := List.isChain_cons_cons.1 hrest
                have hr : r.isFree = false := hcr.2.resolve_left (by simp [hfree])
                refine List.isChain_cons_cons.2 ⟨⟨?_, .inr hr⟩, hrest⟩
                show 0 < (p.size + c.size).toNat
                omega
          · cases hy
            exact hseam q hq p rfl
      · have heq : mergePrev pre (c :: rest) = pre ++ c :: rest := by
          unfold mergePrev
          rw [hlast]
          exact if_neg hpf
        rw [heq]
        refine ⟨hfill, List.isChain_append.2 ⟨hpre, hrest, fun q hq y _ => ?_⟩⟩
        rw [hlast] at hq
        cases hq
        exact ⟨hp, .inl (by simpa using hpf)⟩

/-- A block of a tiled list made free and joined with its neighbours. -/
theorem tiled_release (h : Tiled total (pre ++ b :: post)) :
    Tiled total (mergePrev pre (mergeNext { b with isFree := true } post)) := by
  obtain ⟨mid, hpre, hfill⟩ := tiles_append.1 h.fills
  obtain ⟨hcpre, hcpost, hseam⟩ := List.isChain_append.1 h.chain
  obtain ⟨c, rest, heq, hfree, hfc, hchain⟩ := mergeNext_spec total.isLt hfill hcpost
  rw [heq]
  exact tiled_mergePrev (tiles_append.2 ⟨mid, hpre, hfc⟩) hfree hcpre hchain
    fun p hp => (hseam p hp b rfl).1

/-! ### the operations keep the invariant -/

/-- The arguments pass the checks before the search. -/
structure Passes (searchStart searchEnd length alignment : BitVec 64) : Prop where
  length_ne : length ≠ 0
  start_nonneg : 0 ≤ searchStart.toInt
  end_nonneg : 0 ≤ searchEnd.toInt
  range : searchStart.toInt < searchEnd.toInt
  room : alignUp length (alignmentOf alignment) ≤ searchEnd - searchStart

/-- The length of an allocation does not round up to 0, and no candidate range wraps. -/
structure Fits (searchStart length alignment : BitVec 64) (blocks : List DirectMemBlock) : Prop where
  rounds : alignUp length (alignmentOf alignment) ≠ 0
  noWrap : ∀ b ∈ blocks, b.isFree = true →
    fromOf searchStart b ≤ candidate searchStart (alignmentOf alignment) b →
    (candidate searchStart (alignmentOf alignment) b).toNat +
      (alignUp length (alignmentOf alignment)).toNat < 2 ^ 64

/-- What an operation needs of its arguments in a state. -/
def Admits (dflt : BitVec 64) (m : DirectMem) : DirectMemOp → Prop
  | .allocate ci _ a z n al => Passes a z n al → Fits a n al (m.init dflt ci).blocks
  | .allocateMain ci _ n al =>
      Passes 0 (m.total dflt) n al → Fits 0 n al (m.init dflt ci).blocks
  | _ => True

/-- An allocation fails without a change to the list, or splits a free block. -/
theorem allocate_cases (dflt : BitVec 64) (ci cs : Bool) (a z n al : BitVec 64) (m : DirectMem) :
    (m.allocate dflt ci cs a z n al).1 = m ∨
    (m.allocate dflt ci cs a z n al).1 = m.init dflt ci ∨
    (Passes a z n al ∧ ∃ pre b post start,
      findFit a z (alignUp n (alignmentOf al)) (alignmentOf al) (m.init dflt ci).blocks =
        some (pre, b, post, start) ∧
      (m.allocate dflt ci cs a z n al).1 =
        { m.init dflt ci with blocks := pre ++ split (alignUp n (alignmentOf al)) start b ++ post }) := by
  unfold allocate
  by_cases h1 : n = 0 ∨ a.toInt < 0 ∨ z.toInt < 0
  · exact .inl (by rw [if_pos h1])
  · rw [if_neg h1]
    dsimp only
    by_cases h2 : z.toInt ≤ a.toInt ∨ z - a < alignUp n (alignmentOf al)
    · exact .inl (by rw [if_pos h2])
    · rw [if_neg h2]
      cases hfit : findFit a z (alignUp n (alignmentOf al)) (alignmentOf al)
          (m.init dflt ci).blocks with
      | none => exact .inr (.inl rfl)
      | some r =>
          obtain ⟨pre, b, post, start⟩ := r
          dsimp only
          split
          · exact .inr (.inl rfl)
          · simp only [not_or, not_lt, not_le, BitVec.not_lt] at h1 h2
            exact .inr (.inr ⟨⟨h1.1, h1.2.1, h1.2.2, h2.1, h2.2⟩, pre, b, post, start, rfl, rfl⟩)

theorem init_inited_of_blocks (ci : Bool) (h : Inv dflt m) (hne : (m.init dflt ci).blocks ≠ []) :
    (m.init dflt ci).inited = true := by
  have hinv := inv_init ci h
  unfold Inv at hinv
  by_contra hin
  rw [if_neg hin] at hinv
  exact hne hinv

theorem inv_allocate (ci cs : Bool) (a z n al : BitVec 64) (h : Inv dflt m)
    (hadm : Passes a z n al → Fits a n al (m.init dflt ci).blocks) : Inv dflt (m.allocate dflt ci cs a z n al).1 := by
  rcases allocate_cases dflt ci cs a z n al m with heq | heq | ⟨hpass, pre, b, post, start, hfit, heq⟩
  · rw [heq]
    exact h
  · rw [heq]
    exact inv_init ci h
  · obtain ⟨hl, hfree, hstart, hfrom, hend⟩ := findFit_spec hfit
    have hfits := hadm hpass
    have hmem : b ∈ (m.init dflt ci).blocks := by
      rw [hl]
      simp
    have hin := init_inited_of_blocks ci h (List.ne_nil_of_mem hmem)
    have htiled : Tiled ((m.init dflt ci).total dflt) (m.init dflt ci).blocks := by
      have hinv := inv_init ci h
      unfold Inv at hinv
      rwa [if_pos hin] at hinv
    have hlen : 0 < (alignUp n (alignmentOf al)).toNat := by
      rw [Nat.pos_iff_ne_zero]
      exact fun hz => hfits.rounds (BitVec.eq_of_toNat_eq hz)
    have hle : b.physOffset ≤ start := BitVec.le_trans (le_fromOf a b) hfrom
    have hwrap := hfits.noWrap b hmem hfree (hstart ▸ hfrom)
    rw [heq]
    unfold Inv
    rw [if_pos hin]
    rw [hl] at htiled
    exact tiled_split htiled hfree hlen (hstart ▸ hwrap) hle hend

/-- A release fails, or frees the first allocated block of its address. -/
theorem release_cases (dflt : BitVec 64) (calloc : Bool) (addr : BitVec 64) (m : DirectMem) :
    (m.release dflt calloc addr).1 = m.init dflt calloc ∨
    ∃ pre b post, (m.init dflt calloc).blocks = pre ++ b :: post ∧ b.isFree = false ∧
      b.physOffset = addr ∧
      (m.release dflt calloc addr).1 =
        { m.init dflt calloc with
          blocks := mergePrev pre (mergeNext { b with isFree := true } post) } := by
  unfold release
  cases hs : firstSplit (fun b => !b.isFree && b.physOffset == addr)
      (m.init dflt calloc).blocks with
  | none => exact .inl (by dsimp only; rw [hs])
  | some r =>
      obtain ⟨pre, b, post⟩ := r
      obtain ⟨heq, hb⟩ := firstSplit_eq_some hs
      rw [Bool.and_eq_true, Bool.not_eq_true', beq_iff_eq] at hb
      exact .inr ⟨pre, b, post, heq, hb.1, hb.2, by dsimp only; rw [hs]⟩

theorem inv_release (calloc : Bool) (addr : BitVec 64) (h : Inv dflt m) :
    Inv dflt (m.release dflt calloc addr).1 := by
  rcases release_cases dflt calloc addr m with heq | ⟨pre, b, post, hl, -, -, heq⟩
  · rw [heq]
    exact inv_init calloc h
  · have hin := init_inited_of_blocks calloc h (by simp [hl])
    have hinv := inv_init calloc h
    unfold Inv at hinv ⊢
    rw [if_pos hin, hl] at hinv
    rw [heq, if_pos hin]
    exact tiled_release hinv

/-- **Step.**  An operation that its state admits keeps the invariant. -/
theorem inv_apply {op : DirectMemOp} (h : Inv dflt m) (hadm : Admits dflt m op) :
    Inv dflt (m.apply dflt op) := by
  cases op with
  | init c => exact inv_init c h
  | configure t => exact inv_configure t h
  | allocate ci cs a z n al => exact inv_allocate ci cs a z n al h hadm
  | allocateMain ci cs n al => exact inv_allocate ci cs 0 (m.total dflt) n al h hadm
  | release c a => exact inv_release c a h

/-- **Runs.** -/
theorem inv_reachable (h : Reachable ((directMemSystem dflt).restrict (Admits dflt)) m) :
    Inv dflt m := by
  refine h.invariant ?_ ?_
  · intro s hs
    have heq : s = {} := hs
    rw [heq]
    rfl
  · intro s op s' _ hinv hstep
    obtain ⟨hadm, heq⟩ := hstep
    have hs' : s' = s.apply dflt op := heq
    rw [hs']
    exact inv_apply hinv hadm

/-! ### allocated blocks stay -/

theorem mem_init (dflt : BitVec 64) (calloc : Bool) (hin : m.inited = true ∨ m.blocks = []) (hb : b ∈ m.blocks) :
    b ∈ (m.init dflt calloc).blocks := by
  have hi : m.inited = true := hin.resolve_right (List.ne_nil_of_mem hb)
  unfold init
  rw [if_pos hi]
  exact hb

theorem mem_resizeLast {oldTotal newTotal : BitVec 64} {l' : List DirectMemBlock}
    (hl : resizeLast oldTotal newTotal l = some l') (hb : b ∈ l) (halloc : b.isFree = false) :
    b ∈ l' := by
  unfold resizeLast at hl
  split at hl
  · rename_i last hlast
    split at hl
    · rename_i hcond
      cases hl
      rw [← List.dropLast_append_getLast? last hlast, List.mem_append] at hb
      rcases hb with hb | hb
      · exact List.mem_append_left _ hb
      · obtain rfl := List.mem_singleton.1 hb
        rw [hcond.1] at halloc
        cases halloc
    · cases hl
  · cases hl

theorem mem_mergeNext (hb : b ∈ post) (halloc : b.isFree = false) (c : DirectMemBlock) :
    b ∈ (mergeNext c post).tail := by
  unfold mergeNext
  cases post with
  | nil => cases hb
  | cons n post =>
      dsimp only
      split
      · rename_i hn
        rcases List.mem_cons.1 hb with rfl | hb
        · rw [hn] at halloc
          cases halloc
        · exact hb
      · exact hb

theorem mem_mergePrev {rest : List DirectMemBlock} (hb : b ∈ pre ++ rest.tail)
    (halloc : b.isFree = false) : b ∈ mergePrev pre rest := by
  unfold mergePrev
  split
  · rename_i p c rest hlast
    split
    · rename_i hp
      rw [← List.dropLast_append_getLast? p hlast] at hb
      rcases List.mem_append.1 hb with hb | hb
      · rcases List.mem_append.1 hb with hb | hb
        · exact List.mem_append_left _ hb
        · obtain rfl := List.mem_singleton.1 hb
          rw [hp] at halloc
          cases halloc
      · exact List.mem_append_right _ (List.mem_cons_of_mem _ hb)
    · rcases List.mem_append.1 hb with hb | hb
      · exact List.mem_append_left _ hb
      · exact List.mem_append_right _ (List.mem_cons_of_mem _ hb)
  · rcases List.mem_append.1 hb with hb | hb
    · exact List.mem_append_left _ hb
    · exact List.mem_append_right _ (List.mem_of_mem_tail hb)

/-- **Frame.**  An operation that does not release an allocated block's address leaves the block. -/
theorem mem_apply {op : DirectMemOp} (h : Inv dflt m) (hb : b ∈ m.blocks)
    (halloc : b.isFree = false) (hop : ∀ c, op ≠ .release c b.physOffset) :
    b ∈ (m.apply dflt op).blocks := by
  have hin : m.inited = true ∨ m.blocks = [] := by
    unfold Inv at h
    by_cases hi : m.inited = true
    · exact .inl hi
    · rw [if_neg hi] at h
      exact .inr h
  have hallocate : ∀ ci cs a z n al, b ∈ (m.allocate dflt ci cs a z n al).1.blocks := by
    intro ci cs a z n al
    have hmem := mem_init dflt ci hin hb
    rcases allocate_cases dflt ci cs a z n al m with heq | heq | ⟨-, pre, c, post, start, hfit, heq⟩
    · rw [heq]
      exact hb
    · rw [heq]
      exact hmem
    · obtain ⟨hl, hfree, -⟩ := findFit_spec hfit
      rw [heq]
      rw [hl] at hmem
      show b ∈ pre ++ split _ start c ++ post
      rcases List.mem_append.1 hmem with hpre | hrest
      · exact List.mem_append_left _ (List.mem_append_left _ hpre)
      · rcases List.mem_cons.1 hrest with rfl | hpost
        · rw [hfree] at halloc
          cases halloc
        · exact List.mem_append_right _ hpost
  cases op with
  | init c => exact mem_init dflt c hin hb
  | configure t =>
      show b ∈ (m.configure dflt t).blocks
      unfold configure
      dsimp only
      split
      · cases hr : resizeLast (m.total dflt) t m.blocks with
        | none => exact hb
        | some l' => exact mem_resizeLast hr hb halloc
      · exact hb
  | allocate ci cs a z n al => exact hallocate ci cs a z n al
  | allocateMain ci cs n al => exact hallocate ci cs 0 (m.total dflt) n al
  | release c a =>
      have hmem := mem_init dflt c hin hb
      show b ∈ (m.release dflt c a).1.blocks
      rcases release_cases dflt c a m with heq | ⟨pre, d, post, hl, -, haddr, heq⟩
      · rw [heq]
        exact hmem
      · rw [heq]
        rw [hl] at hmem
        refine mem_mergePrev ?_ halloc
        rcases List.mem_append.1 hmem with hpre | hrest
        · exact List.mem_append_left _ hpre
        · rcases List.mem_cons.1 hrest with rfl | hpost
          · exact absurd rfl (haddr ▸ hop c)
          · exact List.mem_append_right _ (mem_mergeNext hpost halloc _)

/-! ### the condition on an allocation -/

theorem alignUp_and (x a : BitVec 64) : alignUp x a &&& (a - 1) = 0 := by
  unfold alignUp
  ext i
  simp

/-- While direct memory is at most `2 ^ 63` bytes, no candidate range of a free block wraps: the
condition on an allocation is the one on its length. -/
theorem fits_of_rounds {searchStart searchEnd length alignment : BitVec 64} (h : Tiled total l)
    (htotal : total.toNat ≤ 2 ^ 63) (hpass : Passes searchStart searchEnd length alignment)
    (hrounds : alignUp length (alignmentOf alignment) ≠ 0) : Fits searchStart length alignment l := by
  have hlt : 2 * searchStart.toNat < 2 ^ 64 := BitVec.toInt_pos_iff.1 hpass.start_nonneg
  have hlength : (alignUp length (alignmentOf alignment)).toNat < 2 ^ 63 := by
    have hend : 2 * searchEnd.toNat < 2 ^ 64 := BitVec.toInt_pos_iff.1 hpass.end_nonneg
    have hrange := hpass.range
    rw [BitVec.toInt_eq_toNat_of_lt hlt, BitVec.toInt_eq_toNat_of_lt hend] at hrange
    have hroom := hpass.room
    rw [BitVec.le_def, BitVec.toNat_sub_of_le (by rw [BitVec.le_def]; omega)] at hroom
    omega
  refine ⟨hrounds, fun b hb _ _ => ?_⟩
  have hfrom : (fromOf searchStart b).toNat ≤ 2 ^ 63 := by
    have hbound := h.fills.bounds hb
    unfold fromOf
    split
    · omega
    · omega
  unfold candidate
  generalize alignmentOf alignment = a at *
  have hstart := BitVec.toNat_add_of_and_eq_zero (alignUp_and (fromOf searchStart b) a)
  have hlen := BitVec.toNat_add_of_and_eq_zero (alignUp_and length a)
  have hle : (alignUp (fromOf searchStart b) a).toNat ≤ (fromOf searchStart b + (a - 1)).toNat := by
    unfold alignUp
    rw [BitVec.toNat_and, add_sub_assoc]
    exact Nat.and_le_left
  have hsum := (alignUp (fromOf searchStart b) a + (a - 1)).isLt
  by_cases hsmall : (alignUp (fromOf searchStart b) a).toNat < 2 ^ 63
  · omega
  · -- the mask is below `2 ^ 63`, and the length and the mask have no bit in common
    have hmask : (a - 1).toNat < 2 ^ 63 := by omega
    rw [BitVec.toNat_add_of_lt (by omega)] at hle
    have hor : (alignUp length a).toNat + (a - 1).toNat < 2 ^ 63 := by
      rw [← hlen, BitVec.add_eq_or_of_and_eq_zero _ _ (alignUp_and length a), BitVec.toNat_or]
      exact Nat.or_lt_two_pow hlength hmask
    omega

/-! ### the block list of every run -/

/-- The list is strictly ordered by address and contiguous, its blocks cover exactly `[0, total)`,
and no two neighbours are free. -/
structure WellFormed (total : BitVec 64) (l : List DirectMemBlock) : Prop where
  ordered : l.Pairwise fun a b => a.physOffset < b.physOffset
  contiguous : l.IsChain fun a b => b.physOffset.toNat = a.physOffset.toNat + a.size.toNat
  covers : ∀ x : ℕ, x < total.toNat ↔
    ∃ b ∈ l, b.physOffset.toNat ≤ x ∧ x < b.physOffset.toNat + b.size.toNat
  noFreePair : l.IsChain fun a b => a.isFree = false ∨ b.isFree = false

theorem Tiled.wellFormed (h : Tiled total l) : WellFormed total l where
  ordered := by
    have hstart := h.fills.pairwise_start (h.chain.imp fun _ _ hab => hab.1)
    exact hstart.imp fun hab => BitVec.lt_def.2 hab
  contiguous := h.fills.isChain
  covers x := by
    constructor
    · exact fun hx => h.fills.covers x (Nat.zero_le x) hx
    · rintro ⟨b, hb, -, hx⟩
      exact Nat.lt_of_lt_of_le hx (h.fills.bounds hb).2
  noFreePair := h.chain.imp fun _ _ hab => hab.2

/-- **Direct memory.**  In runs whose allocations all meet the condition the list is well formed, and
every operation leaves the allocated blocks it does not release. -/
theorem directMem_tiled (h : Reachable ((directMemSystem dflt).restrict (Admits dflt)) m) :
    (m.inited = true → WellFormed (m.total dflt) m.blocks) ∧
      ∀ op, ∀ b ∈ m.blocks, b.isFree = false → (∀ c, op ≠ .release c b.physOffset) →
        b ∈ (m.apply dflt op).blocks := by
  have hinv := inv_reachable h
  constructor
  · intro hin
    unfold Inv at hinv
    rw [if_pos hin] at hinv
    exact hinv.wellFormed
  · exact fun op b hb halloc hop => mem_apply hinv hb halloc hop

/-- The state after an allocation of one page. -/
theorem directMem_tiled_page :
    WellFormed 0x40000000
      [{ physOffset := 0, size := 0x1000, isFree := false },
        { physOffset := 0x1000, size := 0x3ffff000, isFree := true }] := by
  let made := ({} : DirectMem).apply 0x40000000 (.init true)
  let page : DirectMemOp := .allocate true true 0 0x100000 0x1000 0
  have hinit : Admits 0x40000000 {} (.init true) := trivial
  have hmade : Reachable ((directMemSystem 0x40000000).restrict (Admits 0x40000000)) made :=
    .step (.init rfl) ⟨hinit, rfl⟩
  have htiled : Tiled 0x40000000 made.blocks := by
    have hempty : Inv 0x40000000 {} := rfl
    exact inv_init true hempty
  have hadm : Admits 0x40000000 made page :=
    fun hpass => fits_of_rounds htiled (by decide) hpass (by decide)
  have hpage : Reachable ((directMemSystem 0x40000000).restrict (Admits 0x40000000))
      (made.apply 0x40000000 page) := .step hmade ⟨hadm, rfl⟩
  exact (directMem_tiled hpage).1 rfl

/-- An allocation of `2 ^ 64 - 1` bytes leaves an empty block at the address of the next one. -/
theorem directMem_untiled :
    ¬ ∀ (dflt : BitVec 64) (m : DirectMem), Reachable (directMemSystem dflt) m → m.inited = true →
      WellFormed (m.total dflt) m.blocks := by
  intro h
  have hreach : Reachable (directMemSystem 0x40000000)
      (({} : DirectMem).apply 0x40000000 (.allocate true true 0 0x100000 (-1) 0)) :=
    .step (.init rfl) rfl
  have hordered := (h _ _ hreach rfl).ordered
  have hlt := List.rel_of_pairwise_cons hordered (List.mem_cons_self)
  exact absurd hlt (by decide)

end DirectMem

end PS4Recomp.Runtime
