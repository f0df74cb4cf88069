import PS4Recomp.Runtime.MapDirect
import PS4Recomp.Runtime.VmProtect

/-!
# Batch mapping

`sceKernelBatchMap` of `ps4_direct_mem.c`: a list of mappings, unmappings and protection changes, up
to the first that fails.

* `BatchMapEntry`, `BatchCalls`, `BatchEnv`, `BatchMem` — an entry, the host calls made for it, the
  process, and its memory;
* `placeExtent`, `sceKernelMapNamedFlexibleMemory`, `BatchMem.free`, `batchFixedResult` — the parts of
  the operations, `batchEntry`, `batchLoop`, `sceKernelBatchMap`;
* `onUnmap_bare`, `onUnmap_alias` — an unmapping over addresses that only one alias has;
* `Placed`, `placeExtent_placed` — a mapping that the searches make;
* `SameView` — memories that say the same about every address;
* `Undone`, `undo_iff` — when the undo step takes a mapping back, and nothing else;
* `TakesBack` — the condition on an entry, `batchEntry_spec` — what an entry does;
* `Succeeded`, `BatchExact` — the entries that succeed, and a call that has their effects only;
* **`batchMap_exact`** — a call is exact exactly when every entry that is reached meets the condition;
* `batchMap_stray` — 48 KiB stay mapped for an entry of 16 KiB that fails.

`vm_mutex` is not modelled: the calls of one batch follow each other. The pages themselves and the
texts printed are left out.
-/

namespace PS4Recomp.Runtime

open Library DirectMem DirectMapping

/-! ### the operations -/

/-- `OrbisKernelBatchMapEntry`. -/
structure BatchMapEntry where
  start : BitVec 64
  offset : BitVec 64 := 0
  length : BitVec 64
  protection : BitVec 8 := 0
  type : BitVec 8 := 0
  operation : BitVec 32
  deriving DecidableEq

/-- What the calls to the host come to for an entry: those of a mapping, `calloc` for the splits at the
ends of a range, `malloc` for the ranges noted and `calloc` for the tails of direct mappings. -/
structure BatchCalls where
  map : MapCalls
  callocStart : Bool := true
  callocStop : Bool := true
  malloc : Bool := true
  callocTail : Bool := true

/-- What does not change: the default size of direct memory, the size of guest memory, and
`g_phys_size` where there is physical memory. -/
structure BatchEnv where
  dflt : BitVec 64
  memSize : BitVec 64
  physSize : Option (BitVec 64)

/-- The memory that the entries change. -/
structure BatchMem where
  direct : DirectMem
  extents : List GuestVMExtent
  dmaps : List DirectMapping

/-- A mapping at the address that is asked for, where that can be done, or anywhere. -/
def placeExtent (c : MapCalls) (memSize addrIn len alignment : BitVec 64) (prot flags : BitVec 32)
    (name : Option (List Char)) (l : List GuestVMExtent) : List GuestVMExtent × Option GuestVMExtent :=
  let fixed :=
    if addrIn ≠ 0 then recompVmAllocFixed memSize c.fixedPrefix c.fixedSplit addrIn len prot flags name l
    else (l, none)
  if fixed.2.isSome then fixed
  else recompVmAllocNamedAligned c.alignedPrefix c.alignedSplit len alignment prot flags name fixed.1

theorem mapExtent_eq (c : MapCalls) (memSize addrIn len alignment : BitVec 64) (prot flags : BitVec 32)
    (l : List GuestVMExtent) : mapExtent c memSize addrIn len alignment prot flags l =
      placeExtent c memSize addrIn len alignment prot flags directName l := by
  show _ = if (mapFixed c memSize addrIn len prot flags l).2.isSome then
      mapFixed c memSize addrIn len prot flags l
    else recompVmAllocNamedAligned c.alignedPrefix c.alignedSplit len alignment prot flags directName
      (mapFixed c memSize addrIn len prot flags l).1
  rw [mapExtent]
  split
  · rename_i l' m heq
    rw [heq]
    rfl
  · rename_i l' heq
    rw [heq]
    rfl

/-- `"anon"`. -/
def anonName : Option (List Char) := some "anon".toList

/-- `sceKernelMapNamedFlexibleMemory`, the name being `"anon"`. -/
def sceKernelMapNamedFlexibleMemory (c : MapCalls) (memSize addrIn length : BitVec 64)
    (prot flags : BitVec 32) (l : List GuestVMExtent) :
    List GuestVMExtent × Except (BitVec 32) (BitVec 64) :=
  if length = 0 then (l, .error 0x80020016)
  else
    let r := placeExtent c memSize addrIn (alignUp length 65536) 65536 prot flags anonName l
    (r.1, (r.2.map GuestVMExtent.addr).elim (.error 0x8002000c) .ok)

/-- The direct mappings taken off the ranges that `recomp_vm_free` has noted. -/
def unmapRanges (calloc : Bool) (ranges : List VmRange) (dmaps : List DirectMapping) :
    List DirectMapping :=
  ranges.foldl (fun d r => onUnmap calloc r.addr r.size d) dmaps

/-- `recomp_vm_free`. -/
def BatchMem.free (c : BatchCalls) (addr size : BitVec 64) (s : BatchMem) : BatchMem × BitVec 32 :=
  match freeBegin c.callocStart c.callocStop c.malloc addr size s.extents with
  | (l, .inl result) => ({ s with extents := l }, result)
  | (l, .inr p) =>
      ({ s with extents := freeEnd p l, dmaps := unmapRanges c.callocTail p.ranges s.dmaps }, 0)

/-- `batch_fixed_result`: the memory, the result and the address. -/
def batchFixedResult (c : BatchCalls) (result : Except (BitVec 32) (BitVec 64))
    (requested length : BitVec 64) (s : BatchMem) : BatchMem × Except (BitVec 32) (BitVec 64) :=
  match result with
  | .error code => (s, .error code)
  | .ok mapped =>
      if requested = 0 ∨ mapped = requested then (s, .ok mapped)
      else ((s.free c mapped length).1, .error 0x8002000c)

/-- An `int` that is 0 for success. -/
def resultOf (start : BitVec 64) (code : BitVec 32) : Except (BitVec 32) (BitVec 64) :=
  if code = 0 then .ok start else .error code

/-- `MAP_FIXED`. -/
def kFlagsMapFixed : BitVec 32 := 0x10

/-- `sceKernelMapDirectMemory` on the memory. -/
def BatchMem.mapDirect (env : BatchEnv) (c : BatchCalls) (e : BatchMapEntry) (s : BatchMem) :
    BatchMem × Except (BitVec 32) (BitVec 64) :=
  let done := sceKernelMapDirectMemory c.map env.dflt env.memSize env.physSize e.start e.length
    (e.protection.setWidth 32) kFlagsMapFixed e.offset 0 s.direct s.extents s.dmaps
  ({ direct := done.mem, extents := done.extents, dmaps := done.dmaps }, done.result)

/-- `sceKernelMapNamedFlexibleMemory` on the memory. -/
def BatchMem.mapFlexible (env : BatchEnv) (c : BatchCalls) (e : BatchMapEntry) (s : BatchMem) :
    BatchMem × Except (BitVec 32) (BitVec 64) :=
  let done := sceKernelMapNamedFlexibleMemory c.map env.memSize e.start e.length
    (e.protection.setWidth 32) kFlagsMapFixed s.extents
  ({ s with extents := done.1 }, done.2)

/-- A mapping made for an entry, and what `batch_fixed_result` makes of it. -/
def fixedEntry (c : BatchCalls) (e : BatchMapEntry) (done : BatchMem × Except (BitVec 32) (BitVec 64)) :
    BatchMem × Except (BitVec 32) (BitVec 64) :=
  batchFixedResult c done.2 e.start e.length done.1

/-- The body of the loop for an entry, `none` where there is no array: the memory, and the address for
`start` or the error. -/
def batchEntry (env : BatchEnv) (c : BatchCalls) (e : Option BatchMapEntry) (s : BatchMem) :
    BatchMem × Except (BitVec 32) (BitVec 64) :=
  match e with
  | none => (s, .error 0x80020016)
  | some e =>
      if e.length = 0 ∨ 4 < e.operation then (s, .error 0x80020016)
      else
        let prot := e.protection.setWidth 32
        if e.operation = 0 then fixedEntry c e (s.mapDirect env c e)
        else if e.operation = 1 then
          let done := s.free c e.start e.length
          (done.1, resultOf e.start (if done.2 = 0 then 0 else 0x80020016))
        else if e.operation = 2 then
          ({ s with extents := sceKernelMprotect e.start e.length prot s.extents }, .ok e.start)
        else if e.operation = 3 then fixedEntry c e (s.mapFlexible env c e)
        else
          ({ s with extents := sceKernelMtypeprotect env.memSize c.callocStart c.callocStop e.start
                      e.length (e.type.setWidth 32) prot s.extents },
            resultOf e.start (mtypeprotectCode env.memSize c.callocStart c.callocStop e.start e.length
              s.extents))

/-- The memory after a call, `*numEntriesOut`, the result and the entries. -/
structure BatchDone where
  mem : BatchMem
  processed : ℕ
  result : BitVec 32
  entries : List (Option BatchMapEntry)

/-- An entry whose mapping is at `addr`. -/
def BatchMapEntry.at (addr : BitVec 64) (e : BatchMapEntry) : BatchMapEntry := { e with start := addr }

/-- The loop; `calls i` are the host calls for entry `i`. -/
def batchLoop (env : BatchEnv) (calls : ℕ → BatchCalls) (i : ℕ) :
    List (Option BatchMapEntry) → BatchMem → BatchDone
  | [], s => { mem := s, processed := i, result := 0, entries := [] }
  | e :: es, s =>
      match batchEntry env (calls i) e s with
      | (s, .error code) => { mem := s, processed := i, result := code, entries := e :: es }
      | (s, .ok addr) =>
          let done := batchLoop env calls (i + 1) es s
          { done with entries := e.map (BatchMapEntry.at addr) :: done.entries }

/-- `entries ? &entries[i] : NULL` for the `i` of the loop. -/
def batchArray (entries : Option (List BatchMapEntry)) (numEntries : ℕ) : List (Option BatchMapEntry) :=
  match entries with
  | none => List.replicate numEntries none
  | some es => es.map some

/-- `sceKernelBatchMap`; an array has `numEntries` entries. -/
def sceKernelBatchMap (env : BatchEnv) (calls : ℕ → BatchCalls) (entries : Option (List BatchMapEntry))
    (numEntries : ℕ) (s : BatchMem) : BatchDone :=
  batchLoop env calls 0 (batchArray entries numEntries) s

/-! ### direct mappings -/

variable {calloc : Bool} {dmaps : List DirectMapping}

/-- Without the tails of splits, the walk leaves the same of a mapping that is not around the range. -/
theorem pieces_calloc {addr stop : BitVec 64} {m : DirectMapping}
    (h : ¬ (m.vaddr.toNat < addr.toNat ∧ stop.toNat < m.stop.toNat)) :
    pieces calloc addr stop m = pieces true addr stop m := by
  rw [pieces, pieces]
  by_cases hmiss : stop ≤ m.vaddr ∨ m.stop ≤ addr
  · rw [if_pos hmiss, if_pos hmiss]
  rw [if_neg hmiss, if_neg hmiss]
  have hsplit : ¬ (m.vaddr < m.ostart addr ∧ m.oend stop < m.stop) := by
    simp only [BitVec.lt_def, BitVec.le_def, ostart_toNat, oend_toNat] at hmiss ⊢
    omega
  rw [if_neg hsplit, if_neg hsplit]

theorem dmLookup_none {a : BitVec 64} : dmLookup a dmaps = none ↔ ∀ m ∈ dmaps, ¬ m.Has a := by
  induction dmaps with
  | nil => exact iff_of_true rfl fun m hm => by cases hm
  | cons m rest ih =>
      rw [dmLookup_cons, List.forall_mem_cons, ← ih]
      by_cases hin : m.Has a
      · rw [if_pos hin]
        exact iff_of_false (fun hc => by cases hc) fun hc => hc.1 hin
      · rw [if_neg hin, and_iff_right hin]

theorem physAt_none {a : BitVec 64} : physAt a dmaps = none ↔ dmLookup a dmaps = none :=
  Option.map_eq_none_iff

/-- What is left of a mapping has none of the addresses taken, and no address that it did not have. -/
theorem pieces_has {addr stop a : BitVec 64} {m c : DirectMapping} (hc : c ∈ pieces calloc addr stop m)
    (ha : c.Has a) : m.Has a ∧ ¬ (addr.toNat ≤ a.toNat ∧ a.toNat < stop.toNat) := by
  have hcases : c = m ∧ (stop ≤ m.vaddr ∨ m.stop ≤ addr) ∨
      ¬ (stop ≤ m.vaddr ∨ m.stop ≤ addr) ∧ (c = m.front addr ∨ c = m.back stop) := by
    rw [pieces] at hc
    by_cases hmiss : stop ≤ m.vaddr ∨ m.stop ≤ addr
    · rw [if_pos hmiss] at hc
      exact .inl ⟨List.mem_singleton.1 hc, hmiss⟩
    · rw [if_neg hmiss] at hc
      refine .inr ⟨hmiss, ?_⟩
      split at hc
      · split at hc
        · exact List.mem_pair.1 hc
        · exact .inl (List.mem_singleton.1 hc)
      · split at hc
        · exact .inl (List.mem_singleton.1 hc)
        · split at hc
          · exact .inr (List.mem_singleton.1 hc)
          · cases hc
  simp only [BitVec.le_def] at hcases
  rcases hcases with ⟨rfl, hmiss⟩ | ⟨hmiss, rfl | rfl⟩
  · rw [has_iff] at ha ⊢
    omega
  · rw [has_front] at ha
    rw [has_iff]
    omega
  · rw [has_back] at ha
    rw [has_iff]
    omega

theorem mem_unmapLoop {addr stop : BitVec 64} {c : DirectMapping}
    (hc : c ∈ unmapLoop calloc addr stop dmaps) : ∃ m ∈ dmaps, c ∈ pieces calloc addr stop m := by
  induction dmaps with
  | nil =>
      rw [unmapLoop] at hc
      cases hc
  | cons m rest ih =>
      rw [unmapLoop_cons, List.mem_append] at hc
      rcases hc with hc | hc
      · exact ⟨m, List.mem_cons_self, hc⟩
      · obtain ⟨d, hd, hcd⟩ := ih hc
        exact ⟨d, List.mem_cons_of_mem _ hd, hcd⟩

/-- Of the range nothing is found afterwards, and nothing new elsewhere. -/
theorem onUnmap_none {addr size a : BitVec 64}
    (h : dmLookup a dmaps = none ∨
      size ≠ 0 ∧ addr.toNat ≤ a.toNat ∧ a.toNat < (addr + size).toNat) :
    dmLookup a (onUnmap calloc addr size dmaps) = none := by
  rw [onUnmap]
  by_cases hzero : size = 0
  · rw [if_pos hzero]
    exact h.resolve_right fun hc => hc.1 hzero
  rw [if_neg hzero, dmLookup_none]
  intro c hc ha
  obtain ⟨m, hm, hpiece⟩ := mem_unmapLoop hc
  obtain ⟨hhas, hout⟩ := pieces_has hpiece ha
  rcases h with hnone | ⟨-, hrange⟩
  · exact dmLookup_none.1 hnone m hm hhas
  · exact hout hrange

/-- The addresses of a range that does not wrap. -/
def InRange (addr size a : BitVec 64) : Prop :=
  addr.toNat ≤ a.toNat ∧ a.toNat < addr.toNat + size.toNat

instance (addr size a : BitVec 64) : Decidable (InRange addr size a) := inferInstanceAs (Decidable (_ ∧ _))

/-- **A bare range.**  Where no mapping has an address of the range, the walk changes nothing. -/
theorem onUnmap_bare {addr size : BitVec 64} (hwrap : addr.toNat + size.toNat < 2 ^ 64)
    (hbare : ∀ a, InRange addr size a → dmLookup a dmaps = none) (a : BitVec 64) :
    physAt a (onUnmap calloc addr size dmaps) = physAt a dmaps := by
  by_cases hzero : size = 0
  · rw [onUnmap, if_pos hzero]
  have hpos : 0 < size.toNat := Nat.pos_of_ne_zero fun hz => hzero (BitVec.eq_of_toNat_eq hz)
  have hstop : (addr + size).toNat = addr.toNat + size.toNat := BitVec.toNat_add_of_lt hwrap
  have hnone : ∀ m ∈ dmaps, ¬ m.Has addr := dmLookup_none.1 (hbare addr ⟨Nat.le_refl _, by omega⟩)
  have hsame : ∀ {l : List DirectMapping}, (∀ m ∈ l, ¬ m.Has addr) →
      unmapLoop calloc addr (addr + size) l = unmapLoop true addr (addr + size) l := by
    intro l hl
    induction l with
    | nil => rw [unmapLoop, unmapLoop]
    | cons m rest ih =>
        have hm := hl m List.mem_cons_self
        rw [has_iff] at hm
        rw [unmapLoop_cons, unmapLoop_cons, ih fun d hd => hl d (List.mem_cons_of_mem _ hd),
          pieces_calloc (by omega)]
  have htrue : onUnmap calloc addr size dmaps = onUnmap true addr size dmaps := by
    rw [onUnmap, onUnmap, if_neg hzero, if_neg hzero, hsame hnone]
  rw [htrue]
  have hlookup := onUnmap_lookup dmaps hwrap a
  by_cases hin : InRange addr size a
  · rw [physAt_none.2 (hlookup.1 hin.1 hin.2), physAt_none.2 (hbare a hin)]
  · exact (hlookup.2 hin).1

/-- **An alias.**  Where only a new mapping that starts with the range has addresses of it, the rest of
that mapping stays. -/
theorem onUnmap_alias {addr size : BitVec 64} {m : DirectMapping}
    (hwrap : addr.toNat + size.toNat < 2 ^ 64) (hpos : size ≠ 0) (hstart : m.vaddr = addr)
    (hbare : ∀ a, InRange addr size a → dmLookup a dmaps = none) (a : BitVec 64) :
    physAt a (onUnmap calloc addr size (m :: dmaps)) =
      if m.Has a ∧ ¬ InRange addr size a then some (m.phys + (a - m.vaddr)) else physAt a dmaps := by
  have hstop : (addr + size).toNat = addr.toNat + size.toNat := BitVec.toNat_add_of_lt hwrap
  have hpos' : 0 < size.toNat := Nat.pos_of_ne_zero fun hz => hpos (BitVec.eq_of_toNat_eq hz)
  have hrest : ∀ {c : List DirectMapping}, onUnmap calloc addr size dmaps = c →
      onUnmap calloc addr size (m :: dmaps) = pieces true addr (addr + size) m ++ c := by
    intro c hc
    rw [onUnmap, if_neg hpos] at hc ⊢
    rw [unmapLoop_cons, hc, pieces_calloc (by rw [hstart]; omega)]
  have hbase : physAt a (onUnmap calloc addr size dmaps) = physAt a dmaps := onUnmap_bare hwrap hbare a
  rw [hrest rfl]
  by_cases hout : m.Has a ∧ ¬ InRange addr size a
  · rw [if_pos hout]
    have hrange : ¬ (addr.toNat ≤ a.toNat ∧ a.toNat < (addr + size).toNat) := by
      rw [hstop]
      exact hout.2
    obtain ⟨r, hr, hpart⟩ := pieces_left.outside (onUnmap calloc addr size dmaps) (by omega) hrange hout.1
    rw [physAt, hr, Option.map_some, hpart.phys, add_assoc, sub_add_sub_cancel']
    rfl
  · rw [if_neg hout, ← hbase, physAt, physAt]
    by_cases hin : m.Has a
    · have hrange : InRange addr size a := not_not.1 fun hc => hout ⟨hin, hc⟩
      rw [pieces_left.inside hrange.1 (by rw [hstop]; exact hrange.2)]
    · rw [pieces_left.elsewhere (by omega) hin]

theorem unmapRanges_bare {addr size : BitVec 64} {ranges : List VmRange}
    (hwrap : addr.toNat + size.toNat < 2 ^ 64)
    (hall : ∀ r ∈ ranges, r.size = 0 ∨ r = { addr, size })
    (hbare : ∀ a, InRange addr size a → dmLookup a dmaps = none) (a : BitVec 64) :
    physAt a (unmapRanges calloc ranges dmaps) = physAt a dmaps := by
  induction ranges generalizing dmaps with
  | nil => rfl
  | cons r rest ih =>
      have hrest := fun r hr => hall r (List.mem_cons_of_mem _ hr)
      show physAt a (unmapRanges calloc rest (onUnmap calloc r.addr r.size dmaps)) = _
      rcases hall r List.mem_cons_self with hzero | rfl
      · rw [onUnmap, if_pos hzero]
        exact ih hrest hbare
      · rw [ih hrest fun b hb => onUnmap_none (.inl (hbare b hb))]
        exact onUnmap_bare hwrap hbare a

theorem unmapRanges_once {addr size : BitVec 64} {ranges : List VmRange}
    (hwrap : addr.toNat + size.toNat < 2 ^ 64) (hpos : size ≠ 0)
    (hall : ∀ r ∈ ranges, r.size = 0 ∨ r = { addr, size }) (hmem : { addr, size } ∈ ranges)
    (a : BitVec 64) :
    physAt a (unmapRanges calloc ranges dmaps) = physAt a (onUnmap calloc addr size dmaps) := by
  have hstop : (addr + size).toNat = addr.toNat + size.toNat := BitVec.toNat_add_of_lt hwrap
  induction ranges with
  | nil => cases hmem
  | cons r rest ih =>
      have hrest := fun r hr => hall r (List.mem_cons_of_mem _ hr)
      show physAt a (unmapRanges calloc rest (onUnmap calloc r.addr r.size dmaps)) = _
      rcases hall r List.mem_cons_self with hzero | rfl
      · rw [onUnmap, if_pos hzero]
        refine ih hrest ((List.mem_cons.1 hmem).resolve_left fun heq => hpos ?_)
        rw [← hzero, ← heq]
      · refine unmapRanges_bare hwrap hrest (fun b hb => onUnmap_none (.inr ⟨hpos, hb.1, ?_⟩)) a
        rw [hstop]
        exact hb.2

/-! ### places -/

section Places

variable {M : ℕ} {l l' pre post : List GuestVMExtent} {e m : GuestVMExtent}

/-- A mapping made in a list, and the list with it. -/
structure Placed (M : ℕ) (len : BitVec 64) (name : Option (List Char)) (l l' : List GuestVMExtent)
    (m : GuestVMExtent) : Prop where
  apart : Apart M l'
  mem : m ∈ l'
  mapped : m.isFree = false ∧ m.name = extentName name
  size : len.toNat ≤ m.size.toNat ∧ 0 < m.size.toNat
  aligned : pageDown m.addr = m.addr
  source : ∃ e ∈ l, (e.isFree = true ∨ strstr e.name "reserved".toList = true) ∧ ∀ x, m.Has x → e.Has x
  outside : (∀ x, m.Has x → FreeAt l x) → ∀ x, ¬ m.Has x →
    (FreeAt l' x ↔ FreeAt l x) ∧ ∀ attrs, MappedAs l' x attrs ↔ MappedAs l x attrs

theorem carve_placed {cp cs : Bool} {start len len' : BitVec 64} {prot flags : BitVec 32}
    {name : Option (List Char)} {front back : List GuestVMExtent} (hM : M < 2 ^ 64)
    (h : Apart M (pre ++ e :: post)) (hside : e.isFree = true ∨ strstr e.name "reserved".toList = true)
    (hstart : e.addr.toNat ≤ start.toNat)
    (hend : start.toNat + len'.toNat ≤ e.addr.toNat + e.size.toNat)
    (hlen : len.toNat ≤ len'.toNat) (hpos : 0 < len'.toNat) (haligned : pageDown start = start)
    (hcarve : e.carve cp cs start len' prot flags name = some (front, m, back)) :
    Placed M len name (pre ++ e :: post) (pre ++ (front ++ m :: back) ++ post) m := by
  have htot := Nat.lt_of_le_of_lt h.middle hM
  have hmem : e ∈ pre ++ e :: post := List.mem_append_right _ List.mem_cons_self
  obtain ⟨hapart, hin, -⟩ := carve_apart hM h hstart hend hcarve
  obtain ⟨haddr, hmapped, hsize, htiles, -, -⟩ := carve_spec htot hstart hend hcarve
  have hparts := carve_parts htot hstart hend hcarve
  refine ⟨hapart, List.mem_append_left _ (List.mem_append_right _ (List.mem_append_right _
    List.mem_cons_self)), ⟨hmapped, hparts.attrs.2.1⟩, ⟨by omega, by omega⟩, by rw [haddr, haligned],
    ⟨e, hmem, hside, hin⟩, fun hfree x hx => ?_⟩
  have hm : m.Has m.addr.toNat := ⟨Nat.le_refl _, by omega⟩
  have hef : e.isFree = true := by
    by_contra hne
    exact h.not_freeAt hmem (Bool.eq_false_iff.2 hne) (hin _ hm) (hfree _ hm)
  have hempty : ∀ c ∈ front ++ back, c.isFree = true := by
    intro c hc
    rcases List.mem_append.1 hc with hc | hc
    · rw [((hparts.front c).1 hc).2]
      rfl
    · rw [((hparts.back c).1 hc).2]
      rfl
  have hcover : e.Has x ↔ ∃ c ∈ front ++ back, c.Has x := by
    constructor
    · intro hex
      obtain ⟨c, hc, hcx⟩ := htiles.covers x hex.1 hex.2
      rcases List.mem_append.1 hc with hc | hc
      · exact ⟨c, List.mem_append_left _ hc, hcx⟩
      · rcases List.mem_cons.1 hc with rfl | hc
        · exact absurd hcx hx
        · exact ⟨c, List.mem_append_right _ hc, hcx⟩
    · rintro ⟨c, hc, hcx⟩
      have hc' : c ∈ front ++ m :: back := by
        rcases List.mem_append.1 hc with hc | hc
        · exact List.mem_append_left _ hc
        · exact List.mem_append_right _ (List.mem_cons_of_mem _ hc)
      obtain ⟨hlo, hhi⟩ := htiles.bounds hc'
      exact ⟨Nat.le_trans hlo hcx.1, Nat.lt_of_lt_of_le hcx.2 hhi⟩
  have hfreeAt : FreeAt (front ++ back) x ↔ e.Has x :=
    ⟨fun ⟨c, hc, _, hcx⟩ => hcover.2 ⟨c, hc, hcx⟩, fun hex => by
      obtain ⟨c, hc, hcx⟩ := hcover.1 hex
      exact ⟨c, hc, hempty c hc, hcx⟩⟩
  have hmappedAs : ∀ attrs, ¬ MappedAs (front ++ back) x attrs := by
    intro attrs hmap
    obtain ⟨c, hc, hcf, -, -⟩ := hmap
    exact Bool.false_ne_true (hcf.symm.trans (hempty c hc))
  constructor
  · have hmid : FreeAt (front ++ m :: back) x ↔ e.isFree = true ∧ e.Has x := by
      have hm' : ¬ (m.isFree = true ∧ m.Has x) := fun hc => hx hc.2
      rw [and_iff_right hef, ← hfreeAt, freeAt_append, freeAt_cons, or_iff_right hm', freeAt_append]
    rw [freeAt_append, freeAt_append (l := pre), hmid, freeAt_append, freeAt_cons, or_assoc]
  · intro attrs
    have hmid : MappedAs (front ++ m :: back) x attrs ↔
        e.isFree = false ∧ e.Has x ∧ e.attrs = attrs := by
      have hm' : ¬ (m.isFree = false ∧ m.Has x ∧ m.attrs = attrs) := fun hc => hx hc.2.1
      have he' : ¬ (e.isFree = false ∧ e.Has x ∧ e.attrs = attrs) :=
        fun hc => Bool.false_ne_true (hc.1.symm.trans hef)
      rw [iff_false_right he', mappedAs_append, mappedAs_cons, or_iff_right hm', ← mappedAs_append]
      exact hmappedAs attrs
    rw [mappedAs_append, mappedAs_append (l := pre), hmid, mappedAs_append, mappedAs_cons, or_assoc]

theorem pageDown_of_dvd {x : BitVec 64} (h : 4096 ∣ x.toNat) : pageDown x = x := by
  refine BitVec.eq_of_toNat_eq ?_
  rw [pageDown, toNat_and_not_mask x (k := 12) rfl]
  exact Nat.div_mul_cancel h

theorem pageDown_idem (x : BitVec 64) : pageDown (pageDown x) = pageDown x := by
  refine pageDown_of_dvd ?_
  rw [pageDown, toNat_and_not_mask x (k := 12) rfl]
  exact Nat.dvd_mul_left _ _

theorem toNat_pageUp {x : BitVec 64} (h : x.toNat + 4095 < 2 ^ 64) :
    (pageUp x).toNat = roundUp x.toNat 4096 := by
  have hround := toNat_roundUp_word (x := x) (a := 4096) (k := 12) rfl
    (by rw [show (4096 : BitVec 64).toNat = 4096 from rfl]; omega)
  rw [add_sub_assoc] at hround
  exact hround

variable {c : MapCalls} {memSize addrIn len alignment : BitVec 64} {prot flags : BitVec 32}
  {name : Option (List Char)}

theorem allocFixed_placed {cp cs : Bool} (h : Apart memSize.toNat l)
    (hsmall : len.toNat + memSize.toNat + 0x20000 ≤ 2 ^ 64)
    (hdone : recompVmAllocFixed memSize cp cs addrIn len prot flags name l = (l', some m)) :
    Placed memSize.toNat len name l l' m := by
  rcases allocFixed_cases memSize cp cs addrIn len prot flags name l with
    heq | ⟨pre, e, post, front, cut, back, hfound, hsize, hnowrap, hcarve, heq⟩
  · rw [heq] at hdone
    cases hdone
  · rw [heq] at hdone
    cases hdone
    obtain ⟨rfl, hholds⟩ := firstSplit_eq_some hfound
    have htot : e.addr.toNat + e.size.toNat < 2 ^ 64 := Nat.lt_of_le_of_lt h.middle memSize.isLt
    simp only [GuestVMExtent.holds, Bool.and_eq_true, Bool.or_eq_true, decide_eq_true_eq] at hholds
    obtain ⟨⟨hside, hstart⟩, hend⟩ := hholds
    rw [BitVec.le_def] at hstart hend
    rw [toNat_stop htot, toNat_add_of_le hnowrap] at hend
    have hle : len.toNat ≤ (pageUp len).toNat := by
      rw [toNat_pageUp (by omega)]
      exact le_roundUp _ (by omega)
    have hpos : 0 < len.toNat := Nat.pos_of_ne_zero fun hz => hsize (BitVec.eq_of_toNat_eq hz)
    exact carve_placed memSize.isLt h hside hstart hend hle (by omega) (pageDown_idem _) hcarve

theorem allocAligned_placed {cp cs : Bool} {k : ℕ} (hk : alignment.toNat = 2 ^ k) (hlo : 12 ≤ k)
    (hhi : k ≤ 16) (h : Apart memSize.toNat l) (hsmall : len.toNat + memSize.toNat + 0x20000 ≤ 2 ^ 64)
    (hdone : recompVmAllocNamedAligned cp cs len alignment prot flags name l = (l', some m)) :
    Placed memSize.toNat len name l l' m := by
  have hle12 : 2 ^ 12 ≤ 2 ^ k := Nat.pow_le_pow_right (by omega) hlo
  have hle16 : 2 ^ k ≤ 2 ^ 16 := Nat.pow_le_pow_right (by omega) hhi
  have hal : vmAlignment alignment = alignment := by
    refine if_neg fun hlt => ?_
    have hlt' : alignment.toNat < 4096 := BitVec.lt_def.1 hlt
    omega
  rcases alloc_cases cp cs len alignment prot flags name l with
    heq | ⟨pre, e, post, front, cut, back, rfl, hsize, hfit, hcarve, heq⟩
  · rw [heq] at hdone
    cases hdone
  · rw [heq] at hdone
    cases hdone
    rw [hal] at hfit hcarve
    have hbound := h.middle
    have htot : e.addr.toNat + e.size.toNat < 2 ^ 64 := Nat.lt_of_le_of_lt hbound memSize.isLt
    simp only [GuestVMExtent.fits, Bool.and_eq_true, decide_eq_true_eq] at hfit
    obtain ⟨⟨hfree, hstart⟩, hend⟩ := hfit
    have hcand : (e.candidate alignment).toNat = roundUp e.addr.toNat (2 ^ k) := by
      rw [← hk]
      exact toNat_roundUp_word hk (by omega)
    have hlen : (alignUp len alignment).toNat = roundUp len.toNat (2 ^ k) := by
      rw [← hk]
      exact toNat_roundUp_word hk (by omega)
    have hcand_le := roundUp_le e.addr.toNat (2 ^ k)
    have hlen_le := roundUp_le len.toNat (2 ^ k)
    have hlen_ge := le_roundUp len.toNat (Nat.two_pow_pos k)
    have hpos : 0 < len.toNat := Nat.pos_of_ne_zero fun hz => hsize (BitVec.eq_of_toNat_eq hz)
    rw [BitVec.le_def] at hstart hend
    rw [toNat_stop htot, BitVec.toNat_add_of_lt (by omega)] at hend
    refine carve_placed memSize.isLt h (.inl hfree) hstart hend (by omega) (by omega) ?_ hcarve
    refine pageDown_of_dvd ?_
    rw [hcand]
    exact Nat.dvd_trans (Nat.pow_dvd_pow 2 hlo) (Nat.dvd_mul_left _ _)

theorem placeExtent_placed {k : ℕ} (hk : alignment.toNat = 2 ^ k) (hlo : 12 ≤ k) (hhi : k ≤ 16)
    (h : Apart memSize.toNat l) (hsmall : len.toNat + memSize.toNat + 0x20000 ≤ 2 ^ 64)
    (hdone : placeExtent c memSize addrIn len alignment prot flags name l = (l', some m)) :
    Placed memSize.toNat len name l l' m := by
  rw [placeExtent] at hdone
  by_cases haddr : addrIn ≠ 0
  · rw [if_pos haddr] at hdone
    rcases allocFixed_cases memSize c.fixedPrefix c.fixedSplit addrIn len prot flags name l with
      heq | ⟨_, _, _, _, cut, _, _, _, _, _, heq⟩
    · rw [heq] at hdone
      exact allocAligned_placed hk hlo hhi h hsmall hdone
    · rw [if_pos (by rw [heq]; rfl)] at hdone
      exact allocFixed_placed h hsmall hdone
  · rw [if_neg haddr] at hdone
    exact allocAligned_placed hk hlo hhi h hsmall hdone

theorem placeExtent_none (hnone : (placeExtent c memSize addrIn len alignment prot flags name l).2 = none) :
    (placeExtent c memSize addrIn len alignment prot flags name l).1 = l := by
  have haligned : ∀ cp cs, (recompVmAllocNamedAligned cp cs len alignment prot flags name l).2 = none →
      (recompVmAllocNamedAligned cp cs len alignment prot flags name l).1 = l := by
    intro cp cs hfail
    rcases alloc_cases cp cs len alignment prot flags name l with heq | ⟨_, _, _, _, cut, _, _, _, _, _, heq⟩
    · rw [heq]
    · rw [heq] at hfail
      cases hfail
  rw [placeExtent] at hnone ⊢
  by_cases haddr : addrIn ≠ 0
  · rw [if_pos haddr] at hnone ⊢
    rcases allocFixed_cases memSize c.fixedPrefix c.fixedSplit addrIn len prot flags name l with
      heq | ⟨_, _, _, _, cut, _, _, _, _, _, heq⟩
    · rw [heq] at hnone ⊢
      exact haligned _ _ hnone
    · rw [heq] at hnone
      cases hnone
  · rw [if_neg haddr] at hnone ⊢
    exact haligned _ _ hnone

end Places

/-! ### the undo step -/

section Undo

variable {M : ℕ} {l l₀ : List GuestVMExtent} {m : GuestVMExtent} {name : Option (List Char)}
  {length len : BitVec 64} {c : BatchCalls} {s : BatchMem}

/-- The undo step takes back all of a mapping and nothing else: it is allowed to free, the mapping is the
pages of the length, it was free before, and no address of it had a direct mapping. -/
structure Undone (c : BatchCalls) (length : BitVec 64) (m : GuestVMExtent) (made : Option DirectMapping)
    (l : List GuestVMExtent) (dmaps : List DirectMapping) : Prop where
  frees : m.addr ≠ 0 ∧ c.malloc = true
  size : m.size = pageUp length
  free : ∀ x, m.Has x → FreeAt l x
  bare : ∀ a : BitVec 64, m.Has a.toNat → physAt a dmaps = none
  beyond : ∀ d ∈ made, ∀ a : BitVec 64, d.Has a → ¬ m.Has a.toNat →
    physAt a dmaps = some (d.phys + (a - d.vaddr))

theorem free_extents (addr size : BitVec 64) :
    (s.free c addr size).1.extents =
      (recompVmFree c.callocStart c.callocStop c.malloc addr size s.extents).1 ∧
    (s.free c addr size).2 = (recompVmFree c.callocStart c.callocStop c.malloc addr size s.extents).2 ∧
    (s.free c addr size).1.direct = s.direct := by
  rw [BatchMem.free, recompVmFree]
  rcases freeBegin c.callocStart c.callocStop c.malloc addr size s.extents with ⟨l, r | p⟩
  · exact ⟨rfl, rfl, rfl⟩
  · exact ⟨rfl, rfl, rfl⟩

theorem splitExtentAt_uncut (calloc : Bool) {cut : BitVec 64} (h : ∀ c ∈ l, c.straddles cut = false) :
    splitExtentAt calloc cut l = (l, true) := by
  rw [splitExtentAt]
  split
  · rfl
  · rename_i pre e post hfound
    obtain ⟨rfl, hcut⟩ := firstSplit_eq_some hfound
    have hmem : e ∈ pre ++ e :: post := List.mem_append_right _ List.mem_cons_self
    exact absurd ((h e hmem).symm.trans hcut) Bool.false_ne_true

/-- The call notes the mapping, and nothing else that has a byte. -/
theorem undo_begin (hM : M < 2 ^ 64) (h : Placed M len name l₀ l m) (hlength : length ≠ 0)
    (haddr : m.addr ≠ 0) (hsize : m.size = pageUp length) (ca co : Bool) :
    ∃ p, freeBegin ca co true m.addr length l = (l, .inr p) ∧
      (∀ r ∈ p.ranges, r.size = 0 ∨ r = { addr := m.addr, size := m.size }) ∧
      { addr := m.addr, size := m.size } ∈ p.ranges := by
  have hbound := h.apart.bounded m h.mem
  have htot : m.addr.toNat + m.size.toNat < 2 ^ 64 := Nat.lt_of_le_of_lt hbound hM
  have hpos := h.size.2
  have hstop : (m.addr + m.size).toNat = m.addr.toNat + m.size.toNat := BitVec.toNat_add_of_lt htot
  -- an extent that has a byte of the mapping is the mapping
  have hone : ∀ d ∈ l, ∀ x, d.Has x → m.Has x → d = m := fun d hd x hdx hmx =>
    h.apart.unique hd h.mem hdx hmx
  have hstart : ∀ d ∈ l, d.straddles m.addr = false := by
    intro d hd
    rw [← Bool.not_eq_true, straddles_iff (Nat.lt_of_le_of_lt (h.apart.bounded d hd) hM)]
    rintro ⟨-, hlo, hhi⟩
    obtain rfl := hone d hd m.addr.toNat ⟨by omega, hhi⟩ ⟨Nat.le_refl _, by omega⟩
    omega
  have hend : ∀ d ∈ l, d.straddles (m.addr + m.size) = false := by
    intro d hd
    rw [← Bool.not_eq_true, straddles_iff (Nat.lt_of_le_of_lt (h.apart.bounded d hd) hM), hstop]
    rintro ⟨-, hlo, hhi⟩
    obtain rfl := hone d hd (m.addr.toNat + m.size.toNat - 1) ⟨by omega, by omega⟩ ⟨by omega, by omega⟩
    omega
  have hcut : splitEnds ca co m.addr (m.addr + m.size) l = (l, true) := by
    rw [splitEnds, splitExtentAt_uncut ca hstart]
    exact splitExtentAt_uncut co hend
  have hin : m.inside m.addr (m.addr + m.size) = true :=
    inside_of_cut htot ⟨hstart m h.mem, hend m h.mem⟩ h.mapped.1
      (⟨Nat.le_refl _, by omega⟩ : m.Has m.addr.toNat) (Nat.le_refl _) (by omega)
  have hnoted : ({ addr := m.addr, size := m.size } : VmRange) ∈
      (l.filter (GuestVMExtent.inside m.addr (m.addr + m.size))).map fun e =>
        { addr := e.addr, size := e.size } :=
    List.mem_map.2 ⟨m, List.mem_filter.2 ⟨h.mem, hin⟩, rfl⟩
  have hargs : ¬ (m.addr = 0 ∨ length = 0 ∨ m.addr + m.size < m.addr) := by
    rw [BitVec.lt_def, hstop]
    exact fun hc => hc.elim haddr fun hc => hc.elim hlength fun hc => by omega
  refine ⟨{ start := m.addr, stop := m.addr + m.size, ranges := _ }, ?_, ?_, hnoted⟩
  · rw [freeBegin]
    dsimp only
    rw [h.aligned, ← hsize, if_neg hargs, hcut]
    exact (if_neg (List.ne_nil_of_mem hnoted)).trans (if_pos rfl)
  · intro r hr
    obtain ⟨d, hd, rfl⟩ := List.mem_map.1 hr
    obtain ⟨hd, hdin⟩ := List.mem_filter.1 hd
    obtain ⟨-, hlo, hhi⟩ := inside_bounds (Nat.lt_of_le_of_lt (h.apart.bounded d hd) hM) hdin
    rw [hstop] at hhi
    by_cases hzero : d.size = 0
    · exact .inl hzero
    · have hdpos : 0 < d.size.toNat := Nat.pos_of_ne_zero fun hz => hzero (BitVec.eq_of_toNat_eq hz)
      obtain rfl := hone d hd d.addr.toNat ⟨Nat.le_refl _, by omega⟩ ⟨hlo, by omega⟩
      exact .inr rfl

theorem free_idle (hM : M < 2 ^ 64) (h : Apart M l) {ca co malloc : Bool} {addr size : BitVec 64}
    (hidle : addr = 0 ∨ malloc = false) : SameBytes l (recompVmFree ca co malloc addr size l).1 := by
  obtain ⟨l', hlist, -, hsame, hcases⟩ := freeBegin_cases ca co malloc addr size hM h
  have hnever : ∀ p, (freeBegin ca co malloc addr size l).2 ≠ .inr p := by
    intro p hp
    rw [freeBegin] at hp
    dsimp only at hp
    rcases hidle with hzero | hfalse
    · rw [if_pos (.inl hzero)] at hp
      cases hp
    · rw [hfalse] at hp
      split at hp
      · cases hp
      · split at hp
        · cases hp
        · split at hp
          · cases hp
          · cases hp
  rw [recompVmFree]
  rcases hbegin : freeBegin ca co malloc addr size l with ⟨k, r | p⟩
  · rw [hbegin] at hlist
    obtain rfl : k = l' := hlist
    exact hsame
  · exact absurd (by rw [hbegin]) (hnever p)

/-- No byte of the new mapping was mapped like it before. -/
theorem Placed.fresh (h : Placed M len name l₀ l m) (h₀ : Apart M l₀)
    (hname : strstr (extentName name) "reserved".toList = false) {x : ℕ} (hx : m.Has x) :
    MappedAs l x m.attrs ∧ ¬ MappedAs l₀ x m.attrs := by
  refine ⟨⟨m, h.mem, h.mapped.1, hx, rfl⟩, fun hmap => ?_⟩
  obtain ⟨d, hd, hdf, hdx, hattrs⟩ := hmap
  obtain ⟨e, he, hside, hin⟩ := h.source
  obtain rfl := h₀.unique hd he hdx (hin x hx)
  have hsame : d.name = m.name := congrArg (fun a => a.2.2.2) hattrs
  rcases hside with hfree | hreserved
  · exact Bool.false_ne_true (hdf.symm.trans hfree)
  · rw [hsame, h.mapped.2, hname] at hreserved
    exact Bool.false_ne_true hreserved

/-- The bytes are as before exactly when the undo step frees the mapping, which has the pages of the
length and was free. -/
theorem undo_bytes (hM : M < 2 ^ 64) (h₀ : Apart M l₀) (h : Placed M len name l₀ l m)
    (hname : strstr (extentName name) "reserved".toList = false) (hlength : length ≠ 0)
    (hle : (pageUp length).toNat ≤ m.size.toNat) (ca co malloc : Bool) :
    SameBytes l₀ (recompVmFree ca co malloc m.addr length l).1 ↔
      (m.addr ≠ 0 ∧ malloc = true) ∧ m.size = pageUp length ∧ ∀ x, m.Has x → FreeAt l₀ x := by
  have htot : m.addr.toNat + m.size.toNat < 2 ^ 64 :=
    Nat.lt_of_le_of_lt (h.apart.bounded m h.mem) hM
  have hpos := h.size.2
  have hfirst : m.Has m.addr.toNat := ⟨Nat.le_refl _, by omega⟩
  have hbytes := recompVmFree_bytes ca co malloc m.addr length hM h.apart
  have hrange : ∀ x, InFreeRange m.addr length x ↔
      m.addr.toNat ≤ x ∧ x < m.addr.toNat + (pageUp length).toNat := by
    intro x
    rw [InFreeRange, h.aligned, BitVec.toNat_add_of_lt (by omega)]
  constructor
  · intro hsame
    have hfrees : m.addr ≠ 0 ∧ malloc = true := by
      by_contra hne
      have hidle : m.addr = 0 ∨ malloc = false := by
        rw [not_and_or, not_not, Bool.not_eq_true] at hne
        exact hne
      have hfresh := h.fresh h₀ hname hfirst
      exact hfresh.2 ((hsame.mapped _ _).1 (((free_idle hM h.apart hidle).mapped _ _).2 hfresh.1))
    have hsize : m.size = pageUp length := by
      by_contra hne
      have hlt : (pageUp length).toNat < m.size.toNat :=
        Nat.lt_of_le_of_ne hle fun heq => hne (BitVec.eq_of_toNat_eq heq.symm)
      -- the first byte behind the pages freed
      have hfresh := h.fresh h₀ hname
        (⟨by omega, by omega⟩ : m.Has (m.addr.toNat + (pageUp length).toNat))
      refine hfresh.2 ((hsame.mapped _ _).1 ?_)
      by_cases hok : (recompVmFree ca co malloc m.addr length l).2 = 0
      · exact ((hbytes.1 hok _).2 _).2 ⟨hfresh.1, fun hc => by rw [hrange] at hc; omega⟩
      · exact ((hbytes.2 hok).mapped _ _).2 hfresh.1
    refine ⟨hfrees, hsize, fun x hx => (hsame.free x).1 ?_⟩
    obtain ⟨p, hbegin, -, -⟩ := undo_begin hM h hlength hfrees.1 hsize ca co
    have hok : (recompVmFree ca co malloc m.addr length l).2 = 0 := by
      rw [recompVmFree, hfrees.2, hbegin]
    refine ((hbytes.1 hok x).1).2 (.inr ⟨(hrange x).2 ?_, m.attrs, (h.fresh h₀ hname hx).1⟩)
    rw [← hsize]
    exact hx
  · rintro ⟨hfrees, hsize, hfree⟩
    obtain ⟨p, hbegin, -, -⟩ := undo_begin hM h hlength hfrees.1 hsize ca co
    have hok : (recompVmFree ca co malloc m.addr length l).2 = 0 := by
      rw [recompVmFree, hfrees.2, hbegin]
    have hhas : ∀ x, InFreeRange m.addr length x ↔ m.Has x := fun x => by
      rw [hrange, ← hsize]
      rfl
    constructor
    · intro x
      rw [(hbytes.1 hok x).1, hhas]
      by_cases hx : m.Has x
      · exact iff_of_true (.inr ⟨hx, m.attrs, (h.fresh h₀ hname hx).1⟩) (hfree x hx)
      · rw [(h.outside hfree x hx).1, or_iff_left fun hc => hx hc.1]
    · intro x attrs
      rw [(hbytes.1 hok x).2, hhas]
      by_cases hx : m.Has x
      · refine iff_of_false (fun hc => hc.2 hx) fun hmap => ?_
        obtain ⟨d, hd, hdf, hdx, -⟩ := hmap
        exact h₀.not_freeAt hd hdf hdx (hfree x hx)
      · rw [and_iff_left hx, (h.outside hfree x hx).2]

/-- The direct mappings are as before exactly when the mapping had none and what is left of the new one
is at the place it had. -/
theorem undo_dmaps {calloc : Bool} {addr size : BitVec 64} {made : Option DirectMapping}
    {dmaps : List DirectMapping} (hwrap : addr.toNat + size.toNat < 2 ^ 64) (hpos : size ≠ 0)
    (hmade : ∀ d ∈ made, d.vaddr = addr) :
    (∀ a, physAt a (onUnmap calloc addr size (made.toList ++ dmaps)) = physAt a dmaps) ↔
      (∀ a, InRange addr size a → physAt a dmaps = none) ∧
      ∀ d ∈ made, ∀ a, d.Has a → ¬ InRange addr size a →
        physAt a dmaps = some (d.phys + (a - d.vaddr)) := by
  have hstop : (addr + size).toNat = addr.toNat + size.toNat := BitVec.toNat_add_of_lt hwrap
  have hbare : ∀ a, InRange addr size a →
      physAt a (onUnmap calloc addr size (made.toList ++ dmaps)) = none := by
    intro a ha
    refine physAt_none.2 (onUnmap_none (.inr ⟨hpos, ha.1, ?_⟩))
    rw [hstop]
    exact ha.2
  constructor
  · intro hsame
    have hnone : ∀ a, InRange addr size a → physAt a dmaps = none := fun a ha => by
      rw [← hsame a, hbare a ha]
    refine ⟨hnone, fun d hd a ha hout => ?_⟩
    obtain rfl : made = some d := hd
    rw [← hsame a]
    exact (onUnmap_alias hwrap hpos (hmade d rfl) (fun b hb => physAt_none.1 (hnone b hb)) a).trans
      (if_pos ⟨ha, hout⟩)
  · rintro ⟨hnone, hbeyond⟩ a
    have hnone' := fun b hb => physAt_none.1 (hnone b hb)
    cases made with
    | none => exact onUnmap_bare hwrap hnone' a
    | some d =>
        refine (onUnmap_alias hwrap hpos (hmade d rfl) hnone' a).trans ?_
        by_cases hin : d.Has a ∧ ¬ InRange addr size a
        · rw [if_pos hin, hbeyond d rfl a hin.1 hin.2]
        · rw [if_neg hin]

/-- **The undo step** leaves the bytes and the direct mappings that there were before a mapping was made
exactly when it is `Undone`. -/
theorem undo_iff {made : Option DirectMapping} {dmaps : List DirectMapping} (hM : M < 2 ^ 64)
    (h₀ : Apart M l₀) (h : Placed M len name l₀ s.extents m)
    (hname : strstr (extentName name) "reserved".toList = false) (hlength : length ≠ 0)
    (hle : (pageUp length).toNat ≤ m.size.toNat) (hmade : ∀ d ∈ made, d.vaddr = m.addr)
    (hdmaps : s.dmaps = made.toList ++ dmaps) :
    (SameBytes l₀ (s.free c m.addr length).1.extents ∧
      ∀ a, physAt a (s.free c m.addr length).1.dmaps = physAt a dmaps) ↔
      Undone c length m made l₀ dmaps := by
  have htot : m.addr.toNat + m.size.toNat < 2 ^ 64 :=
    Nat.lt_of_le_of_lt (h.apart.bounded m h.mem) hM
  have hpos : m.size ≠ 0 := fun hz => by
    have hlt := h.size.2
    rw [hz] at hlt
    exact absurd hlt (by decide)
  rw [(free_extents m.addr length).1, undo_bytes hM h₀ h hname hlength hle]
  -- once the mapping is freed, its range is unmapped once
  have hunmap : ∀ hfrees : m.addr ≠ 0 ∧ c.malloc = true, m.size = pageUp length → ∀ a,
      physAt a (s.free c m.addr length).1.dmaps =
        physAt a (onUnmap c.callocTail m.addr m.size (made.toList ++ dmaps)) := by
    intro hfrees hsize a
    obtain ⟨p, hbegin, hall, hmem⟩ := undo_begin hM h hlength hfrees.1 hsize c.callocStart c.callocStop
    rw [BatchMem.free, hfrees.2, hbegin, ← hdmaps]
    exact unmapRanges_once htot hpos hall hmem a
  constructor
  · rintro ⟨⟨hfrees, hsize, hfree⟩, hsame⟩
    simp only [hunmap hfrees hsize] at hsame
    obtain ⟨hbare, hbeyond⟩ := (undo_dmaps htot hpos hmade).1 hsame
    exact ⟨hfrees, hsize, hfree, hbare, hbeyond⟩
  · rintro ⟨hfrees, hsize, hfree, hbare, hbeyond⟩
    refine ⟨⟨hfrees, hsize, hfree⟩, fun a => ?_⟩
    rw [hunmap hfrees hsize]
    exact (undo_dmaps htot hpos hmade).2 ⟨hbare, hbeyond⟩ a

end Undo

/-! ### entries -/

section Entries

variable {env : BatchEnv} {c : BatchCalls} {e : BatchMapEntry} {s s' : BatchMem}

/-- Two memories that say the same: the bytes of guest memory, the physical addresses behind them, and
the blocks of direct memory, the first of which is made when they are first used. -/
structure SameView (dflt : BitVec 64) (s s' : BatchMem) : Prop where
  bytes : SameBytes s.extents s'.extents
  phys : ∀ a, physAt a s'.dmaps = physAt a s.dmaps
  direct : s'.direct.init dflt true = s.direct.init dflt true

theorem SameView.refl (dflt : BitVec 64) (s : BatchMem) : SameView dflt s s :=
  ⟨.refl _, fun _ => rfl, rfl⟩

theorem init_init (dflt : BitVec 64) (calloc : Bool) (d : DirectMem) :
    (d.init dflt calloc).init dflt true = d.init dflt true := by
  obtain ⟨blocks, inited, configured⟩ := d
  cases inited with
  | true => rfl
  | false =>
      cases calloc with
      | true => rfl
      | false => rfl

/-- The mapping that the searches find for an entry, and its alias. -/
def placing (env : BatchEnv) (c : MapCalls) (e : BatchMapEntry) (s : BatchMem) :
    Option (GuestVMExtent × Option DirectMapping) :=
  if e.length = 0 then none
  else if e.operation = 0 then
    if (findAllocated e.offset e.length (s.direct.init env.dflt c.callocInit).blocks).isSome then
      (placeExtent c env.memSize e.start (alignUp e.length 4096) 4096 (e.protection.setWidth 32)
        kFlagsMapFixed directName s.extents).2.map fun m =>
          (m, dmAlias c env.memSize env.physSize m.addr e.offset (aliasLen e.length))
    else none
  else if e.operation = 3 then
    (placeExtent c env.memSize e.start (alignUp e.length 65536) 65536 (e.protection.setWidth 32)
      kFlagsMapFixed anonName s.extents).2.map fun m => (m, none)
  else none

/-- The length of a mapping that no rounded sum of an address and it wraps. -/
def BatchMapEntry.Fits (memSize : BitVec 64) (e : BatchMapEntry) : Prop :=
  e.operation = 0 ∨ e.operation = 3 → e.length.toNat + memSize.toNat + 0x40000 ≤ 2 ^ 64

/-- A mapping made for an entry. -/
structure Made (env : BatchEnv) (e : BatchMapEntry) (len : BitVec 64) (name : Option (List Char))
    (s s' : BatchMem) (m : GuestVMExtent) (made : Option DirectMapping) : Prop where
  placed : Placed env.memSize.toNat len name s.extents s'.extents m
  name : strstr (extentName name) "reserved".toList = false
  covers : (pageUp e.length).toNat ≤ m.size.toNat
  dmaps : s'.dmaps = made.toList ++ s.dmaps
  starts : ∀ d ∈ made, d.vaddr = m.addr
  direct : s'.direct.init env.dflt true = s.direct.init env.dflt true

/-- What a call that maps for an entry can come to. -/
inductive MapOutcome (env : BatchEnv) (c : BatchCalls) (e : BatchMapEntry) (s : BatchMem) :
    BatchMem × Except (BitVec 32) (BitVec 64) → Prop
  | failed {s' : BatchMem} {code : BitVec 32} : placing env c.map e s = none → SameView env.dflt s s' →
      s'.extents = s.extents → MapOutcome env c e s (s', .error code)
  | made {s' : BatchMem} {len : BitVec 64} {name : Option (List Char)} {m : GuestVMExtent}
      {made : Option DirectMapping} : placing env c.map e s = some (m, made) →
      Made env e len name s s' m made → MapOutcome env c e s (s', .ok m.addr)

theorem toNat_alignUp_of_lt {x a : BitVec 64} {k : ℕ} (ha : a.toNat = 2 ^ k)
    (h : x.toNat + a.toNat - 1 < 2 ^ 64) : (alignUp x a).toNat = roundUp x.toNat (2 ^ k) := by
  rw [← ha]
  exact toNat_roundUp_word ha h

theorem mapDirect_outcome (h : Apart env.memSize.toNat s.extents) (hop : e.operation = 0)
    (hlength : e.length ≠ 0) (hfits : e.Fits env.memSize) :
    MapOutcome env c e s (s.mapDirect env c e) := by
  have hsmall := hfits (.inl hop)
  have hlen := toNat_alignUp_of_lt (x := e.length) (a := 4096) (k := 12) rfl (by
    rw [show (4096 : BitVec 64).toNat = 4096 from rfl]; omega)
  have hlen_le := roundUp_le e.length.toNat (2 ^ 12)
  have hinit := init_init env.dflt c.map.callocInit s.direct
  have halign : alignmentOf 0 = 4096 := rfl
  have hplacing : placing env c.map e s =
      if (findAllocated e.offset e.length (s.direct.init env.dflt c.map.callocInit).blocks).isSome then
        (placeExtent c.map env.memSize e.start (alignUp e.length 4096) 4096 (e.protection.setWidth 32)
          kFlagsMapFixed directName s.extents).2.map fun m =>
            (m, dmAlias c.map env.memSize env.physSize m.addr e.offset (aliasLen e.length))
      else none := by
    rw [placing, if_neg hlength, if_pos hop]
  rw [BatchMem.mapDirect, sceKernelMapDirectMemory, if_neg hlength, halign]
  dsimp only
  rw [mapExtent_eq]
  cases hfound : findAllocated e.offset e.length (s.direct.init env.dflt c.map.callocInit).blocks with
  | none =>
      rw [hfound] at hplacing
      exact .failed hplacing ⟨.refl _, fun _ => rfl, hinit⟩ rfl
  | some b =>
      rw [hfound] at hplacing
      have hnone := @placeExtent_none s.extents c.map env.memSize e.start (alignUp e.length 4096) 4096
        (e.protection.setWidth 32) kFlagsMapFixed directName
      rcases hplace : placeExtent c.map env.memSize e.start (alignUp e.length 4096) 4096
        (e.protection.setWidth 32) kFlagsMapFixed directName s.extents with ⟨l', placed⟩
      rw [hplace] at hplacing hnone
      cases placed with
      | none =>
          obtain rfl : l' = s.extents := hnone rfl
          exact .failed hplacing ⟨.refl _, fun _ => rfl, hinit⟩ rfl
      | some m =>
          have hplaced := placeExtent_placed (k := 12) rfl (by omega) (by omega) h
            (by rw [hlen]; omega) hplace
          refine .made hplacing ⟨hplaced, by decide, ?_, rfl, fun d hd => ?_, hinit⟩
          · rw [toNat_pageUp (by omega)]
            exact Nat.le_trans (Nat.le_of_eq hlen.symm) hplaced.size.1
          · rw [dmAlias_eq hd]

theorem mapFlexible_outcome (h : Apart env.memSize.toNat s.extents) (hop : e.operation = 3)
    (hlength : e.length ≠ 0) (hfits : e.Fits env.memSize) :
    MapOutcome env c e s (s.mapFlexible env c e) := by
  have hsmall := hfits (.inr hop)
  have hlen := toNat_alignUp_of_lt (x := e.length) (a := 65536) (k := 16) rfl (by
    rw [show (65536 : BitVec 64).toNat = 65536 from rfl]; omega)
  have hlen_le := roundUp_le e.length.toNat (2 ^ 16)
  have hlen_ge := le_roundUp e.length.toNat (Nat.two_pow_pos 16)
  have hplacing : placing env c.map e s =
      (placeExtent c.map env.memSize e.start (alignUp e.length 65536) 65536 (e.protection.setWidth 32)
        kFlagsMapFixed anonName s.extents).2.map fun m => (m, none) := by
    rw [placing, if_neg hlength, if_neg (by rw [hop]; decide), if_pos hop]
  have hnone := @placeExtent_none s.extents c.map env.memSize e.start (alignUp e.length 65536) 65536
    (e.protection.setWidth 32) kFlagsMapFixed anonName
  rw [BatchMem.mapFlexible, sceKernelMapNamedFlexibleMemory, if_neg hlength]
  dsimp only
  rcases hplace : placeExtent c.map env.memSize e.start (alignUp e.length 65536) 65536
    (e.protection.setWidth 32) kFlagsMapFixed anonName s.extents with ⟨l', placed⟩
  rw [hplace] at hplacing hnone
  cases placed with
  | none =>
      obtain rfl : l' = s.extents := hnone rfl
      exact .failed hplacing (.refl _ s) rfl
  | some m =>
      have hplaced := placeExtent_placed (k := 16) rfl (by omega) (by omega) h
        (by rw [hlen]; omega) hplace
      refine .made hplacing ⟨hplaced, by decide, ?_, rfl, fun d hd => (by cases hd), rfl⟩
      rw [toNat_pageUp (by omega)]
      refine Nat.le_trans (roundUp_le_of_dvd (by omega) hlen_ge ?_)
        (Nat.le_trans (Nat.le_of_eq hlen.symm) hplaced.size.1)
      exact Nat.dvd_trans (Nat.pow_dvd_pow 2 (by omega : 12 ≤ 16)) (Nat.dvd_mul_left _ _)

theorem recompVmFree_apart {M : ℕ} {l : List GuestVMExtent} (hM : M < 2 ^ 64) (h : Apart M l)
    (ca co malloc : Bool) (addr size : BitVec 64) :
    Apart M (recompVmFree ca co malloc addr size l).1 := by
  obtain ⟨l', hlist, hapart, -, -⟩ := freeBegin_cases ca co malloc addr size hM h
  rw [recompVmFree]
  rcases hbegin : freeBegin ca co malloc addr size l with ⟨k, r | p⟩
  · rw [hbegin] at hlist
    obtain rfl : k = l' := hlist
    exact hapart
  · have hnoted := freeBegin_noted hM h hbegin
    rw [hbegin] at hlist
    obtain rfl : k = l' := hlist
    exact (freeEnd_apart hM hapart hnoted.1).1

theorem free_apart (h : Apart env.memSize.toNat s.extents) (addr size : BitVec 64) :
    Apart env.memSize.toNat (s.free c addr size).1.extents := by
  rw [(free_extents addr size).1]
  exact recompVmFree_apart env.memSize.isLt h _ _ _ addr size

/-- The condition on an entry: a mapping that is found for it at another address than it asks for is
`Undone`. -/
def TakesBack (env : BatchEnv) (c : BatchCalls) (e : Option BatchMapEntry) (s : BatchMem) : Prop :=
  ∀ e' ∈ e, ∀ m made, placing env c.map e' s = some (m, made) → e'.start ≠ 0 → m.addr ≠ e'.start →
    Undone c e'.length m made s.extents s.dmaps

/-- A memory and a result of an entry: the extents stay apart, and after a failure the memory is as before
exactly when the entry meets the condition, which one that succeeds does. -/
structure EntrySpec (env : BatchEnv) (c : BatchCalls) (e : Option BatchMapEntry) (s : BatchMem)
    (done : BatchMem × Except (BitVec 32) (BitVec 64)) : Prop where
  apart : Apart env.memSize.toNat done.1.extents
  fails : ∀ code, done.2 = .error code → (SameView env.dflt s done.1 ↔ TakesBack env c e s)
  succeeds : ∀ addr, done.2 = .ok addr → TakesBack env c e s

theorem entrySpec_none {done : BatchMem × Except (BitVec 32) (BitVec 64)} {e : Option BatchMapEntry}
    (happart : Apart env.memSize.toNat done.1.extents) (hnone : ∀ e' ∈ e, placing env c.map e' s = none)
    (hsame : ∀ code, done.2 = .error code → SameView env.dflt s done.1) : EntrySpec env c e s done := by
  have hback : TakesBack env c e s := by
    intro e' he m made hfound
    rw [hnone e' he] at hfound
    cases hfound
  exact ⟨happart, fun code hcode => iff_of_true (hsame code hcode) hback, fun _ _ => hback⟩

/-- **An entry that maps.** -/
theorem fixedEntry_spec {done : BatchMem × Except (BitVec 32) (BitVec 64)}
    (h : Apart env.memSize.toNat s.extents) (hlength : e.length ≠ 0) (hdone : MapOutcome env c e s done) :
    EntrySpec env c (some e) s (fixedEntry c e done) := by
  cases hdone with
  | failed hnone hsame hextents =>
      rename_i s' code
      refine entrySpec_none ?_ (fun e' he => ?_) fun _ _ => hsame
      · show Apart env.memSize.toNat s'.extents
        rw [hextents]
        exact h
      · obtain rfl := Option.some.inj he
        exact hnone
  | made hfound hmade =>
      rename_i s' len name m made
      have hexact := undo_iff (c := c) env.memSize.isLt h hmade.placed hmade.name hlength hmade.covers
        hmade.starts hmade.dmaps
      have hback : TakesBack env c (some e) s ↔
          (e.start ≠ 0 → m.addr ≠ e.start → Undone c e.length m made s.extents s.dmaps) := by
        constructor
        · exact fun hback => hback e rfl m made hfound
        · intro hundone e' he m' made' hfound'
          obtain rfl := Option.some.inj he
          rw [hfound] at hfound'
          cases hfound'
          exact hundone
      rw [fixedEntry, batchFixedResult]
      dsimp only
      by_cases hplace : e.start = 0 ∨ m.addr = e.start
      · rw [if_pos hplace]
        refine ⟨hmade.placed.apart, fun code hcode => (by cases hcode), fun _ _ => hback.2 fun h0 h1 => ?_⟩
        exact (hplace.elim h0 h1).elim
      · rw [if_neg hplace]
        obtain ⟨h0, h1⟩ := not_or.1 hplace
        refine ⟨free_apart hmade.placed.apart _ _, fun code _ => ?_, fun addr haddr => (by cases haddr)⟩
        have hundone : TakesBack env c (some e) s ↔ Undone c e.length m made s.extents s.dmaps :=
          hback.trans ⟨fun hu => hu h0 h1, fun hu _ _ => hu⟩
        rw [hundone, ← hexact]
        refine ⟨fun hsame => ⟨hsame.bytes, hsame.phys⟩, fun hsame => ⟨hsame.1, hsame.2, ?_⟩⟩
        show ((s'.free c m.addr e.length).1.direct).init env.dflt true = s.direct.init env.dflt true
        rw [(free_extents m.addr e.length).2.2]
        exact hmade.direct

theorem mprotect_apart {M : ℕ} {l : List GuestVMExtent} (h : Apart M l) (addr size : BitVec 64)
    (prot : BitVec 32) : Apart M (sceKernelMprotect addr size prot l) := by
  rw [sceKernelMprotect]
  split
  · exact h
  · refine apart_map (fun d => ?_) h
    split
    · exact ⟨rfl, rfl⟩
    · exact ⟨rfl, rfl⟩

/-- A `sceKernelMtypeprotect` that fails leaves every byte. -/
theorem mtypeprotect_fails {l : List GuestVMExtent} {memSize : BitVec 64} (h : Apart memSize.toNat l)
    (ca co : Bool) (addr size : BitVec 64) (mtype prot : BitVec 32) :
    Apart memSize.toNat (sceKernelMtypeprotect memSize ca co addr size mtype prot l) ∧
      (mtypeprotectCode memSize ca co addr size l ≠ 0 →
        SameBytes l (sceKernelMtypeprotect memSize ca co addr size mtype prot l)) := by
  have hapart := splitEnds_apart ca co (widenStart addr) (widenStop addr size) memSize.isLt h
  have hbytes := splitEnds_bytes ca co (widenStart addr) (widenStop addr size) memSize.isLt h
  by_cases hargs : size = 0 ∨ widenStop addr size < widenStart addr ∨ memSize < widenStop addr size
  · have hsame : sceKernelMtypeprotect memSize ca co addr size mtype prot l = l := if_pos hargs
    rw [hsame]
    exact ⟨h, fun _ => .refl l⟩
  obtain ⟨hsize, hrange⟩ := not_or.1 hargs
  by_cases hany : l.any (GuestVMExtent.meets (widenStart addr) (widenStop addr size)) = true
  · rcases hsplit : splitEnds ca co (widenStart addr) (widenStop addr size) l with ⟨l', ok⟩
    rw [hsplit] at hapart hbytes
    cases ok with
    | true =>
        rw [mtypeprotect_cut mtype prot hsize hrange hany hsplit]
        refine ⟨apart_map (fun d => ?_) hapart, fun hcode => absurd ?_ hcode⟩
        · split
          · exact ⟨rfl, rfl⟩
          · exact ⟨rfl, rfl⟩
        · rw [mtypeprotectCode]
          rw [if_neg hsize, if_neg hrange, if_pos hany, hsplit]
          rfl
    | false =>
        have hlist : sceKernelMtypeprotect memSize ca co addr size mtype prot l = l' := by
          refine (if_neg hargs).trans ((if_pos hany).trans ?_)
          rw [widenStop, widenSpan, widenStart] at hsplit
          rw [hsplit]
        rw [hlist]
        exact ⟨hapart, fun _ => hbytes⟩
  · have hsame : sceKernelMtypeprotect memSize ca co addr size mtype prot l = l :=
      (if_neg hargs).trans (if_neg hany)
    rw [hsame]
    exact ⟨h, fun _ => .refl l⟩

theorem resultOf_error {start : BitVec 64} {code code' : BitVec 32}
    (h : resultOf start code = .error code') : code ≠ 0 := by
  intro hz
  rw [resultOf, if_pos hz] at h
  cases h

/-- **An entry.** -/
theorem batchEntry_spec {e : Option BatchMapEntry} (h : Apart env.memSize.toNat s.extents)
    (hfits : ∀ e' ∈ e, e'.Fits env.memSize) : EntrySpec env c e s (batchEntry env c e s) := by
  cases e with
  | none => exact entrySpec_none h (fun e' he => by cases he) fun _ _ => .refl _ s
  | some e =>
      have hfit := hfits e rfl
      -- no mapping is found for the other operations
      have hplacing : e.length = 0 ∨ e.operation ≠ 0 ∧ e.operation ≠ 3 →
          ∀ e' ∈ some e, placing env c.map e' s = none := by
        intro hother e' he
        obtain rfl := Option.some.inj he
        rw [placing]
        rcases hother with hzero | ⟨hdirect, hflexible⟩
        · rw [if_pos hzero]
        · rw [if_neg hdirect, if_neg hflexible, ite_self]
      rw [batchEntry]
      by_cases hargs : e.length = 0 ∨ 4 < e.operation
      · rw [if_pos hargs]
        refine entrySpec_none h (hplacing ?_) fun _ _ => .refl _ s
        refine hargs.imp_right fun hlarge => ⟨fun hop => ?_, fun hop => ?_⟩
        · rw [hop] at hlarge
          exact absurd hlarge (by decide)
        · rw [hop] at hlarge
          exact absurd hlarge (by decide)
      rw [if_neg hargs]
      have hlength : e.length ≠ 0 := fun hz => hargs (.inl hz)
      dsimp only
      by_cases hdirect : e.operation = 0
      · rw [if_pos hdirect]
        exact fixedEntry_spec h hlength (mapDirect_outcome h hdirect hlength hfit)
      rw [if_neg hdirect]
      by_cases hunmap : e.operation = 1
      · rw [if_pos hunmap]
        refine entrySpec_none (free_apart h _ _)
          (hplacing (.inr ⟨hdirect, by rw [hunmap]; decide⟩)) fun code hcode => ?_
        have hne : (s.free c e.start e.length).2 ≠ 0 := by
          intro hz
          rw [hz] at hcode
          cases hcode
        have hidle : SameBytes s.extents (s.free c e.start e.length).1.extents := by
          rw [(free_extents e.start e.length).2.1] at hne
          rw [(free_extents e.start e.length).1]
          exact (recompVmFree_bytes _ _ _ _ _ env.memSize.isLt h).2 hne
        refine ⟨hidle, ?_, ?_⟩
        · show ∀ a, physAt a (s.free c e.start e.length).1.dmaps = physAt a s.dmaps
          rw [BatchMem.free] at hne ⊢
          rcases hbegin : freeBegin c.callocStart c.callocStop c.malloc e.start e.length s.extents with
            ⟨l, r | p⟩
          · exact fun _ => rfl
          · rw [hbegin] at hne
            exact absurd rfl hne
        · show (s.free c e.start e.length).1.direct.init env.dflt true = _
          rw [(free_extents e.start e.length).2.2]
      rw [if_neg hunmap]
      by_cases hprotect : e.operation = 2
      · rw [if_pos hprotect]
        exact entrySpec_none (mprotect_apart h _ _ _)
          (hplacing (.inr ⟨hdirect, by rw [hprotect]; decide⟩)) fun code hcode => by cases hcode
      rw [if_neg hprotect]
      by_cases hflexible : e.operation = 3
      · rw [if_pos hflexible]
        exact fixedEntry_spec h hlength (mapFlexible_outcome h hflexible hlength hfit)
      rw [if_neg hflexible]
      have hmtype := mtypeprotect_fails h c.callocStart c.callocStop e.start e.length
        (e.type.setWidth 32) (e.protection.setWidth 32)
      refine entrySpec_none hmtype.1 (hplacing (.inr ⟨hdirect, hflexible⟩)) fun code hcode => ?_
      exact ⟨hmtype.2 (resultOf_error hcode), fun _ => rfl, rfl⟩

end Entries

/-! ### batches -/

section Batches

variable {env : BatchEnv} {calls : ℕ → BatchCalls} {es es' es'' : List (Option BatchMapEntry)}
  {s s' s'' : BatchMem} {i k : ℕ}

/-- The entries from `i` on succeed one after another: the entries and the memory afterwards. -/
inductive Succeeded (env : BatchEnv) (calls : ℕ → BatchCalls) : ℕ → List (Option BatchMapEntry) →
    BatchMem → List (Option BatchMapEntry) → BatchMem → Prop
  | nil {i : ℕ} {s : BatchMem} : Succeeded env calls i [] s [] s
  | cons {i : ℕ} {e : Option BatchMapEntry} {es es' : List (Option BatchMapEntry)} {s s' s'' : BatchMem}
      {addr : BitVec 64} : batchEntry env (calls i) e s = (s', .ok addr) →
      Succeeded env calls (i + 1) es s' es' s'' →
      Succeeded env calls i (e :: es) s (e.map (BatchMapEntry.at addr) :: es') s''

/-- A call has the effects of the first `k` entries, which succeed, and no others: it reports `k` and
leaves the other entries, and either there is none left or the next one fails with its result. -/
structure BatchExact (env : BatchEnv) (calls : ℕ → BatchCalls) (es : List (Option BatchMapEntry))
    (s : BatchMem) (done : BatchDone) (k : ℕ) (es' : List (Option BatchMapEntry)) (s' : BatchMem) :
    Prop where
  succeeded : Succeeded env calls 0 (es.take k) s es' s'
  stops : k = es.length ∧ done.result = 0 ∨
    ∃ e, es[k]? = some e ∧ (batchEntry env (calls k) e s').2 = .error done.result
  processed : done.processed = k
  entries : done.entries = es' ++ es.drop k
  effects : SameView env.dflt s' done.mem

theorem Succeeded.unique (h : Succeeded env calls i es s es' s') {es₁ : List (Option BatchMapEntry)}
    {s₁ : BatchMem} (h₁ : Succeeded env calls i es s es₁ s₁) : s₁ = s' := by
  induction h generalizing es₁ with
  | nil =>
      cases h₁
      rfl
  | cons hentry _ ih =>
      cases h₁ with
      | cons hentry₁ h₁ =>
          rw [hentry] at hentry₁
          cases hentry₁
          exact ih h₁

theorem succeeded_apart (hsucc : Succeeded env calls i es s es' s')
    (h : Apart env.memSize.toNat s.extents) (hfits : ∀ e ∈ es, ∀ e' ∈ e, e'.Fits env.memSize) :
    Apart env.memSize.toNat s'.extents := by
  induction hsucc with
  | nil => exact h
  | @cons i _ _ _ _ _ _ _ hentry _ ih =>
      have hspec := batchEntry_spec (c := calls i) h (hfits _ List.mem_cons_self)
      rw [hentry] at hspec
      exact ih hspec.apart fun e he => hfits e (List.mem_cons_of_mem _ he)

/-- **A run of the loop**: some entries succeed, and then there is none or one that fails. -/
theorem batchLoop_run (env : BatchEnv) (calls : ℕ → BatchCalls) (i : ℕ)
    (es : List (Option BatchMapEntry)) (s : BatchMem) :
    ∃ k es' s', Succeeded env calls i (es.take k) s es' s' ∧
      (batchLoop env calls i es s).processed = i + k ∧
      (batchLoop env calls i es s).entries = es' ++ es.drop k ∧
      (k = es.length ∧ (batchLoop env calls i es s).result = 0 ∧ (batchLoop env calls i es s).mem = s' ∨
        ∃ e, es[k]? = some e ∧ batchEntry env (calls (i + k)) e s' =
          ((batchLoop env calls i es s).mem, .error (batchLoop env calls i es s).result)) := by
  induction es generalizing i s with
  | nil => exact ⟨0, [], s, .nil, rfl, rfl, .inl ⟨rfl, rfl, rfl⟩⟩
  | cons e es ih =>
      rw [batchLoop]
      rcases hentry : batchEntry env (calls i) e s with ⟨s₁, code | addr⟩
      · exact ⟨0, [], s, .nil, rfl, rfl, .inr ⟨e, rfl, hentry⟩⟩
      · obtain ⟨k, es', s', hsucc, hprocessed, hentries, hstop⟩ := ih (i + 1) s₁
        refine ⟨k + 1, e.map (BatchMapEntry.at addr) :: es', s', .cons hentry hsucc, ?_, ?_, ?_⟩
        · show (batchLoop env calls (i + 1) es s₁).processed = _
          rw [hprocessed, Nat.add_right_comm, Nat.add_assoc]
        · show _ :: (batchLoop env calls (i + 1) es s₁).entries = _
          rw [hentries]
          rfl
        · rw [Nat.add_right_comm] at hstop
          refine hstop.imp (fun hend => ⟨?_, hend.2⟩) fun hfail => hfail
          rw [hend.1, List.length_cons]

/-- Entries that succeed and one that fails are those of the loop. -/
theorem batchLoop_stop (hsucc : Succeeded env calls i (es.take k) s es' s') {e : Option BatchMapEntry}
    (he : es[k]? = some e) {code : BitVec 32} (hfail : batchEntry env (calls (i + k)) e s' = (s'', .error code)) :
    (batchLoop env calls i es s).processed = i + k ∧ (batchLoop env calls i es s).mem = s'' := by
  induction k generalizing i es s es' with
  | zero =>
      cases es with
      | nil => cases he
      | cons e₀ es =>
          obtain rfl := Option.some.inj he
          cases hsucc
          rw [batchLoop]
          rw [Nat.add_zero] at hfail
          rw [hfail]
          exact ⟨rfl, rfl⟩
  | succ k ih =>
      cases es with
      | nil => cases he
      | cons e₀ es =>
          cases hsucc with
          | cons hentry hsucc =>
              have hrest := ih hsucc he (by rwa [Nat.add_right_comm, Nat.add_assoc])
              rw [batchLoop, hentry]
              refine ⟨?_, hrest.2⟩
              show (batchLoop env calls (i + 1) es _).processed = _
              rw [hrest.1, Nat.add_right_comm, Nat.add_assoc]

theorem fits_array {entries : Option (List BatchMapEntry)} {memSize : BitVec 64} (numEntries : ℕ)
    (hfits : ∀ es ∈ entries, ∀ e ∈ es, e.Fits memSize) :
    ∀ e ∈ batchArray entries numEntries, ∀ e' ∈ e, e'.Fits memSize := by
  cases entries with
  | none =>
      intro e he e' he'
      rw [(List.mem_replicate.1 he).2] at he'
      cases he'
  | some es =>
      intro e he e' he'
      obtain ⟨d, hd, rfl⟩ := List.mem_map.1 he
      obtain rfl := Option.some.inj he'
      exact hfits es rfl d hd

/-- **Batches.**  Where no rounded sum wraps, a call has the effects of exactly the entries before the
first that fails, which it counts, exactly when each entry that is reached takes back the mapping that was
found for it at another address than it asks for. -/
theorem batchMap_exact (env : BatchEnv) (calls : ℕ → BatchCalls) (entries : Option (List BatchMapEntry))
    (numEntries : ℕ) (s : BatchMem) (h : Apart env.memSize.toNat s.extents)
    (hfits : ∀ es ∈ entries, ∀ e ∈ es, e.Fits env.memSize) :
    (∃ k es' s', BatchExact env calls (batchArray entries numEntries) s
      (sceKernelBatchMap env calls entries numEntries s) k es' s') ↔
    ∀ k es' s' e, Succeeded env calls 0 ((batchArray entries numEntries).take k) s es' s' →
      (batchArray entries numEntries)[k]? = some e → TakesBack env (calls k) e s' := by
  rw [sceKernelBatchMap]
  have hall := fits_array numEntries hfits
  generalize batchArray entries numEntries = es at hall
  -- what an entry that is reached does
  have hspec : ∀ {k : ℕ} {es' : List (Option BatchMapEntry)} {s' : BatchMem} {e : Option BatchMapEntry},
      Succeeded env calls 0 (es.take k) s es' s' → es[k]? = some e →
      EntrySpec env (calls k) e s' (batchEntry env (calls k) e s') := by
    intro k es' s' e hsucc he
    exact batchEntry_spec (succeeded_apart hsucc h fun d hd => hall d (List.mem_of_mem_take hd))
      (hall e (List.mem_of_getElem? he))
  constructor
  · rintro ⟨k₀, es₀, s₀, hexact⟩ k es' s' e hsucc he
    rcases hentry : batchEntry env (calls k) e s' with ⟨s'', code | addr⟩
    · have hstop := batchLoop_stop hsucc he (by rw [Nat.zero_add]; exact hentry)
      have hk : k₀ = k := by
        rw [← hexact.processed, hstop.1, Nat.zero_add]
      subst hk
      obtain rfl := hsucc.unique hexact.succeeded
      have hfails := (hspec hsucc he).fails code (by rw [hentry])
      rw [← hfails, hentry]
      show SameView env.dflt _ s''
      rw [← hstop.2]
      exact hexact.effects
    · exact (hspec hsucc he).succeeds addr (by rw [hentry])
  · intro hback
    obtain ⟨k, es', s', hsucc, hprocessed, hentries, hstop⟩ := batchLoop_run env calls 0 es s
    rw [Nat.zero_add] at hprocessed hstop
    refine ⟨k, es', s', hsucc, ?_, hprocessed, hentries, ?_⟩
    · rcases hstop with ⟨hk, hresult, -⟩ | ⟨e, he, hentry⟩
      · exact .inl ⟨hk, hresult⟩
      · exact .inr ⟨e, he, by rw [hentry]⟩
    · rcases hstop with ⟨-, -, hmem⟩ | ⟨e, he, hentry⟩
      · rw [hmem]
        exact .refl _ s'
      · have hsame := ((hspec hsucc he).fails _ (by rw [hentry])).2 (hback k es' s' e hsucc he)
        rw [hentry] at hsame
        exact hsame

end Batches

/-- A mapped extent of 64 KiB and a free one. -/
def takenMem : BatchMem where
  direct := {}
  extents := [{ addr := 0x10000, size := 0x10000, isFree := false, name := "heap".toList },
    { addr := 0x20000, size := 0x100000, isFree := true }]
  dmaps := []

theorem apart_takenMem : Apart 0x200000 takenMem.extents := by
  constructor
  · refine List.pairwise_cons.2 ⟨fun b hb x hax hbx => ?_, List.pairwise_singleton _ _⟩
    rw [List.mem_singleton.1 hb] at hbx
    have hlt : x < 0x10000 + 0x10000 := hax.2
    have hge : 0x20000 ≤ x := hbx.1
    omega
  · decide

/-- A process with 2 MiB of guest memory and no physical memory. -/
def smallEnv : BatchEnv where
  dflt := 0x100000
  memSize := 0x200000
  physSize := none

/-- Host calls that succeed. -/
def callsAlways (_ : ℕ) : BatchCalls := { map := mapAlways }

/-- Flexible memory asked for at the mapped extent. -/
def takenEntry (length : BitVec 64) : BatchMapEntry where
  start := 0x10000
  length := length
  protection := 3
  operation := 3

/-- A batch of that entry. -/
def batchOne (length : BitVec 64) : BatchDone :=
  sceKernelBatchMap smallEnv callsAlways (some [takenEntry length]) 1 takenMem

/-- Of 64 KiB nothing is left. -/
theorem batchMap_exact_taken : ∃ k es' s',
    BatchExact smallEnv callsAlways [some (takenEntry 0x10000)] takenMem (batchOne 0x10000) k es' s' := by
  refine (batchMap_exact smallEnv callsAlways (some [takenEntry 0x10000]) 1 takenMem apart_takenMem
    ?_).2 ?_
  · intro es hes e he
    obtain rfl := Option.some.inj hes
    obtain rfl := List.mem_singleton.1 he
    exact fun _ => by decide
  · intro k es' s' e hsucc he e' he' m made hfound _ _
    cases k with
    | succ k => cases he
    | zero =>
        cases hsucc
        obtain rfl := Option.some.inj he
        obtain rfl := Option.some.inj he'
        have hplace : placing smallEnv (callsAlways 0).map (takenEntry 0x10000) takenMem =
            some ({ addr := 0x20000, size := 0x10000, isFree := false, prot := 3, flags := 0x10
                    name := "anon".toList }, none) := by decide
        rw [hplace] at hfound
        cases hfound
        refine ⟨by decide, by decide, fun x hx => ?_, fun _ _ => rfl, fun d hd => by cases hd⟩
        have hlo : 0x20000 ≤ x := hx.1
        have hhi : x < 0x20000 + 0x10000 := hx.2
        exact ⟨_, List.mem_cons_of_mem _ List.mem_cons_self, rfl, hlo, Nat.lt_of_lt_of_le hhi (by decide)⟩

/-- Of 16 KiB, for which 64 KiB are mapped, 48 KiB stay. -/
theorem batchMap_stray : (batchOne 0x4000).processed = 0 ∧ (batchOne 0x4000).result = 0x8002000c ∧
    ¬ ∃ k es' s', BatchExact smallEnv callsAlways [some (takenEntry 0x4000)] takenMem (batchOne 0x4000)
      k es' s' := by
  refine ⟨by decide, by decide, ?_⟩
  rintro ⟨k, es', s', hexact⟩
  have hk : k = 0 := hexact.processed.symm.trans (by decide)
  subst hk
  obtain rfl : s' = takenMem := by
    have hsucc := hexact.succeeded
    cases hsucc
    rfl
  have hstray : MappedAs (batchOne 0x4000).mem.extents 0x24000 (3, 0x10, 0, "anon".toList) := by
    refine ⟨{ addr := 0x24000, size := 0xc000, isFree := false, prot := 3, flags := 0x10
              name := "anon".toList }, by decide, rfl, by decide, by decide⟩
  obtain ⟨d, hd, -, -, hattrs⟩ := (hexact.effects.bytes.mapped _ _).1 hstray
  have hnone : ∀ d ∈ takenMem.extents, d.attrs ≠ (3, 0x10, 0, "anon".toList) := by decide
  exact hnone d hd hattrs

end PS4Recomp.Runtime
