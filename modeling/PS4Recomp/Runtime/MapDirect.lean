import PS4Recomp.Runtime.DirectMemBytes
import PS4Recomp.Runtime.DirectMappings
import PS4Recomp.Runtime.VmFixed

/-!
# Mapping direct memory

`sceKernelMapDirectMemory`: a place in guest memory, and the alias of physical memory recorded for it.

* `MapCalls` — what the calls to the host come to, `dmAlias` — the alias, if it can be made;
* `findAllocated` — the block of a physical range, `mapExtent` — the extent mapped for it;
* `sceKernelMapDirectMemory`, `MapDone` — the call and what it has done;
* `Chosen` — the extent that the searches choose, the place in it and the length to cut,
  `cutSize` — the size of what is cut, `mapExtent_chosen` — a mapping lies there and has that size;
* `AliasInside` — an alias lies in its extent and in its block;
* **`mapDirect_inside`** — it does exactly when its length, rounded to 16 KiB, fits in both;
* `mapDirect_beyond` — a page mapped aliases the block behind it.

`mach_vm_remap` is a parameter. The guest address noted in the block is left out.
-/

namespace PS4Recomp.Runtime

open Library DirectMem

/-- What `calloc` and `mach_vm_remap` come to in a call. -/
structure MapCalls where
  callocInit : Bool := true
  fixedPrefix : Bool := true
  fixedSplit : Bool := true
  alignedPrefix : Bool := true
  alignedSplit : Bool := true
  callocMapping : Bool := true
  remap : (vaddr phys len : BitVec 64) → Bool

/-- The mapping that `dm_alias` records; `physSize` is `g_phys_size` where there is physical memory. -/
def dmAlias (c : MapCalls) (memSize : BitVec 64) (physSize : Option (BitVec 64))
    (vaddr phys len : BitVec 64) : Option DirectMapping :=
  match physSize with
  | none => none
  | some physSize =>
      if (vaddr ||| phys ||| len) &&& 0x3fff ≠ 0 ∨ physSize < phys + len ∨ memSize < vaddr + len then none
      else if c.remap vaddr phys len && c.callocMapping then some { vaddr, size := len, phys }
      else none

/-- The allocated block of a physical range. -/
def findAllocated (physAddr length : BitVec 64) (blocks : List DirectMemBlock) :
    Option DirectMemBlock :=
  blocks.find? fun b => !b.isFree && decide (b.physOffset.toInt ≤ physAddr.toInt) &&
    decide (physAddr + length ≤ b.physOffset + b.size)

/-- The name of the extents. -/
def directName : Option (List Char) := some "direct_mem".toList

/-- The fixed mapping that is tried first, where an address is given. -/
def mapFixed (c : MapCalls) (memSize addrIn len : BitVec 64) (prot flags : BitVec 32)
    (l : List GuestVMExtent) : List GuestVMExtent × Option GuestVMExtent :=
  if addrIn ≠ 0 then
    recompVmAllocFixed memSize c.fixedPrefix c.fixedSplit addrIn len prot flags directName l
  else (l, none)

/-- The extent mapped, at the address that is asked for or anywhere. -/
def mapExtent (c : MapCalls) (memSize addrIn len alignment : BitVec 64) (prot flags : BitVec 32)
    (l : List GuestVMExtent) : List GuestVMExtent × Option GuestVMExtent :=
  match mapFixed c memSize addrIn len prot flags l with
  | (l, some m) => (l, some m)
  | (l, none) =>
      recompVmAllocNamedAligned c.alignedPrefix c.alignedSplit len alignment prot flags directName l

/-- The state after a call, its result, and the block, extent and alias of one that succeeds. -/
structure MapDone where
  mem : DirectMem
  extents : List GuestVMExtent
  dmaps : List DirectMapping
  result : Except (BitVec 32) (BitVec 64)
  made : Option (DirectMemBlock × GuestVMExtent × Option DirectMapping) := none

theorem dmAlias_eq {c : MapCalls} {memSize : BitVec 64} {physSize : Option (BitVec 64)}
    {vaddr phys len : BitVec 64} {a : DirectMapping}
    (h : dmAlias c memSize physSize vaddr phys len = some a) : a = { vaddr, size := len, phys } := by
  rw [dmAlias.eq_def] at h
  split at h
  · cases h
  · split at h
    · cases h
    · split at h
      · cases h
        rfl
      · cases h

/-- The length of the alias. -/
def aliasLen (length : BitVec 64) : BitVec 64 := (length + 0x3fff) &&& ~~~0x3fff

/-- `sceKernelMapDirectMemory`. -/
def sceKernelMapDirectMemory (c : MapCalls) (dflt memSize : BitVec 64) (physSize : Option (BitVec 64))
    (addrIn length : BitVec 64) (prot flags : BitVec 32) (physAddr alignment : BitVec 64)
    (mem : DirectMem) (extents : List GuestVMExtent) (dmaps : List DirectMapping) : MapDone :=
  if length = 0 then { mem, extents, dmaps, result := .error 0x80020016 }
  else
    let alignment := alignmentOf alignment
    let mem := mem.init dflt c.callocInit
    match findAllocated physAddr length mem.blocks with
    | none => { mem, extents, dmaps, result := .error 0x80020016 }
    | some b =>
        match mapExtent c memSize addrIn (alignUp length alignment) alignment prot flags extents with
        | (extents, none) => { mem, extents, dmaps, result := .error 0x8002000c }
        | (extents, some m) =>
            let made := dmAlias c memSize physSize m.addr physAddr (aliasLen length)
            { mem, extents, dmaps := made.toList ++ dmaps, result := .ok m.addr
              made := some (b, m, made) }

/-! ### the extent -/

/-- The two passes of the search for an extent. -/
def bestExtent (len alignment : BitVec 64) (flags : BitVec 32) (l : List GuestVMExtent) :
    Option (List GuestVMExtent × GuestVMExtent × List GuestVMExtent) :=
  (bestFit len alignment (GuestVMExtent.preferred flags directName) none [] l).or
    (bestFit len alignment (fun _ => true) none [] l)

/-- The extent that the searches choose for a mapping, its place there and the length to cut, and
whether a node for the rest is allocated. -/
inductive Chosen (c : MapCalls) (memSize addrIn len alignment : BitVec 64) (prot flags : BitVec 32)
    (l : List GuestVMExtent) : GuestVMExtent → BitVec 64 → BitVec 64 → Bool → Prop
  | fixed {pre post : List GuestVMExtent} {e : GuestVMExtent} : addrIn ≠ 0 →
      firstSplit (GuestVMExtent.holds (pageDown addrIn) (pageUp len)) l = some (pre, e, post) →
      Chosen c memSize addrIn len alignment prot flags l e (pageDown addrIn) (pageUp len) c.fixedSplit
  | aligned {pre post : List GuestVMExtent} {e : GuestVMExtent} :
      (mapFixed c memSize addrIn len prot flags l).2 = none →
      bestExtent (alignUp len (vmAlignment alignment)) (vmAlignment alignment) flags l =
        some (pre, e, post) →
      Chosen c memSize addrIn len alignment prot flags l e (e.candidate (vmAlignment alignment))
        (alignUp len (vmAlignment alignment)) c.alignedSplit

/-- The size of the mapping cut out of an extent: the length, or what is left of the extent. -/
def cutSize (callocSplit : Bool) (place len : BitVec 64) (e : GuestVMExtent) : BitVec 64 :=
  let rest := e.size - (place - e.addr)
  if len < rest ∧ callocSplit then len else rest

theorem carve_cutSize {cp cs : Bool} {place len : BitVec 64} {prot flags : BitVec 32}
    {name : Option (List Char)} {e m : GuestVMExtent} {front back : List GuestVMExtent}
    (h : e.carve cp cs place len prot flags name = some (front, m, back)) :
    m.addr = place ∧ m.size = cutSize cs place len e := by
  -- what is in front of the mapping says nothing about it
  have hmap : ∀ {x : GuestVMExtent × List GuestVMExtent},
      (if e.addr < place then
        if cp then some ([{ addr := e.addr, size := place - e.addr, isFree := true }], x) else none
      else some ([], x)) = some (front, m, back) → x.1 = m := by
    intro x hx
    split at hx
    · split at hx
      · cases hx
        rfl
      · cases hx
    · cases hx
      rfl
  have hcut := hmap h
  rw [cutSize]
  by_cases hsplit : len < e.size - (place - e.addr) ∧ cs = true
  · rw [if_pos hsplit] at hcut ⊢
    rw [← hcut]
    exact ⟨rfl, rfl⟩
  · rw [if_neg hsplit] at hcut ⊢
    rw [← hcut]
    exact ⟨rfl, rfl⟩

/-- The search without a fixed address maps the best extent, or nothing. -/
theorem allocNamedAligned_chosen {cp cs : Bool} {size alignment : BitVec 64} {prot flags : BitVec 32}
    {l l' : List GuestVMExtent} {m : GuestVMExtent}
    (h : recompVmAllocNamedAligned cp cs size alignment prot flags directName l = (l', some m)) :
    ∃ pre e post, bestExtent (alignUp size (vmAlignment alignment)) (vmAlignment alignment) flags l =
        some (pre, e, post) ∧ m ∈ l' ∧ m.addr = e.candidate (vmAlignment alignment) ∧
      m.size = cutSize cs (e.candidate (vmAlignment alignment)) (alignUp size (vmAlignment alignment)) e := by
  rw [recompVmAllocNamedAligned] at h
  split at h
  · cases h
  · dsimp only at h
    split at h
    · cases h
    · rename_i pre e post hfound
      split at h
      · cases h
      · rename_i front cut back hcarve
        cases h
        exact ⟨pre, e, post, hfound, by simp, carve_cutSize hcarve⟩

/-- A mapping that is made lies at the place chosen and has the size that is cut. -/
theorem mapExtent_chosen {c : MapCalls} {memSize addrIn len alignment : BitVec 64}
    {prot flags : BitVec 32} {l l' : List GuestVMExtent} {m : GuestVMExtent}
    (h : mapExtent c memSize addrIn len alignment prot flags l = (l', some m)) :
    ∃ e place n split, Chosen c memSize addrIn len alignment prot flags l e place n split ∧
      m ∈ l' ∧ m.addr = place ∧ m.size = cutSize split place n e := by
  have hfixed : mapFixed c memSize addrIn len prot flags l = (l, none) ∨
      ∃ pre e post front m back, addrIn ≠ 0 ∧
        firstSplit (GuestVMExtent.holds (pageDown addrIn) (pageUp len)) l = some (pre, e, post) ∧
        e.carve c.fixedPrefix c.fixedSplit (pageDown addrIn) (pageUp len) prot flags directName =
          some (front, m, back) ∧
        mapFixed c memSize addrIn len prot flags l = (pre ++ (front ++ m :: back) ++ post, some m) := by
    rw [mapFixed]
    split
    · rename_i haddr
      rcases allocFixed_cases memSize c.fixedPrefix c.fixedSplit addrIn len prot flags directName l with
        hsame | ⟨pre, e, post, front, m, back, hfound, -, -, hcarve, heq⟩
      · exact .inl hsame
      · exact .inr ⟨pre, e, post, front, m, back, haddr, hfound, hcarve, heq⟩
    · exact .inl rfl
  rw [mapExtent] at h
  rcases hfixed with hnone | ⟨pre, e, post, front, cut, back, haddr, hfound, hcarve, heq⟩
  · rw [hnone] at h
    obtain ⟨pre, e, post, hfound, hcut⟩ := allocNamedAligned_chosen h
    exact ⟨e, _, _, _, .aligned (by rw [hnone]) hfound, hcut⟩
  · rw [heq] at h
    cases h
    exact ⟨e, _, _, _, .fixed haddr hfound, by simp, carve_cutSize hcarve⟩

/-! ### the alias -/

/-- The virtual addresses of an alias are in the extent and the physical ones in the block. -/
structure AliasInside (a : DirectMapping) (m : GuestVMExtent) (b : DirectMemBlock) : Prop where
  extent : ∀ x, a.vaddr.toNat ≤ x → x < a.vaddr.toNat + a.size.toNat → m.Has x
  block : ∀ x, a.phys.toNat ≤ x → x < a.phys.toNat + a.size.toNat → b.Has x

/-- The length of the alias fits: in the length cut for the extent, and in the block behind the physical
address. -/
def AliasSuits (physAddr length : BitVec 64) (callocSplit : Bool) (place n : BitVec 64)
    (e : GuestVMExtent) (b : DirectMemBlock) : Prop :=
  aliasLen length = 0 ∨ aliasLen length ≤ cutSize callocSplit place n e ∧ b.physOffset ≤ physAddr ∧
    physAddr.toNat + (aliasLen length).toNat ≤ b.physOffset.toNat + b.size.toNat

theorem range_iff {lo n lo' n' : ℕ} : (∀ x, lo ≤ x → x < lo + n → lo' ≤ x ∧ x < lo' + n') ↔
    n = 0 ∨ lo' ≤ lo ∧ lo + n ≤ lo' + n' := by
  constructor
  · intro h
    rcases Nat.eq_zero_or_pos n with hz | hpos
    · exact .inl hz
    · have hfirst := h lo (Nat.le_refl _) (by omega)
      have hlast := h (lo + n - 1) (by omega) (by omega)
      exact .inr ⟨hfirst.1, by omega⟩
  · rintro (hz | ⟨hlo, hhi⟩) x hx hx'
    · omega
    · exact ⟨by omega, by omega⟩

theorem aliasInside_iff {physAddr length place n : BitVec 64} {split : Bool} {e m : GuestVMExtent}
    {b : DirectMemBlock} (hsize : m.size = cutSize split place n e) :
    AliasInside { vaddr := m.addr, size := aliasLen length, phys := physAddr } m b ↔
      AliasSuits physAddr length split place n e b := by
  have hboth : AliasInside { vaddr := m.addr, size := aliasLen length, phys := physAddr } m b ↔
      ((aliasLen length).toNat = 0 ∨ m.addr.toNat ≤ m.addr.toNat ∧
        m.addr.toNat + (aliasLen length).toNat ≤ m.addr.toNat + m.size.toNat) ∧
      ((aliasLen length).toNat = 0 ∨ b.physOffset.toNat ≤ physAddr.toNat ∧
        physAddr.toNat + (aliasLen length).toNat ≤ b.physOffset.toNat + b.size.toNat) := by
    rw [← range_iff, ← range_iff]
    exact ⟨fun h => ⟨h.extent, h.block⟩, fun h => ⟨h.1, h.2⟩⟩
  have hzero : aliasLen length = 0 ↔ (aliasLen length).toNat = 0 :=
    ⟨fun h => by rw [h]; rfl, fun h => BitVec.eq_of_toNat_eq h⟩
  rw [hboth, AliasSuits, hzero, ← hsize, BitVec.le_def, BitVec.le_def]
  omega

/-- **Aliases.**  Where an alias is recorded for a mapping, it stays inside the extent that is mapped and
the block that is found exactly when its length, which is rounded to 16 KiB, fits in both. -/
theorem mapDirect_inside (c : MapCalls) (dflt memSize : BitVec 64) (physSize : Option (BitVec 64))
    (addrIn length : BitVec 64) (prot flags : BitVec 32) (physAddr alignment : BitVec 64)
    (mem : DirectMem) (extents : List GuestVMExtent) (dmaps : List DirectMapping)
    {b : DirectMemBlock} {m : GuestVMExtent} {a : DirectMapping} :
    let done := sceKernelMapDirectMemory c dflt memSize physSize addrIn length prot flags physAddr
      alignment mem extents dmaps
    done.made = some (b, m, some a) →
      done.result = .ok m.addr ∧ a ∈ done.dmaps ∧ m ∈ done.extents ∧ b ∈ done.mem.blocks ∧
      b.isFree = false ∧
      ∃ e place n split, Chosen c memSize addrIn (alignUp length (alignmentOf alignment))
          (alignmentOf alignment) prot flags extents e place n split ∧
        (AliasInside a m b ↔ AliasSuits physAddr length split place n e b) := by
  intro done hmade
  have hdone : done = sceKernelMapDirectMemory c dflt memSize physSize addrIn length prot flags physAddr
    alignment mem extents dmaps := rfl
  rw [sceKernelMapDirectMemory] at hdone
  split at hdone
  · rw [hdone] at hmade
    cases hmade
  · dsimp only at hdone
    split at hdone
    · rw [hdone] at hmade
      cases hmade
    · rename_i found hfound
      split at hdone
      · rw [hdone] at hmade
        cases hmade
      · rename_i extents' m' hmap
        rw [hdone] at hmade ⊢
        dsimp only at hmade
        have hparts := Option.some.inj hmade
        rw [Prod.mk.injEq, Prod.mk.injEq] at hparts
        obtain ⟨rfl, rfl, halias⟩ := hparts
        obtain ⟨e, place, n, split, hchosen, hmem, -, hsize⟩ := mapExtent_chosen hmap
        have hfree := List.find?_some hfound
        rw [Bool.and_eq_true, Bool.and_eq_true, Bool.not_eq_true'] at hfree
        refine ⟨rfl, ?_, hmem, List.mem_of_find?_eq_some hfound, hfree.1.1, e, place, n, split,
          hchosen, ?_⟩
        · dsimp only
          rw [halias]
          exact List.mem_cons_self
        · rw [dmAlias_eq halias]
          exact aliasInside_iff hsize

/-- A free extent. -/
def freeExtent : List GuestVMExtent := [{ addr := 0x10000, size := 0x100000, isFree := true }]

/-- A host that maps whatever it is asked to. -/
def mapAlways : MapCalls where
  remap _ _ _ := true

/-- An allocated block of the size, and another allocated one behind it. -/
def twoBlocks (size : BitVec 64) : DirectMem where
  blocks := [{ physOffset := 0, size, isFree := false },
    { physOffset := size, size := 0x100000 - size, isFree := false }]
  inited := true

/-- A request for `length` bytes at the first block. -/
def mapFirst (size length : BitVec 64) : MapDone :=
  sceKernelMapDirectMemory mapAlways 0x100000 0x200000 (some 0x100000) 0 length 3 0 0 0 (twoBlocks size)
    freeExtent []

/-- The alias of 16 KiB stays inside. -/
theorem mapDirect_inside_block : ∃ b m a, (mapFirst 0x4000 0x4000).made = some (b, m, some a) ∧
    AliasInside a m b := by
  refine ⟨_, _, _, rfl, ?_⟩
  obtain ⟨-, -, -, -, -, e, place, n, split, hchosen, hiff⟩ := mapDirect_inside mapAlways 0x100000 0x200000
    (some 0x100000) 0 0x4000 3 0 0 0 (twoBlocks 0x4000) freeExtent [] rfl
  refine hiff.2 (.inr ?_)
  cases hchosen with
  | fixed haddr => exact absurd rfl haddr
  | aligned _ hfound =>
      cases hfound
      decide

/-- The alias of a page has 16 KiB: it goes past the extent, and into the second block. -/
theorem mapDirect_beyond : ∃ b m a d, (mapFirst 0x1000 0x1000).made = some (b, m, some a) ∧
    ¬ AliasInside a m b ∧ d ∈ (mapFirst 0x1000 0x1000).mem.blocks ∧ d ≠ b ∧ d.isFree = false ∧
    a.vaddr.toNat + 0x1000 < a.vaddr.toNat + a.size.toNat ∧ ¬ m.Has (a.vaddr.toNat + 0x1000) ∧
    d.Has (a.phys.toNat + 0x1000) := by
  refine ⟨_, _, _, { physOffset := 0x1000, size := 0xff000, isFree := false }, rfl, fun h => ?_,
    by decide, by decide, rfl, by decide, fun h => absurd h.2 (by decide), ⟨by decide, by decide⟩⟩
  exact absurd (h.block 0x1000 (by decide) (by decide)).2 (by decide)

end PS4Recomp.Runtime
