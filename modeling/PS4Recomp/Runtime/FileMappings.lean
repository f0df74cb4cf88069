import PS4Recomp.Runtime.BatchMap
import PS4Recomp.Runtime.ReadPaths

/-!
# Mapping files

`sceKernelMmap`, `mmap` and system call 477 of `ps4_syscalls.c`: a range of guest memory, and the bytes of
a file read into it.

* `Regs`, `Process`, `MapHost` — the registers read, the memory and the files of a process, what the host
  does with a page that is unmapped;
* `Request`, `mapRange`, `readsFile`, `Process.unmap` — the parts of a call;
* `mapFile` — what the three share: a range, the read, and the undo step of a read that fails;
* `shimMmap`, `shimSceKernelMmap`, `sysMmap`, `MmapCall` — the calls;
* `Unchanged` — nothing has changed for the mapped bytes, the cell of errno aside, `Covers` — a mapping
  has all the bytes of a length, `Sound` — what a call leaves is one or the other;
* `ReadFails`, `Restorable`, `Fine` — the condition;
* `mapRange_small`, `mapRange_large` — a range for a length that memory has, and for one it has not,
  `wrapped_same` — the latter changes nothing only where it has no byte;
* `run_refused`, `run_admitted` — a call;
* `covers_iff`, `undone_iff` — when a mapping has its length, and when a failing read changes nothing;
* **`mmap_sound_iff`** — a call is sound exactly when it meets the condition;
* `mmap_reservation_lost` — a read that fails takes a reservation away, and a mapping of 16 EiB has 1 MiB.

A read is `ps4_vfs_pread` or the host's `pread`, which move no bytes when they fail.  The texts printed are
left out.
-/

namespace PS4Recomp.Runtime.FileMappings

open Library ReadPaths

/-! ### a process -/

/-- The guest registers that the calls read. -/
structure Regs where
  rdi : BitVec 64 := 0
  rsi : BitVec 64 := 0
  rdx : BitVec 64 := 0
  rcx : BitVec 64 := 0
  r8 : BitVec 64 := 0
  r9 : BitVec 64 := 0
  rsp : BitVec 64 := 0
  fsBase : BitVec 64 := 0

/-- The memory of a process, the bytes from `mem_base` on and its files. -/
structure Process where
  memSize : BitVec 64
  vm : BatchMem
  bytes : ℕ → BitVec 8
  world : World

/-- What the calls to the host come to: those of a mapping and of its undo step, and what is left in the
pages of a range that is unmapped. -/
structure MapHost where
  calls : BatchCalls
  released : (ℕ → BitVec 8) → ℕ → BitVec 8

/-- Bytes written from an address on. -/
def putBytes (mem : ℕ → BitVec 8) (a : ℕ) (bs : List (BitVec 8)) : ℕ → BitVec 8 := fun x =>
  if a ≤ x then (bs[x - a]?).getD (mem x) else mem x

theorem putBytes_outside {mem : ℕ → BitVec 8} {a x : ℕ} {bs : List (BitVec 8)}
    (h : ¬ (a ≤ x ∧ x < a + bs.length)) : putBytes mem a bs x = mem x := by
  rw [putBytes]
  by_cases hle : a ≤ x
  · rw [if_pos hle, List.getElem?_eq_none (by omega)]
    rfl
  · rw [if_neg hle]

/-- A byte of the errno of a thread. -/
def ErrnoCell (fsBase : BitVec 64) (x : ℕ) : Prop :=
  fsBase ≠ 0 ∧ fsBase.toNat + 0x100 ≤ x ∧ x < fsBase.toNat + 0x100 + 4

/-- `set_guest_errno`. -/
def setGuestErrno (fsBase : BitVec 64) (err : ReadPaths.Errno) (p : Process) : Process :=
  if fsBase ≠ 0 then { p with bytes := putBytes p.bytes (fsBase.toNat + 0x100) (toLE 4 err) } else p

/-- `recomp_vm_free`: the extents, the direct mappings and the pages. -/
def Process.unmap (h : MapHost) (addr size : BitVec 64) (p : Process) : Process :=
  { p with
    vm := (p.vm.free h.calls addr size).1
    bytes :=
      match (freeBegin h.calls.callocStart h.calls.callocStop h.calls.malloc addr size p.vm.extents).2 with
      | .inl _ => p.bytes
      | .inr q => fun x =>
          if q.ranges.any (fun r => decide (r.addr.toNat ≤ x ∧ x < r.addr.toNat + r.size.toNat)) then
            h.released p.bytes x
          else p.bytes x }

/-! ### a call -/

/-- The arguments of a mapping. -/
structure Request where
  addr : BitVec 64
  len : BitVec 64
  prot : BitVec 32
  flags : BitVec 32
  fd : BitVec 32
  offset : BitVec 64

/-- `(len + align - 1) & ~(align - 1)` for 64 KiB. -/
def alignedLen (len : BitVec 64) : BitVec 64 := alignUp len 65536

/-- The range of a mapping: at its address, or anywhere. -/
def mapRange (h : MapHost) (name : List Char) (r : Request) (p : Process) :
    List GuestVMExtent × Option GuestVMExtent :=
  placeExtent h.calls.map p.memSize r.addr (alignedLen r.len) 65536 r.prot r.flags (some name) p.vm.extents

/-- `!(flags & 0x1000) && fd >= 0`. -/
def Request.readsFile (r : Request) : Prop := r.flags &&& 0x1000 = 0 ∧ 0 ≤ r.fd.toInt

instance (r : Request) : Decidable r.readsFile := inferInstanceAs (Decidable (_ ∧ _))

/-- `pread` and `ps4_vfs_pread`. -/
abbrev Pread := World → Int → ℕ → Int → Except ReadPaths.Errno (List UInt8) × World

/-- The read of a mapping. -/
def Request.read (pread : Pread) (r : Request) (w : World) : Except ReadPaths.Errno (List UInt8) × World :=
  pread w r.fd.toInt r.len.toNat r.offset.toInt

/-- Why a mapping is not made. -/
inductive MapFailure where
  | noRange
  | read (err : ReadPaths.Errno)

def MapFailure.errno : MapFailure → ReadPaths.Errno
  | .noRange => enomem
  | .read err => err

/-- The part that the calls share; `report` is what an error does to the process before the range is given
back. -/
def mapFile (h : MapHost) (name : List Char) (pread : Pread) (report : ReadPaths.Errno → Process → Process)
    (r : Request) (p : Process) : Process × Except MapFailure (BitVec 64) :=
  match mapRange h name r p with
  | (l, none) => (report enomem { p with vm := { p.vm with extents := l } }, .error .noRange)
  | (l, some m) =>
      let p := { p with vm := { p.vm with extents := l } }
      if r.readsFile then
        match r.read pread p.world with
        | (.error err, w) =>
            ((report err { p with world := w }).unmap h m.addr (alignedLen r.len), .error (.read err))
        | (.ok bs, w) =>
            ({ p with world := w, bytes := putBytes p.bytes m.addr.toNat (bs.map UInt8.toBitVec) },
              .ok m.addr)
      else (p, .ok m.addr)

/-- What a call leaves: `rax`, the address of the mapping that is made, and the process. -/
structure MapDone where
  rax : BitVec 64
  mapped : Option (BitVec 64) := none
  proc : Process

/-- A call that reports in `rax` and errno. -/
def posixMmap (h : MapHost) (name : List Char) (pread : Pread) (fsBase : BitVec 64) (r : Request)
    (p : Process) : MapDone :=
  if r.len = 0 then { rax := -1, proc := setGuestErrno fsBase einval p }
  else
    match mapFile h name pread (setGuestErrno fsBase) r p with
    | (p, .error _) => { rax := -1, proc := p }
    | (p, .ok addr) => { rax := addr, mapped := some addr, proc := p }

/-- The arguments of the two functions. -/
def Regs.request (g : Regs) : Request where
  addr := g.rdi
  len := g.rsi
  prot := g.rdx.setWidth 32
  flags := g.rcx.setWidth 32
  fd := g.r8.setWidth 32
  offset := g.r9

/-- The arguments of the system call. -/
def Regs.sysRequest (g : Regs) (p : Process) : Request where
  addr := g.rsi
  len := g.rdx
  prot := g.rcx.setWidth 32
  flags := g.r8.setWidth 32
  fd := g.r9.setWidth 32
  offset := if g.rsp ≠ 0 ∧ g.rsp + 16 ≤ p.memSize then word64 p.bytes (g.rsp + 8).toNat else 0

def shimMmap (h : MapHost) (g : Regs) (p : Process) : MapDone :=
  posixMmap h "mmap".toList ps4VfsPread g.fsBase g.request p

/-- System call 477. -/
def sysMmap (h : MapHost) (g : Regs) (p : Process) : MapDone :=
  posixMmap h "mmap_sys".toList hostPread g.fsBase (g.sysRequest p) p

/-- `res_out`. -/
def Regs.resOut (g : Regs) (p : Process) : BitVec 64 :=
  if g.rsp ≠ 0 ∧ g.rsp + 8 ≤ p.memSize then word64 p.bytes (g.rsp + 8).toNat else 0

def shimSceKernelMmap (h : MapHost) (g : Regs) (p : Process) : MapDone :=
  let r := g.request
  let resOut := g.resOut p
  if r.len = 0 ∨ resOut = 0 then { rax := 0x80020016, proc := p }
  else
    match mapFile h "sceKernelMmap".toList ps4VfsPread (fun _ p => p) r p with
    | (p, .error .noRange) => { rax := 0x8002000c, proc := p }
    | (p, .error (.read err)) => { rax := BitVec.ofNat 64 (sceKernelError err), proc := p }
    | (p, .ok addr) =>
        { rax := 0, mapped := some addr
          proc := { p with bytes := putBytes p.bytes resOut.toNat (toLE 8 addr.toNat) } }

/-- The three calls. -/
inductive MmapCall where
  | sceKernelMmap
  | mmap
  | syscall477
  deriving DecidableEq

namespace MmapCall

def run : MmapCall → MapHost → Regs → Process → MapDone
  | sceKernelMmap => shimSceKernelMmap
  | mmap => shimMmap
  | syscall477 => sysMmap

def request (g : Regs) (p : Process) : MmapCall → Request
  | sceKernelMmap | mmap => g.request
  | syscall477 => g.sysRequest p

def name : MmapCall → List Char
  | sceKernelMmap => "sceKernelMmap".toList
  | mmap => "mmap".toList
  | syscall477 => "mmap_sys".toList

def pread : MmapCall → Pread
  | sceKernelMmap | mmap => ps4VfsPread
  | syscall477 => hostPread

/-- What an error does to the process. -/
def report (fsBase : BitVec 64) : MmapCall → ReadPaths.Errno → Process → Process
  | sceKernelMmap => fun _ p => p
  | mmap | syscall477 => setGuestErrno fsBase

/-- The arguments are looked at: there is a length, and a place for the address. -/
def Admits (g : Regs) (p : Process) : MmapCall → Prop
  | sceKernelMmap => g.request.len ≠ 0 ∧ g.resOut p ≠ 0
  | mmap => g.request.len ≠ 0
  | syscall477 => (g.sysRequest p).len ≠ 0

/-- The bytes in which an error is reported. -/
def Reports (g : Regs) (x : ℕ) : MmapCall → Prop
  | sceKernelMmap => False
  | mmap | syscall477 => ErrnoCell g.fsBase x

end MmapCall

/-! ### what a call is to leave -/

/-- What the extents say about a byte is as before, and so are the bytes that were mapped, but for the
cell in which the error is reported. -/
structure Unchanged (call : MmapCall) (g : Regs) (p p' : Process) : Prop where
  extents : SameBytes p.vm.extents p'.vm.extents
  bytes : ∀ x attrs, MappedAs p.vm.extents x attrs → ¬ call.Reports g x → p'.bytes x = p.bytes x

/-- A mapping has all the bytes of a length from an address on, in guest memory. -/
def Covers (p : Process) (addr len : BitVec 64) : Prop :=
  ∃ m ∈ p.vm.extents, m.isFree = false ∧ ∀ x, addr.toNat ≤ x → x < addr.toNat + len.toNat →
    x < p.memSize.toNat ∧ m.Has x

/-- A call that fails changes nothing, and one that succeeds maps its length. -/
def Sound (call : MmapCall) (h : MapHost) (g : Regs) (p : Process) : Prop :=
  match (call.run h g p).mapped with
  | none => Unchanged call g p (call.run h g p).proc
  | some addr => Covers (call.run h g p).proc addr (call.request g p).len

/-- The read of a mapping fails. -/
def ReadFails (pread : Pread) (r : Request) (w : World) : Prop :=
  r.readsFile ∧ ∃ err w', r.read pread w = (.error err, w')

/-- The undo step can give a range back: `recomp_vm_free` takes its address and has memory for its notes,
the range has the pages of the length, and all of it was free. -/
structure Restorable (h : MapHost) (n : BitVec 64) (l : List GuestVMExtent) (m : GuestVMExtent) : Prop where
  frees : m.addr ≠ 0 ∧ h.calls.malloc = true
  size : m.size = n
  free : ∀ x, m.Has x → FreeAt l x

/-- The condition on a call whose arguments are looked at: where there is a range for it, the length is one
that memory has, or, the read failing, the range has no byte or can be given back. -/
def Fine (call : MmapCall) (h : MapHost) (g : Regs) (p : Process) : Prop :=
  let r := call.request g p
  call.Admits g p → ∀ l' m, mapRange h call.name r p = (l', some m) →
    (ReadFails call.pread r p.world →
      m.size = 0 ∨ Restorable h (alignedLen r.len) p.vm.extents m) ∧
    (¬ ReadFails call.pread r p.world → r.len ≤ p.memSize)

/-! ### the length -/

variable {len : BitVec 64}

theorem toNat_alignedLen : (alignedLen len).toNat =
    if len.toNat + 65535 < 2 ^ 64 then roundUp len.toNat 65536 else 0 := by
  have hk : (65536 : BitVec 64).toNat = 2 ^ 16 := rfl
  rw [alignedLen, alignUp]
  by_cases hwrap : len.toNat + 65535 < 2 ^ 64
  · rw [if_pos hwrap]
    exact toNat_roundUp_word hk (by rw [hk]; omega)
  · rw [if_neg hwrap]
    exact roundUp_word_wrap hk (by rw [hk]; omega)

theorem dvd_alignedLen : 65536 ∣ (alignedLen len).toNat := by
  rw [toNat_alignedLen]
  split
  · exact dvd_roundUp _ _
  · exact Nat.dvd_zero _

theorem alignedLen_le : (alignedLen len).toNat ≤ len.toNat + 65535 := by
  rw [toNat_alignedLen]
  split
  · exact (roundUp_le _ _).trans (by omega)
  · exact Nat.zero_le _

theorem le_alignedLen (h : alignedLen len ≠ 0) : len.toNat ≤ (alignedLen len).toNat := by
  have hne : (alignedLen len).toNat ≠ 0 := fun hz => h (BitVec.eq_of_toNat_eq hz)
  rw [toNat_alignedLen] at hne ⊢
  split
  · exact le_roundUp _ (by omega)
  · rename_i hwrap
    exact absurd (if_neg hwrap) hne

theorem pageUp_alignedLen : pageUp (alignedLen len) = alignedLen len := by
  have hdvd : 4096 ∣ (alignedLen len).toNat := Nat.dvd_trans (by decide) (@dvd_alignedLen len)
  have hlt := (alignedLen len).isLt
  obtain ⟨q, hq⟩ := hdvd
  refine BitVec.eq_of_toNat_eq ?_
  rw [toNat_pageUp (by omega)]
  exact Nat.le_antisymm (roundUp_le_of_dvd (by decide) (Nat.le_refl _) ⟨q, hq⟩) (le_roundUp _ (by decide))

theorem alignedLen_idem : alignUp (alignedLen len) 65536 = alignedLen len := by
  have hlt := (alignedLen len).isLt
  obtain ⟨q, hq⟩ := @dvd_alignedLen len
  refine BitVec.eq_of_toNat_eq ?_
  show (alignedLen (alignedLen len)).toNat = _
  rw [toNat_alignedLen, if_pos (by omega)]
  exact Nat.le_antisymm (roundUp_le_of_dvd (by decide) (Nat.le_refl _) ⟨q, hq⟩) (le_roundUp _ (by decide))

/-! ### the range -/

variable {M : ℕ} {l l' pre post es : List GuestVMExtent} {e m : GuestVMExtent} {h : MapHost}
  {name : List Char} {r : Request} {p : Process}

theorem mapRange_small (hmem : p.memSize.toNat < 2 ^ 62) (hapart : Apart p.memSize.toNat p.vm.extents)
    (hlen : r.len ≤ p.memSize) (hdone : mapRange h name r p = (l', some m)) :
    Placed p.memSize.toNat (alignedLen r.len) (some name) p.vm.extents l' m := by
  have hle := @alignedLen_le r.len
  rw [BitVec.le_def] at hlen
  exact placeExtent_placed (k := 16) rfl (by omega) (Nat.le_refl _) hapart (by omega) hdone

/-- A range for a length that memory has not lies in a free extent, and its end wraps. -/
theorem mapRange_large (hlen : ¬ r.len ≤ p.memSize) (hapart : Apart p.memSize.toNat p.vm.extents)
    (hdone : mapRange h name r p = (l', some m)) :
    ∃ pre e post front back, p.vm.extents = pre ++ e :: post ∧ l' = pre ++ (front ++ m :: back) ++ post ∧
      e.isFree = true ∧ e.addr ≤ e.candidate 65536 ∧
      2 ^ 64 ≤ (e.candidate 65536).toNat + (alignedLen r.len).toNat ∧
      e.carve h.calls.map.alignedPrefix h.calls.map.alignedSplit (e.candidate 65536) (alignedLen r.len)
        r.prot r.flags (some name) = some (front, m, back) := by
  rw [BitVec.le_def] at hlen
  rw [mapRange, placeExtent] at hdone
  -- a fixed range ends inside memory
  have hfixed : (if r.addr ≠ 0 then
      recompVmAllocFixed p.memSize h.calls.map.fixedPrefix h.calls.map.fixedSplit r.addr
        (alignedLen r.len) r.prot r.flags (some name) p.vm.extents
      else (p.vm.extents, none)) = (p.vm.extents, none) := by
    split
    · rw [recompVmAllocFixed, if_pos ?_]
      by_contra hfits
      rw [not_or, not_or, BitVec.not_lt, BitVec.not_lt, BitVec.le_def] at hfits
      obtain ⟨hsize, hend, hwrap⟩ := hfits
      rw [toNat_add_of_le hwrap, pageUp_alignedLen] at hend
      have hle := le_alignedLen hsize
      omega
    · rfl
  rw [hfixed] at hdone
  rcases alloc_cases h.calls.map.alignedPrefix h.calls.map.alignedSplit (alignedLen r.len) 65536 r.prot
    r.flags (some name) p.vm.extents with
    heq | ⟨pre, e, post, front, cut, back, hl, hsize, hfit, hcarve, heq⟩
  · rw [heq] at hdone
    cases hdone
  · rw [heq] at hdone
    cases hdone
    have halign : vmAlignment 65536 = 65536 := rfl
    rw [halign, alignedLen_idem] at hfit hcarve
    simp only [GuestVMExtent.fits, Bool.and_eq_true, decide_eq_true_eq] at hfit
    obtain ⟨⟨hfree, hstart⟩, hend⟩ := hfit
    refine ⟨pre, e, post, front, back, hl, rfl, hfree, hstart, ?_, hcarve⟩
    by_contra hwrap
    have hbound := (hl ▸ hapart).middle
    have hle := le_alignedLen hsize
    rw [BitVec.le_def, toNat_stop (Nat.lt_of_le_of_lt hbound p.memSize.isLt),
      BitVec.toNat_add_of_lt (by omega)] at hend
    omega

/-- Pieces that say the same about every byte as the extent whose place they take. -/
theorem sameBytes_middle (hfree : ∀ x, FreeAt es x ↔ e.isFree = true ∧ e.Has x)
    (hmapped : ∀ x attrs, MappedAs es x attrs ↔ e.isFree = false ∧ e.Has x ∧ e.attrs = attrs) :
    SameBytes (pre ++ e :: post) (pre ++ es ++ post) := by
  constructor
  · intro x
    rw [freeAt_append, freeAt_append (l := pre), hfree, freeAt_append, freeAt_cons, or_assoc]
  · intro x attrs
    rw [mappedAs_append, mappedAs_append (l := pre), hmapped, mappedAs_append, mappedAs_cons, or_assoc]

theorem not_freeAt_nil {x : ℕ} : ¬ FreeAt [] x := by
  rintro ⟨c, hc, -⟩
  cases hc

/-- The pieces of a carved extent, wherever the place is. -/
theorem carve_pieces {cp cs : Bool} {place n : BitVec 64} {prot flags : BitVec 32}
    {name : Option (List Char)} {front back : List GuestVMExtent}
    (hcarve : e.carve cp cs place n prot flags name = some (front, m, back)) :
    m.isFree = false ∧
      front = (if e.addr < place then [{ addr := e.addr, size := place - e.addr, isFree := true }] else []) ∧
      (e.size - (place - e.addr) = 0 → back = []) := by
  rw [GuestVMExtent.carve] at hcarve
  dsimp only at hcarve
  have hcut : ∀ {c : GuestVMExtent × List GuestVMExtent}, (if n < e.size - (place - e.addr) ∧ cs = true then
      (GuestVMExtent.mapped prot flags name { e with addr := place, size := n },
        [{ addr := place + n, size := e.size - (place - e.addr) - n, isFree := true }])
      else (GuestVMExtent.mapped prot flags name
        { e with addr := place, size := e.size - (place - e.addr) }, [])) = c →
      c.1.isFree = false ∧ (e.size - (place - e.addr) = 0 → c.2 = []) := by
    rintro c rfl
    split
    · rename_i hlt
      refine ⟨rfl, fun hzero => ?_⟩
      rw [hzero] at hlt
      exact absurd hlt.1 BitVec.not_lt_zero
    · exact ⟨rfl, fun _ => rfl⟩
  split at hcarve
  · rename_i hlt
    rw [if_pos hlt]
    split at hcarve
    · obtain ⟨rfl, heq⟩ := Prod.mk.inj (Option.some.inj hcarve)
      have hparts := hcut heq
      exact ⟨hparts.1, rfl, hparts.2⟩
    · cases hcarve
  · rename_i hlt
    rw [if_neg hlt]
    obtain ⟨rfl, heq⟩ := Prod.mk.inj (Option.some.inj hcarve)
    have hparts := hcut heq
    exact ⟨hparts.1, rfl, hparts.2⟩

/-- A range whose end wraps changes nothing exactly when it has no byte. -/
theorem wrapped_same {cp cs : Bool} {place n : BitVec 64} {prot flags : BitVec 32}
    {name : Option (List Char)} {front back : List GuestVMExtent} (hM : M < 2 ^ 64)
    (h : Apart M (pre ++ e :: post)) (hfree : e.isFree = true) (hstart : e.addr ≤ place)
    (hwrap : 2 ^ 64 ≤ place.toNat + n.toNat)
    (hcarve : e.carve cp cs place n prot flags name = some (front, m, back)) :
    SameBytes (pre ++ e :: post) (pre ++ (front ++ m :: back) ++ post) ↔ m.size = 0 := by
  obtain ⟨haddr, hsize⟩ := carve_cutSize hcarve
  obtain ⟨hmapped, hfront, hback⟩ := carve_pieces hcarve
  have hbound := h.middle
  have hmem : e ∈ pre ++ e :: post := List.mem_append_right _ List.mem_cons_self
  have hplace := place.isLt
  rw [BitVec.le_def] at hstart
  have hgap : (place - e.addr).toNat = place.toNat - e.addr.toNat :=
    BitVec.toNat_sub_of_le (BitVec.le_def.2 hstart)
  have hn : n ≠ 0 := by
    rintro rfl
    have hzero : (0 : BitVec 64).toNat = 0 := rfl
    omega
  have hrest : m.size = n ∧ e.size - (place - e.addr) ≠ 0 ∨ m.size = e.size - (place - e.addr) := by
    rw [hsize, cutSize]
    split
    · rename_i hlt
      refine .inl ⟨rfl, fun hzero => ?_⟩
      rw [hzero] at hlt
      exact BitVec.not_lt_zero hlt.1
    · exact .inr rfl
  constructor
  · intro hsame
    by_contra hne
    have hpos : 0 < m.size.toNat := Nat.pos_of_ne_zero fun hz => hne (BitVec.eq_of_toNat_eq hz)
    -- a byte of the range that was in no mapping
    obtain ⟨x, hx, hnot⟩ : ∃ x, m.Has x ∧ ∀ c ∈ pre ++ e :: post, c.isFree = false → ¬ c.Has x := by
      rcases lt_trichotomy place.toNat (e.addr.toNat + e.size.toNat) with hlt | heq | hgt
      · refine ⟨place.toNat, ⟨by rw [haddr], by rw [haddr]; omega⟩, fun c hc hcf hcx => ?_⟩
        exact h.not_freeAt hc hcf hcx ⟨e, hmem, hfree, hstart, hlt⟩
      · have hzero : e.size - (place - e.addr) = 0 := by
          have hsame : place - e.addr = e.size := BitVec.eq_of_toNat_eq (by omega)
          rw [hsame, sub_self]
        rcases hrest with ⟨-, hnonzero⟩ | hrest
        · exact absurd hzero hnonzero
        · exact absurd (hrest.trans hzero) hne
      · have hlast : 2 ^ 64 ≤ place.toNat + m.size.toNat := by
          rcases hrest with ⟨hrest, -⟩ | hrest
          · rw [hrest]
            exact hwrap
          · rw [hrest, BitVec.toNat_sub, hgap, Nat.mod_eq_of_lt (by omega)]
            omega
        refine ⟨place.toNat + m.size.toNat - 1, ⟨by rw [haddr]; omega, by rw [haddr]; omega⟩,
          fun c hc _ hcx => ?_⟩
        have hend := h.bounded c hc
        have hlt := hcx.2
        omega
    have hmap : MappedAs (pre ++ (front ++ m :: back) ++ post) x m.attrs :=
      ⟨m, by simp, hmapped, hx, rfl⟩
    obtain ⟨c, hc, hcf, hcx, -⟩ := (hsame.mapped x m.attrs).1 hmap
    exact hnot c hc hcf hcx
  · intro hzero
    have hnone : e.size - (place - e.addr) = 0 := by
      rcases hrest with ⟨hrest, -⟩ | hrest
      · exact absurd (hrest.symm.trans hzero) hn
      · exact hrest.symm.trans hzero
    have hwhole : place - e.addr = e.size := (sub_eq_zero.1 hnone).symm
    have hempty : ∀ x, ¬ m.Has x := by
      rintro x ⟨hlo, hhi⟩
      rw [hzero] at hhi
      exact absurd hhi (Nat.not_lt.2 hlo)
    -- in front of the range is all of the extent
    have hpieces : ∀ x, FreeAt front x ↔ e.Has x := by
      intro x
      rw [hfront, hwhole]
      split
      · rw [freeAt_cons]
        exact ⟨fun hc => hc.elim And.right fun hc => absurd hc not_freeAt_nil, fun hx => .inl ⟨rfl, hx⟩⟩
      · rename_i hge
        rw [BitVec.lt_def] at hge
        refine iff_of_false not_freeAt_nil fun hx => ?_
        have hlo := hx.1
        have hhi := hx.2
        have hsize := congrArg BitVec.toNat hwhole
        omega
    rw [hback hnone]
    refine sameBytes_middle (fun x => ?_) fun x attrs => ?_
    · rw [freeAt_append, hpieces, freeAt_cons, and_iff_right hfree]
      refine or_iff_left ?_
      rintro (⟨-, hx⟩ | hnil)
      · exact hempty x hx
      · exact not_freeAt_nil hnil
    · refine iff_of_false ?_ fun hc => Bool.false_ne_true (hc.1.symm.trans hfree)
      rw [mappedAs_append, mappedAs_cons]
      rintro (⟨c, hc, hcf, -⟩ | ⟨-, hx, -⟩ | ⟨c, hc, -⟩)
      · rw [hfront] at hc
        split at hc
        · rw [List.mem_singleton.1 hc] at hcf
          cases hcf
        · cases hc
      · exact hempty x hx
      · cases hc

/-- The undo step does not take a range whose end wraps. -/
theorem freeBegin_wrapped {ca co malloc : Bool} {addr : BitVec 64} (haddr : pageDown addr = addr)
    (hwrap : 2 ^ 64 ≤ addr.toNat + (alignedLen len).toNat) :
    freeBegin ca co malloc addr (alignedLen len) l = (l, .inl (-1)) := by
  have hlt := addr.isLt
  have hlen := (alignedLen len).isLt
  have hstop : addr + alignedLen len < addr := by
    rw [BitVec.lt_def, BitVec.toNat_add, Nat.mod_eq_sub_mod hwrap, Nat.mod_eq_of_lt (by omega)]
    omega
  rw [freeBegin]
  dsimp only
  rw [haddr, pageUp_alignedLen, if_pos (.inr (.inr hstop))]

theorem pageDown_candidate : pageDown (e.candidate 65536) = e.candidate 65536 := by
  refine pageDown_of_dvd ?_
  have hdvd := @dvd_alignedLen e.addr
  exact Nat.dvd_trans (by decide) hdvd

/-! ### the calls -/

variable {call : MmapCall} {g : Regs}

theorem report_vm (fsBase : BitVec 64) (err : ReadPaths.Errno) : (call.report fsBase err p).vm = p.vm := by
  have hset : (setGuestErrno fsBase err p).vm = p.vm := by
    rw [setGuestErrno]
    split <;> rfl
  cases call with
  | sceKernelMmap => rfl
  | mmap => exact hset
  | syscall477 => exact hset

theorem report_bytes {err : ReadPaths.Errno} {x : ℕ} (hx : ¬ call.Reports g x) :
    (call.report g.fsBase err p).bytes x = p.bytes x := by
  have hset : ¬ ErrnoCell g.fsBase x → (setGuestErrno g.fsBase err p).bytes x = p.bytes x := by
    intro hcell
    rw [setGuestErrno]
    split
    · rename_i hbase
      refine putBytes_outside fun hin => hcell ⟨hbase, hin.1, ?_⟩
      rw [length_toLE] at hin
      exact hin.2
    · rfl
  cases call with
  | sceKernelMmap => rfl
  | mmap => exact hset hx
  | syscall477 => exact hset hx

theorem report_unchanged (call : MmapCall) (g : Regs) (err : ReadPaths.Errno) (p : Process) :
    Unchanged call g p (call.report g.fsBase err p) := by
  refine ⟨?_, fun _ _ _ hx => report_bytes hx⟩
  rw [report_vm]
  exact .refl _

/-- Where the arguments are not looked at, nothing but the report happens. -/
theorem run_refused (h : MapHost) (hno : ¬ call.Admits g p) :
    (call.run h g p).mapped = none ∧ Unchanged call g p (call.run h g p).proc := by
  have hposix : ∀ (name : List Char) (pread : Pread) (r : Request), r.len = 0 →
      posixMmap h name pread g.fsBase r p = { rax := -1, proc := setGuestErrno g.fsBase einval p } :=
    fun name pread r hzero => if_pos hzero
  cases call with
  | sceKernelMmap =>
      have hargs : g.request.len = 0 ∨ g.resOut p = 0 := by
        rw [MmapCall.Admits, not_and_or, not_not, not_not] at hno
        exact hno
      have heq : shimSceKernelMmap h g p = { rax := 0x80020016, proc := p } := if_pos hargs
      rw [MmapCall.run, heq]
      exact ⟨rfl, .refl _, fun _ _ _ _ => rfl⟩
  | mmap =>
      rw [MmapCall.run, shimMmap, hposix _ _ _ (not_not.1 hno)]
      exact ⟨rfl, report_unchanged .mmap g einval p⟩
  | syscall477 =>
      rw [MmapCall.run, sysMmap, hposix _ _ _ (not_not.1 hno)]
      exact ⟨rfl, report_unchanged .syscall477 g einval p⟩

/-- Otherwise the call is the part that the three share. -/
theorem run_admitted {p' : Process} {res : Except MapFailure (BitVec 64)} (hyes : call.Admits g p)
    (hfile : mapFile h call.name call.pread (call.report g.fsBase) (call.request g p) p = (p', res)) :
    (call.run h g p).mapped = res.toOption ∧ (call.run h g p).proc.vm = p'.vm ∧
      (call.run h g p).proc.memSize = p'.memSize ∧
      (res.toOption = none → (call.run h g p).proc = p') := by
  have hposix : ∀ {name : List Char} {pread : Pread} {r : Request}, r.len ≠ 0 →
      mapFile h name pread (setGuestErrno g.fsBase) r p = (p', res) →
      (posixMmap h name pread g.fsBase r p).mapped = res.toOption ∧
        (posixMmap h name pread g.fsBase r p).proc = p' := by
    intro name pread r hlen hdone
    rw [posixMmap, if_neg hlen, hdone]
    cases res with
    | error => exact ⟨rfl, rfl⟩
    | ok => exact ⟨rfl, rfl⟩
  cases call with
  | sceKernelMmap =>
      have hargs : ¬ (g.request.len = 0 ∨ g.resOut p = 0) := not_or.2 hyes
      have heq : mapFile h "sceKernelMmap".toList ps4VfsPread (fun _ p => p) g.request p = (p', res) := hfile
      rw [MmapCall.run, shimSceKernelMmap, if_neg hargs, heq]
      cases res with
      | error err =>
          cases err with
          | noRange => exact ⟨rfl, rfl, rfl, fun _ => rfl⟩
          | read => exact ⟨rfl, rfl, rfl, fun _ => rfl⟩
      | ok addr => exact ⟨rfl, rfl, rfl, fun hc => by cases hc⟩
  | mmap =>
      obtain ⟨hmapped, hproc⟩ := hposix hyes hfile
      exact ⟨hmapped, congrArg Process.vm hproc, congrArg Process.memSize hproc, fun _ => hproc⟩
  | syscall477 =>
      obtain ⟨hmapped, hproc⟩ := hposix hyes hfile
      exact ⟨hmapped, congrArg Process.vm hproc, congrArg Process.memSize hproc, fun _ => hproc⟩

theorem name_unreserved : strstr (extentName (some call.name)) "reserved".toList = false := by
  cases call <;> decide

theorem covers_iff {q : Process} (hmem : p.memSize.toNat < 2 ^ 62)
    (hapart : Apart p.memSize.toNat p.vm.extents) (hzero : r.len ≠ 0)
    (hdone : mapRange h name r p = (l', some m)) (hq : q.vm.extents = l' ∧ q.memSize = p.memSize) :
    Covers q m.addr r.len ↔ r.len ≤ p.memSize := by
  obtain ⟨hl, hsize⟩ := hq
  have hpos : 0 < r.len.toNat := Nat.pos_of_ne_zero fun hz => hzero (BitVec.eq_of_toNat_eq hz)
  constructor
  · rintro ⟨c, -, -, hall⟩
    have hlast := (hall (m.addr.toNat + r.len.toNat - 1) (by omega) (by omega)).1
    rw [hsize] at hlast
    rw [BitVec.le_def]
    omega
  · intro hlen
    have hplaced := mapRange_small hmem hapart hlen hdone
    have hbound := hplaced.apart.bounded m hplaced.mem
    have hle := hplaced.size.1
    rw [BitVec.le_def] at hlen
    have hround : r.len.toNat ≤ (alignedLen r.len).toNat := by
      rw [toNat_alignedLen, if_pos (by omega)]
      exact le_roundUp _ (by decide)
    refine ⟨m, hl ▸ hplaced.mem, hplaced.mapped.1, fun x hlo hhi => ?_⟩
    rw [hsize]
    exact ⟨by omega, hlo, by omega⟩

/-- Where the undo step frees nothing, it leaves the pages. -/
theorem unmap_bytes {addr size : BitVec 64} {x : ℕ}
    (h' : ∀ q, (freeBegin h.calls.callocStart h.calls.callocStop h.calls.malloc addr size p.vm.extents).2 =
      .inr q → ∀ r ∈ q.ranges, ¬ r.Has x) : (p.unmap h addr size).bytes x = p.bytes x := by
  rw [Process.unmap]
  split
  · rfl
  · rename_i q hq
    refine if_neg ?_
    rw [List.any_eq_true]
    rintro ⟨r, hr, hx⟩
    exact h' q hq r hr (of_decide_eq_true hx)

/-- A read that fails changes nothing exactly when the range has no byte or can be given back. -/
theorem undone_iff {q : Process} (hmem : p.memSize.toNat < 2 ^ 62)
    (hapart : Apart p.memSize.toNat p.vm.extents) (hzero : (call.request g p).len ≠ 0)
    (hdone : mapRange h call.name (call.request g p) p = (l', some m)) (hq : q.vm.extents = l')
    (hbytes : ∀ x, ¬ call.Reports g x → q.bytes x = p.bytes x) :
    Unchanged call g p (q.unmap h m.addr (alignedLen (call.request g p).len)) ↔
      m.size = 0 ∨ Restorable h (alignedLen (call.request g p).len) p.vm.extents m := by
  generalize call.request g p = r at hzero hdone
  have hextents : (q.unmap h m.addr (alignedLen r.len)).vm.extents = (recompVmFree h.calls.callocStart
      h.calls.callocStop h.calls.malloc m.addr (alignedLen r.len) l').1 := by
    rw [← hq]
    exact (free_extents m.addr (alignedLen r.len)).1
  by_cases hlen : r.len ≤ p.memSize
  · have hplaced := mapRange_small hmem hapart hlen hdone
    have hpos := hplaced.size.2
    have hlen' := hlen
    rw [BitVec.le_def] at hlen'
    have hne : alignedLen r.len ≠ 0 := by
      intro hz
      have hle : r.len.toNat ≤ (alignedLen r.len).toNat := by
        rw [toNat_alignedLen, if_pos (by omega)]
        exact le_roundUp _ (by decide)
      rw [hz] at hle
      exact hzero (BitVec.eq_of_toNat_eq (Nat.le_zero.1 hle))
    have hundo := undo_bytes p.memSize.isLt hapart hplaced name_unreserved hne
      (by rw [pageUp_alignedLen]; exact hplaced.size.1) h.calls.callocStart h.calls.callocStop h.calls.malloc
    rw [pageUp_alignedLen] at hundo
    constructor
    · intro hsame
      have hbytes := hsame.extents
      rw [hextents, hundo] at hbytes
      exact .inr ⟨hbytes.1, hbytes.2.1, hbytes.2.2⟩
    · rintro (hz | hback)
      · rw [hz] at hpos
        exact absurd hpos (Nat.lt_irrefl 0)
      · refine ⟨?_, fun x attrs hmap hx => ?_⟩
        · rw [hextents, hundo]
          exact ⟨hback.frees, hback.size, hback.free⟩
        · rw [unmap_bytes ?_, hbytes x hx]
          -- the pages unmapped were free
          intro k hk s hs hsx
          obtain ⟨k', hbegin, hranges, -⟩ := undo_begin p.memSize.isLt hplaced hne hback.frees.1
            (by rw [pageUp_alignedLen, hback.size]) h.calls.callocStart h.calls.callocStop
          rw [hq, hback.frees.2, hbegin] at hk
          cases hk
          obtain ⟨d, hd, hdf, hdx, -⟩ := hmap
          rcases hranges s hs with hnil | rfl
          · have hhi := hsx.2
            rw [hnil] at hhi
            exact absurd hhi (Nat.not_lt.2 hsx.1)
          · exact hapart.not_freeAt hd hdf hdx (hback.free x hsx)
  · obtain ⟨pre, e, post, front, back, hl, hl', hfree, hstart, hwrap, hcarve⟩ :=
      mapRange_large hlen hapart hdone
    have haddr : m.addr = e.candidate 65536 := (carve_cutSize hcarve).1
    have hbegin : ∀ ca co malloc, freeBegin ca co malloc m.addr (alignedLen r.len) l' = (l', .inl (-1)) := by
      intro ca co malloc
      rw [haddr]
      exact freeBegin_wrapped pageDown_candidate hwrap
    have hsame : SameBytes p.vm.extents l' ↔ m.size = 0 := by
      rw [hl, hl']
      exact wrapped_same p.memSize.isLt (hl ▸ hapart) hfree hstart hwrap hcarve
    have hleft : (q.unmap h m.addr (alignedLen r.len)).vm.extents = l' := by
      rw [hextents, recompVmFree, hbegin]
    constructor
    · intro hall
      have hbytes := hall.extents
      rw [hleft, hsame] at hbytes
      exact .inl hbytes
    · intro hcond
      have hz : m.size = 0 := by
        refine hcond.resolve_right fun hback => ?_
        -- the last byte of the length is behind the memory
        have hlt := (alignedLen r.len).isLt
        have hplace := (e.candidate 65536).isLt
        obtain ⟨d, hd, -, hdx⟩ := hback.free (m.addr.toNat + (alignedLen r.len).toNat - 1)
          ⟨by omega, by rw [hback.size, haddr]; omega⟩
        have hend := hapart.bounded d hd
        have hlast := hdx.2
        rw [haddr] at hlast
        omega
      refine ⟨by rw [hleft]; exact hsame.2 hz, fun x attrs _ hx => ?_⟩
      rw [unmap_bytes ?_, hbytes x hx]
      intro k hk
      rw [hq, hbegin] at hk
      cases hk

/-- **File mappings.**  Whatever the process and the arguments, a call that fails changes nothing and one
that succeeds maps its length exactly when it meets the condition. -/
theorem mmap_sound_iff (call : MmapCall) (h : MapHost) (g : Regs) (p : Process)
    (hmem : p.memSize.toNat < 2 ^ 62) (hapart : Apart p.memSize.toNat p.vm.extents) :
    Sound call h g p ↔ Fine call h g p := by
  by_cases hyes : call.Admits g p
  swap
  · obtain ⟨hnone, hsame⟩ := run_refused h hyes
    rw [Sound, hnone]
    exact iff_of_true hsame fun hc => absurd hc hyes
  have hzero : (call.request g p).len ≠ 0 := by
    cases call with
    | sceKernelMmap => exact hyes.1
    | mmap => exact hyes
    | syscall477 => exact hyes
  have hfine : Fine call h g p ↔ ∀ l' m, mapRange h call.name (call.request g p) p = (l', some m) →
      (ReadFails call.pread (call.request g p) p.world →
        m.size = 0 ∨ Restorable h (alignedLen (call.request g p).len) p.vm.extents m) ∧
      (¬ ReadFails call.pread (call.request g p) p.world → (call.request g p).len ≤ p.memSize) :=
    ⟨fun hc => hc hyes, fun hc _ => hc⟩
  rw [hfine]
  rcases hrange : mapRange h call.name (call.request g p) p with ⟨l', _ | m⟩
  · -- no range: the extents are those before
    have hl : l' = p.vm.extents := by
      have hnone := placeExtent_none (congrArg Prod.snd hrange)
      exact (congrArg Prod.fst hrange).symm.trans hnone
    have hfile : mapFile h call.name call.pread (call.report g.fsBase) (call.request g p) p =
        (call.report g.fsBase enomem p, .error .noRange) := by
      rw [mapFile, hrange, hl]
    obtain ⟨hnone, -, -, hproc⟩ := run_admitted hyes hfile
    rw [Sound, hnone, hproc rfl]
    exact iff_of_true (report_unchanged call g enomem p) fun _ _ hc => by cases hc
  · have honly : (∀ l'' m', (l', some m) = (l'', some m') → (ReadFails call.pread (call.request g p) p.world →
        m'.size = 0 ∨ Restorable h (alignedLen (call.request g p).len) p.vm.extents m') ∧
        (¬ ReadFails call.pread (call.request g p) p.world → (call.request g p).len ≤ p.memSize)) ↔
        (ReadFails call.pread (call.request g p) p.world →
          m.size = 0 ∨ Restorable h (alignedLen (call.request g p).len) p.vm.extents m) ∧
        (¬ ReadFails call.pread (call.request g p) p.world → (call.request g p).len ≤ p.memSize) :=
      ⟨fun hc => hc l' m rfl, fun hc _ _ heq => by cases heq; exact hc⟩
    rw [honly]
    by_cases hfails : ReadFails call.pread (call.request g p) p.world
    · obtain ⟨hreads, err, w, hread⟩ := hfails
      have hfile : mapFile h call.name call.pread (call.report g.fsBase) (call.request g p) p =
          ((call.report g.fsBase err { p with vm := { p.vm with extents := l' }, world := w }).unmap h m.addr
            (alignedLen (call.request g p).len), .error (.read err)) := by
        rw [mapFile, hrange]
        dsimp only
        rw [if_pos hreads, hread]
      obtain ⟨hnone, -, -, hproc⟩ := run_admitted hyes hfile
      rw [Sound, hnone, hproc rfl]
      have hundone := undone_iff
        (q := call.report g.fsBase err { p with vm := { p.vm with extents := l' }, world := w }) hmem hapart
        hzero hrange (by rw [report_vm]) fun x hx => report_bytes hx
      exact hundone.trans ⟨fun hc => ⟨fun _ => hc, fun hno => absurd ⟨hreads, err, w, hread⟩ hno⟩,
        fun hc => hc.1 ⟨hreads, err, w, hread⟩⟩
    · obtain ⟨q, hfile, hq⟩ : ∃ q, mapFile h call.name call.pread (call.report g.fsBase) (call.request g p) p =
          (q, .ok m.addr) ∧ q.vm.extents = l' ∧ q.memSize = p.memSize := by
        rw [mapFile, hrange]
        dsimp only
        by_cases hreads : (call.request g p).readsFile
        · rw [if_pos hreads]
          rcases hread : (call.request g p).read call.pread p.world with ⟨err | bs, w⟩
          · exact absurd ⟨hreads, err, w, hread⟩ hfails
          · exact ⟨_, rfl, rfl, rfl⟩
        · rw [if_neg hreads]
          exact ⟨_, rfl, rfl, rfl⟩
      obtain ⟨hsome, hvm, hsize, -⟩ := run_admitted hyes hfile
      rw [Sound, hsome]
      have hcovers := covers_iff hmem hapart hzero hrange (q := (call.run h g p).proc)
        ⟨(congrArg BatchMem.extents hvm).trans hq.1, hsize.trans hq.2⟩
      exact hcovers.trans ⟨fun hc => ⟨fun hyes => absurd hyes hfails, fun _ => hc⟩, fun hc => hc.2 hfails⟩

/-! ### three processes -/

/-- A host that has memory for every note, and leaves zeros in pages that are unmapped. -/
def plainHost : MapHost where
  calls := { map := mapAlways }
  released _ _ := 0

/-- A process with these extents and no file open. -/
def processOf (extents : List GuestVMExtent) : Process where
  memSize := 0x200000
  vm := { direct := { blocks := [], inited := true }, extents, dmaps := [] }
  bytes _ := 1
  world := { host := fun _ => none, answers := [], gVfiles := fun _ => {} }

/-- `mmap(addr, len, PROT_READ, flags, 3, 0)`. -/
def mmapRegs (addr len flags : BitVec 64) : Regs where
  rdi := addr
  rsi := len
  rdx := 1
  rcx := flags
  r8 := 3

theorem apart_singleton {e : GuestVMExtent} (h : e.addr.toNat + e.size.toNat ≤ M) : Apart M [e] :=
  ⟨List.pairwise_singleton _ e, fun c hc => by rw [List.mem_singleton.1 hc]; exact h⟩

/-- The read of a descriptor that is not open fails, and the range is given back. -/
theorem mmap_sound_iff_free :
    Sound .mmap plainHost (mmapRegs 0x10000 0x20000 0) (processOf freeExtent) := by
  refine (mmap_sound_iff .mmap plainHost (mmapRegs 0x10000 0x20000 0) (processOf freeExtent) (by decide)
    (apart_singleton (by decide))).2 fun _ l' m hrange => ?_
  have hm : m = { addr := 0x10000, size := 0x20000, isFree := false, prot := 1, name := "mmap".toList } := by
    have heq := congrArg Prod.snd hrange
    exact (Option.some.inj heq).symm
  refine ⟨fun _ => .inr ⟨⟨by rw [hm]; decide, rfl⟩, by rw [hm]; rfl, fun x hx => ?_⟩, fun hno => ?_⟩
  · rw [hm] at hx
    exact ⟨_, List.mem_singleton_self _, rfl, hx.1, Nat.lt_of_lt_of_le hx.2 (by decide)⟩
  · exact absurd ⟨⟨by decide, by decide⟩, ebadf, _, rfl⟩ hno

/-- A reservation of 128 KiB. -/
def reservation : List GuestVMExtent :=
  [{ addr := 0x10000, size := 0x20000, isFree := false, name := "reserved".toList }]

/-- A mapping of its first half whose read fails leaves all of it free; and without a file, 16 EiB less
64 KiB are mapped in 1 MiB. -/
theorem mmap_reservation_lost :
    ((shimMmap plainHost (mmapRegs 0x10000 0x10000 0) (processOf reservation)).rax = -1 ∧
      FreeAt (shimMmap plainHost (mmapRegs 0x10000 0x10000 0) (processOf reservation)).proc.vm.extents
        0x20000 ∧
      ¬ Sound .mmap plainHost (mmapRegs 0x10000 0x10000 0) (processOf reservation)) ∧
    (shimMmap plainHost (mmapRegs 0 0xffffffffffff0000 0x1000) (processOf freeExtent)).rax = 0x10000 ∧
      ¬ Sound .mmap plainHost (mmapRegs 0 0xffffffffffff0000 0x1000) (processOf freeExtent) := by
  have hafter : (shimMmap plainHost (mmapRegs 0x10000 0x10000 0)
      (processOf reservation)).proc.vm.extents =
        [{ addr := 0x10000, size := 0x20000, isFree := true, prot := 1, name := "mmap".toList }] := by
    decide +kernel
  have hfree : FreeAt (shimMmap plainHost (mmapRegs 0x10000 0x10000 0)
      (processOf reservation)).proc.vm.extents 0x20000 := by
    rw [hafter]
    exact ⟨_, List.mem_singleton_self _, rfl, by decide, by decide⟩
  have hbefore : ¬ FreeAt reservation 0x20000 := by
    rintro ⟨c, hc, hcf, -⟩
    rw [List.mem_singleton.1 hc] at hcf
    cases hcf
  have hall : (shimMmap plainHost (mmapRegs 0 0xffffffffffff0000 0x1000) (processOf freeExtent)).mapped =
      some 0x10000 := by
    decide +kernel
  refine ⟨⟨by decide +kernel, hfree, fun hsound => ?_⟩, by decide +kernel, fun hsound => ?_⟩
  · have hnone : (shimMmap plainHost (mmapRegs 0x10000 0x10000 0) (processOf reservation)).mapped = none := by
      decide +kernel
    rw [Sound, MmapCall.run, hnone] at hsound
    exact hbefore ((hsound.extents.free _).1 hfree)
  · rw [Sound, MmapCall.run, hall] at hsound
    obtain ⟨_, -, -, hcover⟩ := hsound
    exact absurd (hcover 0x200000 (by decide) (by decide)).1 (by decide +kernel)

end PS4Recomp.Runtime.FileMappings
