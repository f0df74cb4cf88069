import PS4Recomp.Elf.StaticTls
import PS4Recomp.Runtime.DirectMem

/-!
# Virtual memory extents

The extent list of `recomp_runtime.c` and the kernel calls that change it.

* `GuestVMExtent`, `initExtents` — an extent, and the list `recomp_init_runtime` makes;
* `bestFit`, `carve`, `recompVmAllocNamedAligned`, `recompVmAllocFixed` — allocation;
* `splitExtentAt`, `freeBegin`, `freeEnd`, `vmCoalesceFree` — the locked phases of `recomp_vm_free`;
* `sceKernelMprotect`, `sceKernelMtypeprotect`, `sysMprotect`, `sceKernelSetVirtualRangeName` — the
  calls that change attributes;
* `Vm`, `vmSystem` — the list with the calls of `recomp_vm_free` under way, and its runs;
* `alloc_cases`, `allocFixed_cases`, `splitExtentAt_cases` — what an operation can do to the list.

The list order is that of the `next` links.  A name is the list of its characters, one a byte.
`calloc` and `malloc` may fail, which the operations are told by flags; `none` is the result
`(uint64_t)-1`.  `vm_mutex` makes each locked phase one step.
-/

namespace PS4Recomp.Runtime

open Library Library.Transition

/-! ### extents -/

/-- `GuestVMExtent`. -/
structure GuestVMExtent where
  addr : BitVec 64
  size : BitVec 64
  isFree : Bool
  prot : BitVec 32 := 0
  flags : BitVec 32 := 0
  mtype : BitVec 32 := 0
  name : List Char := []
  deriving DecidableEq

/-- `e->addr + e->size`. -/
def GuestVMExtent.stop (e : GuestVMExtent) : BitVec 64 := e.addr + e.size

/-- A byte of an extent. -/
def GuestVMExtent.Has (e : GuestVMExtent) (x : ℕ) : Prop :=
  e.addr.toNat ≤ x ∧ x < e.addr.toNat + e.size.toNat

instance (e : GuestVMExtent) (x : ℕ) : Decidable (e.Has x) := inferInstanceAs (Decidable (_ ∧ _))

/-- A byte of a free extent. -/
def FreeAt (l : List GuestVMExtent) (x : ℕ) : Prop := ∃ e ∈ l, e.isFree = true ∧ e.Has x

/-- `x & ~4095`. -/
def pageDown (x : BitVec 64) : BitVec 64 := x &&& ~~~4095

/-- `(x + 4095) & ~4095`. -/
def pageUp (x : BitVec 64) : BitVec 64 := (x + 4095) &&& ~~~4095

/-- `PROT_READ | PROT_WRITE`. -/
def protReadWrite : BitVec 32 := 3

/-- `strstr(name, part) != NULL`. -/
def strstr (name part : List Char) : Bool := decide (part <:+: name)

/-- `strncpy` into the `name` of an extent, a missing name being the empty one. -/
def extentName (name : Option (List Char)) : List Char := (name.getD []).take 31

/-! ### `recomp_init_runtime` -/

/-- The size of guest memory: `envMem` is what `parse_mem_size_str` reads in `PS4_RECOMP_MEM`. -/
def guestMemSize (requested : BitVec 64) (envMem : Option (BitVec 64)) (imageSize : BitVec 64) :
    BitVec 64 :=
  let sz := if requested = 0 then envMem.getD 0 else requested
  let sz := if sz = 0 then 0x8000000000 else sz
  if 0 < imageSize ∧ sz < imageSize + 0x20000 then imageSize + 0x20000 else sz

/-- `heap_ptr`, behind the arguments of the main thread. -/
def heapPtr (imageSize : BitVec 64) : BitVec 64 :=
  let argsAddr := Elf.mainTcb imageSize + 0x10000
  (argsAddr + 0x10000 + 0xFFF) &&& ~~~0xFFF

/-- `low_mem_limit`. -/
def lowMemLimit (memSize : BitVec 64) : BitVec 64 :=
  if memSize < 0x800000000 then memSize else 0x800000000

/-- `stack_floor`. -/
def stackFloor (memSize : BitVec 64) : BitVec 64 :=
  if 0x4000000 < lowMemLimit memSize then lowMemLimit memSize - 0x4000000 else lowMemLimit memSize

theorem stackFloor_le (memSize : BitVec 64) :
    (stackFloor memSize).toNat ≤ (lowMemLimit memSize).toNat ∧
      (lowMemLimit memSize).toNat ≤ memSize.toNat := by
  have hlow : (lowMemLimit memSize).toNat ≤ memSize.toNat := by
    rw [lowMemLimit]
    split
    · exact Nat.le_refl _
    · rename_i h
      exact BitVec.le_def.1 (BitVec.not_lt.1 h)
  refine ⟨?_, hlow⟩
  rw [stackFloor]
  split
  · rename_i h
    rw [BitVec.toNat_sub_of_le (BitVec.le_of_lt h)]
    exact Nat.sub_le _ _
  · exact Nat.le_refl _

/-- The extents of `recomp_init_runtime`: the heap, the user pool and the main stack. -/
def initExtents (memSize imageSize : BitVec 64) (callocStack : Bool) : List GuestVMExtent :=
  let floor := stackFloor memSize
  let heapStart := pageUp (heapPtr imageSize)
  (if heapStart < floor then
      [{ addr := heapStart, size := floor - heapStart, isFree := true }] else []) ++
    ((if 0x1000000000 < memSize then
      [{ addr := 0x1000000000, size := memSize - 0x1000000000, isFree := true }] else []) ++
    (if callocStack then
      [{ addr := floor, size := lowMemLimit memSize - floor, isFree := false, prot := protReadWrite,
         name := "main_stack".toList }] else []))

/-! ### allocation -/

namespace GuestVMExtent

/-- The first aligned address of an extent. -/
def candidate (alignment : BitVec 64) (e : GuestVMExtent) : BitVec 64 := alignUp e.addr alignment

/-- An extent that the search may use. -/
def fits (len alignment : BitVec 64) (e : GuestVMExtent) : Bool :=
  e.isFree && decide (e.addr ≤ e.candidate alignment) && decide (e.candidate alignment + len ≤ e.stop)

/-- The region of the first pass. -/
def preferred (flags : BitVec 32) (name : Option (List Char)) (e : GuestVMExtent) : Bool :=
  decide (e.addr < 0x800000000) || flags &&& 0x80 != 0 || name.any (strstr · "pool".toList)

/-- The extent with the attributes of a mapping. -/
def mapped (prot flags : BitVec 32) (name : Option (List Char)) (e : GuestVMExtent) : GuestVMExtent :=
  { e with isFree := false, prot, flags, name := extentName name }

/-- The extent cut to `[start, start + len)` and mapped, with the free extents before and after it;
without `calloc` for the first the call fails, without it for the second the rest stays in the
mapping. -/
def carve (callocPrefix callocSplit : Bool) (start len : BitVec 64) (prot flags : BitVec 32)
    (name : Option (List Char)) (e : GuestVMExtent) :
    Option (List GuestVMExtent × GuestVMExtent × List GuestVMExtent) :=
  let front := start - e.addr
  let cut := { e with addr := start, size := e.size - front }
  let back :=
    if len < cut.size ∧ callocSplit then
      (mapped prot flags name { cut with size := len },
        [{ addr := start + len, size := cut.size - len, isFree := true }])
    else (mapped prot flags name cut, [])
  if e.addr < start then
    if callocPrefix then some ([{ addr := e.addr, size := front, isFree := true }], back) else none
  else some ([], back)

end GuestVMExtent

/-- One pass of the search over the rest of the list: the smallest extent so far with its place, or
the first one that fits exactly. -/
def bestFit (len alignment : BitVec 64) (allowed : GuestVMExtent → Bool) :
    Option (List GuestVMExtent × GuestVMExtent × List GuestVMExtent) → List GuestVMExtent →
      List GuestVMExtent → Option (List GuestVMExtent × GuestVMExtent × List GuestVMExtent)
  | best, _, [] => best
  | best, pre, e :: es =>
      if e.fits len alignment && allowed e && best.all (fun b => decide (e.size < b.2.1.size)) then
        if e.size = len ∧ e.candidate alignment = e.addr then some (pre, e, es)
        else bestFit len alignment allowed (some (pre, e, es)) (pre ++ [e]) es
      else bestFit len alignment allowed best (pre ++ [e]) es

/-- The alignment of an allocation. -/
def vmAlignment (alignment : BitVec 64) : BitVec 64 := if alignment < 4096 then 4096 else alignment

/-- `recomp_vm_alloc_named_aligned`: the list and the mapped extent, whose address is the result. -/
def recompVmAllocNamedAligned (callocPrefix callocSplit : Bool) (size alignment : BitVec 64)
    (prot flags : BitVec 32) (name : Option (List Char)) (l : List GuestVMExtent) :
    List GuestVMExtent × Option GuestVMExtent :=
  if size = 0 then (l, none)
  else
    let alignment := vmAlignment alignment
    let len := alignUp size alignment
    match (bestFit len alignment (GuestVMExtent.preferred flags name) none [] l).or
        (bestFit len alignment (fun _ => true) none [] l) with
    | none => (l, none)
    | some (pre, e, post) =>
        let start := e.candidate alignment
        match e.carve callocPrefix callocSplit start len prot flags name with
        | none => (l, none)
        | some (front, m, back) => (pre ++ (front ++ m :: back) ++ post, some m)

/-- `recomp_vm_alloc`. -/
def recompVmAlloc (callocPrefix callocSplit : Bool) (size : BitVec 64) (l : List GuestVMExtent) :
    List GuestVMExtent × Option GuestVMExtent :=
  recompVmAllocNamedAligned callocPrefix callocSplit size 4096 protReadWrite 0 (some "anon".toList) l

/-- An extent that a fixed mapping of `[start, start + len)` may use. -/
def GuestVMExtent.holds (start len : BitVec 64) (e : GuestVMExtent) : Bool :=
  (e.isFree || strstr e.name "reserved".toList) && decide (e.addr ≤ start) &&
    decide (start + len ≤ e.stop)

/-- `recomp_vm_alloc_fixed`. -/
def recompVmAllocFixed (memSize : BitVec 64) (callocPrefix callocSplit : Bool)
    (desired size : BitVec 64) (prot flags : BitVec 32) (name : Option (List Char))
    (l : List GuestVMExtent) : List GuestVMExtent × Option GuestVMExtent :=
  let start := pageDown desired
  let len := pageUp size
  if size = 0 ∨ memSize < start + len ∨ start + len < start then (l, none)
  else
    match firstSplit (GuestVMExtent.holds start len) l with
    | none => (l, none)
    | some (pre, e, post) =>
        match e.carve callocPrefix callocSplit start len prot flags name with
        | none => (l, none)
        | some (front, m, back) => (pre ++ (front ++ m :: back) ++ post, some m)

/-! ### `recomp_vm_free` -/

/-- An extent that is not free and has `cut` strictly inside. -/
def GuestVMExtent.straddles (cut : BitVec 64) (e : GuestVMExtent) : Bool :=
  !(e.isFree || decide (cut ≤ e.addr) || decide (e.stop ≤ cut))

/-- The two halves of an extent. -/
def GuestVMExtent.halves (cut : BitVec 64) (e : GuestVMExtent) : List GuestVMExtent :=
  [{ e with size := cut - e.addr }, { e with addr := cut, size := e.stop - cut }]

/-- `recomp_vm_split_extent_at`. -/
def splitExtentAt (calloc : Bool) (cut : BitVec 64) (l : List GuestVMExtent) :
    List GuestVMExtent × Bool :=
  match firstSplit (GuestVMExtent.straddles cut) l with
  | none => (l, true)
  | some (pre, e, post) => if calloc then (pre ++ e.halves cut ++ post, true) else (l, false)

/-- Both ends of a range, the second only when the first succeeds. -/
def splitEnds (callocStart callocStop : Bool) (start stop : BitVec 64) (l : List GuestVMExtent) :
    List GuestVMExtent × Bool :=
  match splitExtentAt callocStart start l with
  | (l, false) => (l, false)
  | (l, true) => splitExtentAt callocStop stop l

/-- A noted range. -/
structure VmRange where
  addr : BitVec 64
  size : BitVec 64
  deriving DecidableEq

/-- A mapped extent in a range. -/
def GuestVMExtent.inside (start stop : BitVec 64) (e : GuestVMExtent) : Bool :=
  !e.isFree && decide (start ≤ e.addr) && decide (e.stop ≤ stop)

/-- The locals of `recomp_vm_free` from its first unlock on; `next` is the index of the range to
unmap next. -/
structure PendingFree where
  start : BitVec 64
  stop : BitVec 64
  ranges : List VmRange
  next : ℕ := 0
  deriving DecidableEq

/-- `recomp_vm_free` up to its first unlock: its result, or what it goes on with. -/
def freeBegin (callocStart callocStop malloc : Bool) (addr size : BitVec 64)
    (l : List GuestVMExtent) : List GuestVMExtent × (BitVec 32 ⊕ PendingFree) :=
  let start := pageDown addr
  let stop := start + pageUp size
  if addr = 0 ∨ size = 0 ∨ stop < start then (l, .inl (-1))
  else
    match splitEnds callocStart callocStop start stop l with
    | (l, false) => (l, .inl (-1))
    | (l, true) =>
        let ranges := (l.filter (GuestVMExtent.inside start stop)).map fun e =>
          { addr := e.addr, size := e.size }
        if ranges = [] then (l, .inl 0)
        else if malloc then (l, .inr { start, stop, ranges })
        else (l, .inl (-1))

/-- The mapped extents inside a noted range marked free. -/
def markFree (l : List GuestVMExtent) (r : VmRange) : List GuestVMExtent :=
  l.map fun e => if e.inside r.addr (r.addr + r.size) then { e with isFree := true } else e

/-- The loop of `vm_coalesce_free` from the extent `e` on. -/
def coalesceFrom (stop : BitVec 64) : GuestVMExtent → List GuestVMExtent → List GuestVMExtent
  | e, [] => [e]
  | e, n :: es =>
      if e.addr ≤ stop then
        if e.isFree && n.isFree && e.stop == n.addr then
          coalesceFrom stop { e with size := e.size + n.size } es
        else e :: coalesceFrom stop n es
      else e :: n :: es

/-- `vm_coalesce_free`. -/
def vmCoalesceFree (start stop : BitVec 64) (l : List GuestVMExtent) : List GuestVMExtent :=
  let pre := l.takeWhile fun e => decide (e.stop < start)
  match l.dropWhile fun e => decide (e.stop < start) with
  | [] => l
  | e :: es =>
      match pre.getLast? with
      | none => coalesceFrom stop e es
      | some p => pre.dropLast ++ coalesceFrom stop p (e :: es)

/-- The last phase of `recomp_vm_free`. -/
def freeEnd (p : PendingFree) (l : List GuestVMExtent) : List GuestVMExtent :=
  vmCoalesceFree p.start p.stop (p.ranges.foldl markFree l)

/-- `recomp_vm_free` without other calls in between. -/
def recompVmFree (callocStart callocStop malloc : Bool) (addr size : BitVec 64)
    (l : List GuestVMExtent) : List GuestVMExtent × BitVec 32 :=
  match freeBegin callocStart callocStop malloc addr size l with
  | (l, .inl result) => (l, result)
  | (l, .inr p) => (freeEnd p l, 0)

/-! ### attributes -/

/-- `sceKernelMprotect`. -/
def sceKernelMprotect (addr size : BitVec 64) (prot : BitVec 32) (l : List GuestVMExtent) :
    List GuestVMExtent :=
  if size = 0 then l
  else
    let start := addr &&& ~~~0x3fff
    let span := (size + (addr - start) + 0x3fff) &&& ~~~0x3fff
    l.map fun e =>
      if e.isFree = false ∧ e.addr < start + span ∧ start < e.stop then { e with prot } else e

/-- `sceKernelMtypeprotect`. -/
def sceKernelMtypeprotect (memSize : BitVec 64) (callocStart callocStop : Bool)
    (addr size : BitVec 64) (mtype prot : BitVec 32) (l : List GuestVMExtent) :
    List GuestVMExtent :=
  let start := addr &&& ~~~0x3fff
  let span := (size + (addr - start) + 0x3fff) &&& ~~~0x3fff
  let stop := start + span
  if size = 0 ∨ stop < start ∨ memSize < stop then l
  else if l.any fun e => !e.isFree && decide (e.addr < stop) && decide (start < e.stop) then
    match splitEnds callocStart callocStop start stop l with
    | (l, false) => l
    | (l, true) => l.map fun e => if e.inside start stop then { e with prot, mtype } else e
  else l

/-- `SYS_mprotect`: the first extent that holds the address. -/
def sysMprotect (addr : BitVec 64) (prot : BitVec 32) (l : List GuestVMExtent) :
    List GuestVMExtent :=
  match firstSplit (fun e : GuestVMExtent => decide (e.addr ≤ addr) && decide (addr < e.stop)) l with
  | none => l
  | some (pre, e, post) => pre ++ { e with prot } :: post

/-- `sceKernelSetVirtualRangeName`. -/
def sceKernelSetVirtualRangeName (addr len : BitVec 64) (name : List Char)
    (l : List GuestVMExtent) : List GuestVMExtent :=
  if 32 ≤ name.length then l
  else l.map fun e =>
    if e.isFree = false ∧ e.addr < addr + len ∧ addr < e.stop then
      { e with name := extentName (some name) }
    else e

/-! ### runs -/

/-- The calls that hold the lock once. -/
inductive VmCall where
  | alloc (callocPrefix callocSplit : Bool) (size alignment : BitVec 64) (prot flags : BitVec 32)
      (name : Option (List Char))
  | allocFixed (callocPrefix callocSplit : Bool) (desired size : BitVec 64) (prot flags : BitVec 32)
      (name : Option (List Char))
  | mprotect (addr size : BitVec 64) (prot : BitVec 32)
  | mtypeprotect (callocStart callocStop : Bool) (addr size : BitVec 64) (mtype prot : BitVec 32)
  | sysMprotect (addr : BitVec 64) (prot : BitVec 32)
  | setVirtualRangeName (addr len : BitVec 64) (name : List Char)

/-- The list after a call, and the extent it maps, if any. -/
def VmCall.apply (memSize : BitVec 64) (l : List GuestVMExtent) :
    VmCall → List GuestVMExtent × Option GuestVMExtent
  | .alloc cp cs size alignment prot flags name =>
      recompVmAllocNamedAligned cp cs size alignment prot flags name l
  | .allocFixed cp cs desired size prot flags name =>
      recompVmAllocFixed memSize cp cs desired size prot flags name l
  | .mprotect addr size prot => (sceKernelMprotect addr size prot l, none)
  | .mtypeprotect ca co addr size mtype prot =>
      (sceKernelMtypeprotect memSize ca co addr size mtype prot l, none)
  | .sysMprotect addr prot => (Runtime.sysMprotect addr prot l, none)
  | .setVirtualRangeName addr len name => (sceKernelSetVirtualRangeName addr len name l, none)

/-- The steps of the threads. -/
inductive VmAct (Tid : Type*) where
  | call (t : Tid) (c : VmCall)
  | freeBegin (t : Tid) (callocStart callocStop malloc : Bool) (addr size : BitVec 64)
  | unmap (t : Tid)
  | freeEnd (t : Tid)

/-- The memory of a process. -/
structure Vm (Tid : Type*) where
  memSize : BitVec 64
  extents : List GuestVMExtent
  frees : Tid → Option PendingFree

namespace Vm

variable {Tid : Type*}

/-- The memory after `recomp_init_runtime`. -/
def start (memSize imageSize : BitVec 64) (callocStack : Bool) : Vm Tid where
  memSize := memSize
  extents := initExtents memSize imageSize callocStack
  frees _ := none

/-- One step, of a thread that is ready for it. -/
def exec [DecidableEq Tid] (v : Vm Tid) : VmAct Tid → Option (Vm Tid)
  | .call t c =>
      if (v.frees t).isNone then some { v with extents := (c.apply v.memSize v.extents).1 } else none
  | .freeBegin t ca co m addr size =>
      if (v.frees t).isNone then
        match Runtime.freeBegin ca co m addr size v.extents with
        | (l, .inl _) => some { v with extents := l }
        | (l, .inr p) => some { v with extents := l, frees := Function.update v.frees t (some p) }
      else none
  | .unmap t =>
      match v.frees t with
      | some p =>
          if p.next < p.ranges.length then
            some { v with frees := Function.update v.frees t (some { p with next := p.next + 1 }) }
          else none
      | none => none
  | .freeEnd t =>
      match v.frees t with
      | some p =>
          if p.next < p.ranges.length then none
          else some { v with extents := Runtime.freeEnd p v.extents
                             frees := Function.update v.frees t none }
      | none => none

end Vm

/-- The runs of the threads from `recomp_init_runtime` on. -/
def vmSystem (Tid : Type*) [DecidableEq Tid] (memSize imageSize : BitVec 64) (callocStack : Bool) :
    System (Vm Tid) (VmAct Tid) where
  init v := v = Vm.start memSize imageSize callocStack
  step v a v' := v.exec a = some v'

/-! ### what an operation can do to the list -/

section Cases

variable {l pre post : List GuestVMExtent} {e : GuestVMExtent} {start len alignment : BitVec 64}
  {allowed : GuestVMExtent → Bool}

theorem toNat_stop (h : e.addr.toNat + e.size.toNat < 2 ^ 64) :
    e.stop.toNat = e.addr.toNat + e.size.toNat := BitVec.toNat_add_of_lt h

/-- The pieces of a carved extent fill it: the mapping of at least `len` bytes, the free piece in
front of it and the one behind it, where there is something left. -/
theorem carve_spec {cp cs : Bool} {prot flags : BitVec 32} {name : Option (List Char)}
    {front back : List GuestVMExtent} {m : GuestVMExtent} (htot : e.addr.toNat + e.size.toNat < 2 ^ 64)
    (hstart : e.addr.toNat ≤ start.toNat)
    (hend : start.toNat + len.toNat ≤ e.addr.toNat + e.size.toNat)
    (h : e.carve cp cs start len prot flags name = some (front, m, back)) :
    m.addr = start ∧ m.isFree = false ∧ len.toNat ≤ m.size.toNat ∧
      Tiles (fun c => c.addr.toNat) (fun c => c.size.toNat) e.addr.toNat
        (e.addr.toNat + e.size.toNat) (front ++ m :: back) ∧
      (front = [] ∧ start = e.addr ∨
        e.addr < start ∧ ∃ n : BitVec 64, 0 < n.toNat ∧
          front = [{ addr := e.addr, size := n, isFree := true }]) ∧
      (back = [] ∨ start + len < e.stop ∧ ∃ n : BitVec 64, 0 < n.toNat ∧
          back = [{ addr := start + len, size := n, isFree := true }]) := by
  have hfront : (start - e.addr).toNat = start.toNat - e.addr.toNat :=
    BitVec.toNat_sub_of_le (BitVec.le_def.2 hstart)
  have hrest : (e.size - (start - e.addr)).toNat =
      e.size.toNat - (start.toNat - e.addr.toNat) := by
    rw [BitVec.toNat_sub_of_le (by rw [BitVec.le_def, hfront]; omega), hfront]
  have hnext : (start + len).toNat = start.toNat + len.toNat := BitVec.toNat_add_of_lt (by omega)
  have hstop := toNat_stop htot
  -- the mapping and what is left behind it
  obtain ⟨m', back', hback, hm, hfree, hk, htail, hleft⟩ : ∃ m' back',
      (if len < e.size - (start - e.addr) ∧ cs then
        (GuestVMExtent.mapped prot flags name { e with addr := start, size := len },
          [{ addr := start + len, size := e.size - (start - e.addr) - len, isFree := true }])
      else (GuestVMExtent.mapped prot flags name
        { e with addr := start, size := e.size - (start - e.addr) }, [])) = (m', back') ∧
      m'.addr = start ∧ m'.isFree = false ∧ len.toNat ≤ m'.size.toNat ∧
      Tiles (fun c => c.addr.toNat) (fun c => c.size.toNat) start.toNat
        (e.addr.toNat + e.size.toNat) (m' :: back') ∧
      (back' = [] ∨ start + len < e.stop ∧ ∃ n : BitVec 64, 0 < n.toNat ∧
          back' = [{ addr := start + len, size := n, isFree := true }]) := by
    split
    · rename_i hsplit
      have hlt := hsplit.1
      rw [BitVec.lt_def, hrest] at hlt
      have hn : (e.size - (start - e.addr) - len).toNat =
          e.size.toNat - (start.toNat - e.addr.toNat) - len.toNat := by
        rw [BitVec.toNat_sub_of_le (by rw [BitVec.le_def, hrest]; omega), hrest]
      refine ⟨_, _, rfl, rfl, rfl, Nat.le_refl _, ⟨rfl, hnext, ?_⟩, .inr ⟨?_, _, ?_, rfl⟩⟩
      · show start.toNat + len.toNat + (e.size - (start - e.addr) - len).toNat = _
        omega
      · rw [BitVec.lt_def]
        omega
      · omega
    · refine ⟨_, _, rfl, rfl, rfl, ?_, ⟨rfl, ?_⟩, .inl rfl⟩
      · show len.toNat ≤ (e.size - (start - e.addr)).toNat
        omega
      · show start.toNat + (e.size - (start - e.addr)).toNat = _
        omega
  rw [GuestVMExtent.carve] at h
  dsimp only at h
  rw [hback] at h
  split at h
  · rename_i hlt
    rw [BitVec.lt_def] at hlt
    split at h
    · cases h
      refine ⟨hm, hfree, hk, ⟨rfl, ?_⟩, .inr ⟨BitVec.lt_def.2 hlt, _, ?_, rfl⟩, hleft⟩
      · show Tiles _ _ (e.addr.toNat + (start - e.addr).toNat) _ _
        rw [show e.addr.toNat + (start - e.addr).toNat = start.toNat by omega]
        exact htail
      · omega
    · cases h
  · rename_i hge
    rw [BitVec.lt_def] at hge
    have heq : start = e.addr := BitVec.eq_of_toNat_eq (by omega)
    cases h
    refine ⟨hm, hfree, hk, ?_, .inl ⟨rfl, heq⟩, hleft⟩
    rw [show e.addr.toNat = start.toNat by omega]
    rw [show e.addr.toNat = start.toNat by omega] at htail
    exact htail

/-- A pass returns the best extent it began with, or one of the list that fits. -/
theorem bestFit_spec {best : Option (List GuestVMExtent × GuestVMExtent × List GuestVMExtent)}
    {before : List GuestVMExtent}
    (h : bestFit len alignment allowed best before l = some (pre, e, post)) :
    best = some (pre, e, post) ∨ before ++ l = pre ++ e :: post ∧ e.fits len alignment = true := by
  induction l generalizing best before with
  | nil => exact .inl h
  | cons c l ih =>
      simp only [bestFit] at h
      have hassoc : before ++ [c] ++ l = before ++ c :: l := by simp
      split at h
      · rename_i hfit
        rw [Bool.and_eq_true, Bool.and_eq_true] at hfit
        split at h
        · cases h
          exact .inr ⟨rfl, hfit.1.1⟩
        · rcases ih h with hbest | ⟨heq, hres⟩
          · cases hbest
            exact .inr ⟨rfl, hfit.1.1⟩
          · exact .inr ⟨hassoc ▸ heq, hres⟩
      · rcases ih h with hbest | ⟨heq, hres⟩
        · exact .inl hbest
        · exact .inr ⟨hassoc ▸ heq, hres⟩

/-- A pass that returns nothing has seen no extent that fits and is admitted. -/
theorem bestFit_none {best : Option (List GuestVMExtent × GuestVMExtent × List GuestVMExtent)}
    {before : List GuestVMExtent} (h : bestFit len alignment allowed best before l = none) :
    best = none ∧ ∀ c ∈ l, c.fits len alignment = true → allowed c = false := by
  induction l generalizing best before with
  | nil => exact ⟨h, fun c hc => (nomatch hc)⟩
  | cons c l ih =>
      simp only [bestFit] at h
      split at h
      · split at h
        · cases h
        · cases (ih h).1
      · rename_i hfit
        obtain ⟨rfl, hrest⟩ := ih h
        refine ⟨rfl, fun d hd hd' => ?_⟩
        rcases List.mem_cons.1 hd with rfl | hd
        · simpa [hd'] using hfit
        · exact hrest d hd hd'

/-- An allocation leaves the list, or carves its range out of a free extent. -/
theorem alloc_cases (cp cs : Bool) (size alignment : BitVec 64) (prot flags : BitVec 32)
    (name : Option (List Char)) (l : List GuestVMExtent) :
    recompVmAllocNamedAligned cp cs size alignment prot flags name l = (l, none) ∨
      ∃ pre e post front m back, l = pre ++ e :: post ∧ size ≠ 0 ∧
        e.fits (alignUp size (vmAlignment alignment)) (vmAlignment alignment) = true ∧
        e.carve cp cs (e.candidate (vmAlignment alignment)) (alignUp size (vmAlignment alignment))
          prot flags name = some (front, m, back) ∧
        recompVmAllocNamedAligned cp cs size alignment prot flags name l =
          (pre ++ (front ++ m :: back) ++ post, some m) := by
  rw [recompVmAllocNamedAligned]
  split
  · exact .inl rfl
  · rename_i hsize
    dsimp only
    split
    · exact .inl rfl
    · rename_i pre e post hfound
      split
      · exact .inl rfl
      · rename_i front m back hcarve
        have hspec : l = pre ++ e :: post ∧
            e.fits (alignUp size (vmAlignment alignment)) (vmAlignment alignment) = true := by
          rcases Option.or_eq_some_iff.1 hfound with hfirst | ⟨-, hsecond⟩
          · rcases bestFit_spec hfirst with hnone | hres
            · cases hnone
            · exact hres
          · rcases bestFit_spec hsecond with hnone | hres
            · cases hnone
            · exact hres
        exact .inr ⟨pre, e, post, front, m, back, hspec.1, hsize, hspec.2, hcarve, rfl⟩

/-- A fixed mapping leaves the list, or carves its range out of an extent that may be used. -/
theorem allocFixed_cases (memSize : BitVec 64) (cp cs : Bool) (desired size : BitVec 64)
    (prot flags : BitVec 32) (name : Option (List Char)) (l : List GuestVMExtent) :
    recompVmAllocFixed memSize cp cs desired size prot flags name l = (l, none) ∨
      ∃ pre e post front m back, firstSplit (GuestVMExtent.holds (pageDown desired) (pageUp size)) l =
          some (pre, e, post) ∧ size ≠ 0 ∧ pageDown desired ≤ pageDown desired + pageUp size ∧
        e.carve cp cs (pageDown desired) (pageUp size) prot flags name = some (front, m, back) ∧
        recompVmAllocFixed memSize cp cs desired size prot flags name l =
          (pre ++ (front ++ m :: back) ++ post, some m) := by
  rw [recompVmAllocFixed]
  split
  · exact .inl rfl
  · rename_i hargs
    rw [not_or, not_or] at hargs
    split
    · exact .inl rfl
    · rename_i pre e post hfound
      split
      · exact .inl rfl
      · rename_i front m back hcarve
        exact .inr ⟨pre, e, post, front, m, back, hfound, hargs.1, BitVec.not_lt.1 hargs.2.2, hcarve, rfl⟩

/-- A split leaves the list, or replaces a mapped extent by its halves. -/
theorem splitExtentAt_cases (calloc : Bool) (cut : BitVec 64) (l : List GuestVMExtent) :
    (splitExtentAt calloc cut l).1 = l ∧
        (firstSplit (GuestVMExtent.straddles cut) l = none ∨ (splitExtentAt calloc cut l).2 = false) ∨
      ∃ pre e post, firstSplit (GuestVMExtent.straddles cut) l = some (pre, e, post) ∧
        splitExtentAt calloc cut l = (pre ++ e.halves cut ++ post, true) := by
  rw [splitExtentAt]
  split
  · rename_i hnone
    exact .inl ⟨rfl, .inl hnone⟩
  · rename_i pre e post hfound
    split
    · exact .inr ⟨pre, e, post, hfound, rfl⟩
    · exact .inl ⟨rfl, .inr rfl⟩

theorem carve_isSome (cs : Bool) (e : GuestVMExtent) (start len : BitVec 64) (prot flags : BitVec 32)
    (name : Option (List Char)) : ∃ es, e.carve true cs start len prot flags name = some es := by
  rw [GuestVMExtent.carve]
  split
  · exact ⟨_, rfl⟩
  · exact ⟨_, rfl⟩

/-- The halves of a mapped extent that straddles the cut. -/
theorem halves_spec {cut : BitVec 64} (h : e.straddles cut = true)
    (htot : e.addr.toNat + e.size.toNat < 2 ^ 64) :
    e.isFree = false ∧ e.addr.toNat < cut.toNat ∧ cut.toNat < e.addr.toNat + e.size.toNat ∧
      (cut - e.addr).toNat = cut.toNat - e.addr.toNat ∧
      (e.stop - cut).toNat = e.addr.toNat + e.size.toNat - cut.toNat ∧
      Tiles (fun c => c.addr.toNat) (fun c => c.size.toNat) e.addr.toNat
        (e.addr.toNat + e.size.toNat) (e.halves cut) := by
  have hstop := toNat_stop htot
  simp only [GuestVMExtent.straddles, Bool.not_eq_true', Bool.or_eq_false_iff,
    decide_eq_false_iff_not, BitVec.not_le, BitVec.lt_def] at h
  obtain ⟨⟨hfree, hlo⟩, hhi⟩ := h
  rw [hstop] at hhi
  have hfirst : (cut - e.addr).toNat = cut.toNat - e.addr.toNat :=
    BitVec.toNat_sub_of_le (by rw [BitVec.le_def]; omega)
  have hsecond : (e.stop - cut).toNat = e.addr.toNat + e.size.toNat - cut.toNat := by
    rw [BitVec.toNat_sub_of_le (by rw [BitVec.le_def]; omega), hstop]
  refine ⟨hfree, hlo, hhi, hfirst, hsecond, rfl, ?_, ?_⟩
  · show cut.toNat = e.addr.toNat + (cut - e.addr).toNat
    omega
  · show e.addr.toNat + (cut - e.addr).toNat + (e.stop - cut).toNat = _
    omega

end Cases

/-! ### what a step can do to the memory -/

section Steps

variable {Tid : Type*} [DecidableEq Tid] {v v' : Vm Tid}

theorem Vm.exec_cases {a : VmAct Tid} (h : v.exec a = some v') :
    (∃ t c, a = .call t c ∧ v.frees t = none ∧
      v' = { v with extents := (c.apply v.memSize v.extents).1 }) ∨
    (∃ t ca co m addr size l r, a = .freeBegin t ca co m addr size ∧ v.frees t = none ∧
      Runtime.freeBegin ca co m addr size v.extents = (l, .inl r) ∧
      v' = { v with extents := l }) ∨
    (∃ t ca co m addr size l p, a = .freeBegin t ca co m addr size ∧ v.frees t = none ∧
      Runtime.freeBegin ca co m addr size v.extents = (l, .inr p) ∧
      v' = { v with extents := l, frees := Function.update v.frees t (some p) }) ∨
    (∃ t p, a = .unmap t ∧ v.frees t = some p ∧ p.next < p.ranges.length ∧
      v' = { v with frees := Function.update v.frees t (some { p with next := p.next + 1 }) }) ∨
    (∃ t p, a = .freeEnd t ∧ v.frees t = some p ∧ ¬ p.next < p.ranges.length ∧
      v' = { v with extents := Runtime.freeEnd p v.extents
                    frees := Function.update v.frees t none }) := by
  cases a with
  | call t c =>
      simp only [Vm.exec] at h
      split at h
      · rename_i hready
        cases h
        exact .inl ⟨t, c, rfl, Option.isNone_iff_eq_none.1 hready, rfl⟩
      · cases h
  | freeBegin t ca co m addr size =>
      simp only [Vm.exec] at h
      split at h
      · rename_i hready
        have hready := Option.isNone_iff_eq_none.1 hready
        split at h
        · rename_i l r heq
          cases h
          exact .inr (.inl ⟨t, ca, co, m, addr, size, l, r, rfl, hready, heq, rfl⟩)
        · rename_i l p heq
          cases h
          exact .inr (.inr (.inl ⟨t, ca, co, m, addr, size, l, p, rfl, hready, heq, rfl⟩))
      · cases h
  | unmap t =>
      simp only [Vm.exec] at h
      split at h
      · rename_i p hp
        split at h
        · rename_i hlt
          cases h
          exact .inr (.inr (.inr (.inl ⟨t, p, rfl, hp, hlt, rfl⟩)))
        · cases h
      · cases h
  | freeEnd t =>
      simp only [Vm.exec] at h
      split at h
      · rename_i p hp
        split at h
        · cases h
        · rename_i hdone
          cases h
          exact .inr (.inr (.inr (.inr ⟨t, p, rfl, hp, hdone, rfl⟩)))
      · cases h

/-- What holds of every pending call still does when one of them changes. -/
theorem forall_pending {P : Tid → PendingFree → Prop} {frees : Tid → Option PendingFree} {t : Tid}
    {q : Option PendingFree} (h : ∀ u p, frees u = some p → P u p) (hq : ∀ p, q = some p → P t p) :
    ∀ u p, Function.update frees t q u = some p → P u p := by
  intro u p hp
  by_cases hu : u = t
  · subst hu
    rw [Function.update_self] at hp
    exact hq p hp
  · rw [Function.update_of_ne hu] at hp
    exact h u p hp

end Steps

end PS4Recomp.Runtime
