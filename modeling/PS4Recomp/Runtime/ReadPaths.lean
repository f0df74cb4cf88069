import Mathlib
import PS4Recomp.Library.PartialRead

/-!
# Reading from descriptors

`ps4_vfs.c` gives out the host's descriptors for files on disk and numbers of its own, from 10000 on, for
files in a pak archive.  The reads of `ps4_syscalls.c` and `ps4_aio.c` start from either.

* `HostFile`, `hostPread`, `hostRead` — the regular files the host has open, and its calls on them; a call
  may fail, be interrupted or move only some of the bytes, as `World.answers` says;
* `ps4VfsOpen`, `ps4VfsRead`, `ps4VfsPread`, `ps4VfsLseek` — the calls that know both kinds;
* `Reply` — what a guest call leaves in `rax` and errno, and what it writes to guest memory;
* `shimRead` … `executeReadRequest` — the entry points.

Paths are lists of characters, one for each byte.  The address that a mapping gets is an argument: the
search of `recomp_vm_alloc_fixed` and `recomp_vm_alloc_named_aligned` is not part of a read.
-/

namespace PS4Recomp.Runtime.ReadPaths

open Library.PartialRead

abbrev Errno := Nat

def enoent : Errno := 2
def eintr : Errno := 4
def ebadf : Errno := 9
def enomem : Errno := 12
def einval : Errno := 22
def enfile : Errno := 23
def erofs : Errno := 30

/-! ### The host -/

/-- A regular file that the host has open. -/
structure HostFile where
  content : List UInt8
  pos : Nat := 0

/-- An entry of `g_vfiles`. -/
structure VirtualPakFile where
  active : Bool := false
  pakFd : Int := 0
  dataOffset : Nat := 0
  fileSize : Nat := 0
  curOffset : Int := 0

structure World where
  host : Int → Option HostFile
  /-- How the host answers its next read calls. -/
  answers : List (Answer Errno)
  gVfiles : Nat → VirtualPakFile

def hostPread (w : World) (fd : Int) (count : Nat) (offset : Int) : Except Errno (List UInt8) × World :=
  match w.host fd with
  | none => (.error ebadf, w)
  | some f =>
    if offset < 0 then (.error einval, w)
    else
      match transfer f.content offset.toNat count w.answers with
      | (r, rest) => (r, { w with answers := rest })

def hostRead (w : World) (fd : Int) (count : Nat) : Except Errno (List UInt8) × World :=
  match w.host fd with
  | none => (.error ebadf, w)
  | some f =>
    match transfer f.content f.pos count w.answers with
    | (.error e, rest) => (.error e, { w with answers := rest })
    | (.ok bytes, rest) =>
      (.ok bytes,
        { w with
          answers := rest
          host := Function.update w.host fd (some { f with pos := f.pos + bytes.length }) })

inductive Whence where
  | seekSet
  | seekCur
  | seekEnd
  | other
  deriving DecidableEq

/-- Where a seek goes from a position in a file of some size. -/
def seekTarget (pos size offset : Int) : Whence → Except Errno Int
  | .seekSet => .ok offset
  | .seekCur => .ok (pos + offset)
  | .seekEnd => .ok (size + offset)
  | .other => .error einval

def hostLseek (w : World) (fd : Int) (offset : Int) (whence : Whence) : Except Errno Int × World :=
  match w.host fd with
  | none => (.error ebadf, w)
  | some f =>
    match seekTarget f.pos f.content.length offset whence with
    | .error e => (.error e, w)
    | .ok newOff =>
      if newOff < 0 then (.error einval, w)
      else (.ok newOff,
        { w with host := Function.update w.host fd (some { f with pos := newOff.toNat }) })

/-! ### The virtual file system -/

/-- `PS4_VFS_VIRTUAL_FD_BASE`. -/
def virtualFdBase : Int := 10000

def maxVirtualFiles : Nat := 256

def ps4VfsIsVirtualFd (fd : Int) : Bool :=
  virtualFdBase ≤ fd ∧ fd < virtualFdBase + maxVirtualFiles

/-- `(uint64_t)x` of an `off_t`. -/
def toU64 (x : Int) : Nat := (x % 2 ^ 64).toNat

/-- `(off_t)n` of a `uint64_t` sum. -/
def toOff (n : Nat) : Int := (n : Int).bmod (2 ^ 64)

/-- The bytes left for a read of `count` bytes at `offset` of a file: `to_read`. -/
def toRead (fileSize offset count : Nat) : Nat :=
  if fileSize < (offset + count) % 2 ^ 64 then fileSize - offset else count

theorem hostPread_ok {w w' : World} {fd : Int} {count : Nat} {offset : Int} {bytes : List UInt8}
    (h : hostPread w fd count offset = (.ok bytes, w')) :
    ∃ f rest, w.host fd = some f ∧ transfer f.content offset.toNat count w.answers = (.ok bytes, rest) ∧
      w' = { w with answers := rest } := by
  unfold hostPread at h
  split at h
  · cases h
  · next f hf =>
    split at h
    · cases h
    · split at h
      · next r rest htransfer =>
        cases h
        exact ⟨f, rest, hf, htransfer, rfl⟩

theorem hostPread_error {w w' : World} {fd : Int} {count : Nat} {offset : Int} {e : Errno}
    (h : hostPread w fd count offset = (.error e, w')) :
    (w.host fd = none ∧ e = ebadf ∨ offset < 0 ∧ e = einval) ∧ w' = w ∨
      ∃ rest, w.answers = .fails e :: rest ∧ w' = { w with answers := rest } := by
  unfold hostPread at h
  split at h
  · next hf =>
    cases h
    exact .inl ⟨.inl ⟨hf, rfl⟩, rfl⟩
  · split at h
    · next hneg =>
      cases h
      exact .inl ⟨.inr ⟨hneg, rfl⟩, rfl⟩
    · split at h
      · next r rest htransfer =>
        cases h
        exact .inr ⟨rest, transfer_error htransfer, rfl⟩

theorem hostRead_ok {w w' : World} {fd : Int} {count : Nat} {bytes : List UInt8}
    (h : hostRead w fd count = (.ok bytes, w')) :
    ∃ f rest, w.host fd = some f ∧ transfer f.content f.pos count w.answers = (.ok bytes, rest) ∧
      w' = { w with
        answers := rest
        host := Function.update w.host fd (some { f with pos := f.pos + bytes.length }) } := by
  unfold hostRead at h
  split at h
  · cases h
  · next f hf =>
    split at h
    · cases h
    · next got rest htransfer =>
      cases h
      exact ⟨f, rest, hf, htransfer, rfl⟩

theorem hostRead_error {w w' : World} {fd : Int} {count : Nat} {e : Errno}
    (h : hostRead w fd count = (.error e, w')) :
    w.host fd = none ∧ e = ebadf ∧ w' = w ∨
      ∃ rest, w.answers = .fails e :: rest ∧ w' = { w with answers := rest } := by
  unfold hostRead at h
  split at h
  · next hf =>
    cases h
    exact .inl ⟨hf, rfl, rfl⟩
  · split at h
    · next e' rest htransfer =>
      cases h
      exact .inr ⟨rest, transfer_error htransfer, rfl⟩
    · cases h

/-- `pread` of one descriptor, `offset total` bytes into it. -/
def preadDevice (fd : Int) (offset : Nat → Int) : Device World UInt8 Errno where
  call w total count := hostPread w fd count (offset total)
  interrupted := eintr
  budget w := w.answers.length
  budget_interrupted := by
    intro w total count w' h
    rcases hostPread_error h with ⟨⟨-, he⟩ | ⟨-, he⟩, -⟩ | ⟨rest, hanswers, rfl⟩
    · cases he
    · cases he
    · rw [hanswers]
      exact Nat.lt_succ_self _
  budget_ok := by
    intro w total count bytes w' h
    obtain ⟨f, rest, -, htransfer, rfl⟩ := hostPread_ok h
    exact (transfer_ok htransfer).2.2.length_le

/-- `read` of one descriptor. -/
def readDevice (fd : Int) : Device World UInt8 Errno where
  call w _ count := hostRead w fd count
  interrupted := eintr
  budget w := w.answers.length
  budget_interrupted := by
    intro w total count w' h
    rcases hostRead_error h with ⟨-, he, -⟩ | ⟨rest, hanswers, rfl⟩
    · cases he
    · rw [hanswers]
      exact Nat.lt_succ_self _
  budget_ok := by
    intro w total count bytes w' h
    obtain ⟨f, rest, -, htransfer, rfl⟩ := hostRead_ok h
    exact (transfer_ok htransfer).2.2.length_le

/-- The slot of a virtual descriptor, if it is open. -/
def virtualSlot (w : World) (fd : Int) : Option Nat :=
  let slot := fd - virtualFdBase
  if slot < 0 ∨ maxVirtualFiles ≤ slot ∨ (w.gVfiles slot.toNat).active = false then none
  else some slot.toNat

def ps4VfsRead (w : World) (fd : Int) (count : Nat) : Except Errno (List UInt8) × World :=
  if ps4VfsIsVirtualFd fd then
    match virtualSlot w fd with
    | none => (.error ebadf, w)
    | some slot =>
      let vf := w.gVfiles slot
      let cur := toU64 vf.curOffset
      if vf.fileSize ≤ cur then (.ok [], w)
      else
        match (preadDevice vf.pakFd fun total => toOff (vf.dataOffset + cur + total)).gather
            (toRead vf.fileSize cur count) [] w with
        | (.error e, w') => (.error e, w')
        | (.ok bytes, w') =>
          (.ok bytes,
            { w' with
              gVfiles := Function.update w'.gVfiles slot
                { w'.gVfiles slot with curOffset := (w'.gVfiles slot).curOffset + bytes.length } })
  else
    -- fstat says that the descriptor is a regular file
    match w.host fd with
    | some _ => (readDevice fd).gather count [] w
    | none => hostRead w fd count

def ps4VfsPread (w : World) (fd : Int) (count : Nat) (offset : Int) : Except Errno (List UInt8) × World :=
  if ps4VfsIsVirtualFd fd then
    match virtualSlot w fd with
    | none => (.error ebadf, w)
    | some slot =>
      let vf := w.gVfiles slot
      if offset < 0 ∨ vf.fileSize ≤ toU64 offset then (.ok [], w)
      else
        (preadDevice vf.pakFd fun total => toOff (vf.dataOffset + toU64 offset + total)).gather
          (toRead vf.fileSize (toU64 offset) count) [] w
  else
    match w.host fd with
    | some _ => (preadDevice fd fun total => offset + total).gather count [] w
    | none => hostPread w fd count offset

def ps4VfsLseek (w : World) (fd : Int) (offset : Int) (whence : Whence) : Except Errno Int × World :=
  if ps4VfsIsVirtualFd fd then
    match virtualSlot w fd with
    | none => (.error ebadf, w)
    | some slot =>
      let vf := w.gVfiles slot
      match seekTarget vf.curOffset vf.fileSize offset whence with
      | .error e => (.error e, w)
      | .ok newOff =>
        if newOff < 0 then (.error einval, w)
        else (.ok newOff,
          { w with gVfiles := Function.update w.gVfiles slot { vf with curOffset := newOff } })
  else hostLseek w fd offset whence

/-! ### Opening -/

abbrev Path := List Char

/-- `ps4_pak_entry_t`. -/
structure PakEntry where
  pakFd : Int
  dataOffset : Nat
  size : Nat

structure OpenFlags where
  creat : Bool := false
  rdonly : Bool := true

/-- What `ps4_vfs_open` asks: the mount table, the host's files, the locales above a path, the pak index. -/
structure Env where
  resolve : Path → Option Path
  access : Path → Bool
  parentLocalePaths : Path → List Path
  pakLookup : Path → Option PakEntry
  hostOpen : World → Path → OpenFlags → Except Errno Int × World

def getApp0Subpath (guestPath : Path) : Option Path :=
  if "/app0/".toList.isPrefixOf guestPath then some (guestPath.drop 6)
  else if guestPath = "/app0".toList then some []
  else if "/hostapp/".toList.isPrefixOf guestPath then some (guestPath.drop 9)
  else if guestPath.head? ≠ some '/' then some guestPath
  else none

/-- The path on the host's disk that an open takes, if there is one. -/
def diskPath (env : Env) (guestPath : Path) (flags : OpenFlags) : Option Path :=
  let direct := (env.resolve guestPath).filter fun resolved => env.access resolved || flags.creat
  let inParent := (env.parentLocalePaths guestPath).findSome? fun parent =>
    (env.resolve parent).filter env.access
  direct.or inParent

def openPak (w : World) (entry : PakEntry) (flags : OpenFlags) : Except Errno Int × World :=
  if flags.rdonly = false then (.error erofs, w)
  else
    match (List.range maxVirtualFiles).find? fun i => (w.gVfiles i).active = false with
    | none => (.error enfile, w)
    | some slot =>
      (.ok (virtualFdBase + slot),
        { w with
          gVfiles := Function.update w.gVfiles slot
            { active := true, pakFd := entry.pakFd, dataOffset := entry.dataOffset,
              fileSize := entry.size, curOffset := 0 } })

def ps4VfsOpen (env : Env) (w : World) (guestPath : Path) (flags : OpenFlags) : Except Errno Int × World :=
  match diskPath env guestPath flags with
  | some path => env.hostOpen w path flags
  | none =>
    match (getApp0Subpath guestPath).bind env.pakLookup with
    | some entry => openPak w entry flags
    | none => (.error enoent, w)

/-! ### The entry points -/

/-- What a guest call leaves: `rax`, errno where it is set, the bytes it writes to guest memory and where,
and what it writes to `res_out`. -/
structure Reply where
  rax : Nat
  errno : Option Errno := none
  writes : List (Nat × List UInt8) := []
  resOut : Option Nat := none
  deriving DecidableEq

def Reply.written (r : Reply) : List UInt8 :=
  r.writes.flatMap Prod.snd

def sceKernelError (e : Errno) : Nat := 0xffffffff80020000 ||| e

def posixFailure (e : Errno) : Reply := { rax := 2 ^ 64 - 1, errno := some e }
def sceFailure (e : Errno) : Reply := { rax := sceKernelError e, errno := some e }

/-- The reply of a read: its bytes placed by `place`, or a failure. -/
def replyOf (failure : Errno → Reply) (place : List UInt8 → List (Nat × List UInt8)) :
    Except Errno (List UInt8) × World → Reply × World
  | (.ok bytes, w) => ({ rax := bytes.length, writes := place bytes }, w)
  | (.error e, w) => (failure e, w)

def shimRead (w : World) (fd : Int) (buf count : Nat) : Reply × World :=
  replyOf posixFailure (fun bytes => [(buf, bytes)]) (ps4VfsRead w fd count)

def shimSceKernelRead (w : World) (fd : Int) (buf count : Nat) : Reply × World :=
  replyOf sceFailure (fun bytes => [(buf, bytes)]) (ps4VfsRead w fd count)

def shimSceKernelPread (w : World) (fd : Int) (buf nbytes : Nat) (offset : Int) : Reply × World :=
  replyOf sceFailure (fun bytes => [(buf, bytes)]) (ps4VfsPread w fd nbytes offset)

/-- `SYS_read` of `shim_syscall`. -/
def sysRead (w : World) (fd : Int) (buf count : Nat) : Reply × World :=
  replyOf posixFailure (fun bytes => [(buf, bytes)]) (hostRead w fd count)

structure IoVec where
  base : Nat
  len : Nat

def totalLen (iov : List IoVec) : Nat := (iov.map IoVec.len).sum

/-- The buffers filled one after the other. -/
def scatter : List IoVec → List UInt8 → List (Nat × List UInt8)
  | [], _ => []
  | v :: iov, bytes => (v.base, bytes.take v.len) :: scatter iov (bytes.drop v.len)

/-- The buffer lists a vectored read takes. -/
def IovOk (iov : List IoVec) : Prop := 0 < iov.length ∧ iov.length ≤ 1024

instance (iov : List IoVec) : Decidable (IovOk iov) := inferInstanceAs (Decidable (_ ∧ _))

/-- A vectored read: one host call for all the buffers. -/
def vectored (failure : Errno → Reply) (w : World) (iov : List IoVec)
    (call : Nat → Except Errno (List UInt8) × World) : Reply × World :=
  if IovOk iov then replyOf failure (scatter iov) (call (totalLen iov))
  else (failure einval, w)

def shimReadv (w : World) (fd : Int) (iov : List IoVec) : Reply × World :=
  vectored posixFailure w iov fun count => hostRead w fd count

def shimSceKernelReadv (w : World) (fd : Int) (iov : List IoVec) : Reply × World :=
  vectored sceFailure w iov fun count => hostRead w fd count

def shimSceKernelPreadv (w : World) (fd : Int) (iov : List IoVec) (offset : Int) : Reply × World :=
  vectored sceFailure w iov fun count => hostPread w fd count offset

/-- `MAP_ANONYMOUS`. -/
def mapAnonymous : Nat := 0x1000

/-- The arguments of a mapping, and the addresses that the two allocators give. -/
structure MmapArgs where
  addr : Nat
  flags : Nat
  fixed : Option Nat
  named : Option Nat

def MmapArgs.allocAddr (m : MmapArgs) : Option Nat :=
  if m.addr ≠ 0 then m.fixed.or m.named else m.named

/-- A mapping: its bytes are read by `pread`. -/
def mapped (failure : Errno → Reply) (success : Nat → Reply)
    (pread : World → Int → Nat → Int → Except Errno (List UInt8) × World)
    (m : MmapArgs) (w : World) (fd : Int) (len : Nat) (offset : Int) : Reply × World :=
  if len = 0 then (failure einval, w)
  else
    match m.allocAddr with
    | none => (failure enomem, w)
    | some addr =>
      if m.flags &&& mapAnonymous = 0 ∧ 0 ≤ fd then
        match pread w fd len offset with
        | (.error e, w') => (failure e, w')
        | (.ok bytes, w') => ({ success addr with writes := [(addr, bytes)] }, w')
      else (success addr, w)

def shimMmap (m : MmapArgs) (w : World) (fd : Int) (len : Nat) (offset : Int) : Reply × World :=
  mapped posixFailure (fun addr => { rax := addr }) ps4VfsPread m w fd len offset

/-- A failure of `sceKernelMmap` leaves errno as it is. -/
def mmapFailure (e : Errno) : Reply := { rax := sceKernelError e }

def shimSceKernelMmap (m : MmapArgs) (resOut : Nat) (w : World) (fd : Int) (len : Nat) (offset : Int) :
    Reply × World :=
  if len = 0 ∨ resOut = 0 then ({ rax := 0x80020016 }, w)
  else if m.allocAddr = none then ({ rax := 0x8002000c }, w)
  else mapped mmapFailure (fun addr => { rax := 0, resOut := some addr }) ps4VfsPread m w fd len offset

/-- `SYS_mmap` of `shim_syscall`. -/
def sysMmap (m : MmapArgs) (w : World) (fd : Int) (len : Nat) (offset : Int) : Reply × World :=
  mapped posixFailure (fun addr => { rax := addr }) hostPread m w fd len offset

inductive AioState where
  | submitted
  | processing
  | completed
  | aborted
  deriving DecidableEq

structure OrbisKernelAioResult where
  returnValue : Int
  state : AioState
  deriving DecidableEq

structure OrbisKernelAioRWRequest where
  offset : Int
  nbyte : Nat
  buf : Nat
  result : Nat
  fd : Int

/-- The result that the request points to, and the bytes in its buffer. -/
def executeReadRequest (w : World) (req : OrbisKernelAioRWRequest) :
    Option OrbisKernelAioResult × List (Nat × List UInt8) × World :=
  match hostPread w req.fd req.nbyte req.offset with
  | (.error e, w') =>
    (if req.result ≠ 0 then some ⟨-e, .aborted⟩ else none, [], w')
  | (.ok bytes, w') =>
    (if req.result ≠ 0 then some ⟨bytes.length, .completed⟩ else none, [(req.buf, bytes)], w')

end PS4Recomp.Runtime.ReadPaths
