import PS4Recomp.Library.Bytes
import PS4Recomp.Library.Paging
import PS4Recomp.Library.Transition

/-!
# Directory listings

`ps4_syscalls.c`: the listing of a directory is read once for a descriptor, kept in one of 64 slots and served
as FreeBSD records from a position on.  A slot is found by its descriptor and checked by device and inode.

* `HostEntry`, `HostFd` — what the host's `readdir` and `fstat` say; `Visible` — the entries that are served;
* `Dirent`, `readEntries`, `encode` — a record, the listing of a directory, the bytes of a record;
* `walkRecords` — how a caller steps through a buffer by the length fields, `walkRecords_encode`;
* `guestDirCacheGet`, `guestGetdirentries`, `listDir` — the slot of a descriptor, and the calls;
* `exec`, `dirSystem` — the runs, with the directories that are opened, changed and closed meanwhile;
* `Delivers`, `Listed` — what the replies on a descriptor make up; `Proper` — the calls that keep to it.

Allocations and the duplication of a descriptor succeed; every call holds `g_dir_cache_lock`.
-/

namespace PS4Recomp.Runtime.DirListing

open Library Library.Paging Library.Transition

abbrev Errno := ℕ

def ebadf : Errno := 9
def enotdir : Errno := 20
def einval : Errno := 22

/-! ### Records -/

/-- An entry that `readdir` returns. -/
structure HostEntry where
  name : List (BitVec 8)
  ino : BitVec 64
  type : BitVec 8
  deriving DecidableEq

/-- AppleDouble files `._*` are hidden, and names of more than 255 bytes left out. -/
def Visible (e : HostEntry) : Prop := ¬[0x2e, 0x5f] <+: e.name ∧ e.name.length ≤ 255

instance (e : HostEntry) : Decidable (Visible e) := inferInstanceAs (Decidable (_ ∧ _))

/-- One entry of a listing. -/
structure Dirent where
  ino : BitVec 32
  type : BitVec 8
  name : List (BitVec 8)
  short : name.length ≤ 255
  deriving DecidableEq

/-- The loop over `readdir`, with `count` entries so far. -/
def readEntries (count : ℕ) : List HostEntry → List Dirent
  | [] => []
  | e :: es =>
    if h : Visible e then
      let ino := e.ino.setWidth 32
      ⟨if ino ≠ 0 then ino else BitVec.ofNat 32 (count + 1), e.type, e.name, h.2⟩ :: readEntries (count + 1) es
    else readEntries count es

namespace Dirent

variable (r : Dirent)

/-- `(8 + namlen + 1 + 3) & ~3`. -/
def reclen : ℕ := (8 + r.name.length + 1 + 3) / 4 * 4

def encode : List (BitVec 8) :=
  toLE 4 r.ino.toNat ++ (toLE 2 r.reclen ++ (r.type :: BitVec.ofNat 8 r.name.length ::
    (r.name ++ List.replicate (r.reclen - 8 - r.name.length) 0)))

end Dirent

/-- The record in front of a buffer, and what follows it. -/
def nextRecord (buf : List (BitVec 8)) : Option (Dirent × List (BitVec 8)) :=
  let reclen := leNat ((buf.drop 4).take 2)
  let namlen := buf.getD 7 0
  if 9 + namlen.toNat ≤ reclen ∧ reclen ≤ buf.length then
    some (⟨BitVec.ofNat 32 (leNat (buf.take 4)), buf.getD 6 0, (buf.drop 8).take namlen.toNat,
      (List.length_take_le _ _).trans (Nat.le_of_lt_succ namlen.isLt)⟩, buf.drop reclen)
  else none

theorem nextRecord_length {buf rest : List (BitVec 8)} {r : Dirent} (h : nextRecord buf = some (r, rest)) :
    rest.length < buf.length := by
  simp only [nextRecord] at h
  split at h
  · rename_i hlen
    cases h
    rw [List.length_drop]
    omega
  · cases h

/-- The records of a buffer, stepped through by their length fields. -/
def walkRecords (buf : List (BitVec 8)) : Option (List Dirent) :=
  if buf = [] then some []
  else
    match h : nextRecord buf with
    | none => none
    | some (r, rest) => (walkRecords rest).map (r :: ·)
termination_by buf.length
decreasing_by exact nextRecord_length h

/-! ### Slots -/

/-- What `fstat` and `readdir` say of an open descriptor. -/
structure HostDir where
  dev : ℕ
  ino : ℕ
  entries : List HostEntry

inductive HostFd where
  | dir (d : HostDir)
  | other

/-- A slot in use: its `names` is not null. -/
structure GuestDirCache where
  fd : Int
  dev : ℕ
  ino : ℕ
  dirents : List Dirent
  pos : ℕ

abbrev DirCaches := Fin 64 → Option GuestDirCache

/-- The slot of a descriptor. -/
def slotOf (caches : DirCaches) (fd : Int) : Option (Fin 64 × GuestDirCache) :=
  (List.finRange 64).findSome? fun i =>
    (caches i).bind fun c => if c.fd = fd then some (i, c) else none

/-- The slot for a new listing: a free one, else the first. -/
def freeSlot (caches : DirCaches) : Fin 64 :=
  ((List.finRange 64).find? fun i => (caches i).isNone).getD 0

/-- `guest_dir_cache_get`: the slot that the listing is in from now on, and the listing. -/
def guestDirCacheGet (caches : DirCaches) (fd : Int) : Option HostFd → Except Errno (Fin 64 × GuestDirCache)
  | none => .error ebadf
  | some .other => .error enotdir
  | some (.dir d) =>
    let fresh : GuestDirCache := { fd, dev := d.dev, ino := d.ino, dirents := readEntries 0 d.entries, pos := 0 }
    match slotOf caches fd with
    | some (i, c) => .ok (i, if c.dev = d.dev ∧ c.ino = d.ino then c else fresh)
    | none => .ok (freeSlot caches, fresh)

/-- `guest_dir_cache_drop_fd`. -/
def guestDirCacheDropFd (caches : DirCaches) (fd : Int) : DirCaches := fun i =>
  (caches i).filter fun c => c.fd ≠ fd

/-! ### Calls -/

/-- Where a call starts: a base in the listing, from the front for a negative one, else where the last call
stopped. -/
def startPos (c : GuestDirCache) : Option Int → ℕ
  | none => c.pos
  | some base => if base < 0 then 0 else if base ≤ c.dirents.length then base.toNat else c.pos

/-- The loop that fills the buffer: the bytes from `off` on, and the number of records. -/
def fillBuf (nbytes off : ℕ) : List Dirent → List (BitVec 8) × ℕ
  | [] => ([], 0)
  | r :: rs =>
    if nbytes < off + r.reclen then ([], 0)
    else
      let (bytes, k) := fillBuf nbytes (off + r.reclen) rs
      (r.encode ++ bytes, k + 1)

/-- `guest_getdirentries`, for the slot of the descriptor. -/
def guestGetdirentries (c : GuestDirCache) (nbytes : ℕ) (basep : Option Int) :
    GuestDirCache × Except Errno (List (BitVec 8)) :=
  let pos := startPos c basep
  let (bytes, k) := fillBuf nbytes 0 (c.dirents.drop pos)
  let c := { c with pos := pos + k }
  if bytes.length = 0 ∧ c.pos < c.dirents.length then (c, .error einval) else (c, .ok bytes)

inductive DirEntryPoint where
  | getdents
  | getdirentries
  | sceKernelGetdirentries
  deriving DecidableEq

structure ListCall where
  entry : DirEntryPoint
  fd : Int
  nbytes : ℕ
  /-- A base pointer is given. -/
  basep : Bool := false

/-- What the shims pass for the base pointer: `getdents` has none, the others pass one to -2. -/
def ListCall.base (call : ListCall) : Option Int :=
  if call.entry = .getdents ∨ call.basep = false then none else some (-2)

structure Reply where
  rax : ℕ
  errno : Option Errno := none
  written : List (BitVec 8) := []
  base : Option ℕ := none
  deriving DecidableEq

def failure : DirEntryPoint → Errno → Reply
  | .sceKernelGetdirentries, e => { rax := 0x80020000 ||| e }
  | _, e => { rax := 2 ^ 64 - 1, errno := some e }

/-- The `int` that `guest_getdirentries` returns for a number of bytes. -/
def asInt (off : ℕ) : Int := (off : Int).bmod (2 ^ 32)

/-- The reply of a shim, with the errno from before. -/
def replyOf (call : ListCall) (errno : Errno) (pos : ℕ) : Except Errno (List (BitVec 8)) → Reply
  | .error e => failure call.entry e
  | .ok bytes =>
    if asInt bytes.length < 0 then { failure call.entry errno with written := bytes }
    else { rax := (asInt bytes.length).toNat, written := bytes, base := call.base.map fun _ => pos }

/-! ### Runs -/

/-- The entries of a descriptor's directory when its listing was read, and the calls on it since, which no code
reads. -/
structure Session where
  snapshot : List HostEntry
  calls : List (ℕ × Reply) := []
  deriving DecidableEq

structure State where
  host : Int → Option HostFd := fun _ => none
  caches : DirCaches := fun _ => none
  errno : Errno := 0
  sessions : Int → Option Session := fun _ => none

def State.entries (s : State) (fd : Int) : List HostEntry :=
  match s.host fd with
  | some (.dir d) => d.entries
  | _ => []

/-- The session of a descriptor; its first call begins one. -/
def State.session (s : State) (fd : Int) : Session := (s.sessions fd).getD { snapshot := s.entries fd }

/-- A call, and what it replies. -/
def listDir (s : State) (call : ListCall) : State × Reply :=
  match guestDirCacheGet s.caches call.fd (s.host call.fd) with
  | .error e => ({ s with errno := e }, failure call.entry e)
  | .ok (i, c) =>
    let (c, result) := guestGetdirentries c call.nbytes call.base
    let errno := match result with
      | .error e => e
      | .ok _ => s.errno
    let reply := replyOf call s.errno c.pos result
    let session := s.session call.fd
    ({ s with
      caches := Function.update s.caches i (some c)
      errno
      sessions := Function.update s.sessions call.fd
        (some { session with calls := session.calls ++ [(call.nbytes, reply)] }) }, reply)

inductive Step where
  | open (fd : Int) (target : HostFd)
  | change (fd : Int) (entries : List HostEntry)
  | list (call : ListCall)
  | close (fd : Int)

def exec (s : State) : Step → Option State
  | .open fd target =>
    match s.host fd with
    | none => some { s with host := Function.update s.host fd (some target) }
    | some _ => none
  | .change fd entries =>
    match s.host fd with
    | some (.dir d) => some { s with host := Function.update s.host fd (some (.dir { d with entries })) }
    | _ => none
  | .list call => some (listDir s call).1
  | .close fd => some { s with
      caches := guestDirCacheDropFd s.caches fd
      host := Function.update s.host fd none
      sessions := Function.update s.sessions fd none }

def dirSystem : System State Step where
  init s := s = {}
  step s step s' := exec s step = some s'

/-! ### The purpose -/

/-- A reply is a page of records: inside the buffer, aligned, and stepped through by their length fields. -/
structure Delivers (call : ℕ × Reply) (page : List Dirent) : Prop where
  written : call.2.written = page.flatMap Dirent.encode
  rax : call.2.rax = call.2.written.length
  inside : call.2.written.length ≤ call.1
  aligned : ∀ r ∈ page, 4 ∣ r.reclen
  walk : walkRecords call.2.written = some page

/-- **The replies on a descriptor are pages of its directory**: every entry that is served, in the order of the
directory and no entry twice, a reply of 0 only when all were served, and all of them after as many calls as
there are entries. -/
def Listed (s : State) (fd : Int) : Prop :=
  ∀ session, s.sessions fd = some session → ∃ all pages rest,
    all.map Dirent.name = (session.snapshot.filter (Visible ·)).map HostEntry.name ∧
      Pages all pages rest ∧ List.Forall₂ Delivers session.calls pages ∧
      (all.length ≤ pages.length → pages.flatten = all)

/-- A call on another descriptor takes away the slot of `fd`. -/
def Evicts (s : State) (other fd : Int) : Prop :=
  (∀ i, ∃ c, s.caches i = some c ∧ c.fd ≠ other) ∧ ∃ c, s.caches 0 = some c ∧ c.fd = fd

/-- The calls under which the listing of `fd` goes on: those on `fd` have a buffer for the largest record, pass no
base pointer after the first and return less than 2^31 bytes, the others do not take its slot. -/
def Proper (fd : Int) (s : State) : Step → Prop
  | .list call =>
    if call.fd = fd then
      (call.base = none ∨ s.sessions fd = none) ∧
        (∀ r ∈ readEntries 0 (s.session fd).snapshot, r.reclen ≤ call.nbytes) ∧
        (call.nbytes < 2 ^ 31 ∨ ((readEntries 0 (s.session fd).snapshot).map Dirent.reclen).sum < 2 ^ 31)
    else ¬Evicts s call.fd fd
  | _ => True

end PS4Recomp.Runtime.DirListing
