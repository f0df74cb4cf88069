import PS4Recomp.Library.Transition
import PS4Recomp.Runtime.ReadPathsAgree

/-!
# Files in a pak archive as read-only files

The calls of `ps4_vfs.c` on the descriptors from 10000 on, against ordinary read-only files with the bytes of
the entries.

* `ps4VfsClose`, `ps4VfsFstat`, `ps4VfsMmap` — the calls that `Runtime.ReadPaths` has not;
* `FileTable`, `FileTable.step` — open files with their content and position, and what they answer;
* `InRange` — the condition on a call: its arguments stay in the range where the sums of the code are exact;
* `Shows` — the table of the code shows the open files; `Shows.step`;
* **`pakFiles_refine`** — in every state reached by such calls the next one answers as the files do.

An entry lies inside its archive, and the host only interrupts reads; what its `mmap` answers is an argument.
-/

namespace PS4Recomp.Runtime.ReadPaths

open Library.PartialRead Library.Transition

/-! ### The other calls -/

/-- The fields of `struct stat` that are set. -/
structure Stat where
  mode : Nat
  nlink : Nat
  size : Int
  blksize : Nat
  blocks : Int
  deriving DecidableEq

/-- `S_IFREG | 0644`. -/
def regularMode : Nat := 0o100644

/-- `ps4_vfs_close` of a virtual descriptor. -/
def ps4VfsClose (w : World) (fd : Int) : Except Errno Unit × World :=
  match virtualSlot w fd with
  | none => (.error ebadf, w)
  | some slot =>
    (.ok (), { w with gVfiles := Function.update w.gVfiles slot { w.gVfiles slot with active := false } })

/-- `ps4_vfs_fstat` of a virtual descriptor. -/
def ps4VfsFstat (w : World) (fd : Int) : Except Errno Stat × World :=
  match virtualSlot w fd with
  | none => (.error ebadf, w)
  | some slot =>
    let vf := w.gVfiles slot
    (.ok { mode := regularMode, nlink := 1, size := toOff vf.fileSize, blksize := 4096,
           blocks := toOff ((vf.fileSize + 511) % 2 ^ 64 / 512) }, w)

/-- `ps4_vfs_mmap` of a virtual descriptor: the bytes of the mapping.  `answer` is the error of the host's
`mmap`, if it fails. -/
def ps4VfsMmap (w : World) (len : Nat) (fd offset : Int) (answer : Option Errno) :
    Except Errno (List UInt8) × World :=
  match virtualSlot w fd with
  | none => (.error ebadf, w)
  | some slot =>
    let vf := w.gVfiles slot
    match answer with
    | some e => (.error e, w)
    | none =>
      if 0 ≤ offset ∧ toU64 offset < vf.fileSize then
        match hostPread w vf.pakFd (toRead vf.fileSize (toU64 offset) len)
            (toOff (vf.dataOffset + toU64 offset)) with
        | (.ok bytes, w') => (.ok (bytes ++ List.replicate (len - bytes.length) 0), w')
        | (.error _, w') => (.ok (List.replicate len 0), w')
      else (.ok (List.replicate len 0), w)

/-- A call on the files of the archives. -/
inductive Call where
  | open (entry : PakEntry) (path : Path) (flags : OpenFlags)
  | read (fd : Int) (count : Nat)
  | pread (fd : Int) (count : Nat) (offset : Int)
  | lseek (fd offset : Int) (whence : Whence)
  | fstat (fd : Int)
  | mmap (len : Nat) (fd offset : Int) (answer : Option Errno)
  | close (fd : Int)

/-- What a call answers. -/
inductive Answered where
  | number (r : Except Errno Int)
  | bytes (r : Except Errno (List UInt8))
  | stat (r : Except Errno Stat)
  | done (r : Except Errno Unit)

def callStep (env : Env) (w : World) : Call → Answered × World
  | .open _ path flags => (ps4VfsOpen env w path flags).map .number id
  | .read fd count => (ps4VfsRead w fd count).map .bytes id
  | .pread fd count offset => (ps4VfsPread w fd count offset).map .bytes id
  | .lseek fd offset whence => (ps4VfsLseek w fd offset whence).map .number id
  | .fstat fd => (ps4VfsFstat w fd).map .stat id
  | .mmap len fd offset answer => (ps4VfsMmap w len fd offset answer).map .bytes id
  | .close fd => (ps4VfsClose w fd).map .done id

/-! ### Read-only files -/

/-- An open file. -/
structure OpenFile where
  content : List UInt8
  pos : Nat := 0

/-- The open files, by number. -/
abbrev FileTable := Nat → Option OpenFile

def eoverflow : Errno := 84

/-- The host's pages. -/
def pageSize : Int := 0x4000

namespace FileTable

/-- The number of an open descriptor. -/
def lookup (s : FileTable) (fd : Int) : Option (Nat × OpenFile) :=
  let slot := fd - virtualFdBase
  if slot < 0 ∨ maxVirtualFiles ≤ slot then none else (s slot.toNat).map fun f => (slot.toNat, f)

/-- A file opened to be read gets the first free number. -/
def openEntry (s : FileTable) (content : List UInt8) (flags : OpenFlags) : Except Errno Int × FileTable :=
  if flags.rdonly = false then (.error erofs, s)
  else
    match (List.range maxVirtualFiles).find? fun i => (s i).isNone with
    | none => (.error enfile, s)
    | some slot => (.ok (virtualFdBase + slot), Function.update s slot (some { content }))

def read (s : FileTable) (fd : Int) (count : Nat) : Except Errno (List UInt8) × FileTable :=
  match s.lookup fd with
  | none => (.error ebadf, s)
  | some (slot, f) =>
    let bytes := slice f.content f.pos count
    (.ok bytes, Function.update s slot (some { f with pos := f.pos + bytes.length }))

def pread (s : FileTable) (fd : Int) (count : Nat) (offset : Int) : Except Errno (List UInt8) :=
  match s.lookup fd with
  | none => .error ebadf
  | some (_, f) => if offset < 0 then .error einval else .ok (slice f.content offset.toNat count)

def lseek (s : FileTable) (fd offset : Int) (whence : Whence) : Except Errno Int × FileTable :=
  match s.lookup fd with
  | none => (.error ebadf, s)
  | some (slot, f) =>
    match seekTarget f.pos f.content.length offset whence with
    | .error e => (.error e, s)
    | .ok newOff =>
      if newOff < 0 then (.error einval, s)
      else if 2 ^ 63 ≤ newOff then (.error eoverflow, s)
      else (.ok newOff, Function.update s slot (some { f with pos := newOff.toNat }))

def fstat (s : FileTable) (fd : Int) : Except Errno Stat :=
  match s.lookup fd with
  | none => .error ebadf
  | some (_, f) =>
    .ok { mode := regularMode, nlink := 1, size := f.content.length, blksize := 4096,
          blocks := (f.content.length + 511) / 512 }

/-- A mapping has the bytes from a page on, and zeros behind the end of the file. -/
def mmap (s : FileTable) (len : Nat) (fd offset : Int) (answer : Option Errno) : Except Errno (List UInt8) :=
  match s.lookup fd with
  | none => .error ebadf
  | some (_, f) =>
    if offset < 0 ∨ offset % pageSize ≠ 0 then .error einval
    else
      match answer with
      | some e => .error e
      | none =>
        let bytes := slice f.content offset.toNat len
        .ok (bytes ++ List.replicate (len - bytes.length) 0)

def close (s : FileTable) (fd : Int) : Except Errno Unit × FileTable :=
  match s.lookup fd with
  | none => (.error ebadf, s)
  | some (slot, _) => (.ok (), Function.update s slot none)

/-- What the files answer; `content` is that of an entry. -/
def step (content : PakEntry → List UInt8) (s : FileTable) : Call → Answered × FileTable
  | .open entry _ flags => (s.openEntry (content entry) flags).map .number id
  | .read fd count => (s.read fd count).map .bytes id
  | .pread fd count offset => (.bytes (s.pread fd count offset), s)
  | .lseek fd offset whence => (s.lseek fd offset whence).map .number id
  | .fstat fd => (.stat (s.fstat fd), s)
  | .mmap len fd offset answer => (.bytes (s.mmap len fd offset answer), s)
  | .close fd => (s.close fd).map .done id

end FileTable

/-! ### The condition -/

/-- The bytes of an entry. -/
def entryBytes (host : Int → Option HostFile) (entry : PakEntry) : List UInt8 :=
  match host entry.pakFd with
  | none => []
  | some pak => slice pak.content entry.dataOffset entry.size

/-- An entry lies inside its archive. -/
def EntryIn (host : Int → Option HostFile) (entry : PakEntry) : Prop :=
  ∃ pak, host entry.pakFd = some pak ∧ entry.dataOffset + entry.size ≤ pak.content.length ∧
    pak.content.length < 2 ^ 63

/-- The path is not on the host's disk, and names the entry. -/
def Names (env : Env) (path : Path) (flags : OpenFlags) (entry : PakEntry) : Prop :=
  diskPath env path flags = none ∧ (getApp0Subpath path).bind env.pakLookup = some entry

/-- The condition on a call: the sum of position and count stays below 2^64, an offset is not negative, a
seek goes nowhere beyond `off_t`, and a mapping begins at a page that the host reads in one call. -/
def InRange (env : Env) (w : World) : Call → Prop
  | .open entry path flags => Names env path flags entry ∧ EntryIn w.host entry
  | .read fd count => ps4VfsIsVirtualFd fd = true ∧
      ∀ slot, virtualSlot w fd = some slot → (w.gVfiles slot).curOffset + count < 2 ^ 64
  | .pread fd count offset => ps4VfsIsVirtualFd fd = true ∧ 0 ≤ offset ∧ offset + count < 2 ^ 64
  | .lseek fd offset whence => ps4VfsIsVirtualFd fd = true ∧
      ∀ slot, virtualSlot w fd = some slot → ∀ newOff,
        seekTarget (w.gVfiles slot).curOffset (w.gVfiles slot).fileSize offset whence = .ok newOff →
          newOff < 2 ^ 63
  | .fstat fd | .close fd => ps4VfsIsVirtualFd fd = true
  | .mmap len fd offset answer => ps4VfsIsVirtualFd fd = true ∧ 0 ≤ offset ∧ offset % pageSize = 0 ∧
      offset + len < 2 ^ 64 ∧ (answer = none → Prompt len w.answers)

/-- The code and the files, side by side. -/
def pakSystem (env : Env) (host : Int → Option HostFile) : System (World × FileTable) Call where
  init x := x.1.host = host ∧ Healthy x.1 ∧ (∀ slot, (x.1.gVfiles slot).active = false) ∧ x.2 = fun _ => none
  step x call x' :=
    x'.1 = (callStep env x.1 call).2 ∧ x'.2 = (x.2.step (entryBytes host) call).2

/-! ### The table shows the open files -/

/-- A slot of the code shows an open file: the bytes of an entry inside its archive, and the position. -/
structure ShowsFile (host : Int → Option HostFile) (vf : VirtualPakFile) (f : OpenFile) : Prop where
  active : vf.active = true
  entry : EntryIn host ⟨vf.pakFd, vf.dataOffset, vf.fileSize⟩
  content : f.content = entryBytes host ⟨vf.pakFd, vf.dataOffset, vf.fileSize⟩
  pos : vf.curOffset = f.pos
  bound : f.pos < 2 ^ 63

/-- The table of the code shows the open files. -/
structure Shows (host : Int → Option HostFile) (w : World) (s : FileTable) : Prop where
  hostEq : w.host = host
  healthy : Healthy w
  free : ∀ slot, s slot = none → (w.gVfiles slot).active = false
  file : ∀ slot f, s slot = some f → ShowsFile host (w.gVfiles slot) f

variable {env : Env} {host : Int → Option HostFile} {w : World} {s : FileTable} {fd : Int}

theorem virtualSlot_eq (h : Shows host w s) (fd : Int) : virtualSlot w fd = (s.lookup fd).map Prod.fst := by
  rw [virtualSlot, FileTable.lookup]
  by_cases hout : fd - virtualFdBase < 0 ∨ maxVirtualFiles ≤ fd - virtualFdBase
  · rw [if_pos hout, if_pos (hout.elim .inl fun hge => .inr (.inl hge))]
    rfl
  · rw [if_neg hout]
    cases hslot : s (fd - virtualFdBase).toNat with
    | none =>
        rw [if_pos (.inr (.inr (h.free _ hslot)))]
        rfl
    | some f =>
        have hactive := (h.file _ f hslot).active
        rw [if_neg]
        · rfl
        · rintro (hneg | hge | hfree)
          · exact hout (.inl hneg)
          · exact hout (.inr hge)
          · rw [hactive] at hfree
            cases hfree

theorem lookup_cases (h : Shows host w s) (fd : Int) :
    (s.lookup fd = none ∧ virtualSlot w fd = none) ∨
      ∃ slot f, s.lookup fd = some (slot, f) ∧ virtualSlot w fd = some slot ∧ s slot = some f := by
  have hslot := virtualSlot_eq h fd
  cases hlook : s.lookup fd with
  | none =>
      rw [hlook] at hslot
      exact .inl ⟨rfl, hslot⟩
  | some x =>
      rw [hlook] at hslot
      refine .inr ⟨x.1, x.2, rfl, hslot, ?_⟩
      rw [FileTable.lookup] at hlook
      split at hlook
      · cases hlook
      · obtain ⟨f, hf, rfl⟩ := Option.map_eq_some_iff.1 hlook
        exact hf

theorem ShowsFile.length {vf : VirtualPakFile} {f : OpenFile} (h : ShowsFile host vf f) :
    f.content.length = vf.fileSize ∧ vf.fileSize < 2 ^ 63 := by
  obtain ⟨pak, hpak, hin, hbound⟩ := h.entry
  change vf.dataOffset + vf.fileSize ≤ pak.content.length at hin
  refine ⟨?_, by omega⟩
  rw [h.content, entryBytes, hpak]
  show (slice pak.content vf.dataOffset vf.fileSize).length = vf.fileSize
  rw [slice_length]
  omega

theorem ShowsFile.pakFile {slot : Nat} {f : OpenFile} (h : ShowsFile w.host (w.gVfiles slot) f) :
    ∃ pak, PakFile w slot pak ∧ f.content = pakBytes w slot pak := by
  obtain ⟨pak, hpak, hin, hbound⟩ := h.entry
  refine ⟨pak, ⟨hpak, Nat.lt_of_le_of_lt hin hbound⟩, ?_⟩
  rw [h.content, entryBytes, hpak]
  rfl

/-- Reads use up answers of the host, and change nothing else. -/
theorem gather_answers (fd : Int) (offset : Nat → Int) (count : Nat) (got : List UInt8) (w : World) :
    ∃ rest, ((preadDevice fd offset).gather count got w).2 = { w with answers := rest } ∧
      rest <:+ w.answers := by
  fun_induction Device.gather (preadDevice fd offset) count got w with
  | case1 got w hlt w' hcall hbudget ih =>
      rcases hostPread_error hcall with ⟨⟨-, he⟩ | ⟨-, he⟩, -⟩ | ⟨rest, hanswers, rfl⟩
      · cases he
      · cases he
      · obtain ⟨tail, htail, hsuffix⟩ := ih
        exact ⟨tail, htail, hsuffix.trans ⟨[.fails eintr], hanswers.symm⟩⟩
  | case2 got w hlt e w' hcall he hpos =>
      rcases hostPread_error hcall with ⟨-, rfl⟩ | ⟨rest, hanswers, rfl⟩
      · exact ⟨w'.answers, rfl, List.suffix_rfl⟩
      · exact ⟨rest, rfl, ⟨[.fails e], hanswers.symm⟩⟩
  | case3 got w hlt e w' hcall he hpos =>
      rcases hostPread_error hcall with ⟨-, rfl⟩ | ⟨rest, hanswers, rfl⟩
      · exact ⟨w'.answers, rfl, List.suffix_rfl⟩
      · exact ⟨rest, rfl, ⟨[.fails e], hanswers.symm⟩⟩
  | case4 got w hlt w' hcall =>
      obtain ⟨f, rest, -, htransfer, rfl⟩ := hostPread_ok hcall
      exact ⟨rest, rfl, (transfer_ok htransfer).2.2⟩
  | case5 got w hlt b bytes w' hcall hbudget ih =>
      obtain ⟨f, rest, -, htransfer, rfl⟩ := hostPread_ok hcall
      obtain ⟨tail, htail, hsuffix⟩ := ih
      exact ⟨tail, htail, hsuffix.trans (transfer_ok htransfer).2.2⟩
  | case6 got w hlt => exact ⟨w.answers, rfl, List.suffix_rfl⟩

theorem Shows.answers (h : Shows host w s) {rest : List (Answer Errno)} (hrest : rest <:+ w.answers) :
    Shows host { w with answers := rest } s :=
  ⟨h.hostEq, h.healthy.mono hrest, h.free, h.file⟩

theorem Shows.write (h : Shows host w s) (slot : Nat) {vf : VirtualPakFile} {f : OpenFile}
    (hf : ShowsFile host vf f) :
    Shows host { w with gVfiles := Function.update w.gVfiles slot vf } (Function.update s slot (some f)) := by
  refine ⟨h.hostEq, h.healthy, fun slot' hnone => ?_, fun slot' f' hsome => ?_⟩
  · by_cases heq : slot' = slot
    · rw [heq, Function.update_self] at hnone
      cases hnone
    · rw [Function.update_of_ne heq] at hnone
      show (Function.update w.gVfiles slot vf slot').active = false
      rw [Function.update_of_ne heq]
      exact h.free slot' hnone
  · show ShowsFile host (Function.update w.gVfiles slot vf slot') f'
    by_cases heq : slot' = slot
    · rw [heq, Function.update_self] at hsome ⊢
      obtain rfl := Option.some.inj hsome
      exact hf
    · rw [Function.update_of_ne heq] at hsome ⊢
      exact h.file slot' f' hsome

theorem Shows.update_self (h : Shows host w s) {slot : Nat} {f : OpenFile} (hslot : s slot = some f) :
    Shows host w (Function.update s slot (some f)) := by
  rw [← hslot, Function.update_eq_self]
  exact h

/-- The loop inside an entry, and the answers it leaves. -/
theorem gather_file (h : Shows host w s) {slot : Nat} {f : OpenFile} (hslot : s slot = some f) {offset count : Nat}
    (hcount : offset + count < 2 ^ 64) (hoffset : offset < (w.gVfiles slot).fileSize) :
    ∃ rest, rest <:+ w.answers ∧
      (preadDevice (w.gVfiles slot).pakFd fun total => toOff ((w.gVfiles slot).dataOffset + offset + total)).gather
          (toRead (w.gVfiles slot).fileSize offset count) [] w =
        (.ok (slice f.content offset count), { w with answers := rest }) := by
  have hfile := h.file slot f hslot
  rw [← h.hostEq] at hfile
  obtain ⟨pak, hpak, hcontent⟩ := hfile.pakFile
  obtain ⟨rest, hgather⟩ := gather_pak h.healthy hpak hcount hoffset
  obtain ⟨rest', hrest, hsuffix⟩ := gather_answers (w.gVfiles slot).pakFd
    (fun total => toOff ((w.gVfiles slot).dataOffset + offset + total))
    (toRead (w.gVfiles slot).fileSize offset count) [] w
  rw [hgather] at hrest
  refine ⟨rest, ?_, ?_⟩
  · rw [show rest = rest' from congrArg World.answers hrest]
    exact hsuffix
  · rw [hcontent]
    exact hgather

theorem slice_behind (h : Shows host w s) {slot : Nat} {f : OpenFile} (hslot : s slot = some f) {offset : Nat}
    (hend : (w.gVfiles slot).fileSize ≤ offset) (count : Nat) : slice f.content offset count = [] := by
  exact slice_past_end (by rw [(h.file slot f hslot).length.1]; exact hend)

theorem Shows.open (h : Shows host w s) {entry : PakEntry} {path : Path} {flags : OpenFlags}
    (hnames : Names env path flags entry) (hin : EntryIn w.host entry) :
    (ps4VfsOpen env w path flags).1 = (s.openEntry (entryBytes host entry) flags).1 ∧
      Shows host (ps4VfsOpen env w path flags).2 (s.openEntry (entryBytes host entry) flags).2 := by
  have hfind : (List.range maxVirtualFiles).find? (fun i => (w.gVfiles i).active = false) =
      (List.range maxVirtualFiles).find? fun i => (s i).isNone := by
    refine List.find?_congr fun i _ => ?_
    cases hi : s i with
    | none => rw [decide_eq_true (h.free i hi), Option.isNone_none]
    | some f =>
        rw [Option.isNone_some, decide_eq_false]
        rw [(h.file i f hi).active]
        exact Bool.true_eq_false_eq_False
  rw [ps4VfsOpen, hnames.1]
  simp only [hnames.2]
  rw [openPak, FileTable.openEntry, hfind]
  split
  · exact ⟨rfl, h⟩
  · cases (List.range maxVirtualFiles).find? fun i => (s i).isNone with
    | none => exact ⟨rfl, h⟩
    | some slot => exact ⟨rfl, h.write slot ⟨rfl, h.hostEq ▸ hin, rfl, rfl, Nat.two_pow_pos 63⟩⟩

theorem Shows.read (h : Shows host w s) (hfd : ps4VfsIsVirtualFd fd = true) {count : Nat}
    (hrange : ∀ slot, virtualSlot w fd = some slot → (w.gVfiles slot).curOffset + count < 2 ^ 64) :
    (ps4VfsRead w fd count).1 = (s.read fd count).1 ∧ Shows host (ps4VfsRead w fd count).2 (s.read fd count).2 := by
  rw [ps4VfsRead, if_pos hfd]
  rcases lookup_cases h fd with ⟨hlook, hvirtual⟩ | ⟨slot, f, hlook, hvirtual, hslot⟩
  · rw [hvirtual, FileTable.read, hlook]
    exact ⟨rfl, h⟩
  · have hfile := h.file slot f hslot
    have hpos := hfile.pos
    have hbound := hfile.bound
    have hcount := hrange slot hvirtual
    have hcur : toU64 (w.gVfiles slot).curOffset = f.pos := by
      rw [hpos, toU64_natCast (by omega)]
    rw [hvirtual, FileTable.read, hlook]
    simp only [hcur]
    by_cases hend : (w.gVfiles slot).fileSize ≤ f.pos
    · rw [if_pos hend, slice_behind h hslot hend]
      exact ⟨rfl, h.update_self hslot⟩
    · have hsum : f.pos + count < 2 ^ 64 := by omega
      obtain ⟨rest, hsuffix, hgather⟩ := gather_file h hslot hsum (Nat.not_le.1 hend)
      rw [if_neg hend, hgather]
      refine ⟨rfl, (h.answers hsuffix).write slot ⟨hfile.active, hfile.entry, hfile.content, ?_, ?_⟩⟩
      · show (w.gVfiles slot).curOffset + ((slice f.content f.pos count).length : Int) = _
        rw [hpos]
        rfl
      · show f.pos + (slice f.content f.pos count).length < 2 ^ 63
        obtain ⟨hlen, hlt⟩ := hfile.length
        rw [slice_length]
        omega

theorem Shows.pread (h : Shows host w s) (hfd : ps4VfsIsVirtualFd fd = true) {count : Nat} {offset : Int}
    (hnonneg : 0 ≤ offset) (hrange : offset + count < 2 ^ 64) :
    (ps4VfsPread w fd count offset).1 = s.pread fd count offset ∧ Shows host (ps4VfsPread w fd count offset).2 s := by
  obtain ⟨offset, rfl⟩ := Int.eq_ofNat_of_zero_le hnonneg
  have hoff : toU64 (offset : Int) = offset := toU64_natCast (by omega)
  rw [ps4VfsPread, if_pos hfd]
  rcases lookup_cases h fd with ⟨hlook, hvirtual⟩ | ⟨slot, f, hlook, hvirtual, hslot⟩
  · rw [hvirtual, FileTable.pread, hlook]
    exact ⟨rfl, h⟩
  · rw [hvirtual, FileTable.pread, hlook]
    simp only [hoff, Int.not_ofNat_neg, false_or, if_false, Int.toNat_natCast]
    by_cases hend : (w.gVfiles slot).fileSize ≤ offset
    · rw [if_pos hend, slice_behind h hslot hend]
      exact ⟨rfl, h⟩
    · have hsum : offset + count < 2 ^ 64 := by omega
      obtain ⟨rest, hsuffix, hgather⟩ := gather_file h hslot hsum (Nat.not_le.1 hend)
      rw [if_neg hend, hgather]
      exact ⟨rfl, h.answers hsuffix⟩

theorem Shows.lseek (h : Shows host w s) (hfd : ps4VfsIsVirtualFd fd = true) {offset : Int} {whence : Whence}
    (hrange : ∀ slot, virtualSlot w fd = some slot → ∀ newOff,
      seekTarget (w.gVfiles slot).curOffset (w.gVfiles slot).fileSize offset whence = .ok newOff →
        newOff < 2 ^ 63) :
    (ps4VfsLseek w fd offset whence).1 = (s.lseek fd offset whence).1 ∧
      Shows host (ps4VfsLseek w fd offset whence).2 (s.lseek fd offset whence).2 := by
  rw [ps4VfsLseek, if_pos hfd]
  rcases lookup_cases h fd with ⟨hlook, hvirtual⟩ | ⟨slot, f, hlook, hvirtual, hslot⟩
  · rw [hvirtual, FileTable.lseek, hlook]
    exact ⟨rfl, h⟩
  · have hfile := h.file slot f hslot
    have hlimit := hrange slot hvirtual
    rw [hfile.pos] at hlimit
    rw [hvirtual, FileTable.lseek, hlook]
    simp only [hfile.pos, hfile.length.1]
    cases htarget : seekTarget (f.pos : Int) ((w.gVfiles slot).fileSize : Int) offset whence with
    | error e => exact ⟨rfl, h⟩
    | ok newOff =>
        have hlt := hlimit newOff htarget
        simp only
        by_cases hneg : newOff < 0
        · rw [if_pos hneg, if_pos hneg]
          exact ⟨rfl, h⟩
        · rw [if_neg hneg, if_neg hneg, if_neg (not_le.2 hlt)]
          refine ⟨rfl, h.write slot ⟨hfile.active, hfile.entry, hfile.content, ?_, ?_⟩⟩
          · exact (Int.toNat_of_nonneg (not_lt.1 hneg)).symm
          · show newOff.toNat < 2 ^ 63
            omega

theorem Shows.fstat (h : Shows host w s) (fd : Int) : (ps4VfsFstat w fd).1 = s.fstat fd := by
  rw [ps4VfsFstat]
  rcases lookup_cases h fd with ⟨hlook, hvirtual⟩ | ⟨slot, f, hlook, hvirtual, hslot⟩
  · rw [hvirtual, FileTable.fstat, hlook]
  · obtain ⟨hlen, hlt⟩ := (h.file slot f hslot).length
    rw [hvirtual, FileTable.fstat, hlook]
    simp only [← hlen]
    rw [← hlen] at hlt
    rw [Nat.mod_eq_of_lt (by omega), toOff_eq hlt, toOff_eq (by omega)]
    rfl

theorem Shows.fstat_world (w : World) (fd : Int) : (ps4VfsFstat w fd).2 = w := by
  rw [ps4VfsFstat]
  split
  · rfl
  · rfl

theorem Shows.close (h : Shows host w s) (fd : Int) :
    (ps4VfsClose w fd).1 = (s.close fd).1 ∧ Shows host (ps4VfsClose w fd).2 (s.close fd).2 := by
  rw [ps4VfsClose]
  rcases lookup_cases h fd with ⟨hlook, hvirtual⟩ | ⟨slot, f, hlook, hvirtual, hslot⟩
  · rw [hvirtual, FileTable.close, hlook]
    exact ⟨rfl, h⟩
  · have hclose : s.close fd = (.ok (), Function.update s slot none) := by rw [FileTable.close, hlook]
    rw [hvirtual, hclose]
    refine ⟨rfl, h.hostEq, h.healthy, fun slot' hnone => ?_, fun slot' f' hsome => ?_⟩
    · show (Function.update w.gVfiles slot _ slot').active = false
      change Function.update s slot none slot' = none at hnone
      by_cases heq : slot' = slot
      · rw [heq, Function.update_self]
      · rw [Function.update_of_ne heq] at hnone ⊢
        exact h.free slot' hnone
    · change Function.update s slot none slot' = some f' at hsome
      have heq : slot' ≠ slot := by
        rintro rfl
        rw [Function.update_self] at hsome
        cases hsome
      show ShowsFile host (Function.update w.gVfiles slot _ slot') f'
      rw [Function.update_of_ne heq] at hsome ⊢
      exact h.file slot' f' hsome

theorem prompt_mono {m n : Nat} {answers : List (Answer Errno)} (h : Prompt n answers) (hmn : m ≤ n) :
    Prompt m answers := by
  cases answers with
  | nil => trivial
  | cons a rest =>
      cases a with
      | fails e => exact h
      | moves limit => exact Nat.le_trans hmn h

theorem Shows.mmap (h : Shows host w s) {len : Nat} {offset : Int} {answer : Option Errno} (hnonneg : 0 ≤ offset)
    (hpage : offset % pageSize = 0) (hrange : offset + len < 2 ^ 64) (hprompt : answer = none → Prompt len w.answers) :
    (ps4VfsMmap w len fd offset answer).1 = s.mmap len fd offset answer ∧
      Shows host (ps4VfsMmap w len fd offset answer).2 s := by
  obtain ⟨offset, rfl⟩ := Int.eq_ofNat_of_zero_le hnonneg
  have hoff : toU64 (offset : Int) = offset := toU64_natCast (by omega)
  have hpasses : ¬((offset : Int) < 0 ∨ (offset : Int) % pageSize ≠ 0) := by
    rintro (hneg | hodd)
    · omega
    · exact hodd hpage
  rw [ps4VfsMmap]
  rcases lookup_cases h fd with ⟨hlook, hvirtual⟩ | ⟨slot, f, hlook, hvirtual, hslot⟩
  · rw [hvirtual, FileTable.mmap, hlook]
    exact ⟨rfl, h⟩
  · have hfile := h.file slot f hslot
    obtain ⟨hlen, hlt⟩ := hfile.length
    rw [← h.hostEq] at hfile
    obtain ⟨pak, hpak, hcontent⟩ := hfile.pakFile
    rw [hvirtual, FileTable.mmap, hlook]
    simp only [if_neg hpasses, hoff, Int.toNat_natCast]
    cases answer with
    | some e => exact ⟨rfl, h⟩
    | none =>
        by_cases hend : (w.gVfiles slot).fileSize ≤ offset
        · rw [if_neg (fun hin => absurd hin.2 (not_lt.2 hend)), slice_behind h hslot hend]
          exact ⟨rfl, h⟩
        · have hread : toRead (w.gVfiles slot).fileSize offset len = min len ((w.gVfiles slot).fileSize - offset) :=
            (toRead_eq (by omega)).resolve_right hend
          have hbytes : slice f.content offset len = slice pak.content ((w.gVfiles slot).dataOffset + offset)
              (toRead (w.gVfiles slot).fileSize offset len) := by
            rw [hcontent, pakBytes, slice_slice, hread]
          have hplace : toOff ((w.gVfiles slot).dataOffset + offset) =
              (((w.gVfiles slot).dataOffset + offset : Nat) : Int) := by
            have hbound := hpak.bound
            exact toOff_eq (by omega)
          have hmoves : Prompt (slice pak.content ((w.gVfiles slot).dataOffset + offset)
              (toRead (w.gVfiles slot).fileSize offset len)).length w.answers := by
            refine prompt_mono (hprompt rfl) ?_
            rw [slice_length, hread]
            omega
          obtain ⟨rest, htransfer⟩ := transfer_prompt hmoves
          rw [if_pos ⟨hnonneg, not_le.1 hend⟩, hplace, hostPread_eq hpak.host, htransfer, hbytes]
          exact ⟨rfl, h.answers (transfer_ok htransfer).2.2⟩

/-- **One call.**  It answers as the files do, and the table shows them again. -/
theorem Shows.step (h : Shows host w s) {call : Call} (hcall : InRange env w call) :
    (callStep env w call).1 = (s.step (entryBytes host) call).1 ∧
      Shows host (callStep env w call).2 (s.step (entryBytes host) call).2 := by
  cases call with
  | «open» entry path flags =>
      obtain ⟨hanswer, hshows⟩ := h.open hcall.1 hcall.2
      exact ⟨congrArg Answered.number hanswer, hshows⟩
  | read fd count =>
      obtain ⟨hanswer, hshows⟩ := h.read hcall.1 hcall.2
      exact ⟨congrArg Answered.bytes hanswer, hshows⟩
  | pread fd count offset =>
      obtain ⟨hanswer, hshows⟩ := h.pread hcall.1 hcall.2.1 hcall.2.2
      exact ⟨congrArg Answered.bytes hanswer, hshows⟩
  | lseek fd offset whence =>
      obtain ⟨hanswer, hshows⟩ := h.lseek hcall.1 hcall.2
      exact ⟨congrArg Answered.number hanswer, hshows⟩
  | fstat fd =>
      refine ⟨congrArg Answered.stat (h.fstat fd), ?_⟩
      show Shows host (ps4VfsFstat w fd).2 s
      rw [Shows.fstat_world]
      exact h
  | mmap len fd offset answer =>
      obtain ⟨-, hnonneg, hpage, hrange, hprompt⟩ := hcall
      have hmmap : (ps4VfsMmap w len fd offset answer).1 = s.mmap len fd offset answer ∧
          Shows host (ps4VfsMmap w len fd offset answer).2 s := h.mmap hnonneg hpage hrange hprompt
      obtain ⟨hanswer, hshows⟩ := hmmap
      exact ⟨congrArg Answered.bytes hanswer, hshows⟩
  | close fd =>
      obtain ⟨hanswer, hshows⟩ := h.close fd
      exact ⟨congrArg Answered.done hanswer, hshows⟩

/-- **Files in a pak archive are read-only files.**  In every state reached by calls in range, the next call
in range answers as an ordinary file with the bytes of the entry does: every descriptor has its own position,
no other byte of the archive is returned, and calls on a closed descriptor fail. -/
theorem pakFiles_refine {x : World × FileTable}
    (hx : Reachable ((pakSystem env host).restrict fun x call => InRange env x.1 call) x) {call : Call}
    (hcall : InRange env x.1 call) : (callStep env x.1 call).1 = (x.2.step (entryBytes host) call).1 := by
  have hshows : Shows host x.1 x.2 := by
    refine Reachable.invariant (P := fun x => Shows host x.1 x.2) (fun x hinit => ?_)
      (fun x call x' _ hx hstep => ?_) hx
    · obtain ⟨hhost, hhealthy, hfree, hnone⟩ := hinit
      refine ⟨hhost, hhealthy, fun slot _ => hfree slot, fun slot f hsome => ?_⟩
      rw [hnone] at hsome
      cases hsome
    · obtain ⟨hrange, hcode, hfiles⟩ := hstep
      rw [hcode, hfiles]
      exact (hx.step hrange).2
  exact (hshows.step hcall).1

/-- The file of three bytes is opened. -/
def openRes : Call := .open ⟨3, 1, 3⟩ "/app0/a.res".toList {}

/-- The code and the files after it. -/
def openedFiles : World × FileTable :=
  ((callStep pakEnv pakWorld openRes).2,
    (FileTable.step (entryBytes pakWorld.host) (fun _ => none) openRes).2)

theorem openRes_inRange : InRange pakEnv pakWorld openRes :=
  ⟨⟨rfl, rfl⟩, { content := [10, 20, 30, 40] }, rfl, by decide, by decide⟩

theorem openedFiles_reachable :
    Reachable ((pakSystem pakEnv pakWorld.host).restrict fun x call => InRange pakEnv x.1 call) openedFiles :=
  .step (s := (pakWorld, fun _ => none)) (a := openRes)
    (.init ⟨rfl, fun _ he => (List.not_mem_nil he).elim, fun _ => rfl, rfl⟩) ⟨openRes_inRange, rfl, rfl⟩

theorem pakFiles_refine_pread :
    (callStep pakEnv openedFiles.1 (.pread 10000 5 1)).1 =
      (openedFiles.2.step (entryBytes pakWorld.host) (.pread 10000 5 1)).1 ∧
    (openedFiles.2.step (entryBytes pakWorld.host) (.pread 10000 5 1)).1 = .bytes (.ok [30, 40]) :=
  ⟨pakFiles_refine openedFiles_reachable ⟨by decide, by decide, by decide⟩, rfl⟩

/-- A negative offset is the end of the file for the code, and an error for a file. -/
theorem pread_negative :
    Reachable (pakSystem pakEnv pakWorld.host) openedFiles ∧
      (callStep pakEnv openedFiles.1 (.pread 10000 1 (-1))).1 = .bytes (.ok []) ∧
      (callStep pakEnv openedFiles.1 (.pread 10000 1 (-1))).1 ≠
        (openedFiles.2.step (entryBytes pakWorld.host) (.pread 10000 1 (-1))).1 := by
  refine ⟨.of_restrict openedFiles_reachable, rfl, fun hsame => ?_⟩
  have herror : Answered.bytes (.ok []) = .bytes (.error einval) := hsame
  cases herror

end PS4Recomp.Runtime.ReadPaths
