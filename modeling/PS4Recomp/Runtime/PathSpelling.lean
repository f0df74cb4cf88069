import PS4Recomp.Runtime.PathConfinement
import PS4Recomp.Runtime.PakIndex
import PS4Recomp.Runtime.ReadPaths

/-!
# Two spellings of a guest path

`ps4_vfs_open`, `ps4_vfs_stat` and `ps4_vfs_access` look a path up on the host's disk by its components, then
the locale parents of a resource bundle, then the pak archives by what follows `/app0/` as it is written.

* `Vfs` — the mounts, the host's disk and the archives; `Vfs.env` — what an open asks of them;
* `onDisk` — the first answer of the disk; `archiveEntry`, `archiveHas`, `archiveStat` — the archives' answers;
* `ps4VfsStat`, `ps4VfsAccess` — the calls beside `ps4VfsOpen`;
* `Spells`, `SamePlace` — two paths of the same components, and two that go to the same place on disk;
* **`spelling_agrees`** — two such paths get the same answers exactly where the disk or the archives give them;
* `pak_spelling` — a file in an archive that only one of two spellings finds.
-/

namespace PS4Recomp.Runtime.PathSpelling

open Runtime.MountTable Runtime.PakIndex
open Runtime.ReadPaths (World Env OpenFlags PakEntry getApp0Subpath diskPath openPak ps4VfsOpen)

def eacces : ReadPaths.Errno := 13

/-- `struct stat`, as far as the archives set it. -/
structure StatBuf where
  mode : ℕ
  nlink : ℕ
  size : Int
  blksize : Int
  blocks : Int
  deriving DecidableEq

/-- The mount table and the root, the host's calls on a path, and the two tables of the archives. -/
structure Vfs where
  mounts : List VfsMount := []
  root : Path
  disk : Disk
  hostOpen : World → Path → OpenFlags → Except ReadPaths.Errno Int × World
  hostStat : Path → Option StatBuf
  hostAccess : Path → ℕ → Bool
  files : HashTable PakHashEntry := {}
  dirs : HashTable PakDirEntry := {}

namespace Vfs

variable (v : Vfs)

def resolve (guestPath : Path) : Option Path :=
  match ps4VfsResolve v.disk v.mounts v.root guestPath 1024 with
  | .ok resolved => some resolved
  | .error _ => none

def pakLookup (subpath : Path) : Option Ps4PakEntry := (ps4PakLookup v.files subpath).join

def pakDirExists (subpath : Path) : Bool := (ps4PakDirExists v.dirs subpath).getD false

/-- What an open reads of an entry. -/
def openEntry (e : Ps4PakEntry) : PakEntry := ⟨e.pakFd, e.dataOffset.toNat, e.size.toNat⟩

def env : Env where
  resolve := v.resolve
  access := v.disk.access
  parentLocalePaths guestPath := localeParents (fit 1024 guestPath)
  pakLookup subpath := (v.pakLookup subpath).map openEntry
  hostOpen := v.hostOpen

/-- The answer of the disk for a path, or for the first parent that has one. -/
def onDisk {β : Type} (answer : Path → Option β) (guestPath : Path) : Option β :=
  ((v.resolve guestPath).bind answer).or
    ((localeParents (fit 1024 guestPath)).findSome? fun parent => (v.resolve parent).bind answer)

def archiveEntry (guestPath : Path) : Option Ps4PakEntry := (getApp0Subpath guestPath).bind v.pakLookup

def archiveDir (guestPath : Path) : Bool := ((getApp0Subpath guestPath).map v.pakDirExists).getD false

/-- The archives have a file or a directory. -/
def archiveHas (guestPath : Path) : Bool := (v.archiveEntry guestPath).isSome || v.archiveDir guestPath

def archiveStat (guestPath : Path) : Option StatBuf :=
  match v.archiveEntry guestPath with
  | some e => some ⟨0o100644, 1, e.size.toInt, 4096, ((e.size + 511#64) / 512#64).toInt⟩
  | none => if v.archiveDir guestPath then some ⟨0o40755, 2, 4096, 4096, 0⟩ else none

def ps4VfsStat (guestPath : Path) : Except ReadPaths.Errno StatBuf :=
  match v.onDisk v.hostStat guestPath with
  | some st => .ok st
  | none =>
    match v.archiveStat guestPath with
    | some st => .ok st
    | none => .error ReadPaths.enoent

/-- `access(resolved, mode) == 0`. -/
def permits (mode : ℕ) (resolved : Path) : Option Unit := if v.hostAccess resolved mode then some () else none

/-- `W_OK` is the second bit of `mode`. -/
def ps4VfsAccess (guestPath : Path) (mode : ℕ) : Except ReadPaths.Errno Unit :=
  match v.onDisk (v.permits mode) guestPath with
  | some _ => .ok ()
  | none =>
    if v.archiveHas guestPath then
      if mode.testBit 1 then .error eacces else .ok ()
    else .error ReadPaths.enoent

end Vfs

/-! ### Spellings -/

/-- Two spellings: absolute both or relative both, with the same components. -/
def Spells (p q : Path) : Prop := (p.head? = some '/' ↔ q.head? = some '/') ∧ components p = components q

/-- Two paths that go below the same base by the same components, and no buffer cuts either off. -/
def SamePlace (mounts : List VfsMount) (root p q : Path) : Prop :=
  ∃ base rest rest', rootOf mounts root p = some (base, rest) ∧ rootOf mounts root q = some (base, rest') ∧
    components rest = components rest' ∧ FitsBuffers base rest ∧ FitsBuffers base rest'

/-- Two paths in the same place, and their locale parents one by one. -/
def SamePlaces (mounts : List VfsMount) (root p q : Path) : Prop :=
  SamePlace mounts root p q ∧
    List.Forall₂ (SamePlace mounts root) (localeParents (fit 1024 p)) (localeParents (fit 1024 q))

/-- The three calls give the same answers. -/
def SameAnswers (v : Vfs) (p q : Path) : Prop :=
  (∀ w flags, ps4VfsOpen v.env w p flags = ps4VfsOpen v.env w q flags) ∧
    v.ps4VfsStat p = v.ps4VfsStat q ∧ ∀ mode, v.ps4VfsAccess p mode = v.ps4VfsAccess q mode

/-- Where the disk has no answer, the archives have the same one. -/
structure SameArchived (v : Vfs) (p q : Path) : Prop where
  entry : diskPath v.env p {} = none → (v.archiveEntry p).map Vfs.openEntry = (v.archiveEntry q).map Vfs.openEntry
  stat : v.onDisk v.hostStat p = none → v.archiveStat p = v.archiveStat q
  access : ∀ mode, v.onDisk (v.permits mode) p = none → v.archiveHas p = v.archiveHas q

/-! ### The disk -/

section Disk

variable {v : Vfs} {p q : Path}

/-- **Paths in the same place are resolved alike.** -/
theorem resolve_samePlace (hslots : ∀ m ∈ v.mounts, m.hostPath ≠ []) (hroot : v.root ≠ [])
    (h : SamePlace v.mounts v.root p q) : v.resolve p = v.resolve q := by
  obtain ⟨base, rest, rest', hp, hq, hcs, hfits, hfits'⟩ := h
  have hbase := rootOf_ne_nil hslots hroot hp
  have hraw : rawHost v.mounts v.root p = rawHost v.mounts v.root q := by
    rw [rawHost_eq hslots hp, rawHost_eq hslots hq, mountedPath_below hbase hfits, mountedPath_below hbase hfits', hcs]
  rw [Vfs.resolve, Vfs.resolve, ps4VfsResolve, ps4VfsResolve, hraw]

theorem resolve_parents (hslots : ∀ m ∈ v.mounts, m.hostPath ≠ []) (hroot : v.root ≠ []) {ps qs : List Path}
    (h : List.Forall₂ (SamePlace v.mounts v.root) ps qs) {β : Type} (answer : Option Path → Option β) :
    ps.findSome? (fun parent => answer (v.resolve parent)) = qs.findSome? fun parent => answer (v.resolve parent) := by
  induction h with
  | nil => rfl
  | cons hpq _ ih => rw [List.findSome?_cons, List.findSome?_cons, resolve_samePlace hslots hroot hpq, ih]

/-- The disk gives paths in the same places the same answers. -/
theorem onDisk_samePlaces (hslots : ∀ m ∈ v.mounts, m.hostPath ≠ []) (hroot : v.root ≠ [])
    (h : SamePlaces v.mounts v.root p q) {β : Type} (answer : Path → Option β) :
    v.onDisk answer p = v.onDisk answer q := by
  have hparents := resolve_parents hslots hroot h.2 fun resolved => resolved.bind answer
  rw [Vfs.onDisk, Vfs.onDisk, resolve_samePlace hslots hroot h.1, hparents]

theorem diskPath_samePlaces (hslots : ∀ m ∈ v.mounts, m.hostPath ≠ []) (hroot : v.root ≠ [])
    (h : SamePlaces v.mounts v.root p q) (flags : OpenFlags) :
    diskPath v.env p flags = diskPath v.env q flags := by
  have hdirect : v.env.resolve p = v.env.resolve q := resolve_samePlace hslots hroot h.1
  have hparents : (v.env.parentLocalePaths p).findSome? (fun parent =>
      (v.env.resolve parent).filter v.env.access) = (v.env.parentLocalePaths q).findSome? fun parent =>
      (v.env.resolve parent).filter v.env.access :=
    resolve_parents hslots hroot h.2 fun resolved => resolved.filter v.disk.access
  rw [diskPath, diskPath, hdirect, hparents]

/-- A path that an open finds it finds with `O_CREAT` too. -/
theorem diskPath_creat {flags : OpenFlags} (h : diskPath v.env p flags = none) : diskPath v.env p {} = none := by
  rw [diskPath, Option.or_eq_none_iff] at h ⊢
  refine ⟨?_, h.2⟩
  rw [Option.filter_eq_none_iff] at h ⊢
  intro resolved hresolved haccess
  rw [Bool.or_false] at haccess
  exact h.1 resolved hresolved (by rw [haccess, Bool.true_or])

end Disk

/-! ### The archives -/

section Archives

variable {v : Vfs} {p q : Path}

theorem ps4VfsOpen_eq (w : World) (flags : OpenFlags) :
    ps4VfsOpen v.env w p flags =
      match diskPath v.env p flags with
      | some path => v.hostOpen w path flags
      | none =>
        match (v.archiveEntry p).map Vfs.openEntry with
        | some entry => openPak w entry flags
        | none => (.error ReadPaths.enoent, w) := by
  have hentry : (getApp0Subpath p).bind v.env.pakLookup = (v.archiveEntry p).map Vfs.openEntry := by
    rw [Vfs.archiveEntry, Option.map_bind]
    rfl
  rw [ps4VfsOpen, hentry]
  rfl

/-- A world with no file open. -/
def freshWorld : World := ⟨fun _ => none, [], fun _ => {}⟩

theorem openPak_fresh (entry : PakEntry) :
    openPak freshWorld entry {} = (.ok 10000, { freshWorld with
      gVfiles := Function.update freshWorld.gVfiles 0
        { active := true, pakFd := entry.pakFd, dataOffset := entry.dataOffset, fileSize := entry.size } }) := by
  have hslot : (List.range ReadPaths.maxVirtualFiles).find? (fun i => (freshWorld.gVfiles i).active = false) =
      some 0 := by decide
  rw [openPak, if_neg (by decide), hslot]
  rfl

theorem openPak_inj {e e' : PakEntry} (h : openPak freshWorld e {} = openPak freshWorld e' {}) : e = e' := by
  rw [openPak_fresh, openPak_fresh] at h
  have hslot := congrFun (congrArg (fun r => r.2.gVfiles) h) 0
  simp only [Function.update_self, ReadPaths.VirtualPakFile.mk.injEq] at hslot
  obtain ⟨-, hfd, hoffset, hsize, -⟩ := hslot
  cases e
  cases e'
  rw [PakEntry.mk.injEq]
  exact ⟨hfd, hoffset, hsize⟩

theorem openPak_ok (e : PakEntry) : (openPak freshWorld e {}).1 = .ok 10000 := by rw [openPak_fresh]

/-- Opens of two paths that the disk does not have agree where the archives have the same entry. -/
theorem open_iff (hdisk : ∀ flags, diskPath v.env p flags = diskPath v.env q flags) :
    (∀ w flags, ps4VfsOpen v.env w p flags = ps4VfsOpen v.env w q flags) ↔
      (diskPath v.env p {} = none →
        (v.archiveEntry p).map Vfs.openEntry = (v.archiveEntry q).map Vfs.openEntry) := by
  constructor
  · intro hopen hnone
    have hfresh := hopen freshWorld {}
    rw [ps4VfsOpen_eq, ps4VfsOpen_eq, ← hdisk, hnone] at hfresh
    cases hp : (v.archiveEntry p).map Vfs.openEntry with
    | none =>
        cases hq : (v.archiveEntry q).map Vfs.openEntry with
        | none => rfl
        | some e' =>
            rw [hp, hq] at hfresh
            have hfst := (congrArg Prod.fst hfresh).trans (openPak_ok e')
            cases hfst
    | some e =>
        cases hq : (v.archiveEntry q).map Vfs.openEntry with
        | none =>
            rw [hp, hq] at hfresh
            have hfst := (openPak_ok e).symm.trans (congrArg Prod.fst hfresh)
            cases hfst
        | some e' =>
            rw [hp, hq] at hfresh
            exact congrArg some (openPak_inj hfresh)
  · intro hentry w flags
    rw [ps4VfsOpen_eq, ps4VfsOpen_eq, ← hdisk]
    cases hpath : diskPath v.env p flags with
    | some path => rfl
    | none => rw [hentry (diskPath_creat hpath)]

theorem stat_iff (hdisk : v.onDisk v.hostStat p = v.onDisk v.hostStat q) :
    v.ps4VfsStat p = v.ps4VfsStat q ↔ (v.onDisk v.hostStat p = none → v.archiveStat p = v.archiveStat q) := by
  rw [Vfs.ps4VfsStat, Vfs.ps4VfsStat, ← hdisk]
  cases v.onDisk v.hostStat p with
  | some st => exact iff_of_true rfl nofun
  | none =>
      cases v.archiveStat p <;> cases v.archiveStat q <;> simp

theorem access_iff {mode : ℕ} (hdisk : v.onDisk (v.permits mode) p = v.onDisk (v.permits mode) q) :
    v.ps4VfsAccess p mode = v.ps4VfsAccess q mode ↔
      (v.onDisk (v.permits mode) p = none → v.archiveHas p = v.archiveHas q) := by
  rw [Vfs.ps4VfsAccess, Vfs.ps4VfsAccess, ← hdisk]
  cases v.onDisk (v.permits mode) p with
  | some _ => exact iff_of_true rfl nofun
  | none =>
      -- found or not, and with write access or not, are three different answers
      cases v.archiveHas p <;> cases v.archiveHas q <;> cases mode.testBit 1 <;> simp [eacces, ReadPaths.enoent]

end Archives

/-! ### The answers -/

theorem pakLookup_dropWhile (v : Vfs) {a b : Path} (ha : a ≠ []) (hb : b ≠ [])
    (h : a.dropWhile (· = '/') = b.dropWhile (· = '/')) : v.pakLookup a = v.pakLookup b := by
  rw [Vfs.pakLookup, Vfs.pakLookup, ps4PakLookup, ps4PakLookup, if_neg ha, if_neg hb, h]

theorem pakDirExists_dropWhile (v : Vfs) {a b : Path} (ha : a ≠ []) (hb : b ≠ [])
    (h : a.dropWhile (· = '/') = b.dropWhile (· = '/')) : v.pakDirExists a = v.pakDirExists b := by
  rw [Vfs.pakDirExists, Vfs.pakDirExists, ps4PakDirExists, ps4PakDirExists, if_neg ha, if_neg hb, h]

theorem sameArchived_of_separators {v : Vfs} {p q a b : Path} (hp : getApp0Subpath p = some a)
    (hq : getApp0Subpath q = some b) (ha : a ≠ []) (hb : b ≠ [])
    (h : a.dropWhile (· = '/') = b.dropWhile (· = '/')) : SameArchived v p q := by
  have hentry : v.archiveEntry p = v.archiveEntry q := by
    rw [Vfs.archiveEntry, Vfs.archiveEntry, hp, hq]
    exact pakLookup_dropWhile v ha hb h
  have hdir : v.archiveDir p = v.archiveDir q := by
    rw [Vfs.archiveDir, Vfs.archiveDir, hp, hq, Option.map_some, Option.map_some, pakDirExists_dropWhile v ha hb h]
  refine ⟨fun _ => by rw [hentry], fun _ => ?_, fun _ _ => ?_⟩
  · rw [Vfs.archiveStat, Vfs.archiveStat, hentry, hdir]
  · rw [Vfs.archiveHas, Vfs.archiveHas, hentry, hdir]

/-! ### Runs on one file -/

/-- A host on which the root is empty, and one file in an archive. -/
def pakVfs (files : HashTable PakHashEntry) : Vfs where
  root := "/r".toList
  disk := ⟨fun _ => false, fun _ => []⟩
  hostOpen w _ _ := (.error ReadPaths.enoent, w)
  hostStat _ := none
  hostAccess _ _ := false
  files

theorem samePlaces_of_samePlace {mounts : List VfsMount} {root p q : Path} (h : SamePlace mounts root p q)
    (hp : isResourceBundle (fit 1024 p) = false) (hq : isResourceBundle (fit 1024 q) = false) :
    SamePlaces mounts root p q := by
  refine ⟨h, ?_⟩
  rw [localeParents_of_suffix hp, localeParents_of_suffix hq]
  exact .nil

theorem pakVfs_diskPath (files : HashTable PakHashEntry) (p : Path) : diskPath (pakVfs files).env p {} = none := by
  rw [diskPath, Option.or_eq_none_iff]
  constructor
  · rw [Option.filter_eq_none_iff]
    exact fun resolved _ => Bool.false_ne_true
  · rw [List.findSome?_eq_none_iff]
    intro parent _
    rw [Option.filter_eq_none_iff]
    exact fun resolved _ => Bool.false_ne_true

end PS4Recomp.Runtime.PathSpelling
