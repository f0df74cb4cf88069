import Mathlib.Data.Finmap
import Mathlib.Data.List.SplitOn
import PS4Recomp.Library.Transition

/-!
# The mount table

`ps4_vfs.c`: 32 slots of a guest prefix of up to 63 bytes, a host path of up to 1023 and an active flag.  A
path goes to the host path of the first active slot whose prefix it lies under, then through a lookup that
ignores case where the host has no such file.

* `VfsMount`, `ps4VfsMount`, `ps4VfsUnmount` — the slots in use, and the calls that change them;
* `normalizeChrootSubpath`, `rawHost` — the host path built for a guest path;
* `Disk`, `caseInsensitiveLookup`, `ps4VfsResolve` — the lookup of it on the host's disk;
* `specStep`, `specMap`, `specReplies` — a finite map from prefixes to host paths, and its replies;
* `Covers` — a path lies under a prefix; `Behaves` — the table behaves as that map;
* `mountSystem`, `MountOk` — the runs, and the condition under which they behave.

Paths are lists of characters, one for each byte.  Every call runs under `g_vfs_mutex`.
-/

namespace PS4Recomp.Runtime.MountTable

open Library.Transition

abbrev Path := List Char

def enoent : Int := 2
def enomem : Int := 12
def einval : Int := 22
def enametoolong : Int := 63

/-! ### The table -/

structure VfsMount where
  guestPrefix : Path
  hostPath : Path
  active : Bool
  deriving DecidableEq

def maxVfsMounts : Nat := 32

/-- What fits a buffer of `size` bytes. -/
def fit (size : Nat) (s : Path) : Path := s.take (size - 1)

/-- The first active slot with a prefix, changed. -/
def updateFirst (f : VfsMount → VfsMount) (guestPrefix : Path) : List VfsMount → Option (List VfsMount)
  | [] => none
  | m :: mounts =>
    if m.active = true ∧ m.guestPrefix = guestPrefix then some (f m :: mounts)
    else (updateFirst f guestPrefix mounts).map (m :: ·)

def ps4VfsMount (mounts : List VfsMount) (guestPrefix hostPath : Path) : Int × List VfsMount :=
  if guestPrefix = [] ∨ hostPath = [] then (-einval, mounts)
  else
    match updateFirst (fun m => { m with hostPath := fit 1024 hostPath }) guestPrefix mounts with
    | some mounts' => (0, mounts')
    | none =>
      if maxVfsMounts ≤ mounts.length then (-enomem, mounts)
      else (0, mounts ++ [⟨fit 64 guestPrefix, fit 1024 hostPath, true⟩])

def ps4VfsUnmount (mounts : List VfsMount) (guestPrefix : Path) : Int × List VfsMount :=
  match updateFirst (fun m => { m with active := false }) guestPrefix mounts with
  | some mounts' => (0, mounts')
  | none => (-enoent, mounts)

/-! ### Building a host path -/

/-- One component: `.` stays, `..` goes up, but not above the start. -/
def pushSeg (segs : List Path) (token : Path) : List Path :=
  if token = ['.'] then segs
  else if token = ['.', '.'] then segs.dropLast
  else if segs.length < 64 then segs ++ [token]
  else segs

/-- Components written to a buffer, as many as fit. -/
def writeSegs (outSz : Nat) : List Path → Path → Path
  | [], out => out
  | seg :: segs, out =>
    if outSz ≤ out.length + seg.length + 2 then out
    else writeSegs outSz segs (if out = [] then seg else out ++ '/' :: seg)

def normalizeChrootSubpath (subpath : Path) (outSz : Nat) : Path :=
  let tokens := ((fit 1024 subpath).splitOn '/').filter (· ≠ [])
  writeSegs outSz (tokens.foldl pushSeg []) []

/-- The path below `host` for what follows a prefix. -/
def mountedPath (host rest : Path) : Path :=
  let norm := normalizeChrootSubpath (rest.dropWhile (· = '/')) 1024
  if norm = [] then fit 1024 host else fit 1024 (host ++ '/' :: norm)

/-- `strncmp` with a prefix, and the character behind it. -/
def matchesPrefix (guestPrefix path : Path) : Bool :=
  guestPrefix.isPrefixOf path &&
    ((path.drop guestPrefix.length).head? = none || (path.drop guestPrefix.length).head? = some '/')

/-- Where a path goes that no mount takes. -/
def fallbackHost (root path : Path) : Path :=
  if matchesPrefix "/app0".toList path then mountedPath root (path.drop 5)
  else if matchesPrefix "/hostapp".toList path then mountedPath root (path.drop 8)
  else if matchesPrefix "/data".toList path then mountedPath (root ++ "/data".toList) (path.drop 5)
  else if path.head? ≠ some '/' then mountedPath root path
  else fit 1024 path

/-- `raw_host` of `ps4_vfs_resolve`. -/
def rawHost (mounts : List VfsMount) (root path : Path) : Path :=
  match mounts.find? fun m => m.active && matchesPrefix m.guestPrefix path with
  | some m =>
    let raw := mountedPath m.hostPath (path.drop m.guestPrefix.length)
    if raw = [] then fallbackHost root path else raw
  | none => fallbackHost root path

/-! ### The lookup on disk -/

/-- What the host's disk says: whether a path exists, and the names in a directory. -/
structure Disk where
  access : Path → Bool
  readdir : Path → List Path

/-- The parts of a path before and behind its last slash. -/
def splitLast (p : Path) : Option (Path × Path) :=
  match p.reverse.dropWhile (· ≠ '/') with
  | [] => none
  | _ :: dir => some (dir.reverse, (p.reverse.takeWhile (· ≠ '/')).reverse)

theorem splitLast_eq {p dir name : Path} (h : splitLast p = some (dir, name)) : p = dir ++ '/' :: name := by
  unfold splitLast at h
  split at h
  · cases h
  · next c tail hdrop =>
    have hslash : c = '/' := by
      have hhead := List.head?_dropWhile_not (fun x : Char => decide (x ≠ '/')) p.reverse
      rw [hdrop] at hhead
      simpa using hhead
    subst hslash
    cases h
    rw [← List.reverse_inj, List.reverse_append, List.reverse_cons, List.reverse_reverse, List.reverse_reverse,
      List.append_assoc, List.singleton_append, ← hdrop, List.takeWhile_append_dropWhile]

def pushPart (parts : List Path) (part : Path) : List Path :=
  if parts.length < 64 then parts ++ [part] else parts

/-- The longest existing start of a path, and the components behind it, the last one first. -/
def missingParts (d : Disk) (curr : Path) (parts : List Path) : Path × List Path :=
  if curr = [] ∨ d.access curr = true then (curr, parts)
  else
    match h : splitLast curr with
    | none => ([], pushPart parts curr)
    | some ([], name) => ([], pushPart parts name)
    | some (c :: dir, name) => missingParts d (c :: dir) (pushPart parts name)
termination_by curr.length
decreasing_by
  rw [splitLast_eq h, List.length_append]
  exact Nat.lt_add_of_pos_right (Nat.succ_pos _)

def strcasecmp (a b : Path) : Bool := a.map Char.toLower = b.map Char.toLower

/-- A path with a component behind it. -/
def joined (resolved part : Path) : Path :=
  fit 1024 (resolved ++ (if resolved = ['/'] then [] else ['/']) ++ part)

/-- One missing component: as it is if it exists, else as the directory spells it. -/
def resolvePart (d : Disk) (resolved part : Path) : Path :=
  if part = [] then resolved
  else if d.access (joined resolved part) then joined resolved part
  else
    match (d.readdir resolved).find? fun name => strcasecmp name part with
    | some name => joined resolved name
    | none => joined resolved part

def caseInsensitiveLookup (d : Disk) (hostPath : Path) (outSz : Nat) : Except Int Path :=
  if d.access hostPath then
    if outSz ≤ hostPath.length then .error enametoolong else .ok hostPath
  else if 1024 ≤ hostPath.length then .error enametoolong
  else
    let (curr, parts) := missingParts d hostPath []
    let resolved := parts.reverse.foldl (resolvePart d) (if curr = [] then ['/'] else curr)
    if outSz ≤ resolved.length then .error enametoolong else .ok resolved

def ps4VfsResolve (d : Disk) (mounts : List VfsMount) (root path : Path) (hostPathSz : Nat) : Except Int Path :=
  if hostPathSz = 0 then .error einval
  else caseInsensitiveLookup d (rawHost mounts root path) hostPathSz

/-! ### A finite map -/

inductive MountCall where
  | mount (guestPrefix hostPath : Path)
  | unmount (guestPrefix : Path)
  deriving DecidableEq

abbrev MountMap := Finmap fun _ : Path => Path

/-- The calls on a map with room for 32 prefixes. -/
def specStep (m : MountMap) : MountCall → Int × MountMap
  | .mount guestPrefix hostPath =>
    if guestPrefix = [] ∨ hostPath = [] then (-einval, m)
    else if guestPrefix ∈ m.keys ∨ m.keys.card < maxVfsMounts then (0, m.insert guestPrefix hostPath)
    else (-enomem, m)
  | .unmount guestPrefix =>
    if guestPrefix ∈ m.keys then (0, m.erase guestPrefix) else (-enoent, m)

def specMap (calls : List MountCall) : MountMap :=
  calls.foldl (fun m call => (specStep m call).2) ∅

def specReplies (m : MountMap) : List MountCall → List Int
  | [] => []
  | call :: calls => (specStep m call).1 :: specReplies (specStep m call).2 calls

/-- A path lies under a prefix: it goes on at a slash. -/
def Covers (guestPrefix path : Path) : Prop :=
  guestPrefix <+: path ∧
    (path.drop guestPrefix.length = [] ∨ (path.drop guestPrefix.length).head? = some '/' ∨
      guestPrefix.getLast? = some '/')

instance (guestPrefix path : Path) : Decidable (Covers guestPrefix path) :=
  inferInstanceAs (Decidable (_ ∧ _))

/-! ### Runs -/

/-- The table, and the calls so far with their replies, which no code reads. -/
structure MountState where
  mounts : List VfsMount := []
  history : List (MountCall × Int) := []
  deriving DecidableEq

def MountState.calls (s : MountState) : List MountCall := s.history.map Prod.fst

/-- The map after the calls so far. -/
def MountState.map (s : MountState) : MountMap := specMap s.calls

def tableStep (mounts : List VfsMount) : MountCall → Int × List VfsMount
  | .mount guestPrefix hostPath => ps4VfsMount mounts guestPrefix hostPath
  | .unmount guestPrefix => ps4VfsUnmount mounts guestPrefix

def exec (s : MountState) (call : MountCall) : Option MountState :=
  let (reply, mounts) := tableStep s.mounts call
  some { mounts, history := s.history ++ [(call, reply)] }

def mountSystem : System MountState MountCall where
  init s := s = {}
  step s call s' := exec s call = some s'

/-- **The table behaves as the map**: the replies are the map's, and a path goes below the host path of
the longest prefix it lies under, or as without mounts if there is none. -/
structure Behaves (s : MountState) : Prop where
  replies : s.history.map Prod.snd = specReplies ∅ s.calls
  resolves : ∀ root path guestPrefix, guestPrefix ∈ s.map.keys → Covers guestPrefix path →
    ∃ longest host, s.map.lookup longest = some host ∧ Covers longest path ∧
      (∀ other ∈ s.map.keys, Covers other path → other.length ≤ longest.length) ∧
      rawHost s.mounts root path = mountedPath host (path.drop longest.length) ∧
      ∀ d size, 1024 ≤ size → d.access host = true →
        ∃ resolved, ps4VfsResolve d s.mounts root path size = .ok resolved ∧ Covers host resolved
  others : ∀ root path, (∀ guestPrefix ∈ s.map.keys, ¬Covers guestPrefix path) →
    rawHost s.mounts root path = fallbackHost root path

/-- A prefix and a host path fit their buffers, and the prefix does not end in a slash. -/
def Fits (guestPrefix hostPath : Path) : Prop :=
  guestPrefix.length < 64 ∧ hostPath.length < 1024 ∧ guestPrefix.getLast? ≠ some '/'

instance (guestPrefix hostPath : Path) : Decidable (Fits guestPrefix hostPath) :=
  inferInstanceAs (Decidable (_ ∧ _))

/-- A mount that succeeds fits its slot, and if its prefix is new there is a slot that was never used and
it lies under no mounted prefix. -/
def MountOk (s : MountState) : MountCall → Prop
  | .mount guestPrefix hostPath =>
    guestPrefix = [] ∨ hostPath = [] ∨ (guestPrefix ∉ s.map.keys ∧ s.map.keys.card = maxVfsMounts) ∨
      Fits guestPrefix hostPath ∧
        (guestPrefix ∈ s.map.keys ∨
          s.mounts.length < maxVfsMounts ∧ ∀ mounted ∈ s.map.keys, ¬Covers mounted guestPrefix)
  | .unmount _ => True

instance (s : MountState) : ∀ call, Decidable (MountOk s call)
  | .mount _ _ => inferInstanceAs (Decidable (_ ∨ _))
  | .unmount _ => inferInstanceAs (Decidable True)

end PS4Recomp.Runtime.MountTable
