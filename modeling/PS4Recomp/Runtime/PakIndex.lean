import PS4Recomp.Library.LinearProbing
import PS4Recomp.Runtime.MountTable

/-!
# The index of the pak archives

`ps4_pak.c`: two hash tables with linear probing, for the files and for the directories of all archives, by a
hash of the path.  A table doubles when it is half full.

* `fnv1a64Lower` — the hash; `HashTable`, `grow`, `hashTableInsertFile` — the tables;
* `ps4PakLookup`, `ps4PakDirExists` — the look-ups, `getParentLocalePath` — where the look-up of a resource
  bundle goes on;
* `Sound` — a table can be searched, `Holds` — what it has; `insert_spec`, `lookupHash_spec`;
* **`pakLookup_index`** — after any insertions the look-up returns the last entry of the path; `pakLookup_order` — in any order.

Paths are lists of characters, one for each byte.  A loop that looks at more cells than there are has no
result.  Allocations succeed; the lock is held by every call.
-/

namespace PS4Recomp.Runtime.PakIndex

open Library.LinearProbing
open Runtime.MountTable (Path fit strcasecmp)

/-! ### paths -/

/-- `fnv1a_64_lower`. -/
def fnv1a64Lower (str : Path) : BitVec 64 :=
  str.foldl (fun hash c =>
    let c := c.toLower
    let c := if c = '\\' then '/' else c
    (hash ^^^ BitVec.ofNat 64 c.toNat) * 1099511628211) 14695981039346656037

/-- `strrchr`. -/
def strrchr (p : Path) (c : Char) : Option ℕ :=
  (List.range p.length).reverse.find? fun i => p[i]? = some c

/-- The path ends in `.res`. -/
def isResourceBundle (path : Path) : Bool := strcasecmp (path.drop (path.length - 4)) ".res".toList

/-- `ps4_pak_get_parent_locale_path`. -/
def getParentLocalePath (path : Path) (outSz : ℕ) : Option Path :=
  let len := path.length
  if outSz = 0 ∨ len < 5 then none
  else if isResourceBundle path = false then none
  else
    let fname := match strrchr path '/' with
      | some lastSlash => lastSlash + 1
      | none => 0
    match (strrchr (path.take (len - 4)) '_').filter (fname ≤ ·) with
    | none => none
    | some lastUs =>
      if lastUs = fname ∨ outSz ≤ lastUs + 4 then none
      else some (path.take lastUs ++ path.drop (len - 4))

theorem strrchr_lt {p : Path} {c : Char} {i : ℕ} (h : strrchr p c = some i) : i < p.length :=
  List.mem_range.1 (List.mem_reverse.1 (List.mem_of_find?_eq_some h))

theorem getParentLocalePath_length {path parent : Path} {outSz : ℕ}
    (h : getParentLocalePath path outSz = some parent) : parent.length < path.length := by
  simp only [getParentLocalePath] at h
  generalize (match strrchr path '/' with | some lastSlash => lastSlash + 1 | none => 0) = fname at h
  split at h
  · cases h
  · rename_i hlen
    split at h
    · cases h
    · split at h
      · cases h
      · rename_i lastUs hfilter
        split at h
        · cases h
        · cases h
          have hlt := strrchr_lt (Option.eq_some_of_filter_eq_some hfilter)
          simp only [List.length_append, List.length_take, List.length_drop] at hlt ⊢
          omega

/-- The paths a look-up goes on with, each the parent of the one before. -/
def localeParents (curPath : Path) : List Path :=
  match hparent : getParentLocalePath curPath 1024 with
  | none => []
  | some parent => parent :: localeParents (fit 1024 parent)
termination_by curPath.length
decreasing_by
  have hlt := getParentLocalePath_length hparent
  simp only [fit, List.length_take]
  omega

/-! ### tables -/

/-- The cell of a table; `zero` is what `calloc` leaves. -/
class HashSlot (S : Type) where
  hash : S → BitVec 64
  zero : S
  hash_zero : hash zero = 0

/-- `ps4_pak_entry_t`. -/
structure Ps4PakEntry where
  pakFd : Int := 0
  dataOffset : BitVec 64 := 0
  size : BitVec 64 := 0
  compression : BitVec 32 := 0
  deriving DecidableEq

structure PakHashEntry extends Ps4PakEntry where
  hash : BitVec 64 := 0
  deriving DecidableEq

instance : HashSlot PakHashEntry := ⟨PakHashEntry.hash, {}, rfl⟩

structure PakDirEntry where
  hash : BitVec 64 := 0
  deriving DecidableEq

instance : HashSlot PakDirEntry := ⟨PakDirEntry.hash, {}, rfl⟩

/-- `g_entries` or `g_dirs`, with the count and the capacity. -/
structure HashTable (S : Type) [HashSlot S] where
  entries : ℕ → S := fun _ => HashSlot.zero
  count : ℕ := 0
  capacity : ℕ := 0

variable {S : Type} [HashSlot S]

open HashSlot (hash)

/-- `hash & (capacity - 1)`. -/
def homeIdx (capacity : ℕ) (h : BitVec 64) : ℕ := h.toNat &&& (capacity - 1)

/-- A loop over `idx = (idx + 1) & (capacity - 1)` until a cell stops it. -/
def walk (capacity : ℕ) (stop : ℕ → Bool) : ℕ → ℕ → Option ℕ
  | 0, _ => none
  | fuel + 1, idx => if stop idx then some idx else walk capacity stop fuel ((idx + 1) &&& (capacity - 1))

/-- The old cells put into the new table. -/
def reinsert (newCap : ℕ) : List S → (ℕ → S) → Option (ℕ → S)
  | [], newTable => some newTable
  | e :: entries, newTable =>
    if hash e ≠ 0 then
      (walk newCap (fun idx => hash (newTable idx) = 0) newCap (homeIdx newCap (hash e))).bind fun idx =>
        reinsert newCap entries (Function.update newTable idx e)
    else reinsert newCap entries newTable

/-- A table that is half full is doubled. -/
def grow (initial : ℕ) (g : HashTable S) : Option (HashTable S) :=
  if g.capacity ≤ g.count * 2 then
    let newCap := if g.capacity = 0 then initial else g.capacity * 2
    (reinsert newCap ((List.range g.capacity).map g.entries) fun _ => HashSlot.zero).map fun newTable =>
      { g with entries := newTable, capacity := newCap }
  else some g

/-- Where the search for a hash stops. -/
def slotOf (g : HashTable S) (h : BitVec 64) : Option ℕ :=
  walk g.capacity (fun idx => hash (g.entries idx) = 0 || hash (g.entries idx) = h) g.capacity
    (homeIdx g.capacity h)

/-- `hash_table_insert_file`; `e` has its other four arguments. -/
def hashTableInsertFile (g : HashTable PakHashEntry) (hash : BitVec 64) (e : Ps4PakEntry) :
    Option (HashTable PakHashEntry) :=
  (grow 65536 g).bind fun g =>
    (slotOf g hash).map fun idx =>
      { g with
        count := if (g.entries idx).hash = 0 then g.count + 1 else g.count
        entries := Function.update g.entries idx { e with hash } }

/-- The loop of a look-up: the cell with the hash, if the search comes to it before a free one. -/
def lookupHash (g : HashTable S) (h : BitVec 64) : Option (Option S) :=
  (slotOf g h).map fun idx => if hash (g.entries idx) = 0 then none else some (g.entries idx)

/-- The look-up of one path after the other. -/
def lookupFirst (g : HashTable PakHashEntry) : List Path → Option (Option Ps4PakEntry)
  | [] => some none
  | path :: paths =>
    (lookupHash g (fnv1a64Lower path)).bind fun
      | some e => some (some e.toPs4PakEntry)
      | none => lookupFirst g paths

/-- `ps4_pak_lookup`: the path itself, then its parents. -/
def ps4PakLookup (g : HashTable PakHashEntry) (subpath : Path) : Option (Option Ps4PakEntry) :=
  if subpath = [] then some none
  else
    let subpath := subpath.dropWhile (· = '/')
    if g.capacity = 0 ∨ g.count = 0 then some none
    else lookupFirst g (subpath :: localeParents (fit 1024 subpath))

/-- `ps4_pak_dir_exists`. -/
def ps4PakDirExists (g : HashTable PakDirEntry) (subpath : Path) : Option Bool :=
  if subpath = [] then some false
  else
    let clean := ((fit 1024 (subpath.dropWhile (· = '/'))).reverse.dropWhile (· = '/')).reverse
    if g.capacity = 0 ∨ g.count = 0 then some false
    else (lookupHash g (fnv1a64Lower clean)).map Option.isSome

/-! ### what a table has -/

/-- The cells of a table, by hash. -/
def cellOf (e : S) : Option (BitVec 64 × S) := if hash e = 0 then none else some (hash e, e)

/-- The table can be searched: its capacity is a power of two, it has as many entries as are counted and is
half full at most. -/
structure Sound (g : HashTable S) : Prop where
  power : ∃ k, g.capacity = 2 ^ (k + 1)
  probed : Probed g.capacity (homeIdx g.capacity) fun i => cellOf (g.entries i)
  counted : used g.capacity (fun i => cellOf (g.entries i)) = g.count
  half : g.count * 2 ≤ g.capacity

/-- No table is allocated yet. -/
def Fresh (g : HashTable S) : Prop := g.capacity = 0 ∧ g.count = 0

/-- What the table has at each hash. -/
def Holds (g : HashTable S) (m : BitVec 64 → Option S) : Prop :=
  ∀ h e, Has g.capacity (fun i => cellOf (g.entries i)) h e ↔ m h = some e

theorem cellOf_zero : cellOf (HashSlot.zero : S) = none := if_pos HashSlot.hash_zero

theorem cellOf_eq_none {e : S} : cellOf e = none ↔ hash e = 0 := by
  unfold cellOf
  split
  · rename_i hzero
    exact iff_of_true rfl hzero
  · rename_i hne
    exact iff_of_false (Option.some_ne_none _) hne

theorem cellOf_some {e : S} (h : hash e ≠ 0) : cellOf e = some (hash e, e) := if_neg h

theorem cellOf_eq_some {e e' : S} {h : BitVec 64} (hcell : cellOf e = some (h, e')) :
    e' = e ∧ hash e = h ∧ h ≠ 0 := by
  unfold cellOf at hcell
  split at hcell
  · cases hcell
  · rename_i hne
    obtain ⟨rfl, rfl⟩ := Prod.mk.inj (Option.some.inj hcell)
    exact ⟨rfl, rfl, hne⟩

section Power

variable {k : ℕ}

theorem and_mask (k i : ℕ) : i &&& (2 ^ k - 1) = i % 2 ^ k := Nat.and_two_pow_sub_one_eq_mod i k

theorem homeIdx_lt (k : ℕ) (h : BitVec 64) : homeIdx (2 ^ k) h < 2 ^ k := by
  rw [homeIdx, and_mask]
  exact Nat.mod_lt _ (Nat.two_pow_pos k)

theorem walk_eq_probe (k : ℕ) (stop : ℕ → Bool) (fuel idx : ℕ) :
    walk (2 ^ k) stop fuel idx = probe (2 ^ k) stop fuel idx := by
  induction fuel generalizing idx with
  | zero => rfl
  | succ fuel ih => rw [walk, probe, and_mask, ih]

theorem stops_cellOf (t : ℕ → S) (h : BitVec 64) :
    (fun idx => hash (t idx) = 0 || hash (t idx) = h : ℕ → Bool) = stops (fun i => cellOf (t i)) h := by
  funext idx
  rw [stops]
  by_cases hzero : hash (t idx) = 0
  · rw [cellOf_eq_none.2 hzero, decide_eq_true hzero, Bool.true_or]
  · rw [cellOf_some hzero, decide_eq_false hzero, Bool.false_or]

theorem free_cellOf (t : ℕ → S) :
    (fun idx => hash (t idx) = 0 : ℕ → Bool) = fun i => (cellOf (t i)).isNone := by
  funext idx
  by_cases hzero : hash (t idx) = 0
  · rw [cellOf_eq_none.2 hzero, decide_eq_true hzero, Option.isNone_none]
  · rw [cellOf_some hzero, decide_eq_false hzero, Option.isNone_some]

theorem update_cellOf (t : ℕ → S) (j : ℕ) (e : S) :
    (fun i => cellOf (Function.update t j e i)) = Function.update (fun i => cellOf (t i)) j (cellOf e) := by
  funext i
  by_cases hij : i = j
  · rw [hij, Function.update_self, Function.update_self]
  · rw [Function.update_of_ne hij, Function.update_of_ne hij]

theorem reinsert_eq (entries : List S) (t : ℕ → S) :
    (reinsert (2 ^ k) entries t).map (fun t' i => cellOf (t' i)) =
      rehash (2 ^ k) (homeIdx (2 ^ k)) (entries.map cellOf) fun i => cellOf (t i) := by
  induction entries generalizing t with
  | nil => rfl
  | cons e entries ih =>
      rw [reinsert, List.map_cons]
      by_cases hzero : hash e = 0
      · rw [if_neg (not_not.2 hzero), cellOf_eq_none.2 hzero, rehash, ih]
      · rw [if_pos hzero, cellOf_some hzero, rehash, Library.LinearProbing.place, walk_eq_probe, free_cellOf]
        cases probe (2 ^ k) (fun i => (cellOf (t i)).isNone) (2 ^ k) (homeIdx (2 ^ k) (hash e)) with
        | none => rfl
        | some idx =>
            rw [Option.bind_some, Option.map_some, Option.bind_some, ih, update_cellOf, cellOf_some hzero]

theorem slotOf_eq {g : HashTable S} (hcap : g.capacity = 2 ^ k) (h : BitVec 64) :
    slotOf g h = find g.capacity (homeIdx g.capacity) (fun i => cellOf (g.entries i)) h := by
  rw [slotOf, find, stops_cellOf, hcap, walk_eq_probe]

end Power

/-! ### insertion and look-up -/

theorem reinsert_spec {g : HashTable S} {m : BitVec 64 → Option S} (hm : Holds g m) {k : ℕ}
    (hpair : (((List.range g.capacity).map fun i => cellOf (g.entries i)).filterMap id).Pairwise
      fun x y => x.1 ≠ y.1)
    (hused : used g.capacity (fun i => cellOf (g.entries i)) = g.count) (hroom : g.count * 2 < 2 ^ (k + 1)) :
    ∃ t, reinsert (2 ^ (k + 1)) ((List.range g.capacity).map g.entries) (fun _ => HashSlot.zero) = some t ∧
      Sound { g with entries := t, capacity := 2 ^ (k + 1) } ∧ Holds { g with entries := t, capacity := 2 ^ (k + 1) } m := by
  have hempty : (fun _ : ℕ => cellOf (HashSlot.zero : S)) = fun _ => none := by
    funext i
    exact cellOf_zero
  have hlen := length_cells g.capacity fun i => cellOf (g.entries i)
  obtain ⟨cells, hcells, hprobed, hcount, hhas⟩ :=
    rehash_spec (homeIdx_lt (k + 1)) ((List.range g.capacity).map fun i => cellOf (g.entries i)) hpair
      (Probed.empty (2 ^ (k + 1)) (homeIdx (2 ^ (k + 1)))) (fun x _ v => not_has_empty (2 ^ (k + 1)) x.1 v)
      (by rw [used_empty, hlen, hused]; omega)
  have hmap := reinsert_eq (k := k + 1) ((List.range g.capacity).map g.entries) fun _ => HashSlot.zero
  rw [List.map_map, hempty] at hmap
  obtain ⟨t, ht, htcells⟩ := Option.map_eq_some_iff.1 (hmap.trans hcells)
  subst htcells
  refine ⟨t, ht, ⟨⟨k, rfl⟩, hprobed, ?_, le_of_lt hroom⟩, fun key e => ?_⟩
  · show used (2 ^ (k + 1)) _ = g.count
    rw [hcount, used_empty, hlen, hused, Nat.zero_add]
  · have hsame : Has (2 ^ (k + 1)) (fun i => cellOf (t i)) key e ↔ Has g.capacity (fun i => cellOf (g.entries i)) key e := by
      rw [hhas, mem_cells]
      exact or_iff_right (not_has_empty (2 ^ (k + 1)) key e)
    exact hsame.trans (hm key e)

theorem grow_spec {g : HashTable S} {m : BitVec 64 → Option S} (hg : Sound g ∨ Fresh g) (hm : Holds g m)
    {initial a : ℕ} (hinitial : initial = 2 ^ (a + 1)) :
    ∃ g', grow initial g = some g' ∧ Sound g' ∧ g'.count * 2 < g'.capacity ∧ Holds g' m := by
  unfold grow
  split
  · rename_i hfull
    rcases hg with hg | ⟨hcap, hcount⟩
    · obtain ⟨k, hk⟩ := hg.power
      have hpos : 0 < g.capacity := hk ▸ Nat.two_pow_pos (k + 1)
      have hdouble : g.capacity * 2 = 2 ^ (k + 1 + 1) := by rw [hk, ← pow_succ]
      have hroom : g.count * 2 < 2 ^ (k + 1 + 1) := by
        have hhalf := hg.half
        omega
      obtain ⟨t, ht, hsound, hholds⟩ := reinsert_spec hm (cells_pairwise hg.probed) hg.counted hroom
      refine ⟨_, ?_, hsound, hroom, hholds⟩
      rw [if_neg (Nat.pos_iff_ne_zero.1 hpos), hdouble]
      exact Option.map_eq_some_iff.2 ⟨t, ht, rfl⟩
    · have hused : used g.capacity (fun i => cellOf (g.entries i)) = g.count := by
        rw [hcap, hcount]
        rfl
      have hroom : g.count * 2 < 2 ^ (a + 1) := by
        rw [hcount]
        exact Nat.two_pow_pos (a + 1)
      obtain ⟨t, ht, hsound, hholds⟩ := reinsert_spec hm (by rw [hcap]; exact .nil) hused hroom
      refine ⟨_, ?_, hsound, hroom, hholds⟩
      rw [if_pos hcap, hinitial]
      exact Option.map_eq_some_iff.2 ⟨t, ht, rfl⟩
  · rename_i hfull
    rcases hg with hg | ⟨hcap, -⟩
    · exact ⟨g, rfl, hg, by omega, hm⟩
    · omega

/-- An entry written where the search for its hash stops. -/
theorem write_spec {g : HashTable S} {m : BitVec 64 → Option S} (hg : Sound g) (hroom : g.count * 2 < g.capacity)
    (hm : Holds g m) {e : S} (he : hash e ≠ 0) :
    ∃ idx, slotOf g (hash e) = some idx ∧
      Sound { g with
        count := if hash (g.entries idx) = 0 then g.count + 1 else g.count
        entries := Function.update g.entries idx e } ∧
      Holds { g with
        count := if hash (g.entries idx) = 0 then g.count + 1 else g.count
        entries := Function.update g.entries idx e } (Function.update m (hash e) (some e)) := by
  obtain ⟨k, hk⟩ := hg.power
  have hhome : homeIdx g.capacity (hash e) < g.capacity := hk ▸ homeIdx_lt (k + 1) _
  have hcounted := hg.counted
  obtain ⟨idx, hidx⟩ : ∃ idx, find g.capacity (homeIdx g.capacity) (fun i => cellOf (g.entries i)) (hash e) =
      some idx := find_isSome hhome (exists_free (by omega))
  have hlt := (probe_lt hhome hidx).1
  have hcells : (fun i => cellOf (Function.update g.entries idx e i)) =
      Function.update (fun i => cellOf (g.entries i)) idx (some (hash e, e)) := by
    rw [update_cellOf, cellOf_some he]
  refine ⟨idx, (slotOf_eq hk _).trans hidx, ⟨⟨k, hk⟩, ?_, ?_, ?_⟩, fun key e' => ?_⟩
  · show Probed g.capacity _ fun i => cellOf (Function.update g.entries idx e i)
    rw [hcells]
    exact hg.probed.insert hhome hidx e
  · show used g.capacity (fun i => cellOf (Function.update g.entries idx e i)) = ite _ _ _
    rw [hcells, used_write hlt, hcounted]
    simp only [cellOf_eq_none]
  · show ite _ _ _ * 2 ≤ g.capacity
    have heven : g.capacity % 2 = 0 := by
      rw [hk, pow_succ]
      exact Nat.mul_mod_left (2 ^ k) 2
    split
    · omega
    · omega
  · show Has g.capacity (fun i => cellOf (Function.update g.entries idx e i)) key e' ↔ _
    rw [hcells, has_insert hhome hg.probed hidx]
    by_cases hkey : key = hash e
    · rw [if_pos hkey, hkey, Function.update_self, Option.some.injEq, eq_comm]
    · rw [if_neg hkey, Function.update_of_ne hkey]
      exact hm key e'

theorem lookupHash_spec {g : HashTable S} {m : BitVec 64 → Option S} (hg : Sound g) (hm : Holds g m)
    (h : BitVec 64) : lookupHash g h = some (m h) := by
  obtain ⟨k, hk⟩ := hg.power
  have hpos : 0 < g.capacity := hk ▸ Nat.two_pow_pos (k + 1)
  have hhome : homeIdx g.capacity h < g.capacity := hk ▸ homeIdx_lt (k + 1) h
  rw [lookupHash, slotOf_eq hk]
  cases hmh : m h with
  | some e =>
      obtain ⟨idx, hidx, hcell⟩ := find_has hhome hg.probed ((hm h e).2 hmh)
      obtain ⟨rfl, hhash, hne⟩ := cellOf_eq_some hcell
      rw [hidx, Option.map_some, hhash, if_neg hne]
  | none =>
      have hroom : used g.capacity (fun i => cellOf (g.entries i)) < g.capacity := by
        have hcounted := hg.counted
        have hhalf := hg.half
        omega
      have habsent : ∀ e, ¬Has g.capacity (fun i => cellOf (g.entries i)) h e := by
        intro e he
        rw [hm h e, hmh] at he
        cases he
      obtain ⟨idx, hidx, hfree⟩ := find_free hhome habsent (exists_free hroom)
      rw [hidx, Option.map_some, if_pos (cellOf_eq_none.1 hfree)]

theorem insertFile_spec {g : HashTable PakHashEntry} {m : BitVec 64 → Option PakHashEntry}
    (hg : Sound g ∨ Fresh g) (hm : Holds g m) {h : BitVec 64} (hne : h ≠ 0) (e : Ps4PakEntry) :
    ∃ g', hashTableInsertFile g h e = some g' ∧ Sound g' ∧
      Holds g' (Function.update m h (some { e with hash := h })) := by
  obtain ⟨g₁, hgrow, hsound, hroom, hholds⟩ := grow_spec hg hm (show 65536 = 2 ^ (15 + 1) from rfl)
  obtain ⟨idx, hidx, hsound', hholds'⟩ :=
    write_spec hsound hroom hholds (e := ({ e with hash := h } : PakHashEntry)) hne
  refine ⟨_, ?_, hsound', hholds'⟩
  rw [hashTableInsertFile, hgrow, Option.bind_some, show slotOf g₁ h = some idx from hidx]
  rfl

/-! ### many insertions -/

/-- The insertions of paths with their entries, one after the other. -/
def insertAll : List (Path × Ps4PakEntry) → HashTable PakHashEntry → Option (HashTable PakHashEntry)
  | [], g => some g
  | (path, e) :: rest, g => (hashTableInsertFile g (fnv1a64Lower path) e).bind (insertAll rest)

/-- The entry inserted last for a path. -/
def lastStored (ins : List (Path × Ps4PakEntry)) (path : Path) : Option Ps4PakEntry :=
  (ins.reverse.find? fun x => x.1 = path).map Prod.snd

/-- The entry inserted last for a path with the hash. -/
def lastHashed (ins : List (Path × Ps4PakEntry)) (h : BitVec 64) : Option Ps4PakEntry :=
  (ins.reverse.find? fun x => fnv1a64Lower x.1 = h).map Prod.snd

theorem lastHashed_append (ins : List (Path × Ps4PakEntry)) (x : Path × Ps4PakEntry) (h : BitVec 64) :
    lastHashed (ins ++ [x]) h = if fnv1a64Lower x.1 = h then some x.2 else lastHashed ins h := by
  rw [lastHashed, List.reverse_append, List.reverse_singleton, List.singleton_append, List.find?_cons]
  by_cases hx : fnv1a64Lower x.1 = h
  · rw [if_pos hx, decide_eq_true hx]
    rfl
  · rw [if_neg hx, decide_eq_false hx]
    rfl

theorem lastHashed_eq_lastStored {ins : List (Path × Ps4PakEntry)} {path : Path}
    (h : ∀ x ∈ ins, x.1 ≠ path → fnv1a64Lower x.1 ≠ fnv1a64Lower path) :
    lastHashed ins (fnv1a64Lower path) = lastStored ins path := by
  rw [lastHashed, lastStored]
  congr 1
  refine List.find?_congr fun x hx => ?_
  by_cases hpath : x.1 = path
  · rw [hpath, decide_eq_true rfl, decide_eq_true rfl]
  · rw [decide_eq_false hpath, decide_eq_false (h x (List.mem_reverse.1 hx) hpath)]

theorem insertAll_append (ins rest : List (Path × Ps4PakEntry)) (g : HashTable PakHashEntry) :
    insertAll (ins ++ rest) g = (insertAll ins g).bind (insertAll rest) := by
  induction ins generalizing g with
  | nil => rfl
  | cons x ins ih =>
      rw [List.cons_append, insertAll, insertAll, Option.bind_assoc]
      exact congrArg _ (funext ih)

theorem fresh_holds (m : BitVec 64 → Option S) (hm : ∀ h, m h = none) : Holds ({} : HashTable S) m := by
  intro h e
  rw [hm]
  refine iff_of_false ?_ (Option.some_ne_none e).symm
  rintro ⟨j, hj, -⟩
  exact absurd hj (Nat.not_lt_zero j)

/-- **Every run of insertions.**  The table can be searched, and has the last entry of each hash. -/
theorem insertAll_spec (ins : List (Path × Ps4PakEntry)) (hne : ∀ x ∈ ins, fnv1a64Lower x.1 ≠ 0) :
    ∃ g, insertAll ins {} = some g ∧ (Sound g ∨ Fresh g) ∧
      Holds g fun h => (lastHashed ins h).map fun e => { e with hash := h } := by
  induction ins using List.reverseRecOn with
  | nil => exact ⟨{}, rfl, .inr ⟨rfl, rfl⟩, fresh_holds _ fun h => rfl⟩
  | append_singleton ins x ih =>
      obtain ⟨g, hg, hsound, hholds⟩ := ih fun y hy => hne y (List.mem_append_left _ hy)
      have hx : fnv1a64Lower x.1 ≠ 0 := hne x (List.mem_append_right _ List.mem_cons_self)
      obtain ⟨g', hg', hsound', hholds'⟩ := insertFile_spec hsound hholds hx x.2
      refine ⟨g', ?_, .inl hsound', ?_⟩
      · rw [insertAll_append, hg, Option.bind_some, insertAll, hg']
        rfl
      · convert hholds' using 1
        funext h
        rw [lastHashed_append]
        by_cases hh : fnv1a64Lower x.1 = h
        · rw [if_pos hh, ← hh, Function.update_self]
          rfl
        · rw [if_neg hh, Function.update_of_ne (Ne.symm hh)]

theorem Holds.eq_none {g : HashTable S} {m : BitVec 64 → Option S} (hm : Holds g m) (hg : Sound g ∨ Fresh g)
    (hempty : g.capacity = 0 ∨ g.count = 0) (h : BitVec 64) : m h = none := by
  have hused : used g.capacity (fun i => cellOf (g.entries i)) = 0 := by
    rcases hempty with hcap | hcount
    · rw [hcap]
      rfl
    · rcases hg with hg | ⟨hcap, -⟩
      · rw [hg.counted, hcount]
      · rw [hcap]
        rfl
  refine Option.eq_none_iff_forall_ne_some.2 fun e he => ?_
  exact not_has_of_used hused h e ((hm h e).2 he)

theorem lookupFirst_spec {g : HashTable PakHashEntry} {m : BitVec 64 → Option PakHashEntry} (hg : Sound g)
    (hm : Holds g m) (paths : List Path) :
    lookupFirst g paths =
      some (paths.findSome? fun path => (m (fnv1a64Lower path)).map PakHashEntry.toPs4PakEntry) := by
  induction paths with
  | nil => rfl
  | cons path paths ih =>
      rw [lookupFirst, lookupHash_spec hg hm, Option.bind_some, List.findSome?_cons]
      cases m (fnv1a64Lower path) with
      | none => exact ih
      | some e => rfl

/-- The look-up of a path returns the last entry with its hash, or that of the first of its parents. -/
theorem pakLookup_hashed (ins : List (Path × Ps4PakEntry)) (hne : ∀ x ∈ ins, fnv1a64Lower x.1 ≠ 0) :
    ∃ g, insertAll ins {} = some g ∧ ∀ subpath, subpath ≠ [] →
      ps4PakLookup g subpath = some ((lastHashed ins (fnv1a64Lower (subpath.dropWhile (· = '/')))).or
        ((localeParents (fit 1024 (subpath.dropWhile (· = '/')))).findSome? fun parent =>
          lastHashed ins (fnv1a64Lower parent))) := by
  obtain ⟨g, hg, hsound, hholds⟩ := insertAll_spec ins hne
  refine ⟨g, hg, fun subpath hsub => ?_⟩
  have hentry : ∀ h, ((lastHashed ins h).map fun e => ({ e with hash := h } : PakHashEntry)).map
      PakHashEntry.toPs4PakEntry = lastHashed ins h := by
    intro h
    cases lastHashed ins h with
    | none => rfl
    | some e => rfl
  rw [ps4PakLookup, if_neg hsub]
  split
  · rename_i hempty
    have hnone : ∀ h, lastHashed ins h = none := by
      intro h
      exact Option.map_eq_none_iff.1 (hholds.eq_none hsound hempty h)
    simp only [hnone, Option.none_or]
    rw [List.findSome?_eq_none_iff.2 fun _ _ => rfl]
  · rename_i hfull
    have hsearch := hsound.resolve_right fun hfresh => hfull (.inl hfresh.1)
    rw [lookupFirst_spec hsearch hholds, List.findSome?_cons]
    simp only [hentry]
    cases lastHashed ins (fnv1a64Lower (subpath.dropWhile (· = '/'))) with
    | none => rfl
    | some e => rfl

theorem localeParents_none {p : Path} (h : getParentLocalePath p 1024 = none) : localeParents p = [] := by
  rw [localeParents]
  split
  · rfl
  · rename_i hsome
    rw [h] at hsome
    cases hsome

theorem localeParents_some {p parent : Path} (h : getParentLocalePath p 1024 = some parent) :
    localeParents p = parent :: localeParents (fit 1024 parent) := by
  rw [localeParents]
  split
  · rename_i hnone
    rw [h] at hnone
    cases hnone
  · rename_i hsome
    rw [h] at hsome
    cases hsome
    rfl

theorem localeParents_of_suffix {p : Path} (h : isResourceBundle p = false) : localeParents p = [] := by
  refine localeParents_none ?_
  simp only [getParentLocalePath, h]
  split
  · rfl
  · rfl

/-- **The index of the archives.**  After any insertions of paths whose hashes are not 0, every search ends.
Where the hash of a path is its own among them, the look-up of it returns the entry inserted last for it, or
if there is none the last one of the first of its parent locales whose hash was inserted; only a resource
bundle has such parents. -/
theorem pakLookup_index (ins : List (Path × Ps4PakEntry)) (hne : ∀ x ∈ ins, fnv1a64Lower x.1 ≠ 0) :
    ∃ g, insertAll ins {} = some g ∧ ∀ subpath, subpath ≠ [] →
      (∀ x ∈ ins, x.1 ≠ subpath.dropWhile (· = '/') →
        fnv1a64Lower x.1 ≠ fnv1a64Lower (subpath.dropWhile (· = '/'))) →
      ps4PakLookup g subpath = some ((lastStored ins (subpath.dropWhile (· = '/'))).or
        ((localeParents (fit 1024 (subpath.dropWhile (· = '/')))).findSome? fun parent =>
          lastHashed ins (fnv1a64Lower parent))) ∧
      (isResourceBundle (fit 1024 (subpath.dropWhile (· = '/'))) = false →
        ps4PakLookup g subpath = some (lastStored ins (subpath.dropWhile (· = '/')))) := by
  obtain ⟨g, hg, hlookup⟩ := pakLookup_hashed ins hne
  refine ⟨g, hg, fun subpath hsub hown => ⟨?_, fun hsuffix => ?_⟩⟩
  · rw [hlookup subpath hsub, lastHashed_eq_lastStored hown]
  · rw [hlookup subpath hsub, lastHashed_eq_lastStored hown, localeParents_of_suffix hsuffix, List.findSome?_nil,
      Option.or_none]

/-- A path inserted twice, and looked up behind a slash. -/
theorem pakLookup_index_twice :
    ∃ g, insertAll [("a.res".toList, { pakFd := 1 }), ("b".toList, { pakFd := 2 }), ("b".toList, { pakFd := 3 })] {} =
      some g ∧ ps4PakLookup g "/b".toList = some (some { pakFd := 3 }) := by
  obtain ⟨g, hg, hlookup⟩ := pakLookup_index
    [("a.res".toList, { pakFd := 1 }), ("b".toList, { pakFd := 2 }), ("b".toList, { pakFd := 3 })] (by decide)
  exact ⟨g, hg, (hlookup "/b".toList (by decide) (by decide)).1.trans (by decide)⟩

/-- A resource bundle that was never inserted is found under the locale above it. -/
theorem pakLookup_parentLocale :
    ∃ g, insertAll [("en.res".toList, { pakFd := 1 })] {} = some g ∧
      fnv1a64Lower "en.res".toList ≠ 0 ∧ fnv1a64Lower "en.res".toList ≠ fnv1a64Lower "en_US.res".toList ∧
      ps4PakLookup g "en_US.res".toList = some (some { pakFd := 1 }) := by
  obtain ⟨g, hg, hlookup⟩ := pakLookup_hashed [("en.res".toList, { pakFd := 1 })] (by decide)
  refine ⟨g, hg, by decide, by decide, (hlookup "en_US.res".toList (by decide)).trans ?_⟩
  have hparent : getParentLocalePath (fit 1024 ("en_US.res".toList.dropWhile (· = '/'))) 1024 =
      some "en.res".toList := by decide
  rw [localeParents_some hparent]
  decide

theorem lastHashed_perm {ins ins' : List (Path × Ps4PakEntry)} (hperm : ins.Perm ins')
    (hdistinct : (ins.map fun x => fnv1a64Lower x.1).Nodup) (h : BitVec 64) :
    lastHashed ins h = lastHashed ins' h := by
  have hrev : ins.reverse.Perm ins'.reverse :=
    (List.reverse_perm ins).trans (hperm.trans (List.reverse_perm ins').symm)
  have hunique : {x ∈ ins.reverse | decide (fnv1a64Lower x.1 = h) = true}.Subsingleton := by
    rintro x ⟨hx, hxh⟩ y ⟨hy, hyh⟩
    exact List.inj_on_of_nodup_map hdistinct (List.mem_reverse.1 hx) (List.mem_reverse.1 hy)
      ((of_decide_eq_true hxh).trans (of_decide_eq_true hyh).symm)
  rw [lastHashed, lastHashed, List.find?_eq_find?_of_perm hrev hunique]

/-- **The order of the insertions** does not matter where no two of the paths have the same hash: every
look-up returns the same. -/
theorem pakLookup_order {ins ins' : List (Path × Ps4PakEntry)} (hperm : ins.Perm ins')
    (hne : ∀ x ∈ ins, fnv1a64Lower x.1 ≠ 0) (hdistinct : (ins.map fun x => fnv1a64Lower x.1).Nodup) :
    ∃ g g', insertAll ins {} = some g ∧ insertAll ins' {} = some g' ∧
      ∀ subpath, ps4PakLookup g subpath = ps4PakLookup g' subpath := by
  obtain ⟨g, hg, hlookup⟩ := pakLookup_hashed ins hne
  obtain ⟨g', hg', hlookup'⟩ := pakLookup_hashed ins' fun x hx => hne x (hperm.mem_iff.2 hx)
  refine ⟨g, g', hg, hg', fun subpath => ?_⟩
  by_cases hsub : subpath = []
  · rw [ps4PakLookup, ps4PakLookup, if_pos hsub, if_pos hsub]
  · rw [hlookup subpath hsub, hlookup' subpath hsub]
    simp only [lastHashed_perm hperm hdistinct]

theorem pakLookup_order_swap :
    ∃ g g', insertAll [("a.res".toList, { pakFd := 1 }), ("b".toList, { pakFd := 2 })] {} = some g ∧
      insertAll [("b".toList, { pakFd := 2 }), ("a.res".toList, { pakFd := 1 })] {} = some g' ∧
      ∀ subpath, ps4PakLookup g subpath = ps4PakLookup g' subpath :=
  pakLookup_order (List.Perm.swap _ _ _) (by decide) (by decide)

end PS4Recomp.Runtime.PakIndex
