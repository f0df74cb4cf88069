import Mathlib

/-!
# Direct mappings

The list of guest ranges that alias physical memory, `g_dmaps` of `ps4_direct_mem.c`.

* `DirectMapping`, `dmLookup` — the mappings and the first one around an address, `physAt` — the
  physical address behind a guest address;
* `unmapLoop`, `onUnmap` — the walk of `ps4_direct_mem_on_unmap`, which edits the list it walks;
* `pieces` — what is left of one mapping, `unmapLoop_cons` — the walk puts it in the mapping's place;
* `Left` — the five ways to take a mapping, `Left.inside`, `Left.outside`, `Left.elsewhere` — a lookup
  in what is left;
* `PartOf`, `Kept` — a part of a range that was found, at the same physical place;
* **`onUnmap_lookup`** — afterwards the unmapped addresses are found in no mapping, and the others as
  before.

Addresses and sizes are 64-bit patterns. The pages themselves, which the walk replaces by fresh ones,
are left out.
-/

namespace PS4Recomp.Runtime

/-- `DirectMapping`. -/
structure DirectMapping where
  vaddr : BitVec 64
  size : BitVec 64
  phys : BitVec 64
  deriving DecidableEq

namespace DirectMapping

/-- `m->vaddr + m->size`. -/
def stop (m : DirectMapping) : BitVec 64 := m.vaddr + m.size

/-- What `dm_lookup` stores. -/
structure Found where
  start : BitVec 64
  stop : BitVec 64
  phys : BitVec 64
  deriving DecidableEq

/-- `dm_lookup`. -/
def dmLookup (addr : BitVec 64) : List DirectMapping → Option Found
  | [] => none
  | m :: rest =>
      if m.vaddr ≤ addr ∧ addr < m.stop then some { start := m.vaddr, stop := m.stop, phys := m.phys }
      else dmLookup addr rest

/-- The physical address behind a guest address. -/
def physAt (addr : BitVec 64) (dmaps : List DirectMapping) : Option (BitVec 64) :=
  (dmLookup addr dmaps).map fun r => r.phys + (addr - r.start)

/-- The start of the part of a mapping to take away. -/
def ostart (addr : BitVec 64) (m : DirectMapping) : BitVec 64 :=
  if addr < m.vaddr then m.vaddr else addr

/-- The end of that part. -/
def oend (stop : BitVec 64) (m : DirectMapping) : BitVec 64 := if m.stop < stop then m.stop else stop

/-- A mapping that ends where the part to take away starts. -/
def front (addr : BitVec 64) (m : DirectMapping) : DirectMapping :=
  { m with size := m.ostart addr - m.vaddr }

/-- A mapping that starts where that part ends. -/
def back (stop : BitVec 64) (m : DirectMapping) : DirectMapping where
  vaddr := m.oend stop
  size := m.stop - m.oend stop
  phys := m.phys + (m.oend stop - m.vaddr)

/-- The tail of a split mapping starts behind the unmapped range. -/
theorem stop_le_back {stop : BitVec 64} {m : DirectMapping} (h : m.oend stop < m.stop) :
    stop ≤ (m.back stop).vaddr := by
  show stop ≤ m.oend stop
  unfold oend at h ⊢
  split at h
  · exact absurd h (BitVec.lt_irrefl _)
  · rename_i hlt
    rw [if_neg hlt]
    exact BitVec.le_refl _

/-- How often the walk looks at a mapping or a tail of it, at most. -/
def visits (stop : BitVec 64) (m : DirectMapping) : ℕ := if stop ≤ m.vaddr then 1 else 2

theorem visits_pos (stop : BitVec 64) (m : DirectMapping) : 0 < visits stop m := by
  rw [visits]
  split <;> omega

/-- The walk of `ps4_direct_mem_on_unmap`; `calloc` tells whether the tails of splits are allocated.
After a split it goes on at the tail. -/
def unmapLoop (calloc : Bool) (addr stop : BitVec 64) : List DirectMapping → List DirectMapping
  | [] => []
  | m :: rest =>
      if hmiss : stop ≤ m.vaddr ∨ m.stop ≤ addr then m :: unmapLoop calloc addr stop rest
      else if hsplit : m.vaddr < m.ostart addr ∧ m.oend stop < m.stop then
        m.front addr ::
          if calloc then unmapLoop calloc addr stop (m.back stop :: rest)
          else unmapLoop calloc addr stop rest
      else if m.vaddr < m.ostart addr then m.front addr :: unmapLoop calloc addr stop rest
      else if m.oend stop < m.stop then m.back stop :: unmapLoop calloc addr stop rest
      else unmapLoop calloc addr stop rest
termination_by dmaps => (dmaps.map (visits stop)).sum
decreasing_by
  all_goals simp only [List.map_cons, List.sum_cons]
  all_goals have hpos := visits_pos stop m
  case _ =>
    omega
  case _ =>
    have hback := stop_le_back hsplit.2
    rw [not_or] at hmiss
    rw [visits, visits, if_pos hback, if_neg hmiss.1]
    omega
  all_goals omega

/-- `ps4_direct_mem_on_unmap`. -/
def onUnmap (calloc : Bool) (addr size : BitVec 64) (dmaps : List DirectMapping) :
    List DirectMapping :=
  if size = 0 then dmaps else unmapLoop calloc addr (addr + size) dmaps

/-! ### the walk -/

/-- What is left of one mapping. -/
def pieces (calloc : Bool) (addr stop : BitVec 64) (m : DirectMapping) : List DirectMapping :=
  if stop ≤ m.vaddr ∨ m.stop ≤ addr then [m]
  else if m.vaddr < m.ostart addr ∧ m.oend stop < m.stop then
    m.front addr :: if calloc then [m.back stop] else []
  else if m.vaddr < m.ostart addr then [m.front addr]
  else if m.oend stop < m.stop then [m.back stop]
  else []

variable {calloc : Bool} {addr stop : BitVec 64} {m : DirectMapping} {rest : List DirectMapping}

theorem unmapLoop_miss (h : stop ≤ m.vaddr ∨ m.stop ≤ addr) :
    unmapLoop calloc addr stop (m :: rest) = m :: unmapLoop calloc addr stop rest := by
  rw [unmapLoop, dif_pos h]

/-- **One mapping**: what is left of it stands in its place, the walk passes over the tail of a split. -/
theorem unmapLoop_cons :
    unmapLoop calloc addr stop (m :: rest) =
      pieces calloc addr stop m ++ unmapLoop calloc addr stop rest := by
  rw [pieces]
  by_cases hmiss : stop ≤ m.vaddr ∨ m.stop ≤ addr
  · rw [if_pos hmiss, unmapLoop_miss hmiss]
    rfl
  rw [if_neg hmiss, unmapLoop, dif_neg hmiss]
  by_cases hsplit : m.vaddr < m.ostart addr ∧ m.oend stop < m.stop
  · rw [dif_pos hsplit, if_pos hsplit]
    cases calloc with
    | true => rw [if_pos rfl, if_pos rfl, unmapLoop_miss (.inl (stop_le_back hsplit.2))]; rfl
    | false => rfl
  rw [dif_neg hsplit, if_neg hsplit]
  by_cases hfront : m.vaddr < m.ostart addr
  · rw [if_pos hfront, if_pos hfront]
    rfl
  rw [if_neg hfront, if_neg hfront]
  by_cases hback : m.oend stop < m.stop
  · rw [if_pos hback, if_pos hback]
    rfl
  · rw [if_neg hback, if_neg hback]
    rfl

/-! ### lookups -/

/-- The mapping has an address. -/
def Has (m : DirectMapping) (a : BitVec 64) : Prop := m.vaddr ≤ a ∧ a < m.stop

instance (m : DirectMapping) (a : BitVec 64) : Decidable (m.Has a) :=
  inferInstanceAs (Decidable (m.vaddr ≤ a ∧ a < m.stop))

theorem has_iff {a : BitVec 64} :
    m.Has a ↔ m.vaddr.toNat ≤ a.toNat ∧ a.toNat < m.stop.toNat := Iff.rfl

theorem ostart_toNat : (m.ostart addr).toNat = max m.vaddr.toNat addr.toNat := by
  rw [ostart]
  split
  · rename_i h
    rw [BitVec.lt_def] at h
    omega
  · rename_i h
    rw [BitVec.not_lt, BitVec.le_def] at h
    omega

theorem oend_toNat : (m.oend stop).toNat = min m.stop.toNat stop.toNat := by
  rw [oend]
  split
  · rename_i h
    rw [BitVec.lt_def] at h
    omega
  · rename_i h
    rw [BitVec.not_lt, BitVec.le_def] at h
    omega

theorem front_stop : (m.front addr).stop = m.ostart addr := by
  show m.vaddr + (m.ostart addr - m.vaddr) = m.ostart addr
  rw [add_sub_cancel]

theorem back_stop : (m.back stop).stop = m.stop := by
  show m.oend stop + (m.stop - m.oend stop) = m.stop
  rw [add_sub_cancel]

theorem has_front {a : BitVec 64} :
    (m.front addr).Has a ↔ m.vaddr.toNat ≤ a.toNat ∧ a.toNat < max m.vaddr.toNat addr.toNat := by
  rw [has_iff, front_stop, ostart_toNat]
  rfl

theorem has_back {a : BitVec 64} :
    (m.back stop).Has a ↔ min m.stop.toNat stop.toNat ≤ a.toNat ∧ a.toNat < m.stop.toNat := by
  rw [has_iff, back_stop, ← oend_toNat]
  rfl

theorem dmLookup_cons {a : BitVec 64} :
    dmLookup a (m :: rest) =
      if m.Has a then some { start := m.vaddr, stop := m.stop, phys := m.phys }
      else dmLookup a rest := rfl

/-- How the walk takes a mapping, and what is left. -/
inductive Left (addr stop : BitVec 64) (m : DirectMapping) : List DirectMapping → Prop
  | whole : stop.toNat ≤ m.vaddr.toNat ∨ m.stop.toNat ≤ addr.toNat → Left addr stop m [m]
  | both : m.vaddr.toNat < addr.toNat → stop.toNat < m.stop.toNat →
      Left addr stop m [m.front addr, m.back stop]
  | front : m.vaddr.toNat < addr.toNat → addr.toNat < m.stop.toNat → m.stop.toNat ≤ stop.toNat →
      Left addr stop m [m.front addr]
  | back : addr.toNat ≤ m.vaddr.toNat → m.vaddr.toNat < stop.toNat → stop.toNat < m.stop.toNat →
      Left addr stop m [m.back stop]
  | gone : addr.toNat ≤ m.vaddr.toNat → m.stop.toNat ≤ stop.toNat → Left addr stop m []

theorem pieces_left : Left addr stop m (pieces true addr stop m) := by
  rw [pieces]
  by_cases hmiss : stop ≤ m.vaddr ∨ m.stop ≤ addr
  · rw [if_pos hmiss]
    exact .whole hmiss
  rw [if_neg hmiss]
  simp only [BitVec.lt_def, BitVec.le_def, ostart_toNat, oend_toNat] at hmiss ⊢
  by_cases hfront : m.vaddr.toNat < addr.toNat
  · by_cases hback : stop.toNat < m.stop.toNat
    · rw [if_pos (by omega)]
      exact .both hfront hback
    · rw [if_neg (by omega), if_pos (by omega)]
      exact .front hfront (by omega) (by omega)
  · rw [if_neg (by omega), if_neg (by omega)]
    by_cases hback : stop.toNat < m.stop.toNat
    · rw [if_pos (by omega)]
      exact .back (by omega) (by omega) hback
    · rw [if_neg (by omega)]
      exact .gone (by omega) (by omega)

theorem dmLookup_skip {a : BitVec 64} (h : ¬ m.Has a) : dmLookup a (m :: rest) = dmLookup a rest := by
  rw [dmLookup_cons, if_neg h]

theorem Left.inside {left : List DirectMapping} (h : Left addr stop m left) {a : BitVec 64}
    (hlo : addr.toNat ≤ a.toNat) (hhi : a.toNat < stop.toNat) :
    dmLookup a (left ++ rest) = dmLookup a rest := by
  cases h with
  | whole hmiss => exact dmLookup_skip (by rw [has_iff]; omega)
  | both hfront hback =>
      have hskip : ¬ (m.front addr).Has a := by rw [has_front]; omega
      have hskip' : ¬ (m.back stop).Has a := by rw [has_back]; omega
      exact (dmLookup_skip hskip).trans (dmLookup_skip hskip')
  | front hfront hmeets hend => exact dmLookup_skip (by rw [has_front]; omega)
  | back hstart hmeets hback => exact dmLookup_skip (by rw [has_back]; omega)
  | gone => rfl

/-- A part of a range at the same physical place. -/
structure PartOf (r' r : Found) : Prop where
  start_le : r.start ≤ r'.start
  le_stop : r'.stop ≤ r.stop
  phys : r'.phys = r.phys + (r'.start - r.start)

/-- What a lookup of the address finds in a mapping. -/
def found (m : DirectMapping) : Found := { start := m.vaddr, stop := m.stop, phys := m.phys }

theorem partOf_self : PartOf m.found m.found := by
  refine ⟨BitVec.le_refl _, BitVec.le_refl _, ?_⟩
  rw [sub_self, add_zero]

theorem partOf_front (h : addr.toNat ≤ m.stop.toNat) (h' : m.vaddr.toNat ≤ m.stop.toNat) :
    PartOf (m.front addr).found m.found := by
  refine ⟨BitVec.le_refl _, ?_, ?_⟩
  · show (m.front addr).stop ≤ m.stop
    rw [front_stop, BitVec.le_def, ostart_toNat]
    omega
  · show m.phys = m.phys + (m.vaddr - m.vaddr)
    rw [sub_self, add_zero]

theorem partOf_back (h : m.vaddr.toNat ≤ stop.toNat) (h' : m.vaddr.toNat ≤ m.stop.toNat) :
    PartOf (m.back stop).found m.found := by
  refine ⟨?_, ?_, rfl⟩
  · show m.vaddr ≤ m.oend stop
    rw [BitVec.le_def, oend_toNat]
    omega
  · show (m.back stop).stop ≤ m.stop
    rw [back_stop]
    exact BitVec.le_refl _

/-- An address outside the unmapped range that the mapping has is in one of the pieces. -/
theorem Left.outside {left : List DirectMapping} (rest : List DirectMapping) (h : Left addr stop m left)
    (hrange : addr.toNat ≤ stop.toNat) {a : BitVec 64}
    (hout : ¬ (addr.toNat ≤ a.toNat ∧ a.toNat < stop.toNat)) (hin : m.Has a) :
    ∃ r, dmLookup a (left ++ rest) = some r ∧ PartOf r m.found := by
  rw [has_iff] at hin
  cases h with
  | whole hmiss => exact ⟨m.found, if_pos (has_iff.2 hin), partOf_self⟩
  | both hfront hback =>
      by_cases hlt : a.toNat < addr.toNat
      · have hhas : (m.front addr).Has a := by rw [has_front]; omega
        exact ⟨(m.front addr).found, if_pos hhas, partOf_front (by omega) (by omega)⟩
      · have hskip : ¬ (m.front addr).Has a := by rw [has_front]; omega
        have hhas : (m.back stop).Has a := by rw [has_back]; omega
        exact ⟨(m.back stop).found, (dmLookup_skip hskip).trans (if_pos hhas),
          partOf_back (by omega) (by omega)⟩
  | front hfront hmeets hend =>
      have hhas : (m.front addr).Has a := by rw [has_front]; omega
      exact ⟨(m.front addr).found, if_pos hhas, partOf_front (by omega) (by omega)⟩
  | back hstart hmeets hback =>
      have hhas : (m.back stop).Has a := by rw [has_back]; omega
      exact ⟨(m.back stop).found, if_pos hhas, partOf_back (by omega) (by omega)⟩
  | gone hstart hend => omega

theorem Left.elsewhere {left : List DirectMapping} (h : Left addr stop m left)
    (hrange : addr.toNat ≤ stop.toNat) {a : BitVec 64} (hin : ¬ m.Has a) :
    dmLookup a (left ++ rest) = dmLookup a rest := by
  rw [has_iff] at hin
  cases h with
  | whole hmiss => exact dmLookup_skip (by rwa [has_iff])
  | both hfront hback =>
      have hskip : ¬ (m.front addr).Has a := by rw [has_front]; omega
      have hskip' : ¬ (m.back stop).Has a := by rw [has_back]; omega
      exact (dmLookup_skip hskip).trans (dmLookup_skip hskip')
  | front hfront hmeets hend => exact dmLookup_skip (by rw [has_front]; omega)
  | back hstart hmeets hback => exact dmLookup_skip (by rw [has_back]; omega)
  | gone => rfl

/-! ### the whole walk -/

theorem unmapLoop_inside (dmaps : List DirectMapping) {a : BitVec 64}
    (hlo : addr.toNat ≤ a.toNat) (hhi : a.toNat < stop.toNat) :
    dmLookup a (unmapLoop true addr stop dmaps) = none := by
  induction dmaps with
  | nil =>
      rw [unmapLoop]
      rfl
  | cons m rest ih => rw [unmapLoop_cons, pieces_left.inside hlo hhi, ih]

/-- What the walk leaves of a lookup outside the range. -/
inductive Kept : Option Found → Option Found → Prop
  | none : Kept none none
  | some {r' r : Found} : PartOf r' r → Kept (some r') (some r)

theorem unmapLoop_outside (dmaps : List DirectMapping) (hrange : addr.toNat ≤ stop.toNat) {a : BitVec 64}
    (hout : ¬ (addr.toNat ≤ a.toNat ∧ a.toNat < stop.toNat)) :
    Kept (dmLookup a (unmapLoop true addr stop dmaps)) (dmLookup a dmaps) := by
  induction dmaps with
  | nil =>
      rw [unmapLoop]
      exact .none
  | cons m rest ih =>
      rw [unmapLoop_cons, dmLookup_cons]
      by_cases hin : m.Has a
      · obtain ⟨r, hr, hpart⟩ := pieces_left.outside (unmapLoop true addr stop rest) hrange hout hin
        rw [hr, if_pos hin]
        exact .some hpart
      · rw [pieces_left.elsewhere hrange hin, if_neg hin]
        exact ih

theorem Kept.physAt {found found' : Option Found} (h : Kept found' found) (a : BitVec 64) :
    (found'.map fun r => r.phys + (a - r.start)) = found.map fun r => r.phys + (a - r.start) := by
  cases h with
  | none => rfl
  | @some r' r hpart =>
      rw [Option.map_some, Option.map_some, hpart.phys, add_assoc, sub_add_sub_cancel']

/-- **Unmapping.**  When the addresses of the range do not wrap and the tails of splits are allocated,
a lookup finds none of the unmapped addresses afterwards; of every other address it finds the same
physical address as before, in a part of the mapping that it found, and none where it found none. -/
theorem onUnmap_lookup (dmaps : List DirectMapping) {addr size : BitVec 64}
    (hwrap : addr.toNat + size.toNat < 2 ^ 64) (a : BitVec 64) :
    (addr.toNat ≤ a.toNat → a.toNat < addr.toNat + size.toNat →
      dmLookup a (onUnmap true addr size dmaps) = none) ∧
    (¬ (addr.toNat ≤ a.toNat ∧ a.toNat < addr.toNat + size.toNat) →
      physAt a (onUnmap true addr size dmaps) = physAt a dmaps ∧
      Kept (dmLookup a (onUnmap true addr size dmaps)) (dmLookup a dmaps)) := by
  have hstop : (addr + size).toNat = addr.toNat + size.toNat := BitVec.toNat_add_of_lt hwrap
  rw [onUnmap]
  by_cases hzero : size = 0
  · have hz : size.toNat = 0 := by
      rw [hzero]
      rfl
    rw [if_pos hzero]
    refine ⟨fun hlo hhi => by omega, fun _ => ⟨rfl, ?_⟩⟩
    cases dmLookup a dmaps with
    | none => exact .none
    | some r =>
        refine .some ⟨BitVec.le_refl _, BitVec.le_refl _, ?_⟩
        rw [sub_self, add_zero]
  · rw [if_neg hzero, ← hstop]
    refine ⟨fun hlo hhi => unmapLoop_inside dmaps hlo hhi, fun hout => ?_⟩
    have hkept := unmapLoop_outside dmaps (by omega) hout
    exact ⟨hkept.physAt a, hkept⟩

/-- A page taken out of the middle of a mapping of three. -/
theorem onUnmap_lookup_page :
    dmLookup 0x5008 (onUnmap true 0x5000 0x1000 [⟨0x4000, 0x3000, 0x80000⟩]) = none ∧
      physAt 0x6008 (onUnmap true 0x5000 0x1000 [⟨0x4000, 0x3000, 0x80000⟩]) = some 0x82008 := by
  have hinside := onUnmap_lookup [⟨0x4000, 0x3000, 0x80000⟩]
    (by decide : (0x5000 : BitVec 64).toNat + (0x1000 : BitVec 64).toNat < 2 ^ 64) 0x5008
  have houtside := onUnmap_lookup [⟨0x4000, 0x3000, 0x80000⟩]
    (by decide : (0x5000 : BitVec 64).toNat + (0x1000 : BitVec 64).toNat < 2 ^ 64) 0x6008
  refine ⟨hinside.1 (by decide) (by decide), ?_⟩
  rw [(houtside.2 (by decide)).1]
  decide

end DirectMapping

end PS4Recomp.Runtime
