import PS4Recomp.Library.Rounding
import PS4Recomp.Runtime.VmFree

/-!
# Fixed mappings

What `recomp_vm_alloc_fixed` does to the extents around the range it maps.

* `recompVmFind` — the extent of an address, `Apart.find_iff` — the one that has it;
* `attrAt` — what the list says about an address: free or not, the name and the protection;
* `carveEnd` — where a carved mapping ends, `carve_parts` — its pieces;
* `FixedExact` — exactly the pages of the range are mapped as requested, and nothing else changes;
* `Blank` — a free extent without a name or a protection, `FixedSuits` — what it takes;
* **`allocFixed_exact`** — a fixed mapping is exact exactly in an extent that suits it, and one that
  fails changes nothing;
* `allocFixed_reserved` — a page mapped inside a reserved extent frees the rest of it.
-/

namespace PS4Recomp.Runtime

open Library

variable {M : ℕ} {l l' pre post : List GuestVMExtent} {e m : GuestVMExtent}

/-- The test of `recomp_vm_find`. -/
def GuestVMExtent.around (addr : BitVec 64) (e : GuestVMExtent) : Bool :=
  decide (e.addr ≤ addr) && decide (addr < e.stop)

/-- `recomp_vm_find`. -/
def recompVmFind (addr : BitVec 64) (l : List GuestVMExtent) : Option GuestVMExtent :=
  l.find? (GuestVMExtent.around addr)

theorem around_iff {addr : BitVec 64} (h : e.addr.toNat + e.size.toNat < 2 ^ 64) :
    e.around addr = true ↔ e.Has addr.toNat := by
  rw [GuestVMExtent.around, Bool.and_eq_true, decide_eq_true_iff, decide_eq_true_iff, BitVec.le_def, BitVec.lt_def,
    toNat_stop h]
  rfl

/-- In a list without overlaps an address is in the extent that is found. -/
theorem Apart.find_iff (h : Apart M l) (hM : M < 2 ^ 64) {addr : BitVec 64} :
    recompVmFind addr l = some e ↔ e ∈ l ∧ e.Has addr.toNat := by
  have hhas : ∀ c ∈ l, c.around addr = true ↔ c.Has addr.toNat :=
    fun c hc => around_iff (Nat.lt_of_le_of_lt (h.bounded c hc) hM)
  constructor
  · intro hfind
    have hmem := List.mem_of_find?_eq_some hfind
    exact ⟨hmem, (hhas e hmem).1 (List.find?_some (p := GuestVMExtent.around addr) hfind)⟩
  · intro he
    obtain ⟨hmem, hx⟩ := he
    cases hfind : recompVmFind addr l with
    | none => exact absurd ((hhas e hmem).2 hx) (List.find?_eq_none.1 hfind e hmem)
    | some c =>
        have hc := List.mem_of_find?_eq_some hfind
        have hcx := (hhas c hc).1 (List.find?_some (p := GuestVMExtent.around addr) hfind)
        rw [h.unique hc hmem hcx hx]

theorem Apart.find_none (h : Apart M l) (hM : M < 2 ^ 64) {addr : BitVec 64} :
    recompVmFind addr l = none ↔ ∀ e ∈ l, ¬ e.Has addr.toNat := by
  constructor
  · intro hnone e he hx
    rw [(h.find_iff hM).2 ⟨he, hx⟩] at hnone
    cases hnone
  · intro hnone
    cases hfind : recompVmFind addr l with
    | none => rfl
    | some c =>
        obtain ⟨hc, hx⟩ := (h.find_iff hM).1 hfind
        exact absurd hx (hnone c hc)

/-- What the list says about an address: whether it is free, the name and the protection. -/
def attrAt (addr : BitVec 64) (l : List GuestVMExtent) : Option (Bool × List Char × BitVec 32) :=
  (recompVmFind addr l).map fun e => (e.isFree, e.name, e.prot)

/-! ### a carved range -/

/-- The end of a carved mapping: without `calloc` for what is left behind it, it takes that too. -/
def carveEnd (callocSplit : Bool) (start len : BitVec 64) (e : GuestVMExtent) : ℕ :=
  if callocSplit then start.toNat + len.toNat else e.addr.toNat + e.size.toNat

/-- A free piece without a name or a protection. -/
def freePiece (addr : BitVec 64) (n : ℕ) : GuestVMExtent :=
  { addr, size := BitVec.ofNat 64 n, isFree := true }

/-- The pieces of a carved extent. -/
structure Carved (callocSplit : Bool) (start len : BitVec 64) (prot : BitVec 32)
    (name : Option (List Char)) (e : GuestVMExtent) (front : List GuestVMExtent) (m : GuestVMExtent)
    (back : List GuestVMExtent) : Prop where
  addr : m.addr = start
  stop : m.addr.toNat + m.size.toNat = carveEnd callocSplit start len e
  attrs : m.isFree = false ∧ m.name = extentName name ∧ m.prot = prot
  front : ∀ c, c ∈ front ↔ e.addr < start ∧ c = freePiece e.addr (start.toNat - e.addr.toNat)
  back : ∀ c, c ∈ back ↔ carveEnd callocSplit start len e < e.addr.toNat + e.size.toNat ∧
    c = freePiece (start + len) (e.addr.toNat + e.size.toNat - carveEnd callocSplit start len e)

theorem carve_parts {cp cs : Bool} {start len : BitVec 64} {prot flags : BitVec 32}
    {name : Option (List Char)} {front back : List GuestVMExtent}
    (htot : e.addr.toNat + e.size.toNat < 2 ^ 64) (hstart : e.addr.toNat ≤ start.toNat)
    (hend : start.toNat + len.toNat ≤ e.addr.toNat + e.size.toNat)
    (h : e.carve cp cs start len prot flags name = some (front, m, back)) :
    Carved cs start len prot name e front m back := by
  have hfront : (start - e.addr).toNat = start.toNat - e.addr.toNat :=
    BitVec.toNat_sub_of_le (BitVec.le_def.2 hstart)
  have hrest : (e.size - (start - e.addr)).toNat =
      e.size.toNat - (start.toNat - e.addr.toNat) := by
    rw [BitVec.toNat_sub_of_le (by rw [BitVec.le_def, hfront]; omega), hfront]
  -- the mapping and what is left behind it
  have hback : ∀ (cut : GuestVMExtent) (back : List GuestVMExtent),
      (if len < e.size - (start - e.addr) ∧ cs then
        (GuestVMExtent.mapped prot flags name { e with addr := start, size := len },
          [{ addr := start + len, size := e.size - (start - e.addr) - len, isFree := true }])
      else (GuestVMExtent.mapped prot flags name
        { e with addr := start, size := e.size - (start - e.addr) }, [])) = (cut, back) →
      cut.addr = start ∧ cut.addr.toNat + cut.size.toNat = carveEnd cs start len e ∧
        (cut.isFree = false ∧ cut.name = extentName name ∧ cut.prot = prot) ∧
        ∀ c, c ∈ back ↔ carveEnd cs start len e < e.addr.toNat + e.size.toNat ∧
          c = freePiece (start + len) (e.addr.toNat + e.size.toNat - carveEnd cs start len e) := by
    intro cut back heq
    rw [carveEnd]
    by_cases hsplit : len < e.size - (start - e.addr) ∧ cs
    · rw [if_pos hsplit] at heq
      cases heq
      obtain ⟨hlt, rfl⟩ := hsplit
      rw [BitVec.lt_def, hrest] at hlt
      have hn : (e.size - (start - e.addr) - len).toNat =
          e.addr.toNat + e.size.toNat - (start.toNat + len.toNat) := by
        rw [BitVec.toNat_sub_of_le (by rw [BitVec.le_def, hrest]; omega), hrest]
        omega
      refine ⟨rfl, rfl, ⟨rfl, rfl, rfl⟩, fun c => ?_⟩
      rw [if_pos rfl, freePiece, ← hn, BitVec.ofNat_toNat, BitVec.setWidth_eq, List.mem_singleton,
        and_iff_right (by omega)]
    · rw [if_neg hsplit] at heq
      cases heq
      have hsame : (if cs = true then start.toNat + len.toNat else e.addr.toNat + e.size.toNat) =
          e.addr.toNat + e.size.toNat := by
        cases cs with
        | false => rfl
        | true =>
            have hge : ¬ len < e.size - (start - e.addr) := fun hlt => hsplit ⟨hlt, rfl⟩
            rw [BitVec.lt_def, hrest] at hge
            rw [if_pos rfl]
            omega
      rw [hsame]
      refine ⟨rfl, ?_, ⟨rfl, rfl, rfl⟩, fun c => ?_⟩
      · show start.toNat + (e.size - (start - e.addr)).toNat = _
        omega
      · exact iff_of_false (fun hc => by cases hc) fun hc => absurd hc.1 (lt_irrefl _)
  rw [GuestVMExtent.carve] at h
  dsimp only at h
  generalize hcut : (if len < e.size - (start - e.addr) ∧ cs = true then _ else _) = cut at h
  obtain ⟨cut, back'⟩ := cut
  obtain ⟨haddr, hstop, hattrs, hmem⟩ := hback cut back' hcut
  by_cases hlt : e.addr < start
  · rw [if_pos hlt] at h
    cases cp with
    | false => cases h
    | true =>
        cases h
        refine ⟨haddr, hstop, hattrs, fun c => ?_, hmem⟩
        rw [freePiece, ← hfront, BitVec.ofNat_toNat, BitVec.setWidth_eq, List.mem_singleton,
          and_iff_right hlt]
  · rw [if_neg hlt] at h
    cases h
    refine ⟨haddr, hstop, hattrs, fun c => ?_, hmem⟩
    exact iff_of_false (fun hc => by cases hc) fun hc => hlt hc.1

/-! ### exact mappings -/

theorem Apart.attrAt_of_mem (h : Apart M l) (hM : M < 2 ^ 64) (he : e ∈ l) {addr : BitVec 64}
    (hx : e.Has addr.toNat) : attrAt addr l = some (e.isFree, e.name, e.prot) := by
  rw [attrAt, (h.find_iff hM).2 ⟨he, hx⟩]
  rfl

/-- Pieces in the place of an extent change nothing outside it. -/
theorem Apart.find_replace (h : Apart M (pre ++ e :: post)) (h' : Apart M (pre ++ l ++ post))
    (hM : M < 2 ^ 64) (hin : ∀ c ∈ l, ∀ x, c.Has x → e.Has x) {addr : BitVec 64}
    (hout : ¬ e.Has addr.toNat) :
    recompVmFind addr (pre ++ l ++ post) = recompVmFind addr (pre ++ e :: post) := by
  cases hfind : recompVmFind addr (pre ++ e :: post) with
  | none =>
      rw [h.find_none hM] at hfind
      rw [h'.find_none hM]
      intro c hc hx
      rcases List.mem_append.1 hc with hc | hc
      · rcases List.mem_append.1 hc with hc | hc
        · exact hfind c (List.mem_append_left _ hc) hx
        · exact hout (hin c hc _ hx)
      · exact hfind c (List.mem_append_right _ (List.mem_cons_of_mem _ hc)) hx
  | some c =>
      obtain ⟨hc, hx⟩ := (h.find_iff hM).1 hfind
      refine (h'.find_iff hM).2 ⟨?_, hx⟩
      rcases List.mem_append.1 hc with hc | hc
      · exact List.mem_append_left _ (List.mem_append_left _ hc)
      · rcases List.mem_cons.1 hc with heq | hc
        · rw [heq] at hx
          exact absurd hx hout
        · exact List.mem_append_right _ hc

/-- An address of a page of the range. -/
def InPages (desired size addr : BitVec 64) : Prop :=
  (pageDown desired).toNat ≤ addr.toNat ∧ addr.toNat < roundUp (desired.toNat + size.toNat) 4096

/-- Exactly the pages of the range become the mapping, with its name and protection, and every other
address stays free or not and keeps its name and protection. -/
structure FixedExact (desired size : BitVec 64) (prot : BitVec 32) (name : Option (List Char))
    (l l' : List GuestVMExtent) (m : GuestVMExtent) : Prop where
  mapping : ∀ a : BitVec 64, m.Has a.toNat ↔ InPages desired size a
  inside : ∀ a : BitVec 64, InPages desired size a → attrAt a l' = some (false, extentName name, prot)
  outside : ∀ a : BitVec 64, ¬ InPages desired size a → attrAt a l' = attrAt a l

/-- A free extent without a name or a protection left over from an earlier mapping. -/
structure GuestVMExtent.Blank (e : GuestVMExtent) : Prop where
  free : e.isFree = true
  name : e.name = []
  prot : e.prot = 0

/-- The mapping ends where the pages of the range do, and what is left of the extent is blank. -/
structure FixedSuits (callocSplit : Bool) (desired size : BitVec 64) (e : GuestVMExtent) : Prop where
  stop : carveEnd callocSplit (pageDown desired) (pageUp size) e =
    roundUp (desired.toNat + size.toNat) 4096
  front : e.addr < pageDown desired → e.Blank
  back : carveEnd callocSplit (pageDown desired) (pageUp size) e < e.addr.toNat + e.size.toNat → e.Blank

theorem blank_iff : (e.isFree, e.name, e.prot) = (true, [], 0) ↔ e.Blank := by
  rw [Prod.mk.injEq, Prod.mk.injEq]
  exact ⟨fun h => ⟨h.1, h.2.1, h.2.2⟩, fun h => ⟨h.free, h.name, h.prot⟩⟩

/-- **A carved range** is exact exactly when the extent suits it. -/
theorem fixedExact_iff {cp cs : Bool} {desired size : BitVec 64} {prot flags : BitVec 32}
    {name : Option (List Char)} {front back : List GuestVMExtent} (hM : M < 2 ^ 64)
    (h : Apart M (pre ++ e :: post)) (hsize : size ≠ 0)
    (hstart : e.addr.toNat ≤ (pageDown desired).toNat)
    (hend : (pageDown desired).toNat + (pageUp size).toNat ≤ e.addr.toNat + e.size.toNat)
    (hcarve : e.carve cp cs (pageDown desired) (pageUp size) prot flags name = some (front, m, back)) :
    FixedExact desired size prot name (pre ++ e :: post) (pre ++ (front ++ m :: back) ++ post) m ↔
      FixedSuits cs desired size e := by
  have hbound : e.addr.toNat + e.size.toNat ≤ M := h.middle
  have hparts := carve_parts (Nat.lt_of_le_of_lt hbound hM) hstart hend hcarve
  obtain ⟨-, -, -, htiles, -, -⟩ := carve_spec (Nat.lt_of_le_of_lt hbound hM) hstart hend hcarve
  obtain ⟨hpieces, hin⟩ := apart_tiles hbound htiles
  have h' : Apart M (pre ++ (front ++ m :: back) ++ post) := h.replace hpieces hin
  obtain ⟨haddr, hstop, ⟨hfree, hname, hprot⟩, hfront, hback⟩ := hparts
  have hstop' := (apart_tiles hbound htiles).1.bounded m (by simp)
  have hle : carveEnd cs (pageDown desired) (pageUp size) e ≤ e.addr.toNat + e.size.toNat := by
    rw [carveEnd]
    split <;> omega
  have hge : (pageDown desired).toNat ≤ carveEnd cs (pageDown desired) (pageUp size) e := by
    rw [← hstop, haddr]
    omega
  generalize hE : carveEnd cs (pageDown desired) (pageUp size) e = stop at *
  have hrange : (pageDown desired).toNat < roundUp (desired.toNat + size.toNat) 4096 := by
    have hdown : (pageDown desired).toNat ≤ desired.toNat := toNat_and_not_le desired 4095
    have hup := le_roundUp (desired.toNat + size.toNat) (by omega : 0 < 4096)
    have hpos : size.toNat ≠ 0 := fun hz => hsize (BitVec.eq_of_toNat_eq hz)
    omega
  have hmhas : ∀ a : BitVec 64, m.Has a.toNat ↔ (pageDown desired).toNat ≤ a.toNat ∧ a.toNat < stop := by
    intro a
    rw [GuestVMExtent.Has, hstop, haddr]
  -- an address of the extent outside the mapping is in one of the blank pieces
  have hleft : ∀ a : BitVec 64, e.Has a.toNat → ¬ m.Has a.toNat →
      attrAt a (pre ++ (front ++ m :: back) ++ post) = some (true, [], 0) ∧
        (e.addr < pageDown desired ∨ stop < e.addr.toNat + e.size.toNat) := by
    intro a ha hnot
    rw [hmhas] at hnot
    by_cases hlow : a.toNat < (pageDown desired).toNat
    · have hlt : e.addr < pageDown desired := by
        rw [BitVec.lt_def]
        exact Nat.lt_of_le_of_lt ha.1 hlow
      have hmem := (hfront _).2 ⟨hlt, rfl⟩
      refine ⟨h'.attrAt_of_mem hM (List.mem_append_left _ (List.mem_append_right _
        (List.mem_append_left _ hmem))) ⟨ha.1, ?_⟩, .inl hlt⟩
      show a.toNat < e.addr.toNat + (BitVec.ofNat 64 ((pageDown desired).toNat - e.addr.toNat)).toNat
      rw [BitVec.toNat_ofNat, Nat.mod_eq_of_lt (by omega)]
      omega
    · have hlt : stop < e.addr.toNat + e.size.toNat := by
        have hhi := ha.2
        omega
      have hmem := (hback _).2 ⟨hlt, rfl⟩
      have hcs : stop = (pageDown desired).toNat + (pageUp size).toNat := by
        rw [carveEnd] at hE
        split at hE <;> omega
      have hnext : (pageDown desired + pageUp size).toNat = stop := by
        rw [BitVec.toNat_add_of_lt (by omega), hcs]
      refine ⟨h'.attrAt_of_mem hM (List.mem_append_left _ (List.mem_append_right _
        (List.mem_append_right _ (List.mem_cons_of_mem _ hmem)))) ⟨?_, ?_⟩, .inr hlt⟩
      · show (pageDown desired + pageUp size).toNat ≤ a.toNat
        omega
      · show a.toNat < (pageDown desired + pageUp size).toNat +
          (BitVec.ofNat 64 (e.addr.toNat + e.size.toNat - stop)).toNat
        rw [hnext, BitVec.toNat_ofNat, Nat.mod_eq_of_lt (by omega)]
        have hhi := ha.2
        omega
  have hold : ∀ a : BitVec 64, e.Has a.toNat →
      attrAt a (pre ++ e :: post) = some (e.isFree, e.name, e.prot) :=
    fun a ha => h.attrAt_of_mem hM (List.mem_append_right _ List.mem_cons_self) ha
  constructor
  · intro hexact
    -- the mapping and the pages have the same addresses, so they end at the same place
    have hsame : stop = roundUp (desired.toNat + size.toNat) 4096 := by
      have hpages : ∀ n < 2 ^ 64, ((pageDown desired).toNat ≤ n ∧ n < stop ↔
          (pageDown desired).toNat ≤ n ∧ n < roundUp (desired.toNat + size.toNat) 4096) := by
        intro n hn
        have hmap := hexact.mapping (BitVec.ofNat 64 n)
        rwa [hmhas, InPages, BitVec.toNat_ofNat, Nat.mod_eq_of_lt hn] at hmap
      by_contra hne
      rcases Nat.lt_or_gt_of_ne hne with hlt | hgt
      · have hcut := hpages stop (by omega)
        omega
      · have hcut := hpages (roundUp (desired.toNat + size.toNat) 4096) (by omega)
        omega
    have hblank : ∀ a : BitVec 64, e.Has a.toNat → ¬ m.Has a.toNat → e.Blank := by
      intro a ha hnot
      have hout := hexact.outside a fun hc => hnot ((hexact.mapping a).2 hc)
      rw [(hleft a ha hnot).1, hold a ha] at hout
      exact blank_iff.1 (Option.some.inj hout).symm
    refine ⟨by rw [hE]; exact hsame, fun hlt => ?_, fun hlt => ?_⟩
    · rw [BitVec.lt_def] at hlt
      refine hblank e.addr ⟨Nat.le_refl _, by omega⟩ ?_
      rw [hmhas]
      omega
    · rw [hE] at hlt
      have hword : (BitVec.ofNat 64 stop).toNat = stop := by
        rw [BitVec.toNat_ofNat, Nat.mod_eq_of_lt (by omega)]
      refine hblank (BitVec.ofNat 64 stop) ⟨by omega, by omega⟩ ?_
      rw [hmhas]
      omega
  · intro hsuits
    have hsame := hsuits.stop
    rw [hE] at hsame
    have hmap : ∀ a : BitVec 64, m.Has a.toNat ↔ InPages desired size a := by
      intro a
      rw [hmhas, hsame]
      rfl
    refine ⟨hmap, fun a ha => ?_, fun a ha => ?_⟩
    · rw [h'.attrAt_of_mem hM (by simp) ((hmap a).2 ha), hfree, hname, hprot]
    · have hnot : ¬ m.Has a.toNat := fun hc => ha ((hmap a).1 hc)
      by_cases hea : e.Has a.toNat
      · obtain ⟨hattr, hside⟩ := hleft a hea hnot
        have hblank : e.Blank := by
          rcases hside with hlt | hlt
          · exact hsuits.front hlt
          · exact hsuits.back (by rwa [hE])
        rw [hattr, hold a hea, blank_iff.2 hblank]
      · rw [attrAt, attrAt, h.find_replace h' hM hin hea]

/-- **Fixed mappings.**  A call that fails leaves the list as it is.  One that succeeds maps exactly the
pages of its range, with every other address as before, exactly when the extent it takes suits it. -/
theorem allocFixed_exact (hM : M < 2 ^ 64) (h : Apart M l) (memSize : BitVec 64)
    (callocPrefix callocSplit : Bool) (desired size : BitVec 64) (prot flags : BitVec 32)
    (name : Option (List Char)) :
    let done := recompVmAllocFixed memSize callocPrefix callocSplit desired size prot flags name l
    (done.2 = none → done.1 = l) ∧
    ∀ m, done.2 = some m → ∃ pre e post,
      firstSplit (GuestVMExtent.holds (pageDown desired) (pageUp size)) l = some (pre, e, post) ∧
      (FixedExact desired size prot name l done.1 m ↔ FixedSuits callocSplit desired size e) := by
  intro done
  have hcases := allocFixed_cases memSize callocPrefix callocSplit desired size prot flags name l
  rcases hcases with hsame | ⟨pre, e, post, front, m, back, hfound, hsize, hwrap, hcarve, heq⟩
  · have hdone : done = (l, none) := hsame
    rw [hdone]
    exact ⟨fun _ => rfl, fun m hm => (by cases hm)⟩
  · have hdone : done = (pre ++ (front ++ m :: back) ++ post, some m) := heq
    rw [hdone]
    refine ⟨fun hn => (by cases hn), fun m' hm' => ⟨pre, e, post, hfound, ?_⟩⟩
    cases hm'
    obtain ⟨hl, hholds⟩ := firstSplit_eq_some hfound
    rw [hl] at h ⊢
    rw [GuestVMExtent.holds, Bool.and_eq_true, Bool.and_eq_true, decide_eq_true_iff,
      decide_eq_true_iff, BitVec.le_def, BitVec.le_def, toNat_add_of_le hwrap,
      toNat_stop (Nat.lt_of_le_of_lt h.middle hM)] at hholds
    exact fixedExact_iff hM h hsize hholds.1.2 hholds.2 hcarve

/-- A reserved extent of 64 KiB and a free one behind it. -/
def reservedExtents : List GuestVMExtent :=
  [{ addr := 0x10000, size := 0x10000, isFree := false, name := "reserved".toList },
    { addr := 0x20000, size := 0x10000, isFree := true }]

theorem apart_reservedExtents : Apart 0x30000 reservedExtents := by
  constructor
  · refine List.pairwise_cons.2 ⟨fun b hb x hax hbx => ?_, List.pairwise_singleton _ _⟩
    rw [List.mem_singleton.1 hb] at hbx
    have hlt : x < 0x10000 + 0x10000 := hax.2
    have hge : 0x20000 ≤ x := hbx.1
    omega
  · intro e he
    rcases List.mem_cons.1 he with heq | he
    · rw [heq]
      decide
    · rw [List.mem_singleton.1 he]
      decide

/-- A page in the free extent is mapped exactly. -/
theorem allocFixed_exact_page : ∃ l' m,
    recompVmAllocFixed 0x100000 true true 0x24000 0x1000 3 0 (some "heap".toList) reservedExtents =
      (l', some m) ∧ FixedExact 0x24000 0x1000 3 (some "heap".toList) reservedExtents l' m := by
  have h := allocFixed_exact (by decide) apart_reservedExtents 0x100000 true true 0x24000 0x1000 3 0
    (some "heap".toList)
  refine ⟨_, _, rfl, ?_⟩
  obtain ⟨pre, e, post, hfound, hiff⟩ := h.2 _ rfl
  have he : e = { addr := 0x20000, size := 0x10000, isFree := true } := by
    cases hfound
    rfl
  rw [he] at hiff
  exact hiff.2 ⟨by decide, fun _ => ⟨rfl, rfl, rfl⟩, fun _ => ⟨rfl, rfl, rfl⟩⟩

/-- A page mapped in the middle of the reserved extent frees its first byte, which was reserved. -/
theorem allocFixed_reserved :
    let done := recompVmAllocFixed 0x100000 true true 0x14000 0x1000 3 0 (some "heap".toList)
      reservedExtents
    done.2.isSome = true ∧ attrAt 0x10000 reservedExtents = some (false, "reserved".toList, 0) ∧
      attrAt 0x10000 done.1 = some (true, [], 0) := by
  decide

end PS4Recomp.Runtime
