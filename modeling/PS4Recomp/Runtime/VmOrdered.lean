import PS4Recomp.Runtime.VmExtents

/-!
# The order of the extent list

* `Follows` — an extent that another one may follow in the list: it is not empty, ends at or before
  the other's start, and before it when both are free;
* `Ordered` — every extent may be followed by those after it, and ends inside guest memory;
* `Ordered.replace` — an extent replaced by its pieces, `ordered_layout` — changed attributes;
* `VmAdmits` — the condition on an allocation;
* **`vmExtents_ordered`** — in runs that meet it, in at most 64 GiB of memory, the list is well formed
  in every state and an allocation that fits in free bytes succeeds;
* `vmExtents_unordered` — with the default memory size the list is out of order from the start.
-/

namespace PS4Recomp.Runtime

open Library Library.Transition

variable {M : ℕ} {l pre post es : List GuestVMExtent} {e : GuestVMExtent}

/-! ### the invariant -/

/-- An extent before another one, as far as `S` allows two free ones to touch. -/
structure Loose (S : GuestVMExtent → GuestVMExtent → Prop) (a b : GuestVMExtent) : Prop where
  pos : 0 < a.size.toNat
  le : a.addr.toNat + a.size.toNat ≤ b.addr.toNat
  touch : a.isFree = true → b.isFree = true → a.addr.toNat + a.size.toNat = b.addr.toNat → S a b

/-- An extent that another one may follow in the list. -/
abbrev Follows : GuestVMExtent → GuestVMExtent → Prop := Loose fun _ _ => False

/-- Every extent may be followed by those after it, and ends inside memory. -/
structure Ordered (M : ℕ) (l : List GuestVMExtent) : Prop where
  pairwise : l.Pairwise Follows
  bounded : ∀ e ∈ l, e.addr.toNat + e.size.toNat ≤ M

/-- **Replacement.**  Pieces that fill the place of an extent keep the order, when those that are
free do not touch a free neighbour. -/
theorem Ordered.replace (h : Ordered M (pre ++ e :: post))
    (htiles : Tiles (fun c => c.addr.toNat) (fun c => c.size.toNat) e.addr.toNat
      (e.addr.toNat + e.size.toNat) es)
    (hpieces : es.Pairwise Follows) (hpos : ∀ c ∈ es, 0 < c.size.toNat)
    (hbefore : ∀ z ∈ pre, ∀ c ∈ es, z.isFree = true → c.isFree = true →
      z.addr.toNat + z.size.toNat ≠ c.addr.toNat)
    (hafter : ∀ z ∈ post, ∀ c ∈ es, z.isFree = true → c.isFree = true →
      c.addr.toNat + c.size.toNat ≠ z.addr.toNat) : Ordered M (pre ++ es ++ post) := by
  obtain ⟨hpw, hbound⟩ := h
  rw [List.pairwise_append, List.pairwise_cons] at hpw
  obtain ⟨hpre, ⟨hepost, hpost⟩, hcross⟩ := hpw
  have hein : ∀ c ∈ es, e.addr.toNat ≤ c.addr.toNat ∧
      c.addr.toNat + c.size.toNat ≤ e.addr.toNat + e.size.toNat := fun c hc => htiles.bounds hc
  constructor
  · rw [List.append_assoc, List.pairwise_append, List.pairwise_append]
    refine ⟨hpre, ⟨hpieces, hpost, fun c hc z hz => ⟨hpos c hc, ?_, ?_⟩⟩, fun z hz c hc => ?_⟩
    · have hle := (hepost z hz).le
      have hin := hein c hc
      omega
    · exact fun hcf hzf htouch => hafter z hz c hc hzf hcf htouch
    · rcases List.mem_append.1 hc with hc | hc
      · have hze := hcross z hz e List.mem_cons_self
        have hin := hein c hc
        have hle := hze.le
        exact ⟨hze.pos, by omega, fun hzf hcf htouch => hbefore z hz c hc hzf hcf htouch⟩
      · exact hcross z hz c (List.mem_cons_of_mem e hc)
  · intro c hc
    rcases List.mem_append.1 hc with hc | hc
    · rcases List.mem_append.1 hc with hc | hc
      · exact hbound c (List.mem_append_left _ hc)
      · have hin := hein c hc
        have he := hbound e (List.mem_append_right _ List.mem_cons_self)
        omega
    · exact hbound c (List.mem_append_right _ (List.mem_cons_of_mem e hc))

/-- The place of an extent and whether it is free. -/
def shape (e : GuestVMExtent) : BitVec 64 × BitVec 64 × Bool := (e.addr, e.size, e.isFree)

/-- **Attributes.**  Changes of other attributes keep the order. -/
theorem ordered_layout {l' : List GuestVMExtent} (h : Ordered M l)
    (hshape : l'.map shape = l.map shape) : Ordered M l' := by
  let R : BitVec 64 × BitVec 64 × Bool → BitVec 64 × BitVec 64 × Bool → Prop := fun a b =>
    Follows { addr := a.1, size := a.2.1, isFree := a.2.2 }
      { addr := b.1, size := b.2.1, isFree := b.2.2 }
  have hR : ∀ a b : GuestVMExtent, R (shape a) (shape b) ↔ Follows a b :=
    fun a b => ⟨fun h => ⟨h.pos, h.le, h.touch⟩, fun h => ⟨h.pos, h.le, h.touch⟩⟩
  have hmap : ∀ k : List GuestVMExtent, (k.map shape).Pairwise R ↔ k.Pairwise Follows := by
    intro k
    rw [List.pairwise_map]
    exact ⟨fun hk => hk.imp fun {a b} => (hR a b).1, fun hk => hk.imp fun {a b} => (hR a b).2⟩
  refine ⟨(hmap l').1 (hshape ▸ (hmap l).2 h.pairwise), fun c hc => ?_⟩
  have hc' : shape c ∈ l.map shape := hshape ▸ List.mem_map_of_mem hc
  obtain ⟨d, hd, hshape⟩ := List.mem_map.1 hc'
  have hbound := h.bounded d hd
  simp only [shape, Prod.mk.injEq] at hshape
  rw [← hshape.1, ← hshape.2.1]
  exact hbound

/-! ### splits -/

theorem splitExtentAt_ordered (calloc : Bool) (cut : BitVec 64) (hM : M < 2 ^ 64)
    (h : Ordered M l) : Ordered M (splitExtentAt calloc cut l).1 := by
  rcases splitExtentAt_cases calloc cut l with ⟨heq, -⟩ | ⟨pre, e, post, hfound, heq⟩
  · rw [heq]
    exact h
  · rw [heq]
    obtain ⟨rfl, hstraddles⟩ := firstSplit_eq_some hfound
    have hbound := h.bounded e (List.mem_append_right _ List.mem_cons_self)
    obtain ⟨hfree, hlo, hhi, hfirst, hsecond, htiles⟩ := halves_spec hstraddles (by omega)
    have hnotfree : ∀ c ∈ e.halves cut, c.isFree = false := by
      intro c hc
      rcases List.mem_pair.1 hc with rfl | rfl
      · exact hfree
      · exact hfree
    refine h.replace htiles ?_ ?_ ?_ ?_
    · refine List.pairwise_pair.2 ⟨?_, ?_, fun hf => ?_⟩
      · show 0 < (cut - e.addr).toNat
        omega
      · show e.addr.toNat + (cut - e.addr).toNat ≤ cut.toNat
        omega
      · exact absurd (hfree.symm.trans hf) Bool.false_ne_true
    · intro c hc
      rcases List.mem_pair.1 hc with rfl | rfl
      · show 0 < (cut - e.addr).toNat
        omega
      · show 0 < (e.stop - cut).toNat
        omega
    · exact fun z _ c hc _ hcf => absurd ((hnotfree c hc).symm.trans hcf) Bool.false_ne_true
    · exact fun z _ c hc _ hcf => absurd ((hnotfree c hc).symm.trans hcf) Bool.false_ne_true

theorem splitEnds_ordered (ca co : Bool) (start stop : BitVec 64) (hM : M < 2 ^ 64)
    (h : Ordered M l) : Ordered M (splitEnds ca co start stop l).1 := by
  have hfirst := splitExtentAt_ordered ca start hM h
  rw [splitEnds]
  split
  · rename_i l' heq
    rw [heq] at hfirst
    exact hfirst
  · rename_i l' heq
    rw [heq] at hfirst
    exact splitExtentAt_ordered co stop hM hfirst

/-! ### allocation -/

/-- **Carving.**  A range carved out of an extent keeps the order, when the free pieces left over do
not touch a free neighbour. -/
theorem carve_ordered {cp cs : Bool} {start len : BitVec 64} {prot flags : BitVec 32}
    {name : Option (List Char)} {front back : List GuestVMExtent} {m : GuestVMExtent} (hM : M < 2 ^ 64) (h : Ordered M (pre ++ e :: post))
    (hlen : 0 < len.toNat) (hstart : e.addr.toNat ≤ start.toNat)
    (hend : start.toNat + len.toNat ≤ e.addr.toNat + e.size.toNat)
    (hcarve : e.carve cp cs start len prot flags name = some (front, m, back))
    (hbefore : e.isFree = true ∨ (e.addr < start → ∀ z ∈ pre, z.isFree = true → z.stop ≠ e.addr))
    (hafter : e.isFree = true ∨
      (start + len < e.stop → ∀ z ∈ post, z.isFree = true → e.stop ≠ z.addr)) :
    Ordered M (pre ++ (front ++ m :: back) ++ post) := by
  have hbound := h.bounded e (List.mem_append_right _ List.mem_cons_self)
  obtain ⟨-, hmfree, hk, htiles, hfront, hback⟩ :=
    carve_spec (by omega) hstart hend hcarve
  obtain ⟨hpre, hrest, hcross⟩ := List.pairwise_append.1 h.pairwise
  have hepost := (List.pairwise_cons.1 hrest).1
  have hfrontMem : ∀ c ∈ front, e.addr < start ∧ c.addr = e.addr ∧ c.isFree = true ∧
      0 < c.size.toNat := by
    intro c hc
    rcases hfront with ⟨rfl, -⟩ | ⟨hlt, n, hn, rfl⟩
    · cases hc
    · obtain rfl := List.mem_singleton.1 hc
      exact ⟨hlt, rfl, rfl, hn⟩
  have hbackMem : ∀ c ∈ back, start + len < e.stop ∧ c.isFree = true ∧ 0 < c.size.toNat := by
    intro c hc
    rcases hback with rfl | ⟨hlt, n, hn, rfl⟩
    · cases hc
    · obtain rfl := List.mem_singleton.1 hc
      exact ⟨hlt, rfl, hn⟩
  have hpos : ∀ c ∈ front ++ m :: back, 0 < c.size.toNat := by
    intro c hc
    rcases List.mem_append.1 hc with hc | hc
    · exact (hfrontMem c hc).2.2.2
    · rcases List.mem_cons.1 hc with rfl | hc
      · omega
      · exact (hbackMem c hc).2.2
  -- every piece ends before the next one, and the free ones have the mapping between them
  have hpieces : (front ++ m :: back).Pairwise Follows := by
    obtain ⟨hff, hmb, hfmb⟩ := List.pairwise_append.1 htiles.pairwise
    have hmback := (List.pairwise_cons.1 hmb).1
    refine List.pairwise_append.2 ⟨?_, List.pairwise_cons.2 ⟨?_, ?_⟩, ?_⟩
    · rcases hfront with ⟨rfl, -⟩ | ⟨-, n, -, rfl⟩
      · exact .nil
      · exact List.pairwise_singleton _ _
    · exact fun b hb => ⟨hpos m (by simp), hmback b hb, fun hf =>
        absurd (hmfree.symm.trans hf) Bool.false_ne_true⟩
    · rcases hback with rfl | ⟨-, n, -, rfl⟩
      · exact .nil
      · exact List.pairwise_singleton _ _
    · intro a ha b hb
      have hle := hfmb a ha b hb
      refine ⟨hpos a (List.mem_append_left _ ha), hle, fun _ hbf htouch => ?_⟩
      rcases List.mem_cons.1 hb with rfl | hb
      · exact absurd (hmfree.symm.trans hbf) Bool.false_ne_true
      · have hm := hfmb a ha m List.mem_cons_self
        have hmb := hmback b hb
        have hmpos := hpos m (by simp)
        omega
  refine h.replace htiles hpieces hpos ?_ ?_
  · intro z hz c hc hzf hcf htouch
    have hze := hcross z hz e List.mem_cons_self
    have hin := htiles.bounds hc
    have hle := hze.le
    -- the piece starts where the extent does, so it is the one in front
    have heq : z.addr.toNat + z.size.toNat = e.addr.toNat := by omega
    rcases hbefore with hfree | hbefore
    · exact hze.touch hzf hfree heq
    · rcases List.mem_append.1 hc with hc | hc
      · refine hbefore (hfrontMem c hc).1 z hz hzf (BitVec.eq_of_toNat_eq ?_)
        rw [toNat_stop (by omega), heq]
      · rcases List.mem_cons.1 hc with rfl | hc
        · exact absurd (hmfree.symm.trans hcf) Bool.false_ne_true
        · have hm := (List.pairwise_cons.1 (List.pairwise_append.1 htiles.pairwise).2.1).1 c hc
          have hmin := htiles.bounds (List.mem_append_right front (List.mem_cons_self (a := m)))
          have hmpos := hpos m (by simp)
          omega
  · intro z hz c hc hzf hcf htouch
    have hez := hepost z hz
    have hin := htiles.bounds hc
    have hle := hez.le
    -- the piece ends where the extent does, so it is the one behind
    have heq : e.addr.toNat + e.size.toNat = z.addr.toNat := by omega
    rcases hafter with hfree | hafter
    · exact hez.touch hfree hzf heq
    · rcases List.mem_append.1 hc with hc | hc
      · have hm := (List.pairwise_append.1 htiles.pairwise).2.2 c hc m List.mem_cons_self
        have hmin := htiles.bounds (List.mem_append_right front (List.mem_cons_self (a := m)))
        have hmpos := hpos m (by simp)
        omega
      · rcases List.mem_cons.1 hc with rfl | hc
        · exact absurd (hmfree.symm.trans hcf) Bool.false_ne_true
        · refine hafter (hbackMem c hc).1 z hz hzf (BitVec.eq_of_toNat_eq ?_)
          rw [toNat_stop (by omega), heq]

/-- The condition on an allocation: its length does not round up to 0 and no candidate range of a
free extent wraps. -/
def AllocFits (size alignment : BitVec 64) (l : List GuestVMExtent) : Prop :=
  size ≠ 0 → alignUp size (vmAlignment alignment) ≠ 0 ∧ ∀ e ∈ l, e.isFree = true →
    (e.candidate (vmAlignment alignment)).toNat + (alignUp size (vmAlignment alignment)).toNat < 2 ^ 64

/-- The condition on a fixed mapping: its length does not round up to 0, and what it leaves over of a
reserved extent does not touch a free one. -/
def FixedFits (desired size : BitVec 64) (l : List GuestVMExtent) : Prop :=
  size ≠ 0 → pageUp size ≠ 0 ∧
    ∀ pre e post, firstSplit (GuestVMExtent.holds (pageDown desired) (pageUp size)) l =
        some (pre, e, post) → e.isFree = true ∨
      (e.addr < pageDown desired → ∀ z ∈ pre, z.isFree = true → z.stop ≠ e.addr) ∧
      (pageDown desired + pageUp size < e.stop → ∀ z ∈ post, z.isFree = true → e.stop ≠ z.addr)

theorem toNat_pos_of_ne_zero {x : BitVec 64} (h : x ≠ 0) : 0 < x.toNat := by
  have hne : x.toNat ≠ 0 := fun hzero => h (BitVec.eq_of_toNat_eq hzero)
  omega

theorem alloc_ordered (cp cs : Bool) {size alignment : BitVec 64} (prot flags : BitVec 32)
    (name : Option (List Char)) (hM : M < 2 ^ 64) (h : Ordered M l)
    (hfits : AllocFits size alignment l) :
    Ordered M (recompVmAllocNamedAligned cp cs size alignment prot flags name l).1 := by
  rcases alloc_cases cp cs size alignment prot flags name l with
    heq | ⟨pre, e, post, front, m, back, rfl, hsize, hfit, hcarve, heq⟩
  · rw [heq]
    exact h
  · rw [heq]
    obtain ⟨hlen, hwrap⟩ := hfits hsize
    have hbound := h.bounded e (List.mem_append_right _ List.mem_cons_self)
    simp only [GuestVMExtent.fits, Bool.and_eq_true, decide_eq_true_eq] at hfit
    obtain ⟨⟨hfree, hstart⟩, hend⟩ := hfit
    have hnowrap := hwrap e (List.mem_append_right _ List.mem_cons_self) hfree
    rw [BitVec.le_def] at hstart hend
    rw [toNat_stop (by omega), BitVec.toNat_add_of_lt hnowrap] at hend
    exact carve_ordered hM h (toNat_pos_of_ne_zero hlen) hstart hend hcarve (.inl hfree) (.inl hfree)

theorem allocFixed_ordered (memSize : BitVec 64) (cp cs : Bool) {desired size : BitVec 64}
    (prot flags : BitVec 32) (name : Option (List Char)) (hM : M < 2 ^ 64) (h : Ordered M l)
    (hfits : FixedFits desired size l) :
    Ordered M (recompVmAllocFixed memSize cp cs desired size prot flags name l).1 := by
  rcases allocFixed_cases memSize cp cs desired size prot flags name l with
    heq | ⟨pre, e, post, front, m, back, hfound, hsize, hnowrap, hcarve, heq⟩
  · rw [heq]
    exact h
  · rw [heq]
    obtain ⟨hlen, hreserved⟩ := hfits hsize
    obtain ⟨rfl, hholds⟩ := firstSplit_eq_some hfound
    have hbound := h.bounded e (List.mem_append_right _ List.mem_cons_self)
    simp only [GuestVMExtent.holds, Bool.and_eq_true, decide_eq_true_eq] at hholds
    obtain ⟨⟨-, hstart⟩, hend⟩ := hholds
    rw [BitVec.le_def] at hstart hend
    rw [toNat_stop (by omega), toNat_add_of_le hnowrap] at hend
    have hside := hreserved pre e post hfound
    refine carve_ordered hM h (toNat_pos_of_ne_zero hlen) hstart hend hcarve ?_ ?_
    · rcases hside with hfree | hside
      · exact .inl hfree
      · exact .inr hside.1
    · rcases hside with hfree | hside
      · exact .inl hfree
      · exact .inr hside.2

/-! ### freeing -/

/-- A range that a call of `recomp_vm_free` notes lies between its ends. -/
def PendingFree.InRange (p : PendingFree) : Prop :=
  ∀ r ∈ p.ranges, p.start.toNat ≤ r.addr.toNat ∧ r.addr.toNat + r.size.toNat ≤ p.stop.toNat

theorem inside_iff {start stop : BitVec 64} (h : e.addr.toNat + e.size.toNat < 2 ^ 64) :
    e.inside start stop = true ↔ e.isFree = false ∧ start.toNat ≤ e.addr.toNat ∧
      e.addr.toNat + e.size.toNat ≤ stop.toNat := by
  simp only [GuestVMExtent.inside, Bool.and_eq_true, Bool.not_eq_true', decide_eq_true_eq,
    BitVec.le_def, toNat_stop h, and_assoc]

theorem freeBegin_ordered (ca co m : Bool) (addr size : BitVec 64) (hM : M < 2 ^ 64)
    (h : Ordered M l) : Ordered M (freeBegin ca co m addr size l).1 ∧
      ∀ p, (freeBegin ca co m addr size l).2 = .inr p → p.InRange := by
  have hsplit := splitEnds_ordered ca co (pageDown addr) (pageDown addr + pageUp size) hM h
  rw [freeBegin]
  dsimp only
  split
  · exact ⟨h, fun p hp => (nomatch hp)⟩
  · split
    · rename_i l' heq
      rw [heq] at hsplit
      exact ⟨hsplit, fun p hp => (nomatch hp)⟩
    · rename_i l' heq
      rw [heq] at hsplit
      split
      · exact ⟨hsplit, fun p hp => (nomatch hp)⟩
      · split
        · refine ⟨hsplit, fun p hp => ?_⟩
          cases hp
          intro r hr
          obtain ⟨e, he, rfl⟩ := List.mem_map.1 hr
          obtain ⟨hmem, hin⟩ := List.mem_filter.1 he
          have hbound := hsplit.bounded e hmem
          exact ((inside_iff (by omega)).1 hin).2
        · exact ⟨hsplit, fun p hp => (nomatch hp)⟩

/-- Two extents of which one was marked free between `start` and `stop`. -/
def Near (start stop : BitVec 64) (a _ : GuestVMExtent) : Prop :=
  start.toNat ≤ a.addr.toNat + a.size.toNat ∧ a.addr.toNat ≤ stop.toNat

/-- The order while two free extents may touch between `start` and `stop`. -/
structure Touching (M : ℕ) (start stop : BitVec 64) (l : List GuestVMExtent) : Prop where
  pairwise : l.Pairwise (Loose (Near start stop))
  bounded : ∀ e ∈ l, e.addr.toNat + e.size.toNat ≤ M

theorem touching_markFree {start stop : BitVec 64} {r : VmRange} (hM : M < 2 ^ 64)
    (hlo : start.toNat ≤ r.addr.toNat) (hhi : r.addr.toNat + r.size.toNat ≤ stop.toNat)
    (h : Touching M start stop l) : Touching M start stop (markFree l r) := by
  have hrange : (r.addr + r.size).toNat = r.addr.toNat + r.size.toNat :=
    BitVec.toNat_add_of_lt (by omega)
  -- what the marking does to one extent
  have hmark : ∀ c ∈ l, ∃ d : GuestVMExtent,
      (if c.inside r.addr (r.addr + r.size) then { c with isFree := true } else c) = d ∧
        d.addr = c.addr ∧ d.size = c.size ∧
        (d.isFree = c.isFree ∨ start.toNat ≤ c.addr.toNat ∧
          c.addr.toNat + c.size.toNat ≤ stop.toNat) := by
    intro c hc
    have hbound := h.bounded c hc
    refine ⟨_, rfl, ?_⟩
    split
    · rename_i hin
      obtain ⟨-, hstart, hstop⟩ := (inside_iff (by omega)).1 hin
      exact ⟨rfl, rfl, .inr ⟨by omega, by omega⟩⟩
    · exact ⟨rfl, rfl, .inl rfl⟩
  constructor
  · refine List.pairwise_map.2 (h.pairwise.imp_of_mem fun ha hb hab => ?_)
    obtain ⟨a', hda, haddr, hsize, hfree⟩ := hmark _ ha
    obtain ⟨b', hdb, haddr', -, hfree'⟩ := hmark _ hb
    rw [hda, hdb]
    have hle := hab.le
    refine ⟨by rw [hsize]; exact hab.pos, by rw [haddr, haddr', hsize]; exact hle, ?_⟩
    intro haf hbf htouch
    rw [haddr, haddr', hsize] at htouch
    show start.toNat ≤ a'.addr.toNat + a'.size.toNat ∧ a'.addr.toNat ≤ stop.toNat
    rw [haddr, hsize]
    rcases hfree with hfree | hfree
    · rcases hfree' with hfree' | hfree'
      · exact hab.touch (hfree ▸ haf) (hfree' ▸ hbf) htouch
      · omega
    · omega
  · intro d hd
    obtain ⟨c, hc, hcd⟩ := List.mem_map.1 hd
    obtain ⟨d', hd', haddr, hsize, -⟩ := hmark c hc
    rw [← hcd, hd', haddr, hsize]
    exact h.bounded c hc

/-- **Merging.**  The loop leaves no free extents that touch; what it makes starts where an extent
of the list does, and is as free. -/
theorem coalesceFrom_spec {start stop : BitVec 64} (hM : M < 2 ^ 64) {l : List GuestVMExtent} :
    ∀ {e : GuestVMExtent}, Touching M start stop (e :: l) →
      Ordered M (coalesceFrom stop e l) ∧
        ∀ d ∈ coalesceFrom stop e l, ∃ c ∈ e :: l, c.addr = d.addr ∧ c.isFree = d.isFree := by
  induction l with
  | nil =>
      intro e h
      exact ⟨⟨List.pairwise_singleton _ _, h.bounded⟩, fun d hd => ⟨d, hd, rfl, rfl⟩⟩
  | cons n l ih =>
      intro e h
      obtain ⟨hen, hnl⟩ := List.pairwise_cons.1 h.pairwise
      have hbe := h.bounded e List.mem_cons_self
      have hbn := h.bounded n (List.mem_cons_of_mem e List.mem_cons_self)
      have htail : Touching M start stop (n :: l) :=
        ⟨hnl, fun c hc => h.bounded c (List.mem_cons_of_mem e hc)⟩
      have hn := hen n List.mem_cons_self
      rw [coalesceFrom]
      split
      · rename_i hle
        rw [BitVec.le_def] at hle
        split
        · -- `n` is merged into `e`
          rename_i hmerge
          simp only [Bool.and_eq_true, beq_iff_eq] at hmerge
          obtain ⟨⟨hef, hnf⟩, htouch⟩ := hmerge
          have htouch := congrArg BitVec.toNat htouch
          rw [toNat_stop (by omega)] at htouch
          have hsize : (e.size + n.size).toNat = e.size.toNat + n.size.toNat :=
            BitVec.toNat_add_of_lt (by omega)
          have hpos := hn.pos
          have hmerged : Touching M start stop ({ e with size := e.size + n.size } :: l) := by
            refine ⟨List.pairwise_cons.2 ⟨fun c hc => ?_, (List.pairwise_cons.1 hnl).2⟩, ?_⟩
            · have hnc := (List.pairwise_cons.1 hnl).1 c hc
              have hle' := hnc.le
              refine ⟨by rw [hsize]; omega, by rw [hsize]; show e.addr.toNat + _ ≤ _; omega, ?_⟩
              intro _ hcf hseam
              rw [hsize] at hseam
              have hnear := hnc.touch hnf hcf (by
                have : e.addr.toNat + (e.size.toNat + n.size.toNat) = c.addr.toNat := hseam
                omega)
              refine ⟨?_, hle⟩
              show start.toNat ≤ e.addr.toNat + (e.size + n.size).toNat
              have := hnear.1
              omega
            · intro c hc
              rcases List.mem_cons.1 hc with rfl | hc
              · show e.addr.toNat + (e.size + n.size).toNat ≤ M
                omega
              · exact htail.bounded c (List.mem_cons_of_mem n hc)
          obtain ⟨hord, hsame⟩ := ih hmerged
          refine ⟨hord, fun d hd => ?_⟩
          obtain ⟨c, hc, haddr, hfree⟩ := hsame d hd
          rcases List.mem_cons.1 hc with rfl | hc
          · exact ⟨e, List.mem_cons_self, haddr, hfree⟩
          · exact ⟨c, List.mem_cons_of_mem e (List.mem_cons_of_mem n hc), haddr, hfree⟩
        · -- `e` stays, and does not touch `n` as a free extent
          rename_i hstay
          obtain ⟨hord, hsame⟩ := ih htail
          have hapart : ∀ c ∈ n :: l, e.isFree = true → c.isFree = true →
              e.addr.toNat + e.size.toNat ≠ c.addr.toNat := by
            intro c hc hef hcf htouch
            rcases List.mem_cons.1 hc with rfl | hc
            · refine hstay ?_
              simp only [Bool.and_eq_true, beq_iff_eq]
              exact ⟨⟨hef, hcf⟩, BitVec.eq_of_toNat_eq (by rw [toNat_stop (by omega), htouch])⟩
            · have hnc := (List.pairwise_cons.1 hnl).1 c hc
              have hpos := hnc.pos
              have hle₁ := hn.le
              have hle₂ := hnc.le
              omega
          refine ⟨⟨List.pairwise_cons.2 ⟨fun d hd => ?_, hord.pairwise⟩, fun d hd => ?_⟩,
            fun d hd => ?_⟩
          · obtain ⟨c, hc, haddr, hfree⟩ := hsame d hd
            have hec := hen c hc
            refine ⟨hec.pos, haddr ▸ hec.le, fun hef hdf htouch => ?_⟩
            exact hapart c hc hef (hfree ▸ hdf) (haddr ▸ htouch)
          · rcases List.mem_cons.1 hd with rfl | hd
            · exact hbe
            · exact hord.bounded d hd
          · rcases List.mem_cons.1 hd with rfl | hd
            · exact ⟨d, List.mem_cons_self, rfl, rfl⟩
            · obtain ⟨c, hc, hcd⟩ := hsame d hd
              exact ⟨c, List.mem_cons_of_mem e hc, hcd⟩
      · -- behind the range nothing was marked
        rename_i hpast
        rw [BitVec.le_def] at hpast
        refine ⟨⟨h.pairwise.imp_of_mem fun {a b} ha _ hab => ⟨hab.pos, hab.le, ?_⟩, h.bounded⟩,
          fun d hd => ⟨d, hd, rfl, rfl⟩⟩
        intro haf hbf htouch
        have hnear := (hab.touch haf hbf htouch).2
        rcases List.mem_cons.1 ha with rfl | ha
        · omega
        · have hle := (hen a ha).le
          omega

/-- The loop from an extent in the list on, when those before it do not touch one another as free
ones. -/
theorem coalesceAt_ordered {start stop : BitVec 64} (hM : M < 2 ^ 64)
    (h : Touching M start stop (pre ++ e :: post))
    (hfront : ∀ c ∈ pre, ∀ d, Loose (Near start stop) c d → Follows c d) :
    Ordered M (pre ++ coalesceFrom stop e post) := by
  obtain ⟨hpre, hrest, hcross⟩ := List.pairwise_append.1 h.pairwise
  obtain ⟨hord, hsame⟩ := coalesceFrom_spec hM
    ⟨hrest, fun c hc => h.bounded c (List.mem_append_right pre hc)⟩
  refine ⟨List.pairwise_append.2 ⟨?_, hord.pairwise, fun z hz d hd => ?_⟩, fun c hc => ?_⟩
  · exact hpre.imp_of_mem fun ha _ hab => hfront _ ha _ hab
  · obtain ⟨c, hc, haddr, hfree⟩ := hsame d hd
    have hzc := hfront z hz c (hcross z hz c hc)
    exact ⟨hzc.pos, haddr ▸ hzc.le, fun hzf hdf htouch => hzc.touch hzf (hfree ▸ hdf) (haddr ▸ htouch)⟩
  · rcases List.mem_append.1 hc with hc | hc
    · exact h.bounded c (List.mem_append_left _ hc)
    · exact hord.bounded c hc

theorem vmCoalesceFree_ordered {start stop : BitVec 64} (hM : M < 2 ^ 64)
    (h : Touching M start stop l) : Ordered M (vmCoalesceFree start stop l) := by
  have hsplit : l.takeWhile (fun e => decide (e.stop < start)) ++
      l.dropWhile (fun e => decide (e.stop < start)) = l := List.takeWhile_append_dropWhile
  -- the extents in front of the range end before it
  have hfront : ∀ c ∈ l.takeWhile (fun e => decide (e.stop < start)), ∀ d, Loose (Near start stop) c d →
      Follows c d := by
    intro c hc d hcd
    have hlt := List.mem_takeWhile_imp hc
    rw [decide_eq_true_eq, BitVec.lt_def,
      toNat_stop (Nat.lt_of_le_of_lt (h.bounded c (List.takeWhile_subset _ hc)) hM)] at hlt
    refine ⟨hcd.pos, hcd.le, fun hcf hdf htouch => ?_⟩
    have hnear := (hcd.touch hcf hdf htouch).1
    omega
  rw [vmCoalesceFree]
  generalize l.takeWhile (fun e => decide (e.stop < start)) = pre at hsplit hfront ⊢
  generalize l.dropWhile (fun e => decide (e.stop < start)) = rest at hsplit ⊢
  subst hsplit
  cases rest with
  | nil =>
      rw [List.append_nil] at h ⊢
      exact ⟨h.pairwise.imp_of_mem fun ha _ hab => hfront _ ha _ hab, h.bounded⟩
  | cons e es =>
      dsimp only
      cases hlast : pre.getLast? with
      | none =>
          rw [List.getLast?_eq_none_iff] at hlast
          subst hlast
          have hord := coalesceAt_ordered hM h hfront
          exact hord
      | some p =>
          have hpre : pre = pre.dropLast ++ [p] := (List.dropLast_append_getLast? p hlast).symm
          rw [hpre, List.append_assoc] at h
          exact coalesceAt_ordered hM h fun c hc => hfront c (List.dropLast_subset pre hc)

theorem freeEnd_ordered {p : PendingFree} (hM : M < 2 ^ 64) (hp : p.InRange) (h : Ordered M l) :
    Ordered M (freeEnd p l) := by
  have hmarked : ∀ (rs : List VmRange) (l : List GuestVMExtent), (∀ r ∈ rs, r ∈ p.ranges) →
      Touching M p.start p.stop l → Touching M p.start p.stop (rs.foldl markFree l) := by
    intro rs
    induction rs with
    | nil => exact fun l _ hl => hl
    | cons r rs ih =>
        intro l hrs hl
        have hr := hp r (hrs r List.mem_cons_self)
        exact ih (markFree l r) (fun r hr => hrs r (List.mem_cons_of_mem _ hr))
          (touching_markFree hM hr.1 hr.2 hl)
  have hstart : Touching M p.start p.stop l :=
    ⟨h.pairwise.imp fun hab => ⟨hab.pos, hab.le, fun haf hbf ht => (hab.touch haf hbf ht).elim⟩,
      h.bounded⟩
  exact vmCoalesceFree_ordered hM (hmarked p.ranges l (fun r hr => hr) hstart)

/-! ### every run -/

theorem map_shape {f : GuestVMExtent → GuestVMExtent} (hf : ∀ e, shape (f e) = shape e) :
    (l.map f).map shape = l.map shape := by
  rw [List.map_map]
  exact List.map_congr_left fun e _ => hf e

theorem call_ordered {memSize : BitVec 64} (c : VmCall) (h : Ordered memSize.toNat l)
    (halloc : ∀ cp cs size alignment prot flags name,
      c = .alloc cp cs size alignment prot flags name → AllocFits size alignment l)
    (hfixed : ∀ cp cs desired size prot flags name,
      c = .allocFixed cp cs desired size prot flags name → FixedFits desired size l) :
    Ordered memSize.toNat (c.apply memSize l).1 := by
  have hM := memSize.isLt
  cases c with
  | alloc cp cs size alignment prot flags name =>
      exact alloc_ordered cp cs prot flags name hM h (halloc cp cs size alignment prot flags name rfl)
  | allocFixed cp cs desired size prot flags name =>
      exact allocFixed_ordered memSize cp cs prot flags name hM h
        (hfixed cp cs desired size prot flags name rfl)
  | mprotect addr size prot =>
      show Ordered _ (sceKernelMprotect addr size prot l)
      rw [sceKernelMprotect]
      split
      · exact h
      · refine ordered_layout h (map_shape fun e => ?_)
        split <;> rfl
  | mtypeprotect ca co addr size mtype prot =>
      show Ordered _ (sceKernelMtypeprotect memSize ca co addr size mtype prot l)
      rw [sceKernelMtypeprotect]
      generalize addr &&& ~~~0x3fff = start
      generalize start + ((size + (addr - start) + 0x3fff) &&& ~~~0x3fff) = stop
      have hsplit := splitEnds_ordered ca co start stop hM h
      split
      · exact h
      · split
        · split
          · rename_i l' heq
            rw [heq] at hsplit
            exact hsplit
          · rename_i l' heq
            rw [heq] at hsplit
            refine ordered_layout hsplit (map_shape fun e => ?_)
            split <;> rfl
        · exact h
  | sysMprotect addr prot =>
      show Ordered _ (Runtime.sysMprotect addr prot l)
      rw [Runtime.sysMprotect]
      split
      · exact h
      · rename_i pre e post hfound
        obtain ⟨rfl, -⟩ := firstSplit_eq_some hfound
        refine ordered_layout h ?_
        rw [List.map_append, List.map_append]
        rfl
  | setVirtualRangeName addr len name =>
      show Ordered _ (sceKernelSetVirtualRangeName addr len name l)
      rw [sceKernelSetVirtualRangeName]
      split
      · exact h
      · refine ordered_layout h (map_shape fun e => ?_)
        split <;> rfl

/-! ### what the order gives -/

/-- The list is sorted by address, its extents are disjoint, and no two free ones touch. -/
structure VmWellFormed (l : List GuestVMExtent) : Prop where
  sorted : l.Pairwise fun a b => a.addr < b.addr
  disjoint : l.Pairwise fun a b => ∀ x, a.Has x → ¬ b.Has x
  coalesced : l.Pairwise fun a b => a.isFree = true → b.isFree = true →
    a.stop ≠ b.addr ∧ b.stop ≠ a.addr

theorem Ordered.wellFormed (hM : M < 2 ^ 64) (h : Ordered M l) : VmWellFormed l where
  sorted := h.pairwise.imp fun hab => by
    have hpos := hab.pos
    have hle := hab.le
    rw [BitVec.lt_def]
    omega
  disjoint := h.pairwise.imp fun hab x hax hbx => by
    have hle := hab.le
    have hlt := hax.2
    have hge := hbx.1
    omega
  coalesced := h.pairwise.imp_of_mem fun {a b} ha hb hab haf hbf => by
    have hba := h.bounded a ha
    have hbb := h.bounded b hb
    have hpos := hab.pos
    have hle := hab.le
    constructor
    · intro heq
      have htouch := congrArg BitVec.toNat heq
      rw [toNat_stop (by omega)] at htouch
      exact hab.touch haf hbf htouch
    · intro heq
      have htouch := congrArg BitVec.toNat heq
      rw [toNat_stop (by omega)] at htouch
      omega

theorem Ordered.free_range (h : Ordered M l) {x n : ℕ} (hn : 0 < n)
    (hfree : ∀ y, x ≤ y → y < x + n → FreeAt l y) :
    ∃ e ∈ l, e.isFree = true ∧ e.addr.toNat ≤ x ∧ x + n ≤ e.addr.toNat + e.size.toNat := by
  obtain ⟨e, he, hef, hex⟩ := hfree x (Nat.le_refl x) (by omega)
  have hlo := hex.1
  have hhi := hex.2
  refine ⟨e, he, hef, hlo, ?_⟩
  by_contra hlt
  -- the byte behind the extent is in another free one, which touches it
  obtain ⟨d, hd, hdf, hdx⟩ := hfree (e.addr.toNat + e.size.toNat) (by omega) (by omega)
  have hdlo := hdx.1
  have hdhi := hdx.2
  have hne : e ≠ d := by
    rintro rfl
    omega
  have hpair : l.Pairwise fun a b => Follows a b ∨ Follows b a := h.pairwise.imp Or.inl
  have hsymm : Std.Symm fun a b => Follows a b ∨ Follows b a := ⟨fun _ _ hab => hab.symm⟩
  rcases hpair.forall he hd hne with hed | hde
  · have hle := hed.le
    exact hed.touch hef hdf (by omega)
  · have hle := hde.le
    omega

/-- Rounding up to a power of two stays below a multiple of it. -/
theorem alignUp_bounds {a y : BitVec 64} {k x : ℕ} (ha : a.toNat = 2 ^ k) (hdvd : 2 ^ k ∣ x)
    (hy : y.toNat ≤ x) (hx : x < 2 ^ 64) :
    y.toNat ≤ (alignUp y a).toNat ∧ (alignUp y a).toNat ≤ x := by
  have hpow : 0 < 2 ^ k := Nat.two_pow_pos k
  have hmask : (a - 1).toNat = 2 ^ k - 1 := by
    have hone : (1 : BitVec 64).toNat = 1 := rfl
    rw [BitVec.toNat_sub_of_le (by rw [BitVec.le_def]; omega), ha, hone]
  have hk : k ≤ 64 := by
    have hlt := a.isLt
    rw [ha] at hlt
    exact Nat.le_of_lt ((Nat.pow_lt_pow_iff_right (by omega)).1 hlt)
  have hroom : x + 2 ^ k ≤ 2 ^ 64 := by
    obtain ⟨c, rfl⟩ := hdvd
    have hsplit : 2 ^ 64 = 2 ^ k * 2 ^ (64 - k) := by rw [← Nat.pow_add, Nat.add_sub_cancel' hk]
    rw [hsplit] at hx ⊢
    have hc : c < 2 ^ (64 - k) := Nat.lt_of_mul_lt_mul_left hx
    calc 2 ^ k * c + 2 ^ k = 2 ^ k * (c + 1) := by rw [Nat.mul_succ]
      _ ≤ 2 ^ k * 2 ^ (64 - k) := Nat.mul_le_mul_left _ hc
  have hsum : (y + a - 1).toNat = y.toNat + (2 ^ k - 1) := by
    rw [add_sub_assoc, BitVec.toNat_add_of_lt (by omega), hmask]
  have hrounded : (alignUp y a).toNat = (y.toNat + (2 ^ k - 1)) / 2 ^ k * 2 ^ k := by
    rw [alignUp, toNat_and_not_mask _ hmask, hsum]
  have hdiv := Nat.div_add_mod (y.toNat + (2 ^ k - 1)) (2 ^ k)
  have hmod := Nat.mod_lt (y.toNat + (2 ^ k - 1)) hpow
  rw [Nat.mul_comm] at hdiv
  refine ⟨by omega, ?_⟩
  rw [hrounded]
  obtain ⟨c, rfl⟩ := hdvd
  rw [Nat.mul_comm (2 ^ k) c]
  refine Nat.mul_le_mul_right _ (Nat.le_of_lt_succ ((Nat.div_lt_iff_lt_mul hpow).2 ?_))
  have hsucc : (c + 1) * 2 ^ k = 2 ^ k * c + 2 ^ k := by ring
  rw [Nat.succ_eq_add_one, hsucc]
  omega

/-- An allocation succeeds when a free extent holds an aligned range of its length. -/
theorem alloc_succeeds (cs : Bool) {size alignment : BitVec 64} (prot flags : BitVec 32)
    (name : Option (List Char)) {k x : ℕ} (hM : M < 2 ^ 64) (h : Ordered M l) (hsize : size ≠ 0)
    (hk : (vmAlignment alignment).toNat = 2 ^ k) (hdvd : 2 ^ k ∣ x)
    (hlen : alignUp size (vmAlignment alignment) ≠ 0)
    (hfree : ∀ y, x ≤ y → y < x + (alignUp size (vmAlignment alignment)).toNat → FreeAt l y) :
    ∃ a, (recompVmAllocNamedAligned true cs size alignment prot flags name l).2 = some a := by
  have hpos := toNat_pos_of_ne_zero hlen
  obtain ⟨e, he, hef, hlo, hhi⟩ := h.free_range hpos hfree
  have hbound := h.bounded e he
  have hcand := alignUp_bounds hk hdvd hlo (by omega)
  have hfits : e.fits (alignUp size (vmAlignment alignment)) (vmAlignment alignment) = true := by
    simp only [GuestVMExtent.fits, GuestVMExtent.candidate, Bool.and_eq_true, decide_eq_true_eq,
      BitVec.le_def, toNat_stop (show e.addr.toNat + e.size.toNat < 2 ^ 64 by omega)]
    rw [BitVec.toNat_add_of_lt (by omega)]
    exact ⟨⟨hef, hcand.1⟩, by omega⟩
  rw [recompVmAllocNamedAligned, if_neg hsize]
  dsimp only
  split
  · rename_i hnone
    rw [Option.or_eq_none_iff] at hnone
    have hall := (bestFit_none hnone.2).2 e he hfits
    cases hall
  · rename_i pre d post hfound
    obtain ⟨⟨front, m, back⟩, hes⟩ := carve_isSome cs d (d.candidate (vmAlignment alignment))
      (alignUp size (vmAlignment alignment)) prot flags name
    rw [hes]
    exact ⟨_, rfl⟩

/-! ### the runs that meet the condition -/

/-- The condition on a step. -/
def VmAdmits {Tid : Type*} (v : Vm Tid) : VmAct Tid → Prop
  | .call _ (.alloc _ _ size alignment _ _ _) => AllocFits size alignment v.extents
  | .call _ (.allocFixed _ _ desired size _ _ _) => FixedFits desired size v.extents
  | _ => True

/-- In at most 64 GiB of memory the list is in order from the start. -/
theorem initExtents_ordered {memSize : BitVec 64} (imageSize : BitVec 64) (callocStack : Bool)
    (hmem : memSize ≤ 0x1000000000) :
    Ordered memSize.toNat (initExtents memSize imageSize callocStack) := by
  obtain ⟨hfloor, hlow⟩ := stackFloor_le memSize
  have hstack : (lowMemLimit memSize - stackFloor memSize).toNat =
      (lowMemLimit memSize).toNat - (stackFloor memSize).toNat :=
    BitVec.toNat_sub_of_le (BitVec.le_def.2 hfloor)
  rw [initExtents, if_neg (BitVec.not_lt.2 hmem)]
  generalize pageUp (heapPtr imageSize) = heapStart
  generalize stackFloor memSize = floor at *
  generalize lowMemLimit memSize = limit at *
  constructor
  · rw [List.pairwise_append]
    refine ⟨?_, ?_, fun a ha b hb => ?_⟩
    · split
      · exact List.pairwise_singleton _ _
      · exact .nil
    · split
      · exact List.pairwise_singleton _ _
      · exact .nil
    · split at ha
      · rename_i hlt
        obtain rfl := List.mem_singleton.1 ha
        split at hb
        · obtain rfl := List.mem_singleton.1 hb
          have hsize : (floor - heapStart).toNat = floor.toNat - heapStart.toNat :=
            BitVec.toNat_sub_of_le (BitVec.le_of_lt hlt)
          rw [BitVec.lt_def] at hlt
          refine ⟨?_, ?_, fun _ hf => (nomatch hf)⟩
          · show 0 < (floor - heapStart).toNat
            omega
          · show heapStart.toNat + (floor - heapStart).toNat ≤ floor.toNat
            omega
        · cases hb
      · cases ha
  · intro e he
    rcases List.mem_append.1 he with he | he
    · split at he
      · rename_i hlt
        obtain rfl := List.mem_singleton.1 he
        show heapStart.toNat + (floor - heapStart).toNat ≤ memSize.toNat
        rw [BitVec.toNat_sub_of_le (BitVec.le_of_lt hlt)]
        rw [BitVec.lt_def] at hlt
        omega
      · cases he
    · rw [List.nil_append] at he
      split at he
      · obtain rfl := List.mem_singleton.1 he
        show floor.toNat + (limit - floor).toNat ≤ memSize.toNat
        omega
      · cases he

/-- What every state of such a run meets. -/
structure VmInv {Tid : Type*} (memSize : BitVec 64) (v : Vm Tid) : Prop where
  memSize_eq : v.memSize = memSize
  ordered : Ordered memSize.toNat v.extents
  inRange : ∀ t p, v.frees t = some p → p.InRange

section Runs

variable {Tid : Type*} [DecidableEq Tid] {memSize imageSize : BitVec 64} {callocStack : Bool}
  {v v' : Vm Tid}

theorem vmInv_step {a : VmAct Tid} (h : VmInv memSize v) (hok : VmAdmits v a)
    (hstep : v.exec a = some v') : VmInv memSize v' := by
  have hM := memSize.isLt
  rcases Vm.exec_cases hstep with ⟨t, c, rfl, -, rfl⟩ |
    ⟨t, ca, co, m, addr, size, l, r, rfl, -, heq, rfl⟩ |
    ⟨t, ca, co, m, addr, size, l, p, rfl, -, heq, rfl⟩ | ⟨t, p, rfl, hp, -, rfl⟩ |
    ⟨t, p, rfl, hp, -, rfl⟩
  · refine ⟨h.memSize_eq, ?_, h.inRange⟩
    show Ordered memSize.toNat (c.apply v.memSize v.extents).1
    rw [h.memSize_eq]
    refine call_ordered c h.ordered ?_ ?_
    · rintro cp cs size alignment prot flags name rfl
      exact hok
    · rintro cp cs desired size prot flags name rfl
      exact hok
  · have hbegin := freeBegin_ordered ca co m addr size hM h.ordered
    rw [heq] at hbegin
    exact ⟨h.memSize_eq, hbegin.1, h.inRange⟩
  · have hbegin := freeBegin_ordered ca co m addr size hM h.ordered
    rw [heq] at hbegin
    refine ⟨h.memSize_eq, hbegin.1, forall_pending h.inRange fun q hq => ?_⟩
    cases hq
    exact hbegin.2 p rfl
  · refine ⟨h.memSize_eq, h.ordered, forall_pending h.inRange fun q hq => ?_⟩
    cases hq
    exact h.inRange t p hp
  · refine ⟨h.memSize_eq, freeEnd_ordered hM (h.inRange t p hp) h.ordered, ?_⟩
    exact forall_pending h.inRange fun q hq => (nomatch hq)

theorem vmInv_reachable (hmem : memSize ≤ 0x1000000000)
    (h : Reachable ((vmSystem Tid memSize imageSize callocStack).restrict VmAdmits) v) :
    VmInv memSize v := by
  refine Reachable.invariant ?_ ?_ h
  · rintro w rfl
    exact ⟨rfl, initExtents_ordered imageSize callocStack hmem, fun t p hp => (nomatch hp)⟩
  · rintro w a w' - hw ⟨hok, hstep⟩
    exact vmInv_step hw hok hstep

/-- **The extent list.**  In at most 64 GiB of memory, in runs whose allocations meet the condition,
the list is well formed in every state, and an allocation succeeds that fits, page aligned, in bytes
that are free. -/
theorem vmExtents_ordered {requested imageSize : BitVec 64} {envMem : Option (BitVec 64)}
    (hmem : guestMemSize requested envMem imageSize ≤ 0x1000000000)
    (h : Reachable ((vmSystem Tid (guestMemSize requested envMem imageSize) imageSize
      callocStack).restrict VmAdmits) v) :
    VmWellFormed v.extents ∧
      ∀ (callocSplit : Bool) (size : BitVec 64) (x : ℕ), size ≠ 0 → alignUp size 4096 ≠ 0 →
        4096 ∣ x → (∀ y, x ≤ y → y < x + (alignUp size 4096).toNat → FreeAt v.extents y) →
        ∃ a, (recompVmAlloc true callocSplit size v.extents).2 = some a := by
  have hinv := vmInv_reachable hmem h
  refine ⟨hinv.ordered.wellFormed (BitVec.isLt _), fun cs size x hsize hlen hdvd hfree => ?_⟩
  exact alloc_succeeds (k := 12) cs _ _ _ (BitVec.isLt _) hinv.ordered hsize rfl hdvd hlen hfree

end Runs

/-- The state after an allocation of one page in 1 GiB of memory, and another one. -/
theorem vmExtents_ordered_page :
    VmWellFormed (recompVmAlloc true true 0x1000 (initExtents 0x40000000 0x10000 true)).1 ∧
      ∃ a, (recompVmAlloc true true 0x2000
        (recompVmAlloc true true 0x1000 (initExtents 0x40000000 0x10000 true)).1).2 = some a := by
  let page : VmAct Unit := .call () (.alloc true true 0x1000 4096 protReadWrite 0 (some "anon".toList))
  have hadmits : VmAdmits (Vm.start 0x40000000 0x10000 true) page := fun _ => by decide
  have hreach : Reachable ((vmSystem Unit (guestMemSize 0x40000000 none 0x10000) 0x10000
      true).restrict VmAdmits)
      { memSize := 0x40000000
        extents := (recompVmAlloc true true 0x1000 (initExtents 0x40000000 0x10000 true)).1
        frees := fun _ => none } := .step (.init rfl) ⟨hadmits, rfl⟩
  obtain ⟨hwell, halloc⟩ := vmExtents_ordered (by decide) hreach
  have hrest : { addr := 0x41000, size := 0x3bfbf000, isFree := true } ∈
      (recompVmAlloc true true 0x1000 (initExtents 0x40000000 0x10000 true)).1 := by decide
  refine ⟨hwell, halloc true 0x2000 0x41000 (by decide) (by decide) (by decide) fun y hlo hhi => ?_⟩
  have hlen : (alignUp 0x2000 4096).toNat = 0x2000 := by decide
  rw [hlen] at hhi
  exact ⟨_, hrest, rfl, hlo, Nat.lt_trans hhi (by decide)⟩

/-- In more than 64 GiB of memory the stack, below the user pool, is behind it in the list. -/
theorem initExtents_unordered {memSize : BitVec 64} (imageSize : BitVec 64)
    (hmem : 0x1000000000 < memSize) :
    ¬ (initExtents memSize imageSize true).Pairwise fun a b => a.addr ≤ b.addr := by
  intro h
  have hlimit : lowMemLimit memSize = 0x800000000 := by
    rw [lowMemLimit, if_neg]
    intro hlt
    have hpool : (0x800000000 : BitVec 64) < 0x1000000000 := by decide
    exact BitVec.lt_irrefl _ (BitVec.lt_trans hlt (BitVec.lt_trans hpool hmem))
  have hfloor : stackFloor memSize = 0x7fc000000 := by
    rw [stackFloor, hlimit]
    decide
  rw [initExtents, if_pos hmem, if_pos rfl, hfloor] at h
  have hpair := (List.pairwise_append.1 (List.pairwise_append.1 h).2.1).2.2 _
    (List.mem_singleton.2 rfl) _ (List.mem_singleton.2 rfl)
  have hpool : ¬ (0x1000000000 : BitVec 64) ≤ 0x7fc000000 := by decide
  exact hpool hpair

/-- With the default memory size the list is out of order from the start. -/
theorem vmExtents_unordered :
    ¬ ∀ (requested imageSize : BitVec 64) (envMem : Option (BitVec 64)) (callocStack : Bool)
        (v : Vm Unit),
      Reachable (vmSystem Unit (guestMemSize requested envMem imageSize) imageSize callocStack) v →
        v.extents.Pairwise fun a b => a.addr ≤ b.addr := by
  intro h
  have hstart := h 0 0x10000 none true (Vm.start (guestMemSize 0 none 0x10000) 0x10000 true)
    (.init rfl)
  exact initExtents_unordered 0x10000 (by decide) hstart

end PS4Recomp.Runtime
