import PS4Recomp.Runtime.VmExtents

/-!
# Freeing virtual memory

`recomp_vm_free` between the calls of other threads, and alone.

* `Apart` — no byte is in two extents;
* `MappedAs`, `FreeAt`, `SameBytes` — what the list says about a byte, and lists that say the same;
* `splitEnds_bytes`, `coalesceFrom_bytes` — splits and merges say the same about every byte;
* `Watch`, `watchedSystem` — the runs, with the extents allocated since a thread's call began;
* `FreeAdmits` — the condition on a step: no second call frees a noted range, and no fixed mapping
  goes into a reserved extent that is noted;
* **`vmFree_safe`** — in such runs a call never unmaps or frees what was allocated after it began,
  and alone it frees the mapped bytes of its range and no others;
* `vmFree_unsafe` — two calls over one range free an extent that was allocated after they began.
-/

namespace PS4Recomp.Runtime

open Library Library.Transition

variable {M : ℕ} {l l' pre post es : List GuestVMExtent} {e : GuestVMExtent}

/-! ### what the list says about a byte -/

/-- The attributes of a mapping: `prot`, `flags`, `mtype` and `name`. -/
def GuestVMExtent.attrs (e : GuestVMExtent) : BitVec 32 × BitVec 32 × BitVec 32 × List Char :=
  (e.prot, e.flags, e.mtype, e.name)

/-- A byte of a mapped extent with these attributes. -/
def MappedAs (l : List GuestVMExtent) (x : ℕ)
    (attrs : BitVec 32 × BitVec 32 × BitVec 32 × List Char) : Prop :=
  ∃ e ∈ l, e.isFree = false ∧ e.Has x ∧ e.attrs = attrs

/-- Two lists that say the same about every byte. -/
structure SameBytes (l l' : List GuestVMExtent) : Prop where
  free : ∀ x, FreeAt l' x ↔ FreeAt l x
  mapped : ∀ x attrs, MappedAs l' x attrs ↔ MappedAs l x attrs

theorem SameBytes.refl (l : List GuestVMExtent) : SameBytes l l := ⟨fun _ => .rfl, fun _ _ => .rfl⟩

theorem SameBytes.trans {l'' : List GuestVMExtent} (h : SameBytes l l') (h' : SameBytes l' l'') :
    SameBytes l l'' :=
  ⟨fun x => (h'.free x).trans (h.free x), fun x a => (h'.mapped x a).trans (h.mapped x a)⟩

theorem freeAt_append {x : ℕ} : FreeAt (l ++ l') x ↔ FreeAt l x ∨ FreeAt l' x := by
  simp only [FreeAt, List.mem_append, or_and_right, exists_or]

theorem freeAt_cons {x : ℕ} :
    FreeAt (e :: l) x ↔ e.isFree = true ∧ e.Has x ∨ FreeAt l x := by
  simp only [FreeAt, List.mem_cons, or_and_right, exists_or, exists_eq_left]

theorem mappedAs_append {x : ℕ} {attrs : BitVec 32 × BitVec 32 × BitVec 32 × List Char} :
    MappedAs (l ++ l') x attrs ↔ MappedAs l x attrs ∨ MappedAs l' x attrs := by
  simp only [MappedAs, List.mem_append, or_and_right, exists_or]

theorem mappedAs_cons {x : ℕ} {attrs : BitVec 32 × BitVec 32 × BitVec 32 × List Char} :
    MappedAs (e :: l) x attrs ↔
      e.isFree = false ∧ e.Has x ∧ e.attrs = attrs ∨ MappedAs l x attrs := by
  simp only [MappedAs, List.mem_cons, or_and_right, exists_or, exists_eq_left]

theorem exists_has_iff {x : ℕ} :
    (∃ c ∈ l, c.Has x) ↔ FreeAt l x ∨ ∃ attrs, MappedAs l x attrs := by
  constructor
  · rintro ⟨c, hc, hx⟩
    cases hfree : c.isFree with
    | true => exact .inl ⟨c, hc, hfree, hx⟩
    | false => exact .inr ⟨c.attrs, c, hc, hfree, hx, rfl⟩
  · rintro (⟨c, hc, -, hx⟩ | ⟨_, c, hc, -, hx, -⟩)
    · exact ⟨c, hc, hx⟩
    · exact ⟨c, hc, hx⟩

theorem SameBytes.exists_has {x : ℕ} (h : SameBytes l l') :
    (∃ c ∈ l', c.Has x) ↔ ∃ c ∈ l, c.Has x := by
  simp only [exists_has_iff, h.free, h.mapped]

/-! ### disjoint extents -/

/-- No byte is in two extents, and every extent ends inside memory. -/
structure Apart (M : ℕ) (l : List GuestVMExtent) : Prop where
  pairwise : l.Pairwise fun a b => ∀ x, a.Has x → ¬ b.Has x
  bounded : ∀ e ∈ l, e.addr.toNat + e.size.toNat ≤ M

theorem Apart.unique (h : Apart M l) {a b : GuestVMExtent} (ha : a ∈ l) (hb : b ∈ l) {x : ℕ}
    (hax : a.Has x) (hbx : b.Has x) : a = b := by
  by_contra hne
  have hsymm : Std.Symm fun a b : GuestVMExtent => ∀ x, a.Has x → ¬ b.Has x :=
    ⟨fun _ _ hab y hb ha => hab y ha hb⟩
  exact h.pairwise.forall ha hb hne x hax hbx

theorem Apart.not_freeAt (h : Apart M l) (he : e ∈ l) (hfree : e.isFree = false) {x : ℕ}
    (hx : e.Has x) : ¬ FreeAt l x := by
  rintro ⟨d, hd, hdf, hdx⟩
  have heq := h.unique he hd hx hdx
  rw [heq] at hfree
  exact Bool.false_ne_true (hfree.symm.trans hdf)

theorem Apart.middle (h : Apart M (pre ++ e :: post)) : e.addr.toNat + e.size.toNat ≤ M :=
  h.bounded e (List.mem_append_right _ List.mem_cons_self)

/-- **Replacement.**  Disjoint extents inside the place of one keep the list disjoint. -/
theorem Apart.replace (h : Apart M (pre ++ e :: post)) (hes : Apart M es)
    (hin : ∀ c ∈ es, ∀ x, c.Has x → e.Has x) : Apart M (pre ++ es ++ post) := by
  obtain ⟨hpre, hrest, hcross⟩ := List.pairwise_append.1 h.pairwise
  obtain ⟨hepost, hpost⟩ := List.pairwise_cons.1 hrest
  constructor
  · rw [List.append_assoc, List.pairwise_append, List.pairwise_append]
    refine ⟨hpre, ⟨hes.pairwise, hpost, fun c hc z hz x hcx => hepost z hz x (hin c hc x hcx)⟩, ?_⟩
    intro z hz c hc x hzx hcx
    rcases List.mem_append.1 hc with hc | hc
    · exact hcross z hz e List.mem_cons_self x hzx (hin c hc x hcx)
    · exact hcross z hz c (List.mem_cons_of_mem e hc) x hzx hcx
  · intro c hc
    rcases List.mem_append.1 hc with hc | hc
    · rcases List.mem_append.1 hc with hc | hc
      · exact h.bounded c (List.mem_append_left _ hc)
      · exact hes.bounded c hc
    · exact h.bounded c (List.mem_append_right _ (List.mem_cons_of_mem e hc))

/-- Pieces that fill an extent are disjoint and inside it. -/
theorem apart_tiles (he : e.addr.toNat + e.size.toNat ≤ M)
    (htiles : Tiles (fun c => c.addr.toNat) (fun c => c.size.toNat) e.addr.toNat
      (e.addr.toNat + e.size.toNat) es) :
    Apart M es ∧ ∀ c ∈ es, ∀ x, c.Has x → e.Has x := by
  refine ⟨⟨htiles.pairwise.imp fun hab x hax hbx => ?_, fun c hc => ?_⟩, fun c hc x hx => ?_⟩
  · have hlt := hax.2
    have hge := hbx.1
    omega
  · have hbound := htiles.bounds hc
    omega
  · have hbound := htiles.bounds hc
    have hlo := hx.1
    have hhi := hx.2
    exact ⟨by omega, by omega⟩

/-! ### splits -/

theorem halves_bytes {cut : BitVec 64} (h : e.straddles cut = true)
    (htot : e.addr.toNat + e.size.toNat < 2 ^ 64) (x : ℕ) :
    (∃ c ∈ e.halves cut, c.Has x) ↔ e.Has x := by
  obtain ⟨-, hlo, hhi, hfirst, hsecond, -⟩ := halves_spec h htot
  simp only [GuestVMExtent.halves, List.mem_cons, List.not_mem_nil, or_false, exists_eq_or_imp,
    exists_eq_left, GuestVMExtent.Has, hfirst, hsecond]
  omega

theorem mem_halves {cut : BitVec 64} {c : GuestVMExtent} (h : e.straddles cut = true)
    (htot : e.addr.toNat + e.size.toNat < 2 ^ 64) (hc : c ∈ e.halves cut) :
    c.isFree = false ∧ c.attrs = e.attrs := by
  have hfree := (halves_spec h htot).1
  rcases List.mem_pair.1 hc with rfl | rfl
  · exact ⟨hfree, rfl⟩
  · exact ⟨hfree, rfl⟩

theorem splitExtentAt_apart (calloc : Bool) (cut : BitVec 64) (hM : M < 2 ^ 64) (h : Apart M l) :
    Apart M (splitExtentAt calloc cut l).1 := by
  rcases splitExtentAt_cases calloc cut l with ⟨heq, -⟩ | ⟨pre, e, post, hfound, heq⟩
  · rw [heq]
    exact h
  · rw [heq]
    obtain ⟨rfl, hstraddles⟩ := firstSplit_eq_some hfound
    have htot : e.addr.toNat + e.size.toNat < 2 ^ 64 := Nat.lt_of_le_of_lt h.middle hM
    obtain ⟨-, -, -, -, -, htiles⟩ := halves_spec hstraddles htot
    obtain ⟨hapart, hin⟩ := apart_tiles h.middle htiles
    exact h.replace hapart hin

theorem splitExtentAt_bytes (calloc : Bool) (cut : BitVec 64) (hM : M < 2 ^ 64) (h : Apart M l) :
    SameBytes l (splitExtentAt calloc cut l).1 := by
  rcases splitExtentAt_cases calloc cut l with ⟨heq, -⟩ | ⟨pre, e, post, hfound, heq⟩
  · rw [heq]
    exact .refl l
  · rw [heq]
    obtain ⟨rfl, hstraddles⟩ := firstSplit_eq_some hfound
    have htot : e.addr.toNat + e.size.toNat < 2 ^ 64 := Nat.lt_of_le_of_lt h.middle hM
    have hfree := (halves_spec hstraddles htot).1
    have hbytes := halves_bytes hstraddles htot
    constructor
    · intro x
      show FreeAt (pre ++ e.halves cut ++ post) x ↔ FreeAt (pre ++ e :: post) x
      have hnone : ¬ FreeAt (e.halves cut) x := by
        rintro ⟨c, hc, hcf, -⟩
        exact Bool.false_ne_true ((mem_halves hstraddles htot hc).1.symm.trans hcf)
      rw [freeAt_append, freeAt_append, freeAt_append, freeAt_cons, hfree]
      simp only [hnone, Bool.false_eq_true, false_and, false_or, or_false]
    · intro x attrs
      show MappedAs (pre ++ e.halves cut ++ post) x attrs ↔ MappedAs (pre ++ e :: post) x attrs
      have hsome : MappedAs (e.halves cut) x attrs ↔ e.Has x ∧ e.attrs = attrs := by
        constructor
        · rintro ⟨c, hc, -, hx, rfl⟩
          exact ⟨(hbytes x).1 ⟨c, hc, hx⟩, (mem_halves hstraddles htot hc).2.symm⟩
        · rintro ⟨hx, rfl⟩
          obtain ⟨c, hc, hcx⟩ := (hbytes x).2 hx
          obtain ⟨hcf, hca⟩ := mem_halves hstraddles htot hc
          exact ⟨c, hc, hcf, hcx, hca⟩
      rw [mappedAs_append, mappedAs_append, mappedAs_append, mappedAs_cons, hsome, hfree, or_assoc]
      simp only [true_and]

theorem straddles_iff {cut : BitVec 64} (htot : e.addr.toNat + e.size.toNat < 2 ^ 64) :
    e.straddles cut = true ↔ e.isFree = false ∧ e.addr.toNat < cut.toNat ∧
      cut.toNat < e.addr.toNat + e.size.toNat := by
  simp only [GuestVMExtent.straddles, Bool.not_eq_true', Bool.or_eq_false_iff,
    decide_eq_false_iff_not, BitVec.not_le, BitVec.lt_def, toNat_stop htot, and_assoc]

theorem splitExtentAt_cut (calloc : Bool) (cut : BitVec 64) (hM : M < 2 ^ 64) (h : Apart M l)
    (hok : (splitExtentAt calloc cut l).2 = true) :
    ∀ c ∈ (splitExtentAt calloc cut l).1, c.straddles cut = false := by
  have hapart := splitExtentAt_apart calloc cut hM h
  rcases splitExtentAt_cases calloc cut l with ⟨heq, hwhy⟩ | ⟨pre, e, post, hfound, heq⟩
  · rw [heq]
    rcases hwhy with hnone | hfail
    · exact firstSplit_eq_none hnone
    · exact absurd (hfail.symm.trans hok) Bool.false_ne_true
  · rw [heq] at hapart ⊢
    obtain ⟨rfl, hstraddles⟩ := firstSplit_eq_some hfound
    have htot : e.addr.toNat + e.size.toNat < 2 ^ 64 := Nat.lt_of_le_of_lt h.middle hM
    obtain ⟨-, -, hhi, -, hsecond, -⟩ := halves_spec hstraddles htot
    intro c hc
    by_contra hyes
    rw [Bool.not_eq_false, straddles_iff (Nat.lt_of_le_of_lt (hapart.bounded c hc) hM)] at hyes
    -- the extent would share the byte at the cut with the upper half
    have hupper : { e with addr := cut, size := e.stop - cut } ∈ pre ++ e.halves cut ++ post :=
      List.mem_append_left _ (List.mem_append_right _ (List.mem_cons_of_mem _ List.mem_cons_self))
    have hsame := hapart.unique hc hupper (x := cut.toNat) ⟨by omega, by omega⟩ ⟨Nat.le_refl _, by
      show cut.toNat < cut.toNat + (e.stop - cut).toNat
      omega⟩
    rw [hsame] at hyes
    exact Nat.lt_irrefl _ hyes.2.1

/-- An extent of the split list lies in one of the list before it. -/
theorem splitExtentAt_within {calloc : Bool} {cut : BitVec 64} (hM : M < 2 ^ 64) (h : Apart M l) :
    ∀ c ∈ (splitExtentAt calloc cut l).1, ∃ d ∈ l, d.isFree = c.isFree ∧
      d.addr.toNat ≤ c.addr.toNat ∧
      c.addr.toNat + c.size.toNat ≤ d.addr.toNat + d.size.toNat := by
  rcases splitExtentAt_cases calloc cut l with ⟨heq, -⟩ | ⟨pre, e, post, hfound, heq⟩
  · rw [heq]
    exact fun c hc => ⟨c, hc, rfl, Nat.le_refl _, Nat.le_refl _⟩
  · rw [heq]
    obtain ⟨rfl, hstraddles⟩ := firstSplit_eq_some hfound
    have htot : e.addr.toNat + e.size.toNat < 2 ^ 64 := Nat.lt_of_le_of_lt h.middle hM
    obtain ⟨hfree, -, -, -, -, htiles⟩ := halves_spec hstraddles htot
    intro c hc
    rcases List.mem_append.1 hc with hc | hc
    · rcases List.mem_append.1 hc with hc | hc
      · exact ⟨c, List.mem_append_left _ hc, rfl, Nat.le_refl _, Nat.le_refl _⟩
      · have hbound := htiles.bounds hc
        exact ⟨e, List.mem_append_right _ List.mem_cons_self,
          hfree.trans (mem_halves hstraddles htot hc).1.symm, hbound.1, hbound.2⟩
    · exact ⟨c, List.mem_append_right _ (List.mem_cons_of_mem e hc), rfl, Nat.le_refl _,
        Nat.le_refl _⟩

theorem splitEnds_apart (ca co : Bool) (start stop : BitVec 64) (hM : M < 2 ^ 64) (h : Apart M l) :
    Apart M (splitEnds ca co start stop l).1 := by
  have hfirst := splitExtentAt_apart ca start hM h
  rw [splitEnds]
  split
  · rename_i l' heq
    rw [heq] at hfirst
    exact hfirst
  · rename_i l' heq
    rw [heq] at hfirst
    exact splitExtentAt_apart co stop hM hfirst

theorem splitEnds_bytes (ca co : Bool) (start stop : BitVec 64) (hM : M < 2 ^ 64) (h : Apart M l) :
    SameBytes l (splitEnds ca co start stop l).1 := by
  have hapart := splitExtentAt_apart ca start hM h
  have hfirst := splitExtentAt_bytes ca start hM h
  rw [splitEnds]
  split
  · rename_i l' heq
    rw [heq] at hfirst
    exact hfirst
  · rename_i l' heq
    rw [heq] at hfirst hapart
    exact hfirst.trans (splitExtentAt_bytes co stop hM hapart)

/-- After both splits no mapped extent straddles an end of the range. -/
theorem splitEnds_cut (ca co : Bool) (start stop : BitVec 64) (hM : M < 2 ^ 64) (h : Apart M l)
    (hok : (splitEnds ca co start stop l).2 = true) :
    ∀ c ∈ (splitEnds ca co start stop l).1, c.straddles start = false ∧ c.straddles stop = false := by
  have hapart := splitExtentAt_apart ca start hM h
  have hcut := splitExtentAt_cut ca start hM h
  rw [splitEnds] at hok ⊢
  split at hok
  · cases hok
  · rename_i l' heq
    rw [heq] at hapart hcut
    intro c hc
    refine ⟨?_, splitExtentAt_cut co stop hM hapart hok c hc⟩
    -- a piece that straddled the start would lie in an extent that did
    obtain ⟨d, hd, hfree, hlo, hhi⟩ := splitExtentAt_within hM hapart c hc
    have hnot := hcut rfl d hd
    by_contra hyes
    have hbc := (splitExtentAt_apart co stop hM hapart).bounded c hc
    have hbd := hapart.bounded d hd
    rw [Bool.not_eq_false, straddles_iff (by omega)] at hyes
    have hd' : d.straddles start = true :=
      (straddles_iff (by omega)).2 ⟨hfree.trans hyes.1, by omega, by omega⟩
    exact Bool.false_ne_true (hnot.symm.trans hd')

/-! ### allocations and attributes -/

/-- A carved range: what is free afterwards was free, or lies in the extent it was carved out of. -/
theorem carve_apart {cp cs : Bool} {start len : BitVec 64} {prot flags : BitVec 32}
    {name : Option (List Char)} {front back : List GuestVMExtent} {m : GuestVMExtent}
    (hM : M < 2 ^ 64) (h : Apart M (pre ++ e :: post)) (hstart : e.addr.toNat ≤ start.toNat)
    (hend : start.toNat + len.toNat ≤ e.addr.toNat + e.size.toNat)
    (hcarve : e.carve cp cs start len prot flags name = some (front, m, back)) :
    Apart M (pre ++ (front ++ m :: back) ++ post) ∧ (∀ x, m.Has x → e.Has x) ∧
      ∀ x, FreeAt (pre ++ (front ++ m :: back) ++ post) x →
        FreeAt (pre ++ e :: post) x ∨ e.Has x := by
  obtain ⟨-, -, -, htiles, -, -⟩ := carve_spec (Nat.lt_of_le_of_lt h.middle hM) hstart hend hcarve
  obtain ⟨hapart, hin⟩ := apart_tiles h.middle htiles
  refine ⟨h.replace hapart hin, hin m (List.mem_append_right _ List.mem_cons_self), fun x hx => ?_⟩
  rw [freeAt_append, freeAt_append] at hx
  rw [freeAt_append, freeAt_cons]
  rcases hx with (hx | ⟨c, hc, -, hcx⟩) | hx
  · exact .inl (.inl hx)
  · exact .inr (hin c hc x hcx)
  · exact .inl (.inr (.inr hx))

theorem apart_map {f : GuestVMExtent → GuestVMExtent}
    (hf : ∀ c, (f c).addr = c.addr ∧ (f c).size = c.size) (h : Apart M l) : Apart M (l.map f) := by
  constructor
  · refine List.pairwise_map.2 (h.pairwise.imp fun {a b} hab x hax hbx => hab x ?_ ?_)
    · rwa [GuestVMExtent.Has, (hf a).1, (hf a).2] at hax
    · rwa [GuestVMExtent.Has, (hf b).1, (hf b).2] at hbx
  · intro c hc
    obtain ⟨d, hd, rfl⟩ := List.mem_map.1 hc
    rw [(hf d).1, (hf d).2]
    exact h.bounded d hd

theorem freeAt_map {f : GuestVMExtent → GuestVMExtent}
    (hf : ∀ c, (f c).addr = c.addr ∧ (f c).size = c.size ∧ (f c).isFree = c.isFree) (x : ℕ) :
    FreeAt (l.map f) x ↔ FreeAt l x := by
  constructor
  · rintro ⟨c, hc, hcf, hcx⟩
    obtain ⟨d, hd, rfl⟩ := List.mem_map.1 hc
    obtain ⟨haddr, hsize, hfree⟩ := hf d
    rw [GuestVMExtent.Has, haddr, hsize] at hcx
    exact ⟨d, hd, hfree ▸ hcf, hcx⟩
  · rintro ⟨d, hd, hdf, hdx⟩
    obtain ⟨haddr, hsize, hfree⟩ := hf d
    refine ⟨f d, List.mem_map_of_mem hd, hfree.trans hdf, ?_⟩
    rwa [GuestVMExtent.Has, haddr, hsize]

/-! ### merging -/

theorem merged_has {n : GuestVMExtent} (hsum : e.size.toNat + n.size.toNat < 2 ^ 64)
    (htouch : e.addr.toNat + e.size.toNat = n.addr.toNat) (x : ℕ) :
    GuestVMExtent.Has { e with size := e.size + n.size } x ↔ e.Has x ∨ n.Has x := by
  simp only [GuestVMExtent.Has, BitVec.toNat_add_of_lt hsum]
  omega

/-- The loop of `vm_coalesce_free` says the same about every byte. -/
theorem coalesceFrom_bytes (stop : BitVec 64) (hM : M < 2 ^ 64) {l : List GuestVMExtent} :
    ∀ {e : GuestVMExtent}, Apart M (e :: l) →
      Apart M (coalesceFrom stop e l) ∧ SameBytes (e :: l) (coalesceFrom stop e l) := by
  induction l with
  | nil => exact fun h => ⟨h, .refl _⟩
  | cons n l ih =>
      intro e h
      obtain ⟨hen, hnl⟩ := List.pairwise_cons.1 h.pairwise
      have hbe := h.bounded e List.mem_cons_self
      have hbn := h.bounded n (List.mem_cons_of_mem e List.mem_cons_self)
      rw [coalesceFrom]
      split
      · split
        · -- `n` is merged into `e`
          rename_i hmerge
          simp only [Bool.and_eq_true, beq_iff_eq] at hmerge
          obtain ⟨⟨hef, hnf⟩, htouch⟩ := hmerge
          have htouch := congrArg BitVec.toNat htouch
          rw [toNat_stop (by omega)] at htouch
          have hsize : (e.size + n.size).toNat = e.size.toNat + n.size.toNat :=
            BitVec.toNat_add_of_lt (by omega)
          have hhas := merged_has (e := e) (n := n) (by omega) htouch
          have hmerged : Apart M ({ e with size := e.size + n.size } :: l) := by
            refine ⟨List.pairwise_cons.2 ⟨fun c hc x hx hcx => ?_, (List.pairwise_cons.1 hnl).2⟩,
              fun c hc => ?_⟩
            · rcases (hhas x).1 hx with hx | hx
              · exact hen c (List.mem_cons_of_mem n hc) x hx hcx
              · exact (List.pairwise_cons.1 hnl).1 c hc x hx hcx
            · rcases List.mem_cons.1 hc with rfl | hc
              · show e.addr.toNat + (e.size + n.size).toNat ≤ M
                omega
              · exact h.bounded c (List.mem_cons_of_mem e (List.mem_cons_of_mem n hc))
          obtain ⟨hapart, hsame⟩ := ih hmerged
          refine ⟨hapart, SameBytes.trans ⟨fun x => ?_, fun x attrs => ?_⟩ hsame⟩
          · rw [freeAt_cons, freeAt_cons, freeAt_cons, hhas, hnf]
            show e.isFree = true ∧ _ ∨ _ ↔ _
            rw [hef]
            simp only [true_and, or_assoc]
          · rw [mappedAs_cons, mappedAs_cons, mappedAs_cons, hnf]
            show e.isFree = false ∧ _ ∨ _ ↔ _
            rw [hef]
            simp only [Bool.true_eq_false, false_and, false_or]
        · -- `e` stays
          have htail : Apart M (n :: l) :=
            ⟨hnl, fun c hc => h.bounded c (List.mem_cons_of_mem e hc)⟩
          obtain ⟨hapart, hsame⟩ := ih htail
          refine ⟨⟨List.pairwise_cons.2 ⟨fun d hd x hx hdx => ?_, hapart.pairwise⟩, fun c hc => ?_⟩,
            fun x => ?_, fun x attrs => ?_⟩
          · obtain ⟨c, hc, hcx⟩ := hsame.exists_has.1 ⟨d, hd, hdx⟩
            exact hen c hc x hx hcx
          · rcases List.mem_cons.1 hc with rfl | hc
            · exact hbe
            · exact hapart.bounded c hc
          · rw [freeAt_cons, freeAt_cons, hsame.free]
          · rw [mappedAs_cons, mappedAs_cons, hsame.mapped]
      · exact ⟨h, .refl _⟩

theorem vmCoalesceFree_cases (start stop : BitVec 64) (l : List GuestVMExtent) :
    vmCoalesceFree start stop l = l ∨ ∃ pre e post, l = pre ++ e :: post ∧
      vmCoalesceFree start stop l = pre ++ coalesceFrom stop e post := by
  have hsplit : l.takeWhile (fun e => decide (e.stop < start)) ++
      l.dropWhile (fun e => decide (e.stop < start)) = l := List.takeWhile_append_dropWhile
  rw [vmCoalesceFree]
  generalize l.takeWhile (fun e => decide (e.stop < start)) = pre at hsplit ⊢
  generalize l.dropWhile (fun e => decide (e.stop < start)) = rest at hsplit ⊢
  subst hsplit
  cases rest with
  | nil => exact .inl rfl
  | cons e es =>
      dsimp only
      cases hlast : pre.getLast? with
      | none =>
          rw [List.getLast?_eq_none_iff] at hlast
          subst hlast
          exact .inr ⟨[], e, es, rfl, rfl⟩
      | some p =>
          have hpre : pre.dropLast ++ [p] = pre := List.dropLast_append_getLast? p hlast
          refine .inr ⟨pre.dropLast, p, e :: es, ?_, rfl⟩
          conv_lhs => rw [← hpre, List.append_assoc]
          rfl

theorem vmCoalesceFree_bytes (start stop : BitVec 64) (hM : M < 2 ^ 64) (h : Apart M l) :
    Apart M (vmCoalesceFree start stop l) ∧ SameBytes l (vmCoalesceFree start stop l) := by
  rcases vmCoalesceFree_cases start stop l with heq | ⟨pre, e, post, rfl, heq⟩
  · rw [heq]
    exact ⟨h, .refl l⟩
  · rw [heq]
    obtain ⟨hpre, hrest, hcross⟩ := List.pairwise_append.1 h.pairwise
    obtain ⟨hapart, hsame⟩ := coalesceFrom_bytes stop hM
      ⟨hrest, fun c hc => h.bounded c (List.mem_append_right pre hc)⟩
    refine ⟨⟨List.pairwise_append.2 ⟨hpre, hapart.pairwise, fun z hz d hd x hzx hdx => ?_⟩,
      fun c hc => ?_⟩, fun x => ?_, fun x attrs => ?_⟩
    · obtain ⟨c, hc, hcx⟩ := hsame.exists_has.1 ⟨d, hd, hdx⟩
      exact hcross z hz c hc x hzx hcx
    · rcases List.mem_append.1 hc with hc | hc
      · exact h.bounded c (List.mem_append_left _ hc)
      · exact hapart.bounded c hc
    · rw [freeAt_append, freeAt_append, hsame.free]
    · rw [mappedAs_append, mappedAs_append, hsame.mapped]

/-! ### noted ranges -/

/-- A byte of a noted range. -/
def VmRange.Has (r : VmRange) (x : ℕ) : Prop := r.addr.toNat ≤ x ∧ x < r.addr.toNat + r.size.toNat

instance (r : VmRange) (x : ℕ) : Decidable (r.Has x) := inferInstanceAs (Decidable (_ ∧ _))

/-- A byte that a call under way has noted. -/
def PendingFree.Noted (p : PendingFree) (x : ℕ) : Prop := ∃ r ∈ p.ranges, r.Has x

/-- An extent that the last phase of a call marks free. -/
def GuestVMExtent.marked (rs : List VmRange) (e : GuestVMExtent) : Bool :=
  rs.any fun r => e.inside r.addr (r.addr + r.size)

theorem marked_iff {rs : List VmRange} (htot : e.addr.toNat + e.size.toNat < 2 ^ 64)
    (hrs : ∀ r ∈ rs, r.addr.toNat + r.size.toNat < 2 ^ 64) :
    e.marked rs = true ↔ e.isFree = false ∧ ∃ r ∈ rs, r.addr.toNat ≤ e.addr.toNat ∧
      e.addr.toNat + e.size.toNat ≤ r.addr.toNat + r.size.toNat := by
  simp only [GuestVMExtent.marked, List.any_eq_true, GuestVMExtent.inside, Bool.and_eq_true,
    Bool.not_eq_true', decide_eq_true_eq, BitVec.le_def, toNat_stop htot]
  constructor
  · rintro ⟨r, hr, ⟨hfree, hlo⟩, hhi⟩
    rw [BitVec.toNat_add_of_lt (hrs r hr)] at hhi
    exact ⟨hfree, r, hr, hlo, hhi⟩
  · rintro ⟨hfree, r, hr, hlo, hhi⟩
    exact ⟨r, hr, ⟨hfree, hlo⟩, by rwa [BitVec.toNat_add_of_lt (hrs r hr)]⟩

/-- Marking the ranges one after the other marks the extents inside one of them. -/
theorem foldl_markFree (rs : List VmRange) (l : List GuestVMExtent) :
    rs.foldl markFree l = l.map fun e => if e.marked rs then { e with isFree := true } else e := by
  induction rs generalizing l with
  | nil => exact (List.map_id' l).symm
  | cons r rs ih =>
      show rs.foldl markFree (markFree l r) = _
      rw [ih, markFree, List.map_map]
      refine List.map_congr_left fun e _ => ?_
      rw [Function.comp_apply]
      by_cases hin : e.inside r.addr (r.addr + r.size) = true
      · have hfree : GuestVMExtent.marked rs { e with isFree := true } = false := by
          rw [GuestVMExtent.marked, List.any_eq_false]
          exact fun _ _ hmark => (nomatch hmark)
        have hmark : e.marked (r :: rs) = true := by
          rw [GuestVMExtent.marked, List.any_cons, hin, Bool.true_or]
        simp only [hin, if_true, hfree, hmark, Bool.false_eq_true, if_false]
      · have hmark : e.marked (r :: rs) = e.marked rs := by
          rw [GuestVMExtent.marked, List.any_cons, Bool.eq_false_of_not_eq_true hin, Bool.false_or,
            GuestVMExtent.marked]
        simp only [if_neg hin, hmark]

theorem markAll_bytes (rs : List VmRange) (l : List GuestVMExtent) (x : ℕ) :
    (FreeAt (rs.foldl markFree l) x ↔
      FreeAt l x ∨ ∃ e ∈ l, e.marked rs = true ∧ e.Has x) ∧
    ∀ attrs, MappedAs (rs.foldl markFree l) x attrs ↔
      ∃ e ∈ l, e.isFree = false ∧ e.Has x ∧ e.attrs = attrs ∧ e.marked rs = false := by
  rw [foldl_markFree]
  constructor
  · constructor
    · rintro ⟨c, hc, hcf, hcx⟩
      obtain ⟨e, he, rfl⟩ := List.mem_map.1 hc
      split at hcf
      · rename_i hmark
        rw [if_pos hmark] at hcx
        exact .inr ⟨e, he, hmark, hcx⟩
      · rename_i hmark
        rw [if_neg hmark] at hcx
        exact .inl ⟨e, he, hcf, hcx⟩
    · rintro (⟨e, he, hef, hex⟩ | ⟨e, he, hmark, hex⟩)
      · refine ⟨_, List.mem_map_of_mem he, ?_, ?_⟩
        · split
          · rfl
          · exact hef
        · split
          · exact hex
          · exact hex
      · refine ⟨_, List.mem_map_of_mem he, ?_, ?_⟩
        · rw [if_pos hmark]
        · rw [if_pos hmark]
          exact hex
  · intro attrs
    constructor
    · rintro ⟨c, hc, hcf, hcx, hca⟩
      obtain ⟨e, he, rfl⟩ := List.mem_map.1 hc
      split at hcf
      · cases hcf
      · rename_i hmark
        rw [if_neg hmark] at hcx hca
        exact ⟨e, he, hcf, hcx, hca, Bool.eq_false_of_not_eq_true hmark⟩
    · rintro ⟨e, he, hef, hex, hea, hmark⟩
      refine ⟨_, List.mem_map_of_mem he, ?_⟩
      rw [if_neg (by rw [hmark]; exact Bool.false_ne_true)]
      exact ⟨hef, hex, hea⟩

/-- The first phase of a call: it fails, leaving every byte as it was, or finds nothing to free, or
notes the mapped extents of its range. -/
theorem freeBegin_cases (ca co m : Bool) (addr size : BitVec 64) (hM : M < 2 ^ 64) (h : Apart M l) :
    ∃ l', (freeBegin ca co m addr size l).1 = l' ∧ Apart M l' ∧ SameBytes l l' ∧
      ((freeBegin ca co m addr size l).2 = .inl (-1) ∨
        (∀ c ∈ l', c.straddles (pageDown addr) = false ∧
          c.straddles (pageDown addr + pageUp size) = false) ∧
        (((freeBegin ca co m addr size l).2 = .inl 0 ∧
            ∀ c ∈ l', c.inside (pageDown addr) (pageDown addr + pageUp size) = false) ∨
          (freeBegin ca co m addr size l).2 = .inr {
            start := pageDown addr
            stop := pageDown addr + pageUp size
            ranges := (l'.filter (GuestVMExtent.inside (pageDown addr)
              (pageDown addr + pageUp size))).map fun e => { addr := e.addr, size := e.size } })) := by
  have hapart := splitEnds_apart ca co (pageDown addr) (pageDown addr + pageUp size) hM h
  have hsame := splitEnds_bytes ca co (pageDown addr) (pageDown addr + pageUp size) hM h
  have hcut := splitEnds_cut ca co (pageDown addr) (pageDown addr + pageUp size) hM h
  rw [freeBegin]
  dsimp only
  split
  · exact ⟨l, rfl, h, .refl l, .inl rfl⟩
  · split
    · rename_i l' heq
      rw [heq] at hapart hsame
      exact ⟨l', rfl, hapart, hsame, .inl rfl⟩
    · rename_i l' heq
      rw [heq] at hapart hsame hcut
      refine ⟨l', ?_, hapart, hsame, ?_⟩
      · split
        · rfl
        · split <;> rfl
      · split
        · rename_i hnone
          refine .inr ⟨hcut rfl, .inl ⟨rfl, fun c hc => ?_⟩⟩
          rw [List.map_eq_nil_iff, List.filter_eq_nil_iff] at hnone
          exact Bool.eq_false_of_not_eq_true (hnone c hc)
        · split
          · exact .inr ⟨hcut rfl, .inr rfl⟩
          · exact .inl rfl

/-- The last phase of a call frees no bytes but those it has noted. -/
theorem freeEnd_apart {p : PendingFree} (hM : M < 2 ^ 64) (h : Apart M l)
    (hranges : ∀ r ∈ p.ranges, r.addr.toNat + r.size.toNat < 2 ^ 64) :
    Apart M (freeEnd p l) ∧ ∀ x, FreeAt (freeEnd p l) x → FreeAt l x ∨ p.Noted x := by
  have hmarked : Apart M (p.ranges.foldl markFree l) := by
    rw [foldl_markFree]
    refine apart_map (fun c => ?_) h
    split
    · exact ⟨rfl, rfl⟩
    · exact ⟨rfl, rfl⟩
  obtain ⟨hapart, hsame⟩ := vmCoalesceFree_bytes p.start p.stop hM hmarked
  refine ⟨hapart, fun x hx => ?_⟩
  rcases (markAll_bytes p.ranges l x).1.1 ((hsame.free x).1 hx) with hfree | ⟨e, he, hmark, hex⟩
  · exact .inl hfree
  · have hbound := h.bounded e he
    obtain ⟨-, r, hr, hlo, hhi⟩ := (marked_iff (by omega) hranges).1 hmark
    have hge := hex.1
    have hlt := hex.2
    exact .inr ⟨r, hr, by omega, by omega⟩

/-- The range of a call. -/
def InFreeRange (addr size : BitVec 64) (x : ℕ) : Prop :=
  (pageDown addr).toNat ≤ x ∧ x < (pageDown addr + pageUp size).toNat

instance (addr size : BitVec 64) (x : ℕ) : Decidable (InFreeRange addr size x) :=
  inferInstanceAs (Decidable (_ ∧ _))

theorem inside_of_cut {start stop : BitVec 64} (htot : e.addr.toNat + e.size.toNat < 2 ^ 64)
    (hcut : e.straddles start = false ∧ e.straddles stop = false) (hfree : e.isFree = false) {x : ℕ}
    (hx : e.Has x) (hlo : start.toNat ≤ x) (hhi : x < stop.toNat) : e.inside start stop = true := by
  obtain ⟨hstart, hstop⟩ := hcut
  rw [← Bool.not_eq_true, straddles_iff htot] at hstart hstop
  have hge := hx.1
  have hlt := hx.2
  simp only [GuestVMExtent.inside, Bool.and_eq_true, Bool.not_eq_true', decide_eq_true_eq,
    BitVec.le_def, toNat_stop htot]
  refine ⟨⟨hfree, ?_⟩, ?_⟩
  · by_contra hlt'
    exact hstart ⟨hfree, by omega, by omega⟩
  · by_contra hlt'
    exact hstop ⟨hfree, by omega, by omega⟩

theorem inside_bounds {start stop : BitVec 64} (htot : e.addr.toNat + e.size.toNat < 2 ^ 64)
    (h : e.inside start stop = true) : e.isFree = false ∧ start.toNat ≤ e.addr.toNat ∧
      e.addr.toNat + e.size.toNat ≤ stop.toNat := by
  simp only [GuestVMExtent.inside, Bool.and_eq_true, Bool.not_eq_true', decide_eq_true_eq,
    BitVec.le_def, toNat_stop htot, and_assoc] at h
  exact h

/-- **Alone.**  A call that returns 0 frees the mapped bytes of its range and leaves every other byte
free, or mapped with its attributes, as it was; any other call leaves every byte as it was. -/
theorem recompVmFree_bytes (ca co m : Bool) (addr size : BitVec 64) (hM : M < 2 ^ 64)
    (h : Apart M l) :
    ((recompVmFree ca co m addr size l).2 = 0 → ∀ x,
      (FreeAt (recompVmFree ca co m addr size l).1 x ↔
        FreeAt l x ∨ InFreeRange addr size x ∧ ∃ attrs, MappedAs l x attrs) ∧
      ∀ attrs, MappedAs (recompVmFree ca co m addr size l).1 x attrs ↔
        MappedAs l x attrs ∧ ¬ InFreeRange addr size x) ∧
    ((recompVmFree ca co m addr size l).2 ≠ 0 →
      SameBytes l (recompVmFree ca co m addr size l).1) := by
  obtain ⟨l', hlist, hapart, hsame, hcases⟩ := freeBegin_cases ca co m addr size hM h
  have hbegin : freeBegin ca co m addr size l = (l', (freeBegin ca co m addr size l).2) := by
    rw [← hlist]
  rcases hcases with hfail | ⟨hcut, ⟨hnothing, hnone⟩ | hnoted⟩
  · have hrun : recompVmFree ca co m addr size l = (l', -1) := by
      rw [recompVmFree, hbegin, hfail]
    have hne : (-1 : BitVec 32) ≠ 0 := by decide
    rw [hrun]
    exact ⟨fun hzero => absurd hzero hne, fun _ => hsame⟩
  · have hrun : recompVmFree ca co m addr size l = (l', 0) := by
      rw [recompVmFree, hbegin, hnothing]
    rw [hrun]
    refine ⟨fun _ x => ?_, fun hne => absurd rfl hne⟩
    -- no mapped byte is in the range
    have hout : InFreeRange addr size x → ¬ ∃ attrs, MappedAs l x attrs := by
      rintro ⟨hlo, hhi⟩ ⟨attrs, hmap⟩
      obtain ⟨e, he, hef, hex, -⟩ := (hsame.mapped x attrs).2 hmap
      have hin := inside_of_cut (Nat.lt_of_le_of_lt (hapart.bounded e he) hM) (hcut e he) hef hex
        hlo hhi
      exact Bool.false_ne_true ((hnone e he).symm.trans hin)
    refine ⟨(hsame.free x).trans ⟨.inl, ?_⟩, fun attrs => (hsame.mapped x attrs).trans ⟨?_, And.left⟩⟩
    · rintro (hfree | ⟨hrange, hmap⟩)
      · exact hfree
      · exact (hout hrange hmap).elim
    · exact fun hmap => ⟨hmap, fun hrange => hout hrange ⟨attrs, hmap⟩⟩
  · generalize hp : PendingFree.mk _ _ _ _ = p at hnoted
    have hrun : recompVmFree ca co m addr size l = (freeEnd p l', 0) := by
      rw [recompVmFree, hbegin, hnoted]
    rw [hrun]
    refine ⟨fun _ x => ?_, fun hne => absurd rfl hne⟩
    have hranges : p.ranges = (l'.filter (GuestVMExtent.inside (pageDown addr)
        (pageDown addr + pageUp size))).map fun e => { addr := e.addr, size := e.size } := by
      rw [← hp]
    have hbound : ∀ r ∈ p.ranges, r.addr.toNat + r.size.toNat < 2 ^ 64 := by
      intro r hr
      rw [hranges] at hr
      obtain ⟨e, he, rfl⟩ := List.mem_map.1 hr
      exact Nat.lt_of_le_of_lt (hapart.bounded e (List.mem_filter.1 he).1) hM
    -- the extents that are marked are those inside the range
    have hmark : ∀ e ∈ l', e.marked p.ranges = true ↔
        e.inside (pageDown addr) (pageDown addr + pageUp size) = true := by
      intro e he
      have htot := Nat.lt_of_le_of_lt (hapart.bounded e he) hM
      rw [marked_iff htot hbound]
      constructor
      · rintro ⟨hfree, r, hr, hlo, hhi⟩
        rw [hranges] at hr
        obtain ⟨d, hd, rfl⟩ := List.mem_map.1 hr
        obtain ⟨hd, hdin⟩ := List.mem_filter.1 hd
        obtain ⟨-, hdlo, hdhi⟩ := inside_bounds (Nat.lt_of_le_of_lt (hapart.bounded d hd) hM) hdin
        simp only [GuestVMExtent.inside, Bool.and_eq_true, Bool.not_eq_true', decide_eq_true_eq,
          BitVec.le_def, toNat_stop htot]
        exact ⟨⟨hfree, hdlo.trans hlo⟩, hhi.trans hdhi⟩
      · intro hin
        refine ⟨(inside_bounds htot hin).1, ⟨e.addr, e.size⟩, ?_, Nat.le_refl _, Nat.le_refl _⟩
        rw [hranges]
        exact List.mem_map.2 ⟨e, List.mem_filter.2 ⟨he, hin⟩, rfl⟩
    have hmarkedApart : Apart M (p.ranges.foldl markFree l') := by
      rw [foldl_markFree]
      refine apart_map (fun c => ?_) hapart
      split
      · exact ⟨rfl, rfl⟩
      · exact ⟨rfl, rfl⟩
    obtain ⟨-, hmerge⟩ := vmCoalesceFree_bytes p.start p.stop hM hmarkedApart
    obtain ⟨hfreeMark, hmapMark⟩ := markAll_bytes p.ranges l' x
    -- a mapped byte is in a marked extent when it is in the range
    have hbyte : ∀ e ∈ l', e.isFree = false → e.Has x →
        (e.marked p.ranges = true ↔ InFreeRange addr size x) := by
      intro e he hef hex
      have htot := Nat.lt_of_le_of_lt (hapart.bounded e he) hM
      rw [hmark e he]
      constructor
      · intro hin
        obtain ⟨-, hlo, hhi⟩ := inside_bounds htot hin
        have hge := hex.1
        have hlt := hex.2
        exact ⟨by omega, by omega⟩
      · rintro ⟨hlo, hhi⟩
        exact inside_of_cut htot (hcut e he) hef hex hlo hhi
    constructor
    · show FreeAt (vmCoalesceFree p.start p.stop (p.ranges.foldl markFree l')) x ↔ _
      rw [hmerge.free, hfreeMark, hsame.free]
      constructor
      · rintro (hfree | ⟨e, he, hm, hex⟩)
        · exact .inl hfree
        · have htot := Nat.lt_of_le_of_lt (hapart.bounded e he) hM
          have hef := (inside_bounds htot ((hmark e he).1 hm)).1
          exact .inr ⟨(hbyte e he hef hex).1 hm, e.attrs, (hsame.mapped x _).1 ⟨e, he, hef, hex, rfl⟩⟩
      · rintro (hfree | ⟨hrange, attrs, hmap⟩)
        · exact .inl hfree
        · obtain ⟨e, he, hef, hex, -⟩ := (hsame.mapped x attrs).2 hmap
          exact .inr ⟨e, he, (hbyte e he hef hex).2 hrange, hex⟩
    · intro attrs
      show MappedAs (vmCoalesceFree p.start p.stop (p.ranges.foldl markFree l')) x attrs ↔ _
      rw [hmerge.mapped, hmapMark, ← hsame.mapped]
      constructor
      · rintro ⟨e, he, hef, hex, hea, hm⟩
        refine ⟨⟨e, he, hef, hex, hea⟩, fun hrange => ?_⟩
        exact Bool.false_ne_true (hm.symm.trans ((hbyte e he hef hex).2 hrange))
      · rintro ⟨⟨e, he, hef, hex, hea⟩, hout⟩
        refine ⟨e, he, hef, hex, hea, Bool.eq_false_of_not_eq_true fun hm => ?_⟩
        exact hout ((hbyte e he hef hex).1 hm)

/-- The ranges that a call notes are mapped, and inside its own range. -/
theorem freeBegin_noted {ca co m : Bool} {addr size : BitVec 64} {p : PendingFree} (hM : M < 2 ^ 64)
    (h : Apart M l) (hbegin : freeBegin ca co m addr size l = (l', .inr p)) :
    (∀ r ∈ p.ranges, r.addr.toNat + r.size.toNat < 2 ^ 64) ∧
      ∀ x, p.Noted x → InFreeRange addr size x ∧ ¬ FreeAt l' x := by
  obtain ⟨k, hlist, hapart, -, hcases⟩ := freeBegin_cases ca co m addr size hM h
  rw [hbegin] at hlist hcases
  obtain rfl : l' = k := hlist
  rcases hcases with hfail | ⟨-, ⟨hnothing, -⟩ | hnoted⟩
  · cases hfail
  · cases hnothing
  · cases hnoted
    have hrange : ∀ r : VmRange, r ∈ (l'.filter (GuestVMExtent.inside (pageDown addr)
        (pageDown addr + pageUp size))).map (fun e => VmRange.mk e.addr e.size) →
        ∃ e ∈ l', e.inside (pageDown addr) (pageDown addr + pageUp size) = true ∧
          r = { addr := e.addr, size := e.size } := by
      intro r hr
      obtain ⟨e, he, rfl⟩ := List.mem_map.1 hr
      obtain ⟨hmem, hin⟩ := List.mem_filter.1 he
      exact ⟨e, hmem, hin, rfl⟩
    constructor
    · intro r hr
      obtain ⟨e, he, -, rfl⟩ := hrange r hr
      exact Nat.lt_of_le_of_lt (hapart.bounded e he) hM
    · rintro x ⟨r, hr, hx⟩
      obtain ⟨e, he, hin, rfl⟩ := hrange r hr
      obtain ⟨hfree, hlo, hhi⟩ := inside_bounds (Nat.lt_of_le_of_lt (hapart.bounded e he) hM) hin
      have hex : e.Has x := hx
      have hge := hex.1
      have hlt := hex.2
      exact ⟨⟨by omega, by omega⟩, hapart.not_freeAt he hfree hex⟩

/-! ### runs with the extents allocated since a call began -/

/-- The memory, and for each thread the extents allocated since its last call of `recomp_vm_free`
began. -/
structure Watch (Tid : Type*) where
  vm : Vm Tid
  since : Tid → List GuestVMExtent

section Runs

variable {Tid : Type*} [DecidableEq Tid] {memSize imageSize : BitVec 64} {callocStack : Bool}

/-- The extents allocated since the last call of each thread began, after a step. -/
def Watch.sinceAfter (w : Watch Tid) : VmAct Tid → Tid → List GuestVMExtent
  | .call _ c => fun u => w.since u ++ (c.apply w.vm.memSize w.vm.extents).2.toList
  | .freeBegin t _ _ _ _ _ => Function.update w.since t []
  | _ => w.since

/-- One step. -/
def Watch.exec (w : Watch Tid) (a : VmAct Tid) : Option (Watch Tid) :=
  (w.vm.exec a).map fun vm => { vm, since := w.sinceAfter a }

/-- The runs of the threads, watched. -/
def watchedSystem (Tid : Type*) [DecidableEq Tid] (memSize imageSize : BitVec 64)
    (callocStack : Bool) : System (Watch Tid) (VmAct Tid) where
  init w := w = { vm := Vm.start memSize imageSize callocStack, since := fun _ => [] }
  step w a w' := w.exec a = some w'

/-- A byte that a thread's step unmaps or marks free. -/
def Vm.Releases (v : Vm Tid) (a : VmAct Tid) (v' : Vm Tid) (t : Tid) (x : ℕ) : Prop :=
  (a = .unmap t ∧ ∃ p r, v.frees t = some p ∧ p.ranges[p.next]? = some r ∧ r.Has x) ∨
    (a = .freeEnd t ∧ ¬ FreeAt v.extents x ∧ FreeAt v'.extents x)

/-- A byte that some call under way has noted. -/
def Vm.Held (v : Vm Tid) (x : ℕ) : Prop := ∃ u p, v.frees u = some p ∧ p.Noted x

/-- The condition on a call while the bytes `held` are noted: no candidate range of an allocation
wraps, and a fixed mapping does not go into a reserved extent that is noted. -/
def CallAdmits (held : ℕ → Prop) (l : List GuestVMExtent) : VmCall → Prop
  | .alloc _ _ size alignment _ _ _ => ∀ e ∈ l, e.isFree = true →
      (e.candidate (vmAlignment alignment)).toNat + (alignUp size (vmAlignment alignment)).toNat <
        2 ^ 64
  | .allocFixed _ _ desired size _ _ _ => ∀ pre e post,
      firstSplit (GuestVMExtent.holds (pageDown desired) (pageUp size)) l = some (pre, e, post) →
        e.isFree = true ∨ ∀ x, e.Has x → ¬ held x
  | _ => True

/-- The condition on a step: also, no call begins to free a range that another one has noted. -/
def FreeAdmits (w : Watch Tid) : VmAct Tid → Prop
  | .call _ c => CallAdmits w.vm.Held w.vm.extents c
  | .freeBegin _ _ _ _ addr size => ∀ x, InFreeRange addr size x → ¬ w.vm.Held x
  | _ => True

/-- A list, and the extent mapped to get there, that leave the bytes `held` alone. -/
structure KeepsHeld (M : ℕ) (held : ℕ → Prop) (r : List GuestVMExtent × Option GuestVMExtent) :
    Prop where
  apart : Apart M r.1
  free : ∀ x, held x → ¬ FreeAt r.1 x
  mapped : ∀ d ∈ r.2.toList, ∀ x, held x → ¬ d.Has x

theorem keepsHeld_same {held : ℕ → Prop} (hheld : ∀ x, held x → ¬ FreeAt l x) (hl' : Apart M l')
    (hfree : ∀ x, FreeAt l' x ↔ FreeAt l x) : KeepsHeld M held (l', none) :=
  ⟨hl', fun x hx hx' => hheld x hx ((hfree x).1 hx'), fun _ hd => (nomatch hd)⟩

/-- A range carved out of an extent that is free or has no byte held. -/
theorem keepsHeld_carve {held : ℕ → Prop} {cp cs : Bool} {start len : BitVec 64}
    {prot flags : BitVec 32} {name : Option (List Char)} {front back : List GuestVMExtent}
    {m : GuestVMExtent} (hM : M < 2 ^ 64) (h : Apart M (pre ++ e :: post))
    (hheld : ∀ x, held x → ¬ FreeAt (pre ++ e :: post) x) (hstart : e.addr.toNat ≤ start.toNat)
    (hend : start.toNat + len.toNat ≤ e.addr.toNat + e.size.toNat)
    (hcarve : e.carve cp cs start len prot flags name = some (front, m, back))
    (hside : e.isFree = true ∨ ∀ x, e.Has x → ¬ held x) :
    KeepsHeld M held (pre ++ (front ++ m :: back) ++ post, some m) := by
  obtain ⟨hapart, hm, hfree⟩ := carve_apart hM h hstart hend hcarve
  have hout : ∀ x, held x → ¬ e.Has x := by
    intro x hx hex
    rcases hside with hef | hout
    · exact hheld x hx ⟨e, List.mem_append_right _ List.mem_cons_self, hef, hex⟩
    · exact hout x hex hx
  refine ⟨hapart, fun x hx hx' => ?_, fun d hd x hx hdx => ?_⟩
  · rcases hfree x hx' with hold | hex
    · exact hheld x hx hold
    · exact hout x hx hex
  · obtain rfl := List.mem_singleton.1 hd
    exact hout x hx (hm x hdx)

theorem keepsHeld_map {held : ℕ → Prop} {f : GuestVMExtent → GuestVMExtent}
    (hheld : ∀ x, held x → ¬ FreeAt l x) (h : Apart M l)
    (hf : ∀ c, (f c).addr = c.addr ∧ (f c).size = c.size ∧ (f c).isFree = c.isFree) :
    KeepsHeld M held (l.map f, none) :=
  keepsHeld_same hheld (apart_map (fun c => ⟨(hf c).1, (hf c).2.1⟩) h) (freeAt_map hf)

/-- A call that meets the condition leaves the noted bytes mapped and maps none of them. -/
theorem call_held {held : ℕ → Prop} (c : VmCall) (h : Apart memSize.toNat l)
    (hheld : ∀ x, held x → ¬ FreeAt l x) (hok : CallAdmits held l c) :
    KeepsHeld memSize.toNat held (c.apply memSize l) := by
  have hM := memSize.isLt
  cases c with
  | alloc cp cs size alignment prot flags name =>
      show KeepsHeld _ held (recompVmAllocNamedAligned cp cs size alignment prot flags name l)
      rcases alloc_cases cp cs size alignment prot flags name l with
        heq | ⟨pre, e, post, front, m, back, rfl, -, hfit, hcarve, heq⟩
      · rw [heq]
        exact keepsHeld_same hheld h fun _ => .rfl
      · rw [heq]
        have htot : e.addr.toNat + e.size.toNat < 2 ^ 64 := Nat.lt_of_le_of_lt h.middle hM
        simp only [GuestVMExtent.fits, Bool.and_eq_true, decide_eq_true_eq] at hfit
        obtain ⟨⟨hfree, hstart⟩, hend⟩ := hfit
        have hnowrap := hok e (List.mem_append_right _ List.mem_cons_self) hfree
        rw [BitVec.le_def] at hstart hend
        rw [toNat_stop htot, BitVec.toNat_add_of_lt hnowrap] at hend
        exact keepsHeld_carve hM h hheld hstart hend hcarve (.inl hfree)
  | allocFixed cp cs desired size prot flags name =>
      show KeepsHeld _ held (recompVmAllocFixed memSize cp cs desired size prot flags name l)
      rcases allocFixed_cases memSize cp cs desired size prot flags name l with
        heq | ⟨pre, e, post, front, m, back, hfound, -, hnowrap, hcarve, heq⟩
      · rw [heq]
        exact keepsHeld_same hheld h fun _ => .rfl
      · rw [heq]
        have hside := hok pre e post hfound
        obtain ⟨rfl, hholds⟩ := firstSplit_eq_some hfound
        have htot : e.addr.toNat + e.size.toNat < 2 ^ 64 := Nat.lt_of_le_of_lt h.middle hM
        simp only [GuestVMExtent.holds, Bool.and_eq_true, decide_eq_true_eq] at hholds
        obtain ⟨⟨-, hstart⟩, hend⟩ := hholds
        rw [BitVec.le_def] at hstart hend
        rw [toNat_stop htot, toNat_add_of_le hnowrap] at hend
        exact keepsHeld_carve hM h hheld hstart hend hcarve hside
  | mprotect addr size prot =>
      show KeepsHeld _ held (sceKernelMprotect addr size prot l, none)
      rw [sceKernelMprotect]
      split
      · exact keepsHeld_same hheld h fun _ => .rfl
      · refine keepsHeld_map hheld h fun c => ?_
        split <;> exact ⟨rfl, rfl, rfl⟩
  | mtypeprotect ca co addr size mtype prot =>
      show KeepsHeld _ held (sceKernelMtypeprotect memSize ca co addr size mtype prot l, none)
      rw [sceKernelMtypeprotect]
      generalize addr &&& ~~~0x3fff = start
      generalize start + ((size + (addr - start) + 0x3fff) &&& ~~~0x3fff) = stop
      have hapart := splitEnds_apart ca co start stop hM h
      have hsame := splitEnds_bytes ca co start stop hM h
      split
      · exact keepsHeld_same hheld h fun _ => .rfl
      · split
        · split
          · rename_i l' heq
            rw [heq] at hapart hsame
            exact keepsHeld_same hheld hapart hsame.free
          · rename_i l' heq
            rw [heq] at hapart hsame
            refine keepsHeld_map (fun x hx hx' => hheld x hx ((hsame.free x).1 hx')) hapart fun c => ?_
            split <;> exact ⟨rfl, rfl, rfl⟩
        · exact keepsHeld_same hheld h fun _ => .rfl
  | sysMprotect addr prot =>
      show KeepsHeld _ held (Runtime.sysMprotect addr prot l, none)
      rw [Runtime.sysMprotect]
      split
      · exact keepsHeld_same hheld h fun _ => .rfl
      · rename_i pre e post hfound
        obtain ⟨rfl, -⟩ := firstSplit_eq_some hfound
        have hone : Apart memSize.toNat [{ e with prot }] :=
          ⟨List.pairwise_singleton _ _, fun c hc => by
            obtain rfl := List.mem_singleton.1 hc
            exact h.middle⟩
        have hin : ∀ c ∈ [{ e with prot }], ∀ x, c.Has x → e.Has x := fun c hc x hx => by
          obtain rfl := List.mem_singleton.1 hc
          exact hx
        have hapart := h.replace hone hin
        rw [List.append_assoc, List.singleton_append] at hapart
        refine keepsHeld_same hheld hapart fun x => ?_
        rw [freeAt_append, freeAt_append, freeAt_cons, freeAt_cons]
        rfl
  | setVirtualRangeName addr len name =>
      show KeepsHeld _ held (sceKernelSetVirtualRangeName addr len name l, none)
      rw [sceKernelSetVirtualRangeName]
      split
      · exact keepsHeld_same hheld h fun _ => .rfl
      · refine keepsHeld_map hheld h fun c => ?_
        split <;> exact ⟨rfl, rfl, rfl⟩

/-- What every state of the watched runs meets. -/
structure WatchInv (memSize : BitVec 64) (w : Watch Tid) : Prop where
  memSize_eq : w.vm.memSize = memSize
  apart : Apart memSize.toNat w.vm.extents
  bounded : ∀ t p, w.vm.frees t = some p → ∀ r ∈ p.ranges, r.addr.toNat + r.size.toNat < 2 ^ 64
  taken : ∀ x, w.vm.Held x → ¬ FreeAt w.vm.extents x
  single : ∀ t p u q x, w.vm.frees t = some p → w.vm.frees u = some q → p.Noted x → q.Noted x → t = u
  old : ∀ t p, w.vm.frees t = some p → ∀ x, p.Noted x → ∀ d ∈ w.since t, ¬ d.Has x

theorem watch_cases {w w' : Watch Tid} {a : VmAct Tid} (h : w.exec a = some w') :
    w.vm.exec a = some w'.vm ∧ w'.since = w.sinceAfter a := by
  obtain ⟨v, hv, rfl⟩ := Option.map_eq_some_iff.1 h
  exact ⟨hv, rfl⟩

/-- A step that meets the condition keeps the invariant. -/
theorem watchInv_step {w w' : Watch Tid} {a : VmAct Tid} (h : WatchInv memSize w)
    (hok : FreeAdmits w a) (hstep : w.exec a = some w') : WatchInv memSize w' := by
  have hM := memSize.isLt
  obtain ⟨hexec, hsince⟩ := watch_cases hstep
  obtain ⟨v', since'⟩ := w'
  obtain rfl : since' = _ := hsince
  rcases Vm.exec_cases hexec with ⟨t, c, rfl, -, rfl⟩ |
    ⟨t, ca, co, m, addr, size, l, r, rfl, hready, hbegin, rfl⟩ |
    ⟨t, ca, co, m, addr, size, l, p, rfl, hready, hbegin, rfl⟩ | ⟨t, p, rfl, hp, -, rfl⟩ |
    ⟨t, p, rfl, hp, -, rfl⟩
  · -- a call
    have hkeeps := call_held c h.apart h.taken hok
    rw [← h.memSize_eq] at hkeeps
    refine ⟨h.memSize_eq, h.memSize_eq ▸ hkeeps.apart, h.bounded, hkeeps.free, h.single, ?_⟩
    intro u p hp x hx d hd
    rcases List.mem_append.1 hd with hd | hd
    · exact h.old u p hp x hx d hd
    · exact hkeeps.mapped d hd x ⟨u, p, hp, hx⟩
  · -- a call of `recomp_vm_free` that returns
    obtain ⟨k, hlist, hapart, hsame, -⟩ := freeBegin_cases ca co m addr size hM h.apart
    rw [hbegin] at hlist
    obtain rfl : l = k := hlist
    refine ⟨h.memSize_eq, hapart, h.bounded, fun x hx hx' => h.taken x hx ((hsame.free x).1 hx'),
      h.single, fun u p hp => ?_⟩
    by_cases hu : u = t
    · subst hu
      exact absurd (hready.symm.trans hp) (by exact fun hn => nomatch hn)
    · show ∀ x, p.Noted x → ∀ d ∈ Function.update w.since t [] u, ¬ d.Has x
      rw [Function.update_of_ne hu]
      exact h.old u p hp
  · -- a call of `recomp_vm_free` that goes on
    obtain ⟨k, hlist, hapart, hsame, -⟩ := freeBegin_cases ca co m addr size hM h.apart
    rw [hbegin] at hlist
    obtain rfl : l = k := hlist
    obtain ⟨hbound, hnoted⟩ := freeBegin_noted hM h.apart hbegin
    have hother : ∀ u q x, w.vm.frees u = some q → q.Noted x → ¬ p.Noted x :=
      fun u q x hq hqx hpx => hok x (hnoted x hpx).1 ⟨u, q, hq, hqx⟩
    have hpending : ∀ u q, Function.update w.vm.frees t (some p) u = some q →
        u = t ∧ q = p ∨ u ≠ t ∧ w.vm.frees u = some q := by
      intro u q hq
      by_cases hu : u = t
      · subst hu
        rw [Function.update_self] at hq
        cases hq
        exact .inl ⟨rfl, rfl⟩
      · rw [Function.update_of_ne hu] at hq
        exact .inr ⟨hu, hq⟩
    refine ⟨h.memSize_eq, hapart, ?_, ?_, ?_, ?_⟩
    · exact forall_pending h.bounded fun q hq => by
        cases hq
        exact hbound
    · rintro x ⟨u, q, hq, hqx⟩ hx
      rcases hpending u q hq with ⟨-, rfl⟩ | ⟨-, hq⟩
      · exact (hnoted x hqx).2 hx
      · exact h.taken x ⟨u, q, hq, hqx⟩ ((hsame.free x).1 hx)
    · intro u q u' q' x hq hq' hqx hqx'
      rcases hpending u q hq with ⟨hu, hqp⟩ | ⟨-, hold⟩
      · rcases hpending u' q' hq' with ⟨hu', -⟩ | ⟨-, hold'⟩
        · exact hu.trans hu'.symm
        · exact absurd (hqp ▸ hqx) (hother u' q' x hold' hqx')
      · rcases hpending u' q' hq' with ⟨-, hqp'⟩ | ⟨-, hold'⟩
        · exact absurd (hqp' ▸ hqx') (hother u q x hold hqx)
        · exact h.single u q u' q' x hold hold' hqx hqx'
    · intro u q hq x hqx d hd
      replace hd : d ∈ Function.update w.since t [] u := hd
      rcases hpending u q hq with ⟨rfl, -⟩ | ⟨hu, hq⟩
      · rw [Function.update_self] at hd
        cases hd
      · rw [Function.update_of_ne hu] at hd
        exact h.old u q hq x hqx d hd
  · -- an unmapping: the noted ranges stay
    have hpending : ∀ u q, Function.update w.vm.frees t (some { p with next := p.next + 1 }) u =
        some q → ∃ q', w.vm.frees u = some q' ∧ q'.ranges = q.ranges := by
      intro u q hq
      by_cases hu : u = t
      · subst hu
        rw [Function.update_self] at hq
        cases hq
        exact ⟨p, hp, rfl⟩
      · rw [Function.update_of_ne hu] at hq
        exact ⟨q, hq, rfl⟩
    have hnoted : ∀ {q q' : PendingFree} {x : ℕ}, q'.ranges = q.ranges → q.Noted x → q'.Noted x := by
      rintro q q' x heq ⟨r, hr, hx⟩
      exact ⟨r, heq ▸ hr, hx⟩
    refine ⟨h.memSize_eq, h.apart, ?_, ?_, ?_, ?_⟩
    · intro u q hq
      obtain ⟨q', hq', heq⟩ := hpending u q hq
      exact heq ▸ h.bounded u q' hq'
    · rintro x ⟨u, q, hq, hqx⟩
      obtain ⟨q', hq', heq⟩ := hpending u q hq
      exact h.taken x ⟨u, q', hq', hnoted heq hqx⟩
    · intro u q v r x hq hr hqx hrx
      obtain ⟨q', hq', heq⟩ := hpending u q hq
      obtain ⟨r', hr', heq'⟩ := hpending v r hr
      exact h.single u q' v r' x hq' hr' (hnoted heq hqx) (hnoted heq' hrx)
    · intro u q hq x hqx
      obtain ⟨q', hq', heq⟩ := hpending u q hq
      exact h.old u q' hq' x (hnoted heq hqx)
  · -- the last phase: the freed bytes were noted by this call only
    obtain ⟨hapart, hfreed⟩ := freeEnd_apart hM h.apart (h.bounded t p hp)
    have hpending : ∀ u q, Function.update w.vm.frees t none u = some q →
        u ≠ t ∧ w.vm.frees u = some q := by
      intro u q hq
      by_cases hu : u = t
      · subst hu
        rw [Function.update_self] at hq
        cases hq
      · rw [Function.update_of_ne hu] at hq
        exact ⟨hu, hq⟩
    refine ⟨h.memSize_eq, hapart, ?_, ?_, ?_, ?_⟩
    · exact fun u q hq => h.bounded u q (hpending u q hq).2
    · rintro x ⟨u, q, hq, hqx⟩ hx
      obtain ⟨hu, hq⟩ := hpending u q hq
      rcases hfreed x hx with hold | hpx
      · exact h.taken x ⟨u, q, hq, hqx⟩ hold
      · exact hu (h.single u q t p x hq hp hqx hpx)
    · intro u q v r x hq hr
      exact h.single u q v r x (hpending u q hq).2 (hpending v r hr).2
    · exact fun u q hq => h.old u q (hpending u q hq).2

/-- The extents of `recomp_init_runtime` are disjoint, in any amount of memory. -/
theorem initExtents_apart (memSize imageSize : BitVec 64) (callocStack : Bool) :
    Apart memSize.toNat (initExtents memSize imageSize callocStack) := by
  obtain ⟨hfloor, hlow⟩ := stackFloor_le memSize
  have hlimit : (lowMemLimit memSize).toNat ≤ 0x800000000 := by
    rw [lowMemLimit]
    split
    · rename_i hlt
      exact Nat.le_of_lt (BitVec.lt_def.1 hlt)
    · exact Nat.le_refl _
  have hstack : (lowMemLimit memSize - stackFloor memSize).toNat =
      (lowMemLimit memSize).toNat - (stackFloor memSize).toNat :=
    BitVec.toNat_sub_of_le (BitVec.le_def.2 hfloor)
  rw [initExtents]
  generalize pageUp (heapPtr imageSize) = heapStart
  generalize stackFloor memSize = floor at *
  generalize lowMemLimit memSize = limit at *
  -- where the bytes of the three extents are
  have hheap : ∀ c ∈ (if heapStart < floor then
      [({ addr := heapStart, size := floor - heapStart, isFree := true } : GuestVMExtent)] else []),
      c.addr.toNat + c.size.toNat = floor.toNat := by
    intro c hc
    split at hc
    · rename_i hlt
      obtain rfl := List.mem_singleton.1 hc
      show heapStart.toNat + (floor - heapStart).toNat = _
      rw [BitVec.toNat_sub_of_le (BitVec.le_of_lt hlt)]
      rw [BitVec.lt_def] at hlt
      omega
    · cases hc
  have hpool : ∀ c ∈ (if 0x1000000000 < memSize then
      [({ addr := 0x1000000000, size := memSize - 0x1000000000, isFree := true } : GuestVMExtent)]
      else []), c.addr.toNat = 0x1000000000 ∧ c.addr.toNat + c.size.toNat = memSize.toNat := by
    intro c hc
    split at hc
    · rename_i hlt
      obtain rfl := List.mem_singleton.1 hc
      refine ⟨rfl, ?_⟩
      show 0x1000000000 + (memSize - 0x1000000000).toNat = _
      have hlt' : 0x1000000000 < memSize.toNat := BitVec.lt_def.1 hlt
      rw [BitVec.toNat_sub_of_le (BitVec.le_of_lt hlt)]
      show 0x1000000000 + (memSize.toNat - 0x1000000000) = _
      omega
    · cases hc
  have hmain : ∀ c ∈ (if callocStack then
      [({ addr := floor, size := limit - floor, isFree := false, prot := protReadWrite,
          name := "main_stack".toList } : GuestVMExtent)] else []),
      c.addr.toNat = floor.toNat ∧ c.addr.toNat + c.size.toNat = limit.toNat := by
    intro c hc
    split at hc
    · obtain rfl := List.mem_singleton.1 hc
      refine ⟨rfl, ?_⟩
      show floor.toNat + (limit - floor).toNat = _
      omega
    · cases hc
  have hone : ∀ (b : Prop) [Decidable b] (c : GuestVMExtent),
      (if b then [c] else []).Pairwise fun a d => ∀ x, a.Has x → ¬ d.Has x := by
    intro b _ c
    split
    · exact List.pairwise_singleton _ _
    · exact .nil
  constructor
  · refine List.pairwise_append.2 ⟨hone _ _, List.pairwise_append.2 ⟨hone _ _, hone _ _, ?_⟩, ?_⟩
    · intro a ha b hb x hax hbx
      have hpa := hpool a ha
      have hmb := hmain b hb
      have hge := hax.1
      have hlt := hbx.2
      omega
    · intro a ha b hb x hax hbx
      have hha := hheap a ha
      have hlt := hax.2
      have hge := hbx.1
      rcases List.mem_append.1 hb with hb | hb
      · have hpb := hpool b hb
        omega
      · have hmb := hmain b hb
        omega
  · intro c hc
    rcases List.mem_append.1 hc with hc | hc
    · have hhc := hheap c hc
      omega
    · rcases List.mem_append.1 hc with hc | hc
      · exact Nat.le_of_eq (hpool c hc).2
      · have hmc := hmain c hc
        omega

theorem watchInv_reachable {w : Watch Tid}
    (h : Reachable ((watchedSystem Tid memSize imageSize callocStack).restrict FreeAdmits) w) :
    WatchInv memSize w := by
  refine Reachable.invariant ?_ ?_ h
  · rintro w rfl
    exact ⟨rfl, initExtents_apart memSize imageSize callocStack, fun _ _ hp => (nomatch hp),
      fun _ hx => (nomatch hx.choose_spec.choose_spec.1), fun _ _ _ _ _ hp => (nomatch hp),
      fun _ _ hp => (nomatch hp)⟩
  · rintro w a w' - hw ⟨hok, hstep⟩
    exact watchInv_step hw hok hstep

/-! ### a call with no other steps in between -/

/-- A step of a call under way. -/
def Vm.Own (t : Tid) (v v' : Vm Tid) : Prop :=
  v.exec (.unmap t) = some v' ∨ v.exec (.freeEnd t) = some v'

theorem own_stays {t : Tid} {p : PendingFree} {v v' : Vm Tid} (hown : Vm.Own t v v')
    (h : (∃ k, v.frees t = some { p with next := k } ∧ v.extents = l) ∨
      v.frees t = none ∧ v.extents = freeEnd p l) :
    (∃ k, v'.frees t = some { p with next := k } ∧ v'.extents = l) ∨
      v'.frees t = none ∧ v'.extents = freeEnd p l := by
  rcases h with ⟨k, hk, rfl⟩ | ⟨hnone, -⟩
  · rcases hown with hstep | hstep
    · simp only [Vm.exec, hk] at hstep
      split at hstep
      · cases hstep
        exact .inl ⟨k + 1, Function.update_self .., rfl⟩
      · cases hstep
    · simp only [Vm.exec, hk] at hstep
      split at hstep
      · cases hstep
      · cases hstep
        exact .inr ⟨Function.update_self .., rfl⟩
  · rcases hown with hstep | hstep
    · simp only [Vm.exec, hnone] at hstep
      cases hstep
    · simp only [Vm.exec, hnone] at hstep
      cases hstep

theorem own_finishes {t : Tid} (n : ℕ) : ∀ {v : Vm Tid} {p : PendingFree}, v.frees t = some p →
    p.ranges.length ≤ p.next + n →
    ∃ v', Relation.ReflTransGen (Vm.Own t) v v' ∧ v'.frees t = none := by
  induction n with
  | zero =>
      intro v p hp hn
      have hstep : v.exec (.freeEnd t) = some { v with extents := freeEnd p v.extents
                                                       frees := Function.update v.frees t none } := by
        simp only [Vm.exec, hp]
        rw [if_neg (by omega)]
      exact ⟨_, .single (.inr hstep), Function.update_self ..⟩
  | succ n ih =>
      intro v p hp hn
      by_cases hlt : p.next < p.ranges.length
      · have hstep : v.exec (.unmap t) = some { v with
            frees := Function.update v.frees t (some { p with next := p.next + 1 }) } := by
          simp only [Vm.exec, hp]
          rw [if_pos hlt]
        obtain ⟨v', hrun, hdone⟩ := ih (v := { v with
          frees := Function.update v.frees t (some { p with next := p.next + 1 }) })
          (p := { p with next := p.next + 1 }) (Function.update_self ..) (by
            show p.ranges.length ≤ p.next + 1 + n
            omega)
        exact ⟨v', .head (.inl hstep) hrun, hdone⟩
      · exact ih hp (by omega)

/-- A call with no other steps in between returns, and leaves the list of `recompVmFree`. -/
theorem own_run {t : Tid} {v : Vm Tid} (hready : v.frees t = none) (ca co m : Bool)
    (addr size : BitVec 64) :
    ∃ v₁, v.exec (.freeBegin t ca co m addr size) = some v₁ ∧
      (∃ v₂, Relation.ReflTransGen (Vm.Own t) v₁ v₂ ∧ v₂.frees t = none) ∧
      ∀ v₂, Relation.ReflTransGen (Vm.Own t) v₁ v₂ → v₂.frees t = none →
        v₂.extents = (recompVmFree ca co m addr size v.extents).1 := by
  rcases hbegin : Runtime.freeBegin ca co m addr size v.extents with ⟨l, r | p⟩
  · have hexec : v.exec (.freeBegin t ca co m addr size) = some { v with extents := l } := by
      simp only [Vm.exec, hready, Option.isNone_none, if_true, hbegin]
    refine ⟨_, hexec, ⟨_, .refl, hready⟩, fun v₂ hrun _ => ?_⟩
    rw [recompVmFree, hbegin]
    rcases Relation.ReflTransGen.cases_head hrun with rfl | ⟨v₃, hown, -⟩
    · rfl
    · rcases hown with hstep | hstep
      · simp only [Vm.exec, hready] at hstep
        cases hstep
      · simp only [Vm.exec, hready] at hstep
        cases hstep
  · have hexec : v.exec (.freeBegin t ca co m addr size) =
        some { v with extents := l, frees := Function.update v.frees t (some p) } := by
      simp only [Vm.exec, hready, Option.isNone_none, if_true, hbegin]
    refine ⟨_, hexec, own_finishes p.ranges.length (Function.update_self ..) (by omega), ?_⟩
    intro v₂ hrun hdone
    rw [recompVmFree, hbegin]
    have hstays : (∃ k, v₂.frees t = some { p with next := k } ∧ v₂.extents = l) ∨
        v₂.frees t = none ∧ v₂.extents = freeEnd p l := by
      clear hdone
      induction hrun with
      | refl => exact .inl ⟨p.next, Function.update_self .., rfl⟩
      | tail _ hown ih => exact own_stays hown ih
    rcases hstays with ⟨k, hk, -⟩ | ⟨-, hlist⟩
    · rw [hdone] at hk
      cases hk
    · exact hlist

/-- **Freeing.**  In runs that meet the condition a step of a thread's call never unmaps or marks free
a byte of an extent that was allocated since the call began.  A call with no other steps in between
returns; when its result is 0 it has freed the mapped bytes of its range, and every other byte is
free, or mapped with its attributes, as before; otherwise every byte is as before. -/
theorem vmFree_safe {w : Watch Tid}
    (h : Reachable ((watchedSystem Tid memSize imageSize callocStack).restrict FreeAdmits) w) :
    (∀ a w', w.exec a = some w' → ∀ t x, w.vm.Releases a w'.vm t x → ∀ d ∈ w.since t, ¬ d.Has x) ∧
    ∀ t ca co m addr size, w.vm.frees t = none →
      ∃ v₁, w.vm.exec (.freeBegin t ca co m addr size) = some v₁ ∧
        (∃ v₂, Relation.ReflTransGen (Vm.Own t) v₁ v₂ ∧ v₂.frees t = none) ∧
        ∀ v₂, Relation.ReflTransGen (Vm.Own t) v₁ v₂ → v₂.frees t = none →
          ((recompVmFree ca co m addr size w.vm.extents).2 = 0 → ∀ x,
            (FreeAt v₂.extents x ↔ FreeAt w.vm.extents x ∨
              InFreeRange addr size x ∧ ∃ attrs, MappedAs w.vm.extents x attrs) ∧
            ∀ attrs, MappedAs v₂.extents x attrs ↔
              MappedAs w.vm.extents x attrs ∧ ¬ InFreeRange addr size x) ∧
          ((recompVmFree ca co m addr size w.vm.extents).2 ≠ 0 →
            SameBytes w.vm.extents v₂.extents) := by
  have hM := memSize.isLt
  have hinv := watchInv_reachable h
  constructor
  · intro a w' hstep t x hrel d hd
    rcases hrel with ⟨rfl, p, r, hp, hr, hx⟩ | ⟨rfl, hbefore, hafter⟩
    · exact hinv.old t p hp x ⟨r, List.mem_of_getElem? hr, hx⟩ d hd
    · obtain ⟨hexec, -⟩ := watch_cases hstep
      rcases Vm.exec_cases hexec with ⟨_, _, hact, -⟩ | ⟨_, _, _, _, _, _, _, _, hact, -⟩ |
        ⟨_, _, _, _, _, _, _, _, hact, -⟩ | ⟨_, _, hact, -⟩ | ⟨u, p, hact, hp, -, hvm⟩
      · cases hact
      · cases hact
      · cases hact
      · cases hact
      · cases hact
        rw [hvm] at hafter
        rcases (freeEnd_apart hM hinv.apart (hinv.bounded t p hp)).2 x hafter with hfree | hnoted
        · exact absurd hfree hbefore
        · exact hinv.old t p hp x hnoted d hd
  · intro t ca co m addr size hready
    obtain ⟨v₁, hexec, hfinish, hruns⟩ := own_run hready ca co m addr size
    refine ⟨v₁, hexec, hfinish, fun v₂ hrun hdone => ?_⟩
    rw [hruns v₂ hrun hdone]
    exact recompVmFree_bytes ca co m addr size hM hinv.apart

end Runs

/-! ### two threads in 1 GiB of memory -/

/-- The memory after a list of steps of two threads. -/
def afterActs (acts : List (VmAct Bool)) : Option (Watch Bool) :=
  execAll Watch.exec { vm := Vm.start 0x40000000 0x10000 true, since := fun _ => [] } acts

/-- An allocation of one page, the first one at 0x40000. -/
def allocPage (t : Bool) : VmAct Bool :=
  .call t (.alloc true true 0x1000 4096 protReadWrite 0 (some "anon".toList))

/-- The first phase of a call that frees the page. -/
def beginPage (t : Bool) : VmAct Bool := .freeBegin t true true true 0x40000 0x1000

/-- The page is free after a call that frees it. -/
theorem vmFree_safe_page : ∃ w : Watch Bool, afterActs [allocPage true] = some w ∧
    ∃ v₁ v₂, w.vm.exec (beginPage true) = some v₁ ∧ Relation.ReflTransGen (Vm.Own true) v₁ v₂ ∧
      v₂.frees true = none ∧ FreeAt v₂.extents 0x40000 := by
  have hstart : Reachable ((watchedSystem Bool 0x40000000 0x10000 true).restrict FreeAdmits)
      { vm := Vm.start 0x40000000 0x10000 true, since := fun _ => [] } := .init rfl
  have hadmits : FreeAdmits { vm := Vm.start 0x40000000 0x10000 true, since := fun _ => [] }
      (allocPage true) := by
    show ∀ e ∈ initExtents 0x40000000 0x10000 true, _
    decide
  refine ⟨_, rfl, ?_⟩
  obtain ⟨v₁, hbegin, ⟨v₂, hrun, hdone⟩, hall⟩ :=
    (vmFree_safe (.step hstart ⟨hadmits, rfl⟩)).2 true true true true 0x40000 0x1000 rfl
  refine ⟨v₁, v₂, hbegin, hrun, hdone, ?_⟩
  exact (((hall v₂ hrun hdone).1 rfl 0x40000).1).2 (.inr ⟨by decide, _, by
    refine ⟨{ addr := 0x40000, size := 0x1000, isFree := false, prot := 3, name := "anon".toList },
      ?_, rfl, by decide, rfl⟩
    decide⟩)

/-- Two calls free one page, and the page is allocated again when one of them is done: the other
one still unmaps it.  A call alone gives the free memory behind the page the page's attributes. -/
theorem vmFree_unsafe :
    (¬ ∀ w : Watch Bool, Reachable (watchedSystem Bool 0x40000000 0x10000 true) w →
      ∀ a w', w.exec a = some w' → ∀ t x, w.vm.Releases a w'.vm t x →
        ∀ d ∈ w.since t, ¬ d.Has x) ∧
    ¬ ∀ w : Watch Bool, Reachable (watchedSystem Bool 0x40000000 0x10000 true) w →
      ∀ t ca co m addr size v₁ v₂, w.vm.frees t = none →
        w.vm.exec (.freeBegin t ca co m addr size) = some v₁ →
        Relation.ReflTransGen (Vm.Own t) v₁ v₂ → v₂.frees t = none →
        ∀ x, ¬ InFreeRange addr size x → ∀ e ∈ w.vm.extents, e.Has x →
          ∃ e' ∈ v₂.extents, e'.Has x ∧ e'.isFree = e.isFree ∧ e'.attrs = e.attrs := by
  have hreach : ∀ acts w, afterActs acts = some w →
      Reachable (watchedSystem Bool 0x40000000 0x10000 true) w :=
    fun acts w hw => Reachable.execAll (fun _ _ _ hs => hs) acts (.init rfl) hw
  constructor
  · intro h
    let acts := [allocPage true, beginPage true, beginPage false, .unmap false, .freeEnd false,
      allocPage false]
    have hpage : GuestVMExtent.Has
        { addr := 0x40000, size := 0x1000, isFree := false, prot := 3, name := "anon".toList }
        0x40000 := by decide
    refine h _ (hreach acts _ rfl) (.unmap true) _ rfl true 0x40000
      (.inl ⟨rfl, _, { addr := 0x40000, size := 0x1000 }, rfl, rfl, by decide⟩) _ ?_ hpage
    decide
  · intro h
    have hbefore : { addr := 0x41000, size := 0x3bfbf000, isFree := true } ∈
        (recompVmAlloc true true 0x1000 (initExtents 0x40000000 0x10000 true)).1 := by decide
    obtain ⟨e', he', hx, -, hattrs⟩ := h _ (hreach [allocPage true] _ rfl) true true true true
      0x40000 0x1000 _ _ rfl rfl
      (.head (.inl rfl) (.single (.inr rfl))) rfl 0x41000 (by decide) _ hbefore (by decide)
    have hmerged : ∀ e' ∈ (recompVmFree true true true 0x40000 0x1000
        (recompVmAlloc true true 0x1000 (initExtents 0x40000000 0x10000 true)).1).1,
        e'.Has 0x41000 → e'.prot = 3 := by decide
    have hprot : e'.prot = 0 := congrArg Prod.fst hattrs
    rw [hmerged e' he' hx] at hprot
    exact absurd hprot (by decide)

end PS4Recomp.Runtime
