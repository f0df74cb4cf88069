import PS4Recomp.Runtime.VmFixed

/-!
# Protection changes

The three calls that change the protection of a range, and what queries report afterwards.

* `queryProt` — what `sceKernelVirtualQuery` reports, read and write for a protection of 0;
* `InWidened` — an address of a 16 KiB page of a range, `ProtExact` — the pages report the new
  protection and everything else the old one;
* `Retags` — a call that sets the protection of some addresses, `exact_iff` — when that is exact,
  `Tagged`;
* `mprotectTags`, `mtypeTags`, `sysTags` — the addresses that the three calls set;
* **`protection_exact`** — each of the calls is exact exactly when the addresses it sets are `Tagged`,
  and where all three are they leave the same protections;
* `mprotect_whole` — one page protected inside a larger mapping.
-/

namespace PS4Recomp.Runtime

open Library

variable {M : ℕ} {l l' pre post : List GuestVMExtent} {e : GuestVMExtent}

/-- `prot ? prot : PROT_READ | PROT_WRITE`. -/
def shownProt (prot : BitVec 32) : BitVec 32 := if prot ≠ 0 then prot else protReadWrite

/-- The protection that `sceKernelVirtualQuery` and `sceKernelQueryMemoryProtection` report. -/
def queryProt (addr : BitVec 64) (l : List GuestVMExtent) : Option (BitVec 32) :=
  (recompVmFind addr l).map fun e => shownProt e.prot

theorem shownProt_ne_zero (prot : BitVec 32) : shownProt prot ≠ 0 := by
  rw [shownProt]
  split
  · assumption
  · decide

/-- `vaddr & ~0x3fff`. -/
def widenStart (addr : BitVec 64) : BitVec 64 := addr &&& ~~~0x3fff

/-- `((size + (vaddr - start)) + 0x3fff) & ~0x3fff`. -/
def widenSpan (addr size : BitVec 64) : BitVec 64 :=
  (size + (addr - widenStart addr) + 0x3fff) &&& ~~~0x3fff

/-- The end of the widened range, in 64 bits. -/
def widenStop (addr size : BitVec 64) : BitVec 64 := widenStart addr + widenSpan addr size

/-- A mapped extent that meets `[start, stop)`. -/
def GuestVMExtent.meets (start stop : BitVec 64) (e : GuestVMExtent) : Bool :=
  !e.isFree && decide (e.addr < stop) && decide (start < e.stop)

theorem meets_iff {start stop : BitVec 64} : e.meets start stop = true ↔
    e.isFree = false ∧ e.addr < stop ∧ start < e.stop := by
  simp only [GuestVMExtent.meets, Bool.and_eq_true, Bool.not_eq_true', decide_eq_true_eq, and_assoc]

/-- The result of `sceKernelMtypeprotect`. -/
def mtypeprotectCode (memSize : BitVec 64) (callocStart callocStop : Bool) (addr size : BitVec 64)
    (l : List GuestVMExtent) : BitVec 32 :=
  let start := widenStart addr
  let stop := widenStop addr size
  if size = 0 then 0
  else if stop < start ∨ memSize < stop then 0x80020016
  else if l.any (GuestVMExtent.meets start stop) then
    if (splitEnds callocStart callocStop start stop l).2 then 0 else 0x8002000c
  else 0x80020016

/-! ### exact changes -/

/-- An address of a page of 16 KiB that has a byte of `[addr, addr + size)`. -/
def InWidened (addr size a : BitVec 64) : Prop :=
  ∃ y, addr.toNat ≤ y ∧ y < addr.toNat + size.toNat ∧ y / 0x4000 = a.toNat / 0x4000

/-- The addresses of the widened range report the new protection, all others the one they had. -/
structure ProtExact (addr size : BitVec 64) (prot : BitVec 32) (l l' : List GuestVMExtent) : Prop where
  inside : ∀ a, InWidened addr size a → queryProt a l' = some prot
  outside : ∀ a, ¬ InWidened addr size a → queryProt a l' = queryProt a l

/-- The protection of the tagged addresses is set. -/
structure Retags (tags : BitVec 64 → Prop) (prot : BitVec 32) (l l' : List GuestVMExtent) : Prop where
  tagged : ∀ a, tags a → queryProt a l' = some (shownProt prot)
  others : ∀ a, ¬ tags a → queryProt a l' = queryProt a l

/-- The tags that are exact: every address of the widened range is tagged, with a protection that is not
0, or reports the new protection already, and so does every other tagged address. -/
structure Tagged (addr size : BitVec 64) (prot : BitVec 32) (l : List GuestVMExtent)
    (tags : BitVec 64 → Prop) : Prop where
  inside : ∀ a, InWidened addr size a → tags a ∧ prot ≠ 0 ∨ queryProt a l = some prot
  outside : ∀ a, ¬ InWidened addr size a → tags a → queryProt a l = some (shownProt prot)

theorem queryProt_ne_zero {a : BitVec 64} : queryProt a l ≠ some 0 := by
  rw [queryProt]
  cases recompVmFind a l with
  | none => exact fun hc => by cases hc
  | some e => exact fun hc => shownProt_ne_zero e.prot (Option.some.inj hc)

theorem shownProt_eq_iff {prot : BitVec 32} : shownProt prot = prot ↔ prot ≠ 0 := by
  constructor
  · intro heq hz
    exact shownProt_ne_zero prot (heq.trans hz)
  · exact fun hne => if_pos hne

theorem exact_iff {tags : BitVec 64 → Prop} {addr size : BitVec 64} {prot : BitVec 32}
    (h : Retags tags prot l l') : ProtExact addr size prot l l' ↔ Tagged addr size prot l tags := by
  constructor
  · intro hexact
    refine ⟨fun a ha => ?_, fun a ha htag => ?_⟩
    · have hin := hexact.inside a ha
      by_cases htag : tags a
      · rw [h.tagged a htag] at hin
        exact .inl ⟨htag, shownProt_eq_iff.1 (Option.some.inj hin)⟩
      · rw [h.others a htag] at hin
        exact .inr hin
    · rw [← hexact.outside a ha, h.tagged a htag]
  · intro htagged
    refine ⟨fun a ha => ?_, fun a ha => ?_⟩
    · by_cases htag : tags a
      · have hne : prot ≠ 0 := by
          rcases htagged.inside a ha with hnew | hold
          · exact hnew.2
          · intro hz
            rw [hz] at hold
            exact queryProt_ne_zero hold
        rw [h.tagged a htag, shownProt_eq_iff.2 hne]
      · rw [h.others a htag]
        exact (htagged.inside a ha).resolve_left fun hc => htag hc.1
    · by_cases htag : tags a
      · rw [h.tagged a htag, htagged.outside a ha htag]
      · exact h.others a htag

/-! ### the three calls -/

/-- All of every mapped extent that meets the widened range. -/
def mprotectTags (addr size : BitVec 64) (l : List GuestVMExtent) (a : BitVec 64) : Prop :=
  size ≠ 0 ∧ ∃ e ∈ l, e.meets (widenStart addr) (widenStop addr size) = true ∧ e.Has a.toNat

/-- The mapped addresses of the widened range. -/
def mtypeTags (addr size : BitVec 64) (l : List GuestVMExtent) (a : BitVec 64) : Prop :=
  size ≠ 0 ∧ (∃ e ∈ l, e.isFree = false ∧ e.Has a.toNat) ∧
    widenStart addr ≤ a ∧ a < widenStop addr size

/-- All of the extent around the address, mapped or free. -/
def sysTags (addr : BitVec 64) (l : List GuestVMExtent) (a : BitVec 64) : Prop :=
  ∃ e, recompVmFind addr l = some e ∧ e.Has a.toNat

theorem find_map {f : GuestVMExtent → GuestVMExtent}
    (hf : ∀ c, (f c).addr = c.addr ∧ (f c).size = c.size) (a : BitVec 64) :
    recompVmFind a (l.map f) = (recompVmFind a l).map f := by
  have hsame : GuestVMExtent.around a ∘ f = GuestVMExtent.around a := by
    funext c
    show (decide ((f c).addr ≤ a) && decide (a < (f c).addr + (f c).size)) = _
    rw [(hf c).1, (hf c).2]
    rfl
  rw [recompVmFind, List.find?_map, hsame]
  rfl

/-- The mapped extents with a property set to a protection. -/
theorem retags_map (h : Apart M l) (hM : M < 2 ^ 64) {prot : BitVec 32} {test : GuestVMExtent → Bool}
    {f : GuestVMExtent → GuestVMExtent} (hf : ∀ c, (f c).addr = c.addr ∧ (f c).size = c.size)
    (hset : ∀ c, test c = true → (f c).prot = prot) (hkeep : ∀ c, test c = false → f c = c) :
    Retags (fun a => ∃ e ∈ l, test e = true ∧ e.Has a.toNat) prot l (l.map f) := by
  constructor
  · intro a ha
    obtain ⟨e, he, htest, hx⟩ := ha
    rw [queryProt, find_map hf, (h.find_iff hM).2 ⟨he, hx⟩, Option.map_some, Option.map_some,
      hset e htest]
  · intro a ha
    rw [queryProt, queryProt, find_map hf]
    cases hfind : recompVmFind a l with
    | none => rfl
    | some e =>
        obtain ⟨he, hx⟩ := (h.find_iff hM).1 hfind
        have hnot : test e = false := by
          rw [Bool.eq_false_iff]
          exact fun htest => ha ⟨e, he, htest, hx⟩
        rw [Option.map_some, hkeep e hnot]

theorem Retags.congr {tags tags' : BitVec 64 → Prop} {prot : BitVec 32} (h : Retags tags prot l l')
    (hiff : ∀ a, tags' a ↔ tags a) : Retags tags' prot l l' :=
  ⟨fun a ha => h.tagged a ((hiff a).1 ha), fun a ha => h.others a fun hc => ha ((hiff a).2 hc)⟩

theorem retags_none {tags : BitVec 64 → Prop} {prot : BitVec 32} (h : ∀ a, ¬ tags a) :
    Retags tags prot l l := ⟨fun a ha => absurd ha (h a), fun _ _ => rfl⟩

theorem mprotect_retags (h : Apart M l) (hM : M < 2 ^ 64) (addr size : BitVec 64) (prot : BitVec 32) :
    Retags (mprotectTags addr size l) prot l (sceKernelMprotect addr size prot l) := by
  have hdef : sceKernelMprotect addr size prot l =
      if size = 0 then l
      else l.map fun e =>
        if e.isFree = false ∧ e.addr < widenStop addr size ∧ widenStart addr < e.stop then
          { e with prot } else e := rfl
  rw [hdef]
  by_cases hsize : size = 0
  · rw [if_pos hsize]
    exact retags_none fun a ha => ha.1 hsize
  · rw [if_neg hsize]
    refine (retags_map h hM (fun c => ?_) (fun c hc => ?_) fun c hc => ?_).congr
      fun a => and_iff_right hsize
    · split <;> exact ⟨rfl, rfl⟩
    · rw [if_pos (meets_iff.1 hc)]
    · rw [if_neg]
      intro hmeets
      have hyes : c.meets (widenStart addr) (widenStop addr size) = true := meets_iff.2 hmeets
      rw [hc] at hyes
      cases hyes

theorem sysMprotect_retags (h : Apart M l) (hM : M < 2 ^ 64) (addr : BitVec 64) (prot : BitVec 32) :
    Retags (sysTags addr l) prot l (sysMprotect addr prot l) := by
  rw [sysMprotect]
  cases hs : firstSplit (fun e : GuestVMExtent => decide (e.addr ≤ addr) && decide (addr < e.stop)) l with
  | none =>
      refine retags_none fun a ha => ?_
      obtain ⟨e, he, -⟩ := ha
      obtain ⟨hmem, hx⟩ := (h.find_iff hM).1 he
      have hnot := firstSplit_eq_none hs e hmem
      have hyes := (around_iff (Nat.lt_of_le_of_lt (h.bounded e hmem) hM)).2 hx
      rw [GuestVMExtent.around, hnot] at hyes
      cases hyes
  | some r =>
      obtain ⟨pre, e, post⟩ := r
      obtain ⟨rfl, haround⟩ := firstSplit_eq_some hs
      have hmem : e ∈ pre ++ e :: post := List.mem_append_right _ List.mem_cons_self
      have hfind : recompVmFind addr (pre ++ e :: post) = some e :=
        (h.find_iff hM).2 ⟨hmem, (around_iff (Nat.lt_of_le_of_lt h.middle hM)).1 haround⟩
      have hpiece : Apart M [{ e with prot }] := by
        refine ⟨List.pairwise_singleton _ _, fun c hc => ?_⟩
        rw [List.mem_singleton.1 hc]
        exact h.middle
      have hin : ∀ c ∈ [{ e with prot }], ∀ x, c.Has x → e.Has x := by
        intro c hc x hx
        rw [List.mem_singleton.1 hc] at hx
        exact hx
      have h' := h.replace hpiece hin
      have hl : pre ++ { e with prot } :: post = pre ++ [{ e with prot }] ++ post := by simp
      dsimp only
      rw [hl]
      constructor
      · intro a ha
        obtain ⟨c, hc, hx⟩ := ha
        rw [hfind] at hc
        cases hc
        rw [queryProt, (h'.find_iff hM (e := { e with prot })).2 ⟨by simp, hx⟩]
        rfl
      · intro a ha
        have hout : ¬ e.Has a.toNat := fun hx => ha ⟨e, hfind, hx⟩
        rw [queryProt, queryProt, h.find_replace h' hM hin hout]

/-! ### splits -/

theorem splitExtentAt_query (calloc : Bool) (cut : BitVec 64) (hM : M < 2 ^ 64) (h : Apart M l)
    (a : BitVec 64) : queryProt a (splitExtentAt calloc cut l).1 = queryProt a l := by
  have hapart := splitExtentAt_apart calloc cut hM h
  rcases splitExtentAt_cases calloc cut l with ⟨heq, -⟩ | ⟨pre, e, post, hfound, heq⟩
  · rw [heq]
  · rw [heq] at hapart ⊢
    obtain ⟨rfl, hstraddles⟩ := firstSplit_eq_some hfound
    have htot : e.addr.toNat + e.size.toNat < 2 ^ 64 := Nat.lt_of_le_of_lt h.middle hM
    have hbytes := halves_bytes hstraddles htot
    by_cases hx : e.Has a.toNat
    · obtain ⟨c, hc, hcx⟩ := (hbytes a.toNat).2 hx
      have hattrs := (mem_halves hstraddles htot hc).2
      have hprot : c.prot = e.prot := congrArg Prod.fst hattrs
      have hcmem : c ∈ pre ++ e.halves cut ++ post :=
        List.mem_append_left _ (List.mem_append_right _ hc)
      rw [queryProt, queryProt, (hapart.find_iff hM).2 ⟨hcmem, hcx⟩,
        (h.find_iff hM).2 ⟨List.mem_append_right _ List.mem_cons_self, hx⟩, Option.map_some,
        Option.map_some, hprot]
    · have hin : ∀ c ∈ e.halves cut, ∀ x, c.Has x → e.Has x :=
        fun c hc x hcx => (hbytes x).1 ⟨c, hc, hcx⟩
      rw [queryProt, queryProt, h.find_replace hapart hM hin hx]

theorem splitEnds_query (ca co : Bool) (start stop : BitVec 64) (hM : M < 2 ^ 64) (h : Apart M l)
    (a : BitVec 64) : queryProt a (splitEnds ca co start stop l).1 = queryProt a l := by
  have hapart := splitExtentAt_apart ca start hM h
  have hfirst := splitExtentAt_query ca start hM h a
  rw [splitEnds]
  split
  · rename_i l' heq
    rw [heq] at hfirst
    exact hfirst
  · rename_i l' heq
    rw [heq] at hfirst hapart
    exact (splitExtentAt_query co stop hM hapart a).trans hfirst

/-- The mapped addresses are the same in lists that say the same about every byte. -/
theorem SameBytes.mapped_iff (h : SameBytes l l') {x : ℕ} :
    (∃ e ∈ l', e.isFree = false ∧ e.Has x) ↔ ∃ e ∈ l, e.isFree = false ∧ e.Has x := by
  have hattrs : ∀ k : List GuestVMExtent, (∃ e ∈ k, e.isFree = false ∧ e.Has x) ↔
      ∃ attrs, MappedAs k x attrs := by
    intro k
    constructor
    · intro he
      obtain ⟨e, he, hfree, hx⟩ := he
      exact ⟨e.attrs, e, he, hfree, hx, rfl⟩
    · intro ha
      obtain ⟨attrs, e, he, hfree, hx, -⟩ := ha
      exact ⟨e, he, hfree, hx⟩
  rw [hattrs l', hattrs l]
  exact exists_congr fun attrs => h.mapped x attrs

theorem mtypeprotect_none {memSize : BitVec 64} {ca co : Bool} {addr size : BitVec 64} (mtype prot : BitVec 32)
    (hsize : size = 0) : sceKernelMtypeprotect memSize ca co addr size mtype prot l = l :=
  if_pos (.inl hsize)

/-- The range is cut at its ends, and the extents inside it get the protection. -/
theorem mtypeprotect_cut {memSize : BitVec 64} {ca co : Bool} {addr size : BitVec 64}
    {l' : List GuestVMExtent} (mtype prot : BitVec 32) (hsize : size ≠ 0)
    (hrange : ¬ (widenStop addr size < widenStart addr ∨ memSize < widenStop addr size))
    (hany : l.any (GuestVMExtent.meets (widenStart addr) (widenStop addr size)) = true)
    (hcut : splitEnds ca co (widenStart addr) (widenStop addr size) l = (l', true)) :
    sceKernelMtypeprotect memSize ca co addr size mtype prot l = l'.map fun e =>
      if e.inside (widenStart addr) (widenStop addr size) then { e with prot, mtype } else e := by
  rw [sceKernelMtypeprotect]
  refine (if_neg (not_or.2 ⟨hsize, hrange⟩)).trans ((if_pos hany).trans ?_)
  rw [widenStop, widenSpan, widenStart] at hcut
  rw [hcut]
  rfl

theorem mtypeprotect_retags (h : Apart M l) (hM : M < 2 ^ 64) {memSize : BitVec 64} {ca co : Bool}
    {addr size : BitVec 64} (mtype prot : BitVec 32)
    (hok : mtypeprotectCode memSize ca co addr size l = 0) :
    Retags (mtypeTags addr size l) prot l
      (sceKernelMtypeprotect memSize ca co addr size mtype prot l) := by
  rw [mtypeprotectCode] at hok
  by_cases hsize : size = 0
  · rw [mtypeprotect_none mtype prot hsize]
    exact retags_none fun a ha => ha.1 hsize
  rw [if_neg hsize] at hok
  by_cases hrange : widenStop addr size < widenStart addr ∨ memSize < widenStop addr size
  · rw [if_pos hrange] at hok
    exact absurd hok (by decide)
  rw [if_neg hrange] at hok
  by_cases hany : l.any (GuestVMExtent.meets (widenStart addr) (widenStop addr size)) = true
  · rw [if_pos hany] at hok
    have hapart := splitEnds_apart ca co (widenStart addr) (widenStop addr size) hM h
    have hquery := splitEnds_query ca co (widenStart addr) (widenStop addr size) hM h
    have hbytes := splitEnds_bytes ca co (widenStart addr) (widenStop addr size) hM h
    have hcut := splitEnds_cut ca co (widenStart addr) (widenStop addr size) hM h
    cases hdone : splitEnds ca co (widenStart addr) (widenStop addr size) l with
    | mk l' ok =>
    rw [hdone] at hok hapart hquery hbytes hcut
    cases ok with
    | false =>
        have hcode : (0x8002000c : BitVec 32) = 0 := hok
        exact absurd hcode (by decide)
    | true =>
        rw [mtypeprotect_cut mtype prot hsize hrange hany hdone]
        -- the mapped extents inside the range have its mapped addresses
        have hset : Retags (fun a => ∃ e ∈ l', e.inside (widenStart addr) (widenStop addr size) = true ∧
            e.Has a.toNat) prot l' (l'.map fun e =>
              if e.inside (widenStart addr) (widenStop addr size) then { e with prot, mtype } else e) := by
          refine retags_map hapart hM (fun c => ?_) (fun c hc => ?_) fun c hc => ?_
          · split <;> exact ⟨rfl, rfl⟩
          · rw [if_pos hc]
          · rw [if_neg (by rw [hc]; exact Bool.false_ne_true)]
        have htags : ∀ a, mtypeTags addr size l a ↔ ∃ e ∈ l',
            e.inside (widenStart addr) (widenStop addr size) = true ∧ e.Has a.toNat := by
          intro a
          rw [mtypeTags, and_iff_right hsize, ← hbytes.mapped_iff]
          constructor
          · intro ha
            obtain ⟨⟨e, he, hfree, hx⟩, hlo, hhi⟩ := ha
            have htot := Nat.lt_of_le_of_lt (hapart.bounded e he) hM
            exact ⟨e, he, inside_of_cut htot (hcut rfl e he) hfree hx hlo hhi, hx⟩
          · intro ha
            obtain ⟨e, he, hin, hx⟩ := ha
            have htot := Nat.lt_of_le_of_lt (hapart.bounded e he) hM
            obtain ⟨hfree, hlo, hhi⟩ := inside_bounds htot hin
            exact ⟨⟨e, he, hfree, hx⟩, Nat.le_trans hlo hx.1, Nat.lt_of_lt_of_le hx.2 hhi⟩
        have hdone := hset.congr htags
        exact ⟨hdone.tagged, fun a ha => (hdone.others a ha).trans (hquery a)⟩
  · rw [if_neg hany] at hok
    exact absurd hok (by decide)

/-- **Protection changes.**  Each call that succeeds is exact exactly when the addresses that it sets are
tagged exactly, and where the three calls are exact they leave the same protections. -/
theorem protection_exact (hM : M < 2 ^ 64) (h : Apart M l) (memSize : BitVec 64)
    (callocStart callocStop : Bool) (addr size : BitVec 64) (mtype prot : BitVec 32) :
    let mp := sceKernelMprotect addr size prot l
    let mt := sceKernelMtypeprotect memSize callocStart callocStop addr size mtype prot l
    let sys := sysMprotect addr prot l
    (ProtExact addr size prot l mp ↔ Tagged addr size prot l (mprotectTags addr size l)) ∧
    (mtypeprotectCode memSize callocStart callocStop addr size l = 0 →
      (ProtExact addr size prot l mt ↔ Tagged addr size prot l (mtypeTags addr size l))) ∧
    (ProtExact addr size prot l sys ↔ Tagged addr size prot l (sysTags addr l)) ∧
    (ProtExact addr size prot l mp → ProtExact addr size prot l mt → ProtExact addr size prot l sys →
      ∀ a, queryProt a mp = queryProt a mt ∧ queryProt a mt = queryProt a sys) := by
  intro mp mt sys
  refine ⟨exact_iff (mprotect_retags h hM addr size prot),
    fun hok => exact_iff (mtypeprotect_retags h hM mtype prot hok),
    exact_iff (sysMprotect_retags h hM addr prot), fun hmp hmt hsys a => ?_⟩
  by_cases ha : InWidened addr size a
  · rw [hmp.inside a ha, hmt.inside a ha, hsys.inside a ha]
    exact ⟨rfl, rfl⟩
  · rw [hmp.outside a ha, hmt.outside a ha, hsys.outside a ha]
    exact ⟨rfl, rfl⟩

/-- A mapping of 64 KiB. -/
def mappedExtent : List GuestVMExtent :=
  [{ addr := 0x10000, size := 0x10000, isFree := false, prot := protReadWrite }]

theorem apart_mappedExtent : Apart 0x20000 mappedExtent := by
  refine ⟨List.pairwise_singleton _ _, fun e he => ?_⟩
  rw [List.mem_singleton.1 he]
  decide

/-- One page of it made read-only by `sceKernelMtypeprotect`. -/
theorem protection_exact_page :
    ProtExact 0x14000 0x4000 1 mappedExtent
      (sceKernelMtypeprotect 0x100000 true true 0x14000 0x4000 0 1 mappedExtent) := by
  have h := protection_exact (by decide) apart_mappedExtent 0x100000 true true 0x14000 0x4000 0 1
  have hpage : ∀ a, InWidened 0x14000 0x4000 a ↔ 0x14000 ≤ a.toNat ∧ a.toNat < 0x18000 := by
    intro a
    constructor
    · intro ha
      obtain ⟨y, hlo, hhi, heq⟩ := ha
      have hlo' : 0x14000 ≤ y := hlo
      have hhi' : y < 0x14000 + 0x4000 := hhi
      omega
    · exact fun ha => ⟨a.toNat, ha.1, ha.2, rfl⟩
  refine (h.2.1 (by decide)).2 ⟨fun a ha => ?_, fun a ha htag => ?_⟩
  · rw [hpage] at ha
    refine .inl ⟨⟨by decide, ⟨_, List.mem_cons_self, rfl, ?_, ?_⟩, ?_, ?_⟩, by decide⟩
    · show 0x10000 ≤ a.toNat
      omega
    · show a.toNat < 0x10000 + 0x10000
      omega
    · show 0x14000 ≤ a.toNat
      omega
    · show a.toNat < 0x18000
      omega
  · obtain ⟨-, -, hlo, hhi⟩ := htag
    exact absurd ((hpage a).2 ⟨hlo, hhi⟩) ha

/-- The first page of it is read-only too after `sceKernelMprotect` of the second, and so it is after
system call 74, while `sceKernelMtypeprotect` leaves it. -/
theorem mprotect_whole :
    queryProt 0x10000 mappedExtent = some 3 ∧
      queryProt 0x10000 (sceKernelMprotect 0x14000 0x4000 1 mappedExtent) = some 1 ∧
      queryProt 0x10000 (sysMprotect 0x14000 1 mappedExtent) = some 1 ∧
      queryProt 0x10000 (sceKernelMtypeprotect 0x100000 true true 0x14000 0x4000 0 1 mappedExtent) =
        some 3 ∧ ¬ InWidened 0x14000 0x4000 0x10000 := by
  refine ⟨by decide, by decide, by decide, by decide, fun h => ?_⟩
  obtain ⟨y, hlo, hhi, hpage⟩ := h
  have hlo' : 0x14000 ≤ y := hlo
  have hpage' : y / 0x4000 = 4 := hpage
  omega

end PS4Recomp.Runtime
