import PS4Recomp.Elf.AddrRanges

/-!
# Function extents and unwind ranges

`normalizeBounds` and the lookups over its result, against a scan of the records it was made from.

* `normalizeBounds` — `Normal` — one record for every start, the longest, `normalizeBounds_normal`;
* `inFuncExtent`, `codeCeiling`, `overlapsFunc` — the lookups beside `funcExtent`;
* `ScanExtent`, `ScanCeiling`, `Meets` — what a scan of all records answers;
* `Probed` — the halving search looks at a record around the address;
* **`lookups_scan`** — the lookups answer what the scans do, exactly when `Probed` says so, up to
  answers that are the same by chance;
* `inData`, `inUnwindScope`, **`mergeRanges_exact`** — the merged ranges and the lookups over them.

A record without addresses has no first address either, so no scan meets it.
-/

namespace PS4Recomp.Elf

open Library

/-! ### `normalizeBounds` -/

/-- The order of `normalizeBounds`, the longer record first. -/
def AddrRange.longerFirst (a b : AddrRange) : Prop :=
  a.start < b.start ∨ a.start = b.start ∧ b.stop ≤ a.stop

instance : DecidableRel AddrRange.longerFirst := fun a b =>
  inferInstanceAs (Decidable (a.start < b.start ∨ a.start = b.start ∧ b.stop ≤ a.stop))

instance : Std.Total AddrRange.longerFirst := ⟨fun a b => by
  rw [AddrRange.longerFirst, AddrRange.longerFirst]
  simp only [BitVec.lt_def, BitVec.le_def, ← BitVec.toNat_inj]
  omega⟩

instance : IsTrans AddrRange AddrRange.longerFirst := ⟨fun a b c hab hbc => by
  rw [AddrRange.longerFirst] at hab hbc ⊢
  simp only [BitVec.lt_def, BitVec.le_def, ← BitVec.toNat_inj] at hab hbc ⊢
  omega⟩

/-- One round of the loop of `normalizeBounds`, over what is kept so far. -/
def normalizeStep (out : List AddrRange) (r : AddrRange) : List AddrRange :=
  if r.stop ≤ r.start then out
  else match out.getLast? with
    | some last =>
        if last.start = r.start then
          if last.stop < r.stop then out.dropLast ++ [{ last with stop := r.stop }] else out
        else out ++ [r]
    | none => out ++ [r]

/-- `normalizeBounds`. -/
def normalizeBounds (rs : List AddrRange) : List AddrRange :=
  (rs.insertionSort AddrRange.longerFirst).foldl normalizeStep []

/-- What `normalizeBounds` keeps of the records: of those with one start the longest. -/
structure Normal (rs out : List AddrRange) : Prop where
  of_mem : ∀ b ∈ out, b ∈ rs ∧ b.start < b.stop
  starts : out.Pairwise fun a b => a.start < b.start
  longest : ∀ r ∈ rs, r.start < r.stop → ∃ b ∈ out, b.start = r.start ∧ r.stop ≤ b.stop

theorem Normal.snoc {rs out : List AddrRange} {r : AddrRange} (h : Normal rs out)
    (hne : r.start < r.stop) (hlast : ∀ b ∈ out, b.start < r.start) :
    Normal (rs ++ [r]) (out ++ [r]) := by
  refine ⟨?_, ?_, ?_⟩
  · intro b hb
    rcases List.mem_append.1 hb with hb | hb
    · exact ⟨List.mem_append_left _ (h.of_mem b hb).1, (h.of_mem b hb).2⟩
    · rw [List.mem_singleton.1 hb]
      exact ⟨List.mem_append_right _ (List.mem_singleton.2 rfl), hne⟩
  · refine List.pairwise_append.2 ⟨h.starts, List.pairwise_singleton _ _, ?_⟩
    intro a ha b hb
    rw [List.mem_singleton.1 hb]
    exact hlast a ha
  · intro a ha hane
    rcases List.mem_append.1 ha with ha | ha
    · obtain ⟨b, hb, hstart, hstop⟩ := h.longest a ha hane
      exact ⟨b, List.mem_append_left _ hb, hstart, hstop⟩
    · rw [List.mem_singleton.1 ha]
      exact ⟨r, List.mem_append_right _ (List.mem_singleton.2 rfl), rfl, BitVec.le_refl _⟩

/-- A record that is empty or behind a longer one with its start adds nothing. -/
theorem Normal.skip {rs out : List AddrRange} {r : AddrRange} (h : Normal rs out)
    (hskip : r.start < r.stop → ∃ b ∈ out, b.start = r.start ∧ r.stop ≤ b.stop) :
    Normal (rs ++ [r]) out := by
  refine ⟨fun b hb => ⟨List.mem_append_left _ (h.of_mem b hb).1, (h.of_mem b hb).2⟩, h.starts, ?_⟩
  intro a ha hane
  rcases List.mem_append.1 ha with ha | ha
  · exact h.longest a ha hane
  · rw [List.mem_singleton.1 ha] at hane ⊢
    exact hskip hane

/-- **One round**, for a record that comes after the others in the order. -/
theorem normalizeStep_normal {rs out : List AddrRange} {r : AddrRange} (h : Normal rs out)
    (hafter : ∀ a ∈ rs, a.longerFirst r) : Normal (rs ++ [r]) (normalizeStep out r) := by
  rw [normalizeStep]
  by_cases hempty : r.stop ≤ r.start
  · rw [if_pos hempty]
    exact h.skip fun hne => absurd hempty (BitVec.not_le.2 hne)
  rw [if_neg hempty]
  have hne : r.start < r.stop := BitVec.not_le.1 hempty
  rcases List.eq_nil_or_concat out with hnil | hsnoc
  · subst hnil
    exact h.snoc hne fun b hb => (by cases hb)
  · obtain ⟨front, last, hout⟩ := hsnoc
    rw [List.concat_eq_append] at hout
    have hmem : last ∈ out := by
      rw [hout]
      exact List.mem_append_right _ (List.mem_singleton.2 rfl)
    have hget : out.getLast? = some last := by rw [hout, List.getLast?_concat]
    have horder := hafter last (h.of_mem last hmem).1
    rw [hget]
    dsimp only
    by_cases hsame : last.start = r.start
    · have hlong : r.stop ≤ last.stop := by
        rcases horder with hlt | hle
        · rw [hsame] at hlt
          exact absurd hlt (BitVec.lt_irrefl _)
        · exact hle.2
      rw [if_pos hsame, if_neg (BitVec.not_lt.2 hlong)]
      exact h.skip fun _ => ⟨last, hmem, hsame, hlong⟩
    · rw [if_neg hsame]
      have hlt : last.start < r.start := horder.resolve_right fun hle => hsame hle.1
      refine h.snoc hne fun b hb => ?_
      rw [hout] at hb
      rcases List.mem_append.1 hb with hb | hb
      · have hstarts := h.starts
        rw [hout] at hstarts
        have hbl := (List.pairwise_append.1 hstarts).2.2 b hb last (List.mem_singleton.2 rfl)
        exact BitVec.lt_trans hbl hlt
      · rw [List.mem_singleton.1 hb]
        exact hlt

theorem foldl_normalizeStep (rs : List AddrRange) (h : rs.Pairwise AddrRange.longerFirst) :
    Normal rs (rs.foldl normalizeStep []) := by
  induction rs using List.reverseRecOn with
  | nil => exact ⟨fun b hb => (by cases hb), List.Pairwise.nil, fun r hr => (by cases hr)⟩
  | append_singleton rs r ih =>
      obtain ⟨hrs, -, hr⟩ := List.pairwise_append.1 h
      rw [List.foldl_append]
      exact normalizeStep_normal (ih hrs) fun a ha => hr a ha r (List.mem_singleton.2 rfl)

theorem normalizeBounds_normal (rs : List AddrRange) : Normal rs (normalizeBounds rs) := by
  have hperm := List.perm_insertionSort AddrRange.longerFirst rs
  have h := foldl_normalizeStep _ (List.pairwise_insertionSort AddrRange.longerFirst rs)
  refine ⟨?_, h.starts, ?_⟩
  · intro b hb
    exact ⟨hperm.mem_iff.1 (h.of_mem b hb).1, (h.of_mem b hb).2⟩
  · exact fun r hr => h.longest r (hperm.mem_iff.2 hr)

theorem AddrRange.has_start {r : AddrRange} : r.Has r.start ↔ r.start < r.stop :=
  and_iff_right (BitVec.le_refl _)

/-! ### the lookups -/

/-- `InFuncExtent`. -/
def inFuncExtent (l : LoadedELF) (addr : BitVec 64) : Bool :=
  if l.funcBounds.isEmpty then false else rangeContains l.funcBounds addr

/-- `CodeCeiling`. -/
def codeCeiling (l : LoadedELF) (addr : BitVec 64) : BitVec 64 :=
  if l.funcBounds.isEmpty then 0
  else
    let found := binarySearch (AddrRange.cmp addr) l.funcBounds
    match l.funcBounds[found.1]? with
    | some r => if found.2 then r.stop else if addr < r.start then r.start else 0
    | none => 0

/-- `overlapsFunc`. -/
def overlapsFunc (l : LoadedELF) (start stop : BitVec 64) : Bool :=
  if l.funcBounds.isEmpty then false
  else
    let found := binarySearch (AddrRange.cmp start) l.funcBounds
    if found.2 then true
    else match l.funcBounds[found.1]? with
      | some r => decide (r.start < stop)
      | none => false

/-- The number of records that start at or before an address. -/
def startsUpTo (bs : List AddrRange) (addr : BitVec 64) : ℕ := bs.countP fun b => b.start ≤ addr

/-- One of the kept records that halving their list looks at, on its way to the first that starts
behind the address, has the address. -/
def Probed (bs : List AddrRange) (addr : BitVec 64) : Prop :=
  ∃ p ∈ probes (fun k => decide (k < startsUpTo bs addr)) bs.length 0 bs.length,
    ∃ b, bs[p]? = some b ∧ b.Has addr

theorem startsUpTo_eq_zero {bs : List AddrRange} {addr : BitVec 64} (h : ∀ b ∈ bs, addr < b.start) :
    startsUpTo bs addr = 0 := by
  rw [startsUpTo, List.countP_eq_zero]
  intro b hb hle
  exact BitVec.not_le.2 (h b hb) (of_decide_eq_true hle)

/-- In the order of their starts, they are the first ones. -/
theorem start_le_iff {bs : List AddrRange} (h : bs.Pairwise fun a b => a.start < b.start)
    {addr : BitVec 64} {k : ℕ} {b : AddrRange} (hb : bs[k]? = some b) :
    b.start ≤ addr ↔ k < startsUpTo bs addr := by
  induction bs generalizing k with
  | nil => cases hb
  | cons a bs ih =>
      obtain ⟨hfirst, hbs⟩ := List.pairwise_cons.1 h
      by_cases ha : a.start ≤ addr
      · have hcount : startsUpTo (a :: bs) addr = startsUpTo bs addr + 1 :=
          List.countP_cons_of_pos (decide_eq_true ha)
        rw [hcount]
        cases k with
        | zero =>
            cases hb
            exact iff_of_true ha (Nat.succ_pos _)
        | succ k => rw [ih hbs hb, Nat.add_lt_add_iff_right]
      · have hahead : ∀ c ∈ a :: bs, addr < c.start := by
          intro c hc
          rcases List.mem_cons.1 hc with heq | hc
          · rw [heq]
            exact BitVec.not_le.1 ha
          · exact BitVec.lt_trans (BitVec.not_le.1 ha) (hfirst c hc)
        rw [startsUpTo_eq_zero hahead]
        have hc := hahead b (List.mem_of_getElem? hb)
        exact iff_of_false (BitVec.not_le.2 hc) (Nat.not_lt_zero _)

/-- What the search over kept records comes to. -/
inductive Lookup (bs : List AddrRange) (addr : BitVec 64) : Prop
  | found {i : ℕ} {b : AddrRange} : binarySearch (AddrRange.cmp addr) bs = (i, true) →
      bs[i]? = some b → b.Has addr → Probed bs addr → Lookup bs addr
  | missed : binarySearch (AddrRange.cmp addr) bs = (startsUpTo bs addr, false) →
      ¬ Probed bs addr → Lookup bs addr

/-- The record at a position ends before the address. -/
def endsBefore (bs : List AddrRange) (addr : BitVec 64) (k : ℕ) : Bool :=
  (bs[k]?.map (AddrRange.cmp addr)) == some .lt

theorem endsBefore_iff {bs : List AddrRange} {addr : BitVec 64} {k : ℕ} {b : AddrRange}
    (hb : bs[k]? = some b) : endsBefore bs addr k = true ↔ b.stop ≤ addr := by
  rw [endsBefore, hb, Option.map_some, beq_iff_eq, Option.some.injEq, AddrRange.cmp]
  by_cases hstop : b.stop ≤ addr
  · rw [if_pos hstop]
    exact iff_of_true rfl hstop
  · rw [if_neg hstop]
    refine iff_of_false (fun hc => ?_) hstop
    split at hc <;> cases hc

/-- A record that ends before the address starts before it. -/
theorem Normal.endsBefore_start {rs bs : List AddrRange} (h : Normal rs bs) {addr : BitVec 64} {k : ℕ}
    (hk : endsBefore bs addr k = true) : decide (k < startsUpTo bs addr) = true := by
  cases hb : bs[k]? with
  | none =>
      rw [endsBefore, hb] at hk
      cases hk
  | some b =>
      have hstop := (endsBefore_iff hb).1 hk
      have hne := (h.of_mem b (List.mem_of_getElem? hb)).2
      exact decide_eq_true ((start_le_iff h.starts hb).1 (BitVec.le_trans (BitVec.le_of_lt hne) hstop))

/-- A record that starts before the address and does not end there has it. -/
theorem Normal.has_of_not_endsBefore {rs bs : List AddrRange} (h : Normal rs bs) {addr : BitVec 64}
    {k : ℕ} {b : AddrRange} (hb : bs[k]? = some b) (hk : k < startsUpTo bs addr)
    (hnot : endsBefore bs addr k = false) : b.Has addr := by
  refine ⟨(start_le_iff h.starts hb).2 hk, BitVec.not_le.1 fun hstop => ?_⟩
  rw [(endsBefore_iff hb).2 hstop] at hnot
  cases hnot

/-- **The search** finds a record exactly when it is `Probed`, and stops otherwise at the first that
starts behind the address. -/
theorem Normal.lookup {rs bs : List AddrRange} (h : Normal rs bs) (addr : BitVec 64) :
    Lookup bs addr := by
  have hle : startsUpTo bs addr ≤ bs.length := List.countP_le_length
  have hsearch : (binarySearch (AddrRange.cmp addr) bs).1 =
      search (endsBefore bs addr) bs.length 0 bs.length := rfl
  by_cases hprobed : Probed bs addr
  · obtain ⟨p, hp, b, hb, hin⟩ := hprobed
    have hpm := (start_le_iff h.starts hb).1 hin.1
    have hnot : endsBefore bs addr p = false := by
      rw [Bool.eq_false_iff]
      intro hlt
      exact BitVec.not_le.2 hin.2 ((endsBefore_iff hb).1 hlt)
    -- the search turns left there at the latest, so it stops at a record that is not behind
    have hearly := search_early (fun k => h.endsBefore_start) hp hnot
    have hstop := search_stop (endsBefore bs addr) (n := bs.length) (i := 0) (j := bs.length)
      (by omega) (by omega)
    rw [← hsearch] at hearly hstop
    generalize hi : (binarySearch (AddrRange.cmp addr) bs).1 = i at hearly hstop
    have hilen : i < bs.length := by omega
    have hc : bs[i]? = some bs[i] := List.getElem?_eq_getElem hilen
    have hcin := h.has_of_not_endsBefore hc (by omega) (hstop.resolve_left (by omega))
    refine .found (Prod.ext hi ?_) hc hcin ⟨p, hp, b, hb, hin⟩
    show (bs[(binarySearch (AddrRange.cmp addr) bs).1]?.map (AddrRange.cmp addr)) == some .eq
    rw [hi, hc, Option.map_some, AddrRange.cmp_eq_eq.2 hcin, beq_self_eq_true]
  · -- every record on the way to the first behind is before the address, so the way is the same
    have hway : search (endsBefore bs addr) bs.length 0 bs.length =
        search (fun k => decide (k < startsUpTo bs addr)) bs.length 0 bs.length := by
      refine search_agree fun p hp => ?_
      cases hlt : decide (p < startsUpTo bs addr) with
      | false =>
          rw [Bool.eq_false_iff]
          intro hc
          rw [h.endsBefore_start hc] at hlt
          cases hlt
      | true =>
          have hpm := of_decide_eq_true hlt
          have hb : bs[p]? = some bs[p] := List.getElem?_eq_getElem (by omega)
          by_contra hnot
          exact hprobed ⟨p, hp, _, hb, h.has_of_not_endsBefore hb hpm (Bool.eq_false_iff.2 hnot)⟩
    have hi : (binarySearch (AddrRange.cmp addr) bs).1 = startsUpTo bs addr := by
      rw [hsearch, hway]
      exact search_spec (by omega) (by omega) hle fun k _ _ => decide_eq_true_iff
    refine .missed (Prod.ext hi ?_) hprobed
    show ((bs[(binarySearch (AddrRange.cmp addr) bs).1]?.map (AddrRange.cmp addr)) == some .eq) = false
    rw [hi]
    cases hb : bs[startsUpTo bs addr]? with
    | none => rfl
    | some b =>
        have hcmp : AddrRange.cmp addr b ≠ .eq := by
          intro hc
          exact lt_irrefl _ ((start_le_iff h.starts hb).1 (AddrRange.cmp_eq_eq.1 hc).1)
        rw [Option.map_some, beq_eq_false_iff_ne]
        exact fun hc => hcmp (Option.some.inj hc)

/-- Behind the records that start up to the address, the next one starts first. -/
theorem Normal.next {rs bs : List AddrRange} (h : Normal rs bs) {addr : BitVec 64} {b : AddrRange}
    (hb : bs[startsUpTo bs addr]? = some b) :
    addr < b.start ∧ ∀ c ∈ bs, addr < c.start → b.start ≤ c.start := by
  have hahead : addr < b.start := by
    refine BitVec.not_le.1 fun hle => ?_
    exact lt_irrefl _ ((start_le_iff h.starts hb).1 hle)
  refine ⟨hahead, fun c hc hlt => ?_⟩
  obtain ⟨k, hk⟩ := List.getElem?_of_mem hc
  have hkm : ¬ k < startsUpTo bs addr := fun hk' => BitVec.not_le.2 hlt ((start_le_iff h.starts hk).2 hk')
  rcases (not_lt.1 hkm).eq_or_lt with heq | hlt'
  · rw [← heq, hb] at hk
    cases hk
    exact BitVec.le_refl _
  · obtain ⟨hm, rfl⟩ := List.getElem?_eq_some_iff.1 hb
    obtain ⟨hk', rfl⟩ := List.getElem?_eq_some_iff.1 hk
    exact BitVec.le_of_lt (List.pairwise_iff_getElem.1 h.starts _ k hm hk' hlt')

theorem Normal.no_next {rs bs : List AddrRange} (h : Normal rs bs) {addr : BitVec 64}
    (hb : bs[startsUpTo bs addr]? = none) : ∀ c ∈ bs, c.start ≤ addr := by
  intro c hc
  obtain ⟨k, hk⟩ := List.getElem?_of_mem hc
  have hlen : bs.length ≤ startsUpTo bs addr := List.getElem?_eq_none_iff.1 hb
  have hk' := (List.getElem?_eq_some_iff.1 hk).1
  exact (start_le_iff h.starts hk).2 (by omega)

/-! ### the scans -/

/-- What a scan of the records for one that has the address answers. -/
structure ScanExtent (rs : List AddrRange) (addr : BitVec 64) (answer : Option AddrRange) : Prop where
  some : ∀ r, answer = some r → r ∈ rs ∧ r.Has addr
  none : answer = none → ¬ Covers rs addr

/-- The lowest first address of a record behind `addr`. -/
structure NextStart (rs : List AddrRange) (addr first : BitVec 64) : Prop where
  starts : ∃ r ∈ rs, r.Has r.start ∧ r.start = first
  behind : addr < first
  lowest : ∀ r ∈ rs, r.Has r.start → addr < r.start → first ≤ r.start

theorem NextStart.eq {rs : List AddrRange} {addr a b : BitVec 64} (ha : NextStart rs addr a)
    (hb : NextStart rs addr b) : a = b := by
  obtain ⟨r, hr, hne, hstart⟩ := ha.starts
  obtain ⟨r', hr', hne', hstart'⟩ := hb.starts
  have hle := ha.lowest r' hr' hne' (by rw [hstart']; exact hb.behind)
  have hge := hb.lowest r hr hne (by rw [hstart]; exact ha.behind)
  rw [hstart'] at hle
  rw [hstart] at hge
  exact BitVec.le_antisymm hle hge

/-- What a scan of the records for the end of the code at an address answers. -/
inductive ScanCeiling (rs : List AddrRange) (addr : BitVec 64) : BitVec 64 → Prop
  | inside {r : AddrRange} : r ∈ rs → r.Has addr → ScanCeiling rs addr r.stop
  | next {first : BitVec 64} : ¬ Covers rs addr → NextStart rs addr first → ScanCeiling rs addr first
  | last : ¬ Covers rs addr → (∀ r ∈ rs, r.Has r.start → r.start ≤ addr) → ScanCeiling rs addr 0

/-- An address of `[start, stop)` is one of the record. -/
def AddrRange.Meets (r : AddrRange) (start stop : BitVec 64) : Prop :=
  ∃ addr, start ≤ addr ∧ addr < stop ∧ r.Has addr

theorem AddrRange.meets_iff {r : AddrRange} {start stop : BitVec 64} (h : start < stop) :
    r.Meets start stop ↔ r.Has start ∨ r.Has r.start ∧ start < r.start ∧ r.start < stop := by
  constructor
  · intro hm
    obtain ⟨addr, hge, hlt, hin⟩ := hm
    have hne : r.start < r.stop := Nat.lt_of_le_of_lt hin.1 hin.2
    by_cases hstart : r.start ≤ start
    · exact .inl ⟨hstart, Nat.lt_of_le_of_lt hge hin.2⟩
    · exact .inr ⟨has_start.2 hne, BitVec.not_le.1 hstart, Nat.lt_of_le_of_lt hin.1 hlt⟩
  · intro hm
    rcases hm with hin | ⟨hne, hlt, hstop⟩
    · exact ⟨start, BitVec.le_refl _, h, hin⟩
    · exact ⟨r.start, BitVec.le_of_lt hlt, hstop, hne⟩

section Scans

variable {l : LoadedELF} {rs : List AddrRange} (h : Normal rs l.funcBounds) (addr : BitVec 64)

include h

theorem funcExtent_scan :
    ScanExtent rs addr (funcExtent l addr) ↔ (Covers rs addr → Probed l.funcBounds addr) := by
  rw [funcExtent]
  cases h.lookup addr with
  | found hfound hb hin hprobed =>
      rw [hfound]
      dsimp only
      rw [if_pos rfl, hb]
      refine iff_of_true ⟨fun r hr => ?_, fun hn => ?_⟩ fun _ => hprobed
      · cases hr
        exact ⟨(h.of_mem _ (List.mem_of_getElem? hb)).1, hin⟩
      · cases hn
  | missed hmissed hnot =>
      rw [hmissed]
      dsimp only
      rw [if_neg Bool.false_ne_true]
      constructor
      · exact fun hscan hc => absurd hc (hscan.none rfl)
      · intro himp
        refine ⟨fun r hr => ?_, fun _ hc => hnot (himp hc)⟩
        cases hr

theorem inFuncExtent_scan :
    (inFuncExtent l addr = true ↔ Covers rs addr) ↔ (Covers rs addr → Probed l.funcBounds addr) := by
  have hempty : inFuncExtent l addr = (binarySearch (AddrRange.cmp addr) l.funcBounds).2 := by
    rw [inFuncExtent]
    cases l.funcBounds <;> rfl
  rw [hempty]
  cases h.lookup addr with
  | found hfound hb hin hprobed =>
      rw [hfound]
      have hc : Covers rs addr := ⟨_, (h.of_mem _ (List.mem_of_getElem? hb)).1, hin⟩
      exact iff_of_true (iff_of_true rfl hc) fun _ => hprobed
  | missed hmissed hnot =>
      rw [hmissed]
      constructor
      · intro hiff hc
        cases hiff.2 hc
      · exact fun himp => iff_of_false Bool.false_ne_true fun hc => hnot (himp hc)

omit h in
theorem codeCeiling_eq :
    codeCeiling l addr =
      match l.funcBounds[(binarySearch (AddrRange.cmp addr) l.funcBounds).1]? with
      | some r =>
          if (binarySearch (AddrRange.cmp addr) l.funcBounds).2 then r.stop
          else if addr < r.start then r.start else 0
      | none => 0 := by
  rw [codeCeiling]
  cases l.funcBounds <;> rfl

theorem nextStart_of {b : AddrRange} (hb : l.funcBounds[startsUpTo l.funcBounds addr]? = some b) :
    NextStart rs addr b.start := by
  obtain ⟨hahead, hlowest⟩ := h.next hb
  refine ⟨?_, hahead, ?_⟩
  · obtain ⟨hmem, hne⟩ := h.of_mem b (List.mem_of_getElem? hb)
    exact ⟨b, hmem, AddrRange.has_start.2 hne, rfl⟩
  · intro r hr hne hlt
    obtain ⟨c, hc, hstart, -⟩ := h.longest r hr (AddrRange.has_start.1 hne)
    rw [← hstart] at hlt ⊢
    exact hlowest c hc hlt

theorem codeCeiling_scan :
    ScanCeiling rs addr (codeCeiling l addr) ↔
      (Covers rs addr → Probed l.funcBounds addr) ∨ ∃ r ∈ rs, r.Has addr ∧ NextStart rs addr r.stop := by
  rw [codeCeiling_eq]
  cases h.lookup addr with
  | found hfound hb hin hprobed =>
      rw [hfound, hb]
      dsimp only
      rw [if_pos rfl]
      exact iff_of_true (.inside (h.of_mem _ (List.mem_of_getElem? hb)).1 hin) (.inl fun _ => hprobed)
  | missed hmissed hnot =>
      rw [hmissed]
      dsimp only
      cases hb : l.funcBounds[startsUpTo l.funcBounds addr]? with
      | none =>
          dsimp only
          have hlast : ∀ r ∈ rs, r.Has r.start → r.start ≤ addr := by
            intro r hr hne
            obtain ⟨c, hc, hstart, -⟩ := h.longest r hr (AddrRange.has_start.1 hne)
            rw [← hstart]
            exact h.no_next hb c hc
          by_cases hc : Covers rs addr
          · -- 0 is no end, and no record starts behind
            refine iff_of_false (fun hscan => ?_) (not_or.2 ⟨fun himp => hnot (himp hc), fun hr => ?_⟩)
            · generalize hzero : (0 : BitVec 64) = z at hscan
              cases hscan with
              | inside hr hin =>
                  have hlt := hin.2
                  rw [← hzero] at hlt
                  exact BitVec.not_lt_zero hlt
              | next hnc => exact hnc hc
              | last hnc => exact hnc hc
            · obtain ⟨r, -, -, hnext⟩ := hr
              obtain ⟨c, hc, hne, hstart⟩ := hnext.starts
              have hbehind := hnext.behind
              rw [← hstart] at hbehind
              exact BitVec.not_le.2 hbehind (hlast c hc hne)
          · exact iff_of_true (.last hc hlast) (.inl fun hc' => absurd hc' hc)
      | some b =>
          dsimp only
          rw [if_neg Bool.false_ne_true, if_pos (h.next hb).1]
          have hnext := nextStart_of h addr hb
          by_cases hc : Covers rs addr
          · constructor
            · intro hscan
              right
              generalize hz : b.start = z at hscan hnext
              cases hscan with
              | inside hr hin => exact ⟨_, hr, hin, hnext⟩
              | next hnc => exact absurd hc hnc
              | last hnc => exact absurd hc hnc
            · intro himp
              rcases himp with himp | ⟨r, hr, hin, hstop⟩
              · exact absurd (himp hc) hnot
              · rw [hnext.eq hstop]
                exact .inside hr hin
          · exact iff_of_true (.next hc hnext) (.inl fun hc' => absurd hc' hc)

omit h in
theorem overlapsFunc_eq {start stop : BitVec 64} :
    overlapsFunc l start stop =
      if (binarySearch (AddrRange.cmp start) l.funcBounds).2 then true
      else match l.funcBounds[(binarySearch (AddrRange.cmp start) l.funcBounds).1]? with
        | some r => decide (r.start < stop)
        | none => false := by
  rw [overlapsFunc]
  cases l.funcBounds <;> rfl

theorem overlapsFunc_scan {stop : BitVec 64} (hlt : addr < stop) :
    (overlapsFunc l addr stop = true ↔ ∃ r ∈ rs, r.Meets addr stop) ↔
      (Covers rs addr → Probed l.funcBounds addr) ∨
        ∃ r ∈ rs, r.Has r.start ∧ addr < r.start ∧ r.start < stop := by
  have hmeets : (∃ r ∈ rs, r.Meets addr stop) ↔
      Covers rs addr ∨ ∃ r ∈ rs, r.Has r.start ∧ addr < r.start ∧ r.start < stop := by
    simp only [AddrRange.meets_iff hlt, and_or_left, exists_or]
    rfl
  rw [hmeets, overlapsFunc_eq]
  cases h.lookup addr with
  | found hfound hb hin hprobed =>
      rw [hfound, if_pos rfl]
      have hc : Covers rs addr := ⟨_, (h.of_mem _ (List.mem_of_getElem? hb)).1, hin⟩
      exact iff_of_true (iff_of_true rfl (.inl hc)) (.inl fun _ => hprobed)
  | missed hmissed hnot =>
      rw [hmissed, if_neg Bool.false_ne_true]
      dsimp only
      -- the answer is whether the next record starts inside the range
      have hanswer : (match l.funcBounds[startsUpTo l.funcBounds addr]? with
          | some r => decide (r.start < stop)
          | none => false) = true ↔ ∃ r ∈ rs, r.Has r.start ∧ addr < r.start ∧ r.start < stop := by
        cases hb : l.funcBounds[startsUpTo l.funcBounds addr]? with
        | none =>
            refine iff_of_false Bool.false_ne_true fun hr => ?_
            obtain ⟨r, hr, hne, hahead, -⟩ := hr
            obtain ⟨c, hc, hstart, -⟩ := h.longest r hr (AddrRange.has_start.1 hne)
            rw [← hstart] at hahead
            exact BitVec.not_le.2 hahead (h.no_next hb c hc)
        | some b =>
            have hnext := nextStart_of h addr hb
            rw [decide_eq_true_iff]
            constructor
            · intro hin
              obtain ⟨r, hr, hne, hstart⟩ := hnext.starts
              refine ⟨r, hr, hne, ?_⟩
              rw [hstart]
              exact ⟨hnext.behind, hin⟩
            · intro hr
              obtain ⟨r, hr, hne, hahead, hin⟩ := hr
              exact Nat.lt_of_le_of_lt (hnext.lowest r hr hne hahead) hin
      rw [hanswer]
      by_cases hc : Covers rs addr
      · by_cases hin : ∃ r ∈ rs, r.Has r.start ∧ addr < r.start ∧ r.start < stop
        · exact iff_of_true (iff_of_true hin (.inr hin)) (.inr hin)
        · refine iff_of_false (fun hiff => hin (hiff.2 (.inl hc))) (not_or.2 ⟨?_, hin⟩)
          exact fun himp => hnot (himp hc)
      · exact iff_of_true (or_iff_right hc).symm (.inl fun hc' => absurd hc' hc)

end Scans

/-- **The lookups** over normalised records answer what scans of all the records do, exactly when the
halving search looks at a record that has the address, where there is one. Without that the ceiling is
right only where the next record starts just at the end of one that has the address, and the overlap
test only where a record starts inside the range. -/
theorem lookups_scan (l : LoadedELF) (rs : List AddrRange) (addr : BitVec 64) :
    let bs := normalizeBounds rs
    let l' := { l with funcBounds := bs }
    (ScanExtent rs addr (funcExtent l' addr) ↔ (Covers rs addr → Probed bs addr)) ∧
    ((inFuncExtent l' addr = true ↔ Covers rs addr) ↔ (Covers rs addr → Probed bs addr)) ∧
    (ScanCeiling rs addr (codeCeiling l' addr) ↔
      (Covers rs addr → Probed bs addr) ∨ ∃ r ∈ rs, r.Has addr ∧ NextStart rs addr r.stop) ∧
    ∀ stop, addr < stop →
      ((overlapsFunc l' addr stop = true ↔ ∃ r ∈ rs, r.Meets addr stop) ↔
        (Covers rs addr → Probed bs addr) ∨
          ∃ r ∈ rs, r.Has r.start ∧ addr < r.start ∧ r.start < stop) := by
  intro bs l'
  have h : Normal rs l'.funcBounds := normalizeBounds_normal rs
  exact ⟨funcExtent_scan h addr, inFuncExtent_scan h addr, codeCeiling_scan h addr,
    fun stop hlt => overlapsFunc_scan h addr hlt⟩

/-- A record of 256 bytes with one of 16 bytes inside it. -/
def nestedRecords : List AddrRange := [⟨0x1000, 0x1100⟩, ⟨0x1010, 0x1020⟩]

/-- An address of the outer record behind the inner one is found in none. -/
theorem lookups_scan_nested :
    let l := { funcBounds := normalizeBounds nestedRecords : LoadedELF }
    Covers nestedRecords 0x1050 ∧ funcExtent l 0x1050 = none ∧ inFuncExtent l 0x1050 = false ∧
      codeCeiling l 0x1050 = 0 ∧ overlapsFunc l 0x1050 0x1060 = false ∧
      ¬ ScanExtent nestedRecords 0x1050 (funcExtent l 0x1050) := by
  have hcovers : Covers nestedRecords 0x1050 :=
    ⟨⟨0x1000, 0x1100⟩, List.mem_cons_self, by decide, by decide⟩
  have hnone : funcExtent { funcBounds := normalizeBounds nestedRecords } 0x1050 = none := by decide
  exact ⟨hcovers, hnone, by decide, by decide, by decide, fun hscan => hscan.none hnone hcovers⟩

/-- The first address of the inner record is found. -/
theorem lookups_scan_inner :
    let l := { funcBounds := normalizeBounds nestedRecords : LoadedELF }
    (ScanExtent nestedRecords 0x1010 (funcExtent l 0x1010)) ∧
      (overlapsFunc l 0x1010 0x1060 = true ↔ ∃ r ∈ nestedRecords, r.Meets 0x1010 0x1060) := by
  have hprobed : Probed (normalizeBounds nestedRecords) 0x1010 :=
    ⟨1, by decide, ⟨0x1010, 0x1020⟩, by decide, by decide, by decide⟩
  obtain ⟨hextent, -, -, hoverlap⟩ := lookups_scan {} nestedRecords 0x1010
  exact ⟨hextent.2 fun _ => hprobed, (hoverlap 0x1060 (by decide)).2 (.inl fun _ => hprobed)⟩

/-! ### merged ranges -/

/-- `InData`. -/
def inData (l : LoadedELF) (addr : BitVec 64) : Bool := rangeContains l.dataRanges addr

/-- `InUnwindScope`. -/
def inUnwindScope (l : LoadedELF) (addr : BitVec 64) : Bool :=
  if !l.unwindRanges.isEmpty then rangeContains l.unwindRanges addr else !l.funcBounds.isEmpty

/-- Ranges in order, none touching the next. -/
def Parted (rs : List AddrRange) : Prop := rs.Pairwise fun a b => a.stop < b.start

theorem parted_snoc {rs : List AddrRange} {r : AddrRange} :
    Parted (rs ++ [r]) ↔ Parted rs ∧ ∀ a ∈ rs, a.stop < r.start := by
  rw [Parted, Parted, List.pairwise_append]
  simp only [List.pairwise_singleton, List.mem_singleton, forall_eq, true_and]

/-- One round of the loop of `mergeRanges` keeps the ranges parted: it starts a new one only behind
the end of the current one. -/
theorem mergeStep_parted {acc : List AddrRange × Option AddrRange} {r : AddrRange}
    (h : Merging acc r.start) (hp : Parted (merged acc)) : Parted (merged (mergeStep acc r)) := by
  obtain ⟨out, cur⟩ := acc
  rw [mergeStep]
  by_cases hempty : r.stop ≤ r.start
  · rwa [if_pos hempty]
  rw [if_neg hempty]
  cases cur with
  | none =>
      have hout : out = [] := h.first rfl
      subst hout
      exact List.pairwise_singleton _ _
  | some cur =>
      dsimp only
      obtain ⟨hout, hlast⟩ := parted_snoc.1 hp
      by_cases hnear : r.start ≤ cur.stop
      · rw [if_pos hnear]
        by_cases hlong : cur.stop < r.stop
        · rw [if_pos hlong]
          exact parted_snoc.2 ⟨hout, hlast⟩
        · rwa [if_neg hlong]
      · rw [if_neg hnear]
        have hafter : cur.stop < r.start := BitVec.not_le.1 hnear
        refine parted_snoc.2 ⟨hp, fun a ha => ?_⟩
        rcases List.mem_append.1 ha with ha | ha
        · have hcur := (separate_snoc.1 h.separate).2.2
          exact BitVec.lt_trans (hlast a ha) (BitVec.lt_trans hcur hafter)
        · rw [List.mem_singleton.1 ha]
          exact hafter

theorem foldl_mergeStep_parted (rs : List AddrRange) (acc : List AddrRange × Option AddrRange)
    (hsorted : rs.Pairwise fun a b => a.start ≤ b.start) (h : ∀ r ∈ rs, Merging acc r.start)
    (hp : Parted (merged acc)) : Parted (merged (rs.foldl mergeStep acc)) := by
  induction rs generalizing acc with
  | nil => exact hp
  | cons r rs ih =>
      obtain ⟨hfirst, hrest⟩ := List.pairwise_cons.1 hsorted
      have hr := h r List.mem_cons_self
      obtain ⟨hstep, -⟩ := mergeStep_spec hr
      refine ih _ hrest (fun r' hr' => ?_) (mergeStep_parted hr hp)
      refine ⟨hstep.separate, fun cur hcur => ?_, hstep.first⟩
      exact BitVec.le_trans (hstep.sorted cur hcur) (hfirst r' hr')

theorem mergeRanges_parted (rs : List AddrRange) : Parted (mergeRanges rs) := by
  have hsorted := List.pairwise_insertionSort AddrRange.before rs
  rw [mergeRanges]
  generalize rs.insertionSort AddrRange.before = sorted at hsorted
  cases sorted with
  | nil => exact List.Pairwise.nil
  | cons first rest =>
      obtain ⟨hstarts, hfirst⟩ := starts_of_before hsorted
      dsimp only
      refine foldl_mergeStep_parted _ _ hstarts (fun r hr => ?_) ?_
      · by_cases hne : first.start < first.stop
        · rw [if_pos hne]
          refine ⟨separate_snoc.2 ⟨separate_nil, fun a ha => (by cases ha), hne⟩, fun cur hcur => ?_,
            fun hc => by cases hc⟩
          cases hcur
          exact hfirst r hr
        · rw [if_neg hne]
          exact ⟨separate_nil, fun cur hcur => (by cases hcur), fun _ => rfl⟩
      · split
        · exact List.pairwise_singleton _ _
        · exact List.Pairwise.nil

theorem Separate.rangeContains_iff {rs : List AddrRange} (h : Separate rs) {addr : BitVec 64} :
    Elf.rangeContains rs addr = true ↔ Covers rs addr := by
  constructor
  · intro hfound
    by_contra hnot
    have hnone : ∀ r ∈ rs, AddrRange.cmp addr r ≠ .eq := fun r hr hc =>
      hnot ⟨r, hr, AddrRange.cmp_eq_eq.1 hc⟩
    have hmiss := binarySearch_miss hnone
    rw [Elf.rangeContains, hmiss] at hfound
    cases hfound
  · intro hc
    obtain ⟨r, hr, hin⟩ := hc
    exact h.rangeContains hr hin

/-- **Merging ranges**: the merged list is in order, with gaps between its ranges, and has the
addresses of the ranges, and so do the lookups over it; without any address in the ranges all of an
image with function bounds is in the unwind scope. -/
theorem mergeRanges_exact (l : LoadedELF) (rs : List AddrRange) :
    (mergeRanges rs).Pairwise (fun a b => a.start < b.start) ∧
    (mergeRanges rs).Pairwise (fun a b => a.stop < b.start) ∧
    (∀ addr, Covers (mergeRanges rs) addr ↔ Covers rs addr) ∧
    (∀ addr, inData { l with dataRanges := mergeRanges rs } addr = true ↔ Covers rs addr) ∧
    ∀ addr, inUnwindScope { l with unwindRanges := mergeRanges rs } addr = true ↔
      Covers rs addr ∨ (∀ a, ¬ Covers rs a) ∧ l.funcBounds ≠ [] := by
  obtain ⟨hsep, hcovers⟩ := mergeRanges_spec rs
  have hparted := mergeRanges_parted rs
  refine ⟨?_, hparted, hcovers, ?_, ?_⟩
  · refine hparted.imp_of_mem fun {a b} ha hb hab => ?_
    exact BitVec.lt_trans (hsep.nonempty a ha) hab
  · exact fun addr => hsep.rangeContains_iff.trans (hcovers addr)
  · intro addr
    rw [inUnwindScope]
    dsimp only
    cases hm : mergeRanges rs with
    | nil =>
        rw [hm] at hcovers
        have hnone : ∀ a, ¬ Covers rs a := fun a hc => not_covers_nil ((hcovers a).2 hc)
        rw [if_neg (by simp), or_iff_right (hnone addr), and_iff_right hnone]
        simp
    | cons r merged =>
        rw [hm] at hcovers hsep
        have hsome : ¬ ∀ a, ¬ Covers rs a := by
          intro hnone
          have hne := hsep.nonempty r List.mem_cons_self
          exact hnone r.start ((hcovers r.start).1 ⟨r, List.mem_cons_self, AddrRange.has_start.2 hne⟩)
        rw [if_pos (by simp), hsep.rangeContains_iff, hcovers addr, or_iff_left fun hc => hsome hc.1]

/-- No range, and every address is in scope. -/
theorem mergeRanges_empty :
    let l := { funcBounds := [⟨0x1000, 0x1100⟩], unwindRanges := mergeRanges [] : LoadedELF }
    inUnwindScope l 0x2000 = true ∧ ¬ ∃ r ∈ ([] : List AddrRange), r.Has 0x2000 := by
  refine ⟨by decide, fun h => ?_⟩
  obtain ⟨r, hr, -⟩ := h
  cases hr

end PS4Recomp.Elf
