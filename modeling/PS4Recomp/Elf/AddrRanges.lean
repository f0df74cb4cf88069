import PS4Recomp.Elf.ApplyBias

/-!
# Lists of address ranges

`mergeRanges` of `ehframe.go`, `FunctionHasLSDA`, and the lookups in a list of ranges that are apart.

* `Separate` — a list in order without empty or overlapping ranges, `Separate.find` — the binary
  search finds what is in it;
* `mergeRanges` — the merged list, **`mergeRanges_spec`** — it is separate and has the same addresses;
* `functionHasLSDA` — `functionHasLSDA_of_mem` and what an answer says, `of_functionHasLSDA`.
-/

namespace PS4Recomp.Elf

open Library

/-- An address of a range. -/
def AddrRange.Has (r : AddrRange) (addr : BitVec 64) : Prop := r.start ≤ addr ∧ addr < r.stop

/-- Ranges in order, none empty and no two overlapping. -/
structure Separate (rs : List AddrRange) : Prop where
  apart : rs.Pairwise fun a b => a.stop ≤ b.start
  nonempty : ∀ r ∈ rs, r.start < r.stop

/-- An address of one of the ranges. -/
def Covers (rs : List AddrRange) (addr : BitVec 64) : Prop := ∃ r ∈ rs, r.Has addr

/-- Ranges sorted by their start. -/
def sortByStart (rs : List AddrRange) : List AddrRange :=
  rs.insertionSort fun a b => a.start ≤ b.start

/-- One round of the loop of `mergeRanges`, over what is done and the current range. -/
def mergeStep (acc : List AddrRange × Option AddrRange) (r : AddrRange) :
    List AddrRange × Option AddrRange :=
  if r.stop ≤ r.start then acc
  else match acc.2 with
    | none => (acc.1, some r)
    | some cur =>
        if r.start ≤ cur.stop then
          if cur.stop < r.stop then (acc.1, some { cur with stop := r.stop }) else acc
        else (acc.1 ++ [cur], some r)

/-- The ranges of the loop, the current one last. -/
def merged (acc : List AddrRange × Option AddrRange) : List AddrRange := acc.1 ++ acc.2.toList

/-- The order of `mergeRanges`. -/
def AddrRange.before (a b : AddrRange) : Prop :=
  a.start < b.start ∨ a.start = b.start ∧ a.stop ≤ b.stop

instance : DecidableRel AddrRange.before := fun a b =>
  inferInstanceAs (Decidable (a.start < b.start ∨ a.start = b.start ∧ a.stop ≤ b.stop))

/-- `mergeRanges`. -/
def mergeRanges (rs : List AddrRange) : List AddrRange :=
  match rs.insertionSort AddrRange.before with
  | [] => []
  | first :: rest =>
      merged ((first :: rest).foldl mergeStep
        ([], if first.start < first.stop then some first else none))

/-- `FunctionHasLSDA`. -/
def functionHasLSDA (l : LoadedELF) (fnStart fnEnd : BitVec 64) : Bool :=
  let low := search (fun k => (l.lsdaBounds[k]?.map fun r => decide (r.stop ≤ fnStart)) == some true)
    l.lsdaBounds.length 0 l.lsdaBounds.length
  match l.lsdaBounds[low]? with
  | some r => decide (r.start < fnEnd)
  | none => false

/-! ### lookups -/

theorem Separate.lt {rs : List AddrRange} (h : Separate rs) {i k : ℕ} {a b : AddrRange}
    (ha : rs[i]? = some a) (hb : rs[k]? = some b) (hik : i < k) : a.stop ≤ b.start := by
  obtain ⟨hi, rfl⟩ := List.getElem?_eq_some_iff.1 ha
  obtain ⟨hk, rfl⟩ := List.getElem?_eq_some_iff.1 hb
  exact List.pairwise_iff_getElem.1 h.apart i k hi hk hik

/-- In a separate list the search finds the range of an address. -/
theorem Separate.find {rs : List AddrRange} (h : Separate rs) {r : AddrRange} (hr : r ∈ rs)
    {addr : BitVec 64} (hin : r.Has addr) :
    ∃ i, binarySearch (AddrRange.cmp addr) rs = (i, true) ∧ rs[i]? = some r := by
  obtain ⟨i, hi⟩ := List.getElem?_of_mem hr
  refine ⟨i, binarySearch_found hi (AddrRange.cmp_eq_eq.2 hin) ?_ ?_, hi⟩
  · intro k hk b hb
    have hle := h.lt hb hi hk
    have hstart := hin.1
    exact if_pos (BitVec.le_trans hle hstart)
  · intro k b hk hb
    have hstop : ¬ b.stop ≤ addr := by
      have hlt := hin.2
      rcases hk.eq_or_lt with heq | hik
      · rw [← heq, hi, Option.some.injEq] at hb
        rw [← hb]
        exact BitVec.not_le.2 hlt
      · have hle := h.lt hi hb hik
        have hne := h.nonempty b (List.mem_of_getElem? hb)
        exact BitVec.not_le.2 (Nat.lt_of_lt_of_le hlt (BitVec.le_trans hle (BitVec.le_of_lt hne)))
    rw [AddrRange.cmp, if_neg hstop]
    split <;> exact fun hc => (by cases hc)

theorem Separate.rangeContains {rs : List AddrRange} (h : Separate rs) {r : AddrRange} (hr : r ∈ rs)
    {addr : BitVec 64} (hin : r.Has addr) : rangeContains rs addr = true := by
  obtain ⟨i, hfound, -⟩ := h.find hr hin
  rw [Elf.rangeContains, hfound]

theorem Separate.funcExtent {l : LoadedELF} (h : Separate l.funcBounds) {r : AddrRange}
    (hr : r ∈ l.funcBounds) {addr : BitVec 64} (hin : r.Has addr) : funcExtent l addr = some r := by
  obtain ⟨i, hfound, hi⟩ := h.find hr hin
  rw [Elf.funcExtent, hfound]
  exact hi

theorem functionHasLSDA_of_mem {l : LoadedELF} (h : Separate l.lsdaBounds) {r : AddrRange}
    (hr : r ∈ l.lsdaBounds) : functionHasLSDA l r.start r.stop = true := by
  obtain ⟨i, hi⟩ := List.getElem?_of_mem hr
  have hlen : i < l.lsdaBounds.length := (List.getElem?_eq_some_iff.1 hi).1
  have hne := h.nonempty r hr
  have hlow : search (fun k => (l.lsdaBounds[k]?.map fun b => decide (b.stop ≤ r.start)) == some true)
      l.lsdaBounds.length 0 l.lsdaBounds.length = i := by
    refine search_spec (by omega) (by omega) (by omega) fun k _ hk => ?_
    have hb : l.lsdaBounds[k]? = some l.lsdaBounds[k] := List.getElem?_eq_getElem hk
    rw [hb, Option.map_some, beq_iff_eq, Option.some.injEq, decide_eq_true_iff]
    constructor
    · intro hle
      by_contra hge
      rcases (not_lt.1 hge).eq_or_lt with heq | hik
      · subst heq
        rw [hi, Option.some.injEq] at hb
        rw [← hb] at hle
        exact absurd hle (BitVec.not_le.2 hne)
      · have hafter := h.lt hi hb hik
        have hne' := h.nonempty _ (List.mem_of_getElem? hb)
        exact absurd hle (BitVec.not_le.2 (BitVec.lt_trans hne (Nat.lt_of_le_of_lt hafter hne')))
    · exact fun hlt => h.lt hb hi hlt
  rw [functionHasLSDA, hlow, hi]
  exact decide_eq_true hne

theorem of_functionHasLSDA {l : LoadedELF} {fnStart fnEnd : BitVec 64}
    (h : functionHasLSDA l fnStart fnEnd = true) :
    ∃ r ∈ l.lsdaBounds, r.start < fnEnd ∧ fnStart < r.stop := by
  rw [functionHasLSDA] at h
  generalize hlow : search _ _ _ _ = low at h
  split at h
  · rename_i r hr
    refine ⟨r, List.mem_of_getElem? hr, of_decide_eq_true h, ?_⟩
    have hlen : low < l.lsdaBounds.length := (List.getElem?_eq_some_iff.1 hr).1
    rcases search_stop (fun k => (l.lsdaBounds[k]?.map fun r => decide (r.stop ≤ fnStart)) == some true)
      (n := l.lsdaBounds.length) (i := 0) (j := l.lsdaBounds.length) (by omega) (by omega) with hs | hs
    · omega
    · rw [hlow, hr, Option.map_some] at hs
      rw [beq_eq_false_iff_ne] at hs
      by_contra hle
      exact hs (by rw [decide_eq_true (BitVec.not_lt.1 hle)])
  · cases h

/-! ### `mergeRanges` -/

theorem covers_append {xs ys : List AddrRange} {addr : BitVec 64} :
    Covers (xs ++ ys) addr ↔ Covers xs addr ∨ Covers ys addr := by
  rw [Covers, Covers, Covers]
  constructor
  · intro h
    obtain ⟨r, hr, hin⟩ := h
    rcases List.mem_append.1 hr with hx | hy
    · exact .inl ⟨r, hx, hin⟩
    · exact .inr ⟨r, hy, hin⟩
  · intro h
    rcases h with h | h
    · obtain ⟨r, hr, hin⟩ := h
      exact ⟨r, List.mem_append_left _ hr, hin⟩
    · obtain ⟨r, hr, hin⟩ := h
      exact ⟨r, List.mem_append_right _ hr, hin⟩

theorem covers_singleton {r : AddrRange} {addr : BitVec 64} : Covers [r] addr ↔ r.Has addr := by
  constructor
  · intro h
    obtain ⟨r', hr', hin⟩ := h
    rwa [List.mem_singleton.1 hr'] at hin
  · exact fun h => ⟨r, List.mem_singleton.2 rfl, h⟩

theorem not_covers_nil {addr : BitVec 64} : ¬ Covers [] addr := fun h => by
  obtain ⟨r, hr, -⟩ := h
  cases hr

theorem separate_nil : Separate [] := ⟨List.Pairwise.nil, fun _ h => nomatch h⟩

theorem separate_snoc {rs : List AddrRange} {r : AddrRange} :
    Separate (rs ++ [r]) ↔ Separate rs ∧ (∀ a ∈ rs, a.stop ≤ r.start) ∧ r.start < r.stop := by
  constructor
  · intro h
    obtain ⟨hpre, -, hlast⟩ := List.pairwise_append.1 h.apart
    refine ⟨⟨hpre, fun a ha => h.nonempty a (List.mem_append_left _ ha)⟩, ?_,
      h.nonempty r (List.mem_append_right _ (List.mem_singleton.2 rfl))⟩
    exact fun a ha => hlast a ha r (List.mem_singleton.2 rfl)
  · intro h
    obtain ⟨hrs, hlast, hne⟩ := h
    refine ⟨List.pairwise_append.2 ⟨hrs.apart, List.pairwise_singleton _ _, ?_⟩, ?_⟩
    · intro a ha b hb
      rw [List.mem_singleton.1 hb]
      exact hlast a ha
    · intro a ha
      rcases List.mem_append.1 ha with ha | ha
      · exact hrs.nonempty a ha
      · rw [List.mem_singleton.1 ha]
        exact hne

/-- The state of the loop before a range that starts at `start`. -/
structure Merging (acc : List AddrRange × Option AddrRange) (start : BitVec 64) : Prop where
  separate : Separate (merged acc)
  sorted : ∀ cur, acc.2 = some cur → cur.start ≤ start
  first : acc.2 = none → acc.1 = []

/-- **One round** adds the addresses of its range. -/
theorem mergeStep_spec {acc : List AddrRange × Option AddrRange} {r : AddrRange}
    (h : Merging acc r.start) :
    Merging (mergeStep acc r) r.start ∧
      ∀ addr, Covers (merged (mergeStep acc r)) addr ↔ Covers (merged acc) addr ∨ r.Has addr := by
  obtain ⟨out, cur⟩ := acc
  rw [mergeStep]
  by_cases hempty : r.stop ≤ r.start
  · rw [if_pos hempty]
    refine ⟨h, fun addr => ?_⟩
    have hnot : ¬ r.Has addr := by
      intro hin
      have hlt : r.start < r.stop := Nat.lt_of_le_of_lt hin.1 hin.2
      exact absurd hempty (BitVec.not_le.2 hlt)
    rw [or_iff_left hnot]
  have hne : r.start < r.stop := BitVec.not_le.1 hempty
  rw [if_neg hempty]
  cases cur with
  | none =>
      have hout : out = [] := h.first rfl
      subst hout
      dsimp only
      refine ⟨⟨?_, ?_, fun hc => nomatch hc⟩, fun addr => ?_⟩
      · exact separate_snoc.2 ⟨separate_nil, fun a ha => (nomatch ha), hne⟩
      · intro cur hcur
        cases hcur
        exact BitVec.le_refl _
      · have hnone : ¬ Covers (merged ([], none)) addr := not_covers_nil
        rw [or_iff_right hnone]
        exact covers_singleton
  | some cur =>
      have hstart := h.sorted cur rfl
      obtain ⟨hout, hlast, hcur⟩ := separate_snoc.1 h.separate
      dsimp only
      by_cases hnear : r.start ≤ cur.stop
      · rw [if_pos hnear]
        by_cases hlong : cur.stop < r.stop
        · -- the current range grows
          rw [if_pos hlong]
          refine ⟨⟨?_, ?_, fun hc => nomatch hc⟩, fun addr => ?_⟩
          · exact separate_snoc.2 ⟨hout, hlast, Nat.lt_trans hcur hlong⟩
          · intro c hc
            cases hc
            exact hstart
          · rw [merged, merged, Option.toList_some, Option.toList_some, covers_append, covers_append,
              covers_singleton, covers_singleton, or_assoc]
            refine or_congr_right ?_
            rw [AddrRange.Has, AddrRange.Has, AddrRange.Has]
            rw [BitVec.le_def] at hstart hnear
            rw [BitVec.lt_def] at hlong
            simp only [BitVec.le_def, BitVec.lt_def]
            omega
        · -- it contains the range already
          rw [if_neg hlong]
          refine ⟨h, fun addr => ?_⟩
          refine (or_iff_left_of_imp fun hin => ?_).symm
          rw [merged, Option.toList_some, covers_append, covers_singleton]
          exact .inr ⟨BitVec.le_trans hstart hin.1, Nat.lt_of_lt_of_le hin.2 (BitVec.not_lt.1 hlong)⟩
      · -- a new range starts
        rw [if_neg hnear]
        have hafter : cur.stop ≤ r.start := BitVec.le_of_lt (BitVec.not_le.1 hnear)
        refine ⟨⟨?_, ?_, fun hc => nomatch hc⟩, fun addr => ?_⟩
        · refine separate_snoc.2 ⟨h.separate, fun a ha => ?_, hne⟩
          rcases List.mem_append.1 ha with ha | ha
          · exact BitVec.le_trans (hlast a ha) (BitVec.le_trans (BitVec.le_of_lt hcur) hafter)
          · rw [List.mem_singleton.1 ha]
            exact hafter
        · intro c hc
          cases hc
          exact BitVec.le_refl _
        · rw [merged, Option.toList_some, covers_append, covers_singleton]
          rfl

theorem foldl_mergeStep (rs : List AddrRange) (acc : List AddrRange × Option AddrRange)
    (hsorted : rs.Pairwise fun a b => a.start ≤ b.start) (h : ∀ r ∈ rs, Merging acc r.start)
    (hsep : Separate (merged acc)) :
    Separate (merged (rs.foldl mergeStep acc)) ∧
      ∀ addr, Covers (merged (rs.foldl mergeStep acc)) addr ↔ Covers (merged acc) addr ∨ Covers rs addr := by
  induction rs generalizing acc with
  | nil => exact ⟨hsep, fun addr => (or_iff_left not_covers_nil).symm⟩
  | cons r rs ih =>
      obtain ⟨hfirst, hrest⟩ := List.pairwise_cons.1 hsorted
      obtain ⟨hstep, hcovers⟩ := mergeStep_spec (h r List.mem_cons_self)
      have hmerging : ∀ r' ∈ rs, Merging (mergeStep acc r) r'.start := by
        intro r' hr'
        refine ⟨hstep.separate, fun cur hcur => ?_, hstep.first⟩
        exact BitVec.le_trans (hstep.sorted cur hcur) (hfirst r' hr')
      obtain ⟨hsep', hcovers'⟩ := ih _ hrest hmerging hstep.separate
      refine ⟨hsep', fun addr => ?_⟩
      rw [List.foldl_cons, hcovers' addr, hcovers addr, or_assoc]
      refine or_congr_right ?_
      rw [← covers_singleton, ← covers_append]
      rfl

instance : Std.Total AddrRange.before := ⟨fun a b => by
  rw [AddrRange.before, AddrRange.before]
  simp only [BitVec.lt_def, BitVec.le_def, ← BitVec.toNat_inj]
  omega⟩

instance : IsTrans AddrRange AddrRange.before := ⟨fun a b c hab hbc => by
  rw [AddrRange.before] at hab hbc ⊢
  simp only [BitVec.lt_def, BitVec.le_def, ← BitVec.toNat_inj] at hab hbc ⊢
  omega⟩

/-- Sorted ranges start in order. -/
theorem starts_of_before {first : AddrRange} {rest : List AddrRange} (h : (first :: rest).Pairwise AddrRange.before) :
    (first :: rest).Pairwise (fun a b => a.start ≤ b.start) ∧ ∀ r ∈ first :: rest, first.start ≤ r.start := by
  have hstarts : (first :: rest).Pairwise fun a b => a.start ≤ b.start := by
    refine h.imp fun {a b} hab => ?_
    rcases hab with hlt | heq
    · exact BitVec.le_of_lt hlt
    · rw [heq.1]
      exact BitVec.le_refl _
  refine ⟨hstarts, fun r hr => ?_⟩
  rcases List.mem_cons.1 hr with heq | hr
  · rw [heq]
    exact BitVec.le_refl _
  · exact (List.pairwise_cons.1 hstarts).1 r hr

/-- **The merged list** is separate and has the addresses of the ranges. -/
theorem mergeRanges_spec (rs : List AddrRange) :
    Separate (mergeRanges rs) ∧ ∀ addr, Covers (mergeRanges rs) addr ↔ Covers rs addr := by
  have hperm := List.perm_insertionSort AddrRange.before rs
  have hsorted := List.pairwise_insertionSort AddrRange.before rs
  have hcovers : ∀ addr, Covers (rs.insertionSort AddrRange.before) addr ↔ Covers rs addr := by
    intro addr
    exact exists_congr fun r => and_congr_left' hperm.mem_iff
  rw [mergeRanges]
  generalize rs.insertionSort AddrRange.before = sorted at hperm hsorted hcovers
  cases sorted with
  | nil => exact ⟨separate_nil, hcovers⟩
  | cons first rest =>
      obtain ⟨hstarts, hfirst⟩ := starts_of_before hsorted
      dsimp only
      by_cases hne : first.start < first.stop
      · rw [if_pos hne]
        have hsep : Separate (merged ([], some first)) :=
          separate_snoc.2 ⟨separate_nil, fun a ha => (nomatch ha), hne⟩
        have hmerging : ∀ r ∈ first :: rest, Merging ([], some first) r.start := by
          intro r hr
          refine ⟨hsep, fun cur hcur => ?_, fun hc => nomatch hc⟩
          cases hcur
          exact hfirst r hr
        obtain ⟨hresult, hall⟩ := foldl_mergeStep (first :: rest) ([], some first) hstarts hmerging hsep
        refine ⟨hresult, fun addr => ?_⟩
        rw [hall addr, ← hcovers addr]
        refine or_iff_right_of_imp fun hin => ?_
        exact ⟨first, List.mem_cons_self, covers_singleton.1 hin⟩
      · rw [if_neg hne]
        have hmerging : ∀ r ∈ first :: rest, Merging ([], none) r.start :=
          fun r _ => ⟨separate_nil, fun cur hcur => (nomatch hcur), fun _ => rfl⟩
        obtain ⟨hresult, hall⟩ := foldl_mergeStep (first :: rest) ([], none) hstarts hmerging separate_nil
        refine ⟨hresult, fun addr => ?_⟩
        rw [hall addr, ← hcovers addr, or_iff_right]
        exact not_covers_nil

end PS4Recomp.Elf
