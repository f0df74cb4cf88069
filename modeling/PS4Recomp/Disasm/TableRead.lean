import PS4Recomp.Disasm.JumpTable

/-!
# Reading a jump table

`readResolvedTargets` against what a table says.

* `sliceInBounds`, `scanEntries`, `scanResolvedTargets` — the function with Go's checks of its
  slices: `none` is a panic;
* `entriesIn`, `accepted` — the targets of the entries that lie in the image, and the test an entry
  of a table without a proven count has to pass;
* `readEntries_eq` — the loop keeps the distinct targets of a list in its order;
* `scanEntries_eq` — while no end of an entry wraps around, no slice is out of bounds;
* **`readResolvedTargets_exact`** — the targets, for every table but those of `overruns`.
-/

namespace PS4Recomp.Disasm

open X86 Library

/-! ### the function with Go's checks -/

/-- `img[off : off+size]` is in bounds. -/
def sliceInBounds (img : Bytes) (off : Addr) (size : ℕ) : Bool :=
  decide (off.toNat ≤ (off + BitVec.ofNat 64 size).toNat ∧
    (off + BitVec.ofNat 64 size).toNat ≤ img.length)

/-- The loop of `readResolvedTargets` from entry `i` on. -/
def scanEntries (img : Bytes) (inCode : Addr → Bool) (sw : ResolvedJumpTable) (fnStart fnEnd : Addr) :
    ℕ → ℕ → List Addr → Option (List Addr)
  | 0, _, targets => some targets
  | n + 1, i, targets =>
      let off := sw.tableAddr + BitVec.ofNat 64 (i * sw.format.size)
      if img.length < (off + BitVec.ofNat 64 sw.format.size).toNat then some targets
      else if sliceInBounds img off sw.format.size = false then none
      else
        let target := sw.entry img off.toNat
        let outside := fnStart < fnEnd ∧ (target < fnStart ∨ fnEnd ≤ target)
        if target = 0 ∨ outside ∨ inCode target = false then
          if 0 < sw.count then
            scanEntries img inCode sw fnStart fnEnd n (i + 1)
              (if target ≠ 0 ∧ outside ∧ inCode target = true then addTarget targets target else targets)
          else some targets
        else scanEntries img inCode sw fnStart fnEnd n (i + 1) (addTarget targets target)

/-- The targets of `readResolvedTargets`. -/
def scanResolvedTargets (img : Bytes) (inCode : Addr → Bool) (sw : ResolvedJumpTable)
    (fnStart fnEnd : Addr) : Option (List Addr) :=
  (scanEntries img inCode sw fnStart fnEnd sw.limit 0 []).map fun targets =>
    if sw.count = 0 ∧ targets.length < 2 then [] else targets

/-! ### what the table says -/

section Table

variable (img : Bytes) (inCode : Addr → Bool) (sw : ResolvedJumpTable) (fnStart fnEnd : Addr)

/-- An entry lies in the image. -/
def ResolvedJumpTable.inImage (i : ℕ) : Bool :=
  decide (sw.tableAddr.toNat + i * sw.format.size + sw.format.size ≤ img.length)

/-- The targets of `n` entries from entry `i` on, up to the end of the image. -/
def ResolvedJumpTable.targetsFrom (i n : ℕ) : List Addr :=
  ((List.range' i n).takeWhile (sw.inImage img)).map fun i =>
    sw.entry img (sw.tableAddr.toNat + i * sw.format.size)

/-- The targets of the entries that lie in the image. -/
def ResolvedJumpTable.entriesIn : List Addr := sw.targetsFrom img 0 sw.limit

/-- The test an entry has to pass where the length of the table is not proven. -/
def accepted (target : Addr) : Bool :=
  decide (target ≠ 0 ∧ ¬ (fnStart < fnEnd ∧ (target < fnStart ∨ fnEnd ≤ target)) ∧
    inCode target = true)

/-- The test where it is. -/
def keptOfProven (target : Addr) : Bool := decide (target ≠ 0 ∧ inCode target = true)

/-- The targets a table shows: all in code if its length is proven, else those before the first that
is not accepted. -/
def ResolvedJumpTable.shown (targets : List Addr) : List Addr :=
  if 0 < sw.count then targets.filter (keptOfProven inCode)
  else targets.takeWhile (accepted inCode fnStart fnEnd)

/-- The end of the first entry wraps around into the image. -/
def ResolvedJumpTable.overruns : Prop :=
  2 ^ 64 ≤ sw.tableAddr.toNat + sw.format.size ∧
    sw.tableAddr.toNat + sw.format.size - 2 ^ 64 ≤ img.length

variable {img inCode sw fnStart fnEnd}

theorem targetsFrom_succ (i n : ℕ) :
    sw.targetsFrom img i (n + 1) =
      if sw.inImage img i then
        sw.entry img (sw.tableAddr.toNat + i * sw.format.size) :: sw.targetsFrom img (i + 1) n
      else [] := by
  unfold ResolvedJumpTable.targetsFrom
  rw [List.range'_succ, List.takeWhile_cons]
  cases sw.inImage img i <;> rfl

/-! ### distinct targets -/

theorem foldl_addTarget (ts : List Addr) : ts.foldl addTarget [] = ts.eraseDups := by
  induction ts using List.reverseRecOn with
  | nil => rfl
  | append_singleton ts t ih =>
      have hmem : t ∈ ts.eraseDups ↔ t ∈ ts := List.mem_eraseDups
      rw [List.foldl_append, ih, List.eraseDups_append, List.removeAll, List.foldl_cons,
        List.foldl_nil, addTarget]
      by_cases ht : t ∈ ts
      · rw [if_pos (hmem.2 ht), List.filter_cons_of_neg (by simpa using ht)]
        simp
      · rw [if_neg (fun h => ht (hmem.1 h)), List.filter_cons_of_pos (by simpa using ht)]
        simp [List.eraseDups_cons]

/-! ### the loop -/

theorem toNat_entry {sw : ResolvedJumpTable} {i : ℕ}
    (h : sw.tableAddr.toNat + i * sw.format.size < 2 ^ 64) :
    (sw.tableAddr + BitVec.ofNat 64 (i * sw.format.size)).toNat =
      sw.tableAddr.toNat + i * sw.format.size := by
  rw [BitVec.toNat_add, BitVec.toNat_ofNat, Nat.add_mod_mod, Nat.mod_eq_of_lt h]

theorem addTarget_shown (targets : List Addr) (t : Addr) (ts : List Addr) :
    (sw.shown inCode fnStart fnEnd (t :: ts)).foldl addTarget targets =
      if t = 0 ∨ (fnStart < fnEnd ∧ (t < fnStart ∨ fnEnd ≤ t)) ∨ inCode t = false then
        if 0 < sw.count then
          (sw.shown inCode fnStart fnEnd ts).foldl addTarget
            (if t ≠ 0 ∧ (fnStart < fnEnd ∧ (t < fnStart ∨ fnEnd ≤ t)) ∧ inCode t = true then
              addTarget targets t
            else targets)
        else targets
      else (sw.shown inCode fnStart fnEnd ts).foldl addTarget (addTarget targets t) := by
  simp only [ResolvedJumpTable.shown]
  by_cases hcount : 0 < sw.count
  · simp only [if_pos hcount, List.filter_cons, keptOfProven, decide_eq_true_eq]
    by_cases hzero : t = 0#64
    · simp [hzero]
    · by_cases hcode : inCode t = true
      · by_cases hout : fnStart < fnEnd ∧ (t < fnStart ∨ fnEnd ≤ t)
        · simp [hzero, hcode, hout]
        · simp [hzero, hcode, hout]
      · simp [hzero, hcode]
  · simp only [if_neg hcount, List.takeWhile_cons, accepted]
    by_cases hzero : t = 0#64
    · simp [hzero]
    · by_cases hcode : inCode t = true
      · by_cases hout : fnStart < fnEnd ∧ (t < fnStart ∨ fnEnd ≤ t)
        · simp [hzero, hcode, hout]
        · simp [hzero, hcode, hout]
      · simp [hzero, hcode]

/-- **The loop** keeps the distinct targets that the entries left to it show. -/
theorem readEntries_eq (himage : img.length < 2 ^ 63) : ∀ (n i : ℕ) (targets : List Addr),
    sw.tableAddr.toNat + i * sw.format.size < 2 ^ 64 →
    readEntries img inCode sw fnStart fnEnd n i targets =
      (sw.shown inCode fnStart fnEnd (sw.targetsFrom img i n)).foldl addTarget targets := by
  intro n
  induction n with
  | zero =>
      intro i targets _
      simp [readEntries, ResolvedJumpTable.targetsFrom, ResolvedJumpTable.shown]
  | succ n ih =>
      intro i targets h
      rw [readEntries, targetsFrom_succ]
      simp only [toNat_entry h]
      by_cases hin : img.length < sw.tableAddr.toNat + i * sw.format.size + sw.format.size
      · have hno : sw.inImage img i = false := decide_eq_false (by omega)
        rw [if_pos hin, hno]
        simp [ResolvedJumpTable.shown]
      · have hyes : sw.inImage img i = true := decide_eq_true (by omega)
        have hsize : sw.format.size ≤ 8 := by cases sw.format <;> decide
        have hnext : sw.tableAddr.toNat + (i + 1) * sw.format.size < 2 ^ 64 := by
          rw [Nat.add_mul, Nat.one_mul]
          omega
        rw [if_neg hin, hyes, if_pos rfl, addTarget_shown]
        simp only [ih _ _ hnext]

theorem scanEntries_eq (himage : img.length < 2 ^ 63) : ∀ (n i : ℕ) (targets : List Addr),
    sw.tableAddr.toNat + i * sw.format.size + sw.format.size < 2 ^ 64 →
    scanEntries img inCode sw fnStart fnEnd n i targets =
      some (readEntries img inCode sw fnStart fnEnd n i targets) := by
  intro n
  induction n with
  | zero => exact fun _ _ _ => rfl
  | succ n ih =>
      intro i targets h
      have hsize : sw.format.size ≤ 8 := by cases sw.format <;> decide
      have hoff := toNat_entry
        (show sw.tableAddr.toNat + i * sw.format.size < 2 ^ 64 from by omega)
      have hend : (sw.tableAddr + BitVec.ofNat 64 (i * sw.format.size) +
          BitVec.ofNat 64 sw.format.size).toNat =
          sw.tableAddr.toNat + i * sw.format.size + sw.format.size := by
        rw [BitVec.toNat_add, hoff, BitVec.toNat_ofNat, Nat.add_mod_mod, Nat.mod_eq_of_lt h]
      rw [scanEntries, readEntries]
      simp only [hoff, hend]
      by_cases hin : img.length < sw.tableAddr.toNat + i * sw.format.size + sw.format.size
      · rw [if_pos hin, if_pos hin]
      · have hslice : sliceInBounds img (sw.tableAddr + BitVec.ofNat 64 (i * sw.format.size))
            sw.format.size = true := by
          rw [sliceInBounds, hoff, hend]
          exact decide_eq_true ⟨by omega, by omega⟩
        have hnext : sw.tableAddr.toNat + (i + 1) * sw.format.size + sw.format.size < 2 ^ 64 := by
          rw [Nat.add_mul, Nat.one_mul]
          omega
        rw [if_neg hin, if_neg hin, hslice, if_neg (by decide)]
        simp only [ih _ _ hnext]
        split_ifs <;> rfl

/-! ### the first entry -/

theorem size_pos (sw : ResolvedJumpTable) : 0 < sw.format.size ∧ sw.format.size ≤ 8 := by
  cases sw.format <;> decide

theorem limit_pos (sw : ResolvedJumpTable) : 0 < sw.limit := by
  unfold ResolvedJumpTable.limit maxJumpTableEntries
  split_ifs <;> omega

theorem toNat_wrapped (h : 2 ^ 64 ≤ sw.tableAddr.toNat + sw.format.size) :
    (sw.tableAddr + BitVec.ofNat 64 sw.format.size).toNat =
      sw.tableAddr.toNat + sw.format.size - 2 ^ 64 := by
  have hsize := size_pos sw
  have hlt := sw.tableAddr.isLt
  rw [BitVec.toNat_add, BitVec.toNat_ofNat]
  omega

theorem scanEntries_wrapped (h : 2 ^ 64 ≤ sw.tableAddr.toNat + sw.format.size) (n : ℕ) :
    scanEntries img inCode sw fnStart fnEnd (n + 1) 0 [] =
      if img.length < sw.tableAddr.toNat + sw.format.size - 2 ^ 64 then some [] else none := by
  have hsize := size_pos sw
  have hlt := sw.tableAddr.isLt
  have hzero : sw.tableAddr + BitVec.ofNat 64 (0 * sw.format.size) = sw.tableAddr := by
    rw [Nat.zero_mul]
    exact BitVec.add_zero _
  have hslice : sliceInBounds img sw.tableAddr sw.format.size = false := by
    rw [sliceInBounds, toNat_wrapped h]
    exact decide_eq_false (by omega)
  rw [scanEntries]
  simp only [hzero, toNat_wrapped h, hslice, if_true]

variable (img inCode sw fnStart fnEnd)

theorem scanEntries_start (himage : img.length < 2 ^ 63) (hover : ¬ sw.overruns img) :
    scanEntries img inCode sw fnStart fnEnd sw.limit 0 [] =
      some (sw.shown inCode fnStart fnEnd (sw.entriesIn img)).eraseDups := by
  have hlt := sw.tableAddr.isLt
  by_cases h : sw.tableAddr.toNat + sw.format.size < 2 ^ 64
  · rw [scanEntries_eq himage _ _ _ (by omega), readEntries_eq himage _ _ _ (by omega),
      foldl_addTarget]
    rfl
  · obtain ⟨n, hn⟩ : ∃ n, sw.limit = n + 1 := Nat.exists_eq_add_one.2 (limit_pos sw)
    have hno : sw.inImage img 0 = false := decide_eq_false (by omega)
    have hout : img.length < sw.tableAddr.toNat + sw.format.size - 2 ^ 64 := by
      unfold ResolvedJumpTable.overruns at hover
      omega
    rw [ResolvedJumpTable.entriesIn, hn, scanEntries_wrapped (by omega), if_pos hout, targetsFrom_succ,
      hno]
    simp [ResolvedJumpTable.shown]

/-- A table without a proven count has at least two targets. -/
def ResolvedJumpTable.enough (targets : List Addr) : List Addr :=
  if sw.count = 0 ∧ targets.length < 2 then [] else targets

theorem readResolvedTargets_fst (himage : img.length < 2 ^ 63) (overlapsFunc : Addr → Addr → Bool) :
    (readResolvedTargets img inCode overlapsFunc sw fnStart fnEnd).1 =
      sw.enough (sw.shown inCode fnStart fnEnd (sw.entriesIn img)).eraseDups := by
  have hlt := sw.tableAddr.isLt
  have hread : readEntries img inCode sw fnStart fnEnd sw.limit 0 [] =
      (sw.shown inCode fnStart fnEnd (sw.entriesIn img)).eraseDups := by
    rw [readEntries_eq himage _ _ _ (by omega), foldl_addTarget]
    rfl
  simp only [readResolvedTargets, hread, ResolvedJumpTable.enough]
  by_cases hcount : sw.count = 0
  · simp [hcount]
  · simp [hcount]

/-- **Targets.**  Reading a table stays in the image.  With a proven count the targets are those in
code of the entries counted, up to the end of the image; without one, those of the longest prefix
whose entries are accepted, if there are two.  They are distinct and in the order of the table. -/
theorem readResolvedTargets_exact (overlapsFunc : Addr → Addr → Bool)
    (himage : img.length < 2 ^ 63) (hover : ¬ sw.overruns img) :
    ∃ targets, scanResolvedTargets img inCode sw fnStart fnEnd = some targets ∧
      (readResolvedTargets img inCode overlapsFunc sw fnStart fnEnd).1 = targets ∧
      (0 < sw.count → targets = ((sw.entriesIn img).filter (keptOfProven inCode)).eraseDups) ∧
      (sw.count = 0 → targets =
        sw.enough ((sw.entriesIn img).takeWhile (accepted inCode fnStart fnEnd)).eraseDups) := by
  refine ⟨_, ?_, readResolvedTargets_fst img inCode sw fnStart fnEnd himage overlapsFunc, ?_, ?_⟩
  · rw [scanResolvedTargets, scanEntries_start img inCode sw fnStart fnEnd himage hover]
    rfl
  · intro hcount
    rw [ResolvedJumpTable.enough, if_neg (fun h => absurd h.1 (by omega)), ResolvedJumpTable.shown,
      if_pos hcount]
  · intro hcount
    rw [ResolvedJumpTable.shown, if_neg (by omega)]

end Table

/-! ### a table with one target -/

/-- A table of two 32-bit offsets. -/
def pairImage : Bytes := [8, 0, 0, 0, 12, 0, 0, 0, 0x90, 0x90, 0x90, 0x90, 0x90]

def pairTable : ResolvedJumpTable := { format := .rel32, tableAddr := 0, count := 0, cap := 0 }

theorem readResolvedTargets_exact_pair :
    scanResolvedTargets pairImage (fun a => decide (8 ≤ a.toNat ∧ a.toNat < 13)) pairTable 0 0 = some [8, 12] := by
  obtain ⟨targets, hscan, -, -, htargets⟩ := readResolvedTargets_exact pairImage
    (fun a => decide (8 ≤ a.toNat ∧ a.toNat < 13)) pairTable 0 0 (fun _ _ => false) (by decide)
    (by unfold ResolvedJumpTable.overruns; decide)
  rw [hscan, htargets rfl]
  decide +kernel

/-- A table without a proven count that shows one target gives none. -/
theorem readResolvedTargets_drops_single :
    ¬ ∀ (img : Bytes) (inCode : Addr → Bool) (overlapsFunc : Addr → Addr → Bool)
      (sw : ResolvedJumpTable) (fnStart fnEnd : Addr), ¬ sw.overruns img → sw.count = 0 →
      (readResolvedTargets img inCode overlapsFunc sw fnStart fnEnd).1 =
        ((sw.entriesIn img).takeWhile (accepted inCode fnStart fnEnd)).eraseDups := by
  intro h
  have hpair := h pairImage (fun a => decide (a.toNat = 8)) (fun _ _ => false) pairTable 0 0
    (by unfold ResolvedJumpTable.overruns; decide) rfl
  have hread : (readResolvedTargets pairImage (fun a => decide (a.toNat = 8)) (fun _ _ => false)
      pairTable 0 0).1 = [] := by decide +kernel
  have hshown : ((pairTable.entriesIn pairImage).takeWhile
      (accepted (fun a => decide (a.toNat = 8)) 0 0)).eraseDups = [8] := by decide +kernel
  rw [hread, hshown] at hpair
  cases hpair

end PS4Recomp.Disasm
