import PS4Recomp.X86.StringCompare

/-!
# The string-compare helpers

`recomp_vpcmpistri_impl` and `recomp_vpcmpe_stri_impl` of `recomp_runtime.c`.  Their first pointer is
to operand 2, the second to operand 1.

* `elementMatch` — one element of the first loop, for each aggregation;
* `maskOf`, `res1`, `res2`, `striIndex` — the masks of the two loops and the index;
* `stri` — what both functions have in common;
* `recomp_vpcmpistri_impl`, `recomp_vpcmpe_stri_impl` — the functions, with their lengths;
* `stri_equalEach` — comparing element by element, they do what the instruction does;
* **`stri_impl_exact`** — the modes in which they do it for all operands.

In the other aggregations the helpers search operand 1 for what is in operand 2.
-/

namespace PS4Recomp.Runtime

open X86 Library

/-! ### the helpers -/

/-- What a helper leaves in the context. -/
structure StriContext where
  rcx : BitVec 64
  cf : Bool
  zf : Bool
  sf : Bool
  of : Bool
  af : Bool
  pf : Bool
  deriving DecidableEq, Repr

section

variable (s2 s1 : BitVec 128) (imm8 : BitVec 8)

/-- The largest number an element can stand for. -/
def topValue : ℤ :=
  match pcmpWord imm8, pcmpSigned imm8 with
  | false, false => 0xFF
  | false, true => 0x7F
  | true, false => 0xFFFF
  | true, true => 0x7FFF

/-- `match` of the first loop. -/
def elementMatch (len1 len2 i : ℕ) : Bool :=
  match pcmpAggregation imm8 with
  | 0 => decide (i < len1) && (List.range len2).any fun j => element imm8 s1 i == element imm8 s2 j
  | 1 => decide (i < len1) && (List.range (pcmpElements imm8 / 2)).any fun k =>
      let j := 2 * k
      let lo := elementValue imm8 s2 j
      let hi := if j + 1 < len2 then elementValue imm8 s2 (j + 1) else topValue imm8
      decide (j < len2) && decide (lo ≤ elementValue imm8 s1 i) && decide (elementValue imm8 s1 i ≤ hi)
  | 2 =>
      if i < len1 ∧ i < len2 then element imm8 s1 i == element imm8 s2 i
      else decide (len1 ≤ i ∧ len2 ≤ i)
  | _ => (List.range (pcmpElements imm8 - i)).all fun k =>
      !decide (k < len2) || decide (i + k < len1) && element imm8 s1 (i + k) == element imm8 s2 k

/-- `mask |= 1U << i` for the indexes below `n` with `p`. -/
def maskOf (n : ℕ) (p : ℕ → Bool) : BitVec 32 :=
  (List.range n).foldl (fun mask i => if p i then mask ||| 1#32 <<< i else mask) 0

/-- `int_res1`. -/
def res1 (len1 len2 : ℕ) : BitVec 32 := maskOf (pcmpElements imm8) (elementMatch s2 s1 imm8 len1 len2)

/-- `int_res2`. -/
def res2 (len1 len2 : ℕ) : BitVec 32 :=
  match pcmpPolarity imm8 with
  | 1 => ~~~res1 s2 s1 imm8 len1 len2 &&& (1#32 <<< pcmpElements imm8 - 1)
  | 3 => maskOf len1 fun i => !(res1 s2 s1 imm8 len1 len2).getLsbD i
  | _ => res1 s2 s1 imm8 len1 len2

/-- `index`. -/
def striIndex (mask : BitVec 32) : ℕ :=
  if mask = 0 then pcmpElements imm8
  else if pcmpMost imm8 then 31 - mask.clz.toNat
  else mask.ctz.toNat

/-- Both functions after their lengths. -/
def stri (len1 len2 : ℕ) : StriContext :=
  let mask := res2 s2 s1 imm8 len1 len2
  { rcx := BitVec.ofNat 64 (striIndex imm8 mask)
    cf := mask != 0
    zf := decide (len2 < pcmpElements imm8)
    sf := decide (len1 < pcmpElements imm8)
    of := mask.getLsbD 0
    af := false
    pf := false }

/-- The loop for a length: the index of the first element that is 0. -/
def nulLength (s : BitVec 128) : ℕ :=
  ((List.range (pcmpElements imm8)).find? fun i => element imm8 s i == 0).getD (pcmpElements imm8)

def recomp_vpcmpistri_impl : StriContext :=
  stri s2 s1 imm8 (nulLength imm8 s1) (nulLength imm8 s2)

/-- The length in a register: negative ones are 0. -/
def clampLength (reg : BitVec 64) : ℕ :=
  let len := (reg.truncate 32).toInt
  if len < 0 then 0 else if (pcmpElements imm8 : ℤ) < len then pcmpElements imm8 else len.toNat

def recomp_vpcmpe_stri_impl (rax rdx : BitVec 64) : StriContext :=
  stri s2 s1 imm8 (clampLength imm8 rax) (clampLength imm8 rdx)

end

/-- The context shows the result of an instruction. -/
def StriContext.Shows (ctx : StriContext) (r : PcmpResult) : Prop :=
  ctx.rcx = BitVec.ofNat 64 r.index ∧ ctx.cf = r.cf ∧ ctx.zf = r.zf ∧ ctx.sf = r.sf ∧ ctx.of = r.of

instance (ctx : StriContext) (r : PcmpResult) : Decidable (ctx.Shows r) :=
  inferInstanceAs (Decidable (_ ∧ _ ∧ _ ∧ _ ∧ _))

/-! ### masks -/

theorem getLsbD_maskOf {n : ℕ} (hn : n ≤ 32) (p : ℕ → Bool) (j : ℕ) :
    (maskOf n p).getLsbD j = (decide (j < n) && p j) := by
  induction n with
  | zero => simp [maskOf]
  | succ n ih =>
      have hstep : maskOf (n + 1) p = if p n then maskOf n p ||| 1#32 <<< n else maskOf n p := by
        simp only [maskOf, List.range_succ, List.foldl_append, List.foldl_cons, List.foldl_nil]
      have hone : (1#32 <<< n).getLsbD j = decide (j = n) := by
        rw [BitVec.getLsbD_shiftLeft, BitVec.getLsbD_one]
        by_cases hj : j = n
        · subst hj
          simp
          omega
        · by_cases hlt : j < n
          · simp [hlt, hj]
          · simp [hj]
            omega
      have hprev := ih (by omega)
      rw [hstep]
      by_cases hj : j = n
      · subst hj
        cases hp : p j with
        | true => simp [hprev, hone]
        | false => simp [hprev]
      · have hiff : j < n + 1 ↔ j < n := by omega
        cases p n with
        | true => simp [hprev, hone, hj, hiff]
        | false => simp [hprev, hiff]

theorem pcmpElements_le (imm8 : BitVec 8) : 0 < pcmpElements imm8 ∧ pcmpElements imm8 ≤ 16 := by
  unfold pcmpElements
  split <;> omega

section Exact

variable {op1 op2 : BitVec 128} {imm8 : BitVec 8} {len1 len2 : ℕ}

theorem striIndex_eq {mask : BitVec 32} {p : ℕ → Bool}
    (hbit : ∀ j, mask.getLsbD j = (decide (j < pcmpElements imm8) && p j)) :
    striIndex imm8 mask =
      ((if pcmpMost imm8 then (List.range (pcmpElements imm8)).reverse
        else List.range (pcmpElements imm8)).find? p).getD (pcmpElements imm8) := by
  unfold striIndex
  by_cases hmask : mask = 0
  · have hnone : ∀ j, j < pcmpElements imm8 → p j = false := by
      intro j hj
      have hzero := hbit j
      rw [hmask, decide_eq_true hj, Bool.true_and, BitVec.ofNat_eq_ofNat, BitVec.getLsbD_zero] at hzero
      exact hzero.symm
    have hfind : ∀ l : List ℕ, (∀ j ∈ l, j < pcmpElements imm8) → l.find? p = none := by
      intro l hl
      rw [List.find?_eq_none]
      intro j hj
      rw [hnone j (hl j hj)]
      exact Bool.false_ne_true
    rw [if_pos hmask, hfind]
    · rfl
    · intro j hj
      split at hj
      · exact List.mem_range.1 (List.mem_reverse.1 hj)
      · exact List.mem_range.1 hj
  · rw [if_neg hmask]
    cases pcmpMost imm8 with
    | true =>
        simp only [if_true]
        rw [BitCount.find_reverse_clz hbit hmask]
        rfl
    | false =>
        simp only [Bool.false_eq_true, if_false]
        rw [BitCount.find_range_ctz hbit hmask]
        rfl

theorem ne_zero_eq_any {mask : BitVec 32} {p : ℕ → Bool} {n : ℕ}
    (hbit : ∀ j, mask.getLsbD j = (decide (j < n) && p j)) :
    (mask != 0) = (List.range n).any p := by
  rw [Bool.eq_iff_iff, bne_iff_ne, List.any_eq_true]
  constructor
  · intro hne
    by_contra hno
    apply hne
    apply BitVec.eq_of_getLsbD_eq
    intro j _
    rw [hbit, BitVec.ofNat_eq_ofNat, BitVec.getLsbD_zero]
    by_cases hj : j < n
    · have hp : p j = false := by
        rw [← Bool.not_eq_true]
        exact fun hp => hno ⟨j, List.mem_range.2 hj, hp⟩
      rw [hp, Bool.and_false]
    · rw [decide_eq_false hj, Bool.false_and]
  · rintro ⟨j, hj, hp⟩ hzero
    have hbit' := hbit j
    rw [hzero, hp, decide_eq_true (List.mem_range.1 hj), BitVec.ofNat_eq_ofNat,
      BitVec.getLsbD_zero] at hbit'
    cases hbit'

/-- Where the mask of a helper is that of the instruction, so is everything it leaves. -/
theorem stri_shows
    (hbit : ∀ j, (res2 op2 op1 imm8 len1 len2).getLsbD j =
      (decide (j < pcmpElements imm8) && intRes2 imm8 op1 op2 len1 len2 j)) :
    (stri op2 op1 imm8 len1 len2).Shows (pcmpResult imm8 op1 op2 len1 len2) := by
  have hpos := (pcmpElements_le imm8).1
  refine ⟨?_, ne_zero_eq_any hbit, rfl, rfl, ?_⟩
  · show BitVec.ofNat 64 (striIndex imm8 (res2 op2 op1 imm8 len1 len2)) = _
    rw [striIndex_eq hbit]
    rfl
  · show (res2 op2 op1 imm8 len1 len2).getLsbD 0 = _
    rw [hbit, decide_eq_true hpos, Bool.true_and]
    rfl

/-! ### element by element -/

/-- Comparing element by element, both compare the same elements. -/
theorem match_equalEach (hagg : pcmpAggregation imm8 = 2) (j : ℕ) :
    elementMatch op2 op1 imm8 len1 len2 j = intRes1 imm8 op1 op2 len1 len2 j := by
  unfold elementMatch intRes1 boolRes
  simp only [hagg]
  by_cases h1 : j < len1
  · by_cases h2 : j < len2
    · simp [h1, h2]
    · simp [h1, h2]
  · by_cases h2 : j < len2
    · simp [h1, h2]
    · simp [h1, h2]
      omega

theorem res1_equalEach (hagg : pcmpAggregation imm8 = 2) (j : ℕ) :
    (res1 op2 op1 imm8 len1 len2).getLsbD j =
      (decide (j < pcmpElements imm8) && intRes1 imm8 op1 op2 len1 len2 j) := by
  have hle := (pcmpElements_le imm8).2
  rw [res1, getLsbD_maskOf (by omega), match_equalEach hagg]

/-- The polarity of the elements of the string is that of all of them, or all are in the string. -/
def PlainPolarity (imm8 : BitVec 8) (len1 len2 : ℕ) : Prop :=
  pcmpPolarity imm8 ≠ 3 ∨ len1 = pcmpElements imm8 ∧ len2 = pcmpElements imm8

theorem getLsbD_low {n : ℕ} (hn : n < 32) (j : ℕ) :
    (1#32 <<< n - 1).getLsbD j = decide (j < n) := by
  have hpow : 2 ^ n < 2 ^ 32 := Nat.pow_lt_pow_right (by decide) hn
  have hpos : 0 < 2 ^ n := Nat.two_pow_pos n
  have hnat : (1#32 <<< n - 1).toNat = 2 ^ n - 1 := by
    rw [BitVec.toNat_sub, BitVec.toNat_shiftLeft, Nat.shiftLeft_eq, BitVec.toNat_ofNat]
    rw [show (1 % 2 ^ 32) * 2 ^ n = 2 ^ n from by rw [Nat.one_mod_eq_one.2 (by decide), Nat.one_mul],
      Nat.mod_eq_of_lt hpow]
    show (2 ^ 32 - 1 % 2 ^ 32 + 2 ^ n) % 2 ^ 32 = 2 ^ n - 1
    omega
  rw [BitVec.getLsbD, hnat, Nat.testBit_two_pow_sub_one]

theorem res2_negative (h : pcmpPolarity imm8 = 1) : res2 op2 op1 imm8 len1 len2 =
    ~~~res1 op2 op1 imm8 len1 len2 &&& (1#32 <<< pcmpElements imm8 - 1) := by
  simp only [res2, h]

theorem res2_masked (h : pcmpPolarity imm8 = 3) : res2 op2 op1 imm8 len1 len2 =
    maskOf len1 fun i => !(res1 op2 op1 imm8 len1 len2).getLsbD i := by
  simp only [res2, h]

theorem res2_positive (h1 : pcmpPolarity imm8 ≠ 1) (h3 : pcmpPolarity imm8 ≠ 3) :
    res2 op2 op1 imm8 len1 len2 = res1 op2 op1 imm8 len1 len2 := by
  unfold res2
  split
  · contradiction
  · contradiction
  · rfl

theorem intRes2_negative (h : pcmpPolarity imm8 = 1) (j : ℕ) :
    intRes2 imm8 op1 op2 len1 len2 j = !intRes1 imm8 op1 op2 len1 len2 j := by
  simp only [intRes2, h]

theorem intRes2_masked (h : pcmpPolarity imm8 = 3) (j : ℕ) : intRes2 imm8 op1 op2 len1 len2 j =
    if j < len2 then !intRes1 imm8 op1 op2 len1 len2 j else intRes1 imm8 op1 op2 len1 len2 j := by
  simp only [intRes2, h]

theorem intRes2_positive (h1 : pcmpPolarity imm8 ≠ 1) (h3 : pcmpPolarity imm8 ≠ 3) (j : ℕ) :
    intRes2 imm8 op1 op2 len1 len2 j = intRes1 imm8 op1 op2 len1 len2 j := by
  unfold intRes2
  split
  · contradiction
  · contradiction
  · rfl

theorem res2_equalEach (hagg : pcmpAggregation imm8 = 2) (hpol : PlainPolarity imm8 len1 len2)
    (j : ℕ) :
    (res2 op2 op1 imm8 len1 len2).getLsbD j =
      (decide (j < pcmpElements imm8) && intRes2 imm8 op1 op2 len1 len2 j) := by
  have hlt : pcmpElements imm8 < 32 := lt_of_le_of_lt (pcmpElements_le imm8).2 (by decide)
  have hbit : (res1 op2 op1 imm8 len1 len2).getLsbD j =
      (decide (j < pcmpElements imm8) && intRes1 imm8 op1 op2 len1 len2 j) :=
    res1_equalEach hagg j
  by_cases h1 : pcmpPolarity imm8 = 1
  · rw [res2_negative h1, intRes2_negative h1, BitVec.getLsbD_and, BitVec.getLsbD_not, hbit,
      getLsbD_low hlt]
    by_cases hj : j < pcmpElements imm8
    · simp [hj]
      omega
    · simp [hj]
  · by_cases h3 : pcmpPolarity imm8 = 3
    · rw [res2_masked h3, intRes2_masked h3]
      obtain ⟨h1, h2⟩ := hpol.resolve_left fun h => h h3
      rw [h1, h2] at hbit ⊢
      rw [getLsbD_maskOf hlt.le, hbit]
      by_cases hj : j < pcmpElements imm8
      · simp [hj]
      · simp [hj]
    · rw [res2_positive h1 h3, intRes2_positive h1 h3, hbit]

/-- **Element by element** the helpers do what the instruction does. -/
theorem stri_equalEach (hagg : pcmpAggregation imm8 = 2) (hpol : PlainPolarity imm8 len1 len2) :
    (stri op2 op1 imm8 len1 len2).Shows (pcmpResult imm8 op1 op2 len1 len2) :=
  stri_shows (res2_equalEach hagg hpol)

end Exact

/-! ### lengths -/

theorem find_takeWhile (p : ℕ → Bool) (n : ℕ) : ∀ s : ℕ,
    ((List.range' s n).find? p).getD (s + n) =
      s + ((List.range' s n).takeWhile fun i => !p i).length := by
  induction n with
  | zero => intro s; rfl
  | succ n ih =>
      intro s
      rw [List.range'_succ, List.find?_cons, List.takeWhile_cons]
      cases p s with
      | true => rfl
      | false =>
          have hrest := ih (s + 1)
          simp only [Bool.not_false, if_true, List.length_cons]
          rw [show s + (n + 1) = s + 1 + n from by omega, hrest]
          omega

theorem nulLength_eq (imm8 : BitVec 8) (s : BitVec 128) : nulLength imm8 s = implicitLength imm8 s := by
  have h := find_takeWhile (fun i => element imm8 s i == 0) (pcmpElements imm8) 0
  rw [Nat.zero_add, Nat.zero_add, ← List.range_eq_range'] at h
  exact h

/-- A length that is not negative is the explicit length. -/
theorem clampLength_eq {imm8 : BitVec 8} {reg : BitVec 64} (h : 0 ≤ (reg.truncate 32).toInt) :
    clampLength imm8 reg = explicitLength imm8 (reg.truncate 32) := by
  unfold clampLength explicitLength
  simp only
  rw [if_neg (by omega)]
  split <;> omega

/-! ### the modes -/

/-- The modes in which elements are compared one by one and the polarity is that of all of them. -/
def PlainMode (imm8 : BitVec 8) : Prop := pcmpAggregation imm8 = 2 ∧ pcmpPolarity imm8 ≠ 3

instance (imm8 : BitVec 8) : Decidable (PlainMode imm8) := inferInstanceAs (Decidable (_ ∧ _))

section Telling

variable {op1 op2 : BitVec 128} {imm8 : BitVec 8} {len1 len2 : ℕ}

/-- A first element on which the loops differ from the definition shows in `OF`. -/
theorem not_shows_of_first (hlen1 : 0 < len1 ∧ len1 ≤ 32) (hlen2 : 0 < len2)
    (hne : elementMatch op2 op1 imm8 len1 len2 0 ≠ intRes1 imm8 op1 op2 len1 len2 0) :
    ¬(stri op2 op1 imm8 len1 len2).Shows (pcmpResult imm8 op1 op2 len1 len2) := by
  intro hshows
  have hof : (res2 op2 op1 imm8 len1 len2).getLsbD 0 = intRes2 imm8 op1 op2 len1 len2 0 :=
    hshows.2.2.2.2
  obtain ⟨hpos, hle⟩ := pcmpElements_le imm8
  have hlt : pcmpElements imm8 < 32 := by omega
  have hbit : (res1 op2 op1 imm8 len1 len2).getLsbD 0 = elementMatch op2 op1 imm8 len1 len2 0 := by
    rw [res1, getLsbD_maskOf hlt.le, decide_eq_true hpos, Bool.true_and]
  apply hne
  by_cases h1 : pcmpPolarity imm8 = 1
  · rw [res2_negative h1, intRes2_negative h1, BitVec.getLsbD_and, BitVec.getLsbD_not, hbit,
      getLsbD_low hlt, decide_eq_true hpos] at hof
    simpa using hof
  · by_cases h3 : pcmpPolarity imm8 = 3
    · rw [res2_masked h3, intRes2_masked h3, if_pos hlen2, getLsbD_maskOf hlen1.2,
        decide_eq_true hlen1.1, Bool.true_and, hbit] at hof
      simpa using hof
    · rw [res2_positive h1 h3, intRes2_positive h1 h3, hbit] at hof
      exact hof

end Telling

/-- Operands that tell the other aggregations apart on the first element, with the lengths of their
strings: operand 1 and operand 2. -/
def tellingOperands : List ((BitVec 128 × BitVec 128) × (BitVec 64 × BitVec 64)) :=
  [((0x010203, 0x02), (3, 1)), ((0x000100020003, 0x0002), (3, 1)),
   ((0x02, 0x0302), (1, 2)), ((0x0002, 0x00030002), (1, 2))]

theorem telling_implicit : ∀ n < 256, pcmpAggregation (BitVec.ofNat 8 n) ≠ 2 →
    ∃ ops ∈ tellingOperands,
      let len1 := nulLength (BitVec.ofNat 8 n) ops.1.1
      let len2 := nulLength (BitVec.ofNat 8 n) ops.1.2
      ((0 < len1 ∧ len1 ≤ 32) ∧ 0 < len2) ∧
      elementMatch ops.1.2 ops.1.1 (BitVec.ofNat 8 n) len1 len2 0 ≠
        intRes1 (BitVec.ofNat 8 n) ops.1.1 ops.1.2 len1 len2 0 := by
  decide +kernel

theorem telling_explicit : ∀ n < 256, pcmpAggregation (BitVec.ofNat 8 n) ≠ 2 →
    ∃ ops ∈ tellingOperands,
      let len1 := clampLength (BitVec.ofNat 8 n) ops.2.1
      let len2 := clampLength (BitVec.ofNat 8 n) ops.2.2
      (0 ≤ (ops.2.1.truncate 32).toInt ∧ 0 ≤ (ops.2.2.truncate 32).toInt) ∧
      ((0 < len1 ∧ len1 ≤ 32) ∧ 0 < len2) ∧
      elementMatch ops.1.2 ops.1.1 (BitVec.ofNat 8 n) len1 len2 0 ≠
        intRes1 (BitVec.ofNat 8 n) ops.1.1 ops.1.2 len1 len2 0 := by
  decide +kernel

/-- Masked negation, an empty operand 1 and one element in operand 2. -/
theorem telling_masked : ∀ n < 256, pcmpAggregation (BitVec.ofNat 8 n) = 2 →
    pcmpPolarity (BitVec.ofNat 8 n) = 3 →
    ¬(recomp_vpcmpistri_impl 1 0 (BitVec.ofNat 8 n)).Shows (pcmpistri (BitVec.ofNat 8 n) 0 1) ∧
    ¬(recomp_vpcmpe_stri_impl 1 0 (BitVec.ofNat 8 n) 0 1).Shows
      (pcmpestri (BitVec.ofNat 8 n) 0 1 0 1) := by
  decide +kernel

theorem telling_implicit_mode {imm8 : BitVec 8} (hmode : ¬ PlainMode imm8) :
    ∃ op1 op2, ¬ (recomp_vpcmpistri_impl op2 op1 imm8).Shows (pcmpistri imm8 op1 op2) := by
  have hlt := imm8.isLt
  have hself : BitVec.ofNat 8 imm8.toNat = imm8 := by
    rw [BitVec.ofNat_toNat, BitVec.setWidth_eq]
  by_cases hagg : pcmpAggregation imm8 = 2
  · have hmask := telling_masked imm8.toNat hlt
    rw [hself] at hmask
    have hpol : pcmpPolarity imm8 = 3 := by
      by_contra hpol
      exact hmode ⟨hagg, hpol⟩
    exact ⟨0, 1, (hmask hagg hpol).1⟩
  · have htell := telling_implicit imm8.toNat hlt
    rw [hself] at htell
    obtain ⟨ops, -, hlen, hne⟩ := htell hagg
    refine ⟨ops.1.1, ops.1.2, ?_⟩
    unfold recomp_vpcmpistri_impl pcmpistri
    rw [← nulLength_eq, ← nulLength_eq]
    exact not_shows_of_first hlen.1 hlen.2 hne

theorem telling_explicit_mode {imm8 : BitVec 8} (hmode : ¬ PlainMode imm8) :
    ∃ op1 op2 rax rdx, 0 ≤ (BitVec.truncate 32 rax).toInt ∧ 0 ≤ (BitVec.truncate 32 rdx).toInt ∧
      ¬ (recomp_vpcmpe_stri_impl op2 op1 imm8 rax rdx).Shows
        (pcmpestri imm8 op1 op2 (rax.truncate 32) (rdx.truncate 32)) := by
  have hlt := imm8.isLt
  have hself : BitVec.ofNat 8 imm8.toNat = imm8 := by
    rw [BitVec.ofNat_toNat, BitVec.setWidth_eq]
  by_cases hagg : pcmpAggregation imm8 = 2
  · have hmask := telling_masked imm8.toNat hlt
    rw [hself] at hmask
    have hpol : pcmpPolarity imm8 = 3 := by
      by_contra hpol
      exact hmode ⟨hagg, hpol⟩
    exact ⟨0, 1, 0, 1, by decide, by decide, (hmask hagg hpol).2⟩
  · have htell := telling_explicit imm8.toNat hlt
    rw [hself] at htell
    obtain ⟨ops, -, ⟨hrax, hrdx⟩, hlen, hne⟩ := htell hagg
    refine ⟨ops.1.1, ops.1.2, ops.2.1, ops.2.2, hrax, hrdx, ?_⟩
    unfold recomp_vpcmpe_stri_impl pcmpestri
    rw [← clampLength_eq hrax, ← clampLength_eq hrdx]
    exact not_shows_of_first hlen.1 hlen.2 hne

theorem implicit_equalEach {op1 op2 : BitVec 128} {imm8 : BitVec 8}
    (hagg : pcmpAggregation imm8 = 2)
    (hpol : PlainPolarity imm8 (implicitLength imm8 op1) (implicitLength imm8 op2)) :
    (recomp_vpcmpistri_impl op2 op1 imm8).Shows (pcmpistri imm8 op1 op2) := by
  unfold recomp_vpcmpistri_impl pcmpistri
  rw [nulLength_eq, nulLength_eq]
  exact stri_equalEach hagg hpol

theorem explicit_equalEach {op1 op2 : BitVec 128} {imm8 : BitVec 8} {rax rdx : BitVec 64}
    (hagg : pcmpAggregation imm8 = 2)
    (hrax : 0 ≤ (rax.truncate 32).toInt) (hrdx : 0 ≤ (rdx.truncate 32).toInt)
    (hpol : PlainPolarity imm8 (explicitLength imm8 (rax.truncate 32))
      (explicitLength imm8 (rdx.truncate 32))) :
    (recomp_vpcmpe_stri_impl op2 op1 imm8 rax rdx).Shows
      (pcmpestri imm8 op1 op2 (rax.truncate 32) (rdx.truncate 32)) := by
  unfold recomp_vpcmpe_stri_impl pcmpestri
  rw [clampLength_eq hrax, clampLength_eq hrdx]
  exact stri_equalEach hagg hpol

/-- **The helpers** do what the instructions do in the modes that compare element by element without
masked negation, for lengths that are not negative, and in no others; with masked negation they do
where all elements belong to their strings. -/
theorem stri_impl_exact (imm8 : BitVec 8) :
    ((∀ op1 op2,
        (recomp_vpcmpistri_impl op2 op1 imm8).Shows (pcmpistri imm8 op1 op2)) ↔ PlainMode imm8) ∧
    ((∀ op1 op2 rax rdx,
        0 ≤ (BitVec.truncate 32 rax).toInt → 0 ≤ (BitVec.truncate 32 rdx).toInt →
        (recomp_vpcmpe_stri_impl op2 op1 imm8 rax rdx).Shows
          (pcmpestri imm8 op1 op2 (rax.truncate 32) (rdx.truncate 32))) ↔ PlainMode imm8) ∧
    (∀ op1 op2, pcmpAggregation imm8 = 2 →
      PlainPolarity imm8 (implicitLength imm8 op1) (implicitLength imm8 op2) →
      (recomp_vpcmpistri_impl op2 op1 imm8).Shows (pcmpistri imm8 op1 op2)) ∧
    (∀ op1 op2 rax rdx, pcmpAggregation imm8 = 2 →
      0 ≤ (BitVec.truncate 32 rax).toInt → 0 ≤ (BitVec.truncate 32 rdx).toInt →
      PlainPolarity imm8 (explicitLength imm8 (rax.truncate 32))
        (explicitLength imm8 (rdx.truncate 32)) →
      (recomp_vpcmpe_stri_impl op2 op1 imm8 rax rdx).Shows
        (pcmpestri imm8 op1 op2 (rax.truncate 32) (rdx.truncate 32))) := by
  refine ⟨?_, ?_, ?_, ?_⟩
  · constructor
    · intro hall
      by_contra hmode
      obtain ⟨op1, op2, hne⟩ := telling_implicit_mode hmode
      exact hne (hall op1 op2)
    · intro hmode op1 op2
      exact implicit_equalEach hmode.1 (Or.inl hmode.2)
  · constructor
    · intro hall
      by_contra hmode
      obtain ⟨op1, op2, rax, rdx, hrax, hrdx, hne⟩ := telling_explicit_mode hmode
      exact hne (hall op1 op2 rax rdx hrax hrdx)
    · intro hmode op1 op2 rax rdx hrax hrdx
      exact explicit_equalEach hmode.1 hrax hrdx (Or.inl hmode.2)
  · intro op1 op2 hagg hpol
    exact implicit_equalEach hagg hpol
  · intro op1 op2 rax rdx hagg hrax hrdx hpol
    exact explicit_equalEach hagg hrax hrdx hpol

/-- Looking for a 2 in 3, 2, 1 the implicit form answers 0, and not 1; the explicit form takes the
length -1 for 0. -/
theorem stri_impl_wrong :
    (¬ (recomp_vpcmpistri_impl 0x010203 0x02 0).Shows (pcmpistri 0 0x02 0x010203) ∧
      (recomp_vpcmpistri_impl 0x010203 0x02 0).rcx = 0 ∧ (pcmpistri 0 0x02 0x010203).index = 1) ∧
    ¬ (recomp_vpcmpe_stri_impl 0x02 0x02 8 1 0xFFFFFFFF).Shows
      (pcmpestri 8 0x02 0x02 1 0xFFFFFFFF) := by
  decide +kernel

end PS4Recomp.Runtime
