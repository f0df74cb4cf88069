import PS4Recomp.Library.AddCarry
import PS4Recomp.Arm64.Machine

/-!
# The adder of the machine

* `addNzcv`, `subNzcv` — the flags of an addition and of a subtraction, by the carry, the borrow
  and the overflow;
* `addWithCarry_add`, `addWithCarry_sub` — `addWithCarry` computes them;
* `exec_add`, `exec_sub` — the instructions that add and subtract;
* `ge_subNzcv` and its kin — the comparisons.
-/

namespace PS4Recomp.Arm64

open Library Library.AddCarry

variable {n : ℕ}

/-- The flags of `a + b + c`. -/
def addNzcv (a b : BitVec n) (c : Bool) : Nzcv where
  n := (sum a b c).msb
  z := sum a b c == 0
  c := carryOut a b c
  v := addOverflow a b c

/-- The flags of `a - b - c`: the carry is the complement of the borrow. -/
def subNzcv (a b : BitVec n) (c : Bool) : Nzcv where
  n := (diff a b c).msb
  z := diff a b c == 0
  c := !borrowOut a b c
  v := subOverflow a b c

theorem addWithCarry_add (a b : BitVec n) (c : Bool) :
    addWithCarry a b c = (sum a b c, addNzcv a b c) := by
  have hsum : BitVec.ofNat n (a.toNat + b.toNat + c.toNat) = sum a b c := by
    apply BitVec.eq_of_toNat_eq
    rw [toNat_sum, BitVec.toNat_ofNat]
  have hc : decide ((sum a b c).toNat ≠ a.toNat + b.toNat + c.toNat) = carryOut a b c := by
    rw [Bool.eq_iff_iff, decide_eq_true_iff]
    exact toNat_sum_ne_iff a b c
  have hv : decide ((sum a b c).toInt ≠ a.toInt + b.toInt + c.toNat) = addOverflow a b c := by
    rw [Bool.eq_iff_iff, decide_eq_true_iff]
    exact toInt_sum_ne_iff a b c
  unfold addWithCarry addNzcv
  simp only [hsum, hc, hv]

theorem addWithCarry_sub (hn : 0 < n) (a b : BitVec n) (c : Bool) :
    addWithCarry a (~~~b) (!c) = (diff a b c, subNzcv a b c) := by
  rw [addWithCarry_add]
  unfold addNzcv subNzcv
  rw [sum_not, carryOut_not, addOverflow_not hn]

theorem Width.bits_pos (sf : Width) : 0 < sf.bits := by cases sf <;> decide

variable {L : Type}

theorem exec_add (fl : Bool) (sf : Width) (rd rn : XReg) (o : Op2) (s : State) :
    (Instr.addSub .add fl sf rd rn o : Instr L).exec s =
      { s.setW sf rd (s.getW sf rn + o.eval s sf) with
        flags := if fl then addNzcv (s.getW sf rn) (o.eval s sf) false else s.flags } := by
  simp only [Instr.exec, addWithCarry_add, sum_false]

theorem exec_sub (fl : Bool) (sf : Width) (rd rn : XReg) (o : Op2) (s : State) :
    (Instr.addSub .sub fl sf rd rn o : Instr L).exec s =
      { s.setW sf rd (s.getW sf rn - o.eval s sf) with
        flags := if fl then subNzcv (s.getW sf rn) (o.eval s sf) false else s.flags } := by
  have hsub := addWithCarry_sub sf.bits_pos (s.getW sf rn) (o.eval s sf) false
  rw [diff_false, Bool.not_false] at hsub
  simp only [Instr.exec, hsub]

theorem exec_addX (rd rn rm : XReg) (s : State) :
    (Instr.addSub .add false .x rd rn (.reg rm 0) : Instr L).exec s =
      s.set rd (s.get rn + s.get rm) := by
  rw [exec_add]
  show ({ s.set rd (BitVec.setWidth 64 ((s.get rn).setWidth 64 + (s.get rm).setWidth 64 <<< 0)) with
    flags := s.flags } : State) = _
  rw [BitVec.setWidth_eq, BitVec.setWidth_eq, BitVec.setWidth_eq, BitVec.shiftLeft_zero,
    State.set_flags_self]

theorem exec_addXImm (rd rn : XReg) (v : BitVec 64) (s : State) :
    (Instr.addSub .add false .x rd rn (.imm v) : Instr L).exec s = s.set rd (s.get rn + v) := by
  rw [exec_add]
  show ({ s.set rd (BitVec.setWidth 64 ((s.get rn).setWidth 64 + v.setWidth 64)) with
    flags := s.flags } : State) = _
  rw [BitVec.setWidth_eq, BitVec.setWidth_eq, BitVec.setWidth_eq, State.set_flags_self]

theorem exec_subXImm (rd rn : XReg) (v : BitVec 64) (s : State) :
    (Instr.addSub .sub false .x rd rn (.imm v) : Instr L).exec s = s.set rd (s.get rn - v) := by
  rw [exec_sub]
  show ({ s.set rd (BitVec.setWidth 64 ((s.get rn).setWidth 64 - v.setWidth 64)) with
    flags := s.flags } : State) = _
  rw [BitVec.setWidth_eq, BitVec.setWidth_eq, BitVec.setWidth_eq, State.set_flags_self]

theorem exec_logicX (op : Logic) (rd rn rm : XReg) (s : State) :
    (Instr.logic op false .x rd rn (.reg rm 0) : Instr L).exec s =
      s.set rd (op.eval (s.get rn) (s.get rm)) := by
  show ({ s.set rd (BitVec.setWidth 64 (op.eval ((s.get rn).setWidth 64)
    ((s.get rm).setWidth 64 <<< 0))) with flags := s.flags } : State) = _
  rw [BitVec.setWidth_eq, BitVec.setWidth_eq, BitVec.setWidth_eq, BitVec.shiftLeft_zero,
    State.set_flags_self]

/-! ### comparisons -/

theorem eq_subNzcv (a b : BitVec n) : Cond.holds .eq (subNzcv a b false) = decide (a = b) := by
  show (diff a b false == 0) = _
  rw [diff_false, Bool.eq_iff_iff, beq_iff_eq, decide_eq_true_iff]
  exact sub_eq_zero

theorem ge_subNzcv (hn : 0 < n) (a b : BitVec n) :
    Cond.holds .ge (subNzcv a b false) = decide (b.toInt ≤ a.toInt) := by
  have ha := fits_toInt a
  have hb := fits_toInt b
  have hpow : (2 : ℤ) ^ n = 2 * 2 ^ (n - 1) := by rw [← pow_succ', Nat.sub_add_cancel hn]
  have hpos : (0 : ℤ) < 2 ^ (n - 1) := by positivity
  have hbmod : (a - b).toInt = (a.toInt - b.toInt).bmod (2 ^ n) := BitVec.toInt_sub
  have hmsb : (a - b).msb = decide ((a - b).toInt < 0) := BitVec.msb_eq_toInt
  show ((diff a b false).msb == subOverflow a b false) = _
  rw [diff_false, hmsb, subOverflow]
  have hsub : a.toInt - b.toInt - (false.toNat : ℤ) = a.toInt - b.toInt := sub_zero _
  rw [hsub]
  have hrange : (a - b).toInt = a.toInt - b.toInt ∨ (a - b).toInt = a.toInt - b.toInt - 2 ^ n ∨
      (a - b).toInt = a.toInt - b.toInt + 2 ^ n := by
    have hcast : ((2 ^ n : ℕ) : ℤ) = 2 ^ n := by push_cast; rfl
    have hmod : (a.toInt - b.toInt) % 2 ^ n = a.toInt - b.toInt ∨
        (a.toInt - b.toInt) % 2 ^ n = a.toInt - b.toInt + 2 ^ n := by
      rw [Fits] at ha hb
      rcases le_or_gt 0 (a.toInt - b.toInt) with hge | hlt
      · exact .inl (Int.emod_eq_of_lt hge (by omega))
      · right
        rw [← Int.add_emod_right]
        exact Int.emod_eq_of_lt (by omega) (by omega)
    rw [hbmod, Int.bmod, hcast]
    split
    · omega
    · omega
  have hfit := fits_toInt (a - b)
  rw [Fits] at ha hb hfit
  rw [Bool.eq_iff_iff, beq_iff_eq, decide_eq_true_iff, decide_eq_decide, Fits]
  clear hbmod hmsb hsub
  constructor
  · intro h
    by_contra hlt
    omega
  · intro h
    constructor
    · intro h'
      omega
    · intro h'
      omega

theorem gt_subNzcv (hn : 0 < n) (a b : BitVec n) :
    Cond.holds .gt (subNzcv a b false) = decide (b.toInt < a.toInt) := by
  show (!Cond.holds .eq (subNzcv a b false) && Cond.holds .ge (subNzcv a b false)) = _
  rw [eq_subNzcv, ge_subNzcv hn, ← decide_not, ← Bool.decide_and, decide_eq_decide, ← BitVec.toInt_inj]
  omega

theorem le_subNzcv (hn : 0 < n) (a b : BitVec n) :
    Cond.holds .le (subNzcv a b false) = decide (a.toInt ≤ b.toInt) := by
  show (!Cond.holds .gt (subNzcv a b false)) = _
  rw [gt_subNzcv hn, ← decide_not, decide_eq_decide, not_lt]

/-! Unsigned comparisons. -/

end PS4Recomp.Arm64
