import PS4Recomp.Arm64.Adder
import PS4Recomp.Arm64.Run

/-!
# More data processing

The instructions that compute a register from at most three others, or compare two, and have no
constructor of their own.

* `dp`, `dpFlags` — an instruction that computes its value from the flags and three registers, and one
  that sets the flags too; `plain_dp`, `exec_dp`: it neither branches nor faults, and what it changes;
* `udiv`, `sdiv`, `msub`, `mul`, … — the instructions.

A division by zero gives zero.  The variable shifts take their count modulo the width.
-/

namespace PS4Recomp.Arm64

open Library

variable {L : Type}

/-! ### registers of a width -/

theorem State.getW_setW_self {s : State} {sf : Width} {r : XReg} {v : BitVec sf.bits} (h : r ≠ 31) :
    (s.setW sf r v).getW sf r = v := by
  unfold State.setW State.getW
  rw [State.get_set_self h]
  cases sf
  · exact (BitVec.setWidth_setWidth_of_le _ (by decide)).trans (BitVec.setWidth_eq _)
  · exact (BitVec.setWidth_setWidth_of_le _ (by decide)).trans (BitVec.setWidth_eq _)

theorem State.getW_setW_ne {s : State} {sf sf' : Width} {r r' : XReg} {v : BitVec sf.bits}
    (h : r' ≠ r) : (s.setW sf r v).getW sf' r' = s.getW sf' r' := by
  unfold State.setW State.getW
  rw [State.get_set_ne h]

theorem State.get_setW_self {s : State} {sf : Width} {r : XReg} {v : BitVec sf.bits} (h : r ≠ 31) :
    (s.setW sf r v).get r = v.setWidth 64 := State.get_set_self h

theorem State.get_setW_ne {s : State} {sf : Width} {r r' : XReg} {v : BitVec sf.bits}
    (h : r' ≠ r) : (s.setW sf r v).get r' = s.get r' := State.get_set_ne h

/-! ### instructions that set no flags -/

theorem exec_shiftW (op : Shift) (sf : Width) (rd rn : XReg) (k : ℕ) (s : State) :
    (Instr.shift op sf rd rn k : Instr L).exec s = s.setW sf rd (op.eval (s.getW sf rn) k) := rfl

theorem exec_movImmW (sf : Width) (rd : XReg) (v : BitVec 64) (s : State) :
    (Instr.movImm sf rd v : Instr L).exec s = s.setW sf rd (v.setWidth sf.bits) := rfl

theorem exec_mvnW (sf : Width) (rd rm : XReg) (s : State) :
    (Instr.mvn sf rd rm : Instr L).exec s = s.setW sf rd (~~~s.getW sf rm) := rfl

theorem exec_sxtW (k : ℕ) (sf : Width) (rd rn : XReg) (s : State) :
    (Instr.sxt k sf rd rn : Instr L).exec s = s.setW sf rd (((s.get rn).setWidth k).signExtend sf.bits) := rfl

theorem exec_logicW (op : Logic) (sf : Width) (rd rn : XReg) (o : Op2) (s : State) :
    (Instr.logic op false sf rd rn o : Instr L).exec s =
      s.setW sf rd (op.eval (s.getW sf rn) (o.eval s sf)) := State.set_flags_self _ _ _

theorem exec_addW (sf : Width) (rd rn : XReg) (o : Op2) (s : State) :
    (Instr.addSub .add false sf rd rn o : Instr L).exec s =
      s.setW sf rd (s.getW sf rn + o.eval s sf) := by
  rw [exec_add]
  exact State.set_flags_self _ _ _

theorem exec_subW (sf : Width) (rd rn : XReg) (o : Op2) (s : State) :
    (Instr.addSub .sub false sf rd rn o : Instr L).exec s =
      s.setW sf rd (s.getW sf rn - o.eval s sf) := by
  rw [exec_sub]
  exact State.set_flags_self _ _ _

theorem eval_reg (s : State) (sf : Width) (r : XReg) : (Op2.reg r 0).eval s sf = s.getW sf r :=
  BitVec.shiftLeft_zero _

theorem eval_imm (s : State) (sf : Width) (v : BitVec 64) :
    (Op2.imm v).eval s sf = v.setWidth sf.bits := rfl

/-! ### comparisons -/

theorem exec_cmp (sf : Width) (rn : XReg) (o : Op2) (s : State) :
    (Instr.cmp sf rn o : Instr L).exec s =
      { s with flags := subNzcv (s.getW sf rn) (o.eval s sf) false } := exec_sub true sf 31 rn o s

theorem exec_tst (sf : Width) (rn : XReg) (o : Op2) (s : State) :
    (Instr.tst sf rn o : Instr L).exec s =
      { s with flags := logicFlags (s.getW sf rn &&& o.eval s sf) } := rfl

theorem exec_ccmp (sf : Width) (rn rm : XReg) (f : Nzcv) (c : Cond) (s : State) :
    (Instr.ccmp sf rn rm f c : Instr L).exec s =
      { s with flags := if c.holds s.flags then subNzcv (s.getW sf rn) (s.getW sf rm) false else f } := by
  have hsub := addWithCarry_sub sf.bits_pos (s.getW sf rn) (s.getW sf rm) false
  rw [Bool.not_false] at hsub
  simp only [Instr.exec, hsub]

theorem subNzcv_zero {n : ℕ} (a : BitVec n) :
    (subNzcv a 0 false).z = (a == 0) ∧ (subNzcv a 0 false).c = true := by
  constructor
  · show (AddCarry.diff a 0 false == 0) = _
    rw [AddCarry.diff_false, BitVec.ofNat_eq_ofNat, BitVec.sub_zero]
  · show (!AddCarry.borrowOut a 0 false) = true
    simp [AddCarry.borrowOut]

/-! ### the two forms -/

/-- A register computed. -/
def dpRun (ws wd : Width) (rd rn rm ra : XReg)
    (f : Nzcv → BitVec ws.bits → BitVec ws.bits → BitVec ws.bits → BitVec wd.bits) (s : State) : State :=
  s.setW wd rd (f s.flags (s.getW ws rn) (s.getW ws rm) (s.getW ws ra))

theorem dpRun_framed (ws wd : Width) (rd rn rm ra : XReg)
    (f : Nzcv → BitVec ws.bits → BitVec ws.bits → BitVec ws.bits → BitVec wd.bits) (r : XReg)
    (hr : r ∉ [rd, rn, rm, ra]) (s t : State) (h : AgreeOff r s t) :
    AgreeOff r (dpRun ws wd rd rn rm ra f s) (dpRun ws wd rd rn rm ra f t) := by
  simp only [List.mem_cons, List.not_mem_nil, or_false, not_or] at hr
  obtain ⟨hd, hn, hm, ha⟩ := hr
  simp only [dpRun, State.setW, h.flags, h.getW (Ne.symm hn), h.getW (Ne.symm hm),
    h.getW (Ne.symm ha)]
  exact h.set (Ne.symm hd) _

/-- An instruction that computes a register; `ws` is the width of its operands, `wd` that of its
result. -/
def Instr.dp (ws wd : Width) (rd rn rm ra : XReg)
    (f : Nzcv → BitVec ws.bits → BitVec ws.bits → BitVec ws.bits → BitVec wd.bits) : Instr L :=
  .other ⟨[rd, rn, rm, ra], dpRun ws wd rd rn rm ra f, dpRun_framed ws wd rd rn rm ra f⟩

/-- A register and the flags computed. -/
def dpFlagsRun (sf : Width) (rd rn rm : XReg)
    (f : BitVec sf.bits → BitVec sf.bits → BitVec sf.bits × Nzcv) (s : State) : State :=
  let r := f (s.getW sf rn) (s.getW sf rm)
  { s.setW sf rd r.1 with flags := r.2 }

theorem dpFlagsRun_framed (sf : Width) (rd rn rm : XReg)
    (f : BitVec sf.bits → BitVec sf.bits → BitVec sf.bits × Nzcv) (r : XReg)
    (hr : r ∉ [rd, rn, rm]) (s t : State) (h : AgreeOff r s t) :
    AgreeOff r (dpFlagsRun sf rd rn rm f s) (dpFlagsRun sf rd rn rm f t) := by
  simp only [List.mem_cons, List.not_mem_nil, or_false, not_or] at hr
  obtain ⟨hd, hn, hm⟩ := hr
  simp only [dpFlagsRun, State.setW, State.set_sp, State.set_mem, State.set_fails,
    h.getW (Ne.symm hn), h.getW (Ne.symm hm), h.sp, h.mem, h.fails]
  exact (h.set (Ne.symm hd) _).replace _ _ _ _

/-- An instruction that computes a register and the flags. -/
def Instr.dpFlags (sf : Width) (rd rn rm : XReg)
    (f : BitVec sf.bits → BitVec sf.bits → BitVec sf.bits × Nzcv) : Instr L :=
  .other ⟨[rd, rn, rm], dpFlagsRun sf rd rn rm f, dpFlagsRun_framed sf rd rn rm f⟩

namespace Instr

@[simp] theorem plain_dp (ws wd : Width) (rd rn rm ra : XReg)
    (f : Nzcv → BitVec ws.bits → BitVec ws.bits → BitVec ws.bits → BitVec wd.bits) :
    (Instr.dp ws wd rd rn rm ra f : Instr L).plain = true := rfl

theorem exec_dp (ws wd : Width) (rd rn rm ra : XReg)
    (f : Nzcv → BitVec ws.bits → BitVec ws.bits → BitVec ws.bits → BitVec wd.bits) (s : State) :
    (Instr.dp ws wd rd rn rm ra f : Instr L).exec s =
      s.setW wd rd (f s.flags (s.getW ws rn) (s.getW ws rm) (s.getW ws ra)) := rfl

/-! ### multiplication and division -/

/-- `udiv rd, rn, rm`. -/
def udiv (sf : Width) (rd rn rm : XReg) : Instr L := .dp sf sf rd rn rm 31 fun _ a b _ => a / b

/-- `sdiv rd, rn, rm`. -/
def sdiv (sf : Width) (rd rn rm : XReg) : Instr L := .dp sf sf rd rn rm 31 fun _ a b _ => a.sdiv b

/-- `msub rd, rn, rm, ra`. -/
def msub (sf : Width) (rd rn rm ra : XReg) : Instr L := .dp sf sf rd rn rm ra fun _ a b c => c - a * b

/-- `mul rd, rn, rm`. -/
def mul (sf : Width) (rd rn rm : XReg) : Instr L := .dp sf sf rd rn rm 31 fun _ a b _ => a * b

/-- `umull xd, wn, wm`. -/
def umull (rd rn rm : XReg) : Instr L :=
  .dp .w .x rd rn rm 31 fun _ a b _ => a.setWidth 64 * b.setWidth 64

/-- `smull xd, wn, wm`. -/
def smull (rd rn rm : XReg) : Instr L :=
  .dp .w .x rd rn rm 31 fun _ a b _ => a.signExtend 64 * b.signExtend 64

/-- `umulh xd, xn, xm`. -/
def umulh (rd rn rm : XReg) : Instr L :=
  .dp .x .x rd rn rm 31 fun _ a b _ => (a.setWidth 128 * b.setWidth 128).extractLsb' 64 64

/-- `smulh xd, xn, xm`. -/
def smulh (rd rn rm : XReg) : Instr L :=
  .dp .x .x rd rn rm 31 fun _ a b _ => (a.signExtend 128 * b.signExtend 128).extractLsb' 64 64

/-! ### bits -/

/-- `bfi wd, wn, #lsb, #w`. -/
def bfiW (rd rn : XReg) (lsb w : ℕ) : Instr L :=
  .dp .w .w rd rd rn 31 fun _ a b _ =>
    (insertBits lsb w (a.setWidth 64) (b.setWidth w)).setWidth 32

/-- `bic rd, rn, rm`. -/
def bic (sf : Width) (rd rn rm : XReg) : Instr L := .dp sf sf rd rn rm 31 fun _ a b _ => a &&& ~~~b

/-- `orn rd, rn, rm`. -/
def orn (sf : Width) (rd rn rm : XReg) : Instr L := .dp sf sf rd rn rm 31 fun _ a b _ => a ||| ~~~b

/-- `clz rd, rn`. -/
def clz (sf : Width) (rd rn : XReg) : Instr L := .dp sf sf rd rn 31 31 fun _ a _ _ => a.clz

/-- `rbit rd, rn`. -/
def rbit (sf : Width) (rd rn : XReg) : Instr L := .dp sf sf rd rn 31 31 fun _ a _ _ => a.reverse

/-! ### shifts -/

/-- `lsl`, `lsr` and `asr` by a register. -/
def shiftV (op : Shift) (sf : Width) (rd rn rm : XReg) : Instr L :=
  .dp sf sf rd rn rm 31 fun _ a b _ => op.eval a (b.toNat % sf.bits)

/-- `ror rd, rn, #k`. -/
def ror (sf : Width) (rd rn : XReg) (k : ℕ) : Instr L :=
  .dp sf sf rd rn 31 31 fun _ a _ _ => a.rotateRight k

/-- `add rd, rn, rm, lsr #k`. -/
def addLsr (sf : Width) (rd rn rm : XReg) (k : ℕ) : Instr L :=
  .dp sf sf rd rn rm 31 fun _ a b _ => a + b >>> k

/-! ### comparisons and flags -/

/-- `cmp rn, rm, asr #k`. -/
def cmpAsr (sf : Width) (rn rm : XReg) (k : ℕ) : Instr L :=
  .dpFlags sf 31 rn rm fun a b => addWithCarry a (~~~b.sshiftRight k) true

/-- `cmp rn, rm, sxtb` and its kin: the low `k` bits of `rm`, sign-extended. -/
def cmpSxt (k : ℕ) (sf : Width) (rn rm : XReg) : Instr L :=
  .dpFlags sf 31 rn rm fun a b => addWithCarry a (~~~(b.setWidth k).signExtend sf.bits) true

end Instr

/-- The flags written. -/
def State.setFlags (s : State) (f : Nzcv) : State := { s with flags := f }

section SetFlags

variable (s : State) (f : Nzcv) (r : XReg)

theorem State.get_setFlags : (s.setFlags f).get r = s.get r := rfl

theorem State.mem_setFlags : (s.setFlags f).mem = s.mem := rfl

theorem State.flags_setFlags : (s.setFlags f).flags = f := rfl

end SetFlags

theorem State.setW_x (s : State) (r : XReg) (v : BitVec 64) : s.setW .x r v = s.set r v :=
  congrArg (s.set r) (BitVec.setWidth_eq v)

theorem State.getW_x (s : State) (r : XReg) : s.getW .x r = s.get r := BitVec.setWidth_eq _

section Wide

variable (rd rn rm : XReg) (k : ℕ) (v : BitVec 64) (s : State)

theorem exec_movXReg : (Instr.mov .x rd rm : Instr L).exec s = s.set rd (s.get rm) :=
  (State.setW_x _ _ _).trans (congrArg (s.set rd) (State.getW_x _ _))

theorem exec_movXImm : (Instr.movImm .x rd v : Instr L).exec s = s.set rd v :=
  (State.setW_x _ _ _).trans (congrArg (s.set rd) (BitVec.setWidth_eq v))

theorem exec_shiftX (op : Shift) :
    (Instr.shift op .x rd rn k : Instr L).exec s = s.set rd (op.eval (s.get rn) k) :=
  (State.setW_x _ _ _).trans (congrArg (fun a : BitVec 64 => s.set rd (op.eval a k)) (State.getW_x _ _))

theorem exec_logicXImm (op : Logic) :
    (Instr.logic op false .x rd rn (.imm v) : Instr L).exec s = s.set rd (op.eval (s.get rn) v) := by
  rw [exec_logicW, eval_imm, State.getW_x]
  exact (State.setW_x _ _ _).trans (congrArg (fun a : BitVec 64 => s.set rd (op.eval (s.get rn) a))
    (BitVec.setWidth_eq v))

theorem exec_subX : (Instr.addSub .sub false .x rd rn (.reg rm 0) : Instr L).exec s =
    s.set rd (s.get rn - s.get rm) := by
  rw [exec_subW, eval_reg, State.getW_x, State.getW_x]
  exact State.setW_x _ _ _

theorem exec_negX : (Instr.neg false .x rd rm : Instr L).exec s = s.set rd (-s.get rm) := by
  rw [exec_subX, State.get_zr]
  exact congrArg (s.set rd) (zero_sub _)

theorem exec_addXShifted : (Instr.addSub .add false .x rd rn (.reg rm k) : Instr L).exec s =
    s.set rd (s.get rn + s.get rm <<< k) := by
  rw [exec_addW, State.getW_x]
  exact (State.setW_x _ _ _).trans (congrArg (fun a : BitVec 64 => s.set rd (s.get rn + a <<< k))
    (State.getW_x _ _))

theorem exec_clzX : (Instr.clz .x rd rn : Instr L).exec s = s.set rd (s.get rn).clz := by
  rw [Instr.clz, Instr.exec_dp, State.getW_x]
  exact State.setW_x _ _ _

theorem exec_shiftVX (op : Shift) : (Instr.shiftV op .x rd rn rm : Instr L).exec s =
    s.set rd (op.eval (s.get rn) ((s.get rm).toNat % 64)) := by
  rw [Instr.shiftV, Instr.exec_dp, State.getW_x, State.getW_x]
  exact State.setW_x _ _ _

theorem exec_sxtX : (Instr.sxt k .x rd rn : Instr L).exec s =
    s.set rd (((s.get rn).setWidth k).signExtend 64) := State.setW_x _ _ _

theorem exec_ubfxX (w : ℕ) : (Instr.ubfx .x rd rn k w : Instr L).exec s =
    s.set rd (((s.get rn).extractLsb' k w).setWidth 64) :=
  (State.setW_x _ _ _).trans (congrArg (fun a : BitVec 64 => s.set rd ((a.extractLsb' k w).setWidth 64))
    (State.getW_x _ _))

theorem exec_mrsNzcv : (Instr.mrsNzcv rd : Instr L).exec s = s.set rd s.flags.pack := rfl

theorem exec_msrNzcv : (Instr.msrNzcv rn : Instr L).exec s = s.setFlags (Nzcv.unpack (s.get rn)) := rfl

theorem exec_csetX (c : Cond) : (Instr.cset .x rd c : Instr L).exec s =
    s.set rd (if c.holds s.flags then 1 else 0) := State.setW_x _ _ _

theorem exec_cmpX : (Instr.cmp .x rn (.reg rm 0) : Instr L).exec s =
    s.setFlags (subNzcv (s.get rn) (s.get rm) false) := by
  rw [exec_cmp, eval_reg, State.getW_x, State.getW_x]
  rfl

theorem exec_cmpXImm : (Instr.cmp .x rn (.imm v) : Instr L).exec s =
    s.setFlags (subNzcv (s.get rn) v false) := by
  rw [exec_cmp, eval_imm, State.getW_x]
  exact congrArg (fun a : BitVec 64 => s.setFlags (subNzcv (s.get rn) a false))
    (BitVec.setWidth_eq v)

/-! The 32-bit forms, on the 64-bit registers. -/

theorem setWidth_low (a : BitVec 32) : (a.setWidth 64).setWidth 32 = a :=
  (BitVec.setWidth_setWidth_of_le _ (by decide)).trans (BitVec.setWidth_eq _)

theorem exec_movW32 : (Instr.movImm .w rd v : Instr L).exec s = s.set rd ((v.setWidth 32).setWidth 64) := rfl

theorem exec_subW32 : (Instr.addSub .sub false .w rd rn (.reg rm 0) : Instr L).exec s =
    s.set rd (((s.get rn).setWidth 32 - (s.get rm).setWidth 32).setWidth 64) := by
  rw [exec_subW, eval_reg]
  rfl

theorem exec_andW32 : (Instr.logic .and false .w rd rn (.imm v) : Instr L).exec s =
    s.set rd (((s.get rn).setWidth 32 &&& v.setWidth 32).setWidth 64) := exec_logicW ..

theorem exec_cmpW32 : (Instr.cmp .w rn (.reg rm 0) : Instr L).exec s =
    s.setFlags (subNzcv ((s.get rn).setWidth 32) ((s.get rm).setWidth 32) false) := by
  rw [exec_cmp, eval_reg]
  rfl

end Wide

namespace Instr

/-! ### code that sets registers only -/

/-- An instruction that sets one of some registers, and nothing else. -/
def Sets (rds : List XReg) (i : Instr L) : Prop := ∀ s : State, ∃ rd ∈ rds, ∃ v, i.exec s = s.set rd v

variable {rds : List XReg} {rd rn : XReg}

theorem sets_setW {i : Instr L} (hrd : rd ∈ rds) {sf : Width} {g : State → BitVec sf.bits}
    (h : ∀ s, i.exec s = s.setW sf rd (g s)) : i.Sets rds :=
  fun s => ⟨rd, hrd, _, h s⟩

@[simp] theorem sets_dp (hrd : rd ∈ rds) {ws wd : Width} {rm ra : XReg}
    {f : Nzcv → BitVec ws.bits → BitVec ws.bits → BitVec ws.bits → BitVec wd.bits} :
    (Instr.dp ws wd rd rn rm ra f : Instr L).Sets rds :=
  sets_setW hrd fun s => exec_dp ws wd rd rn rm ra f s

@[simp] theorem sets_mvn (hrd : rd ∈ rds) {sf : Width} : (Instr.mvn sf rd rn : Instr L).Sets rds :=
  sets_setW hrd fun s => exec_mvnW sf rd rn s

@[simp] theorem sets_sxt (hrd : rd ∈ rds) {k : ℕ} {sf : Width} : (Instr.sxt k sf rd rn : Instr L).Sets rds :=
  sets_setW hrd fun s => exec_sxtW k sf rd rn s

@[simp] theorem sets_shift (hrd : rd ∈ rds) {op : Shift} {sf : Width} {k : ℕ} :
    (Instr.shift op sf rd rn k : Instr L).Sets rds :=
  sets_setW hrd fun s => exec_shiftW op sf rd rn k s

@[simp] theorem sets_logic (hrd : rd ∈ rds) {op : Logic} {sf : Width} {o : Op2} :
    (Instr.logic op false sf rd rn o : Instr L).Sets rds :=
  sets_setW hrd fun s => exec_logicW op sf rd rn o s

@[simp] theorem sets_sub (hrd : rd ∈ rds) {sf : Width} {o : Op2} :
    (Instr.addSub .sub false sf rd rn o : Instr L).Sets rds :=
  sets_setW hrd fun s => exec_subW sf rd rn o s

/-- **Code that sets registers only** leaves the flags, the memory and the other registers. -/
theorem execs_sets {is : List (Instr L)} (h : ∀ i ∈ is, i.Sets rds) (s : State) :
    (execs is s).flags = s.flags ∧ (execs is s).mem = s.mem ∧ (execs is s).sp = s.sp ∧
      ∀ q, q ∉ rds → (execs is s).get q = s.get q := by
  induction is generalizing s with
  | nil => exact ⟨rfl, rfl, rfl, fun _ _ => rfl⟩
  | cons i is ih =>
      obtain ⟨rd, hrd, v, hexec⟩ := h i List.mem_cons_self s
      obtain ⟨hflags, hmem, hsp, hget⟩ := ih (fun j hj => h j (List.mem_cons_of_mem i hj)) (i.exec s)
      rw [hexec, State.set_flags] at hflags
      rw [hexec, State.set_mem] at hmem
      rw [hexec, State.set_sp] at hsp
      refine ⟨?_, ?_, ?_, fun q hq => ?_⟩
      · rw [execs_cons, hexec, hflags]
      · rw [execs_cons, hexec, hmem]
      · rw [execs_cons, hexec, hsp]
      · have hne : q ≠ rd := fun heq => hq (heq ▸ hrd)
        rw [execs_cons, hget q hq, hexec, State.get_set_ne hne]

end Instr

end PS4Recomp.Arm64
