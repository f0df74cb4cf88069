import PS4Recomp.Lifter.Division

/-!
# The time stamp counter

The lowering of `RDTSC`, and `recomp_rdtsc` of the runtime.

* `scaleCount`, `scaleCount_eq` — a count in other units without a double-width product;
* `liftRdtsc` — the code, for the values `cntvct_el0` and `cntfrq_el0` that it reads;
* `recompRdtsc` — what `sceKernelReadTsc` returns for the same values;
* **`rdtsc_scales`** — both are `floor(v * F / frq)` modulo `2^64`, and where `v` grows the counter only
  falls by wrapping.
-/

namespace PS4Recomp.Lifter

open X86 Arm64 Library

/-! ### units -/

/-- `v * f / frq` in two parts. -/
def scaleCount (v frq f : ℕ) : ℕ := v / frq * f + v % frq * f / frq

theorem scaleCount_eq {v frq f : ℕ} (hfrq : 0 < frq) : scaleCount v frq f = v * f / frq := by
  have hsplit : v * f = v % frq * f + v / frq * f * frq := by
    calc v * f = (v % frq + frq * (v / frq)) * f := by rw [Nat.mod_add_div]
      _ = v % frq * f + v / frq * f * frq := by ring
  rw [scaleCount, hsplit, Nat.add_mul_div_right _ _ hfrq, Nat.add_comm]

/-! ### the code -/

/-- `guestTscFreq`, `RECOMP_TSC_FREQ`. -/
def guestTscFreq : BitVec 64 := 2130000000

/-- `mrs rd, s` for a system register that holds `v`. -/
def mrsSystem (rd : XReg) (v : BitVec 64) : Instr Label := .dp .x .x rd 31 31 31 fun _ _ _ _ => v

/-- `liftRdtsc`, where `cntvct_el0` holds `v` and `cntfrq_el0` holds `frq`. -/
def liftRdtsc (v frq : BitVec 64) : Asm :=
  [mrsSystem 16 v, mrsSystem 17 frq, .udiv .x 0 16 17, .msub .x 1 0 17 16] ++ loadImm64 2 guestTscFreq ++
    [.mul .x 0 0 2, .mul .x 1 1 2, .udiv .x 1 1 17, .addSub .add false .x 16 0 (.reg 1 0), .mov .w 19 16,
      .shift .lsr .x 16 16 32, .mov .w 22 16]

/-- `recomp_rdtsc` on ARM64. -/
def recompRdtsc (v frq : BitVec 64) : BitVec 64 :=
  if frq = 0 then v else ((v.setWidth 128 * guestTscFreq.setWidth 128) / frq.setWidth 128).setWidth 64

/-- What the code leaves in `x16` before it is cut. -/
def tscWord (v frq : BitVec 64) : BitVec 64 :=
  v / frq * guestTscFreq + (v - v / frq * frq) * guestTscFreq / frq

/-! ### values -/

theorem recompRdtsc_toNat {v frq : BitVec 64} (hfrq : 0 < frq.toNat) :
    (recompRdtsc v frq).toNat = v.toNat * guestTscFreq.toNat / frq.toNat % 2 ^ 64 := by
  have hne : frq ≠ 0 := by
    rintro rfl
    exact absurd hfrq (by decide)
  have hv := v.isLt
  have hf := frq.isLt
  have hF : guestTscFreq.toNat = 2130000000 := rfl
  have hprod : v.toNat * guestTscFreq.toNat < 2 ^ 128 := by
    rw [hF]
    omega
  rw [recompRdtsc, if_neg hne, BitVec.toNat_setWidth, BitVec.toNat_udiv, BitVec.toNat_mul,
    BitVec.toNat_setWidth, BitVec.toNat_setWidth, BitVec.toNat_setWidth,
    Nat.mod_eq_of_lt (by omega : v.toNat < 2 ^ 128), Nat.mod_eq_of_lt (by omega : frq.toNat < 2 ^ 128),
    Nat.mod_eq_of_lt (by rw [hF]; decide : guestTscFreq.toNat < 2 ^ 128), Nat.mod_eq_of_lt hprod]

/-- No step but the last product and the last sum wraps. -/
theorem tscWord_toNat {v frq : BitVec 64} (hfrq : 0 < frq.toNat)
    (hfit : frq.toNat * guestTscFreq.toNat < 2 ^ 64) :
    (tscWord v frq).toNat = v.toNat * guestTscFreq.toNat / frq.toNat % 2 ^ 64 := by
  have hrest : (v - v / frq * frq).toNat = v.toNat % frq.toNat := by
    have hle : v.toNat / frq.toNat * frq.toNat ≤ v.toNat := Nat.div_mul_le_self _ _
    have hv := v.isLt
    have hprod : (v / frq * frq).toNat = v.toNat / frq.toNat * frq.toNat := by
      rw [BitVec.toNat_mul, BitVec.toNat_udiv, Nat.mod_eq_of_lt (by omega)]
    have hsub : v / frq * frq ≤ v := by
      rw [BitVec.le_def, hprod]
      exact hle
    have hmod := Nat.mod_add_div' v.toNat frq.toNat
    rw [BitVec.toNat_sub_of_le hsub, hprod]
    omega
  have hlt : v.toNat % frq.toNat < frq.toNat := Nat.mod_lt _ hfrq
  have hsmall : v.toNat % frq.toNat * guestTscFreq.toNat < 2 ^ 64 :=
    Nat.lt_of_le_of_lt (Nat.mul_le_mul_right _ hlt.le) hfit
  have hpart : ((v - v / frq * frq) * guestTscFreq / frq).toNat =
      v.toNat % frq.toNat * guestTscFreq.toNat / frq.toNat := by
    rw [BitVec.toNat_udiv, BitVec.toNat_mul, hrest, Nat.mod_eq_of_lt hsmall]
  rw [← scaleCount_eq hfrq, scaleCount, tscWord, BitVec.toNat_add, hpart, BitVec.toNat_mul, BitVec.toNat_udiv,
    Nat.mod_add_mod]

theorem tscWord_eq {v frq : BitVec 64} (hfrq : 0 < frq.toNat)
    (hfit : frq.toNat * guestTscFreq.toNat < 2 ^ 64) : tscWord v frq = recompRdtsc v frq := by
  apply BitVec.eq_of_toNat_eq
  rw [tscWord_toNat hfrq hfit, recompRdtsc_toNat hfrq]

/-! ### runs -/

section Runs

variable {c : Cpu} {s : State}

theorem setW_x (s : State) (r : XReg) (v : BitVec 64) : s.setW .x r v = s.set r v :=
  congrArg (s.set r) (BitVec.setWidth_eq v)

theorem getW_x (s : State) (r : XReg) : s.getW .x r = s.get r := BitVec.setWidth_eq _

theorem exec_mrsSystem (rd : XReg) (v : BitVec 64) (s : State) :
    (mrsSystem rd v).exec s = s.set rd v := setW_x s rd v

theorem exec_udivX (rd rn rm : XReg) (s : State) :
    (Instr.udiv .x rd rn rm : Instr Label).exec s = s.set rd (s.get rn / s.get rm) := by
  rw [Instr.udiv, Instr.exec_dp, getW_x, getW_x]
  exact setW_x _ _ _

theorem exec_msubX (rd rn rm ra : XReg) (s : State) :
    (Instr.msub .x rd rn rm ra : Instr Label).exec s = s.set rd (s.get ra - s.get rn * s.get rm) := by
  rw [Instr.msub, Instr.exec_dp, getW_x, getW_x, getW_x]
  exact setW_x _ _ _

theorem exec_mulX (rd rn rm : XReg) (s : State) :
    (Instr.mul .x rd rn rm : Instr Label).exec s = s.set rd (s.get rn * s.get rm) := by
  rw [Instr.mul, Instr.exec_dp, getW_x, getW_x]
  exact setW_x _ _ _

theorem exec_lsrX (rd rn : XReg) (k : ℕ) (s : State) :
    (Instr.shift .lsr .x rd rn k : Instr Label).exec s = s.set rd (s.get rn >>> k) := by
  rw [exec_shiftW, getW_x]
  exact setW_x _ _ _

theorem tscWord_piece (v frq f : BitVec 64) (hrep : Rep c s) :
    ∃ s', Piece ([mrsSystem 16 v, mrsSystem 17 frq, .udiv .x 0 16 17, .msub .x 1 0 17 16] ++
        loadImm64 2 f ++ [.mul .x 0 0 2, .mul .x 1 1 2, .udiv .x 1 1 17,
          .addSub .add false .x 16 0 (.reg 1 0)]) s s' ∧
      Rep c s' ∧ s'.get 16 = v / frq * f + (v - v / frq * frq) * f / frq ∧ s'.flags = s.flags := by
  have hplain : ∀ i ∈ ([mrsSystem 16 v, mrsSystem 17 frq, .udiv .x 0 16 17, .msub .x 1 0 17 16] : Asm) ++
      loadImm64 2 f ++ [.mul .x 0 0 2, .mul .x 1 1 2, .udiv .x 1 1 17,
        .addSub .add false .x 16 0 (.reg 1 0)], i.plain = true := by
    intro i hi
    rcases List.mem_append.1 hi with hi | hi
    · rcases List.mem_append.1 hi with hi | hi
      · simp only [List.mem_cons, List.not_mem_nil, or_false] at hi
        rcases hi with rfl | rfl | rfl | rfl <;> rfl
      · exact plain_loadImm64 _ _ i hi
    · simp only [List.mem_cons, List.not_mem_nil, or_false] at hi
      rcases hi with rfl | rfl | rfl | rfl <;> rfl
  refine ⟨_, Piece.of_plain hplain s, ?_, ?_, ?_⟩
  · simp only [execs_append, execs_cons, execs_nil, exec_mrsSystem, exec_udivX, exec_msubX, exec_mulX,
      execs_loadImm64 (by decide : (2 : XReg) ≠ 31), exec_addX]
    repeat refine Rep.set_scratch ?_ (by decide) _
    exact hrep
  · simp (disch := decide) only [execs_append, execs_cons, execs_nil, exec_mrsSystem, exec_udivX, exec_msubX,
      exec_mulX, execs_loadImm64, exec_addX, State.get_set_self, State.get_set_ne]
  · simp only [execs_append, execs_cons, execs_nil, exec_mrsSystem, exec_udivX, exec_msubX, exec_mulX,
      execs_loadImm64 (by decide : (2 : XReg) ≠ 31), exec_addX, State.set_flags]

theorem tscHalves_piece {x : BitVec 64} (hrep : Rep c s) (h16 : s.get 16 = x) :
    ∃ s', Piece [.mov .w 19 16, .shift .lsr .x 16 16 32, .mov .w 22 16] s s' ∧
      Rep (c.putWide .l (x.setWidth 32) (x.extractLsb' 32 32)) s' ∧ s'.flags = s.flags := by
  have hlow : (Instr.mov .w 19 16 : Instr Label).exec s = s.set 19 ((x.setWidth 32).setWidth 64) := by
    rw [← h16]
    rfl
  refine ⟨_, Piece.cons rfl (Piece.cons rfl (Piece.one rfl _)), ?_, ?_⟩
  · rw [hlow, exec_lsrX, State.get_set_ne (by decide), h16]
    have hhigh : (Instr.mov .w 22 16 : Instr Label).exec ((s.set 19 ((x.setWidth 32).setWidth 64)).set 16
        (x >>> 32)) = ((s.set 19 ((x.setWidth 32).setWidth 64)).set 16 (x >>> 32)).set 22
          ((x.extractLsb' 32 32).setWidth 64) := by
      show State.set _ 22 (((State.get _ 16).setWidth 32).setWidth 64) = _
      rw [State.get_set_self (by decide)]
      rfl
    rw [hhigh]
    have h16s : (16 : XReg) ∈ scratch := by decide
    exact ((hrep.write .rax _).set_scratch h16s _).write .rdx _
  · rw [hlow, exec_lsrX]
    show (State.set _ 22 _).flags = _
    rw [State.set_flags, State.set_flags, State.set_flags]

/-- **The time stamp counter.**  Where the frequency of the host counter, in units of the guest's, fits
in 64 bits, `RDTSC` leaves in `EDX:EAX` what `recomp_rdtsc` returns, `floor(v * F / frq)` modulo `2^64`,
and keeps the flags and everything else; a later host count gives no smaller counter, unless it wrapped
in between. -/
theorem rdtsc_scales (v frq : BitVec 64) (hfrq : 0 < frq.toNat)
    (hfit : frq.toNat * guestTscFreq.toNat < 2 ^ 64) :
    (recompRdtsc v frq).toNat = v.toNat * guestTscFreq.toNat / frq.toNat % 2 ^ 64 ∧
      (∀ c s, Rep c s → ∃ s', Ends (asm (liftRdtsc v frq)) s s' ∧
        Rep (c.putWide .l ((recompRdtsc v frq).setWidth 32) ((recompRdtsc v frq).extractLsb' 32 32)) s' ∧
        s'.flags = s.flags) ∧
      ∀ v' : BitVec 64, v ≤ v' → (recompRdtsc v frq).toNat ≤ (recompRdtsc v' frq).toNat ∨
        v.toNat * guestTscFreq.toNat / frq.toNat / 2 ^ 64 <
          v'.toNat * guestTscFreq.toNat / frq.toNat / 2 ^ 64 := by
  refine ⟨recompRdtsc_toNat hfrq, fun c s hrep => ?_, fun v' hle => ?_⟩
  · obtain ⟨s₁, hp₁, hrep₁, h16, hfl₁⟩ := tscWord_piece v frq guestTscFreq hrep
    have hword : s₁.get 16 = recompRdtsc v frq := by
      rw [h16, ← tscWord_eq hfrq hfit, tscWord]
    obtain ⟨s₂, hp₂, hrep₂, hfl₂⟩ := tscHalves_piece hrep₁ hword
    have hcode := hp₁.append hp₂
    rw [List.append_assoc] at hcode
    exact ⟨s₂, hcode.runs, hrep₂, hfl₂.trans hfl₁⟩
  · have hmono : v.toNat * guestTscFreq.toNat / frq.toNat ≤ v'.toNat * guestTscFreq.toNat / frq.toNat :=
      Nat.div_le_div_right (Nat.mul_le_mul_right _ hle)
    rw [recompRdtsc_toNat hfrq, recompRdtsc_toNat hfrq]
    generalize v.toNat * guestTscFreq.toNat / frq.toNat = a at hmono ⊢
    generalize v'.toNat * guestTscFreq.toNat / frq.toNat = b at hmono ⊢
    omega

end Runs

/-- A counter at 24 MHz after 90 seconds, where the product exceeds 64 bits. -/
theorem rdtsc_scales_minutes :
    0 < (24000000 : BitVec 64).toNat ∧
      (recompRdtsc 2160000000000 24000000).toNat = 2160000000000 * 2130000000 / 24000000 % 2 ^ 64 :=
  ⟨by decide, (rdtsc_scales 2160000000000 24000000 (by decide) (by decide)).1⟩

end PS4Recomp.Lifter
