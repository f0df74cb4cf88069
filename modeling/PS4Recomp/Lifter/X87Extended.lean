import PS4Recomp.Arm64.Float
import PS4Recomp.Library.BitCount
import PS4Recomp.Library.Words

/-!
# The 80-bit values of the x87

`x87LoadM80` and `x87StoreM80`, which convert between the ten bytes of an extended value and a double.

* `load_run` — the load leaves `loadBits`, by one lemma for each label of its code;
* `store_run` — the store leaves the bytes of `storeBits`.

Both keep NZCV in `x7`.
-/

namespace PS4Recomp.Lifter

open Library Arm64

/-! ### the code -/

/-- `x87LoadM80`: the value at the host address `x1` to `d28`. -/
def x87LoadM80 : FpCode :=
  [op (.mrsNzcv 7),
    .ins (.ldrAt 64 2 1 0), -- significand
    .ins (.ldrAt 16 3 1 8), -- sign and exponent
    op (.logic .and false .w 4 3 (.imm 0x7fff)),
    op (.logic .and false .x 3 3 (.imm 0x8000)),
    op (.shift .lsl .x 3 3 48),
    op (.movImm .w 6 0x7fff),
    op (.cmp .w 4 (.reg 6 0)),
    op (.bCond .eq 3),
    .ins (.cbz .w 4 1),
    op (.tbz 2 63 4), -- unnormal
    op (.b 2),
    .label 1,
    .ins (.cbz .x 2 5), -- +-0
    op (.movImm .w 4 1), -- denormals and pseudo-denormals use exponent 1
    .label 2,
    op (.clz .x 6 2),
    op (.shiftV .lsl .x 2 2 6),
    op (.mov .x 0 2), -- normalized significand, for the denormal path
    op (.addSub .sub false .w 4 4 (.reg 6 0)),
    .ins (.ucvtf .d .x 28 2),
    .ins (.fmovOut .d 2 28),
    op (.movImm .w 6 16446),
    op (.addSub .sub false .w 4 4 (.reg 6 0)),
    op (.sxt 32 .x 4 4),
    op (.addSub .add false .x 6 4 (.imm 1086)),
    op (.cmp .x 6 (.imm 2047)),
    op (.bCond .ge 6),
    op (.cmp .x 6 (.imm 0)),
    op (.bCond .le 7),
    op (.addSub .add false .x 2 2 (.reg 4 52)),
    op (.b 8),
    .label 7, -- denormal result: significand x0 >> s, rounded to nearest even
    op (.movImm .x 6 (-1074)),
    op (.addSub .sub false .x 6 6 (.reg 4 0)),
    op (.cmp .x 6 (.imm 64)),
    op (.bCond .gt 5), -- below half the smallest denormal: +-0
    op (.bCond .eq 10),
    op (.shiftV .lsr .x 2 0 6),
    op (.neg false .x 4 6),
    op (.shiftV .lsl .x 6 0 4), -- the bits shifted out, left-aligned
    op (.tbz 6 63 8), -- below half: truncate
    op (.shift .lsl .x 6 6 1),
    .ins (.cbnz .x 6 11), -- above half
    op (.tbz 2 0 8), -- tie: to even
    .label 11,
    op (.addSub .add false .x 2 2 (.imm 1)), -- may carry into the smallest normal
    op (.b 8),
    .label 10, -- s = 64: half the smallest denormal or more
    op (.shift .lsl .x 6 0 1),
    op (.cmp .x 6 (.imm 0)),
    op (.cset .x 2 .ne),
    op (.b 8),
    .label 3,
    op (.tbz 2 63 4), -- pseudo-infinity / pseudo-NaN
    op (.shift .lsl .x 6 2 1),
    .ins (.cbz .x 6 6), -- infinity
    op (.shift .lsr .x 6 6 12),
    op (.logic .orr false .x 2 6 (.imm 0x7ff8000000000000)), -- quiet
    op (.b 8),
    .label 6,
    op (.movImm .x 2 0x7ff0000000000000),
    op (.b 8),
    .label 4,
    op (.movImm .x 2 0xfff8000000000000), -- real indefinite
    op (.movImm .x 3 0),
    op (.b 8),
    .label 5,
    op (.movImm .x 2 0),
    .label 8,
    op (.logic .orr false .x 2 2 (.reg 3 0)),
    .ins (.fmovIn .d 28 2),
    op (.msrNzcv 7)]

/-- `x87StoreM80`: `d28` to the host address `x1`. -/
def x87StoreM80 : FpCode :=
  [op (.mrsNzcv 7),
    .ins (.fmovOut .d 2 28),
    op (.shift .lsr .x 3 2 63),
    op (.shift .lsl .x 3 3 15), -- sign in bit 15 of the exponent word
    op (.ubfx .x 4 2 52 11), -- double exponent field
    op (.logic .and false .x 6 2 (.imm 0xfffffffffffff)),
    .ins (.cbz .x 4 1),
    op (.movImm .x 0 0x7ff),
    op (.cmp .x 4 (.reg 0 0)),
    op (.bCond .eq 2),
    op (.movImm .x 0 15360), -- 16383 - 1023
    op (.addSub .add false .x 4 4 (.reg 0 0)),
    op (.shift .lsl .x 6 6 11),
    op (.logic .orr false .x 6 6 (.imm 0x8000000000000000)),
    op (.b 4),
    .label 1,
    .ins (.cbz .x 6 4), -- +-0
    op (.clz .x 0 6), -- denormal: normalize the fraction
    op (.shiftV .lsl .x 6 6 0),
    op (.movImm .x 4 15372), -- 16383 - 1074 + 63
    op (.addSub .sub false .x 4 4 (.reg 0 0)),
    op (.b 4),
    .label 2,
    op (.movImm .x 4 0x7fff), -- infinity or NaN
    .ins (.cbz .x 6 3),
    op (.logic .orr false .x 6 6 (.imm 0x0008000000000000)), -- NaN: quiet
    .label 3,
    op (.shift .lsl .x 6 6 11),
    op (.logic .orr false .x 6 6 (.imm 0x8000000000000000)),
    .label 4,
    op (.logic .orr false .x 4 4 (.reg 3 0)),
    .ins (.strAt 64 6 1 0),
    .ins (.strAt 16 4 1 8),
    op (.msrNzcv 7)]

/-! ### runs of the load -/

/-- A double in `d28`, and the flags. -/
def Gives (r : BitVec 64) (fl : Nzcv) (s : FpState) : Prop := s.getF .d 28 = r ∧ s.core.flags = fl

section Load

variable {s : FpState} {sg m : BitVec 64} {fl : Nzcv}

theorem load_finish {v : BitVec 64} (h2 : s.core.get 2 = v) (h3 : s.core.get 3 = sg)
    (h7 : s.core.get 7 = fl.pack) : fpMachine.Leads x87LoadM80 70 s (Gives (v ||| sg) fl) := by
  refine leads_finish (b := [.core (.logic .orr false .x 2 2 (.reg 3 0)), .fmovIn .d 28 2, .core (.msrNzcv 7)])
    rfl (by decide) ⟨?_, ?_⟩
  · simp -implicitDefEqProofs (disch := decide) only [fexecs_cons, fexecs_nil, core_exec_core, getF_exec_core,
      getF_exec_fmovIn, exec_logicX, State.get_set_self, h2, h3]
    exact BitVec.setWidth_eq _
  · simp -implicitDefEqProofs (disch := decide) only [fexecs_cons, fexecs_nil, core_exec_core, core_exec_fmovIn,
      exec_logicX, exec_msrNzcv, State.flags_setFlags, State.get_set_ne, h7, Nzcv.unpack_pack]

theorem load_zero (h3 : s.core.get 3 = sg) (h7 : s.core.get 7 = fl.pack) :
    fpMachine.Leads x87LoadM80 68 s (Gives sg fl) := by
  refine leads_core (b := [.movImm .x 2 0]) (m := 69) rfl (by decide) (.label (m := 70) rfl ?_)
  rw [← BitVec.zero_or (x := sg)]
  refine load_finish ?_ ?_ ?_
  all_goals simp -implicitDefEqProofs (disch := decide) only [execs_cons, execs_nil, exec_movXImm,
    State.get_set_self, State.get_set_ne, h3, h7]
  rfl

theorem load_infinity (h3 : s.core.get 3 = sg) (h7 : s.core.get 7 = fl.pack) :
    fpMachine.Leads x87LoadM80 61 s (Gives (0x7ff0000000000000 ||| sg) fl) := by
  refine leads_core (b := [.movImm .x 2 0x7ff0000000000000]) (m := 62) rfl (by decide)
    (leads_b (m := 63) (j := 70) rfl rfl (load_finish ?_ ?_ ?_))
  all_goals simp -implicitDefEqProofs (disch := decide) only [execs_cons, execs_nil, exec_movXImm,
    State.get_set_self, State.get_set_ne, h3, h7]

theorem load_indefinite (h7 : s.core.get 7 = fl.pack) :
    fpMachine.Leads x87LoadM80 64 s (Gives 0xfff8000000000000 fl) := by
  refine leads_core (b := [.movImm .x 2 0xfff8000000000000, .movImm .x 3 0]) (m := 66) rfl (by decide)
    (leads_b (m := 67) (j := 70) rfl rfl ?_)
  refine @load_finish _ 0 _ 0xfff8000000000000 ?_ ?_ ?_
  all_goals simp -implicitDefEqProofs (disch := decide) only [execs_cons, execs_nil, exec_movXImm,
    State.get_set_self, State.get_set_ne, h7]

theorem load_increment {v : BitVec 64} (h2 : s.core.get 2 = v) (h3 : s.core.get 3 = sg)
    (h7 : s.core.get 7 = fl.pack) : fpMachine.Leads x87LoadM80 46 s (Gives (v + 1 ||| sg) fl) := by
  refine leads_core (b := [.addSub .add false .x 2 2 (.imm 1)]) (m := 47) rfl (by decide)
    (leads_b (m := 48) (j := 70) rfl rfl (load_finish ?_ ?_ ?_))
  all_goals simp -implicitDefEqProofs (disch := decide) only [execs_cons, execs_nil, exec_addXImm,
    State.get_set_self, State.get_set_ne, h2, h3, h7]

theorem load_half {M : BitVec 64} (h0 : s.core.get 0 = M) (h3 : s.core.get 3 = sg)
    (h7 : s.core.get 7 = fl.pack) :
    fpMachine.Leads x87LoadM80 49 s (Gives ((if M <<< 1 = 0 then 0 else 1) ||| sg) fl) := by
  refine leads_core (b := [.shift .lsl .x 6 0 1, .cmp .x 6 (.imm 0), .cset .x 2 .ne]) (m := 52) rfl (by decide)
    (leads_b (m := 53) (j := 70) rfl rfl (load_finish ?_ ?_ ?_))
  · have hne : Cond.holds .ne (subNzcv (M <<< 1) 0 false) = !decide (M <<< 1 = 0) :=
      congrArg (!·) (eq_subNzcv (M <<< 1) 0)
    simp -implicitDefEqProofs (disch := decide) only [execs_cons, execs_nil, exec_shiftX, exec_cmpXImm,
      exec_csetX, State.get_set_self, State.flags_setFlags, Shift.eval, h0, hne]
    by_cases hz : M <<< 1 = 0
    · rw [decide_eq_true hz, if_pos hz]
      rfl
    · rw [decide_eq_false hz, if_neg hz]
      rfl
  all_goals simp -implicitDefEqProofs (disch := decide) only [execs_cons, execs_nil, exec_shiftX, exec_cmpXImm,
    exec_csetX, State.get_set_ne, State.get_setFlags, State.flags_setFlags, h3, h7]

theorem load_special (h2 : s.core.get 2 = m) (h3 : s.core.get 3 = sg) (h7 : s.core.get 7 = fl.pack) :
    fpMachine.Leads x87LoadM80 54 s (Gives (if m.msb = false then 0xfff8000000000000
      else if m <<< 1 = 0 then 0x7ff0000000000000 ||| sg
      else ((m <<< 1) >>> 12 ||| 0x7ff8000000000000) ||| sg) fl) := by
  have hmsb : m.getLsbD 63 = m.msb := (BitVec.msb_eq_getLsbD_last m).symm
  refine leads_tbz (m := 55) (j := 64) rfl rfl (fun h => ?_) fun h => ?_
  · rw [h2, hmsb] at h
    rw [if_pos h]
    exact load_indefinite h7
  · rw [h2, hmsb] at h
    rw [if_neg (by rw [h]; exact Bool.noConfusion)]
    refine leads_core (b := [.shift .lsl .x 6 2 1]) (m := 56) rfl (by decide)
      (leads_cbzX (m := 57) (j := 61) rfl rfl (fun hz => ?_) fun hz => ?_)
    all_goals
      simp -implicitDefEqProofs (disch := decide) only [execs_cons, execs_nil, exec_shiftX, State.get_set_self,
        Shift.eval, h2] at hz
    · rw [if_pos hz]
      refine load_infinity ?_ ?_
      all_goals simp -implicitDefEqProofs (disch := decide) only [execs_cons, execs_nil, exec_shiftX,
        State.get_set_ne, h3, h7]
    · rw [if_neg hz]
      refine leads_core (b := [.shift .lsr .x 6 6 12, .logic .orr false .x 2 6 (.imm 0x7ff8000000000000)])
        (m := 59) rfl (by decide) (leads_b (m := 60) (j := 70) rfl rfl (load_finish ?_ ?_ ?_))
      all_goals simp -implicitDefEqProofs (disch := decide) only [execs_cons, execs_nil, exec_shiftX,
        exec_logicXImm, State.get_set_self, State.get_set_ne, Shift.eval, Logic.eval, h2, h3, h7]

/-- A significand shifted right, rounded to nearest even. -/
def halfEven (M : BitVec 64) (n : ℕ) : BitVec 64 :=
  if 64 < n then 0
  else if n = 64 then if M <<< 1 = 0 then 0 else 1
  else if (M <<< (64 - n)).getLsbD 63 = false then M >>> n
  else if (M <<< (64 - n)) <<< 1 ≠ 0 then M >>> n + 1
  else if (M >>> n).getLsbD 0 = false then M >>> n
  else M >>> n + 1

theorem load_denormal {M x4 : BitVec 64} {n : ℕ} (h0 : s.core.get 0 = M) (h4 : s.core.get 4 = x4)
    (h3 : s.core.get 3 = sg) (h7 : s.core.get 7 = fl.pack) (hn : -1074 - x4 = BitVec.ofNat 64 n)
    (hlo : 0 < n) (hhi : n < 2 ^ 63) :
    fpMachine.Leads x87LoadM80 33 s (Gives (halfEven M n ||| sg) fl) := by
  have hint : (BitVec.ofNat 64 n).toInt = n := by
    rw [← BitVec.ofInt_natCast]
    exact BitVec.toInt_ofInt_eq_self (by decide) (by omega) (by exact_mod_cast hhi)
  have hnat : (BitVec.ofNat 64 n).toNat = n := by
    rw [BitVec.toNat_ofNat, Nat.mod_eq_of_lt (by omega)]
  have hcmp : (64 : BitVec 64).toInt = 64 := by decide
  refine leads_block (b := [.movImm .x 6 (-1074), .addSub .sub false .x 6 6 (.reg 4 0), .cmp .x 6 (.imm 64)])
    (m := 36) (Q := fun t => t.flags = subNzcv (BitVec.ofNat 64 n) 64 false ∧ t.get 6 = BitVec.ofNat 64 n ∧
      ∀ q : XReg, q ≠ 6 → t.get q = s.core.get q) rfl (by decide) ⟨?_, ?_, fun q hq => ?_⟩ ?_
  · simp -implicitDefEqProofs (disch := decide) only [execs_cons, execs_nil, exec_movXImm, exec_subX,
      exec_cmpXImm, State.get_set_self, State.get_set_ne, State.flags_setFlags, h4, hn]
  · simp -implicitDefEqProofs (disch := decide) only [execs_cons, execs_nil, exec_movXImm, exec_subX,
      exec_cmpXImm, State.get_set_self, State.get_set_ne, State.get_setFlags, h4, hn]
  · simp -implicitDefEqProofs (disch := exact hq) only [execs_cons, execs_nil, exec_movXImm, exec_subX,
      exec_cmpXImm, State.get_set_ne, State.get_setFlags]
  rintro t ⟨hflags, h6, hregs⟩
  have h0' := (hregs 0 (by decide)).trans h0
  have h3' := (hregs 3 (by decide)).trans h3
  have h7' := (hregs 7 (by decide)).trans h7
  refine leads_bCond (m := 37) (j := 68) rfl rfl (fun h => ?_) fun h => ?_
  all_goals rw [hflags, gt_subNzcv (by decide), hint, hcmp, decide_eq_true_eq] at h
  · rw [halfEven, if_pos (by omega), BitVec.ofNat_eq_ofNat, BitVec.zero_or]
    exact load_zero h3' h7'
  refine leads_bCond (m := 38) (j := 49) rfl rfl (fun he => ?_) fun he => ?_
  all_goals rw [hflags, eq_subNzcv, decide_eq_true_eq] at he
  · have heq : n = 64 := by
      rw [← hnat, he]
      rfl
    rw [halfEven, if_neg (by omega), if_pos heq]
    exact load_half h0' h3' h7'
  have hne : n ≠ 64 := by
    rintro rfl
    exact he rfl
  rw [halfEven, if_neg (by omega), if_neg hne]
  have hshift : (-BitVec.ofNat 64 n).toNat % 64 = 64 - n := by
    rw [BitVec.toNat_neg, hnat]
    omega
  have hn64 : n % 64 = n := Nat.mod_eq_of_lt (by omega)
  -- the bits that are shifted out decide
  refine leads_block (b := [.shiftV .lsr .x 2 0 6, .neg false .x 4 6, .shiftV .lsl .x 6 0 4])
    (m := 41) (Q := fun t => t.get 2 = M >>> n ∧ t.get 6 = M <<< (64 - n) ∧ t.get 3 = sg ∧
      t.get 7 = fl.pack) rfl (by decide) ⟨?_, ?_, ?_, ?_⟩ ?_
  · simp -implicitDefEqProofs (disch := decide) only [execs_cons, execs_nil, exec_shiftVX, exec_negX,
      Shift.eval, State.get_set_self, State.get_set_ne, h0', h6, hnat, hn64]
  · simp -implicitDefEqProofs (disch := decide) only [execs_cons, execs_nil, exec_shiftVX, exec_negX,
      Shift.eval, State.get_set_self, State.get_set_ne, h0', h6, hshift]
  · simp -implicitDefEqProofs (disch := decide) only [execs_cons, execs_nil, exec_shiftVX, exec_negX,
      State.get_set_ne, h3']
  · simp -implicitDefEqProofs (disch := decide) only [execs_cons, execs_nil, exec_shiftVX, exec_negX,
      State.get_set_ne, h7']
  rintro u ⟨hu2, hu6, hu3, hu7⟩
  refine leads_tbz (m := 42) (j := 70) rfl rfl (fun hb => ?_) fun hb => ?_
  all_goals rw [hu6] at hb
  · rw [if_pos hb]
    exact load_finish hu2 hu3 hu7
  rw [hb, if_neg Bool.noConfusion]
  refine leads_block (b := [.shift .lsl .x 6 6 1]) (m := 43) (Q := fun t => t.get 2 = M >>> n ∧
    t.get 6 = (M <<< (64 - n)) <<< 1 ∧ t.get 3 = sg ∧ t.get 7 = fl.pack) rfl (by decide) ⟨?_, ?_, ?_, ?_⟩ ?_
  · simp -implicitDefEqProofs (disch := decide) only [execs_cons, execs_nil, exec_shiftX, State.get_set_ne, hu2]
  · simp -implicitDefEqProofs (disch := decide) only [execs_cons, execs_nil, exec_shiftX, State.get_set_self,
      Shift.eval, hu6]
  · simp -implicitDefEqProofs (disch := decide) only [execs_cons, execs_nil, exec_shiftX, State.get_set_ne, hu3]
  · simp -implicitDefEqProofs (disch := decide) only [execs_cons, execs_nil, exec_shiftX, State.get_set_ne, hu7]
  rintro w ⟨hw2, hw6, hw3, hw7⟩
  refine leads_cbnzX (m := 44) (j := 46) rfl rfl (fun hz => ?_) fun hz => ?_
  all_goals rw [hw6] at hz
  · rw [if_pos hz]
    exact load_increment hw2 hw3 hw7
  rw [if_neg (not_not.2 hz)]
  refine leads_tbz (m := 45) (j := 70) rfl rfl (fun hodd => ?_) fun hodd => ?_
  all_goals rw [hw2] at hodd
  · rw [if_pos hodd]
    exact load_finish hw2 hw3 hw7
  · rw [hodd, if_neg Bool.noConfusion]
    exact .label (m := 46) rfl (load_increment hw2 hw3 hw7)

theorem exponent_word {e c : ℕ} (he : e ≤ 0x7fff) (hc : c ≤ 63) :
    (BitVec.ofNat 32 e - BitVec.ofNat 32 c - 16446).signExtend 64 = BitVec.ofInt 64 (e - c - 16446) := by
  have hlow : BitVec.ofNat 32 e - BitVec.ofNat 32 c - 16446 = BitVec.ofInt 32 (e - c - 16446) := by
    rw [sub_eq_add_neg (_ - _ : ℤ), sub_eq_add_neg (e : ℤ), BitVec.ofInt_add, BitVec.ofInt_add,
      BitVec.ofInt_neg, BitVec.ofInt_natCast, BitVec.ofInt_natCast, ← sub_eq_add_neg, sub_eq_add_neg]
    rfl
  rw [hlow, ← BitVec.toInt_inj, BitVec.toInt_signExtend_of_le (by decide),
    BitVec.toInt_ofInt_eq_self (by decide) (by omega) (by omega),
    BitVec.toInt_ofInt_eq_self (by decide) (by omega) (by omega)]

/-- The magnitude of the double for a significand and a biased exponent. -/
def numberBits (c : Fpcr) (m : BitVec 64) (e : ℕ) : BitVec 64 :=
  let M := m <<< m.clz.toNat
  let u : BitVec 64 := ucvtfBits .d c M.toNat
  let x : ℤ := e - m.clz.toNat - 16446
  if 2047 ≤ x + 1086 then 0x7ff0000000000000
  else if 0 < x + 1086 then u + BitVec.ofInt 64 x <<< 52
  else halfEven M (-1074 - x).toNat

theorem load_number {e : ℕ} (hm : m ≠ 0) (he : e ≤ 0x7fff) (h2 : s.core.get 2 = m)
    (h4 : (s.core.get 4).setWidth 32 = BitVec.ofNat 32 e) (h3 : s.core.get 3 = sg)
    (h7 : s.core.get 7 = fl.pack) :
    fpMachine.Leads x87LoadM80 16 s (Gives (numberBits s.fpcr m e ||| sg) fl) := by
  have hclz : m.clz.toNat ≤ 63 := by
    rw [BitCount.clz_toNat hm]
    omega
  have hmod : m.clz.toNat % 64 = m.clz.toNat := Nat.mod_eq_of_lt (by omega)
  have hword : (BitVec.ofNat 32 e - m.clz.setWidth 32 - (16446 : BitVec 64).setWidth 32).signExtend 64 =
      BitVec.ofInt 64 (e - m.clz.toNat - 16446) := by
    rw [← exponent_word he hclz, BitVec.ofNat_toNat]
    rfl
  obtain ⟨M, hM⟩ : ∃ M, M = m <<< m.clz.toNat := ⟨_, rfl⟩
  obtain ⟨u, hu⟩ : ∃ u : BitVec 64, u = ucvtfBits .d s.fpcr M.toNat := ⟨_, rfl⟩
  obtain ⟨x, hx⟩ : ∃ x : ℤ, x = e - m.clz.toNat - 16446 := ⟨_, rfl⟩
  have hbits : numberBits s.fpcr m e = if 2047 ≤ x + 1086 then (0x7ff0000000000000 : BitVec 64)
      else if 0 < x + 1086 then u + BitVec.ofInt 64 x <<< 52 else halfEven M (-1074 - x).toNat := by
    rw [hu, hM, hx]
    rfl
  have hsum : BitVec.ofInt 64 x + 1086 = BitVec.ofInt 64 (x + 1086) := (BitVec.ofInt_add x 1086).symm
  have hint : (BitVec.ofInt 64 (x + 1086)).toInt = x + 1086 :=
    BitVec.toInt_ofInt_eq_self (by decide) (by omega) (by omega)
  rw [hbits]
  refine leads_fblock (b := [.core (.clz .x 6 2), .core (.shiftV .lsl .x 2 2 6), .core (.mov .x 0 2),
    .core (.addSub .sub false .w 4 4 (.reg 6 0)), .ucvtf .d .x 28 2, .fmovOut .d 2 28,
    .core (.movImm .w 6 16446), .core (.addSub .sub false .w 4 4 (.reg 6 0)), .core (.sxt 32 .x 4 4),
    .core (.addSub .add false .x 6 4 (.imm 1086)), .core (.cmp .x 6 (.imm 2047))]) (m := 27)
    (Q := fun t => t.core.get 0 = M ∧ t.core.get 2 = u ∧ t.core.get 4 = BitVec.ofInt 64 x ∧
      t.core.get 6 = BitVec.ofInt 64 (x + 1086) ∧
      t.core.flags = subNzcv (BitVec.ofInt 64 (x + 1086)) 2047 false ∧ t.core.get 3 = sg ∧
      t.core.get 7 = fl.pack) rfl (by decide) ?_ ?_
  · refine ⟨?_, ?_, ?_, ?_, ?_, ?_, ?_⟩
    all_goals
      simp -implicitDefEqProofs (disch := decide) only [fexecs_cons, fexecs_nil, core_exec_core, core_exec_ucvtf,
        core_exec_fmovOut, getF_exec_ucvtf, exec_clzX, exec_shiftVX, exec_movXReg, exec_subW32, exec_movW32,
        exec_sxtX, exec_addXImm, exec_cmpXImm, Shift.eval, State.getW_x, State.get_set_self, State.get_set_ne,
        State.get_setFlags, State.flags_setFlags, setWidth_low, h2, h3, h4, h7, hmod, hword, ← hx, hsum]
    · exact hM.symm
    · rw [hu, hM]
      exact BitVec.setWidth_eq _
  rintro t ⟨h0', h2', h4', h6', hflags, h3', h7'⟩
  have hcmp : (2047 : BitVec 64).toInt = 2047 := by decide
  refine leads_bCond (m := 28) (j := 61) rfl rfl (fun h => ?_) fun h => ?_
  all_goals rw [hflags, ge_subNzcv (by decide), hint, hcmp, decide_eq_true_eq] at h
  · rw [if_pos h]
    exact load_infinity h3' h7'
  rw [if_neg h]
  refine leads_block (b := [.cmp .x 6 (.imm 0)]) (m := 29) (Q := fun u => u.flags =
    subNzcv (BitVec.ofInt 64 (x + 1086)) 0 false ∧ ∀ q, u.get q = t.core.get q) rfl (by decide) ⟨?_, ?_⟩ ?_
  · simp -implicitDefEqProofs only [execs_cons, execs_nil, exec_cmpXImm, State.flags_setFlags, h6']
  · simp -implicitDefEqProofs only [execs_cons, execs_nil, exec_cmpXImm, State.get_setFlags, implies_true]
  rintro w ⟨hflags', hregs⟩
  refine leads_bCond (m := 30) (j := 33) rfl rfl (fun h' => ?_) fun h' => ?_
  all_goals rw [hflags', le_subNzcv (by decide), hint, BitVec.ofNat_eq_ofNat, BitVec.toInt_zero,
    decide_eq_true_eq] at h'
  · rw [if_neg (by omega)]
    have hneg : (-1074 : BitVec 64) - BitVec.ofInt 64 x = BitVec.ofNat 64 (-1074 - x).toNat := by
      rw [← BitVec.ofInt_natCast, Int.toNat_of_nonneg (by omega), sub_eq_add_neg (-1074 : ℤ), BitVec.ofInt_add,
        BitVec.ofInt_neg (n := x), ← sub_eq_add_neg]
      rfl
    exact load_denormal ((hregs 0).trans h0') ((hregs 4).trans h4') ((hregs 3).trans h3')
      ((hregs 7).trans h7') hneg (by omega) (by omega)
  · rw [if_pos (by omega)]
    refine leads_core (b := [.addSub .add false .x 2 2 (.reg 4 52)]) (m := 31) rfl (by decide)
      (leads_b (m := 32) (j := 70) rfl rfl (load_finish ?_ ?_ ?_))
    all_goals simp -implicitDefEqProofs (disch := decide) only [execs_cons, execs_nil, exec_addXShifted,
      State.get_set_self, State.get_set_ne, hregs, h2', h4', h3', h7']

/-- The sign of the double. -/
def signBits (se : BitVec 16) : BitVec 64 := (se.setWidth 64 &&& 0x8000) <<< 48

/-- What `x87LoadM80` leaves for a significand and the word of sign and exponent. -/
def loadBits (c : Fpcr) (m : BitVec 64) (se : BitVec 16) : BitVec 64 :=
  let e := se.toNat % 2 ^ 15
  if e = 0x7fff then
    if m.msb = false then 0xfff8000000000000
    else if m <<< 1 = 0 then 0x7ff0000000000000 ||| signBits se
    else ((m <<< 1) >>> 12 ||| 0x7ff8000000000000) ||| signBits se
  else if e = 0 then if m = 0 then signBits se else numberBits c m 1 ||| signBits se
  else if m.msb = false then 0xfff8000000000000
  else numberBits c m e ||| signBits se

theorem exponent_field (se : BitVec 16) :
    (se.setWidth 64).setWidth 32 &&& (0x7fff : BitVec 64).setWidth 32 = BitVec.ofNat 32 (se.toNat % 2 ^ 15) := by
  have hlt := se.isLt
  apply BitVec.eq_of_toNat_eq
  have hmask : ((0x7fff : BitVec 64).setWidth 32).toNat = 2 ^ 15 - 1 := by decide
  rw [BitVec.toNat_and, hmask, Nat.and_two_pow_sub_one_eq_mod, BitVec.toNat_setWidth, BitVec.toNat_setWidth,
    BitVec.toNat_ofNat, Nat.mod_eq_of_lt (by omega : se.toNat < 2 ^ 64),
    Nat.mod_eq_of_lt (by omega : se.toNat < 2 ^ 32), Nat.mod_eq_of_lt (by omega : se.toNat % 2 ^ 15 < 2 ^ 32)]

/-- **`x87LoadM80`.** -/
theorem load_run (s : FpState) : fpMachine.Leads x87LoadM80 0 s
    (Gives (loadBits s.fpcr (s.core.mem.load 64 (s.core.get 1 + 0)) (s.core.mem.load 16 (s.core.get 1 + 8)))
      s.core.flags) := by
  generalize hm : s.core.mem.load 64 (s.core.get 1 + 0) = m
  generalize hse : s.core.mem.load 16 (s.core.get 1 + 8) = se
  obtain ⟨e, he⟩ : ∃ e, e = se.toNat % 2 ^ 15 := ⟨_, rfl⟩
  have hfield : (se.setWidth 64).setWidth 32 &&& (0x7fff : BitVec 64).setWidth 32 = BitVec.ofNat 32 e := by
    rw [exponent_field, he]
  have hlt : e < 2 ^ 15 := he ▸ Nat.mod_lt _ (Nat.two_pow_pos _)
  have hnat : (BitVec.ofNat 32 e).toNat = e := by
    rw [BitVec.toNat_ofNat, Nat.mod_eq_of_lt (by omega)]
  refine leads_fblock (b := [.core (.mrsNzcv 7), .ldrAt 64 2 1 0, .ldrAt 16 3 1 8,
    .core (.logic .and false .w 4 3 (.imm 0x7fff)), .core (.logic .and false .x 3 3 (.imm 0x8000)),
    .core (.shift .lsl .x 3 3 48), .core (.movImm .w 6 0x7fff), .core (.cmp .w 4 (.reg 6 0))]) (m := 8)
    (Q := fun t => t.core.get 2 = m ∧ t.core.get 3 = signBits se ∧
      (t.core.get 4).setWidth 32 = BitVec.ofNat 32 e ∧ t.core.get 7 = s.core.flags.pack ∧
      t.core.flags = subNzcv (BitVec.ofNat 32 e) ((0x7fff : BitVec 64).setWidth 32) false ∧ t.fpcr = s.fpcr)
    rfl (by decide) ?_ ?_
  · refine ⟨?_, ?_, ?_, ?_, ?_, rfl⟩
    all_goals
      simp -implicitDefEqProofs (disch := decide) only [fexecs_cons, fexecs_nil, core_exec_core, core_exec_ldrAt,
        exec_mrsNzcv, exec_andW32, exec_logicXImm, exec_shiftX, exec_movW32, exec_cmpW32, State.get_set_self,
        State.get_set_ne, State.get_setFlags, State.flags_setFlags, State.set_mem, hm, hse, setWidth_low, hfield]
    · exact BitVec.setWidth_eq _
    · rfl
  rintro t ⟨h2, h3, h4, h7, hflags, hfpcr⟩
  rw [← hfpcr, loadBits, ← he]
  refine leads_bCond (m := 9) (j := 54) rfl rfl (fun h => ?_) fun h => ?_
  all_goals rw [hflags, eq_subNzcv, decide_eq_true_eq] at h
  · have hspecial : e = 0x7fff := by
      rw [← hnat, h]
      rfl
    rw [if_pos hspecial]
    exact load_special h2 h3 h7
  have hne : e ≠ 0x7fff := by
    intro heq
    exact h (by rw [heq]; rfl)
  rw [if_neg hne]
  have hmsb : m.getLsbD 63 = m.msb := (BitVec.msb_eq_getLsbD_last m).symm
  refine leads_cbz (m := 10) (j := 13) rfl rfl (fun hz => ?_) fun hz => ?_
  · have hword : BitVec.ofNat 32 e = 0 := h4.symm.trans hz
    have hzero : e = 0 := by
      rw [← hnat, hword]
      rfl
    rw [if_pos hzero]
    refine leads_cbzX (m := 14) (j := 68) rfl rfl (fun hm0 => ?_) fun hm0 => ?_
    all_goals rw [h2] at hm0
    · rw [if_pos hm0]
      exact load_zero h3 h7
    · rw [if_neg hm0]
      refine leads_core (b := [.movImm .w 4 1]) (m := 15) rfl (by decide) (.label (m := 16) rfl ?_)
      refine load_number (s := { t with core := _ }) (e := 1) hm0 (by decide) ?_ ?_ ?_ ?_
      all_goals simp -implicitDefEqProofs (disch := decide) only [execs_cons, execs_nil, exec_movW32,
        State.get_set_self, State.get_set_ne, h2, h3, h7]
      decide
  · have hpos : e ≠ 0 := by
      intro heq
      exact hz (h4.trans (by rw [heq]; rfl))
    rw [if_neg hpos]
    refine leads_tbz (m := 11) (j := 64) rfl rfl (fun hbit => ?_) fun hbit => ?_
    all_goals rw [h2, hmsb] at hbit
    · rw [if_pos hbit]
      exact load_indefinite h7
    · have hm0 : m ≠ 0 := by
        rintro rfl
        exact absurd hbit (by decide)
      rw [if_neg (by rw [hbit]; exact Bool.noConfusion)]
      exact leads_b (m := 12) (j := 16) rfl rfl (load_number hm0 (by omega) h2 h4 h3 h7)

end Load

/-! ### runs of the store -/

/-- Ten bytes stored, and the flags. -/
def Stores (mem : ByteMem) (a : BitVec 64) (v : BitVec 64 × BitVec 64) (fl : Nzcv) (s : FpState) : Prop :=
  s.core.mem = (mem.store (a + 0) v.1).store (a + 8) (v.2.setWidth 16) ∧ s.core.flags = fl

/-- What `x87StoreM80` stores but for the sign. -/
def storeFields (d : BitVec 64) : BitVec 64 × BitVec 64 :=
  let e : BitVec 64 := (d.extractLsb' 52 11).setWidth 64
  let f := d &&& 0xfffffffffffff
  if e = 0 then if f = 0 then (0, 0) else (f <<< f.clz.toNat, 15372 - f.clz)
  else if e = 0x7ff then
    (((if f = 0 then f else f ||| 0x0008000000000000) <<< 11) ||| 0x8000000000000000, 0x7fff)
  else ((f <<< 11) ||| 0x8000000000000000, e + 15360)

/-- What `x87StoreM80` stores: the significand, and the word of sign and exponent in the low bits. -/
def storeBits (d : BitVec 64) : BitVec 64 × BitVec 64 :=
  ((storeFields d).1, (storeFields d).2 ||| (d >>> 63) <<< 15)

section Store

variable {s : FpState} {sg f e a : BitVec 64} {mem : ByteMem} {fl : Nzcv}

theorem store_finish (h1 : s.core.get 1 = a) (h3 : s.core.get 3 = sg) (h4 : s.core.get 4 = e)
    (h6 : s.core.get 6 = f) (h7 : s.core.get 7 = fl.pack) (hmem : s.core.mem = mem) :
    fpMachine.Leads x87StoreM80 30 s (Stores mem a (f, e ||| sg) fl) := by
  refine leads_finish (b := [.core (.logic .orr false .x 4 4 (.reg 3 0)), .strAt 64 6 1 0, .strAt 16 4 1 8,
    .core (.msrNzcv 7)]) rfl (by decide) ⟨?_, ?_⟩
  · simp -implicitDefEqProofs (disch := decide) only [fexecs_cons, fexecs_nil, core_exec_core, core_exec_strAt,
      exec_logicX, exec_msrNzcv, State.mem_setFlags, State.get_mem, State.get_set_self, State.get_set_ne,
      State.set_mem, Logic.eval, h1, h3, h4, h6, hmem, BitVec.setWidth_eq]
  · simp -implicitDefEqProofs (disch := decide) only [fexecs_cons, fexecs_nil, core_exec_core, core_exec_strAt,
      exec_logicX, exec_msrNzcv, State.flags_setFlags, State.get_mem, State.get_set_ne, h7, Nzcv.unpack_pack]

/-- The registers of the store once the fields are taken apart. -/
structure Fields (s : FpState) (a sg e f : BitVec 64) (fl : Nzcv) (mem : ByteMem) : Prop where
  x1 : s.core.get 1 = a
  x3 : s.core.get 3 = sg
  x4 : s.core.get 4 = e
  x6 : s.core.get 6 = f
  x7 : s.core.get 7 = fl.pack
  mem : s.core.mem = mem

theorem Fields.finish (h : Fields s a sg e f fl mem) :
    fpMachine.Leads x87StoreM80 30 s (Stores mem a (f, e ||| sg) fl) :=
  store_finish h.x1 h.x3 h.x4 h.x6 h.x7 h.mem

theorem store_denormal (h : Fields s a sg 0 f fl mem) :
    fpMachine.Leads x87StoreM80 16 s (Stores mem a
      (if f = 0 then (0, 0 ||| sg) else (f <<< f.clz.toNat, (15372 - f.clz) ||| sg)) fl) := by
  refine leads_cbzX (m := 17) (j := 30) rfl rfl (fun hz => ?_) fun hz => ?_
  all_goals rw [h.x6] at hz
  · have hfinish := h.finish
    rw [hz] at hfinish
    rw [if_pos hz]
    exact hfinish
  · rw [if_neg hz]
    have hmod : f.clz.toNat % 64 = f.clz.toNat := by
      rw [BitCount.clz_toNat hz]
      omega
    refine leads_core (b := [.clz .x 0 6, .shiftV .lsl .x 6 6 0, .movImm .x 4 15372,
      .addSub .sub false .x 4 4 (.reg 0 0)]) (m := 21) rfl (by decide)
      (leads_b (m := 22) (j := 30) rfl rfl (Fields.finish ⟨?_, ?_, ?_, ?_, ?_, ?_⟩))
    all_goals simp -implicitDefEqProofs (disch := decide) only [execs_cons, execs_nil, exec_clzX, exec_shiftVX,
      exec_movXImm, exec_subX, Shift.eval, State.get_set_self, State.get_set_ne, State.set_mem, h.x1, h.x3,
      h.x6, h.x7, h.mem, hmod]

theorem store_special (h : Fields s a sg e f fl mem) :
    fpMachine.Leads x87StoreM80 27 s (Stores mem a ((f <<< 11) ||| 0x8000000000000000, e ||| sg) fl) := by
  refine leads_core (b := [.shift .lsl .x 6 6 11, .logic .orr false .x 6 6 (.imm 0x8000000000000000)])
    (m := 29) rfl (by decide) (.label (m := 30) rfl (Fields.finish ⟨?_, ?_, ?_, ?_, ?_, ?_⟩))
  all_goals simp -implicitDefEqProofs (disch := decide) only [execs_cons, execs_nil, exec_shiftX,
    exec_logicXImm, Shift.eval, Logic.eval, State.get_set_self, State.get_set_ne, State.set_mem, h.x1, h.x3,
    h.x4, h.x6, h.x7, h.mem]

theorem store_infinite (h : Fields s a sg e f fl mem) :
    fpMachine.Leads x87StoreM80 23 s (Stores mem a
      (((if f = 0 then f else f ||| 0x0008000000000000) <<< 11) ||| 0x8000000000000000, 0x7fff ||| sg) fl) := by
  refine leads_block (b := [.movImm .x 4 0x7fff]) (m := 24)
    (Q := fun t => Fields { s with core := t } a sg 0x7fff f fl mem) rfl (by decide) ⟨?_, ?_, ?_, ?_, ?_, ?_⟩ ?_
  all_goals try simp -implicitDefEqProofs (disch := decide) only [execs_cons, execs_nil, exec_movXImm,
    State.get_set_self, State.get_set_ne, State.set_mem, h.x1, h.x3, h.x6, h.x7, h.mem]
  intro t ht
  refine leads_cbzX (m := 25) (j := 27) rfl rfl (fun hz => ?_) fun hz => ?_
  all_goals rw [ht.x6] at hz
  · rw [if_pos hz]
    exact store_special ht
  · have hmem : t.mem = mem := ht.mem
    rw [if_neg hz]
    refine leads_core (b := [.logic .orr false .x 6 6 (.imm 0x0008000000000000)]) (m := 26) rfl (by decide)
      (.label (m := 27) rfl (store_special ⟨?_, ?_, ?_, ?_, ?_, ?_⟩))
    all_goals simp -implicitDefEqProofs (disch := decide) only [execs_cons, execs_nil, exec_logicXImm,
      Logic.eval, State.get_set_self, State.get_set_ne, State.set_mem, ht.x1, ht.x3, ht.x4, ht.x6, ht.x7, hmem]

/-- **`x87StoreM80`.** -/
theorem store_run (s : FpState) : fpMachine.Leads x87StoreM80 0 s
    (Stores s.core.mem (s.core.get 1) (storeBits (s.getF .d 28)) s.core.flags) := by
  obtain ⟨d, hd⟩ : ∃ d : BitVec 64, d = s.getF .d 28 := ⟨_, rfl⟩
  have hsame : (s.getF .d 28).setWidth 64 = d := by
    rw [hd]
    exact BitVec.setWidth_eq _
  rw [← hd, storeBits, storeFields]
  obtain ⟨sg, hsg⟩ : ∃ sg, sg = (d >>> 63) <<< 15 := ⟨_, rfl⟩
  obtain ⟨e, he⟩ : ∃ e : BitVec 64, e = (d.extractLsb' 52 11).setWidth 64 := ⟨_, rfl⟩
  obtain ⟨f, hf⟩ : ∃ f, f = d &&& 0xfffffffffffff := ⟨_, rfl⟩
  rw [← hsg, ← he, ← hf]
  refine leads_fblock (b := [.core (.mrsNzcv 7), .fmovOut .d 2 28, .core (.shift .lsr .x 3 2 63),
    .core (.shift .lsl .x 3 3 15), .core (.ubfx .x 4 2 52 11),
    .core (.logic .and false .x 6 2 (.imm 0xfffffffffffff))]) (m := 6)
    (Q := fun t => Fields t (s.core.get 1) sg e f s.core.flags s.core.mem) rfl (by decide)
    ⟨?_, ?_, ?_, ?_, ?_, ?_⟩ ?_
  all_goals try simp -implicitDefEqProofs (disch := decide) only [fexecs_cons, fexecs_nil, core_exec_core,
    core_exec_fmovOut, getF_exec_core, exec_mrsNzcv, exec_shiftX, exec_ubfxX, exec_logicXImm, Shift.eval,
    Logic.eval, State.get_set_self, State.get_set_ne, State.set_mem, hsame, ← hsg, ← he, ← hf]
  intro t ht
  refine leads_cbzX (m := 7) (j := 16) rfl rfl (fun hz => ?_) fun hz => ?_
  all_goals rw [ht.x4] at hz
  · rw [hz] at ht
    have hstore := store_denormal ht
    rw [if_pos hz]
    by_cases hf0 : f = 0
    · rw [if_pos hf0] at hstore ⊢
      exact hstore
    · rw [if_neg hf0] at hstore ⊢
      exact hstore
  rw [if_neg hz]
  refine leads_block (b := [.movImm .x 0 0x7ff, .cmp .x 4 (.reg 0 0)]) (m := 9)
    (Q := fun u => Fields { t with core := u } (s.core.get 1) sg e f s.core.flags s.core.mem ∧
      u.flags = subNzcv e 0x7ff false) rfl (by decide) ⟨⟨?_, ?_, ?_, ?_, ?_, ?_⟩, ?_⟩ ?_
  all_goals try simp -implicitDefEqProofs (disch := decide) only [execs_cons, execs_nil, exec_movXImm,
    exec_cmpX, State.get_set_self, State.get_set_ne, State.get_setFlags, State.flags_setFlags,
    State.mem_setFlags, State.set_mem, ht.x1, ht.x3, ht.x4, ht.x6, ht.x7, ht.mem]
  rintro u ⟨hu, hflags⟩
  refine leads_bCond (m := 10) (j := 23) rfl rfl (fun h => ?_) fun h => ?_
  all_goals rw [hflags, eq_subNzcv, decide_eq_true_eq] at h
  · rw [if_pos h]
    exact store_infinite hu
  · rw [if_neg h]
    have hmem : u.mem = s.core.mem := hu.mem
    refine leads_core (b := [.movImm .x 0 15360, .addSub .add false .x 4 4 (.reg 0 0), .shift .lsl .x 6 6 11,
      .logic .orr false .x 6 6 (.imm 0x8000000000000000)]) (m := 14) rfl (by decide)
      (leads_b (m := 15) (j := 30) rfl rfl (Fields.finish ⟨?_, ?_, ?_, ?_, ?_, ?_⟩))
    all_goals simp -implicitDefEqProofs (disch := decide) only [execs_cons, execs_nil, exec_movXImm, exec_addX,
      exec_shiftX, exec_logicXImm, Shift.eval, Logic.eval, State.get_set_self, State.get_set_ne, State.set_mem,
      hu.x1, hu.x3, hu.x4, hu.x6, hu.x7, hmem]

end Store

end PS4Recomp.Lifter
