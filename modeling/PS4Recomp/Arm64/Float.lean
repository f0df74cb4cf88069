import PS4Recomp.Arm64.DataProc
import PS4Recomp.Library.FloatArith
import PS4Recomp.Library.LineCode

/-!
# Floating-point instructions

The ARM64 machine with its vector registers and `FPCR`, for the code of the floating-point lowerings.

* `FpSize` — the scalar sizes, `Fpcr` — the rounding direction and flush-to-zero;
* `FpState`, `getF`, `setF` — the processor, and the scalar in a vector register;
* `FpInstr`, `FpInstr.exec`, `FpInstr.target` — the instructions, what they change and where they branch;
* `fpMachine` — the machine that runs lines of them.

The local labels are numbers. A write of a scalar clears the rest of the vector register. Traps and
cumulative exception flags are left out.
-/

namespace PS4Recomp.Arm64

open Library Library.Lanes

/-- A vector register. -/
abbrev VReg := Fin 32

/-- The scalar sizes `s` and `d`. -/
inductive FpSize where
  | s | d
  deriving DecidableEq, Repr

/-- The number of bits. -/
def FpSize.bits : FpSize → ℕ
  | .s => 32
  | .d => 64

/-- The format. -/
def FpSize.format : FpSize → Format
  | .s => .single
  | .d => .double

/-- `FPCR.RMode` and `FPCR.FZ`. -/
structure Fpcr where
  mode : RoundMode
  fz : Bool
  deriving DecidableEq, Repr

/-- The state of the processor. -/
structure FpState where
  core : State
  v : VReg → BitVec 128
  fpcr : Fpcr

namespace FpState

/-- The scalar in a vector register. -/
def getF (s : FpState) (f : FpSize) (n : VReg) : BitVec f.bits := (s.v n).setWidth f.bits

/-- A vector register written. -/
def setV (s : FpState) (n : VReg) (x : BitVec 128) : FpState := { s with v := Function.update s.v n x }

/-- A scalar written. -/
def setF (s : FpState) (f : FpSize) (n : VReg) (x : BitVec f.bits) : FpState := s.setV n (x.setWidth 128)

/-- A general register written. -/
def setX (s : FpState) (sf : Width) (r : XReg) (x : BitVec sf.bits) : FpState :=
  { s with core := s.core.setW sf r x }

end FpState

/-! ### instructions -/

/-- The floating-point instructions, those on general registers, and the accesses of the form
`[rn, #off]`. -/
inductive FpInstr where
  | core (i : Instr ℕ)
  /-- `ldr`, `ldrh` and `ldrb rt, [rn, #off]`. -/
  | ldrAt (n : ℕ) (rt rn : XReg) (off : BitVec 64)
  /-- `str`, `strh` and `strb rt, [rn, #off]`. -/
  | strAt (n : ℕ) (rt rn : XReg) (off : BitVec 64)
  /-- `fmov rd, fn`. -/
  | fmovOut (f : FpSize) (rd : XReg) (vn : VReg)
  /-- `fmov fd, rn`. -/
  | fmovIn (f : FpSize) (vd : VReg) (rn : XReg)
  /-- `mov rd, vn.d[i]`. -/
  | umovD (rd : XReg) (vn : VReg) (i : Fin 2)
  /-- `mov vd.d[0], rn`. -/
  | insD (vd : VReg) (rn : XReg)
  /-- `ucvtf fd, rn`. -/
  | ucvtf (f : FpSize) (sf : Width) (vd : VReg) (rn : XReg)
  /-- `scvtf fd, rn`. -/
  | scvtf (f : FpSize) (sf : Width) (vd : VReg) (rn : XReg)
  | fadd (f : FpSize) (vd vn vm : VReg)
  | fsub (f : FpSize) (vd vn vm : VReg)
  | fmul (f : FpSize) (vd vn vm : VReg)
  | fabs (f : FpSize) (vd vn : VReg)
  /-- `fmov fd, fn`. -/
  | fmov (f : FpSize) (vd vn : VReg)
  | fcmp (f : FpSize) (vn vm : VReg)
  | cbz (sf : Width) (rt : XReg) (l : ℕ)
  | cbnz (sf : Width) (rt : XReg) (l : ℕ)
  | frintx (f : FpSize) (vd vn : VReg)
  /-- `fcvtzs rd, fn`. -/
  | fcvtzs (f : FpSize) (sf : Width) (rd : XReg) (vn : VReg)
  | fcmeq (f : FpSize) (vd vn vm : VReg)
  /-- `frintx vd.4s, vn.4s`. -/
  | frintx4s (vd vn : VReg)
  | fcvtzs4s (vd vn : VReg)
  | fcmeq4s (vd vn vm : VReg)
  | cmeq4s (vd vn vm : VReg)
  /-- `movi vd.4s`. -/
  | movi4s (vd : VReg) (x : BitVec 32)
  | orn (vd vn vm : VReg)
  /-- `bit vd, vn, vm`: the bits of `vn` where `vm` has ones. -/
  | bit (vd vn vm : VReg)

/-- Equality of two patterns: neither is a NaN and the values are equal. -/
def feq (F : Format) (fz : Bool) (x y : ℕ) : Bool :=
  decide (¬ F.IsNan x) && decide (¬ F.IsNan y) &&
    (decide (x = y) || (decide (F.IsFinite x) && decide (F.IsFinite y) &&
      decide (F.value (F.flush fz x) = F.value (F.flush fz y))))

/-- A function of the lanes of vectors. -/
def lanes4 (g : BitVec 32 → BitVec 32) (a : BitVec 128) : BitVec 128 :=
  ofLanes 128 32 fun i => g (lane 32 a i)

@[inherit_doc lanes4]
def lanes4₂ (g : BitVec 32 → BitVec 32 → BitVec 32) (a b : BitVec 128) : BitVec 128 :=
  ofLanes 128 32 fun i => g (lane 32 a i) (lane 32 b i)

/-- All ones or zeros. -/
def maskOf (w : ℕ) (b : Bool) : BitVec w := if b then BitVec.allOnes w else 0

/-- `UCVTF` of a number: the significand is rounded. -/
def ucvtfBits (f : FpSize) (c : Fpcr) (n : ℕ) : BitVec f.bits :=
  BitVec.ofNat f.bits (f.format.roundMag c.mode false n)

/-- `SCVTF` of a number. -/
def scvtfBits (f : FpSize) (c : Fpcr) (z : ℤ) : BitVec f.bits :=
  BitVec.ofNat f.bits (f.format.ofMag (decide (z < 0)) (f.format.roundMag c.mode (decide (z < 0)) z.natAbs))

/-- An operation on two patterns. -/
def binBits (f : FpSize) (op : Format → ℕ → ℕ → ℕ) (x y : BitVec f.bits) : BitVec f.bits :=
  BitVec.ofNat f.bits (op f.format x.toNat y.toNat)

/-- The flags of `FCMP`. -/
def fcmpNzcv (F : Format) (fz : Bool) (x y : ℕ) : Nzcv :=
  match F.compare fz x y with
  | none => ⟨false, false, true, true⟩
  | some .lt => ⟨true, false, false, false⟩
  | some .eq => ⟨false, true, true, false⟩
  | some .gt => ⟨false, false, true, false⟩

/-- `FRINTX` of a pattern. -/
def frintBits (f : FpSize) (c : Fpcr) (x : BitVec f.bits) : BitVec f.bits :=
  BitVec.ofNat f.bits (f.format.frint c.mode (f.format.flush c.fz x.toNat))

/-- `FCVTZS` of a pattern. -/
def fcvtzsBits (f : FpSize) (c : Fpcr) (w : ℕ) (x : BitVec f.bits) : BitVec w :=
  f.format.toIntSat w .zero (f.format.flush c.fz x.toNat)

namespace FpInstr

/-- What an instruction changes. -/
def exec : FpInstr → FpState → FpState
  | .core i, s => { s with core := i.exec s.core }
  | .ldrAt n rt rn off, s =>
      { s with core := s.core.set rt ((s.core.mem.load n (s.core.get rn + off)).setWidth 64) }
  | .strAt n rt rn off, s =>
      { s with core := { s.core with
          mem := s.core.mem.store (s.core.get rn + off) ((s.core.get rt).setWidth n) } }
  | .fmovOut f rd vn, s => { s with core := s.core.set rd ((s.getF f vn).setWidth 64) }
  | .fmovIn f vd rn, s => s.setF f vd ((s.core.get rn).setWidth f.bits)
  | .umovD rd vn i, s => { s with core := s.core.set rd ((s.v vn).extractLsb' (64 * i) 64) }
  | .insD vd rn, s => s.setV vd ((s.v vd).extractLsb' 64 64 ++ s.core.get rn)
  | .ucvtf f sf vd rn, s => s.setF f vd (ucvtfBits f s.fpcr (s.core.getW sf rn).toNat)
  | .scvtf f sf vd rn, s => s.setF f vd (scvtfBits f s.fpcr (s.core.getW sf rn).toInt)
  | .fadd f vd vn vm, s =>
      s.setF f vd (binBits f (fun F => F.add s.fpcr.mode s.fpcr.fz) (s.getF f vn) (s.getF f vm))
  | .fsub f vd vn vm, s =>
      s.setF f vd (binBits f (fun F => F.sub s.fpcr.mode s.fpcr.fz) (s.getF f vn) (s.getF f vm))
  | .fmul f vd vn vm, s =>
      s.setF f vd (binBits f (fun F => F.mul s.fpcr.mode s.fpcr.fz) (s.getF f vn) (s.getF f vm))
  | .fabs f vd vn, s => s.setF f vd (BitVec.ofNat f.bits (f.format.abs (s.getF f vn).toNat))
  | .fmov f vd vn, s => s.setF f vd (s.getF f vn)
  | .fcmp f vn vm, s =>
      { s with core :=
          s.core.setFlags (fcmpNzcv f.format s.fpcr.fz (s.getF f vn).toNat (s.getF f vm).toNat) }
  | .cbz .., s | .cbnz .., s => s
  | .frintx f vd vn, s => s.setF f vd (frintBits f s.fpcr (s.getF f vn))
  | .fcvtzs f sf rd vn, s => s.setX sf rd (fcvtzsBits f s.fpcr sf.bits (s.getF f vn))
  | .fcmeq f vd vn vm, s =>
      s.setF f vd (maskOf f.bits (feq f.format s.fpcr.fz (s.getF f vn).toNat (s.getF f vm).toNat))
  | .frintx4s vd vn, s => s.setV vd (lanes4 (frintBits .s s.fpcr) (s.v vn))
  | .fcvtzs4s vd vn, s => s.setV vd (lanes4 (fcvtzsBits .s s.fpcr 32) (s.v vn))
  | .fcmeq4s vd vn vm, s =>
      s.setV vd (lanes4₂ (fun a b => maskOf 32 (feq .single s.fpcr.fz a.toNat b.toNat)) (s.v vn) (s.v vm))
  | .cmeq4s vd vn vm, s => s.setV vd (lanes4₂ (fun a b => maskOf 32 (a == b)) (s.v vn) (s.v vm))
  | .movi4s vd x, s => s.setV vd (ofLanes 128 32 fun _ => x)
  | .orn vd vn vm, s => s.setV vd (s.v vn ||| ~~~s.v vm)
  | .bit vd vn vm, s => s.setV vd ((s.v vd &&& ~~~s.v vm) ||| (s.v vn &&& s.v vm))

/-- Where an instruction branches to, if it does. -/
def target : FpInstr → FpState → Option ℕ
  | .core i, s => i.branch s.core
  | .cbz sf rt l, s => if s.core.getW sf rt = 0 then some l else none
  | .cbnz sf rt l, s => if s.core.getW sf rt = 0 then none else some l
  | _, _ => none

end FpInstr

/-- The machine that runs lines of floating-point code. -/
def fpMachine : LineCode.Machine FpState FpInstr where
  exec := FpInstr.exec
  target := FpInstr.target

/-- The text of a lowering. -/
abbrev FpCode := List (LineCode.Line FpInstr)

/-- A line with an instruction on general registers. -/
def op (i : Instr ℕ) : LineCode.Line FpInstr := .ins (.core i)

/-- Lines of instructions on general registers. -/
def coreLines (is : List (Instr ℕ)) : FpCode := LineCode.lines (is.map .core)

/-! ### registers -/

variable {s : FpState} {f : FpSize} {m n : VReg}

theorem FpSize.bits_eq (f : FpSize) : f.bits = f.format.ew + f.format.fw + 1 := by
  cases f with
  | s => rfl
  | d => rfl

theorem FpSize.bits_le (f : FpSize) : f.bits ≤ 128 := by
  cases f with
  | s => decide
  | d => decide

theorem FpSize.toNat_lt {f : FpSize} (x : BitVec f.bits) : x.toNat < 2 ^ (f.format.ew + f.format.fw + 1) := by
  rw [← f.bits_eq]
  exact x.isLt

theorem v_setV_self (x : BitVec 128) : (s.setV n x).v n = x := Function.update_self ..

theorem v_setV_ne (h : m ≠ n) (x : BitVec 128) : (s.setV n x).v m = s.v m := Function.update_of_ne h ..

theorem getF_setF_self (x : BitVec f.bits) : (s.setF f n x).getF f n = x := by
  rw [FpState.getF, FpState.setF, v_setV_self]
  exact (BitVec.setWidth_setWidth_of_le _ f.bits_le).trans (BitVec.setWidth_eq _)

/-! ### what instructions change -/

theorem fexecs_nil (s : FpState) : fpMachine.execs [] s = s := rfl

theorem fexecs_cons (i : FpInstr) (is : List FpInstr) (s : FpState) :
    fpMachine.execs (i :: is) s = fpMachine.execs is (i.exec s) := rfl

section Exec

variable (i : Instr ℕ) (b : ℕ) (rt rn : XReg) (off : BitVec 64) (vn : VReg) (sf : Width)

theorem core_exec_core : (FpInstr.exec (.core i) s).core = i.exec s.core := rfl

theorem getF_exec_core : (FpInstr.exec (.core i) s).getF f n = s.getF f n := rfl

theorem core_exec_ldrAt : (FpInstr.exec (.ldrAt b rt rn off) s).core =
    s.core.set rt ((s.core.mem.load b (s.core.get rn + off)).setWidth 64) := rfl

theorem getF_exec_ldrAt : (FpInstr.exec (.ldrAt b rt rn off) s).getF f n = s.getF f n := rfl

theorem core_exec_strAt : (FpInstr.exec (.strAt b rt rn off) s).core =
    { s.core with mem := s.core.mem.store (s.core.get rn + off) ((s.core.get rt).setWidth b) } := rfl

theorem core_exec_fmovOut : (FpInstr.exec (.fmovOut f rt vn) s).core =
    s.core.set rt ((s.getF f vn).setWidth 64) := rfl

theorem core_exec_fmovIn : (FpInstr.exec (.fmovIn f vn rn) s).core = s.core := rfl

theorem getF_exec_fmovIn : (FpInstr.exec (.fmovIn f n rn) s).getF f n = (s.core.get rn).setWidth f.bits :=
  getF_setF_self _

theorem core_exec_ucvtf : (FpInstr.exec (.ucvtf f sf vn rn) s).core = s.core := rfl

theorem getF_exec_ucvtf : (FpInstr.exec (.ucvtf f sf n rn) s).getF f n =
    ucvtfBits f s.fpcr (s.core.getW sf rn).toNat := getF_setF_self _

variable (vm vd : VReg) {f' : FpSize}

end Exec

theorem execs_core (is : List (Instr ℕ)) (s : FpState) :
    fpMachine.execs (is.map .core) s = { s with core := execs is s.core } := by
  induction is generalizing s with
  | nil => rfl
  | cons i is ih => exact ih _

theorem branch_of_plain {i : Instr ℕ} (h : i.plain = true) (t : State) : i.branch t = none := by
  cases i with
  | b | bCond | cbz | cbnz | tbz => cases h
  | _ => rfl

/-- An instruction that does not branch. -/
def FpInstr.plain : FpInstr → Bool
  | .core i => i.plain
  | .cbz .. | .cbnz .. => false
  | _ => true

theorem FpInstr.straight {i : FpInstr} (h : i.plain = true) : fpMachine.Straight i := by
  intro t
  cases i with
  | core i => exact branch_of_plain h t.core
  | cbz | cbnz => cases h
  | _ => rfl

section Leads

variable {code : FpCode} {P : FpState → Prop} {k l m j : ℕ} {sf : Width} {rt : XReg}

theorem leads_plain {b : List FpInstr} (hk : code.drop k = LineCode.lines b ++ code.drop m)
    (hb : ∀ i ∈ b, i.plain = true) (h : fpMachine.Leads code m (fpMachine.execs b s) P) :
    fpMachine.Leads code k s P :=
  .block hk (fun i hi => FpInstr.straight (hb i hi)) h

theorem leads_core {b : List (Instr ℕ)} (hk : code.drop k = coreLines b ++ code.drop m)
    (hb : ∀ i ∈ b, i.plain = true) (h : fpMachine.Leads code m { s with core := execs b s.core } P) :
    fpMachine.Leads code k s P := by
  refine leads_plain hk (fun i hi => ?_) ?_
  · obtain ⟨i', hi', rfl⟩ := List.mem_map.1 hi
    exact hb i' hi'
  · rw [execs_core]
    exact h

/-- Code on general registers, by what is known of the registers after it. -/
theorem leads_block {b : List (Instr ℕ)} {Q : State → Prop} (hk : code.drop k = coreLines b ++ code.drop m)
    (hb : ∀ i ∈ b, i.plain = true) (hQ : Q (execs b s.core))
    (h : ∀ t, Q t → fpMachine.Leads code m { s with core := t } P) : fpMachine.Leads code k s P :=
  leads_core hk hb (h _ hQ)

/-- Code that does not branch, by what is known after it. -/
theorem leads_fblock {b : List FpInstr} {Q : FpState → Prop}
    (hk : code.drop k = LineCode.lines b ++ code.drop m) (hb : ∀ i ∈ b, i.plain = true)
    (hQ : Q (fpMachine.execs b s)) (h : ∀ t, Q t → fpMachine.Leads code m t P) : fpMachine.Leads code k s P :=
  leads_plain hk hb (h _ hQ)

theorem leads_finish {b : List FpInstr} (hk : code.drop k = LineCode.lines b)
    (hb : ∀ i ∈ b, i.plain = true) (h : P (fpMachine.execs b s)) : fpMachine.Leads code k s P :=
  .finish hk (fun i hi => FpInstr.straight (hb i hi)) h

theorem leads_b (hk : code.drop k = op (.b l) :: code.drop m)
    (hfind : (LineCode.find l (code.drop m)).or (LineCode.find l code) = some (code.drop j))
    (h : fpMachine.Leads code j s P) : fpMachine.Leads code k s P :=
  .of_goes (hk ▸ LineCode.Machine.goes_taken rfl hfind) h

theorem leads_bCond {c : Cond} (hk : code.drop k = op (.bCond c l) :: code.drop m)
    (hfind : (LineCode.find l (code.drop m)).or (LineCode.find l code) = some (code.drop j))
    (h : c.holds s.core.flags = true → fpMachine.Leads code j s P)
    (h' : ¬ c.holds s.core.flags = true → fpMachine.Leads code m s P) : fpMachine.Leads code k s P :=
  .branch hk rfl rfl hfind h h'

theorem leads_cbz (hk : code.drop k = .ins (.cbz sf rt l) :: code.drop m)
    (hfind : (LineCode.find l (code.drop m)).or (LineCode.find l code) = some (code.drop j))
    (h : s.core.getW sf rt = 0 → fpMachine.Leads code j s P)
    (h' : s.core.getW sf rt ≠ 0 → fpMachine.Leads code m s P) : fpMachine.Leads code k s P :=
  .branch hk rfl rfl hfind h h'

theorem leads_cbnz (hk : code.drop k = .ins (.cbnz sf rt l) :: code.drop m)
    (hfind : (LineCode.find l (code.drop m)).or (LineCode.find l code) = some (code.drop j))
    (h : s.core.getW sf rt ≠ 0 → fpMachine.Leads code j s P)
    (h' : s.core.getW sf rt = 0 → fpMachine.Leads code m s P) : fpMachine.Leads code k s P := by
  refine .branch hk (p := s.core.getW sf rt ≠ 0) ?_ rfl hfind h fun hz => h' (not_not.1 hz)
  show (if s.core.getW sf rt = 0 then none else some l) = _
  rw [ite_not]

theorem leads_cbzX (hk : code.drop k = .ins (.cbz .x rt l) :: code.drop m)
    (hfind : (LineCode.find l (code.drop m)).or (LineCode.find l code) = some (code.drop j))
    (h : s.core.get rt = 0 → fpMachine.Leads code j s P)
    (h' : s.core.get rt ≠ 0 → fpMachine.Leads code m s P) : fpMachine.Leads code k s P :=
  leads_cbz hk hfind (fun hz => h ((State.getW_x _ _).symm.trans hz)) fun hz =>
    h' fun hget => hz ((State.getW_x _ _).trans hget)

theorem leads_cbnzX (hk : code.drop k = .ins (.cbnz .x rt l) :: code.drop m)
    (hfind : (LineCode.find l (code.drop m)).or (LineCode.find l code) = some (code.drop j))
    (h : s.core.get rt ≠ 0 → fpMachine.Leads code j s P)
    (h' : s.core.get rt = 0 → fpMachine.Leads code m s P) : fpMachine.Leads code k s P :=
  leads_cbnz hk hfind (fun hz => h fun hget => hz ((State.getW_x _ _).trans hget)) fun hz =>
    h' ((State.getW_x _ _).symm.trans hz)

theorem leads_tbz {bit : ℕ} (hk : code.drop k = op (.tbz rt bit l) :: code.drop m)
    (hfind : (LineCode.find l (code.drop m)).or (LineCode.find l code) = some (code.drop j))
    (h : (s.core.get rt).getLsbD bit = false → fpMachine.Leads code j s P)
    (h' : (s.core.get rt).getLsbD bit = true → fpMachine.Leads code m s P) : fpMachine.Leads code k s P := by
  refine .branch hk (p := (s.core.get rt).getLsbD bit = false) ?_ rfl hfind h fun hb =>
    h' (Bool.not_eq_false _ ▸ hb)
  show (if (s.core.get rt).getLsbD bit = true then none else some l) = _
  cases (s.core.get rt).getLsbD bit with
  | false => rfl
  | true => rfl

end Leads

theorem feq_self (F : Format) (fz : Bool) (x : ℕ) : feq F fz x x = decide (¬ F.IsNan x) := by
  rw [feq, decide_eq_true rfl, Bool.true_or, Bool.and_true, Bool.and_self]

theorem toNat_frintBits (c : Fpcr) (x : BitVec f.bits) :
    (frintBits f c x).toNat = f.format.frint c.mode (f.format.flush c.fz x.toNat) := by
  have hlt : f.format.frint c.mode (f.format.flush c.fz x.toNat) < 2 ^ f.bits :=
    (Format.frint_lt c.mode (Format.flush_lt c.fz (FpSize.toNat_lt x))).trans_eq
      (congrArg (2 ^ ·) f.bits_eq.symm)
  rw [frintBits, BitVec.toNat_ofNat, Nat.mod_eq_of_lt hlt]

end PS4Recomp.Arm64
