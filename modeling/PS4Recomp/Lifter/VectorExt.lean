import PS4Recomp.Arm64.Vector

/-!
# Lowering of packed multiplies

The lowering of PMULDQ from `arm64_lifter_ext.go`, over the names it gives vector registers.

* `VecName`, `getVectorDesc` — the vector registers by the names a lowering gives them;
* `VecLine`, `VecCode` — vector code with its labels and branches;
* `threeOperands`, `source2` — operands;
* `liftHalves`, `liftPmuldq` — the lowering.

A lowering that ends in `emitUnsupported` is an error here, with its message.
-/

namespace PS4Recomp.Lifter

open X86 Arm64 Library Library.CellCode

/-- The number of a vector register in `v16`-`v31`, less 16. -/
abbrev Half := Fin 16

/-- How a lowering names vector registers: `v0`-`v15`, `v16`-`v31` as temporaries, and the
placeholders `vU16`-`vU31` of `getVectorDesc`. -/
inductive VecName where
  | low (n : Fin 16) | high (n : Half) | upper (n : Half)
  deriving DecidableEq, Repr

/-- The names of an XMM or YMM register. -/
structure VecDesc where
  isYmm : Bool
  lowV : VecName
  highV : VecName
  deriving DecidableEq

/-- `getVectorDesc`. -/
def getVectorDesc : Reg → Option VecDesc
  | .ymm n => if h : n.val < 16 then some ⟨true, .low ⟨n, h⟩, .upper ⟨n, h⟩⟩ else none
  | .xmm n => if h : n.val < 16 then some ⟨false, .low ⟨n, h⟩, .upper ⟨n, h⟩⟩ else none
  | _ => none

/-- Labels in vector code. -/
inductive VecLabel where
  | lifted (l : Label)
  /-- `L_phminposuw_skip_<counter>_<i>`. -/
  | phminposuwSkip (counter i : ℕ)
  deriving DecidableEq

/-- Vector code, and the branch `b.ne`. -/
inductive LiftedOp where
  | vec (o : VecOp)
  | bNe (l : VecLabel)

abbrev VecLine := Line VecName LiftedOp VecLabel

abbrev VecCode := List VecLine

/-- A line. -/
def vop (o : VecOp) (outs ins : List VecName) : VecLine := .op (.vec o) outs ins

/-- Lines of general instructions. -/
def scalars (is : Asm) : VecCode := is.map fun i => vop (.scalar i) [] []

/-! ### operands -/

/-- `inst.Args[n].(x86asm.Reg)`. -/
def regArg (inst : Inst) (n : ℕ) : Option Reg :=
  match inst.arg n with
  | some (.reg r) => some r
  | _ => none

/-- The destination, the first source and the second source: the `n` operands of the VEX form, or
the two of the legacy one. -/
def threeOperands (inst : Inst) (isAvx : Bool) (n : ℕ) : Option Reg × Option Reg × Option Arg :=
  if isAvx = true ∧ n ≤ inst.args.length then (regArg inst 0, regArg inst 1, inst.arg 2)
  else (regArg inst 0, regArg inst 0, inst.arg 1)

/-- The second source and its upper half: a register, or memory loaded into `v30` and `v31`. -/
def source2 (src2 : Option Arg) (nextPC : Addr) (isYmm : Bool) : VecCode × VecName × VecName :=
  match src2 with
  | some (.reg r) =>
      match getVectorDesc r with
      | some d => ([], d.lowV, d.highV)
      | none => ([], .high 14, .high 15)
  | some (.mem m) =>
      (scalars (computeEffAddr m nextPC 16) ++ [vop (.ldrQ 16) [.high 14] []] ++
        (if isYmm then
          scalars [.addSub .add false .x 16 16 (.imm 16)] ++ [vop (.ldrQ 16) [.high 15] []]
        else []), .high 14, .high 15)
  | _ => ([], .high 14, .high 15)

/-! ### lanes of 128 bits -/

/-- A lowering that treats the two halves alike: one half with `emitLane`, the other for YMM
operands, and a cleared upper half for the VEX form on XMM registers. -/
def liftHalves (reason : String) (isAvx : Bool) (emitLane : VecName → VecName → VecName → VecCode)
    (i : Instruction) : Except String VecCode :=
  let (dstReg, s1Reg, src2) := threeOperands i.inst isAvx 3
  match dstReg.bind getVectorDesc, s1Reg.bind getVectorDesc with
  | some d, some s1 =>
      let (load, s2Low, s2High) := source2 src2 i.nextPC d.isYmm
      .ok (load ++ emitLane d.lowV s1.lowV s2Low ++
        (if d.isYmm then emitLane d.highV s1.highV s2High
        else if isAvx then [vop .moviZero [d.highV] []] else []))
  | _, _ => .error reason

/-- `emitLanePmuldq`. -/
def emitLanePmuldq (dLane s1Lane s2Lane : VecName) : VecCode :=
  [vop (.uzp1 32) [.high 4] [s1Lane, s1Lane],
   vop (.uzp1 32) [.high 5] [s2Lane, s2Lane],
   vop (.smull 32 false) [dLane] [.high 4, .high 5]]

/-- `liftPmuldq`: PMULDQ and VPMULDQ. -/
def liftPmuldq (i : Instruction) : Except String VecCode :=
  liftHalves "pmuldq invalid dst/s1" (i.inst.op == VecInst.pmuldq.op true) emitLanePmuldq i

end PS4Recomp.Lifter
