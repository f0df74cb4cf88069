import PS4Recomp.Arm64.Adder
import PS4Recomp.Lifter.Lines
import PS4Recomp.X86.Semantics

/-!
# Operands

How the lowerings reach the operands of an instruction.

* `pin`, `arm64RegMap` — the host register of every guest register;
* `unsupportedAddressing`, `computeEffAddr` — the addresses that are refused, and the code of the others;
* `readRegTo`, `writeRegFrom`, `readMemTo` — the code that moves operands.
-/

namespace PS4Recomp.Lifter

open X86 Arm64 Library

/-! ### the register map -/

/-- The host register that holds a guest register. -/
def pin : Gpr → XReg
  | .rax => 19
  | .rbx => 20
  | .rcx => 21
  | .rdx => 22
  | .rsi => 23
  | .rdi => 24
  | .rbp => 25
  | .rsp => 26
  | .r8 => 8
  | .r9 => 9
  | .r10 => 10
  | .r11 => 11
  | .r12 => 12
  | .r13 => 13
  | .r14 => 14
  | .r15 => 15

/-- `Arm64RegDesc`; the `W` name is the register at width `w`. -/
structure Arm64RegDesc where
  x : XReg
  size : ℕ
  isHigh8 : Bool := false

/-- `arm64RegMap`. -/
def arm64RegMap : Reg → Option Arm64RegDesc
  | .q g => some { x := pin g, size := 8 }
  | .l g => some { x := pin g, size := 4 }
  | .w g => some { x := pin g, size := 2 }
  | .b g => some { x := pin g, size := 1 }
  | .h g => some { x := pin g.gpr, size := 1, isHigh8 := true }
  | _ => none

/-- The width that holds an operand of `size` bytes (`sizedReg`). -/
def width (size : ℕ) : Width := if size = 8 then .x else .w

/-! ### addresses -/

/-- `unsupportedAddressing`, for the first memory operand. -/
def unsupportedAddressing (inst : Inst) : Option String :=
  match inst.op with
  | .nop | .prefetcht0 | .prefetchnta | .prefetcht1 | .prefetcht2 | .prefetchw => none
  | _ =>
      inst.args.findSome? fun a =>
        match a with
        | .mem m =>
            if inst.addrSize = 32 then some "addr32 memory operand (32-bit address wrap not lowered)"
            else if inst.op = .mov ∧ 0xa0 ≤ (inst.opcode >>> 24).toNat ∧
                (inst.opcode >>> 24).toNat ≤ 0xa3 then
              some "mov with a 64-bit absolute address (moffs) not lowered"
            else if m.segment = some .gs then some "GS segment override not lowered"
            else none
        | _ => none

/-- The displacement as `computeEffAddr` takes it. -/
def dispOf (m : Mem) : BitVec 64 := (m.disp.setWidth 32).signExtend 64

/-- The shift of a scale. -/
def scaleShift : ℕ → ℕ
  | 2 => 1
  | 4 => 2
  | 8 => 3
  | _ => 0

/-- Steps 3 and 4 of `computeEffAddr`: base and index. -/
def baseIndex (m : Mem) (t : XReg) : Asm :=
  let shift := scaleShift m.scale
  match m.base.bind arm64RegMap, m.index.bind arm64RegMap with
  | none, none => [.movImm .x t 0]
  | some b, none => [.mov .x t b.x]
  | none, some x => if 0 < shift then [.shift .lsl .x t x.x shift] else [.mov .x t x.x]
  | some b, some x => [.mov .x t b.x, .addSub .add false .x t t (.reg x.x shift)]

/-- Step 5 of `computeEffAddr`: the displacement. -/
def addDisp (t : XReg) (disp : BitVec 64) : Asm :=
  if disp = 0 then []
  else if 0 < disp.toInt ∧ disp.toInt ≤ 4095 then [.addSub .add false .x t t (.imm disp)]
  else if disp.toInt < 0 ∧ -disp.toInt ≤ 4095 then [.addSub .sub false .x t t (.imm (-disp))]
  else
    let scratch := if t = 7 then 6 else 7
    loadImm64 scratch disp ++ [.addSub .add false .x t t (.reg scratch 0)]

/-- Step 2 of `computeEffAddr` without registers: a displacement from the `FS` base. -/
def fsDisp (t : XReg) (disp : BitVec 64) : Asm :=
  if disp = 0 then [.mov .x t 27]
  else if 0 ≤ disp.toInt ∧ disp.toInt ≤ 4095 then [.addSub .add false .x t 27 (.imm disp)]
  else if disp.toInt < 0 ∧ -disp.toInt ≤ 4095 then [.addSub .sub false .x t 27 (.imm (-disp))]
  else loadImm64 t disp ++ [.addSub .add false .x t 27 (.reg t 0)]

/-- `computeEffAddr`: the guest address of a memory operand, into `t`.  The recursive call of the
source for an `FS` operand with registers ends in the steps written out here. -/
def computeEffAddr (m : Mem) (nextPC : Addr) (t : XReg) : Asm :=
  let disp := dispOf m
  if m.base = some .rip ∨ (m.segment = none ∧ m.base = none ∧ m.index = none ∧ m.scale = 0) then
    loadImm64 t (nextPC + disp)
  else if m.segment = some .fs then
    if m.base.isSome || m.index.isSome then
      baseIndex m t ++ addDisp t disp ++ [.addSub .add false .x t t (.reg 27 0)]
    else fsDisp t disp
  else baseIndex m t ++ addDisp t disp

/-! ### reading and writing operands -/

/-- `readRegTo`. -/
def readRegTo (reg : Reg) (t : XReg) : Option Asm :=
  (arm64RegMap reg).map fun d =>
    if d.isHigh8 then [.ubfx .w t d.x 8 8]
    else if d.size = 1 then [.logic .and false .w t d.x (.imm 0xff)]
    else if d.size = 2 then [.logic .and false .w t d.x (.imm 0xffff)]
    else if d.size = 4 then [.mov .w t d.x]
    else [.mov .x t d.x]

/-- `writeRegFrom`. -/
def writeRegFrom (reg : Reg) (src : XReg) : Option Asm :=
  (arm64RegMap reg).map fun d =>
    if d.isHigh8 then [.bfi d.x src 8 8]
    else if d.size = 1 then [.bfi d.x src 0 8]
    else if d.size = 2 then [.bfi d.x src 0 16]
    else if d.size = 4 then [.mov .w d.x src]
    else [.mov .x d.x src]

/-- The load of `size` bytes at the guest address in `x16`. -/
def loadSized (size : ℕ) (t : XReg) : Instr Label :=
  match size with
  | 1 => .ldst .ldrb .w t 16
  | 2 => .ldst .ldrh .w t 16
  | 4 => .ldst .ldr .w t 16
  | _ => .ldst .ldr .x t 16

/-- `readMemTo`. -/
def readMemTo (m : Mem) (nextPC : Addr) (size : ℕ) (t : XReg) : Asm :=
  computeEffAddr m nextPC 16 ++ [loadSized size t]

/-- `defMemSz`. -/
def defMemSz (inst : Instruction) : ℕ :=
  let sz := inst.inst.memBytes
  let sz := if sz = 0 ∧ inst.inst.dataSize > 0 then inst.inst.dataSize / 8 else sz
  if sz = 0 then 8 else sz

/-- An immediate cut to an operand of `size` bytes. -/
def immOf (v : BitVec 64) (size : ℕ) : BitVec 64 :=
  match size with
  | 1 => v &&& 0xff
  | 2 => v &&& 0xffff
  | 4 => v &&& 0xffffffff
  | _ => v

end PS4Recomp.Lifter
