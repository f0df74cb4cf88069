import PS4Recomp.Lifter.Operands

/-!
# The lowerings of the moves

* `loadImmToReg`, `writeMemFrom` — immediates to guest registers, host registers to guest memory;
* `liftMov`, `liftMovzx`, `liftMovsx`, `liftLea` — moves and addresses;
* `liftSetcc`, `liftCmovcc` — the conditional ones, after `condFor`;
* `lockAddr`, `lockSource`, `liftAtomicXchg`, `liftXchg` — exchanges;
* `liftMove` — the dispatch of the eight instructions.

The text of a `brk` that marks an unsupported form is left out.
-/

namespace PS4Recomp.Lifter

open X86 Arm64 Library

/-- `loadImmToReg`. -/
def loadImmToReg (reg : Reg) (val : BitVec 64) : Option Asm :=
  (arm64RegMap reg).map fun d =>
    if d.isHigh8 then [.movImm .w 16 (val &&& 0xff), .bfi d.x 16 8 8]
    else if d.size = 1 then [.movImm .w 16 (val &&& 0xff), .bfi d.x 16 0 8]
    else if d.size = 2 then [.movImm .w 16 (val &&& 0xffff), .bfi d.x 16 0 16]
    else if d.size = 4 then loadImm32 d.x (val.setWidth 32)
    else loadImm64 d.x val

/-- The store of `size` bytes at the guest address in `a`. -/
def storeAt (size : ℕ) (src a : XReg) : Instr Label :=
  match size with
  | 1 => .ldst .strb .w src a
  | 2 => .ldst .strh .w src a
  | 4 => .ldst .str .w src a
  | _ => .ldst .str .x src a

/-- `writeMemFrom`. -/
def writeMemFrom (m : Mem) (nextPC : Addr) (size : ℕ) (src : XReg) : Asm :=
  let addrReg := if src = 16 then 17 else 16
  computeEffAddr m nextPC addrReg ++ [storeAt size src addrReg]

/-! ### MOV -/

/-- The forms of `liftMov` without segment registers. -/
def movGeneral (inst : Instruction) (nextPC : Addr) : Option Asm :=
  match inst.inst.arg 0, inst.inst.arg 1 with
  | some (.reg dst), some (.reg src) => do
      let loadCode ← readRegTo src 16
      let storeCode ← writeRegFrom dst 16
      let descDst ← arm64RegMap dst
      let descSrc ← arm64RegMap src
      -- a direct move when no byte masking is needed
      if descDst.isHigh8 = false ∧ descSrc.isHigh8 = false ∧ descDst.size = 4 ∧
          descSrc.size = 4 then
        some [.mov .w descDst.x descSrc.x]
      else if descDst.isHigh8 = false ∧ descSrc.isHigh8 = false ∧ descDst.size = 8 ∧
          descSrc.size = 8 then
        some [.mov .x descDst.x descSrc.x]
      else some (loadCode ++ storeCode)
  | some (.reg dst), some (.imm v) => loadImmToReg dst v
  | some (.reg dst), some (.mem m) =>
      (arm64RegMap dst).map fun descDst =>
        if descDst.size ≥ 4 then readMemTo m nextPC descDst.size descDst.x
        else readMemTo m nextPC descDst.size 16 ++ (writeRegFrom dst 16).getD []
  | some (.mem m), some (.reg src) =>
      (arm64RegMap src).map fun descSrc =>
        if descSrc.isHigh8 = false then writeMemFrom m nextPC descSrc.size descSrc.x
        else (readRegTo src 17).getD [] ++ writeMemFrom m nextPC descSrc.size 17
  | some (.mem m), some (.imm v) =>
      let sz := defMemSz inst
      some ((if sz = 8 then loadImm64 17 v else loadImm32 17 (v.setWidth 32)) ++
        writeMemFrom m nextPC sz 17)
  | _, _ => none

/-- The forms of `liftMov` with a segment register. -/
def movSegment (inst : Instruction) (nextPC : Addr) : Option Asm :=
  match inst.inst.arg 0, inst.inst.arg 1 with
  | some (.reg (.seg dst)), src =>
      match dst, src with
      | .fs, some (.reg r) => some ((readRegTo r 27).getD [])
      | .fs, some (.mem m) => some (readMemTo m nextPC 8 27)
      | _, some (.mem m) => some (computeEffAddr m nextPC 16)
      | _, _ => some []
  | some (.reg dst), some (.reg (.seg .fs)) => writeRegFrom dst 27
  | some (.mem m), some (.reg (.seg .fs)) => some (writeMemFrom m nextPC 8 27)
  | some (.reg dst), some (.reg (.seg _)) =>
      (writeRegFrom dst 16).map fun storeCode => loadImm32 16 0 ++ storeCode
  | some (.mem m), some (.reg (.seg _)) => some (writeMemFrom m nextPC 2 31)
  | _, _ => none

/-- `liftMov`. -/
def liftMov (inst : Instruction) (nextPC : Addr) : Asm :=
  ((movGeneral inst nextPC).or (movSegment inst nextPC)).getD [.brk]

/-! ### MOVZX, MOVSX, MOVSXD and LEA -/

/-- `liftMovzx`. -/
def liftMovzx (inst : Instruction) (nextPC : Addr) : Asm :=
  match inst.inst.arg 0 with
  | some (.reg dst) =>
      match arm64RegMap dst with
      | none => [.brk]
      | some descDst =>
          match inst.inst.arg 1 with
          | some (.reg src) =>
              match arm64RegMap src with
              | none => [.brk]
              | some descSrc =>
                  if descSrc.isHigh8 then [.ubfx .w descDst.x descSrc.x 8 8]
                  else if descSrc.size = 1 then [.ubfx .w descDst.x descSrc.x 0 8]
                  else [.ubfx .w descDst.x descSrc.x 0 16]
          | some (.mem m) =>
              computeEffAddr m nextPC 16 ++
                [match defMemSz inst with
                 | 2 => .ldst .ldrh .w descDst.x 16
                 | 4 => .ldst .ldr .w descDst.x 16
                 | _ => .ldst .ldrb .w descDst.x 16]
          | _ => [.brk]
  | _ => [.brk]

/-- `liftMovsx`. -/
def liftMovsx (inst : Instruction) (nextPC : Addr) : Asm :=
  match inst.inst.arg 0 with
  | some (.reg dst) =>
      match arm64RegMap dst with
      | none => [.brk]
      | some descDst =>
          match inst.inst.arg 1 with
          | some (.reg src) =>
              match arm64RegMap src with
              | none => [.brk]
              | some descSrc =>
                  match descSrc.size with
                  | 1 => [.sxt 8 (width descDst.size) descDst.x descSrc.x]
                  | 2 => [.sxt 16 (width descDst.size) descDst.x descSrc.x]
                  | 4 => [.sxt 32 .x descDst.x descSrc.x]
                  | _ => []
          | some (.mem m) =>
              let sz := defMemSz inst
              computeEffAddr m nextPC 16 ++
                (if inst.inst.op = .movsxd ∨ sz = 4 then [.ldst .ldrsw .x descDst.x 16]
                 else if sz = 2 then [.ldst .ldrsh (width descDst.size) descDst.x 16]
                 else [.ldst .ldrsb (width descDst.size) descDst.x 16])
          | _ => [.brk]
  | _ => [.brk]

/-- `LEA` of `liftInstructionInternal`. -/
def liftLea (inst : Instruction) (nextPC : Addr) : Asm :=
  match inst.inst.arg 1, inst.inst.arg 0 with
  | some (.mem m), some (.reg dst) =>
      match arm64RegMap dst with
      | none => [.brk]
      | some desc =>
          computeEffAddr m nextPC 16 ++
            (if desc.size = 4 then [.mov .w desc.x 16]
             else if desc.size = 2 then [.bfi desc.x 16 0 16]
             else [.mov .x desc.x 16])
  | _, _ => [.brk]

/-! ### SETcc and CMOVcc -/

/-- `liftSetcc`. -/
def liftSetcc (inst : Instruction) (nextPC : Addr) (cond : Arm64.Cond) : Asm :=
  .cset .w 16 cond ::
    match inst.inst.arg 0 with
    | some (.reg reg) => (writeRegFrom reg 16).getD [.brk]
    | some (.mem m) => writeMemFrom m nextPC 1 16
    | _ => [.brk]

/-- `liftCmovcc`. -/
def liftCmovcc (inst : Instruction) (nextPC : Addr) (cond : Arm64.Cond) : Asm :=
  match inst.inst.arg 0 with
  | some (.reg dst) =>
      match arm64RegMap dst with
      | none => [.brk]
      | some descDst =>
          -- 16-bit: only the low 16 bits of the destination may change
          if descDst.size = 2 then
            match inst.inst.arg 1 with
            | some (.reg src) =>
                match arm64RegMap src with
                | none => [.brk]
                | some descSrc =>
                    [.csel .w 16 descSrc.x descDst.x cond, .bfi descDst.x 16 0 16]
            | some (.mem m) =>
                readMemTo m nextPC 2 16 ++ [.csel .w 16 16 descDst.x cond, .bfi descDst.x 16 0 16]
            | _ => [.brk]
          else
            let sf : Width := if descDst.size = 4 then .w else .x
            match inst.inst.arg 1 with
            | some (.reg src) =>
                match arm64RegMap src with
                | none => [.brk]
                | some descSrc => [.csel sf descDst.x descSrc.x descDst.x cond]
            | some (.mem m) =>
                readMemTo m nextPC descDst.size 16 ++ [.csel sf descDst.x 16 descDst.x cond]
            | _ => [.brk]
  | _ => [.brk]

/-! ### XCHG -/

/-- `lockAddr`: the host address of a locked memory operand, in `x16`. -/
def lockAddr (m : Mem) (nextPC : Addr) : Asm :=
  computeEffAddr m nextPC 16 ++ [.addSub .add false .x 16 28 (.reg 16 0)]

/-- `lockSource`: the code that puts a source operand in a register, and the register. -/
def lockSource (arg : Option Arg) (size : ℕ) : Option (Asm × XReg) :=
  match arg with
  | some (.reg v) =>
      match arm64RegMap v with
      | none => none
      | some d =>
          if size = 8 then some ([], d.x)
          else if size = 4 ∧ d.isHigh8 = false ∧ d.size = 4 then some ([], d.x)
          else some ((readRegTo v 2).getD [], 2)
  | some (.imm v) =>
      let val := immOf v size
      if size = 8 then some (loadImm64 2 val, 2)
      else some (loadImm32 2 (val.setWidth 32), 2)
  | _ => none

/-- `liftAtomicXchg`. -/
def liftAtomicXchg (m : Mem) (reg : Reg) (desc : Arm64RegDesc) (nextPC : Addr) : Asm :=
  let src := (lockSource (some (.reg reg)) desc.size).getD ([], 2)
  src.1 ++ lockAddr m nextPC ++ [.swpal (8 * desc.size) src.2 17 16] ++
    (writeRegFrom reg 17).getD []

/-- `liftXchg`. -/
def liftXchg (l : Arm64Lifter) (inst : Instruction) (nextPC : Addr) : Code × Arm64Lifter :=
  match inst.inst.arg 0, inst.inst.arg 1 with
  | some (.reg dst), some (.reg src) =>
      match arm64RegMap dst, arm64RegMap src with
      | some dDesc, some sDesc =>
          (asm (match dDesc.size with
            | 8 => [.mov .x 16 dDesc.x, .mov .x dDesc.x sDesc.x, .mov .x sDesc.x 16]
            | 4 => [.mov .w 16 dDesc.x, .mov .w dDesc.x sDesc.x, .mov .w sDesc.x 16]
            | _ => (readRegTo dst 16).getD [] ++ (readRegTo src 17).getD [] ++
                (writeRegFrom dst 17).getD [] ++ (writeRegFrom src 16).getD []), l)
      | _, _ => l.emitUnsupported inst "unmapped xchg register"
  | some (.mem m), some (.reg reg) | some (.reg reg), some (.mem m) =>
      match arm64RegMap reg with
      | some desc => (asm (liftAtomicXchg m reg desc nextPC), l)
      | none => l.emitUnsupported inst "unmapped xchg register"
  | _, _ => l.emitUnsupported inst "unsupported xchg"

/-! ### the dispatch -/

/-- The eight instructions in `liftInstructionInternal`. -/
def liftMove (l : Arm64Lifter) (inst : Instruction) : Code × Arm64Lifter :=
  match unsupportedAddressing inst.inst with
  | some reason => l.emitUnsupported inst reason
  | none =>
      match inst.inst.op with
      | .mov => (asm (liftMov inst inst.nextPC), l)
      | .movzx => (asm (liftMovzx inst inst.nextPC), l)
      | .movsx | .movsxd => (asm (liftMovsx inst inst.nextPC), l)
      | .lea => (asm (liftLea inst inst.nextPC), l)
      | .xchg => liftXchg l inst inst.nextPC
      | .setcc cc =>
          let (pre, cond, l') := l.condFor cc
          (asm (pre ++ liftSetcc inst inst.nextPC cond), l')
      | .cmovcc cc =>
          let (pre, cond, l') := l.condFor cc
          (asm (pre ++ liftCmovcc inst inst.nextPC cond), l')
      | _ => l.emitUnsupported inst "not a move"

end PS4Recomp.Lifter
