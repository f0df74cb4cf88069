import PS4Recomp.Library.ByteMemory

/-!
# Decoded x86-64 instructions

The data `x86asm.Decode` hands to the recompiler: operations, registers, memory references,
immediates and the wrapper `Instruction` that adds the guest address and the three marks of the
flag passes.

* `Op` — the operations the modelled functions tell apart.  The families of the source that differ
  in a condition or an element width only (`Jcc`, `SETcc`, `CMOVcc`, `FCMOVcc`, the string
  operations) are one constructor with a parameter.  Every operation no modelled function names is
  `otherV`, `otherF` or `other`, by the first letter of its mnemonic, which `flagNeutral` and
  `tsoApplies` look at.
* `Reg` — general registers by width, with `AH`-`DH` apart, as `arm64RegMap` groups them.
* `Inst`, `Instruction`, `BasicBlock`, `Function` — the records of `pkg/disasm/cfg.go`.

Addresses are `BitVec 64` (`uint64`); `Imm` and `Disp` keep the 64-bit pattern of the source's
`int64`, `Rel` the 32-bit pattern of its `int32`.
-/

namespace PS4Recomp.X86

abbrev Addr := BitVec 64

instance lawfulBEq_addr : LawfulBEq Addr := instLawfulBEq

/-- The sixteen x86 conditions, in encoding order (`x86CondIndex`: O = 0 ... G = 15). -/
inductive Cond where
  | o | no | b | ae | e | ne | be | a | s | ns | p | np | l | ge | le | g
  deriving DecidableEq, Repr

/-- The eight conditions of `FCMOVcc`. -/
inductive FCond where
  | b | e | be | u | nb | ne | nbe | nu
  deriving DecidableEq, Repr

/-- Element widths of the string operations. -/
inductive StrWidth where
  | b | w | d | q
  deriving DecidableEq, Repr

/-- Operations. -/
inductive Op where
  -- integer arithmetic and logic
  | add | sub | cmp | test | and | or | xor | adc | sbb | inc | dec | neg | not
  | shl | shr | sar | rol | ror | rcl | rcr | shld | shrd
  | mul | imul | div | idiv | xadd | xchg | cmpxchg | cmpxchg8b | cmpxchg16b
  | bt | bts | btr | btc | bsf | bsr | tzcnt | lzcnt | popcnt
  | andn | bextr | blsi | blsr | blsmsk | bzhi | shlx | shrx | sarx | rorx | mulx | crc32
  -- flags
  | clc | stc | cmc | lahf | sahf | cld | std | pushf | pushfd | pushfq | popf | popfd | popfq
  -- conditions
  | jcc (c : Cond) | setcc (c : Cond) | cmovcc (c : Cond) | fcmovcc (c : FCond)
  -- control
  | jmp | call | ret | lret | ud2 | hlt | int | jcxz | jecxz | jrcxz | loop | loope | loopne
  -- data movement
  | mov | movzx | movsx | movsxd | movbe | movnti | lea | nop | push | pop | bswap
  | cbw | cwde | cdqe | cwd | cdq | cqo | leave | enter
  -- strings (`MOVSD` and `CMPSD` share their mnemonic with the SSE moves and compares)
  | movs (k : StrWidth) | stos (k : StrWidth) | lods (k : StrWidth)
  | scas (k : StrWidth) | cmps (k : StrWidth)
  -- fences, hints and system state
  | lfence | sfence | mfence | pause | clflush
  | prefetchnta | prefetcht0 | prefetcht1 | prefetcht2 | prefetchw
  | cpuid | rdtsc | rdtscp | xgetbv | ldmxcsr | stmxcsr | vldmxcsr | vstmxcsr
  | fxsave | fxrstor | xsave | xrstor | emms
  -- vector and x87 compares
  | comiss | ucomiss | comisd | ucomisd | vcomiss | vucomiss | vcomisd | vucomisd
  | ptest | vptest | vtestps | vtestpd | fcomi | fcomip | fucomi | fucomip
  | pcmpistri | pcmpestri | pcmpistrm | pcmpestrm
  | vpcmpistri | vpcmpestri | vpcmpistrm | vpcmpestrm
  -- privileged (`isPrivileged`)
  | inOp | insb | insw | insd | out | outsb | outsw | outsd | cli | sti
  | iret | iretd | iretq | lgdt | clts | wbinvd | invd | invlpg | rdmsr | wrmsr
  | swapgs | sysret | sysexit
  -- everything else, by the first letter of its mnemonic
  | otherV (n : ℕ) | otherF (n : ℕ) | other (n : ℕ)
  deriving DecidableEq, Repr

/-- The mnemonic starts with `V` (`strings.HasPrefix(op.String(), "V")`). -/
def Op.nameV : Op → Bool
  | .vldmxcsr | .vstmxcsr | .vcomiss | .vucomiss | .vcomisd | .vucomisd
  | .vptest | .vtestps | .vtestpd
  | .vpcmpistri | .vpcmpestri | .vpcmpistrm | .vpcmpestrm | .otherV _ => true
  | _ => false

/-- The mnemonic starts with `F`. -/
def Op.nameF : Op → Bool
  | .fcmovcc _ | .fxsave | .fxrstor | .fcomi | .fcomip | .fucomi | .fucomip | .otherF _ => true
  | _ => false

/-- The sixteen general registers. -/
inductive Gpr where
  | rax | rcx | rdx | rbx | rsp | rbp | rsi | rdi
  | r8 | r9 | r10 | r11 | r12 | r13 | r14 | r15
  deriving DecidableEq, Repr

/-- The registers whose bits 15:8 have a name (`AH`, `CH`, `DH`, `BH`). -/
inductive High where
  | ah | ch | dh | bh
  deriving DecidableEq, Repr

def High.gpr : High → Gpr
  | .ah => .rax
  | .ch => .rcx
  | .dh => .rdx
  | .bh => .rbx

/-- Segment registers. -/
inductive Seg where
  | es | cs | ss | ds | fs | gs
  deriving DecidableEq, Repr

/-- Registers: `b` low bytes (`AL` ... `R15B`), `h` high bytes, `w`/`l`/`q` the 16-, 32- and
64-bit names. -/
inductive Reg where
  | b (g : Gpr) | h (g : High) | w (g : Gpr) | l (g : Gpr) | q (g : Gpr)
  | eip | rip
  | seg (s : Seg)
  | mm (n : Fin 8) | xmm (n : Fin 32) | ymm (n : Fin 32)
  | other (n : ℕ)
  deriving DecidableEq, Repr

/-- `Segment:[Base+Scale*Index+Disp]`; `none` is the source's zero register. -/
structure Mem where
  segment : Option Seg
  base : Option Reg
  scale : ℕ
  index : Option Reg
  disp : BitVec 64
  deriving DecidableEq, Repr

/-- One operand. -/
inductive Arg where
  | reg (r : Reg)
  | mem (m : Mem)
  | imm (v : BitVec 64)
  | rel (v : BitVec 32)
  deriving DecidableEq, Repr

/-- A decoded instruction (`x86asm.Inst`).  `args` holds the operands before the first nil one;
`prefixes` the prefix slots before the first zero one. -/
structure Inst where
  prefixes : List (BitVec 16) := []
  op : Op
  opcode : BitVec 32 := 0
  addrSize : ℕ := 64
  dataSize : ℕ := 0
  memBytes : ℕ := 0
  len : ℕ
  args : List Arg := []
  deriving DecidableEq, Repr

/-- `inst.Args[n]`. -/
def Inst.arg (i : Inst) (n : ℕ) : Option Arg := i.args[n]?

/-- A decoded instruction with its guest address and the marks of the flag passes. -/
structure Instruction where
  address : Addr
  inst : Inst
  skipFlags : Bool := false
  carryDead : Bool := false
  overflowDead : Bool := false
  deriving DecidableEq, Repr

/-- The address of the byte after the instruction. -/
def Instruction.nextPC (i : Instruction) : Addr := i.address + BitVec.ofNat 64 i.inst.len

/-- The target of a `Rel` operand: `uint64(int64(nextPC) + int64(rel))`. -/
def Instruction.relTarget (i : Instruction) (rel : BitVec 32) : Addr :=
  i.nextPC + rel.signExtend 64

/-- A straight-line sequence of instructions (`disasm.BasicBlock`). -/
structure BasicBlock where
  startAddr : Addr
  endAddr : Addr
  insts : List Instruction
  deriving DecidableEq, Repr

/-- A recovered function (`disasm.Function`).  `blocks` is the source's map from start addresses
to blocks, `jumpTables` its map from the address of an indirect jump to the recovered targets.
`blockOrder` is built by listing the keys of that map, each once, in some order. -/
structure Function where
  entryAddr : Addr
  endAddr : Addr
  blocks : Addr → Option BasicBlock
  blockOrder : List Addr
  jumpTables : Addr → List Addr
  usesYmm : Bool := false
  mem_blockOrder : ∀ a, a ∈ blockOrder ↔ (blocks a).isSome
  nodup_blockOrder : blockOrder.Nodup

/-- A function with its blocks rewritten in place. -/
def Function.withBlocks (fn : Function) (m : Addr → Option BasicBlock)
    (h : ∀ a, (m a).isSome = (fn.blocks a).isSome) : Function :=
  { fn with blocks := m, mem_blockOrder := fun a => by rw [h, fn.mem_blockOrder] }

/-- `isJcc`: the conditional branches, `JrCXZ` and `LOOPcc` included. -/
def isJcc : Op → Bool
  | .jcc _ | .jcxz | .jecxz | .jrcxz | .loop | .loope | .loopne => true
  | _ => false

end PS4Recomp.X86
