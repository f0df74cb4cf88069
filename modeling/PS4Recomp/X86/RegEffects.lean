import PS4Recomp.Disasm.JumpTable
import PS4Recomp.Library.KnownValue

/-!
# Which general registers an instruction writes

The x86 table, for the sixteen general registers.

* `explicitGprs` — the operands an instruction writes;
* `implicitGprs` — the registers it writes without naming them;
* `gprsWritten`, `regEffect` — both, and the effect on the registers: the address a RIP-relative `LEA`
  puts into a 64- or 32-bit register and a 64-bit copy are exact, the rest is left open.

A call stands for its callee, which keeps the registers that the System V ABI asks it to keep.  The
registers that an operation without a constructor writes beside its first operand are a parameter.
-/

namespace PS4Recomp.X86

open Disasm Library

/-- The general register of an operand. -/
def argGpr (i : Inst) (n : ℕ) : List Gpr :=
  match i.arg n with
  | some (.reg r) => (gprFamily r).toList
  | _ => []

/-- The operation works on bytes. -/
def byteOperand (i : Inst) : Bool :=
  match i.arg 0 with
  | some (.reg (.b _)) | some (.reg (.h _)) => true
  | some (.mem _) => i.memBytes == 1
  | _ => false

/-- The operands an instruction writes. -/
def explicitGprs (i : Inst) : List Gpr :=
  match i.op with
  | .cmp | .test | .bt | .nop | .ud2 | .push | .call | .jmp | .mul | .div | .idiv | .out
  | .scas _ | .cmps _ => []
  | .imul => if i.args.length ≤ 1 then [] else argGpr i 0
  | .xchg | .xadd | .mulx => argGpr i 0 ++ argGpr i 1
  | _ => argGpr i 0

/-- The registers of a one-operand product or quotient. -/
def wideGprs (i : Inst) : List Gpr := if byteOperand i then [.rax] else [.rax, .rdx]

/-- The registers a string operation moves, with its count. -/
def stringGprs (i : Inst) (gs : List Gpr) : List Gpr :=
  if i.args.any Arg.isVector then [] else if hasRepPrefix i then .rcx :: gs else gs

/-- The registers an instruction writes without naming them. -/
def implicitGprs (unnamed : ℕ → List Gpr) (i : Inst) : List Gpr :=
  match i.op with
  | .mul | .div | .idiv => wideGprs i
  | .imul => if i.args.length ≤ 1 then wideGprs i else []
  | .cmpxchg => [.rax]
  | .cmpxchg8b | .cmpxchg16b => [.rax, .rdx]
  | .lahf | .cbw | .cwde | .cdqe => [.rax]
  | .cwd | .cdq | .cqo => [.rdx]
  | .push | .pop | .pushf | .pushfd | .pushfq | .popf | .popfd | .popfq => [.rsp]
  | .ret | .lret | .iret | .iretd | .iretq => [.rsp]
  | .leave | .enter => [.rsp, .rbp]
  | .loop | .loope | .loopne => [.rcx]
  | .movs _ | .cmps _ => stringGprs i [.rsi, .rdi]
  | .stos _ | .scas _ | .insb | .insw | .insd => stringGprs i [.rdi]
  | .lods _ => stringGprs i [.rax, .rsi]
  | .outsb | .outsw | .outsd => stringGprs i [.rsi]
  | .cpuid => [.rax, .rbx, .rcx, .rdx]
  | .rdtsc | .xgetbv | .rdmsr => [.rax, .rdx]
  | .rdtscp => [.rax, .rcx, .rdx]
  | .pcmpistri | .pcmpestri | .vpcmpistri | .vpcmpestri => [.rcx]
  | .call => [.rax, .rcx, .rdx, .rsi, .rdi, .r8, .r9, .r10, .r11]
  | .other n => unnamed n
  | _ => []

/-- The general registers an instruction writes. -/
def gprsWritten (unnamed : ℕ → List Gpr) (i : Inst) : List Gpr :=
  explicitGprs i ++ implicitGprs unnamed i

/-- What an instruction does to the general registers. -/
def regEffect (unnamed : ℕ → List Gpr) (i : Instruction) : KnownValue.Effect Gpr (BitVec 64) :=
  match i.inst.op, i.inst.arg 0, i.inst.arg 1 with
  | .lea, some (.reg (.q g)), some (.mem m) =>
      if m.base = some .rip then .const g (ripTarget i.nextPC m)
      else .havoc (· ∈ gprsWritten unnamed i.inst)
  | .lea, some (.reg (.l g)), some (.mem m) =>
      -- a 32-bit result is zero-extended
      if m.base = some .rip then .const g (((ripTarget i.nextPC m).truncate 32).setWidth 64)
      else .havoc (· ∈ gprsWritten unnamed i.inst)
  | .mov, some (.reg (.q g)), some (.reg (.q g')) => .copy g g'
  | _, _, _ => .havoc (· ∈ gprsWritten unnamed i.inst)

end PS4Recomp.X86
