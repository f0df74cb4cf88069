import PS4Recomp.Disasm.CarryLiveness

/-!
# Which arithmetic flags an instruction reads and defines

The x86 table, for the six arithmetic flags.

* `flagsRead` — the flags an instruction reads; those of an unknown one are all of them;
* `flagsDefined` — the flags it writes or leaves undefined, whatever its operands hold.

A shift by `CL`, or by a masked count of 0, defines none, and so does a string comparison with a
repeat prefix, which may compare nothing.  `INT` saves the flags for a handler outside the program.
A call stands for its callee: the System V ABI hands no flag to it and takes none back.
-/

namespace PS4Recomp.X86

open Disasm

/-- The arithmetic flags. -/
inductive ArithFlag where
  | cf | pf | af | zf | sf | of
  deriving DecidableEq, Repr

/-- The flags of a condition. -/
def Cond.flags : Cond → Set ArithFlag
  | .o | .no => {.of}
  | .b | .ae => {.cf}
  | .e | .ne => {.zf}
  | .be | .a => {.cf, .zf}
  | .s | .ns => {.sf}
  | .p | .np => {.pf}
  | .l | .ge => {.sf, .of}
  | .le | .g => {.zf, .sf, .of}

/-- The flags of a condition of `FCMOVcc`. -/
def FCond.flags : FCond → Set ArithFlag
  | .b | .nb => {.cf}
  | .e | .ne => {.zf}
  | .be | .nbe => {.cf, .zf}
  | .u | .nu => {.pf}

/-- The flags an instruction reads. -/
def flagsRead (i : Inst) : Set ArithFlag :=
  match i.op with
  | .jcc c | .setcc c | .cmovcc c => c.flags
  | .fcmovcc c => c.flags
  | .adc | .sbb | .rcl | .rcr | .cmc => {.cf}
  | .lahf => {.cf, .pf, .af, .zf, .sf}
  | .pushf | .pushfd | .pushfq => Set.univ
  | .loope | .loopne => {.zf}
  -- one without a name here and without a vector operand
  | .other _ => if i.args.any Arg.isVector then ∅ else Set.univ
  | _ => ∅

/-- The flags an instruction writes or leaves undefined. -/
def flagsDefined (i : Inst) : Set ArithFlag :=
  match i.op with
  | .add | .sub | .cmp | .neg | .adc | .sbb | .xadd | .cmpxchg => Set.univ
  -- `AF` is undefined
  | .test | .and | .or | .xor => Set.univ
  | .inc | .dec => {.cf}ᶜ
  -- `AF`, and `OF` but for a count of 1, are undefined
  | .shl | .shr | .sar | .shld | .shrd => if shiftsByImm i then Set.univ else ∅
  | .rol | .ror | .rcl | .rcr => if shiftsByImm i then {.cf, .of} else ∅
  | .mul | .imul | .div | .idiv => Set.univ
  | .bt | .bts | .btr | .btc => {.zf}ᶜ
  -- `BSF` and `BSR` write `ZF`, `TZCNT` and `LZCNT` `CF` and `ZF`; the others are undefined
  | .bsf | .bsr | .tzcnt | .lzcnt | .popcnt => Set.univ
  | .andn | .bextr | .blsi | .blsr | .blsmsk | .bzhi => Set.univ
  | .cmpxchg8b | .cmpxchg16b => {.zf}
  | .clc | .stc | .cmc => {.cf}
  | .sahf => {.of}ᶜ
  | .popf | .popfd | .popfq => Set.univ
  | .scas _ | .cmps _ => if hasRepPrefix i then ∅ else Set.univ
  | .comiss | .ucomiss | .comisd | .ucomisd | .vcomiss | .vucomiss | .vcomisd | .vucomisd
  | .ptest | .vptest | .vtestps | .vtestpd
  | .pcmpistri | .pcmpestri | .pcmpistrm | .pcmpestrm
  | .vpcmpistri | .vpcmpestri | .vpcmpistrm | .vpcmpestrm => Set.univ
  | .fcomi | .fcomip | .fucomi | .fucomip => {.cf, .pf, .zf}
  | .call => Set.univ
  | _ => ∅

end PS4Recomp.X86
