import PS4Recomp.X86.Inst

/-!
# Carry and overflow liveness: the pass

`carry_liveness.go`.  The ARM64 lifter keeps x86 `CF` in ARM `C` with a sense that depends on the
last writer, and drops the work of a flag that nobody reads.  The pass marks every instruction
whose `CF` or `OF` is dead after it.

* `knownCarryOverflowEffect`, `carryOverflowEffect` — what an instruction reads and defines;
* `blockSuccessors` — where control can go from the end of a block;
* `markInsts` — the backward walk through one block, `visit` one block of a sweep;
* `analyzeCarryOverflowLiveness` — sweeps over the blocks until one changes nothing.

The Go loop has no bound; `rounds` counts its sweeps.  `CarryExact` shows how many are enough and
what the marks mean.
-/

namespace PS4Recomp.Disasm

open X86

/-- `flagCF`, `flagOF`. -/
inductive Flag where
  | cf | of
  deriving DecidableEq, Repr

instance : Fintype Flag := ⟨{.cf, .of}, fun f => by cases f <;> decide⟩

/-! ### what an instruction reads and defines -/

/-- A REP/REPE (F3) or REPNE (F2) prefix. -/
def hasRepPrefix (inst : Inst) : Bool :=
  inst.prefixes.any fun p => p &&& 0xff#16 == 0xf3#16 || p &&& 0xff#16 == 0xf2#16

/-- The masked immediate count of a shift or rotate. -/
def shiftImmCount (inst : Inst) : Option (BitVec 64) :=
  if inst.args.length ≤ 1 then none
  else match inst.args.getLast? with
    | some (.imm v) =>
        let mask : BitVec 64 := match inst.arg 0 with
          | some (.reg (.q _)) => 0x3f
          | _ => if inst.dataSize = 64 ∨ inst.memBytes = 8 then 0x3f else 0x1f
        some (v &&& mask)
    | _ => none

/-- A non-zero immediate count (`ok && c != 0`). -/
def shiftsByImm (inst : Inst) : Bool :=
  match shiftImmCount inst with
  | some c => c != 0
  | none => false

/-- An SSE or MMX register operand. -/
def Arg.isVector : Arg → Bool
  | .reg (.xmm n) => n < 16
  | .reg (.mm _) => true
  | _ => false

/-- Instructions that neither read nor write any of the arithmetic flags. -/
def flagNeutral (inst : Inst) : Bool :=
  match inst.op with
  | .mov | .movzx | .movsx | .movsxd | .movbe | .movnti | .lea
  | .nop | .push | .pop | .xchg | .bswap | .not
  | .cbw | .cwde | .cdqe | .cwd | .cdq | .cqo
  | .shlx | .shrx | .sarx | .rorx | .mulx
  | .crc32 | .cmpxchg8b | .cmpxchg16b
  | .lfence | .sfence | .mfence | .pause | .clflush
  | .prefetchnta | .prefetcht0 | .prefetcht1 | .prefetcht2 | .prefetchw
  | .cld | .std | .movs _ | .stos _ | .lods _
  | .cpuid | .rdtsc | .rdtscp | .xgetbv | .leave | .enter
  | .ldmxcsr | .stmxcsr | .vldmxcsr | .vstmxcsr
  | .fxsave | .fxrstor | .xsave | .xrstor | .emms
  | .ret | .jmp | .int | .ud2 | .hlt => true
  | op => op.nameV || op.nameF || inst.args.any Arg.isVector

/-- What the condition `c` reads of `CF` and `OF`. -/
def condCarryOverflow : Cond → Finset Flag
  | .b | .ae | .be | .a => {.cf}
  | .o | .no | .l | .ge | .le | .g => {.of}
  | .e | .ne | .s | .ns | .p | .np => ∅

/-- The same for the conditions of `FCMOVcc`. -/
def fcondCarryOverflow : FCond → Finset Flag
  | .b | .nb | .be | .nbe => {.cf}
  | .e | .ne | .u | .nu => ∅

/-- The `CF`/`OF` bits an instruction reads before writing and the bits it defines; `none` for an
instruction it does not classify. -/
def knownCarryOverflowEffect (inst : Inst) : Option (Finset Flag × Finset Flag) :=
  match inst.op with
  | .jcc c | .setcc c | .cmovcc c => some (condCarryOverflow c, ∅)
  | .fcmovcc c => some (fcondCarryOverflow c, ∅)
  | .lahf => some ({.cf}, ∅)
  | .jcxz | .jecxz | .jrcxz | .loop | .loope | .loopne => some (∅, ∅)
  | .pushf | .pushfd | .pushfq => some (Finset.univ, ∅)
  | .adc | .sbb => some ({.cf}, Finset.univ)
  | .cmc => some ({.cf}, {.cf})
  | .clc | .stc => some (∅, {.cf})
  | .inc | .dec => some (∅, {.of})
  | .sahf => some (∅, {.cf})
  | .add | .sub | .cmp | .test | .and | .or | .xor | .neg
  | .bsf | .bsr | .tzcnt | .lzcnt | .popcnt
  | .mul | .imul | .div | .idiv
  | .andn | .bextr | .blsi | .blsr | .blsmsk | .bzhi
  | .comiss | .ucomiss | .comisd | .ucomisd
  | .vcomiss | .vucomiss | .vcomisd | .vucomisd
  | .ptest | .vptest | .vtestps | .vtestpd
  | .bt | .bts | .btr | .btc
  | .popf | .popfd | .popfq | .cmpxchg | .xadd
  | .fcomi | .fcomip | .fucomi | .fucomip
  | .pcmpistri | .pcmpestri | .pcmpistrm | .pcmpestrm
  | .vpcmpistri | .vpcmpestri | .vpcmpistrm | .vpcmpestrm
  | .call => some (∅, Finset.univ)
  | .cmps _ | .scas _ => some (∅, if hasRepPrefix inst then ∅ else Finset.univ)
  | .shl | .shr | .sar | .rol | .ror | .shld | .shrd =>
      some (∅, if shiftsByImm inst then Finset.univ else ∅)
  | .rcl | .rcr => some ({.cf}, if shiftsByImm inst then Finset.univ else ∅)
  | _ => if flagNeutral inst then some (∅, ∅) else none

/-- An instruction that is not classified reads both flags and defines none. -/
def carryOverflowEffect (inst : Inst) : Finset Flag × Finset Flag :=
  (knownCarryOverflowEffect inst).getD (Finset.univ, ∅)

/-! ### where control goes -/

/-- `INT 0x41`, which the lifter lowers to a no-op. -/
def isOrbisDebugBreak (inst : Inst) : Bool :=
  inst.op == .int && inst.arg 0 == some (.imm 0x41)

/-- The closure `local` of `blockSuccessors`: a known block is a successor, a function entry is a
tail call (the flags are dead there), anything else is unknown. -/
def localTarget (fn : Function) (isFunc : Option (Addr → Bool)) (acc : List Addr × Bool)
    (t : Addr) : List Addr × Bool :=
  if (fn.blocks t).isSome then (acc.1 ++ [t], acc.2)
  else match isFunc with
    | some f => (acc.1, acc.2 || !f t)
    | none => (acc.1, true)

/-- The fall-through edge of a block that ends before `nextPC`. -/
def fallEdge (fn : Function) (acc : List Addr × Bool) (nextPC : Addr) : List Addr × Bool :=
  if (fn.blocks nextPC).isSome then (acc.1 ++ [nextPC], acc.2) else (acc.1, true)

/-- The blocks control can reach from the end of `b`, and whether a successor is unknown. -/
def blockSuccessors (fn : Function) (b : BasicBlock) (isFunc : Option (Addr → Bool)) :
    List Addr × Bool :=
  match b.insts.getLast? with
  | none => ([], true)
  | some last =>
      if isOrbisDebugBreak last.inst then fallEdge fn ([], false) last.nextPC
      else match last.inst.op with
        | .ret | .lret | .ud2 | .hlt | .int => ([], false)
        | .jmp =>
            match last.inst.arg 0 with
            | some (.rel r) => localTarget fn isFunc ([], false) (last.relTarget r)
            | _ =>
                match fn.jumpTables last.address with
                | [] => ([], true)
                | ts => ts.foldl (localTarget fn isFunc) ([], false)
        | op =>
            if isJcc op then
              let acc := match last.inst.arg 0 with
                | some (.rel r) => localTarget fn isFunc ([], false) (last.relTarget r)
                | _ => ([], true)
              fallEdge fn acc last.nextPC
            else fallEdge fn ([], false) last.nextPC

/-! ### the pass -/

/-- `infos[addr]` without its `in` field, which is `Pass.live`. -/
structure Info where
  succs : List Addr
  unknown : Bool

/-- The state of the loop: the blocks with their marks, and the flags live into each block. -/
structure Pass where
  blocks : Addr → Option BasicBlock
  live : Addr → Finset Flag

/-- The flags live at the end of a block. -/
def liveAtEnd (bi : Info) (live : Addr → Finset Flag) : Finset Flag :=
  bi.succs.foldl (fun l s => l ∪ live s) (if bi.unknown then Finset.univ else ∅)

/-- The walk through the instructions of a block, last one first: each is marked with the flags
live after it; the second component is what is live before the first. -/
def markInsts : List Instruction → Finset Flag → List Instruction × Finset Flag
  | [], live => ([], live)
  | i :: is, live =>
      let r := markInsts is live
      let e := carryOverflowEffect i.inst
      ({ i with carryDead := .cf ∉ r.2, overflowDead := .of ∉ r.2 } :: r.1, (r.2 \ e.2) ∪ e.1)

/-- One block of a sweep; the flag is the source's `changed`. -/
def visit (infos : Addr → Option Info) (st : Pass) (addr : Addr) : Pass × Bool :=
  match st.blocks addr, infos addr with
  | some b, some bi =>
      let r := markInsts b.insts (liveAtEnd bi st.live)
      let blocks := Function.update st.blocks addr (some { b with insts := r.1 })
      if r.2 = st.live addr then (⟨blocks, st.live⟩, false)
      else (⟨blocks, Function.update st.live addr r.2⟩, true)
  | _, _ => (st, false)

/-- One sweep over the blocks. -/
def round (infos : Addr → Option Info) : List Addr → Pass → Pass × Bool
  | [], st => (st, false)
  | addr :: order, st =>
      let r := visit infos st addr
      let r' := round infos order r.1
      (r'.1, r.2 || r'.2)

/-- Sweeps until one changes nothing. -/
def rounds (infos : Addr → Option Info) (order : List Addr) : ℕ → Pass → Option Pass
  | 0, _ => none
  | fuel + 1, st =>
      let r := round infos order st
      if r.2 then rounds infos order fuel r.1 else some r.1

/-- The table `infos`. -/
def infosOf (fn : Function) (isFunc : Option (Addr → Bool)) (addr : Addr) : Option Info :=
  (fn.blocks addr).map fun b =>
    let s := blockSuccessors fn b isFunc
    ⟨s.1, s.2⟩

/-- The blocks and the live-in table after the loop, from the last block of the order to the
first. -/
def analyzeCarryOverflowLiveness (fn : Function) (isFunc : Option (Addr → Bool)) (fuel : ℕ) :
    Option Pass :=
  rounds (infosOf fn isFunc) fn.blockOrder.reverse fuel ⟨fn.blocks, fun _ => ∅⟩

end PS4Recomp.Disasm
