import PS4Recomp.Disasm.CarryLiveness

/-!
# Flag liveness inside a block

`analyzeBlockFlagLiveness` of `cfg.go`: an instruction that defines every arithmetic flag is marked
`SkipFlags` when the flags are redefined before anything in its block reads them.

* `readsAnyFlag`, `definesAllFlags` — the two classifications;
* `markSkip` — the backward walk, with the flags live at the end of the block.
-/

namespace PS4Recomp.Disasm

open X86

/-- Whether an instruction can read an arithmetic flag, or pass one on that the pass must respect. -/
def readsAnyFlag (inst : Inst) : Bool :=
  match inst.op with
  | .jcc _ | .jcxz | .jecxz | .jrcxz | .loop | .loope | .loopne
  | .setcc _ | .cmovcc _
  | .adc | .sbb | .rcl | .rcr | .cmc | .lahf
  | .pushf | .pushfd | .pushfq | .fcmovcc _ => true
  | _ => (knownCarryOverflowEffect inst).isNone

/-- Whether an instruction writes, or leaves undefined, every arithmetic flag. -/
def definesAllFlags (inst : Inst) : Bool :=
  match inst.op with
  | .add | .sub | .cmp | .test | .and | .or | .xor | .neg
  | .tzcnt | .lzcnt | .bsf | .bsr => true
  | .shl | .shr | .sar => shiftsByImm inst
  | _ => false

/-- The walk through a block, last instruction first; the second component is `flagsLive` before
the first instruction. -/
def markSkip : List Instruction → List Instruction × Bool
  | [] => ([], true)
  | i :: is =>
      let r := markSkip is
      let i' := if definesAllFlags i.inst && !r.2 then { i with skipFlags := true } else i
      let live := if readsAnyFlag i.inst then true else if definesAllFlags i.inst then false else r.2
      (i' :: r.1, live)

/-- The function with its blocks marked. -/
def analyzeBlockFlagLiveness (fn : Function) : Function :=
  fn.withBlocks (fun a => (fn.blocks a).map fun b => { b with insts := (markSkip b.insts).1 })
    fun a => by rw [Option.isSome_map]

end PS4Recomp.Disasm
