import PS4Recomp.X86.Semantics

/-!
# Vector instructions

The packed multiplies, sign changes, minimum search, carry-less multiplication and AES instructions, by
name.

* `VecInst` — the instructions;
* `VecInst.op` — their operations, in the legacy and in the VEX form.
-/

namespace PS4Recomp.X86

/-- The instructions of this file. -/
inductive VecInst where
  | pmaddubsw | pmuldq | pmulhw | pmulhrsw | phminposuw | psignb | psignw | psignd | phsubd
  | pclmulqdq | aesenc | aesenclast | aesdec | aesdeclast | aesimc | aeskeygenassist
  deriving DecidableEq, Repr

namespace VecInst

/-- Their numbers among the operations without a name of their own. -/
def number : VecInst → ℕ
  | .pmaddubsw => 0
  | .pmuldq => 1
  | .pmulhw => 2
  | .pmulhrsw => 3
  | .phminposuw => 4
  | .psignb => 5
  | .psignw => 6
  | .psignd => 7
  | .phsubd => 8
  | .pclmulqdq => 9
  | .aesenc => 10
  | .aesenclast => 11
  | .aesdec => 12
  | .aesdeclast => 13
  | .aesimc => 14
  | .aeskeygenassist => 15

/-- The operation of the legacy and of the VEX form. -/
def op (k : VecInst) (vex : Bool) : Op := if vex then .otherV k.number else .other k.number

end VecInst

end PS4Recomp.X86
