import PS4Recomp.Library.CellCode
import PS4Recomp.Lifter.Guest
import PS4Recomp.X86.Vector

/-!
# Vector instructions

The ARM64 vector instructions the lowerings of the vector helpers use, as operations on registers that a
line of code names: `VecOp` has the rest of an instruction.

A vector register an instruction changes in part is an operand of it as well, the first one.
-/

namespace PS4Recomp.Arm64

/-- Vector instructions.  `w` is the width of the lanes and `hi` tells the forms with `2` at the end
of the mnemonic, which take the upper half of their sources or write that of their destination. -/
inductive VecOp where
  /-- Any instruction on general registers. -/
  | scalar (i : Instr Lifter.Label)
  /-- `str xN, [sp, #-16]!`. -/
  | pushX (r : XReg)
  /-- `ldr xN, [sp], #16`. -/
  | popX (r : XReg)
  /-- `ldr qN, [x28, xM]`. -/
  | ldrQ (rm : XReg)
  /-- `ldr dN, [x28, xM]`. -/
  | ldrD (rm : XReg)
  /-- `ldr dN, [x5, #mmxOffset(k)]`, with the context in `x5`. -/
  | ldrMmx (k : Fin 8)
  /-- `str dN, [x5, #mmxOffset(k)]`. -/
  | strMmx (k : Fin 8)
  | mov
  | moviZero
  | eor
  | bic
  | bsl
  | neg (w : ℕ)
  | cmltZero (w : ℕ)
  | cmeqZero (w : ℕ)
  | sub (w : ℕ)
  | mul (w : ℕ)
  /-- `sqadd` on the lanes of the lower half. -/
  | sqaddHalf (w : ℕ)
  | uxtl (w : ℕ) (hi : Bool)
  | sxtl (w : ℕ) (hi : Bool)
  | smull (w : ℕ) (hi : Bool)
  | rshrn (w k : ℕ)
  | rshrn2 (w k : ℕ)
  | uzp1 (w : ℕ)
  | uzp2 (w : ℕ)
  /-- `uzp2` on the lanes of the lower halves. -/
  | uzp2Half (w : ℕ)
  | trn1 (w : ℕ)
  | trn2 (w : ℕ)
  /-- `dup vD.2d, vN.d[i]`. -/
  | dupD (i : ℕ)
  /-- `mov vD.T[i], vN.T[j]`. -/
  | ins (w i j : ℕ)
  /-- `mov vD.T[i], rN`. -/
  | insX (w i : ℕ) (rn : XReg)
  /-- `umov wD, vN.T[i]`. -/
  | umov (w i : ℕ) (rd : XReg)
  /-- `uminv`. -/
  | uminv (w : ℕ)
  /-- `pmull vD.1q, vN.1d, vM.1d`. -/
  | pmull
  | aese
  | aesd
  | aesmc
  | aesimc
  /-- `bl _recomp_vaeskeygenassist` with the lines that keep `x8`-`x15`, `x29` and `x30` on the stack
  around it. -/
  | callKeygen

end PS4Recomp.Arm64
