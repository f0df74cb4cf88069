import PS4Recomp.Arm64.Run
import PS4Recomp.X86.Inst

/-!
# The lifter's state and its lines

* `Label`, `Arm64Lifter`, `CarryPol` — the labels of the lowered text, the lifter, and the sense in which
  the ARM carry holds `CF`;
* `normalizeCarry`, `carryCond`, `condFor` — the carry sense in conditions;
* `loadImm32`, `loadImm64` and their specs — immediates;
* `emitUnsupported` — the trap of an instruction that is not lowered.

A function of the source that returns lines and changes the lifter returns both here.
-/

namespace PS4Recomp.Lifter

open X86 Arm64 Library

/-- The labels of the lowered text, by the format string that names them. -/
inductive Label where
  | block (fn target : Addr)
  | func (a : Addr)
  | indirectJump
  | unsupportedInstruction
  | tsoOk (n : ℕ)
  | tsoDone (n : ℕ)
  | lockLoop (n : ℕ)
  | lockCasOk (n : ℕ)
  | skip (fn : Addr) (n : ℕ)
  | loopSkip (op : Op) (a : Addr) (n : ℕ)
  | outside (fn a : Addr)
  | notLocal (fn a : Addr)
  deriving DecidableEq

/-- Lowered instructions without labels. -/
abbrev Asm := List (Instr Label)

/-- Lowered text. -/
abbrev Code := List (Line Label)

/-- How ARM `C` holds x86 `CF`: as its complement, as `CF`, or both are clear. -/
inductive CarryPol where
  | carrySub | carryAdd | carryClear
  deriving DecidableEq, Repr

/-- `Arm64Lifter`.  The function being lifted is told by its entry. -/
structure Arm64Lifter where
  knownFuncs : Addr → Bool
  currentFn : Option Addr := none
  unsuppCounter : ℕ := 0
  labelCounter : ℕ := 0
  cpol : CarryPol := .carrySub
  noTSO : Bool := false

namespace Arm64Lifter

/-- `normalizeCarry`. -/
def normalizeCarry (l : Arm64Lifter) : Asm × Arm64Lifter :=
  if l.cpol = .carrySub then ([], l) else ([.cfinv], { l with cpol := .carrySub })

/-- The ARM condition that holds when `CF = want`. -/
def carryCond (l : Arm64Lifter) (want : Bool) : Arm64.Cond :=
  if (l.cpol == .carrySub) = want then .cc else .cs

/-- `condFor`: the ARM condition for an x86 condition, and what must run before it is used. -/
def condFor (l : Arm64Lifter) (cc : X86.Cond) : Asm × Arm64.Cond × Arm64Lifter :=
  match cc with
  | .o | .p => ([], .vs, l)
  | .no | .np => ([], .vc, l)
  | .b => ([], l.carryCond true, l)
  | .ae => ([], l.carryCond false, l)
  | .e => ([], .eq, l)
  | .ne => ([], .ne, l)
  | .be =>
      match l.cpol with
      | .carryClear => ([], .eq, l)
      | .carryAdd => (l.normalizeCarry.1, .ls, l.normalizeCarry.2)
      | .carrySub => ([], .ls, l)
  | .a =>
      match l.cpol with
      | .carryClear => ([], .ne, l)
      | .carryAdd => (l.normalizeCarry.1, .hi, l.normalizeCarry.2)
      | .carrySub => ([], .hi, l)
  | .s => ([], .mi, l)
  | .ns => ([], .pl, l)
  | .l => ([], .lt, l)
  | .ge => ([], .ge, l)
  | .le => ([], .le, l)
  | .g => ([], .gt, l)

end Arm64Lifter

/-! ### immediates -/

/-- `loadImm32`. -/
def loadImm32 (reg : XReg) (val : BitVec 32) : Asm :=
  if val.toNat ≤ 0xffff then [.movImm .w reg (val.setWidth 64)]
  else
    let low := val.setWidth 16
    let hi := val.extractLsb' 16 16
    .movz .w reg low 0 :: if hi ≠ 0 then [.movk .w reg hi 16] else []

/-- The loop of `loadImm64` over the chunks of sixteen bits. -/
def loadChunks (reg : XReg) (val : BitVec 64) : List ℕ → (first : Bool) → Asm
  | [], _ => []
  | lsl :: lsls, first =>
      let chunk := val.extractLsb' lsl 16
      if chunk ≠ 0 then
        (if first then .movz .x reg chunk lsl else .movk .x reg chunk lsl) ::
          loadChunks reg val lsls false
      else loadChunks reg val lsls first

/-- `loadImm64`. -/
def loadImm64 (reg : XReg) (val : BitVec 64) : Asm :=
  if val = 0 then [.movImm .x reg 0]
  else if val.toNat ≤ 0xffff then [.movz .x reg (val.setWidth 16) 0]
  else loadChunks reg val [0, 16, 32, 48] true

/-! ### traps -/

/-- `emitUnsupported`.  The text of the message is a comment here; the string constant and the
register that points to it are left out. -/
def Arm64Lifter.emitUnsupported (l : Arm64Lifter) (inst : Instruction) (reason : String) : Code × Arm64Lifter :=
  (.comment reason ::
    asm (loadImm64 0 inst.address ++ loadImm64 1 (l.currentFn.getD 0) ++
      [.b .unsupportedInstruction]),
    { l with unsuppCounter := l.unsuppCounter + 1 })

/-! ### what the immediates leave -/

/-- The low bits of a word. -/
def lowBits (k : ℕ) (v : BitVec 64) : BitVec 64 := (v.setWidth k).setWidth 64

theorem getLsbD_lowBits (k : ℕ) (v : BitVec 64) (i : ℕ) :
    (lowBits k v).getLsbD i = (decide (i < 64) && (decide (i < k) && v.getLsbD i)) := by
  rw [lowBits, BitVec.getLsbD_setWidth, BitVec.getLsbD_setWidth]

/-- `MOVK` adds a chunk of sixteen bits to the low bits. -/
theorem movk_lowBits (v : BitVec 64) (lsl : ℕ) :
    (lowBits lsl v &&& ~~~((0xffff#16).setWidth 64 <<< lsl)) |||
      (v.extractLsb' lsl 16).setWidth 64 <<< lsl = lowBits (lsl + 16) v := by
  have hones : (0xffff#16) = BitVec.allOnes 16 := rfl
  apply BitVec.eq_of_getLsbD_eq
  intro i hi
  rw [hones]
  simp only [BitVec.getLsbD_or, BitVec.getLsbD_and, BitVec.getLsbD_not, BitVec.getLsbD_shiftLeft,
    BitVec.getLsbD_setWidth, BitVec.getLsbD_allOnes, BitVec.getLsbD_extractLsb', getLsbD_lowBits]
  by_cases hlo : i < lsl
  · simp [hlo, hi, show i < lsl + 16 by omega]
  · have hback : lsl + (i - lsl) = i := by omega
    by_cases hhi : i < lsl + 16
    · simp [hlo, hi, hhi, hback, show i - lsl < 16 by omega, show i - lsl < 64 by omega]
    · simp [hlo, hhi, show ¬ i - lsl < 16 by omega]

theorem lowBits_of_zero {v : BitVec 64} {lsl : ℕ} (h : v.extractLsb' lsl 16 = 0) :
    lowBits (lsl + 16) v = lowBits lsl v := by
  have hk := movk_lowBits v lsl
  rw [h] at hk
  rw [← hk]
  apply BitVec.eq_of_getLsbD_eq
  intro i hi
  have hones : (0xffff#16) = BitVec.allOnes 16 := rfl
  rw [hones]
  simp only [BitVec.getLsbD_or, BitVec.getLsbD_and, BitVec.getLsbD_not, BitVec.getLsbD_shiftLeft,
    BitVec.getLsbD_setWidth, BitVec.getLsbD_allOnes, getLsbD_lowBits]
  by_cases hlo : i < lsl
  · simp [hlo, hi]
  · simp [hlo]

/-- **The loop of `loadImm64`** from the chunk at `16 * k` on: the register holds the low bits, or
they are all clear and it is untouched. -/
theorem execs_loadChunks {reg : XReg} (hreg : reg ≠ 31) (val : BitVec 64) :
    ∀ (n k : ℕ) (s : State), k + n = 4 →
      (execs (loadChunks reg val ((List.range' k n).map (16 * ·)) false)
          (s.set reg (lowBits (16 * k) val)) = s.set reg val) ∧
      (lowBits (16 * k) val = 0 → val ≠ 0 →
        execs (loadChunks reg val ((List.range' k n).map (16 * ·)) true) s = s.set reg val) := by
  intro n
  induction n with
  | zero =>
      intro k s hk
      obtain rfl : k = 4 := by omega
      have hall : lowBits 64 val = val := by simp [lowBits]
      refine ⟨?_, fun h0 hne => absurd (hall.symm.trans h0) hne⟩
      show s.set reg (lowBits 64 val) = _
      rw [hall]
  | succ n ih =>
      intro k s hk
      have hstep := movk_lowBits val (16 * k)
      obtain ⟨ihcont, ihfirst⟩ := ih (k + 1) s (by omega)
      rw [show 16 * (k + 1) = 16 * k + 16 by ring] at ihcont ihfirst
      rw [List.range'_succ, List.map_cons]
      simp only [loadChunks]
      by_cases hc : val.extractLsb' (16 * k) 16 = 0
      · rw [lowBits_of_zero hc] at ihcont ihfirst
        simp only [hc, ne_eq, not_true_eq_false, if_false]
        exact ⟨ihcont, ihfirst⟩
      · simp only [hc, ne_eq, not_false_eq_true, if_true]
        refine ⟨?_, fun h0 _ => ?_⟩
        · rw [← ihcont, ← hstep, execs_cons]
          congr 1
          show (s.set reg _).set reg (BitVec.setWidth 64
            ((((s.set reg _).get reg).setWidth 64 &&& ~~~((0xffff#16).setWidth 64 <<< (16 * k))) |||
              (val.extractLsb' (16 * k) 16).setWidth 64 <<< (16 * k))) = _
          rw [State.set_set, State.get_set_self hreg, BitVec.setWidth_eq, BitVec.setWidth_eq]
        · rw [← ihcont, ← hstep, h0, execs_cons]
          congr 1
          show s.set reg (BitVec.setWidth 64
            ((val.extractLsb' (16 * k) 16).setWidth 64 <<< (16 * k))) = _
          have hzero : ∀ m v : BitVec 64, 0 &&& m ||| v = v := fun m v => by simp
          rw [BitVec.setWidth_eq, hzero]

theorem execs_loadImm64 {reg : XReg} (hreg : reg ≠ 31) (val : BitVec 64) (s : State) :
    execs (loadImm64 reg val) s = s.set reg val := by
  unfold loadImm64
  split
  · rename_i h0
    subst h0
    rfl
  · rename_i hne
    split
    · rename_i hsmall
      show s.set reg (BitVec.setWidth 64 ((val.setWidth 16).setWidth 64 <<< 0)) = _
      rw [BitVec.setWidth_eq, BitVec.shiftLeft_zero]
      congr 1
      apply BitVec.eq_of_toNat_eq
      simp only [BitVec.toNat_setWidth]
      omega
    · have hzero : lowBits (16 * 0) val = 0 := by
        apply BitVec.eq_of_toNat_eq
        simp [lowBits, Nat.mod_one]
      exact (execs_loadChunks hreg val 4 0 s rfl).2 hzero hne

theorem execs_loadImm32 {reg : XReg} (hreg : reg ≠ 31) (val : BitVec 32) (s : State) :
    execs (loadImm32 reg val) s = s.set reg (val.setWidth 64) := by
  unfold loadImm32
  split
  · show s.set reg (BitVec.setWidth 64 ((val.setWidth 64).setWidth 32)) = _
    congr 1
    apply BitVec.eq_of_toNat_eq
    simp only [BitVec.toNat_setWidth]
    omega
  · have hlow : (val.setWidth 16).setWidth 32 <<< 0 = (val.setWidth 16).setWidth 32 :=
      BitVec.shiftLeft_zero _
    simp only
    split
    · show (s.set reg (BitVec.setWidth 64 ((val.setWidth 16).setWidth 32 <<< 0))).set reg
        (BitVec.setWidth 64 (((State.get (s.set reg
          (BitVec.setWidth 64 ((val.setWidth 16).setWidth 32 <<< 0))) reg).setWidth 32 &&&
          ~~~((0xffff#16).setWidth 32 <<< 16)) ||| (val.extractLsb' 16 16).setWidth 32 <<< 16)) = _
      rw [State.set_set, State.get_set_self hreg, hlow]
      congr 2
      apply BitVec.eq_of_getLsbD_eq
      intro i hi
      have hones : (0xffff#16) = BitVec.allOnes 16 := rfl
      rw [hones]
      simp only [BitVec.getLsbD_or, BitVec.getLsbD_and, BitVec.getLsbD_not,
        BitVec.getLsbD_shiftLeft, BitVec.getLsbD_setWidth, BitVec.getLsbD_allOnes,
        BitVec.getLsbD_extractLsb']
      by_cases hlo : i < 16
      · simp [hlo, hi, show i < 64 by omega]
      · simp [hlo, hi, show i - 16 < 16 by omega, show i - 16 < 32 by omega,
          show 16 + (i - 16) = i by omega]
    · rename_i hhi
      show s.set reg (BitVec.setWidth 64 ((val.setWidth 16).setWidth 32 <<< 0)) = _
      rw [hlow]
      congr 1
      have hz : val.extractLsb' 16 16 = 0 := by simpa using hhi
      have hnat := congrArg BitVec.toNat hz
      rw [BitVec.extractLsb'_toNat, Nat.shiftRight_eq_div_pow] at hnat
      apply BitVec.eq_of_toNat_eq
      simp only [BitVec.toNat_setWidth]
      have hlt := val.isLt
      change val.toNat / 2 ^ 16 % 2 ^ 16 = 0 at hnat
      omega

end PS4Recomp.Lifter
