import Mathlib
import PS4Recomp.Arm64.Float
import PS4Recomp.Lifter.Guest

/-!
# Bit fields of AMD

`liftSSE4A`: `EXTRQ` and `INSERTQ`, in the form with immediates and in the one with a control word.

* `Sse4aOp`, `decodeSSE4A` — the instructions and their bytes;
* `sse4aField`, `liftSSE4A` — the field of the immediate forms, and the code;
* `Field`, `sse4aControl` — a field of a quadword, and the one an instruction names;
* `Field.extract`, `Field.insert` — what is taken out of a quadword, and a quadword with it replaced;
* `extract_control`, `insert_control` — the words that the forms with a control word compute,
  `extract_fits`, `insert_fits` — a field cut at bit 64 is the same;
* `Computes`, `EndsIn` — code that computes in scratch registers and ends in a write of a low quadword;
* `SameButField` — the field changed and nothing else, **`sse4a_fields`** — every form does that.

A field that runs past bit 63 has the bits below bit 64.  Where an operand of the immediate forms is no
immediate the Go code panics, which is no code here.
-/

namespace PS4Recomp.Lifter

open X86 Arm64 Library

/-! ### the code -/

/-- `OpEXTRQ` and `OpINSERTQ`. -/
inductive Sse4aOp where
  | extrq | insertq
  deriving DecidableEq

/-- Their numbers, past every operation of `x86asm`. -/
def Sse4aOp.op : Sse4aOp → Op
  | .extrq => .other (1 <<< 16)
  | .insertq => .other (1 <<< 16 + 1)

/-- The operation of an instruction: what is not `EXTRQ` is `INSERTQ`. -/
def sse4aOp (inst : Inst) : Sse4aOp := if inst.op = Sse4aOp.extrq.op then .extrq else .insertq

/-- `x86asm.X0` with the three bits of a field of ModRM and the bit of REX. -/
def sse4aReg (bits : BitVec 8) (rex : Bool) : Arg :=
  .reg (.xmm (Fin.ofNat 32 ((bits &&& 7).toNat + if rex then 8 else 0)))

/-- The operation and the operands by the mandatory prefix, the opcode, ModRM, REX and the last bytes. -/
def sse4aArgs (is66 imm : Bool) (modrm rex length index : BitVec 8) : Option (Sse4aOp × List Arg) :=
  let reg := sse4aReg (modrm >>> 3) (rex &&& 4 != 0)
  let rm := sse4aReg modrm (rex &&& 1 != 0)
  let imms : List Arg := [.imm (length.setWidth 64), .imm (index.setWidth 64)]
  match is66, imm with
  | true, true => if modrm >>> 3 &&& 7 ≠ 0 then none else some (.extrq, rm :: imms)
  | true, false => some (.extrq, [reg, rm])
  | false, true => some (.insertq, reg :: rm :: imms)
  | false, false => some (.insertq, [reg, rm])

/-- `decodeSSE4A`. -/
def decodeSSE4A (b : List (BitVec 8)) : Option Inst := do
  let byte (i : ℕ) : BitVec 8 := b.getD i 0
  guard (4 ≤ b.length ∧ (byte 0 = 0x66 ∨ byte 0 = 0xf2))
  let hasRex : Bool := byte 1 &&& 0xf0 == 0x40
  let rex : BitVec 8 := if hasRex then byte 1 else 0
  let i := if hasRex then 2 else 1
  guard (i + 3 ≤ b.length ∧ byte i = 0x0f ∧ (byte (i + 1) = 0x78 ∨ byte (i + 1) = 0x79))
  let imm : Bool := byte (i + 1) == 0x78
  let modrm := byte (i + 2)
  guard (modrm >>> 6 = 3)
  let n := if imm then i + 5 else i + 3
  guard (n ≤ b.length)
  let (op, args) ← sse4aArgs (byte 0 == 0x66) imm modrm rex (byte (n - 2)) (byte (n - 1))
  pure { op := op.op, dataSize := 64, len := n, args }

/-- The vector register of `xmm0` to `xmm15`. -/
def xmmOf : Option Arg → Option VReg
  | some (.reg (.xmm n)) => if n < 16 then some n else none
  | _ => none

/-- `sse4aField`. -/
def sse4aField (length index : BitVec 64) : ℕ × ℕ :=
  let idx := (index &&& 63).toNat
  let w := (length &&& 63).toNat
  let w := if w = 0 then 64 else w
  (idx, if 64 < idx + w then 64 - idx else w)

/-- `EXTRQ` with immediates. -/
def extrqImm (d : VReg) (idx w : ℕ) : List FpInstr :=
  if idx = 0 ∧ w = 64 then []
  else [.fmovOut .d 16 d, .core (.ubfx .x 16 16 idx w), .insD d 16]

/-- `EXTRQ` with a control word. -/
def extrqReg (d v : VReg) : List FpInstr :=
  [.fmovOut .d 17 v, .fmovOut .d 16 d, .core (.shift .lsr .x 6 17 8), .core (.shiftV .lsr .x 16 16 6),
    .core (.neg false .x 7 17), .core (.movImm .x 6 (-1)), .core (.shiftV .lsr .x 6 6 7),
    .core (.logic .and false .x 16 16 (.reg 6 0)), .insD d 16]

/-- `INSERTQ` with immediates. -/
def insertqImm (d v : VReg) (idx w : ℕ) : List FpInstr :=
  [.fmovOut .d 16 v, .fmovOut .d 17 d, .core (.bfi 17 16 idx w), .insD d 17]

/-- `INSERTQ` with a control word. -/
def insertqReg (d v : VReg) : List FpInstr :=
  [.umovD 17 v 1, .fmovOut .d 16 v, .core (.neg false .x 7 17), .core (.movImm .x 6 (-1)),
    .core (.shiftV .lsr .x 6 6 7), .core (.shift .lsr .x 7 17 8), .core (.shiftV .lsl .x 6 6 7),
    .core (.shiftV .lsl .x 16 16 7), .core (.logic .and false .x 16 16 (.reg 6 0)), .fmovOut .d 17 d,
    .core (.bic .x 17 17 6), .core (.logic .orr false .x 16 16 (.reg 17 0)), .insD d 16]

/-- `liftSSE4A`: the code or the reason that it is unsupported. -/
def liftSSE4A (inst : Inst) : Option (Except String (List FpInstr)) :=
  match xmmOf (inst.arg 0) with
  | none => some (.error "SSE4A destination is not an XMM register")
  | some d =>
      match sse4aOp inst, inst.arg 1 with
      | .extrq, some (.imm length) =>
          match inst.arg 2 with
          | some (.imm index) => some (.ok (extrqImm d (sse4aField length index).1 (sse4aField length index).2))
          | _ => none
      | _, _ =>
          match xmmOf (inst.arg 1) with
          | none => some (.error "SSE4A source is not an XMM register")
          | some v =>
              match sse4aOp inst with
              | .extrq => some (.ok (extrqReg d v))
              | .insertq =>
                  match inst.arg 2 with
                  | some (.imm length) =>
                      match inst.arg 3 with
                      | some (.imm index) =>
                          some (.ok (insertqImm d v (sse4aField length index).1 (sse4aField length index).2))
                      | _ => none
                  | _ => some (.ok (insertqReg d v))

/-! ### fields -/

/-- The length and the index of a field, in their low six bits. -/
structure Field where
  length : ℕ
  index : ℕ

namespace Field

/-- The number of bits; a length of 0 means 64. -/
def width (f : Field) : ℕ := if f.length % 64 = 0 then 64 else f.length % 64

/-- The first bit. -/
def start (f : Field) : ℕ := f.index % 64

/-- The field shifted down to bit 0. -/
def extract (f : Field) (x : BitVec 64) : BitVec 64 := (x.extractLsb' f.start f.width).setWidth 64

/-- A quadword with the field replaced by the low bits of another. -/
def insert (f : Field) (x y : BitVec 64) : BitVec 64 := insertBits f.start f.width x (y.setWidth f.width)

theorem width_le (f : Field) : f.width ≤ 64 := by
  rw [width]
  split
  · exact le_rfl
  · exact (Nat.mod_lt _ (by decide)).le

end Field

/-- The low quadword of a vector register. -/
def lowQuad (x : BitVec 128) : BitVec 64 := x.setWidth 64

/-- The field of a control word: the length in bits 5:0, the index in bits 13:8. -/
def controlWord (c : BitVec 64) : Field := ⟨c.toNat, (c >>> 8).toNat⟩

/-- The field of an instruction: in its immediates, or in bits 13:0 or 77:64 of its source. -/
def sse4aControl (inst : Inst) (v : VReg → BitVec 128) : Field :=
  match sse4aOp inst with
  | .extrq =>
      match inst.arg 1, inst.arg 2 with
      | some (.imm length), some (.imm index) => ⟨length.toNat, index.toNat⟩
      | _, _ => controlWord (lowQuad (v ((xmmOf (inst.arg 1)).getD 0)))
  | .insertq =>
      match inst.arg 2, inst.arg 3 with
      | some (.imm length), some (.imm index) => ⟨length.toNat, index.toNat⟩
      | _, _ => controlWord ((v ((xmmOf (inst.arg 1)).getD 0)).extractLsb' 64 64)

/-- What an instruction leaves in the low quadword of its destination. -/
def sse4aResult (inst : Inst) (v : VReg → BitVec 128) (d : VReg) : BitVec 64 :=
  match sse4aOp inst with
  | .extrq => (sse4aControl inst v).extract (lowQuad (v d))
  | .insertq => (sse4aControl inst v).insert (lowQuad (v d)) (lowQuad (v ((xmmOf (inst.arg 1)).getD 0)))

/-! ### words -/

variable {f : Field} {x y c : BitVec 64}

theorem getLsbD_extract {i : ℕ} (hi : i < 64) :
    (f.extract x).getLsbD i = (decide (i < f.width) && x.getLsbD (f.start + i)) := by
  rw [Field.extract, BitVec.getLsbD_setWidth, BitVec.getLsbD_extractLsb', decide_eq_true hi, Bool.true_and]

theorem getLsbD_insert {i : ℕ} (hi : i < 64) : (f.insert x y).getLsbD i =
    if f.start ≤ i ∧ i < f.start + f.width then y.getLsbD (i - f.start) else x.getLsbD i := by
  rw [Field.insert, getLsbD_insertBits _ _ _ _ hi]
  split
  · rename_i hin
    rw [BitVec.getLsbD_setWidth, decide_eq_true (by omega), Bool.true_and]
  · rfl

/-- The low bits of a field, from a shift by the length negated. -/
theorem getLsbD_mask (c : BitVec 64) {i : ℕ} :
    ((-1 : BitVec 64) >>> ((-c).toNat % 64)).getLsbD i = decide (i < (Field.mk c.toNat 0).width) := by
  have hc := c.isLt
  have hshift : (-c).toNat % 64 + (Field.mk c.toNat 0).width = 64 := by
    rw [BitVec.toNat_neg, Field.width]
    dsimp only
    split
    · omega
    · omega
  have hones : (-1 : BitVec 64) = BitVec.allOnes 64 := by decide
  rw [BitVec.getLsbD_ushiftRight, hones, BitVec.getLsbD_allOnes]
  exact decide_eq_decide.2 (by omega)

theorem sse4aField_spec (length index : BitVec 64) :
    (sse4aField length index).1 = (Field.mk length.toNat index.toNat).start ∧
      (sse4aField length index).2 = min (Field.mk length.toNat index.toNat).width
        (64 - (Field.mk length.toNat index.toNat).start) := by
  have hmod : ∀ x : BitVec 64, (x &&& 63).toNat = x.toNat % 64 := by
    intro x
    rw [BitVec.toNat_and]
    exact Nat.and_two_pow_sub_one_eq_mod x.toNat 6
  have hlt := Nat.mod_lt index.toNat (by decide : 0 < 64)
  rw [sse4aField]
  dsimp only [Field.start, Field.width]
  rw [hmod, hmod]
  refine ⟨rfl, ?_⟩
  split
  · split
    · omega
    · omega
  · split
    · omega
    · omega

/-- The word of the form of `EXTRQ` with a control word. -/
theorem extract_control (x c : BitVec 64) :
    (x >>> ((c >>> 8).toNat % 64)) &&& ((-1 : BitVec 64) >>> ((-c).toNat % 64)) =
      (controlWord c).extract x := by
  apply BitVec.eq_of_getLsbD_eq
  intro i hi
  rw [getLsbD_extract hi, BitVec.getLsbD_and, getLsbD_mask, BitVec.getLsbD_ushiftRight, Bool.and_comm]
  rfl

/-- The word of the form of `INSERTQ` with a control word. -/
theorem insert_control (x y c : BitVec 64) :
    ((y <<< ((c >>> 8).toNat % 64)) &&&
        (((-1 : BitVec 64) >>> ((-c).toNat % 64)) <<< ((c >>> 8).toNat % 64))) |||
      (x &&& ~~~(((-1 : BitVec 64) >>> ((-c).toNat % 64)) <<< ((c >>> 8).toNat % 64))) =
    (controlWord c).insert x y := by
  apply BitVec.eq_of_getLsbD_eq
  intro i hi
  have hstart : (controlWord c).start = (c >>> 8).toNat % 64 := rfl
  have hwidth : (Field.mk c.toNat 0).width = (controlWord c).width := rfl
  rw [getLsbD_insert hi, hstart]
  simp only [BitVec.getLsbD_or, BitVec.getLsbD_and, BitVec.getLsbD_not, BitVec.getLsbD_shiftLeft, getLsbD_mask,
    decide_eq_true hi, Bool.true_and, hwidth]
  generalize (c >>> 8).toNat % 64 = k
  generalize (controlWord c).width = w
  by_cases hlow : i < k
  · rw [decide_eq_true hlow, if_neg (by omega)]
    simp only [Bool.not_true, Bool.false_and, Bool.false_or, Bool.not_false, Bool.and_true]
  · by_cases hin : i - k < w
    · rw [decide_eq_false hlow, decide_eq_true hin, if_pos (by omega)]
      simp only [Bool.not_false, Bool.true_and, Bool.and_true, Bool.not_true, Bool.and_false, Bool.or_false]
    · rw [decide_eq_false hlow, decide_eq_false hin, if_neg (by omega)]
      simp only [Bool.not_false, Bool.and_false, Bool.false_or, Bool.and_true]

/-- The part of a field below bit 64 has the whole of what is extracted. -/
theorem extract_fits (f : Field) (x : BitVec 64) :
    (x.extractLsb' f.start (min f.width (64 - f.start))).setWidth 64 = f.extract x := by
  apply BitVec.eq_of_getLsbD_eq
  intro i hi
  rw [getLsbD_extract hi, BitVec.getLsbD_setWidth, BitVec.getLsbD_extractLsb', decide_eq_true hi, Bool.true_and]
  by_cases hfits : f.start + i < 64
  · exact congrArg (· && _) (decide_eq_decide.2 (by omega))
  · rw [BitVec.getLsbD_of_ge x _ (by omega), Bool.and_false, Bool.and_false]

theorem extract_cut (length index x : BitVec 64) :
    (x.extractLsb' (sse4aField length index).1 (sse4aField length index).2).setWidth 64 =
      (Field.mk length.toNat index.toNat).extract x := by
  rw [(sse4aField_spec length index).1, (sse4aField_spec length index).2]
  exact extract_fits _ x

theorem insert_fits (f : Field) (x y : BitVec 64) :
    insertBits f.start (min f.width (64 - f.start)) x (y.setWidth _) = f.insert x y := by
  apply BitVec.eq_of_getLsbD_eq
  intro i hi
  rw [getLsbD_insert hi, getLsbD_insertBits _ _ _ _ hi]
  by_cases hin : f.start ≤ i ∧ i < f.start + f.width
  · rw [if_pos hin, if_pos (by omega), BitVec.getLsbD_setWidth, decide_eq_true (by omega), Bool.true_and]
  · rw [if_neg hin, if_neg (by omega)]

theorem insert_cut (length index x y : BitVec 64) :
    insertBits (sse4aField length index).1 (sse4aField length index).2 x (y.setWidth _) =
      (Field.mk length.toNat index.toNat).insert x y := by
  rw [(sse4aField_spec length index).1, (sse4aField_spec length index).2]
  exact insert_fits _ x y

theorem extract_whole {f : Field} (hs : f.start = 0) (hw : f.width = 64) (x : BitVec 64) : f.extract x = x := by
  apply BitVec.eq_of_getLsbD_eq
  intro i hi
  rw [getLsbD_extract hi, hs, hw, decide_eq_true hi, Bool.true_and, Nat.zero_add]

/-! ### runs -/

variable {s t u : FpState} {d v : VReg}

/-- Only scratch registers have changed. -/
structure Computes (s t : FpState) : Prop where
  v : t.v = s.v
  fpcr : t.fpcr = s.fpcr
  regs : ∀ r ∉ scratch, t.core.get r = s.core.get r
  flags : t.core.flags = s.core.flags
  mem : t.core.mem = s.core.mem
  sp : t.core.sp = s.core.sp

/-- A scratch register written. -/
def putX (s : FpState) (r : XReg) (x : BitVec 64) : FpState := { s with core := s.core.set r x }

theorem Computes.refl (s : FpState) : Computes s s := ⟨rfl, rfl, fun _ _ => rfl, rfl, rfl, rfl⟩

theorem Computes.put (h : Computes s t) {r : XReg} (hr : r ∈ scratch) (x : BitVec 64) :
    Computes s (putX t r x) where
  v := h.v
  fpcr := h.fpcr
  regs r' hr' := by
    have hne : r' ≠ r := fun heq => hr' (heq ▸ hr)
    exact (State.get_set_ne hne).trans (h.regs r' hr')
  flags := (State.set_flags ..).trans h.flags
  mem := (State.set_mem ..).trans h.mem
  sp := (State.set_sp ..).trans h.sp

@[simp] theorem putX_v (s : FpState) (r : XReg) (x : BitVec 64) : (putX s r x).v = s.v := rfl

theorem putX_self (s : FpState) {r : XReg} (hr : r ≠ 31) (x : BitVec 64) : (putX s r x).core.get r = x :=
  State.get_set_self hr

theorem putX_ne (s : FpState) {r r' : XReg} (hr : r' ≠ r) (x : BitVec 64) :
    (putX s r x).core.get r' = s.core.get r' := State.get_set_ne hr

section Steps

variable (rd rn rm : XReg) (k w : ℕ) (x : BitVec 64)

theorem exec_fmovScratch : (FpInstr.exec (.fmovOut .d rd v) s) = putX s rd (lowQuad (s.v v)) :=
  congrArg (putX s rd) (BitVec.setWidth_eq _)

theorem exec_umovScratch : (FpInstr.exec (.umovD rd v 1) s) = putX s rd ((s.v v).extractLsb' 64 64) := rfl

theorem exec_lsrScratch : FpInstr.exec (.core (.shift .lsr .x rd rn k)) s = putX s rd (s.core.get rn >>> k) :=
  congrArg (fun t : State => { s with core := t }) (exec_shiftX rd rn k s.core .lsr)

theorem exec_lsrvScratch : FpInstr.exec (.core (.shiftV .lsr .x rd rn rm)) s =
    putX s rd (s.core.get rn >>> ((s.core.get rm).toNat % 64)) :=
  congrArg (fun t : State => { s with core := t }) (exec_shiftVX rd rn rm s.core .lsr)

theorem exec_lslvScratch : FpInstr.exec (.core (.shiftV .lsl .x rd rn rm)) s =
    putX s rd (s.core.get rn <<< ((s.core.get rm).toNat % 64)) :=
  congrArg (fun t : State => { s with core := t }) (exec_shiftVX rd rn rm s.core .lsl)

theorem exec_negScratch : FpInstr.exec (.core (.neg false .x rd rm)) s = putX s rd (-s.core.get rm) :=
  congrArg (fun t : State => { s with core := t }) (exec_negX rd rm s.core)

theorem exec_movScratch : FpInstr.exec (.core (.movImm .x rd x)) s = putX s rd x :=
  congrArg (fun t : State => { s with core := t }) (exec_movXImm rd x s.core)

theorem exec_ubfxScratch : FpInstr.exec (.core (.ubfx .x rd rn k w)) s =
    putX s rd (((s.core.get rn).extractLsb' k w).setWidth 64) :=
  congrArg (fun t : State => { s with core := t }) (exec_ubfxX rd rn k s.core w)

theorem exec_bfiScratch : FpInstr.exec (.core (.bfi rd rn k w)) s =
    putX s rd (insertBits k w (s.core.get rd) ((s.core.get rn).setWidth w)) := rfl

theorem exec_logicScratch (op : Logic) : FpInstr.exec (.core (.logic op false .x rd rn (.reg rm 0))) s =
    putX s rd (op.eval (s.core.get rn) (s.core.get rm)) :=
  congrArg (fun t : State => { s with core := t }) (exec_logicX op rd rn rm s.core)

theorem exec_bicScratch : FpInstr.exec (.core (.bic .x rd rn rm)) s =
    putX s rd (s.core.get rn &&& ~~~s.core.get rm) := by
  have hbic : (Instr.bic .x rd rn rm : Instr ℕ).exec s.core =
      s.core.set rd (s.core.get rn &&& ~~~s.core.get rm) := by
    rw [Instr.bic, Instr.exec_dp, State.getW_x, State.getW_x]
    exact State.setW_x ..
  exact congrArg (fun t : State => { s with core := t }) hbic

end Steps

/-- The code computes in scratch registers and ends with the word of `r` in the low quadword of `d`. -/
def EndsIn (code : List FpInstr) (s : FpState) (d : VReg) (w : BitVec 64) : Prop :=
  ∃ t r, Computes s t ∧ t.core.get r = w ∧ fpMachine.execs code s = FpInstr.exec (.insD d r) t

theorem extrqImm_ends {idx w : ℕ} (h : ¬(idx = 0 ∧ w = 64)) :
    EndsIn (extrqImm d idx w) s d (((lowQuad (s.v d)).extractLsb' idx w).setWidth 64) := by
  refine ⟨_, 16, (((Computes.refl s).put (r := 16) (by decide) (lowQuad (s.v d))).put (r := 16) (by decide) _),
    putX_self _ (by decide) _, ?_⟩
  rw [extrqImm, if_neg h, fexecs_cons, fexecs_cons, fexecs_cons, fexecs_nil, exec_fmovScratch, exec_ubfxScratch,
    putX_self _ (by decide)]

theorem extrqReg_ends : EndsIn (extrqReg d v) s d
    ((controlWord (lowQuad (s.v v))).extract (lowQuad (s.v d))) := by
  have hcount := (((Computes.refl s).put (r := 17) (by decide) (lowQuad (s.v v))).put (r := 16) (by decide)
    (lowQuad (s.v d))).put (r := 6) (by decide) (lowQuad (s.v v) >>> 8)
  have hshift := hcount.put (r := 16) (by decide) (lowQuad (s.v d) >>> ((lowQuad (s.v v) >>> 8).toNat % 64))
  have hmask := ((hshift.put (r := 7) (by decide) (-lowQuad (s.v v))).put (r := 6) (by decide) (-1)).put
    (r := 6) (by decide) ((-1 : BitVec 64) >>> ((-lowQuad (s.v v)).toNat % 64))
  refine ⟨_, 16, hmask.put (r := 16) (by decide) _, (putX_self _ (by decide) _).trans (extract_control ..), ?_⟩
  simp (disch := decide) only [extrqReg, fexecs_cons, fexecs_nil, exec_fmovScratch, exec_lsrScratch, exec_lsrvScratch,
    exec_negScratch, exec_movScratch, exec_logicScratch, Logic.eval, putX_v, putX_self, putX_ne]

theorem insertqImm_ends (idx w : ℕ) : EndsIn (insertqImm d v idx w) s d
    (insertBits idx w (lowQuad (s.v d)) ((lowQuad (s.v v)).setWidth w)) := by
  have hread := ((Computes.refl s).put (r := 16) (by decide) (lowQuad (s.v v))).put (r := 17) (by decide)
    (lowQuad (s.v d))
  refine ⟨_, 17, hread.put (r := 17) (by decide) _, putX_self _ (by decide) _, ?_⟩
  simp (disch := decide) only [insertqImm, fexecs_cons, fexecs_nil, exec_fmovScratch, exec_bfiScratch, putX_v,
    putX_self, putX_ne]

theorem insertqReg_ends (hc : (s.v v).extractLsb' 64 64 = c) (hx : lowQuad (s.v d) = x)
    (hy : lowQuad (s.v v) = y) :
    EndsIn (insertqReg d v) s d ((controlWord c).insert x y) := by
  have hread := ((Computes.refl s).put (r := 17) (by decide) c).put (r := 16) (by decide) y
  have hones := (hread.put (r := 7) (by decide) (-c)).put (r := 6) (by decide) (-1)
  have hmask := hones.put (r := 6) (by decide) ((-1 : BitVec 64) >>> ((-c).toNat % 64))
  have hcount := hmask.put (r := 7) (by decide) (c >>> 8)
  have hplace := hcount.put (r := 6) (by decide)
    (((-1 : BitVec 64) >>> ((-c).toNat % 64)) <<< ((c >>> 8).toNat % 64))
  have hnew := (hplace.put (r := 16) (by decide) (y <<< ((c >>> 8).toNat % 64))).put (r := 16) (by decide)
    ((y <<< ((c >>> 8).toNat % 64)) &&&
      (((-1 : BitVec 64) >>> ((-c).toNat % 64)) <<< ((c >>> 8).toNat % 64)))
  have hold := (hnew.put (r := 17) (by decide) x).put (r := 17) (by decide)
    (x &&& ~~~(((-1 : BitVec 64) >>> ((-c).toNat % 64)) <<< ((c >>> 8).toNat % 64)))
  refine ⟨_, 16, hold.put (r := 16) (by decide) _, (putX_self _ (by decide) _).trans (insert_control ..), ?_⟩
  simp (disch := decide) only [insertqReg, fexecs_cons, fexecs_nil, exec_umovScratch, exec_fmovScratch, exec_lsrScratch,
    exec_lsrvScratch, exec_lslvScratch, exec_negScratch, exec_movScratch, exec_logicScratch, exec_bicScratch, Logic.eval,
    putX_v, putX_self, putX_ne, hc, hx, hy]

/-! ### the state after -/

/-- What an instruction leaves: the field in the low quadword of `d`, and everything else as it was. -/
structure SameButField (inst : Inst) (d : VReg) (s t : FpState) : Prop where
  low : lowQuad (t.v d) = sse4aResult inst s.v d
  high : (t.v d).extractLsb' 64 64 = (s.v d).extractLsb' 64 64
  other : ∀ n, n ≠ d → t.v n = s.v n
  fpcr : t.fpcr = s.fpcr
  regs : ∀ r, r ∉ scratch → t.core.get r = s.core.get r
  flags : t.core.flags = s.core.flags
  mem : t.core.mem = s.core.mem
  sp : t.core.sp = s.core.sp
  rep : ∀ c, Rep c s.core → Rep c t.core

theorem Computes.rep (h : Computes s t) {c : Cpu} (hrep : Rep c s.core) : Rep c t.core where
  gpr g := (h.regs _ fun hg => pin_ne_scratch g hg rfl).trans (hrep.gpr g)
  fs := (h.regs 27 (by decide)).trans hrep.fs
  mem := by
    rw [h.mem, h.regs 28 (by decide)]
    exact hrep.mem

theorem EndsIn.fields {code : List FpInstr} {inst : Inst} (h : EndsIn code s d (sse4aResult inst s.v d)) :
    SameButField inst d s (fpMachine.execs code s) := by
  obtain ⟨t, r, ht, hr, hrun⟩ := h
  rw [hrun]
  have hd : (FpInstr.exec (.insD d r) t).v d = (s.v d).extractLsb' 64 64 ++ t.core.get r := by
    rw [← ht.v]
    exact v_setV_self _
  exact
    { low := by
        rw [hd, hr]
        exact BitVec.setWidth_append_eq_right
      high := by
        rw [hd]
        exact BitVec.extractLsb'_append_eq_left
      other := fun n hn => (v_setV_ne hn _).trans (congrFun ht.v n)
      fpcr := ht.fpcr
      regs := ht.regs
      flags := ht.flags
      mem := ht.mem
      sp := ht.sp
      rep := fun _ => ht.rep }

theorem SameButField.of_same {inst : Inst} (h : sse4aResult inst s.v d = lowQuad (s.v d)) : SameButField inst d s s :=
  ⟨h.symm, rfl, fun _ _ => rfl, rfl, fun _ _ => rfl, rfl, rfl, rfl, fun _ hrep => hrep⟩

theorem extrq_fields {inst : Inst} {code : List FpInstr} (hop : sse4aOp inst = .extrq)
    (hd : xmmOf (inst.arg 0) = some d) (h : liftSSE4A inst = some (.ok code)) (s : FpState) :
    SameButField inst d s (fpMachine.execs code s) := by
  simp only [liftSSE4A, hd, hop] at h
  split at h
  · rename_i length _ hlen
    split at h
    · rename_i index hidx
      cases h
      have hresult : sse4aResult inst s.v d =
          (Field.mk length.toNat index.toNat).extract (lowQuad (s.v d)) := by
        simp only [sse4aResult, sse4aControl, hop, hlen, hidx]
      by_cases hwhole : (sse4aField length index).1 = 0 ∧ (sse4aField length index).2 = 64
      · rw [extrqImm, if_pos hwhole]
        refine SameButField.of_same (hresult.trans (extract_whole ?_ ?_ _))
        · exact (sse4aField_spec length index).1.symm.trans hwhole.1
        · have hcut := (sse4aField_spec length index).2.symm.trans hwhole.2
          exact le_antisymm (Field.width_le _) (hcut.symm.trans_le (min_le_left ..))
      · refine EndsIn.fields ?_
        rw [hresult, ← extract_cut]
        exact extrqImm_ends hwhole
    · cases h
  · rename_i himm
    split at h
    · cases h
    · rename_i v hsrc
      cases h
      refine EndsIn.fields ?_
      have hresult : sse4aResult inst s.v d = (controlWord (lowQuad (s.v v))).extract (lowQuad (s.v d)) := by
        simp only [sse4aResult, sse4aControl, hop, hsrc]
        split
        · rename_i length _ hlen _
          exact (himm length rfl hlen).elim
        · rfl
      rw [hresult]
      exact extrqReg_ends

theorem insertq_fields {inst : Inst} {code : List FpInstr} (hop : sse4aOp inst = .insertq)
    (hd : xmmOf (inst.arg 0) = some d) (h : liftSSE4A inst = some (.ok code)) (s : FpState) :
    SameButField inst d s (fpMachine.execs code s) := by
  simp only [liftSSE4A, hd, hop] at h
  split at h
  · cases h
  · rename_i v hsrc
    refine EndsIn.fields ?_
    split at h
    · rename_i length hlen
      split at h
      · rename_i index hidx
        cases h
        have hresult : sse4aResult inst s.v d =
            (Field.mk length.toNat index.toNat).insert (lowQuad (s.v d)) (lowQuad (s.v v)) := by
          simp only [sse4aResult, sse4aControl, hop, hsrc, hlen, hidx]
          rfl
        rw [hresult, ← insert_cut]
        exact insertqImm_ends ..
      · cases h
    · rename_i himm
      cases h
      have hresult : sse4aResult inst s.v d = (controlWord ((s.v v).extractLsb' 64 64)).insert
          (lowQuad (s.v d)) (lowQuad (s.v v)) := by
        simp only [sse4aResult, sse4aControl, hop, hsrc]
        split
        · rename_i length _ hlen _
          exact (himm length hlen).elim
        · rfl
      rw [hresult]
      exact insertqReg_ends rfl rfl rfl

/-- Code that an instruction is lowered to leaves its field. -/
theorem lifted_fields {inst : Inst} {code : List FpInstr} (hd : xmmOf (inst.arg 0) = some d)
    (h : liftSSE4A inst = some (.ok code)) (s : FpState) : SameButField inst d s (fpMachine.execs code s) := by
  cases hop : sse4aOp inst with
  | extrq => exact extrq_fields hop hd h s
  | insertq => exact insertq_fields hop hd h s

theorem xmmOf_sse4aReg (bits : BitVec 8) (rex : Bool) : ∃ n, xmmOf (some (sse4aReg bits rex)) = some n := by
  have hbits : (bits &&& 7).toNat ≤ 7 := by
    rw [BitVec.toNat_and]
    exact Nat.and_le_right
  refine ⟨_, if_pos ?_⟩
  rw [Fin.lt_def]
  refine (Nat.mod_le _ _).trans_lt ?_
  split
  · exact Nat.lt_of_le_of_lt (Nat.add_le_add_right hbits 8) (by decide)
  · exact Nat.lt_of_le_of_lt hbits (by decide)

theorem sse4aOp_of_op {inst : Inst} {o : Sse4aOp} (h : inst.op = o.op) : sse4aOp inst = o := by
  cases o with
  | extrq => exact if_pos h
  | insertq =>
    refine if_neg ?_
    rw [h]
    decide

theorem args_lifted {is66 imm : Bool} {modrm rex length index : BitVec 8} {o : Sse4aOp} {args : List Arg}
    (h : sse4aArgs is66 imm modrm rex length index = some (o, args)) {inst : Inst} (hop : inst.op = o.op)
    (hargs : inst.args = args) : ∃ code, liftSSE4A inst = some (.ok code) := by
  have ho := sse4aOp_of_op hop
  obtain ⟨r, hr⟩ := xmmOf_sse4aReg (modrm >>> 3) (rex &&& 4 != 0)
  obtain ⟨m, hm⟩ := xmmOf_sse4aReg modrm (rex &&& 1 != 0)
  simp only [sse4aArgs] at h
  split at h
  · split at h
    · cases h
    · cases h
      refine ⟨extrqImm m (sse4aField (length.setWidth 64) (index.setWidth 64)).1
        (sse4aField (length.setWidth 64) (index.setWidth 64)).2, ?_⟩
      simp only [liftSSE4A, Inst.arg, hargs, List.getElem?_cons_zero, List.getElem?_cons_succ, ho, hm]
  · cases h
    refine ⟨extrqReg r m, ?_⟩
    simp only [liftSSE4A, Inst.arg, hargs, List.getElem?_cons_zero, List.getElem?_cons_succ, ho, hr, hm]
    rfl
  · cases h
    refine ⟨insertqImm r m (sse4aField (length.setWidth 64) (index.setWidth 64)).1
      (sse4aField (length.setWidth 64) (index.setWidth 64)).2, ?_⟩
    simp only [liftSSE4A, Inst.arg, hargs, List.getElem?_cons_zero, List.getElem?_cons_succ, ho, hr, hm]
  · cases h
    refine ⟨insertqReg r m, ?_⟩
    simp only [liftSSE4A, Inst.arg, hargs, List.getElem?_cons_zero, List.getElem?_cons_succ, List.getElem?_nil, ho,
      hr, hm]

theorem decoded_lifted {b : List (BitVec 8)} {inst : Inst} (h : decodeSSE4A b = some inst) :
    ∃ code, liftSSE4A inst = some (.ok code) := by
  simp only [decodeSSE4A, Option.bind_eq_bind, Option.bind_eq_some_iff] at h
  obtain ⟨-, -, -, -, -, -, -, -, ⟨o, args⟩, hargs, hinst⟩ := h
  cases hinst
  exact args_lifted hargs rfl rfl

theorem sse4aResult_congr {inst inst' : Inst} {w : VReg → BitVec 128} (hop : sse4aOp inst' = sse4aOp inst)
    (hsrc : sse4aOp inst = .insertq → xmmOf (inst'.arg 1) = xmmOf (inst.arg 1))
    (hlen : (sse4aControl inst' w).length % 64 = (sse4aControl inst w).length % 64)
    (hidx : (sse4aControl inst' w).index % 64 = (sse4aControl inst w).index % 64) :
    sse4aResult inst' w d = sse4aResult inst w d := by
  have hstart : (sse4aControl inst' w).start = (sse4aControl inst w).start := hidx
  have hwidth : (sse4aControl inst' w).width = (sse4aControl inst w).width := by
    rw [Field.width, Field.width, hlen]
  rw [sse4aResult, sse4aResult, hop]
  cases ho : sse4aOp inst with
  | extrq =>
    show (sse4aControl inst' w).extract _ = (sse4aControl inst w).extract _
    rw [Field.extract, Field.extract, hstart, hwidth]
  | insertq =>
    show (sse4aControl inst' w).insert _ _ = (sse4aControl inst w).insert _ _
    rw [Field.insert, Field.insert, hstart, hwidth, hsrc ho]

/-- **Bit fields**: every instruction has code, its code leaves the field in the low quadword of the
destination and everything else as it was, and instructions of either form that name the same field of the
same registers leave the same. -/
theorem sse4a_fields :
    (∀ b inst, decodeSSE4A b = some inst → ∃ code, liftSSE4A inst = some (.ok code)) ∧
    ∀ inst code, liftSSE4A inst = some (.ok code) → ∃ d, xmmOf (inst.arg 0) = some d ∧
      (∀ s, SameButField inst d s (fpMachine.execs code s)) ∧
      ∀ inst' code', liftSSE4A inst' = some (.ok code') → sse4aOp inst' = sse4aOp inst →
        xmmOf (inst'.arg 0) = some d →
        (sse4aOp inst = .insertq → xmmOf (inst'.arg 1) = xmmOf (inst.arg 1)) →
        ∀ s : FpState, (sse4aControl inst' s.v).length % 64 = (sse4aControl inst s.v).length % 64 →
          (sse4aControl inst' s.v).index % 64 = (sse4aControl inst s.v).index % 64 →
          lowQuad ((fpMachine.execs code' s).v d) = lowQuad ((fpMachine.execs code s).v d) := by
  refine ⟨fun b inst h => decoded_lifted h, fun inst code h => ?_⟩
  cases hd : xmmOf (inst.arg 0) with
  | none =>
    simp only [liftSSE4A, hd] at h
    cases h
  | some d =>
    refine ⟨d, rfl, lifted_fields hd h, fun inst' code' h' hop hd' hsrc s hlen hidx => ?_⟩
    rw [(lifted_fields hd' h' s).low, (lifted_fields hd h s).low]
    exact sse4aResult_congr hop hsrc hlen hidx

/-- `extrq xmm1, xmm2` and `insertq xmm9, xmm9, 0, 8`. -/
theorem sse4a_fields_decoded :
    (∃ inst code, decodeSSE4A [0x66, 0x0f, 0x79, 0xca] = some inst ∧ liftSSE4A inst = some (.ok code) ∧
      ∀ s : FpState, lowQuad ((fpMachine.execs code s).v 1) =
        (controlWord (lowQuad (s.v 2))).extract (lowQuad (s.v 1))) ∧
    ∃ inst code, decodeSSE4A [0xf2, 0x45, 0x0f, 0x78, 0xc9, 0, 8] = some inst ∧
      liftSSE4A inst = some (.ok code) ∧
      ∀ s : FpState, lowQuad ((fpMachine.execs code s).v 9) =
        (Field.mk 0 8).insert (lowQuad (s.v 9)) (lowQuad (s.v 9)) := by
  constructor
  · obtain ⟨d, hd, hall, -⟩ := sse4a_fields.2
      { op := Sse4aOp.extrq.op, dataSize := 64, len := 4, args := [.reg (.xmm 1), .reg (.xmm 2)] }
      (extrqReg 1 2) rfl
    cases hd
    exact ⟨_, _, rfl, rfl, fun s => (hall s).low⟩
  · obtain ⟨d, hd, hall, -⟩ := sse4a_fields.2
      { op := Sse4aOp.insertq.op, dataSize := 64, len := 7,
        args := [.reg (.xmm 9), .reg (.xmm 9), .imm 0, .imm 8] } (insertqImm 9 9 8 56) rfl
    cases hd
    exact ⟨_, _, rfl, rfl, fun s => (hall s).low⟩

end PS4Recomp.Lifter
