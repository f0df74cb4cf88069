import PS4Recomp.Arm64.DataProc
import PS4Recomp.Lifter.Exact
import PS4Recomp.X86.DivMul

/-!
# Division

`liftDiv` divides in one host instruction and multiplies back for the remainder.

* `divTail`, `divWide`, `liftDiv` — the code;
* `moved_divTail`, `moved_divWide` — what it leaves, for the 8- and 16-bit forms and for the others: the
  wide forms divide the low half of the dividend;
* `divisions_sound`, `liftDiv_exact` — the code is right exactly for the divisions of the low half, and
  for no `FS` operand relative to the next instruction.
-/

namespace PS4Recomp.Lifter

open X86 Arm64 Library

/-! ### the code -/

/-- The division instruction. -/
def divInstr (signed : Bool) (sf : Width) (rd rn rm : XReg) : Instr Label :=
  if signed then .sdiv sf rd rn rm else .udiv sf rd rn rm

/-- The 8-bit dividend `AX` in `w16`, its divisor in `w17`. -/
def divByteOperands (signed : Bool) : Asm :=
  if signed then [.sxt 16 .w 16 19, .sxt 8 .w 17 17] else [.ubfx .w 16 19 0 16]

/-- The 16-bit dividend `DX:AX` in `w16`, its divisor in `w17`. -/
def divHalfOperands (signed : Bool) : Asm :=
  [.logic .and false .w 16 19 (.imm 0xffff), .bfiW 16 22 16 16] ++
    if signed then [.sxt 16 .w 17 17] else []

/-- Quotient and remainder of `w16` and `w17`, to the fields of the guest registers. -/
def divTail (signed : Bool) (n : ℕ) (hi : XReg) (lo : ℕ) : Asm :=
  [divInstr signed .w 0 16 17, .msub .w 1 0 17 16, .bfi 19 0 0 n, .bfi hi 1 lo n]

/-- The 32- and 64-bit divisions, by the register `v`. -/
def divWide (signed : Bool) (sf : Width) (v : XReg) : Asm :=
  [divInstr signed sf 16 19 v, .msub sf 22 16 v 19, .mov sf 19 16]

/-- `liftDiv`. -/
def liftDiv (inst : Instruction) (nextPC : Addr) : Asm :=
  let signed := inst.inst.op == .idiv
  match inst.inst.arg 0 with
  | some (.reg reg) =>
      match arm64RegMap reg with
      | none => [.brk]
      | some desc =>
          match desc.size with
          | 1 => (readRegTo reg 17).getD [] ++ divByteOperands signed ++ divTail signed 8 19 8
          | 2 => (readRegTo reg 17).getD [] ++ divHalfOperands signed ++ divTail signed 16 22 0
          | 4 => divWide signed .w desc.x
          | _ => divWide signed .x desc.x
  | some (.mem m) =>
      let sz := defMemSz inst
      readMemTo m nextPC sz 17 ++
        match sz with
        | 1 => divByteOperands signed ++ divTail signed 8 19 8
        | 2 => divHalfOperands signed ++ divTail signed 16 22 0
        | 4 => divWide signed .w 17
        | _ => divWide signed .x 17
  | _ => [.brk]

/-- `DIV` and `IDIV` in `liftInstructionInternal`. -/
def liftDivision (l : Arm64Lifter) (inst : Instruction) : Code × Arm64Lifter :=
  match unsupportedAddressing inst.inst with
  | some reason => l.emitUnsupported inst reason
  | none => (asm (liftDiv inst inst.nextPC), l)

/-! ### what it leaves -/

section Spec

variable {c : Cpu} {s : State}

theorem plain_divInstr (signed : Bool) (sf : Width) (rd rn rm : XReg) :
    (divInstr signed sf rd rn rm).plain = true := by
  cases signed <;> rfl

/-- The two instructions of a division leave quotient and remainder. -/
theorem exec_divide (signed : Bool) (sf : Width) {d r n m : XReg} (hzr : d ≠ 31)
    (hn : n ≠ d) (hm : m ≠ d) {a b : BitVec sf.bits} (ha : s.getW sf n = a)
    (hb : s.getW sf m = b) :
    (Instr.msub sf r d m n : Instr Label).exec ((divInstr signed sf d n m).exec s) =
      (s.setW sf d (Words.divideLow signed a b).1).setW sf r (Words.divideLow signed a b).2 := by
  have hdiv : (divInstr signed sf d n m).exec s = s.setW sf d (Words.divideLow signed a b).1 := by
    rw [← ha, ← hb]
    cases signed
    · rfl
    · rfl
  rw [hdiv]
  show (s.setW sf d _).setW sf r ((s.setW sf d _).getW sf n -
    (s.setW sf d _).getW sf d * (s.setW sf d _).getW sf m) = _
  rw [State.getW_setW_self hzr, State.getW_setW_ne hn, State.getW_setW_ne hm, ha, hb]
  cases signed
  · rfl
  · rfl

/-- A narrow field inserted is a narrow register written. -/
theorem Rep.bfi {sz : Size} (hsz : sz = .b ∨ sz = .w) (hrep : Rep c s) (g : Gpr) (lo : ℕ) {r : XReg}
    {v : BitVec sz.bits} (hv : (s.get r).setWidth sz.bits = v) :
    Rep (c.put sz (.reg g lo) v) ((Instr.bfi (pin g) r lo sz.bits : Instr Label).exec s) := by
  have hput := hrep.put g lo sz v
  rw [← hv] at hput ⊢
  rcases hsz with rfl | rfl
  · exact hput
  · exact hput

theorem moved_divTail {signed : Bool} {sz : Size} (hsz : sz = .b ∨ sz = .w) {g : Gpr} {lo : ℕ}
    (hplace : highPlace sz = .reg g lo) (hrep : Rep c s) {a b : BitVec 32}
    (ha : s.getW .w 16 = a) (hb : s.getW .w 17 = b) :
    Moved (divTail signed sz.bits (pin g) lo)
      (c.putWide sz ((Words.divideLow signed a b).1.setWidth sz.bits)
        ((Words.divideLow signed a b).2.setWidth sz.bits)) s := by
  have h0 : (0 : XReg) ∈ scratch := by decide
  have h1 : (1 : XReg) ∈ scratch := by decide
  have hcut : ∀ v : BitVec 32, (v.setWidth 64).setWidth sz.bits = v.setWidth sz.bits := by
    intro v
    rcases hsz with rfl | rfl
    · exact BitVec.setWidth_setWidth_of_le _ (by decide)
    · exact BitVec.setWidth_setWidth_of_le _ (by decide)
  refine ⟨_, Piece.cons (plain_divInstr _ _ _ _ _) (Piece.cons rfl
    (Piece.cons rfl (Piece.one rfl _))), ?_⟩
  rw [exec_divide signed .w (d := 0) (r := 1) (by decide) (by decide) (by decide) ha hb,
    Cpu.putWide, hplace]
  have hrep' := (hrep.set_scratch h0 ((Words.divideLow signed a b).1.setWidth 64)).set_scratch h1
    ((Words.divideLow signed a b).2.setWidth 64)
  refine (hrep'.bfi hsz .rax 0 (r := 0) ?_).bfi hsz g lo (r := 1) ?_
  · rw [State.get_set_ne (by decide), State.get_set_self (by decide), hcut]
  · show (State.get (State.set _ (pin .rax) _) 1).setWidth sz.bits = _
    rw [State.get_set_ne (pin_ne_scratch .rax h1).symm, State.get_set_self (by decide), hcut]

theorem put_put_comm (sz : Size) {g g' : Gpr} (h : g ≠ g') (lo lo' : ℕ) (v w : BitVec sz.bits) :
    (c.put sz (.reg g lo) v).put sz (.reg g' lo') w =
      (c.put sz (.reg g' lo') w).put sz (.reg g lo) v := by
  unfold Cpu.put Cpu.setGpr
  dsimp only
  rw [Function.update_of_ne h.symm, Function.update_of_ne h, Function.update_comm h]

theorem Rep.putWide {sz : Size} (hsz : sz = .l ∨ sz = .q) (hrep : Rep c s) (x : BitVec 64)
    (q r : BitVec sz.bits) :
    Rep (c.putWide sz q r)
      (((s.set 16 x).set 22 (r.setWidth 64)).set 19 (q.setWidth 64)) := by
  have h16 : (16 : XReg) ∈ scratch := by decide
  have hput := ((hrep.set_scratch h16 x).put .rdx 0 sz r).put .rax 0 sz q
  rw [put_put_comm sz (by decide)] at hput
  rcases hsz with rfl | rfl
  · exact hput
  · exact hput

theorem moved_divWide {signed : Bool} {sz : Size} (hsz : sz = .l ∨ sz = .q) (hrep : Rep c s)
    {vr : XReg} (hvr : vr ≠ 16) {v : BitVec sz.bits} (hv : (s.get vr).setWidth sz.bits = v) :
    Moved (divWide signed (width sz.bytes) vr)
      (c.putWide sz (Words.divideLow signed (c.get sz (.reg .rax 0)) v).1
        (Words.divideLow signed (c.get sz (.reg .rax 0)) v).2) s := by
  have hlow : (s.get 19).setWidth sz.bits = c.get sz (.reg .rax 0) := by
    rw [setWidth_low]
    exact get_reg hrep .rax 0 sz
  refine ⟨_, Piece.cons (plain_divInstr _ _ _ _ _) (Piece.cons rfl (Piece.one rfl _)), ?_⟩
  have hmov : ∀ sf : Width, ∀ q r : BitVec sf.bits,
      (Instr.mov sf 19 16 : Instr Label).exec ((s.setW sf 16 q).setW sf 22 r) =
        ((s.set 16 (q.setWidth 64)).set 22 (r.setWidth 64)).set 19 (q.setWidth 64) := by
    intro sf q r
    show State.setW _ sf 19 (State.getW _ sf 16) = _
    unfold State.setW State.getW
    rw [State.get_set_ne (by decide), State.get_set_self (by decide)]
    cases sf
    · exact congrArg (State.set _ 19) (congrArg (BitVec.setWidth 64) (cut_back (by decide : 32 ≤ 64) q))
    · exact congrArg (State.set _ 19) (congrArg (BitVec.setWidth 64) (cut_back (by decide : 64 ≤ 64) q))
  rcases hsz with rfl | rfl
  · have hdiv := exec_divide signed .w (r := 22) (n := 19) (by decide : (16 : XReg) ≠ 31)
      (by decide) hvr hlow hv
    show Rep _ ((Instr.mov .w 19 16 : Instr Label).exec ((Instr.msub .w 22 16 vr 19 : Instr Label).exec
      ((divInstr signed .w 16 19 vr).exec s)))
    rw [hdiv, hmov]
    exact hrep.putWide (.inl rfl) _ _ _
  · have hdiv := exec_divide signed .x (r := 22) (n := 19) (by decide : (16 : XReg) ≠ 31)
      (by decide) hvr hlow hv
    show Rep _ ((Instr.mov .x 19 16 : Instr Label).exec ((Instr.msub .x 22 16 vr 19 : Instr Label).exec
      ((divInstr signed .x 16 19 vr).exec s)))
    rw [hdiv, hmov]
    exact hrep.putWide (.inr rfl) _ _ _

/-! ### the narrow operands -/

/-- Dividend and divisor in `w16` and `w17` stand for the ones of x86. -/
structure DivOperands (signed : Bool) {n : ℕ} (d : BitVec (n + n)) (v : BitVec n) (s : State) :
    Prop where
  sgn : signed = true → ((s.get 16).setWidth 32).toInt = d.toInt ∧
    ((s.get 17).setWidth 32).toInt = v.toInt
  uns : signed = false → ((s.get 16).setWidth 32).toNat = d.toNat ∧
    ((s.get 17).setWidth 32).toNat = v.toNat

theorem append_bytes (x : BitVec 64) :
    (x.extractLsb' 8 8 ++ x.extractLsb' 0 8 : BitVec 16) = x.setWidth 16 := by
  apply BitVec.eq_of_getLsbD_eq
  intro k hk
  rw [BitVec.getLsbD_append, BitVec.getLsbD_setWidth, BitVec.getLsbD_extractLsb',
    BitVec.getLsbD_extractLsb', Nat.zero_add, decide_eq_true hk]
  split
  · rename_i h8
    rw [decide_eq_true h8]
  · rename_i h8
    rw [show 8 + (k - 8) = k by omega, decide_eq_true (by omega)]

theorem append_halves (x y : BitVec 64) :
    (y.extractLsb' 0 16 ++ x.extractLsb' 0 16 : BitVec 32) =
      (insertBits 16 16 (((x.setWidth 32 &&& (0xffff : BitVec 64).setWidth 32).setWidth 64))
        ((y.setWidth 32).setWidth 16)).setWidth 32 := by
  apply BitVec.eq_of_getLsbD_eq
  intro k hk
  rw [setWidth_low_half, BitVec.getLsbD_append, BitVec.getLsbD_setWidth, decide_eq_true hk,
    Bool.true_and, getLsbD_insertBits _ _ _ _ (by omega), BitVec.setWidth_setWidth_of_le _ (by decide)]
  split
  · rename_i hlow
    rw [if_neg (by omega), BitVec.getLsbD_setWidth, decide_eq_true (by omega), Bool.true_and]
  · rename_i hlow
    rw [if_pos (by omega), BitVec.getLsbD_extractLsb', BitVec.getLsbD_setWidth, Nat.zero_add]

theorem divByteOperands_spec (signed : Bool) (hrep : Rep c s) {v : BitVec 8}
    (hv : s.get 17 = v.setWidth 64) : ∃ s', Piece (divByteOperands signed) s s' ∧ Rep c s' ∧
      DivOperands signed (n := 8) (c.wide .b) v s' := by
  have h16 : (16 : XReg) ∈ scratch := by decide
  have h17 : (17 : XReg) ∈ scratch := by decide
  have hwide : c.wide .b = ((s.get 19).setWidth 16 : BitVec 16) := by
    rw [show s.get 19 = c.gpr .rax from hrep.gpr .rax]
    exact append_bytes _
  rw [hwide]
  cases signed with
  | true =>
      have hpiece : Piece (divByteOperands true) s
          ((s.set 16 ((((s.get 19).setWidth 16).signExtend 32).setWidth 64)).set 17
            ((v.signExtend 32).setWidth 64)) := by
        refine (Piece.cons rfl (Piece.one rfl _)).trans_eq ?_
        show State.set _ 17 (((((State.set s 16 _).get 17).setWidth 8).signExtend 32).setWidth 64) = _
        rw [State.get_set_ne (by decide), hv, cut_back (by decide) v]
        rfl
      refine ⟨_, hpiece, (hrep.set_scratch h16 _).set_scratch h17 _,
        ⟨fun _ => ⟨?_, ?_⟩, fun h => absurd h (by decide)⟩⟩
      · rw [State.get_set_ne (by decide), State.get_set_self (by decide), cut_back (by decide)]
        exact BitVec.toInt_signExtend_of_le (by decide)
      · rw [State.get_set_self (by decide), cut_back (by decide)]
        exact BitVec.toInt_signExtend_of_le (by decide)
  | false =>
      have hpiece : Piece (divByteOperands false) s
          (s.set 16 (((s.get 19).extractLsb' 0 16).setWidth 64)) :=
        (Piece.one rfl _).trans_eq (congrArg (s.set 16) (extract_setWidth _ (by decide)))
      refine ⟨_, hpiece, hrep.set_scratch h16 _, ⟨fun h => absurd h (by decide), fun _ => ⟨?_, ?_⟩⟩⟩
      · rw [State.get_set_self (by decide), toNat_extend (by decide),
          BitVec.setWidth_eq_extractLsb' (by decide)]
      · rw [State.get_set_ne (by decide), hv, toNat_extend (by decide)]

theorem divHalfOperands_spec (signed : Bool) (hrep : Rep c s) {v : BitVec 16}
    (hv : s.get 17 = v.setWidth 64) : ∃ s', Piece (divHalfOperands signed) s s' ∧ Rep c s' ∧
      DivOperands signed (n := 16) (c.wide .w) v s' := by
  have h16 : (16 : XReg) ∈ scratch := by decide
  have h17 : (17 : XReg) ∈ scratch := by decide
  have hwide : c.wide .w = ((insertBits 16 16
      (((s.get 19).setWidth 32 &&& (0xffff : BitVec 64).setWidth 32).setWidth 64)
      (((s.get 22).setWidth 32).setWidth 16)).setWidth 32 : BitVec 32) := by
    rw [show s.get 19 = c.gpr .rax from hrep.gpr .rax, show s.get 22 = c.gpr .rdx from hrep.gpr .rdx]
    exact append_halves _ _
  rw [hwide]
  generalize hd : ((insertBits 16 16
      (((s.get 19).setWidth 32 &&& (0xffff : BitVec 64).setWidth 32).setWidth 64)
      (((s.get 22).setWidth 32).setWidth 16)).setWidth 32 : BitVec 32) = d
  have hdividend : Piece [.logic .and false .w 16 19 (.imm 0xffff), .bfiW 16 22 16 16] s
      (s.set 16 (d.setWidth 64)) := by
    refine (Piece.cons rfl (Piece.one rfl _)).trans_eq ?_
    rw [← hd]
    have hand : (Instr.logic .and false .w 16 19 (.imm 0xffff) : Instr Label).exec s =
        s.set 16 (((s.get 19).setWidth 32 &&& (0xffff : BitVec 64).setWidth 32).setWidth 64) :=
      State.set_flags_self _ _ _
    rw [hand]
    show State.set _ 16 (((insertBits 16 16 ((((State.set s 16 _).get 16).setWidth 32).setWidth 64)
      ((((State.set s 16 _).get 22).setWidth 32).setWidth 16)).setWidth 32).setWidth 64) = _
    rw [State.get_set_self (by decide), State.get_set_ne (by decide), cut_back (by decide),
      State.set_set]
  have hrep' := hrep.set_scratch h16 (d.setWidth 64)
  cases signed with
  | true =>
      refine ⟨_, hdividend.append ((Piece.one rfl _).trans_eq ?_), hrep'.set_scratch h17
        ((v.signExtend 32).setWidth 64), ⟨fun _ => ⟨?_, ?_⟩, fun h => absurd h (by decide)⟩⟩
      · show State.set _ 17 (((((State.set s 16 _).get 17).setWidth 16).signExtend 32).setWidth 64) = _
        rw [State.get_set_ne (by decide), hv, cut_back (by decide) v]
      · rw [State.get_set_ne (by decide), State.get_set_self (by decide), cut_back (by decide)]
      · rw [State.get_set_self (by decide), cut_back (by decide)]
        exact BitVec.toInt_signExtend_of_le (by decide)
  | false =>
      refine ⟨_, hdividend.append (Piece.nil _), hrep',
        ⟨fun h => absurd h (by decide), fun _ => ⟨?_, ?_⟩⟩⟩
      · rw [State.get_set_self (by decide), cut_back (by decide)]
      · rw [State.get_set_ne (by decide), hv, toNat_extend (by decide)]

/-! ### the instruction -/

variable {i : Instruction} {src : Arg} {sz : Size} {v : BitVec sz.bits}

/-- The code of the narrow forms once the divisor is in `w17`. -/
def divNarrow (signed : Bool) : Size → Asm
  | .b => divByteOperands signed ++ divTail signed 8 19 8
  | _ => divHalfOperands signed ++ divTail signed 16 22 0

theorem liftDiv_narrow (hsz : sz = .b ∨ sz = .w) (hargs : i.inst.args = [src]) (hrep : Rep c s)
    (hv : c.operandBy (codeOperand i s) i src = some ⟨sz, v⟩) :
    ∃ load s', liftDiv i i.nextPC = load ++ divNarrow (i.inst.op == .idiv) sz ∧ Piece load s s' ∧
      Rep c s' ∧ s'.get 17 = v.setWidth 64 := by
  have h17 : (17 : XReg) ∈ scratch := by decide
  obtain ⟨sz', p, -, hp, heq⟩ := operandBy_some.1 hv
  obtain ⟨rfl, hval⟩ := Sigma.mk.inj heq
  obtain rfl := eq_of_heq hval
  cases src with
  | imm w => cases hp
  | rel w => cases hp
  | reg r =>
      obtain ⟨g, lo, hloc, rfl⟩ := placeBy_reg.1 hp
      obtain ⟨load, hload, hpload⟩ := readRegTo_piece hloc 17
      refine ⟨load, _, ?_, hpload s, hrep.set_scratch h17 _, ?_⟩
      · simp only [liftDiv, Inst.arg, hargs, List.getElem?_cons_zero, arm64RegMap_loc hloc, hload]
        rcases hsz with rfl | rfl
        · exact List.append_assoc _ _ _
        · exact List.append_assoc _ _ _
      · rw [State.get_set_self (by decide), get_reg hrep]
  | mem m =>
      obtain ⟨hbytes, a, ha, rfl⟩ := placeBy_mem.1 hp
      obtain ⟨s', hpiece, -, hrep'⟩ := readMemTo_piece ha hrep sz 17
      refine ⟨_, _, ?_, hpiece, hrep'.set_scratch h17 _, ?_⟩
      · simp only [liftDiv, Inst.arg, hargs, List.getElem?_cons_zero, defMemSz_eq hbytes]
        rcases hsz with rfl | rfl <;> rfl
      · rw [State.get_set_self (by decide)]
        rfl

theorem liftDiv_wide (hsz : sz = .l ∨ sz = .q) (hargs : i.inst.args = [src]) (hrep : Rep c s)
    (hv : c.operandBy (codeOperand i s) i src = some ⟨sz, v⟩) :
    ∃ load vr s', liftDiv i i.nextPC = load ++ divWide (i.inst.op == .idiv) (width sz.bytes) vr ∧
      Piece load s s' ∧ Rep c s' ∧ vr ≠ 16 ∧ (s'.get vr).setWidth sz.bits = v := by
  have h17 : (17 : XReg) ∈ scratch := by decide
  obtain ⟨sz', p, -, hp, heq⟩ := operandBy_some.1 hv
  obtain ⟨rfl, hval⟩ := Sigma.mk.inj heq
  obtain rfl := eq_of_heq hval
  cases src with
  | imm w => cases hp
  | rel w => cases hp
  | reg r =>
      obtain ⟨g, lo, hloc, rfl⟩ := placeBy_reg.1 hp
      obtain rfl : lo = 0 := by
        rcases loc_lo hloc with h0 | ⟨-, rfl⟩
        · exact h0
        · rcases hsz with h | h <;> cases h
      refine ⟨[], pin g, s, ?_, Piece.nil s, hrep, pin_ne_scratch g (by decide), ?_⟩
      · simp only [liftDiv, Inst.arg, hargs, List.getElem?_cons_zero, arm64RegMap_loc hloc]
        rcases hsz with rfl | rfl <;> rfl
      · rw [setWidth_low, get_reg hrep]
  | mem m =>
      obtain ⟨hbytes, a, ha, rfl⟩ := placeBy_mem.1 hp
      obtain ⟨s', hpiece, -, hrep'⟩ := readMemTo_piece ha hrep sz 17
      refine ⟨_, 17, _, ?_, hpiece, hrep'.set_scratch h17 _, by decide, ?_⟩
      · simp only [liftDiv, Inst.arg, hargs, List.getElem?_cons_zero, defMemSz_eq hbytes]
        rcases hsz with rfl | rfl <;> rfl
      · rw [State.get_set_self (by decide), setWidth_roundtrip]
        rfl

theorem moved_narrow (hsz : sz = .b ∨ sz = .w) (hargs : i.inst.args = [src]) (hrep : Rep c s)
    (hv : c.operandBy (codeOperand i s) i src = some ⟨sz, v⟩) {q r : BitVec sz.bits}
    (hdiv : Words.divide (i.inst.op == .idiv) (c.wide sz) v = some (q, r)) :
    Moved (liftDiv i i.nextPC) (c.putWide sz q r) s := by
  obtain ⟨load, s₁, hcode, hload, hrep₁, h17⟩ := liftDiv_narrow hsz hargs hrep hv
  rw [hcode]
  refine Moved.cons_piece hload ?_
  rcases hsz with rfl | rfl
  · obtain ⟨s₂, hops, hrep₂, hd⟩ := divByteOperands_spec (i.inst.op == .idiv) hrep₁ h17
    refine Moved.cons_piece hops ?_
    obtain ⟨rfl, rfl⟩ := Words.divideLow_wide (by decide) hd.sgn hd.uns hdiv
    exact moved_divTail (.inl rfl : Size.b = .b ∨ Size.b = .w) rfl hrep₂ rfl rfl
  · obtain ⟨s₂, hops, hrep₂, hd⟩ := divHalfOperands_spec (i.inst.op == .idiv) hrep₁ h17
    refine Moved.cons_piece hops ?_
    obtain ⟨rfl, rfl⟩ := Words.divideLow_wide (by decide) hd.sgn hd.uns hdiv
    exact moved_divTail (.inr rfl : Size.w = .b ∨ Size.w = .w) rfl hrep₂ rfl rfl

/-- The 32- and 64-bit divisions are those of the low half of the dividend. -/
theorem moved_wide (hsz : sz = .l ∨ sz = .q) (hargs : i.inst.args = [src]) (hrep : Rep c s)
    (hv : c.operandBy (codeOperand i s) i src = some ⟨sz, v⟩) :
    Moved (liftDiv i i.nextPC)
      (c.putWide sz (Words.divideLow (i.inst.op == .idiv) (c.get sz (.reg .rax 0)) v).1
        (Words.divideLow (i.inst.op == .idiv) (c.get sz (.reg .rax 0)) v).2) s := by
  obtain ⟨load, vr, s₁, hcode, hload, hrep₁, hvr, hval⟩ := liftDiv_wide hsz hargs hrep hv
  rw [hcode]
  exact Moved.cons_piece hload (moved_divWide hsz hrep₁ hvr hval)

end Spec

/-! ### which divisions are right -/

/-- The divisions of the low half of the dividend. -/
def divisions : Lowering where
  means c addr i := if narrowBy c addr i then divideBy c addr i else none
  lift := liftDivision
  pre _ _ _ _ := True
  post _ _ _ _ := True

section Exact

variable {c c' : Cpu} {s : State} {l : Arm64Lifter} {i : Instruction}

theorem divisions_means {addr : Mem → Option Addr} : divisions.means c addr i = some c' ↔
    narrowBy c addr i = true ∧ divideBy c addr i = some c' := by
  show (if narrowBy c addr i then divideBy c addr i else none) = some c' ↔ _
  constructor
  · intro h
    split at h
    · rename_i hn
      exact ⟨hn, h⟩
    · cases h
  · intro h
    rw [if_pos h.1, h.2]

theorem accesses_of_divide {addr : Mem → Option Addr} (h : divideBy c addr i = some c') :
    accessesNone i.inst.op = false := by
  obtain ⟨src, hop | hop, -, -⟩ := divideBy_some.1 h
  · rw [hop]
    rfl
  · rw [hop]
    rfl

theorem operandBy_mono {addr addr' : Mem → Option Addr} {src : Arg} {v : (sz : Size) × BitVec sz.bits}
    (h : ∀ m, src = .mem m → ∀ a, addr m = some a → addr' m = some a)
    (hv : c.operandBy addr i src = some v) : c.operandBy addr' i src = some v := by
  obtain ⟨sz, p, hsz, hp, rfl⟩ := operandBy_some.1 hv
  exact operandBy_some.2 ⟨sz, p, hsz, placeBy_mono h hp, rfl⟩

theorem narrowBy_eq {addr : Mem → Option Addr} {src : Arg} {sz : Size} {v : BitVec sz.bits}
    (hargs : i.inst.args = [src]) (hv : c.operandBy addr i src = some ⟨sz, v⟩) :
    narrowBy c addr i =
      (sz == .b || sz == .w || decide (Words.Narrow (i.inst.op == .idiv) (c.wide sz) v)) := by
  unfold narrowBy
  rw [hargs]
  dsimp only
  rw [hv]

theorem divideBy_mono {addr addr' : Mem → Option Addr}
    (h : ∀ m, .mem m ∈ i.inst.args → ∀ a, addr m = some a → addr' m = some a)
    (hd : divideBy c addr i = some c') :
    divideBy c addr' i = some c' ∧ narrowBy c addr' i = narrowBy c addr i := by
  obtain ⟨src, hop, hargs, hdiv⟩ := divideBy_some.1 hd
  obtain ⟨sz, v, q, r, hv, hqr, rfl⟩ := divisionBy_some.1 hdiv
  rw [hargs] at h
  have hv' := operandBy_mono (fun m hm => h m (by simp [hm])) hv
  refine ⟨divideBy_some.2 ⟨src, hop, hargs, divisionBy_some.2 ⟨sz, v, q, r, hv', hqr, rfl⟩⟩, ?_⟩
  rw [narrowBy_eq hargs hv, narrowBy_eq hargs hv']

theorem wide_low (c : Cpu) (sz : Size) : (c.wide sz).setWidth sz.bits = c.get sz (.reg .rax 0) :=
  BitVec.setWidth_append_eq_right

theorem putWide_inj {sz : Size} (hsz : sz = .l ∨ sz = .q) {q r q' r' : BitVec sz.bits}
    (h : (c.putWide sz q r).gpr = (c.putWide sz q' r').gpr) : (q, r) = (q', r') := by
  have hrax : q.setWidth 64 = q'.setWidth 64 := by
    rcases hsz with rfl | rfl <;> exact congrFun h .rax
  have hrdx : r.setWidth 64 = r'.setWidth 64 := by
    rcases hsz with rfl | rfl <;> exact congrFun h .rdx
  rw [← setWidth_roundtrip q, hrax, setWidth_roundtrip, ← setWidth_roundtrip r, hrdx,
    setWidth_roundtrip]

/-- **The code of a division**, with its operand where the code finds it, is right exactly for the
divisions of the low half. -/
theorem liftDivision_iff (hsup : unsupportedAddressing i.inst = none) (hrep : Rep c s)
    (hd : divideBy c (codeOperand i s) i = some c') :
    divisions.Reaches l i s c' ↔ narrowBy c (codeOperand i s) i = true := by
  obtain ⟨src, -, hargs, hdiv⟩ := divideBy_some.1 hd
  obtain ⟨sz, v, q, r, hv, hqr, rfl⟩ := divisionBy_some.1 hdiv
  have hcode : (divisions.lift l i).1 = asm (liftDiv i i.nextPC) := by
    show (liftDivision l i).1 = _
    rw [liftDivision, hsup]
  have hnarrow := narrowBy_eq hargs hv
  by_cases hsz : sz = .b ∨ sz = .w
  · -- the narrow forms are right
    refine ⟨fun _ => ?_, fun _ => ?_⟩
    · rw [hnarrow]
      rcases hsz with rfl | rfl <;> rfl
    · obtain ⟨s', hends, hrep'⟩ := (moved_narrow hsz hargs hrep hv hqr).ends
      exact ⟨s', by rw [hcode]; exact hends, hrep', trivial⟩
  · have hwide : sz = .l ∨ sz = .q := by
      cases sz
      case b => exact absurd (.inl rfl) hsz
      case w => exact absurd (.inr rfl) hsz
      case l => exact .inl rfl
      case q => exact .inr rfl
    obtain ⟨s₁, hends₁, hrep₁⟩ := (moved_wide hwide hargs hrep hv).ends
    have hlow := Words.divide_low_iff hqr
    rw [wide_low] at hlow
    have hdec : narrowBy c (codeOperand i s) i = true ↔
        Words.Narrow (i.inst.op == .idiv) (c.wide sz) v := by
      rw [hnarrow]
      rcases hwide with rfl | rfl
      · exact decide_eq_true_iff
      · exact decide_eq_true_iff
    rw [hdec, ← hlow]
    constructor
    · rintro ⟨s₂, hends₂, hrep₂, -⟩
      rw [hcode] at hends₂
      obtain rfl := hends₂.unique hends₁
      exact putWide_inj hwide (hrep₁.agree hrep₂).1
    · intro heq
      rw [heq] at hrep₁
      exact ⟨s₁, by rw [hcode]; exact hends₁, hrep₁, trivial⟩

/-- The divisions of the low half are right with their operand where the code finds it. -/
theorem divisions_sound : divisions.Sound where
  access h := accesses_of_divide (divisions_means.1 h).2
  mono h hm := by
    obtain ⟨hn, hd⟩ := divisions_means.1 hm
    obtain ⟨hd', hn'⟩ := divideBy_mono h hd
    exact divisions_means.2 ⟨hn'.trans hn, hd'⟩
  sim hsup hrep _ hm := by
    obtain ⟨hn, hd⟩ := divisions_means.1 hm
    exact (liftDivision_iff hsup hrep hd).2 hn

/-- The divisor 2 where the code finds it, 1 where x86 does. -/
def twoDivisors : ByteMem := fun b => if b = 0 then 2 else if b = 8 then 1 else 0

theorem twoDivisors_load (sz : Size) :
    twoDivisors.load sz.bits 0 = 2 ∧ twoDivisors.load sz.bits 8 = 1 := by
  cases sz <;> decide

theorem wide_one (sz : Size) (a : Addr) (hm : ByteMem) (f : Nzcv) (fl : X86.Flags) :
    (hostGuest 1 0 a hm f fl).wide sz = 1 := by
  have hrdx := hostGuest_gpr 1 0 a hm f fl (g := .rdx) (by decide)
  have hrax := hostGuest_rax 1 0 a hm f fl
  cases sz
  · show ((hostGuest 1 0 a hm f fl).gpr .rax).extractLsb' 8 8 ++
      ((hostGuest 1 0 a hm f fl).gpr .rax).extractLsb' 0 8 = (1 : BitVec 16)
    rw [hrax]
    decide
  · show ((hostGuest 1 0 a hm f fl).gpr .rdx).extractLsb' 0 16 ++
      ((hostGuest 1 0 a hm f fl).gpr .rax).extractLsb' 0 16 = (1 : BitVec 32)
    rw [hrax, hrdx]
    decide
  · show ((hostGuest 1 0 a hm f fl).gpr .rdx).extractLsb' 0 32 ++
      ((hostGuest 1 0 a hm f fl).gpr .rax).extractLsb' 0 32 = (1 : BitVec 64)
    rw [hrax, hrdx]
    decide
  · show ((hostGuest 1 0 a hm f fl).gpr .rdx).extractLsb' 0 64 ++
      ((hostGuest 1 0 a hm f fl).gpr .rax).extractLsb' 0 64 = (1 : BitVec 128)
    rw [hrax, hrdx]
    decide

theorem divide_one (signed : Bool) (sz : Size) :
    Words.divide signed (1 : BitVec (sz.bits + sz.bits)) 1 = some (1, 0) ∧
      Words.divide signed (1 : BitVec (sz.bits + sz.bits)) 2 = some (0, 1) := by
  cases signed <;> cases sz <;> decide

theorem narrow_one (signed : Bool) (sz : Size) (v : BitVec sz.bits) :
    Words.Narrow signed (1 : BitVec (sz.bits + sz.bits)) v := by
  cases signed with
  | true => exact .inl (by cases sz <;> decide)
  | false =>
      show (1 : BitVec (sz.bits + sz.bits)).toNat =
        ((1 : BitVec (sz.bits + sz.bits)).setWidth sz.bits).toNat
      cases sz <;> decide

theorem getLsbD_putWide (c : Cpu) (sz : Size) (q r : BitVec sz.bits) :
    ((c.putWide sz q r).gpr .rax).getLsbD 0 = q.getLsbD 0 := by
  have hlow : ∀ (w : ℕ) (x : BitVec 64) (v : BitVec w), 0 < w →
      (insertBits 0 w x v).getLsbD 0 = v.getLsbD 0 := by
    intro w x v hw
    rw [getLsbD_insertBits _ _ _ _ (by decide), if_pos ⟨le_refl _, by omega⟩]
  have hhigh : ∀ (x : BitVec 64) (v : BitVec 8), (insertBits 8 8 x v).getLsbD 0 = x.getLsbD 0 := by
    intro x v
    rw [getLsbD_insertBits _ _ _ _ (by decide), if_neg (by decide)]
  have hwide : ∀ (w : ℕ) (v : BitVec w), (v.setWidth 64).getLsbD 0 = v.getLsbD 0 := by
    intro w v
    rw [BitVec.getLsbD_setWidth]
    rfl
  cases sz
  case b => exact (hhigh _ r).trans (hlow 8 _ q (by decide))
  case w => exact hlow 16 _ q (by decide)
  case l => exact hwide 32 q
  case q => exact hwide 64 q

/-- A divisor the code looks for at another address than x86 does. -/
theorem not_right_fsRip_divide (hsup : unsupportedAddressing i.inst = none)
    (hmeant : ∃ c c', divides i c = some c') {a : Arg} (ha : a ∈ i.inst.args)
    (hfs : isFsRip a = true) : ¬divisions.Right l i := by
  obtain ⟨c, c', hd⟩ := hmeant
  have hop := accesses_of_divide hd
  obtain ⟨src, hdiv, hargs, hdivision⟩ := divideBy_some.1 hd
  obtain ⟨sz, v, q, r, hv, -, -⟩ := divisionBy_some.1 hdivision
  obtain ⟨sz', p, hsz, hp, heq⟩ := operandBy_some.1 hv
  obtain ⟨rfl, -⟩ := Sigma.mk.inj heq
  obtain rfl : a = src := by
    rw [hargs] at ha
    exact List.mem_singleton.1 ha
  obtain ⟨m, rfl⟩ := mem_of_fsRip hfs
  obtain ⟨hbytes, b, hb, -⟩ := placeBy_mem.1 hp
  have hform := addressable_of_ea (supported_mem hop hsup ha).1 hb
  obtain ⟨f⟩ : Nonempty Nzcv := ⟨⟨false, false, false, false⟩⟩
  obtain ⟨fl⟩ : Nonempty X86.Flags := ⟨⟨false, false, false, false, false, false⟩⟩
  -- the division of 1 by the value at an address
  have hmeans : ∀ x w q r,
      (hostGuest 1 0 (i.nextPC + dispOf m) twoDivisors f fl).mem.load sz.bits x = w →
      Words.divide (i.inst.op == .idiv) (1 : BitVec (sz.bits + sz.bits)) w = some (q, r) →
      divisions.means (hostGuest 1 0 (i.nextPC + dispOf m) twoDivisors f fl) (onlyAt m x) i =
        some ((hostGuest 1 0 (i.nextPC + dispOf m) twoDivisors f fl).putWide sz q r) := by
    intro x w q r hload hqr
    have hoperand : (hostGuest 1 0 (i.nextPC + dispOf m) twoDivisors f fl).operandBy (onlyAt m x) i
        (.mem m) = some ⟨sz, w⟩ := by
      refine operandBy_some.2 ⟨sz, .mem x, hsz, placeBy_mem.2 ⟨hbytes, x, if_pos rfl, rfl⟩, ?_⟩
      rw [← hload]
      rfl
    refine divisions_means.2 ⟨?_, divideBy_some.2 ⟨.mem m, hdiv, hargs,
      divisionBy_some.2 ⟨sz, w, q, r, hoperand, ?_, rfl⟩⟩⟩
    · rw [narrowBy_eq hargs hoperand, wide_one, decide_eq_true (narrow_one _ sz w), Bool.or_true]
    · rw [wide_one, hqr]
  obtain ⟨htwo, hone⟩ := twoDivisors_load sz
  obtain ⟨hby1, hby2⟩ := divide_one (i.inst.op == .idiv) sz
  refine divisions_sound.not_right hsup hop ha hform hfs (f := f) trivial
    (hmeans _ 1 1 0 ((hostGuest_load_fs 1 0 _ _ f fl _).trans hone) hby1)
    (hmeans _ 2 0 1 ((hostGuest_load 1 0 _ _ f fl _).trans htwo) hby2) (.inl fun hg => ?_)
  have hbit := congrArg (fun g : Gpr → BitVec 64 => (g .rax).getLsbD 0) hg
  rw [getLsbD_putWide, getLsbD_putWide] at hbit
  cases sz <;> exact absurd hbit (by decide)

/-- **Division.**  The code of a division that x86 gives a meaning leaves the x86 quotient and
remainder exactly when the operands are narrow or the dividend is the extension of its low half — and
this for every state if and only if the divisor is no `FS` operand relative to the next
instruction. -/
theorem liftDiv_exact (hsup : unsupportedAddressing i.inst = none)
    (hmeant : ∃ c c', divides i c = some c') :
    (∀ c s c', Rep c s → divides i c = some c' →
      ((∃ s', Ends (liftDivision l i).1 s s' ∧ Rep c' s') ↔ narrow i c = true)) ↔
    ∀ a ∈ i.inst.args, isFsRip a = false := by
  constructor
  · intro h a ha
    by_contra hfs
    rw [Bool.not_eq_false] at hfs
    refine not_right_fsRip_divide (l := l) hsup hmeant ha hfs ?_
    intro c s c' hrep _ hm
    obtain ⟨hn, hd⟩ := divisions_means.1 hm
    obtain ⟨s', hends, hrep'⟩ := (h c s c' hrep hd).2 hn
    exact ⟨s', hends, hrep', trivial⟩
  · intro hsafe c s c' hrep hd
    have hcode : ∀ m, .mem m ∈ i.inst.args → ∀ a, m.ea c i = some a → codeOperand i s m = some a :=
      fun m hmem a ha => codeOperand_of_ea hrep hsup (accesses_of_divide hd) hmem (hsafe _ hmem) ha
    obtain ⟨hd', hn'⟩ := divideBy_mono hcode hd
    have hiff := liftDivision_iff (l := l) hsup hrep hd'
    rw [hn'] at hiff
    constructor
    · rintro ⟨s', hends, hrep'⟩
      exact hiff.1 ⟨s', hends, hrep', trivial⟩
    · intro hn
      obtain ⟨s', hends, hrep', -⟩ := hiff.2 hn
      exact ⟨s', hends, hrep'⟩

end Exact

/-- `div ecx`. -/
def divEcx : Instruction where
  address := 0x400000
  inst := { op := .div, dataSize := 32, len := 2, args := [.reg (.l .rcx)] }

/-- `EDX:EAX = v * 2 ^ 32`, `ECX = 2`. -/
def dividendState (v : BitVec 64) : State where
  x := fun r => if r = 22 then v else if r = 21 then 2 else 0
  sp := 0
  flags := { n := false, z := false, c := false, v := false }
  mem := fun _ => 0
  fails := 0

/-- A division by `ECX` is right exactly for the dividends of `EAX`. -/
theorem liftDiv_exact_ecx :
    (∀ c s c', Rep c s → divides divEcx c = some c' →
      ((∃ s', Ends (liftDivision { knownFuncs := fun _ => false } divEcx).1 s s' ∧ Rep c' s') ↔
        narrow divEcx c = true)) ↔
    ∀ a ∈ divEcx.inst.args, isFsRip a = false :=
  liftDiv_exact (l := { knownFuncs := fun _ => false }) (i := divEcx) (by decide)
    ⟨guestOf (dividendState 0), _, rfl⟩

/-- `2 ^ 32 / 2`: the code divides `EAX`, which is 0. -/
theorem div_ignores_edx : ∃ c', divides divEcx (guestOf (dividendState 1)) = some c' ∧
    ¬∃ s', Ends (liftDivision { knownFuncs := fun _ => false } divEcx).1 (dividendState 1) s' ∧
      Rep c' s' := by
  refine ⟨_, rfl, ?_⟩
  rintro ⟨s', hends, hrep⟩
  have hnarrow := (liftDivision_iff (l := { knownFuncs := fun _ => false }) (i := divEcx) (by decide)
    (rep_guestOf (dividendState 1)) rfl).1 ⟨s', hends, hrep, trivial⟩
  exact absurd hnarrow (by decide)

end PS4Recomp.Lifter
