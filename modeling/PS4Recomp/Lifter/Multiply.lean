import PS4Recomp.Lifter.Division

/-!
# Multiplication

`liftMul` and `liftImul` compute the whole product of the narrow forms in 32 bits, that of the 32-bit
forms in 64, and the two halves of the 64-bit forms apart.

* `wideCode`, `significanceTest`, `intoCode`, `liftMul`, `liftImul` — the code;
* `wideCode_spec`, `intoCode_spec` — the product it leaves, and whether its high half is significant;
* `products_sound`, `liftMultiplication_exact` — the code is right but for an `FS` operand relative to
  the next instruction that is not multiplied by 0.
-/

namespace PS4Recomp.Lifter

open X86 Arm64 Library

/-! ### the code -/

/-- `mulOverflowFlags`: bit 0 of `w2` in the carry and the overflow. -/
def mulOverflowFlags : Asm := [.logic .orr false .w 2 2 (.reg 2 1), .rmif 2 0 3]

/-- `mulSource`: what puts an operand in a register, and the register. -/
def mulSource (arg : Option Arg) (size : ℕ) (nextPC : Addr) : Option (Asm × XReg) :=
  match arg with
  | some (.reg v) =>
      match arm64RegMap v with
      | none => none
      | some d => if size = 8 ∨ size = 4 then some ([], d.x) else some ((readRegTo v 1).getD [], 1)
  | some (.mem v) => some (readMemTo v nextPC size 1, 1)
  | _ => none

/-- The low half of a product in `w0` to `AX`, or to `AX` and `DX` by way of `t`. -/
def narrowHalves (size : ℕ) (t : XReg) : Asm :=
  match size with
  | 1 => [.bfi 19 0 0 16]
  | _ => [.bfi 19 0 0 16, .shift .lsr .w t 0 16, .bfi 22 t 0 16]

/-- The product of the accumulator and `src`, in the accumulator. -/
def wideCode (signed : Bool) (size : ℕ) (src : XReg) : Asm :=
  match size with
  | 1 =>
      (if signed then [.sxt 8 .w 1 src, .sxt 8 .w 0 19, .mul .w 0 0 1]
       else [.logic .and false .w 0 19 (.imm 0xff), .mul .w 0 0 src]) ++
        narrowHalves 1 (if signed then 1 else 2)
  | 2 =>
      (if signed then [.sxt 16 .w 1 src, .sxt 16 .w 0 19, .mul .w 0 0 1]
       else [.logic .and false .w 0 19 (.imm 0xffff), .mul .w 0 0 src]) ++
        narrowHalves 2 (if signed then 1 else 2)
  | 4 => [if signed then .smull 0 19 src else .umull 0 19 src, .mov .w 19 0, .shift .lsr .x 22 0 32]
  | _ => [.mul .x 0 19 src, if signed then .smulh 22 19 src else .umulh 22 19 src, .mov .x 19 0]

/-- The comparison that finds the high half significant. -/
def significanceTest (signed : Bool) (size : ℕ) : Asm :=
  match signed, size with
  | true, 1 => [.cmpSxt 8 .w 0 0]
  | true, 2 => [.cmpSxt 16 .w 0 0]
  | true, 4 => [.cmpSxt 32 .x 0 0]
  | true, _ => [.cmpAsr .x 22 0 63]
  | false, 1 => [.ubfx .w 2 0 8 8, .cmp .x 2 (.imm 0)]
  | false, 2 => [.cmp .x 2 (.imm 0)]
  | false, _ => [.mov .x 2 22, .cmp .x 2 (.imm 0)]

/-- A multiplication with one operand. -/
def mulWide (l : Arm64Lifter) (inst : Instruction) (signed : Bool) (unmapped other : String)
    (nextPC : Addr) : Code × Arm64Lifter :=
  let flags := !inst.carryDead || !inst.overflowDead
  let size? : Option ℕ := match inst.inst.arg 0 with
    | some (.reg r) => (arm64RegMap r).map (·.size)
    | _ => some (defMemSz inst)
  match size? with
  | none => l.emitUnsupported inst unmapped
  | some size =>
      match mulSource (inst.inst.arg 0) size nextPC with
      | none => l.emitUnsupported inst other
      | some (ld, src) =>
          (asm (ld ++ wideCode signed size src ++
            if flags then significanceTest signed size ++ [.cset .w 2 .ne] ++ mulOverflowFlags else []),
            if flags then { l with cpol := .carryAdd } else l)

/-- The product of `a` and `b`, in the destination. -/
def intoCode (size : ℕ) (x : XReg) (dst : Reg) (a b : XReg) (flags : Bool) : Asm :=
  if flags = false ∧ size ≥ 4 then [if size = 8 then .mul .x x a b else .mul .w x a b]
  else if size = 8 then
    [.mul .x 0 a b, .smulh 2 a b, .cmpAsr .x 2 0 63, .cset .w 2 .ne, .mov .x x 0]
  else if size = 4 then [.smull 0 a b, .cmpSxt 32 .x 0 0, .cset .w 2 .ne, .mov .w x 0]
  else
    [.sxt 16 .w 4 a, .sxt 16 .w 5 b, .mul .w 0 4 5] ++
      (if flags then [.cmpSxt 16 .w 0 0, .cset .w 2 .ne] else []) ++ (writeRegFrom dst 0).getD []

/-- The factors of `IMUL` with two operands or three: what loads them, and their registers. -/
def imulFactors (inst : Instruction) (dstReg : Reg) (d : Arm64RegDesc) (nextPC : Addr) :
    Except String (Asm × XReg × XReg) :=
  match inst.inst.arg 2 with
  | none =>
      match mulSource (inst.inst.arg 1) d.size nextPC with
      | none => .error "unsupported imul src"
      | some (ld, src) =>
          if d.size = 8 ∨ d.size = 4 then .ok (ld, d.x, src)
          else .ok (ld ++ (readRegTo dstReg 0).getD [], 0, src)
  | some arg =>
      match arg, mulSource (inst.inst.arg 1) d.size nextPC with
      | .imm k, some (ld, src) =>
          .ok (ld ++ (if d.size = 8 then loadImm64 3 k else loadImm32 3 (k.setWidth 32)), src, 3)
      | _, _ => .error "unsupported imul operands"

/-- `liftImul`. -/
def liftImul (l : Arm64Lifter) (inst : Instruction) (nextPC : Addr) : Code × Arm64Lifter :=
  match inst.inst.arg 1 with
  | none => mulWide l inst true "unmapped imul src" "unsupported imul operand" nextPC
  | some _ =>
      let flags := !inst.carryDead || !inst.overflowDead
      match inst.inst.arg 0 with
      | some (.reg dstReg) =>
          match arm64RegMap dstReg with
          | none => l.emitUnsupported inst "unsupported imul dst"
          | some d =>
              match imulFactors inst dstReg d nextPC with
              | .error reason => l.emitUnsupported inst reason
              | .ok (ld, a, b) =>
                  (asm (ld ++ intoCode d.size d.x dstReg a b flags ++
                    if flags then mulOverflowFlags else []),
                    if flags then { l with cpol := .carryAdd } else l)
      | _ => l.emitUnsupported inst "unsupported imul dst"

/-- `liftMul`. -/
def liftMul (l : Arm64Lifter) (inst : Instruction) (nextPC : Addr) : Code × Arm64Lifter :=
  mulWide l inst false "unmapped mul src" "unsupported mul operand" nextPC

/-- `MUL` and `IMUL` in `liftInstructionInternal`. -/
def liftMultiplication (l : Arm64Lifter) (inst : Instruction) : Code × Arm64Lifter :=
  match unsupportedAddressing inst.inst with
  | some reason => l.emitUnsupported inst reason
  | none =>
      match inst.inst.op with
      | .mul => liftMul l inst inst.nextPC
      | _ => liftImul l inst inst.nextPC

/-! ### flags -/

section Spec

variable {c : Cpu} {s : State} {i : Instruction}

theorem addWithCarry_z {n : ℕ} (hn : 0 < n) (a b : BitVec n) :
    (addWithCarry a (~~~b) true).2.z = (a == b) := by
  have hsub := addWithCarry_sub hn a b false
  rw [Bool.not_false] at hsub
  rw [hsub, Bool.eq_iff_iff, beq_iff_eq]
  show (AddCarry.diff a b false == 0) = true ↔ _
  rw [beq_iff_eq, AddCarry.diff_false]
  constructor
  · intro h
    have hadd := congrArg (· + b) h
    simpa using hadd
  · rintro rfl
    exact BitVec.sub_self _

theorem exec_cmpSxt (k : ℕ) (sf : Width) (rn rm : XReg) (s : State) :
    (Instr.cmpSxt k sf rn rm : Instr Label).exec s = { s with flags :=
      (addWithCarry (s.getW sf rn) (~~~((s.getW sf rm).setWidth k).signExtend sf.bits) true).2 } := rfl

theorem exec_cmpAsr (sf : Width) (rn rm : XReg) (k : ℕ) (s : State) :
    (Instr.cmpAsr sf rn rm k : Instr Label).exec s = { s with flags :=
      (addWithCarry (s.getW sf rn) (~~~(s.getW sf rm).sshiftRight k) true).2 } := rfl

theorem exec_cset_ne {b : Bool} (h : s.flags.z = !b) :
    (Instr.cset .w 2 .ne : Instr Label).exec s = s.set 2 (if b then 1 else 0) := by
  show s.setW .w 2 (if (!s.flags.z) then 1 else 0) = _
  rw [h]
  cases b
  · rfl
  · rfl

theorem mulOverflowFlags_spec (hrep : Rep c s) {b : Bool} (h2 : s.get 2 = if b then 1 else 0) :
    ∃ s', Piece mulOverflowFlags s s' ∧ Rep c s' ∧ s'.flags.c = b ∧ s'.flags.v = b := by
  have h2s : (2 : XReg) ∈ scratch := by decide
  have horr : (Instr.logic .orr false .w 2 2 (.reg 2 1) : Instr Label).exec s =
      s.set 2 (if b then 3 else 0) := by
    rw [exec_logicW, State.setW]
    congr 1
    show ((s.get 2).setWidth 32 ||| ((s.get 2).setWidth 32) <<< 1).setWidth 64 = _
    rw [h2]
    cases b
    · decide
    · decide
  have hrmif : (Instr.rmif 2 0 3 : Instr Label).exec (s.set 2 (if b then 3 else 0)) =
      { s.set 2 (if b then 3 else 0) with flags := { s.flags with c := b, v := b } } := by
    show ({ s.set 2 (if b then 3 else 0) with
      flags := Instr.rmifFlags ((s.set 2 (if b then 3 else 0)).get 2) 0 3 (s.set 2 _).flags } : State) = _
    rw [State.get_set_self (by decide), State.set_flags]
    cases b
    · rfl
    · rfl
  refine ⟨_, (Piece.cons rfl (Piece.one rfl _)).trans_eq ?_,
    (hrep.set_scratch h2s (if b then 3 else 0)).set_flags { s.flags with c := b, v := b }, rfl, rfl⟩
  rw [horr, hrmif]

/-! ### the narrow products -/

theorem exec_mul (sf : Width) (rd rn rm : XReg) (s : State) :
    (Instr.mul sf rd rn rm : Instr Label).exec s = s.setW sf rd (s.getW sf rn * s.getW sf rm) := rfl

theorem exec_sxt (k : ℕ) (sf : Width) (rd rn : XReg) (s : State) :
    (Instr.sxt k sf rd rn : Instr Label).exec s =
      s.setW sf rd (((s.get rn).setWidth k).signExtend sf.bits) := rfl

theorem exec_bfi (rd rn : XReg) (lo w : ℕ) (s : State) :
    (Instr.bfi rd rn lo w : Instr Label).exec s =
      s.set rd (insertBits lo w (s.get rd) ((s.get rn).setWidth w)) := rfl

/-- What computes a narrow product in `w0`. -/
def narrowProduct (signed : Bool) (n : ℕ) (mask : BitVec 64) (r : XReg) : Asm :=
  if signed then [.sxt n .w 1 r, .sxt n .w 0 19, .mul .w 0 0 1]
  else [.logic .and false .w 0 19 (.imm mask), .mul .w 0 0 r]

theorem wideCode_narrow (signed : Bool) (r : XReg) :
    wideCode signed 1 r =
        narrowProduct signed 8 0xff r ++ narrowHalves 1 (if signed then 1 else 2) ∧
      wideCode signed 2 r =
        narrowProduct signed 16 0xffff r ++ narrowHalves 2 (if signed then 1 else 2) := ⟨rfl, rfl⟩

theorem cut_through {n m : ℕ} (h : n ≤ m) {x : BitVec 64} {v : BitVec n}
    (hx : x.setWidth m = v.setWidth m) : x.setWidth n = v := by
  have hcut := congrArg (BitVec.setWidth n) hx
  rwa [BitVec.setWidth_setWidth_of_le _ h, BitVec.setWidth_setWidth_of_le _ h,
    BitVec.setWidth_eq] at hcut

theorem masked_low {n : ℕ} (hn : n ≤ 32) {x mask : BitVec 64}
    (hmask : (x.setWidth 32 &&& mask.setWidth 32).setWidth 64 = (x.extractLsb' 0 n).setWidth 64) :
    x.setWidth 32 &&& mask.setWidth 32 = (x.setWidth n).setWidth 32 := by
  have hcut := congrArg (BitVec.setWidth 32) hmask
  rwa [cut_back (by decide), BitVec.setWidth_setWidth_of_le _ (by decide),
    ← BitVec.setWidth_eq_extractLsb' (by omega)] at hcut

theorem narrowProduct_spec {n : ℕ} {mask : BitVec 64} (hn : n ≤ 32)
    (hmask : ∀ x : BitVec 64, (x.setWidth 32 &&& mask.setWidth 32).setWidth 64 =
      (x.extractLsb' 0 n).setWidth 64) (signed : Bool) {r : XReg} (hr : r ≠ 0) (hrep : Rep c s)
    {v : BitVec n} (hv : s.getW .w r = v.setWidth 32) :
    ∃ s', Piece (narrowProduct signed n mask r) s s' ∧ Rep c s' ∧
      s'.getW .w 0 = Words.product 32 signed ((s.get 19).setWidth n) v := by
  have hplain : ∀ i ∈ narrowProduct signed n mask r, i.plain = true := by
    cases signed
    · exact List.all_eq_true.1 rfl
    · exact List.all_eq_true.1 rfl
  refine ⟨_, Piece.of_plain hplain s, ?_, ?_⟩
  · cases signed with
    | true =>
        show Rep c (execs [.sxt n .w 1 r, .sxt n .w 0 19, .mul .w 0 0 1] s)
        simp (disch := decide) only [execs_cons, execs_nil, exec_sxt, exec_mul, rep_setW]
        exact hrep
    | false =>
        show Rep c (execs [.logic .and false .w 0 19 (.imm mask), .mul .w 0 0 r] s)
        simp (disch := decide) only [execs_cons, execs_nil, exec_logicW, exec_mul, rep_setW]
        exact hrep
  · cases signed with
    | true =>
        have hlow : (s.get r).setWidth n = v := cut_through hn hv
        show (execs [.sxt n .w 1 r, .sxt n .w 0 19, .mul .w 0 0 1] s).getW .w 0 = _
        simp (disch := decide) only [execs_cons, execs_nil, exec_sxt, exec_mul, State.getW_setW_self,
          State.getW_setW_ne, State.get_setW_ne]
        rw [hlow]
        rfl
    | false =>
        show (execs [.logic .and false .w 0 19 (.imm mask), .mul .w 0 0 r] s).getW .w 0 = _
        simp (disch := decide) only [execs_cons, execs_nil, exec_logicW, exec_mul, eval_imm,
          State.getW_setW_self]
        rw [State.getW_setW_ne hr, hv]
        exact congrArg (fun x : BitVec 32 => x * v.setWidth 32) (masked_low hn (hmask (s.get 19)))

/-- The two bytes of a word inserted one after the other. -/
theorem insert_bytes (x y : BitVec 64) : insertBits 0 16 x (y.setWidth 16) =
    insertBits 8 8 (insertBits 0 8 x ((y.setWidth 32).setWidth 8)) ((y.setWidth 32).extractLsb' 8 8) := by
  apply BitVec.eq_of_getLsbD_eq
  intro k hk
  rw [getLsbD_insertBits _ _ _ _ hk, getLsbD_insertBits _ _ _ _ hk, getLsbD_insertBits _ _ _ _ hk]
  rcases lt_or_ge k 8 with h8 | h8
  · rw [if_pos ⟨by omega, by omega⟩, if_neg (by omega), if_pos ⟨by omega, by omega⟩,
      BitVec.getLsbD_setWidth, BitVec.getLsbD_setWidth, BitVec.getLsbD_setWidth,
      decide_eq_true (by omega), decide_eq_true (by omega), decide_eq_true (by omega)]
    rfl
  · rcases lt_or_ge k 16 with h16 | h16
    · rw [if_pos ⟨by omega, by omega⟩, if_pos ⟨by omega, by omega⟩, BitVec.getLsbD_setWidth,
        BitVec.getLsbD_extractLsb', BitVec.getLsbD_setWidth, decide_eq_true (by omega),
        decide_eq_true (by omega), decide_eq_true (by omega), show 8 + (k - 8) = k by omega]
      rfl
    · rw [if_neg (by omega), if_neg (by omega), if_neg (by omega)]

theorem byteHalves_spec (hrep : Rep c s) {p : BitVec 32} (hp : s.getW .w 0 = p) (t : XReg) :
    ∃ s', Piece (narrowHalves 1 t) s s' ∧
      Rep (c.putWide .b (p.setWidth 8) (p.extractLsb' 8 8)) s' ∧ s'.getW .w 0 = p := by
  have hlow := hrep.put .rax 0 .b (p.setWidth 8)
  have hput := hlow.put .rax 8 .b (p.extractLsb' 8 8)
  have heq : (Instr.bfi 19 0 0 16 : Instr Label).exec s =
      s.set 19 (insertBits 8 8 (insertBits 0 8 (s.get 19) (p.setWidth 8)) (p.extractLsb' 8 8)) := by
    rw [exec_bfi, ← hp]
    exact congrArg (s.set 19) (insert_bytes _ _)
  refine ⟨_, Piece.one rfl s, ?_, ?_⟩
  · rw [heq]
    rw [State.set_set] at hput
    exact hput
  · rw [exec_bfi, State.getW, State.get_set_ne (by decide)]
    exact hp

theorem wordHalves_spec (hrep : Rep c s) {p : BitVec 32} (hp : s.getW .w 0 = p) {t : XReg}
    (ht : t = 1 ∨ t = 2) : ∃ s', Piece (narrowHalves 2 t) s s' ∧
      Rep (c.putWide .w (p.setWidth 16) (p.extractLsb' 16 16)) s' ∧ s'.getW .w 0 = p ∧
      s'.get t = (p.extractLsb' 16 16).setWidth 64 := by
  have hts : t ∈ scratch := by rcases ht with rfl | rfl <;> decide
  have ht0 : (0 : XReg) ≠ t := by rcases ht with rfl | rfl <;> decide
  have ht31 : t ≠ 31 := by rcases ht with rfl | rfl <;> decide
  have h0 : (s.get 0).setWidth 16 = p.setWidth 16 := by
    rw [← hp]
    exact (BitVec.setWidth_setWidth_of_le _ (by decide)).symm
  have hlow := hrep.bfi (.inr rfl : Size.w = .b ∨ Size.w = .w) .rax 0 (r := 0) h0
  have hhalf : (p >>> 16).setWidth 64 = (p.extractLsb' 16 16).setWidth 64 := by
    apply extend_eq
    rw [BitVec.toNat_ushiftRight, BitVec.extractLsb'_toNat]
    have hlt := p.isLt
    rw [Nat.shiftRight_eq_div_pow]
    omega
  have hshift : (Instr.shift .lsr .w t 0 16 : Instr Label).exec
      ((Instr.bfi 19 0 0 16 : Instr Label).exec s) =
      ((Instr.bfi 19 0 0 16 : Instr Label).exec s).set t ((p.extractLsb' 16 16).setWidth 64) := by
    rw [exec_shiftW, State.setW, exec_bfi, State.getW, State.get_set_ne (by decide), ← hhalf, ← hp]
    rfl
  refine ⟨_, Piece.cons rfl (Piece.cons rfl (Piece.one rfl _)), ?_, ?_, ?_⟩
  · rw [hshift]
    refine (hlow.set_scratch hts _).bfi (.inr rfl : Size.w = .b ∨ Size.w = .w) .rdx 0 (r := t) ?_
    rw [State.get_set_self ht31]
    exact cut_back (by decide) _
  · rw [hshift, exec_bfi, exec_bfi, State.getW, State.get_set_ne (by decide), State.get_set_ne ht0,
      State.get_set_ne (by decide)]
    exact hp
  · rw [hshift, exec_bfi, State.get_set_ne (show t ≠ 22 from (pin_ne_scratch .rdx hts).symm),
      State.get_set_self ht31]

/-! ### the wide products -/

/-- The 64-bit product of two 32-bit registers, and its halves. -/
theorem wideCode_long (signed : Bool) {r : XReg} (hrep : Rep c s) {v : BitVec 32}
    (hv : s.getW .w r = v) : ∃ s' p, Piece (wideCode signed 4 r) s s' ∧
      p = Words.product 64 signed ((s.get 19).setWidth 32) v ∧
      Rep (c.putWide .l (p.setWidth 32) (p.extractLsb' 32 32)) s' ∧ s'.getW .x 0 = p ∧
      s'.get 22 = (p.extractLsb' 32 32).setWidth 64 := by
  have h0 : (0 : XReg) ∈ scratch := by decide
  obtain ⟨p, hp⟩ : ∃ p, p = Words.product 64 signed ((s.get 19).setWidth 32) v := ⟨_, rfl⟩
  have hmul : (if signed then .smull 0 19 r else .umull 0 19 r : Instr Label).exec s = s.set 0 p := by
    rw [hp, ← hv]
    cases signed
    · exact congrArg (s.set 0) (BitVec.setWidth_eq _)
    · exact congrArg (s.set 0) (BitVec.setWidth_eq _)
  have hmov : (Instr.mov .w 19 0 : Instr Label).exec (s.set 0 p) =
      (s.set 0 p).set 19 ((p.setWidth 32).setWidth 64) := by
    show State.set _ 19 ((((s.set 0 p).get 0).setWidth 32).setWidth 64) = _
    rw [State.get_set_self (by decide)]
  have hhalf : p >>> 32 = (p.extractLsb' 32 32).setWidth 64 := by
    apply BitVec.eq_of_toNat_eq
    have hlt := p.isLt
    rw [BitVec.toNat_ushiftRight, BitVec.toNat_setWidth, BitVec.extractLsb'_toNat,
      Nat.shiftRight_eq_div_pow]
    omega
  have hshift : (Instr.shift .lsr .x 22 0 32 : Instr Label).exec
      ((s.set 0 p).set 19 ((p.setWidth 32).setWidth 64)) =
      ((s.set 0 p).set 19 ((p.setWidth 32).setWidth 64)).set 22 ((p.extractLsb' 32 32).setWidth 64) := by
    rw [exec_shiftW, State.setW, State.getW, State.get_set_ne (by decide),
      State.get_set_self (by decide), ← hhalf]
    show State.set _ 22 ((p.setWidth 64 >>> 32).setWidth 64) = _
    rw [BitVec.setWidth_eq, BitVec.setWidth_eq]
  have hplain : (if signed then .smull 0 19 r else .umull 0 19 r : Instr Label).plain = true := by
    cases signed <;> rfl
  refine ⟨_, p, Piece.cons hplain (Piece.cons rfl (Piece.one rfl _)), hp, ?_, ?_, ?_⟩
  · rw [hmul, hmov, hshift]
    exact ((hrep.set_scratch h0 p).put .rax 0 .l (p.setWidth 32)).put .rdx 0 .l (p.extractLsb' 32 32)
  · rw [hmul, hmov, hshift, State.getW, State.get_set_ne (by decide), State.get_set_ne (by decide),
      State.get_set_self (by decide)]
    exact BitVec.setWidth_eq _
  · rw [hmul, hmov, hshift, State.get_set_self (by decide)]

/-- The two halves of the product of two 64-bit registers. -/
theorem wideCode_quad (signed : Bool) {r : XReg} (hr : r ≠ 0) (hrep : Rep c s) {v : BitVec 64}
    (hv : s.get r = v) : ∃ s' p, Piece (wideCode signed 8 r) s s' ∧
      p = Words.product (64 + 64) signed (s.get 19) v ∧
      Rep (c.putWide .q (p.setWidth 64) (p.extractLsb' 64 64)) s' ∧ s'.get 0 = p.setWidth 64 ∧
      s'.get 22 = p.extractLsb' 64 64 := by
  have h0 : (0 : XReg) ∈ scratch := by decide
  obtain ⟨p, hp⟩ : ∃ p, p = Words.product (64 + 64) signed (s.get 19) v := ⟨_, rfl⟩
  have hlow : p.setWidth 64 = s.get 19 * v := by
    rw [hp, Words.product_low (by decide)]
  have hmul : (Instr.mul .x 0 19 r : Instr Label).exec s = s.set 0 (p.setWidth 64) := by
    rw [hlow, ← hv]
    show s.set 0 (((s.get 19).setWidth 64 * (s.get r).setWidth 64).setWidth 64) = _
    rw [BitVec.setWidth_eq, BitVec.setWidth_eq, BitVec.setWidth_eq]
  have h19 : (s.set 0 (p.setWidth 64)).getW .x 19 = s.get 19 := by
    rw [State.getW, State.get_set_ne (by decide)]
    exact BitVec.setWidth_eq _
  have hvr : (s.set 0 (p.setWidth 64)).getW .x r = v := by
    rw [State.getW, State.get_set_ne hr, hv]
    exact BitVec.setWidth_eq _
  have hhigh : (if signed then .smulh 22 19 r else .umulh 22 19 r : Instr Label).exec
      (s.set 0 (p.setWidth 64)) = (s.set 0 (p.setWidth 64)).set 22 (p.extractLsb' 64 64) := by
    cases signed with
    | true =>
        show State.set _ 22 ((((((s.set 0 (p.setWidth 64)).getW .x 19).signExtend 128 *
          ((s.set 0 (p.setWidth 64)).getW .x r).signExtend 128).extractLsb' 64 64)).setWidth 64) = _
        rw [h19, hvr, hp]
        exact congrArg (State.set _ 22) (BitVec.setWidth_eq _)
    | false =>
        show State.set _ 22 ((((((s.set 0 (p.setWidth 64)).getW .x 19).setWidth 128 *
          ((s.set 0 (p.setWidth 64)).getW .x r).setWidth 128).extractLsb' 64 64)).setWidth 64) = _
        rw [h19, hvr, hp]
        exact congrArg (State.set _ 22) (BitVec.setWidth_eq _)
  have hmov : (Instr.mov .x 19 0 : Instr Label).exec
      ((s.set 0 (p.setWidth 64)).set 22 (p.extractLsb' 64 64)) =
      ((s.set 0 (p.setWidth 64)).set 22 (p.extractLsb' 64 64)).set 19 (p.setWidth 64) := by
    show State.set _ 19 (((State.get (State.set _ 22 _) 0).setWidth 64).setWidth 64) = _
    rw [State.get_set_ne (by decide), State.get_set_self (by decide), BitVec.setWidth_eq,
      BitVec.setWidth_eq]
  have hplain : (if signed then .smulh 22 19 r else .umulh 22 19 r : Instr Label).plain = true := by
    cases signed <;> rfl
  refine ⟨_, p, Piece.cons rfl (Piece.cons hplain (Piece.one rfl _)), hp, ?_, ?_, ?_⟩
  · rw [hmul, hhigh, hmov]
    have hput := ((hrep.set_scratch h0 (p.setWidth 64)).put .rdx 0 .q (p.extractLsb' 64 64)).put .rax 0
      .q (p.setWidth 64)
    have hcomm := put_put_comm (c := c) .q (show Gpr.rax ≠ .rdx by decide) 0 0 (p.setWidth 64)
      (p.extractLsb' 64 64)
    have hq : ∀ (lo : ℕ) (x v : BitVec 64), regWrite .q lo x v = v := fun _ _ v => BitVec.setWidth_eq v
    rw [hq, hq] at hput
    exact (congrArg (fun c => Rep c _) hcomm).mpr hput
  · rw [hmul, hhigh, hmov, State.get_set_ne (by decide), State.get_set_ne (by decide),
      State.get_set_self (by decide)]
  · rw [hmul, hhigh, hmov, State.get_set_ne (by decide), State.get_set_self (by decide)]

/-! ### which high halves are significant -/

/-- The product differs from the extension of its low bits. -/
theorem extensionTest_spec (k : ℕ) (sf : Width) {p : BitVec sf.bits} (hp : s.getW sf 0 = p) :
    ∃ f, Piece [.cmpSxt k sf 0 0] s { s with flags := f } ∧
      f.z = !(p != (p.setWidth k).signExtend sf.bits) := by
  refine ⟨_, (Piece.one rfl s).trans_eq (exec_cmpSxt _ _ _ _ _), ?_⟩
  rw [hp, addWithCarry_z sf.bits_pos, bne, Bool.not_not]

theorem zeroTest_spec {n : ℕ} (hn : n ≤ 64) {h : BitVec n} (h2 : s.get 2 = h.setWidth 64) :
    ∃ f, Piece [.cmp .x 2 (.imm 0)] s { s with flags := f } ∧ f.z = !(h != 0) := by
  refine ⟨_, (Piece.one rfl s).trans_eq (exec_cmp _ _ _ _), ?_⟩
  have himm : (Op2.imm 0).eval s .x = 0 := BitVec.setWidth_zero _ _
  have hx : s.getW .x 2 = h.setWidth 64 := by
    rw [State.getW, h2]
    exact BitVec.setWidth_eq _
  rw [himm, (subNzcv_zero _).1, hx, bne, Bool.not_not]
  exact extend_eq_zero hn h

theorem highToTwo_spec (hrep : Rep c s) {n : ℕ} {h : BitVec n} (h22 : s.get 22 = h.setWidth 64) :
    ∃ s', Piece [.mov .x 2 22] s s' ∧ Rep c s' ∧ s'.get 2 = h.setWidth 64 := by
  have h2s : (2 : XReg) ∈ scratch := by decide
  refine ⟨_, Piece.one rfl s, hrep.set_scratch h2s _, ?_⟩
  show (State.set s 2 (((s.get 22).setWidth 64).setWidth 64)).get 2 = _
  rw [State.get_set_self (by decide), BitVec.setWidth_eq, BitVec.setWidth_eq, h22]

theorem wideCode_spec (signed : Bool) {sz : Size} {r : XReg} (hr : r ≠ 0) (hrep : Rep c s)
    {v : BitVec sz.bits} (hv : s.getW (width sz.bytes) r = v.setWidth (width sz.bytes).bits)
    {p : BitVec (sz.bits + sz.bits)}
    (hp : p = Words.product (sz.bits + sz.bits) signed (c.get sz (.reg .rax 0)) v) :
    ∃ s₁ s₂, Piece (wideCode signed sz.bytes r) s s₁ ∧
      Rep (c.putWide sz (p.setWidth sz.bits) (p.extractLsb' sz.bits sz.bits)) s₁ ∧
      Piece (significanceTest signed sz.bytes) s₁ s₂ ∧
      Rep (c.putWide sz (p.setWidth sz.bits) (p.extractLsb' sz.bits sz.bits)) s₂ ∧
      s₂.flags.z = !Words.significant signed p := by
  have hrax : (s.get 19).setWidth sz.bits = c.get sz (.reg .rax 0) := by
    rw [setWidth_low]
    exact get_reg hrep .rax 0 sz
  have h2s : (2 : XReg) ∈ scratch := by decide
  rw [← hrax] at hp
  cases sz with
  | b =>
      obtain ⟨s₀, hp₀, hrep₀, hw₀⟩ := narrowProduct_spec (n := 8) (by decide)
        setWidth_low_byte signed hr hrep hv
      obtain ⟨s₁, hp₁, hrep₁, hw₁⟩ := byteHalves_spec hrep₀ hw₀ (if signed then 1 else 2)
      obtain ⟨hlo, hhi⟩ := Words.product_halves (m := 32) (by decide) signed ((s.get 19).setWidth 8) v
      have hcode := (wideCode_narrow signed r).1 ▸ hp₀.append hp₁
      rw [← hlo, ← hhi] at hrep₁
      rw [hp]
      cases signed with
      | true =>
          obtain ⟨f, hpf, hf⟩ := extensionTest_spec 8 .w hw₁
          refine ⟨s₁, _, hcode, hrep₁, hpf, hrep₁.set_flags f, ?_⟩
          exact hf.trans (congrArg (!·)
            (Words.significant_signed_iff (by decide) (by decide) _ v).symm)
      | false =>
          have h2 : ((Instr.ubfx .w 2 0 8 8 : Instr Label).exec s₁).get 2 =
              ((Words.product (8 + 8) false ((s.get 19).setWidth 8) v).extractLsb' 8 8).setWidth 64 := by
            rw [hhi, ← hw₁]
            show (State.set s₁ 2 (((s₁.getW .w 0).extractLsb' 8 8).setWidth 32 |>.setWidth 64)).get 2 = _
            rw [State.get_set_self (by decide)]
            exact extend_twice (by decide) _
          obtain ⟨f, hpf, hf⟩ := zeroTest_spec (by decide) h2
          exact ⟨s₁, _, hcode, hrep₁, Piece.cons rfl hpf, (hrep₁.set_scratch h2s _).set_flags f, hf⟩
  | w =>
      obtain ⟨s₀, hp₀, hrep₀, hw₀⟩ := narrowProduct_spec (n := 16) (by decide)
        setWidth_low_half signed hr hrep hv
      have ht : (if signed then (1 : XReg) else 2) = 1 ∨ (if signed then (1 : XReg) else 2) = 2 := by
        cases signed <;> decide
      obtain ⟨s₁, hp₁, hrep₁, hw₁, ht₁⟩ := wordHalves_spec hrep₀ hw₀ ht
      obtain ⟨hlo, hhi⟩ := Words.product_halves (m := 32) (by decide) signed ((s.get 19).setWidth 16) v
      have hcode := (wideCode_narrow signed r).2 ▸ hp₀.append hp₁
      rw [← hlo, ← hhi] at hrep₁
      rw [← hhi] at ht₁
      rw [hp]
      cases signed with
      | true =>
          obtain ⟨f, hpf, hf⟩ := extensionTest_spec 16 .w hw₁
          refine ⟨s₁, _, hcode, hrep₁, hpf, hrep₁.set_flags f, ?_⟩
          exact hf.trans (congrArg (!·)
            (Words.significant_signed_iff (by decide) (by decide) _ v).symm)
      | false =>
          obtain ⟨f, hpf, hf⟩ := zeroTest_spec (by decide) ht₁
          exact ⟨s₁, _, hcode, hrep₁, hpf, hrep₁.set_flags f, hf⟩
  | l =>
      obtain ⟨s₁, q, hp₁, hq, hrep₁, hx₁, h22⟩ := wideCode_long signed hrep
        (hv.trans (BitVec.setWidth_eq v))
      have hqp : q = p := hq.trans hp.symm
      rw [hqp] at hrep₁ hx₁ h22
      cases signed with
      | true =>
          obtain ⟨f, hpf, hf⟩ := extensionTest_spec 32 .x hx₁
          exact ⟨s₁, _, hp₁, hrep₁, hpf, hrep₁.set_flags f, hf⟩
      | false =>
          obtain ⟨s₂, hmov, hrep₂, h2⟩ := highToTwo_spec hrep₁ h22
          obtain ⟨f, hpf, hf⟩ := zeroTest_spec (by decide) h2
          exact ⟨s₁, _, hp₁, hrep₁, hmov.append hpf, hrep₂.set_flags f, hf⟩
  | q =>
      obtain ⟨s₁, q, hp₁, hq, hrep₁, h0, h22⟩ := wideCode_quad signed hr hrep
        ((BitVec.setWidth_eq _).symm.trans (hv.trans (BitVec.setWidth_eq v)))
      have hqp : q = p := hq.trans ((congrArg (fun x : BitVec 64 => Words.product (64 + 64) signed x v)
        (BitVec.setWidth_eq _).symm).trans hp.symm)
      rw [hqp] at hrep₁ h0 h22
      cases signed with
      | true =>
          have hpiece : Piece [.cmpAsr .x 22 0 63] s₁ { s₁ with flags :=
              (addWithCarry (p.extractLsb' 64 64) (~~~(p.setWidth 64).sshiftRight 63) true).2 } := by
            refine (Piece.one rfl _).trans_eq ?_
            have h0' : s₁.getW .x 0 = p.setWidth 64 := (BitVec.setWidth_eq _).trans h0
            have h22' : s₁.getW .x 22 = p.extractLsb' 64 64 := (BitVec.setWidth_eq _).trans h22
            rw [exec_cmpAsr, h0', h22']
            rfl
          refine ⟨s₁, _, hp₁, hrep₁, hpiece, hrep₁.set_flags _, ?_⟩
          show (addWithCarry (p.extractLsb' 64 64) (~~~(p.setWidth 64).sshiftRight 63) true).2.z = _
          rw [addWithCarry_z (by decide), Words.significant_high (by decide), bne, Bool.not_not]
          rfl
      | false =>
          obtain ⟨s₂, hmov, hrep₂, h2⟩ := highToTwo_spec hrep₁ (h22.trans (BitVec.setWidth_eq _).symm)
          obtain ⟨f, hpf, hf⟩ := zeroTest_spec (by decide) h2
          exact ⟨s₁, _, hp₁, hrep₁, hmov.append hpf, hrep₂.set_flags f, hf⟩

/-! ### the products of two and three operands -/

/-- The product of two registers, in a register of at least 32 bits. -/
theorem exec_mul_into (sf : Width) {x a b : XReg} {v w : BitVec sf.bits} (ha : s.getW sf a = v)
    (hb : s.getW sf b = w) :
    (Instr.mul sf x a b : Instr Label).exec s = s.set x ((v * w).setWidth 64) := by
  rw [exec_mul, ha, hb]
  rfl

theorem setBit_spec (hrep : Rep c s) {b : Bool} (h : s.flags.z = !b) :
    ∃ s', Piece [.cset .w 2 .ne] s s' ∧ Rep c s' ∧ s'.get 2 = (if b then 1 else 0) ∧
      s'.get 0 = s.get 0 := by
  have h2s : (2 : XReg) ∈ scratch := by decide
  refine ⟨_, (Piece.one rfl s).trans_eq (exec_cset_ne h), hrep.set_scratch h2s _, ?_, ?_⟩
  · rw [State.get_set_self (by decide)]
  · rw [State.get_set_ne (by decide)]

theorem writtenFrom_spec {dst : Reg} {g : Gpr} {sz : Size} (hloc : dst.loc = some (g, 0, sz))
    (hrep : Rep c s) {v : BitVec sz.bits} (hv : (s.get 0).setWidth sz.bits = v) :
    ∃ s', Piece ((writeRegFrom dst 0).getD []) s s' ∧ Rep (c.put sz (.reg g 0) v) s' ∧
      s'.get 2 = s.get 2 := by
  obtain ⟨is, his, hpiece⟩ := writeRegFrom_piece hloc 0
  rw [his, ← hv]
  refine ⟨_, hpiece s, hrep.put g 0 sz _, ?_⟩
  rw [State.get_set_ne (pin_ne_scratch g (by decide)).symm]

theorem writeRegFrom_wide {dst : Reg} {g : Gpr} {sz : Size} (hloc : dst.loc = some (g, 0, sz))
    (hsz : sz = .l ∨ sz = .q) :
    (writeRegFrom dst 0).getD [] = [.mov (width sz.bytes) (pin g) 0] := by
  rw [writeRegFrom, arm64RegMap_loc hloc]
  rcases hsz with rfl | rfl <;> rfl

theorem wordProduct_spec {a b : XReg} (hb4 : b ≠ 4) (hrep : Rep c s) {v w : BitVec 16}
    (hv : (s.get a).setWidth 16 = v) (hw : (s.get b).setWidth 16 = w) :
    ∃ s', Piece [.sxt 16 .w 4 a, .sxt 16 .w 5 b, .mul .w 0 4 5] s s' ∧ Rep c s' ∧
      s'.getW .w 0 = Words.product 32 true v w := by
  refine ⟨_, Piece.of_plain (List.all_eq_true.1 rfl) s, ?_, ?_⟩
  · simp (disch := decide) only [execs_cons, execs_nil, exec_sxt, exec_mul, rep_setW]
    exact hrep
  · simp (disch := decide) only [execs_cons, execs_nil, exec_sxt, exec_mul, State.getW_setW_self,
      State.getW_setW_ne]
    rw [State.get_setW_ne hb4, hv, hw]
    rfl

/-- The two halves of the product of two 64-bit registers, and whether the high one is significant. -/
theorem quadProduct_spec {a b : XReg} (ha : a ≠ 0) (hb : b ≠ 0) (hrep : Rep c s) {v w : BitVec 64}
    (hv : s.get a = v) (hw : s.get b = w) :
    ∃ s', Piece [.mul .x 0 a b, .smulh 2 a b, .cmpAsr .x 2 0 63] s s' ∧ Rep c s' ∧
      s'.get 0 = v * w ∧
      s'.flags.z = !Words.significant true (Words.product (64 + 64) true v w) := by
  have h0s : (0 : XReg) ∈ scratch := by decide
  have h2s : (2 : XReg) ∈ scratch := by decide
  obtain ⟨p, hp⟩ : ∃ p, p = Words.product (64 + 64) true v w := ⟨_, rfl⟩
  have hlow : v * w = p.setWidth 64 := by
    rw [hp, Words.product_low (by decide)]
  have hmul := exec_mul_into .x (x := 0) ((BitVec.setWidth_eq _).trans hv)
    ((BitVec.setWidth_eq _).trans hw)
  have hmul' : (Instr.mul .x 0 a b : Instr Label).exec s = s.set 0 (v * w) :=
    hmul.trans (congrArg (s.set 0) (BitVec.setWidth_eq _))
  have hav : (s.set 0 (v * w)).getW .x a = v := by
    rw [State.getW, State.get_set_ne ha, hv]
    exact BitVec.setWidth_eq _
  have hbw : (s.set 0 (v * w)).getW .x b = w := by
    rw [State.getW, State.get_set_ne hb, hw]
    exact BitVec.setWidth_eq _
  have hhigh : (Instr.smulh 2 a b : Instr Label).exec (s.set 0 (v * w)) =
      (s.set 0 (v * w)).set 2 (p.extractLsb' 64 64) := by
    show State.set _ 2 ((((((s.set 0 (v * w)).getW .x a).signExtend 128 *
      ((s.set 0 (v * w)).getW .x b).signExtend 128).extractLsb' 64 64)).setWidth 64) = _
    rw [hav, hbw, hp]
    exact congrArg (State.set _ 2) (BitVec.setWidth_eq _)
  have hcmp : (Instr.cmpAsr .x 2 0 63 : Instr Label).exec
      ((s.set 0 (v * w)).set 2 (p.extractLsb' 64 64)) =
      { (s.set 0 (v * w)).set 2 (p.extractLsb' 64 64) with flags :=
        (addWithCarry (p.extractLsb' 64 64) (~~~(p.setWidth 64).sshiftRight 63) true).2 } := by
    have h2 : ((s.set 0 (v * w)).set 2 (p.extractLsb' 64 64)).getW .x 2 = p.extractLsb' 64 64 := by
      rw [State.getW, State.get_set_self (by decide)]
      exact BitVec.setWidth_eq _
    have h0 : ((s.set 0 (v * w)).set 2 (p.extractLsb' 64 64)).getW .x 0 = p.setWidth 64 := by
      rw [State.getW, State.get_set_ne (by decide), State.get_set_self (by decide), hlow]
      exact BitVec.setWidth_eq _
    rw [exec_cmpAsr, h2, h0]
    rfl
  refine ⟨_, Piece.cons rfl (Piece.cons rfl (Piece.one rfl _)), ?_, ?_, ?_⟩
  · rw [hmul', hhigh, hcmp]
    exact ((hrep.set_scratch h0s _).set_scratch h2s _).set_flags _
  · rw [hmul', hhigh, hcmp]
    show ((s.set 0 (v * w)).set 2 (p.extractLsb' 64 64)).get 0 = _
    rw [State.get_set_ne (by decide), State.get_set_self (by decide)]
  · rw [hmul', hhigh, hcmp]
    show (addWithCarry (p.extractLsb' 64 64) (~~~(p.setWidth 64).sshiftRight 63) true).2.z = _
    rw [← hp, addWithCarry_z (by decide), Words.significant_high (by decide), bne, Bool.not_not]

/-- **The product in the destination**, and whether it fits. -/
theorem intoCode_spec {dst : Reg} {g : Gpr} {sz : Size} (hloc : dst.loc = some (g, 0, sz))
    (hsz : sz ≠ .b) {a b : XReg} (ha : a ≠ 0 ∨ sz = .w) (hb0 : b ≠ 0) (hb4 : b ≠ 4) (hrep : Rep c s)
    {v w : BitVec sz.bits} (hv : (s.get a).setWidth sz.bits = v) (hw : (s.get b).setWidth sz.bits = w)
    (flags : Bool) : ∃ s', Piece (intoCode sz.bytes (pin g) dst a b flags) s s' ∧
      Rep (c.put sz (.reg g 0) (v * w)) s' ∧ (flags = true → s'.get 2 =
        if Words.significant true (Words.product (sz.bits + sz.bits) true v w) then 1 else 0) := by
  have h0s : (0 : XReg) ∈ scratch := by decide
  cases sz with
  | b => exact absurd rfl hsz
  | w =>
      obtain ⟨s₁, hp₁, hrep₁, hw₁⟩ := wordProduct_spec hb4 hrep hv hw
      have hlow : (s₁.get 0).setWidth 16 = v * w :=
        (BitVec.setWidth_setWidth_of_le _ (by decide)).symm.trans
          ((congrArg (BitVec.setWidth 16) hw₁).trans (Words.product_low (by decide) true v w))
      cases flags with
      | false =>
          obtain ⟨s₂, hp₂, hrep₂, -⟩ := writtenFrom_spec hloc hrep₁ hlow
          exact ⟨s₂, (hp₁.append (Piece.nil s₁)).append hp₂, hrep₂, fun h => absurd h (by decide)⟩
      | true =>
          obtain ⟨f, hpf, hf⟩ := extensionTest_spec 16 .w hw₁
          obtain ⟨s₃, hp₃, hrep₃, h2, h0⟩ := setBit_spec (hrep₁.set_flags f) hf
          obtain ⟨s₄, hp₄, hrep₄, h2'⟩ := writtenFrom_spec hloc hrep₃
            ((congrArg (BitVec.setWidth 16) h0).trans hlow)
          refine ⟨s₄, (hp₁.append (hpf.append hp₃)).append hp₄, hrep₄, fun _ => h2'.trans (h2.trans ?_)⟩
          exact congrArg (fun x : Bool => (if x then 1 else 0 : BitVec 64))
            (Words.significant_signed_iff (by decide) (by decide) v w).symm
  | l =>
      cases flags with
      | false =>
          refine ⟨_, (Piece.one rfl s).trans_eq (exec_mul_into .w hv hw), ?_,
            fun h => absurd h (by decide)⟩
          exact hrep.put g 0 .l (v * w)
      | true =>
          have hmul : (Instr.smull 0 a b : Instr Label).exec s =
              s.set 0 (Words.product 64 true v w) := by
            rw [← hv, ← hw]
            exact congrArg (s.set 0) (BitVec.setWidth_eq _)
          have hp₁ := (Piece.one (i := .smull 0 a b) rfl s).trans_eq hmul
          have hrep₁ := hrep.set_scratch h0s (Words.product 64 true v w)
          have hx : (s.set 0 (Words.product 64 true v w)).get 0 = Words.product 64 true v w :=
            State.get_set_self (by decide)
          generalize s.set 0 (Words.product 64 true v w) = s₁ at hp₁ hrep₁ hx
          have hlow : (s₁.get 0).setWidth 32 = v * w :=
            (congrArg (BitVec.setWidth 32) hx).trans (Words.product_low (by decide) true v w)
          obtain ⟨f, hpf, hf⟩ := extensionTest_spec 32 .x ((BitVec.setWidth_eq _).trans hx)
          obtain ⟨s₃, hp₃, hrep₃, h2, h0⟩ := setBit_spec (hrep₁.set_flags f) hf
          obtain ⟨s₄, hp₄, hrep₄, h2'⟩ := writtenFrom_spec hloc hrep₃
            ((congrArg (BitVec.setWidth 32) h0).trans hlow)
          rw [writeRegFrom_wide hloc (.inl rfl)] at hp₄
          exact ⟨s₄, hp₁.append (hpf.append (hp₃.append hp₄)), hrep₄, fun _ => h2'.trans h2⟩
  | q =>
      cases flags with
      | false =>
          refine ⟨_, (Piece.one rfl s).trans_eq (exec_mul_into .x hv hw), ?_,
            fun h => absurd h (by decide)⟩
          exact hrep.put g 0 .q (v * w)
      | true =>
          obtain ⟨s₁, hp₁, hrep₁, h0₁, hz⟩ := quadProduct_spec (ha.resolve_right (by decide)) hb0 hrep
            ((BitVec.setWidth_eq _).symm.trans hv) ((BitVec.setWidth_eq _).symm.trans hw)
          obtain ⟨s₂, hp₂, hrep₂, h2, h0⟩ := setBit_spec hrep₁ hz
          obtain ⟨s₃, hp₃, hrep₃, h2'⟩ := writtenFrom_spec hloc hrep₂
            ((BitVec.setWidth_eq _).trans (h0.trans h0₁))
          rw [writeRegFrom_wide hloc (.inr rfl)] at hp₃
          exact ⟨s₃, hp₁.append (hp₂.append hp₃), hrep₃, fun _ => h2'.trans h2⟩

/-! ### the factors -/

/-- A source factor: loaded into `x1`, or a wide register where it is. -/
theorem mulSource_piece {src : Arg} {sz : Size} {e : Place} (hrep : Rep c s)
    (he : Cpu.placeBy (codeOperand i s) i sz src = some e) :
    ∃ ld r s', mulSource (some src) sz.bytes i.nextPC = some (ld, r) ∧ Piece ld s s' ∧ Rep c s' ∧
      (r = 1 ∨ ∃ g, r = pin g) ∧
      s'.getW (width sz.bytes) r = (c.get sz e).setWidth (width sz.bytes).bits := by
  have h1 : (1 : XReg) ∈ scratch := by decide
  cases src with
  | imm w => cases he
  | rel w => cases he
  | reg r =>
      obtain ⟨g, lo, hloc, rfl⟩ := placeBy_reg.1 he
      by_cases hwide : sz = .l ∨ sz = .q
      · have hb : sz ≠ .b := by
          rintro rfl
          rcases hwide with h | h <;> cases h
        obtain rfl := lo_eq_zero hloc hb
        refine ⟨[], pin g, s, ?_, Piece.nil s, hrep, .inr ⟨g, rfl⟩, ?_⟩
        · simp only [mulSource, arm64RegMap_loc hloc]
          rcases hwide with rfl | rfl <;> rfl
        · have hlow := (setWidth_low (s.get (pin g)) sz).trans (get_reg hrep g 0 sz)
          rw [← hlow]
          rcases hwide with rfl | rfl
          · exact (BitVec.setWidth_eq _).symm
          · exact (BitVec.setWidth_eq _).symm
      · obtain ⟨ld, hld, hpiece⟩ := readRegTo_piece hloc 1
        refine ⟨ld, 1, _, ?_, hpiece s, hrep.set_scratch h1 _, .inl rfl, ?_⟩
        · simp only [mulSource, arm64RegMap_loc hloc, hld]
          cases sz
          case b => rfl
          case w => rfl
          case l => exact absurd (.inl rfl) hwide
          case q => exact absurd (.inr rfl) hwide
        · refine getW_of_get ?_ _
          rw [State.get_set_self (by decide), get_reg hrep]
  | mem m =>
      obtain ⟨-, a, ha, rfl⟩ := placeBy_mem.1 he
      obtain ⟨s', hpiece, -, hrep'⟩ := readMemTo_piece ha hrep sz 1
      refine ⟨_, 1, _, rfl, hpiece, hrep'.set_scratch h1 _, .inl rfl, getW_of_get ?_ _⟩
      rw [State.get_set_self (by decide)]
      rfl

theorem mulSource_ne {r : XReg} (hr : r = 1 ∨ ∃ g, r = pin g) : r ≠ 0 ∧ r ≠ 3 ∧ r ≠ 4 := by
  rcases hr with rfl | ⟨g, rfl⟩
  · decide
  · exact ⟨pin_ne_scratch g (by decide), pin_ne_scratch g (by decide), pin_ne_scratch g (by decide)⟩

/-- The immediate factor, sign-extended to the size of the operation. -/
theorem immediate_piece (sz : Size) (k : BitVec 64) (hrep : Rep c s) :
    ∃ s', Piece (if sz.bytes = 8 then loadImm64 3 k else loadImm32 3 (k.setWidth 32)) s s' ∧ Rep c s' ∧
      (s'.get 3).setWidth sz.bits = k.setWidth sz.bits ∧ ∀ r, r ≠ 3 → s'.get r = s.get r := by
  have h3 : (3 : XReg) ∈ scratch := by decide
  by_cases hq : sz = .q
  · have hcode : (if sz.bytes = 8 then loadImm64 3 k else loadImm32 3 (k.setWidth 32)) =
        loadImm64 3 k := by
      rw [hq]
      rfl
    rw [hcode]
    refine ⟨_, (Piece.of_plain (plain_loadImm64 3 k) s).trans_eq (execs_loadImm64 (by decide) k s),
      hrep.set_scratch h3 _, ?_, fun r hr => State.get_set_ne hr⟩
    rw [State.get_set_self (by decide)]
  · have hcode : (if sz.bytes = 8 then loadImm64 3 k else loadImm32 3 (k.setWidth 32)) =
        loadImm32 3 (k.setWidth 32) := by
      cases sz <;> first | rfl | exact absurd rfl hq
    rw [hcode]
    refine ⟨_, (Piece.of_plain (plain_loadImm32 3 _) s).trans_eq (execs_loadImm32 (by decide) _ s),
      hrep.set_scratch h3 _, ?_, fun r hr => State.get_set_ne hr⟩
    have hle : sz.bits ≤ 32 := by
      cases sz <;> first | decide | exact absurd rfl hq
    rw [State.get_set_self (by decide), BitVec.setWidth_setWidth_of_le _ sz.bits_le,
      BitVec.setWidth_setWidth_of_le _ hle]

theorem factor_low {sz : Size} {r : XReg} {v : BitVec sz.bits}
    (h : s.getW (width sz.bytes) r = v.setWidth (width sz.bytes).bits) :
    (s.get r).setWidth sz.bits = v := by
  cases sz
  case b => exact cut_through (m := 32) (by decide) h
  case w => exact cut_through (m := 32) (by decide) h
  case l => exact cut_through (m := 32) (by decide) h
  case q => exact cut_through (m := 64) (by decide) h

/-- The factors of `IMUL` with two operands or three, in either order. -/
theorem imulFactors_piece {dst : Reg} {src : Arg} {rest : List Arg} {g : Gpr} {sz : Size} {e : Place}
    {k : BitVec sz.bits} (hargs : i.inst.args = .reg dst :: src :: rest)
    (hloc : dst.loc = some (g, 0, sz)) (hb : sz ≠ .b) (hrep : Rep c s)
    (he : Cpu.placeBy (codeOperand i s) i sz src = some e) (hk : c.factor sz g rest = some k) :
    ∃ ld a b s' v w, imulFactors i dst { x := pin g, size := sz.bytes, isHigh8 := false } i.nextPC =
        .ok (ld, a, b) ∧ Piece ld s s' ∧ Rep c s' ∧ (a ≠ 0 ∨ sz = .w) ∧ b ≠ 0 ∧ b ≠ 4 ∧
      (s'.get a).setWidth sz.bits = v ∧ (s'.get b).setWidth sz.bits = w ∧
      (v = k ∧ w = c.get sz e ∨ v = c.get sz e ∧ w = k) := by
  have h0 : (0 : XReg) ∈ scratch := by decide
  obtain ⟨ld, r, s₁, hsrc, hp₁, hrep₁, hr, hval⟩ := mulSource_piece hrep he
  obtain ⟨hr0, hr3, hr4⟩ := mulSource_ne hr
  have hlow := factor_low hval
  cases rest with
  | nil =>
      obtain rfl := Option.some.inj hk
      by_cases hwide : sz.bytes = 8 ∨ sz.bytes = 4
      · refine ⟨ld, pin g, r, s₁, _, _, ?_, hp₁, hrep₁, .inl (pin_ne_scratch g h0), hr0, hr4, rfl, hlow,
          .inl ⟨?_, rfl⟩⟩
        · simp only [imulFactors, Inst.arg, hargs, List.getElem?_cons_succ, List.getElem?_cons_zero,
            List.getElem?_nil, hsrc, if_pos hwide]
        · rw [setWidth_low, get_reg hrep₁]
      · have hw : sz = .w := by
          cases sz
          case b => exact absurd rfl hb
          case w => rfl
          case l => exact absurd (.inr rfl) hwide
          case q => exact absurd (.inl rfl) hwide
        obtain ⟨is, his, hp₂⟩ := readRegTo_piece hloc 0
        refine ⟨ld ++ is, 0, r, _, _, _, ?_, hp₁.append (hp₂ s₁), hrep₁.set_scratch h0 _, .inr hw, hr0,
          hr4, rfl, ?_, .inl ⟨?_, rfl⟩⟩
        · simp only [imulFactors, Inst.arg, hargs, List.getElem?_cons_succ, List.getElem?_cons_zero,
            List.getElem?_nil, hsrc, if_neg hwide, his, Option.getD_some]
        · rw [State.get_set_ne hr0, hlow]
        · rw [State.get_set_self (by decide), setWidth_roundtrip, get_reg hrep₁]
  | cons x xs =>
      cases xs with
      | cons y ys => cases x <;> cases hk
      | nil =>
          cases x with
          | reg _ => cases hk
          | mem _ => cases hk
          | rel _ => cases hk
          | imm n =>
              obtain rfl := Option.some.inj hk
              obtain ⟨s₂, hp₂, hrep₂, h3, hkeep⟩ := immediate_piece sz n hrep₁
              refine ⟨_, r, 3, s₂, _, _, ?_, hp₁.append hp₂, hrep₂, .inl hr0, by decide, by decide, ?_,
                h3, .inr ⟨rfl, rfl⟩⟩
              · simp only [imulFactors, Inst.arg, hargs, List.getElem?_cons_succ,
                  List.getElem?_cons_zero, hsrc]
              · rw [hkeep r hr3, hlow]

/-! ### the instructions -/

/-- The flags a multiplication defines. -/
def mulDefines : FlagSet := ⟨true, false, false, true⟩

/-- The carry and the overflow hold the significance, unless both are dead. -/
theorem significance_held {l : Arm64Lifter} {b : Bool} (f : X86.Flags)
    (h : (!i.carryDead || !i.overflowDead) = true → s.flags.c = b ∧ s.flags.v = b) :
    FlagsHeld (mulDefines.live i)
      (if (!i.carryDead || !i.overflowDead) then { l with cpol := .carryAdd } else l).cpol
      (f.significance b) s.flags := by
  cases hflags : (!i.carryDead || !i.overflowDead) with
  | true =>
      obtain ⟨hc, hv⟩ := h hflags
      have hall : FlagsHeld mulDefines .carryAdd (f.significance b) s.flags :=
        ⟨fun _ => hc, fun h => absurd h (by decide), fun h => absurd h (by decide), fun _ => hv⟩
      exact hall.live i
  | false =>
      simp only [Bool.or_eq_false_iff, Bool.not_eq_false'] at hflags
      obtain ⟨hcd, hod⟩ := hflags
      exact ⟨fun h => by simp [FlagSet.live, hcd] at h, fun h => by simp [FlagSet.live, mulDefines] at h,
        fun h => by simp [FlagSet.live, mulDefines] at h, fun h => by simp [FlagSet.live, hod] at h⟩

/-- **A multiplication with one operand.** -/
theorem mulWide_spec (l : Arm64Lifter) (signed : Bool) (unmapped other : String) {src : Arg}
    {sz : Size} {v : BitVec sz.bits} (hargs : i.inst.args = [src]) (hrep : Rep c s)
    (hv : c.operandBy (codeOperand i s) i src = some ⟨sz, v⟩) :
    ∃ is s', (mulWide l i signed unmapped other i.nextPC).1 = asm is ∧ Piece is s s' ∧
      Rep (c.wideProduct signed sz v) s' ∧
      FlagsHeld (mulDefines.live i) (mulWide l i signed unmapped other i.nextPC).2.cpol
        (c.wideProduct signed sz v).flags s'.flags := by
  obtain ⟨sz', e, hsize, he, heq⟩ := operandBy_some.1 hv
  obtain ⟨rfl, hval⟩ := Sigma.mk.inj heq
  obtain rfl := eq_of_heq hval
  obtain ⟨ld, r, s₁, hsrc, hp₁, hrep₁, hr, hr₁⟩ := mulSource_piece hrep he
  obtain ⟨s₂, s₃, hp₂, hrep₂, hp₃, hrep₃, hz⟩ := wideCode_spec signed (mulSource_ne hr).1 hrep₁ hr₁ rfl
  -- the size of the operand
  have hsize? : (match some src with
      | some (.reg r) => (arm64RegMap r).map (·.size)
      | _ => some (defMemSz i)) = some sz.bytes := by
    cases src with
    | imm w => cases he
    | rel w => cases he
    | reg r =>
        obtain ⟨g, lo, hloc, -⟩ := placeBy_reg.1 he
        show (arm64RegMap r).map (·.size) = _
        rw [arm64RegMap_loc hloc]
        rfl
    | mem m =>
        obtain ⟨hbytes, -⟩ := placeBy_mem.1 he
        exact congrArg some (defMemSz_eq hbytes)
  have hcode : mulWide l i signed unmapped other i.nextPC =
      (asm (ld ++ wideCode signed sz.bytes r ++ if (!i.carryDead || !i.overflowDead) then
          significanceTest signed sz.bytes ++ [.cset .w 2 .ne] ++ mulOverflowFlags else []),
        if (!i.carryDead || !i.overflowDead) then { l with cpol := .carryAdd } else l) := by
    have harg : i.inst.arg 0 = some src := by
      simp only [Inst.arg, hargs, List.getElem?_cons_zero]
    unfold mulWide
    rw [harg]
    dsimp only
    rw [hsize?]
    dsimp only
    rw [hsrc]
  rw [hcode]
  cases hflags : (!i.carryDead || !i.overflowDead) with
  | true =>
      obtain ⟨s₄, hp₄, hrep₄, h2, -⟩ := setBit_spec hrep₃ hz
      obtain ⟨s₅, hp₅, hrep₅, hc, hv⟩ := mulOverflowFlags_spec hrep₄ h2
      refine ⟨_, s₅, rfl, (hp₁.append hp₂).append ((hp₃.append hp₄).append hp₅),
        hrep₅.guestFlags _, ?_⟩
      have hheld := significance_held (i := i) (l := l) (s := s₅) c.flags fun _ => ⟨hc, hv⟩
      rw [hflags] at hheld
      exact hheld
  | false =>
      refine ⟨_, s₂, rfl, (hp₁.append hp₂).append (Piece.nil s₂), hrep₂.guestFlags _, ?_⟩
      have hheld := significance_held (i := i) (l := l) (s := s₂)
        (b := Words.significant signed (Words.product (sz.bits + sz.bits) signed
          (c.get sz (.reg .rax 0)) (c.get sz e))) c.flags fun h => by rw [hflags] at h; cases h
      rw [hflags] at hheld
      exact hheld

/-- **`IMUL` with two operands or three.** -/
theorem liftImul_spec (l : Arm64Lifter) {dst : Reg} {src : Arg} {rest : List Arg} {g : Gpr} {sz : Size}
    {e : Place} {k : BitVec sz.bits} (hargs : i.inst.args = .reg dst :: src :: rest)
    (hloc : dst.loc = some (g, 0, sz)) (hb : sz ≠ .b) (hrep : Rep c s)
    (he : Cpu.placeBy (codeOperand i s) i sz src = some e) (hk : c.factor sz g rest = some k) :
    ∃ is s', (liftImul l i i.nextPC).1 = asm is ∧ Piece is s s' ∧
      Rep (c.lowProduct sz g k (c.get sz e)) s' ∧
      FlagsHeld (mulDefines.live i) (liftImul l i i.nextPC).2.cpol
        (c.lowProduct sz g k (c.get sz e)).flags s'.flags := by
  obtain ⟨ld, a, b, s₁, v, w, hfac, hp₁, hrep₁, ha, hb0, hb4, hv, hw, hvw⟩ :=
    imulFactors_piece hargs hloc hb hrep he hk
  obtain ⟨s₂, hp₂, hrep₂, h2⟩ := intoCode_spec hloc hb ha hb0 hb4 hrep₁ hv hw
    (!i.carryDead || !i.overflowDead)
  have hprod : v * w = k * c.get sz e ∧ Words.product (sz.bits + sz.bits) true v w =
      Words.product (sz.bits + sz.bits) true k (c.get sz e) := by
    rcases hvw with ⟨rfl, rfl⟩ | ⟨rfl, rfl⟩
    · exact ⟨rfl, rfl⟩
    · exact ⟨BitVec.mul_comm _ _, Words.product_comm _ _ _⟩
  rw [hprod.1] at hrep₂
  rw [hprod.2] at h2
  have hcode : liftImul l i i.nextPC =
      (asm (ld ++ intoCode sz.bytes (pin g) dst a b (!i.carryDead || !i.overflowDead) ++
          if (!i.carryDead || !i.overflowDead) then mulOverflowFlags else []),
        if (!i.carryDead || !i.overflowDead) then { l with cpol := .carryAdd } else l) := by
    have hdesc : arm64RegMap dst = some { x := pin g, size := sz.bytes, isHigh8 := false } :=
      arm64RegMap_loc hloc
    simp only [liftImul, Inst.arg, hargs, List.getElem?_cons_succ, List.getElem?_cons_zero, hdesc, hfac]
  rw [hcode]
  cases hflags : (!i.carryDead || !i.overflowDead) with
  | true =>
      rw [hflags] at hp₂ h2
      obtain ⟨s₃, hp₃, hrep₃, hc, hv⟩ := mulOverflowFlags_spec hrep₂ (h2 rfl)
      refine ⟨_, s₃, rfl, (hp₁.append hp₂).append hp₃, hrep₃.guestFlags _, ?_⟩
      have hheld := significance_held (i := i) (l := l) (s := s₃) c.flags fun _ => ⟨hc, hv⟩
      rw [hflags] at hheld
      exact hheld
  | false =>
      rw [hflags] at hp₂
      refine ⟨_, s₂, rfl, (hp₁.append hp₂).append (Piece.nil s₂), hrep₂.guestFlags _, ?_⟩
      have hheld := significance_held (i := i) (l := l) (s := s₂)
        (b := Words.significant true (Words.product (sz.bits + sz.bits) true k (c.get sz e)))
        c.flags fun h => by rw [hflags] at h; cases h
      rw [hflags] at hheld
      exact hheld

end Spec

/-! ### which are right -/

/-- The multiplications. -/
def productsLowering : Lowering where
  means := multiplyBy
  lift := liftMultiplication
  pre _ _ _ _ := True
  post l i c s := FlagsHeld (mulDefines.live i) l.cpol c.flags s.flags

section Exact

variable {c c' : Cpu} {s : State} {l : Arm64Lifter} {i : Instruction}

theorem accesses_of_multiply {addr : Mem → Option Addr} (h : multiplyBy c addr i = some c') :
    accessesNone i.inst.op = false := by
  rcases multiplyBy_some.1 h with ⟨_, hop | hop, -⟩ | ⟨_, _, _, hop, -⟩
  · rw [hop]
    rfl
  · rw [hop]
    rfl
  · rw [hop]
    rfl

/-- With its operand where the code finds it, a multiplication is right. -/
theorem liftMultiplication_reaches (hsup : unsupportedAddressing i.inst = none) (hrep : Rep c s)
    (hm : multiplyBy c (codeOperand i s) i = some c') : productsLowering.Reaches l i s c' := by
  rcases multiplyBy_some.1 hm with ⟨src, hop, hargs, hmul⟩ | ⟨dst, src, rest, hop, hargs, hmul⟩
  · obtain ⟨sz, v, hv, rfl⟩ := wideProductBy_some.1 hmul
    obtain ⟨unmapped, other, hlift⟩ : ∃ unmapped other, liftMultiplication l i =
        mulWide l i (i.inst.op == .imul) unmapped other i.nextPC := by
      unfold liftMultiplication
      rw [hsup]
      rcases hop with hop | hop
      · rw [hop]
        exact ⟨_, _, rfl⟩
      · rw [hop]
        refine ⟨"unmapped imul src", "unsupported imul operand", ?_⟩
        simp only [liftImul, Inst.arg, hargs, List.getElem?_cons_succ, List.getElem?_nil]
        rfl
    obtain ⟨is, s', his, hp, hrep', hfl⟩ := mulWide_spec l (i.inst.op == .imul) unmapped other hargs
      hrep hv
    refine ⟨s', ?_, hrep', ?_⟩
    · show Ends (liftMultiplication l i).1 s s'
      rw [hlift, his]
      exact hp.runs
    · show FlagsHeld (mulDefines.live i) (liftMultiplication l i).2.cpol _ _
      rw [hlift]
      exact hfl
  · obtain ⟨g, lo, sz, e, k, hloc, hb, he, hk, rfl⟩ := lowProductBy_some.1 hmul
    obtain rfl := lo_eq_zero hloc hb
    have hlift : liftMultiplication l i = liftImul l i i.nextPC := by
      unfold liftMultiplication
      rw [hsup, hop]
    obtain ⟨is, s', his, hp, hrep', hfl⟩ := liftImul_spec l hargs hloc hb hrep he hk
    refine ⟨s', ?_, hrep', ?_⟩
    · show Ends (liftMultiplication l i).1 s s'
      rw [hlift, his]
      exact hp.runs
    · show FlagsHeld (mulDefines.live i) (liftMultiplication l i).2.cpol _ _
      rw [hlift]
      exact hfl

theorem multiplyBy_mono {addr addr' : Mem → Option Addr}
    (h : ∀ m, .mem m ∈ i.inst.args → ∀ a, addr m = some a → addr' m = some a)
    (hm : multiplyBy c addr i = some c') : multiplyBy c addr' i = some c' := by
  refine multiplyBy_some.2 ?_
  rcases multiplyBy_some.1 hm with ⟨src, hop, hargs, hmul⟩ | ⟨dst, src, rest, hop, hargs, hmul⟩
  · rw [hargs] at h
    obtain ⟨sz, v, hv, rfl⟩ := wideProductBy_some.1 hmul
    exact .inl ⟨src, hop, hargs, wideProductBy_some.2
      ⟨sz, v, operandBy_mono (fun m hm => h m (by simp [hm])) hv, rfl⟩⟩
  · rw [hargs] at h
    obtain ⟨g, lo, sz, e, k, hloc, hb, he, hk, rfl⟩ := lowProductBy_some.1 hmul
    exact .inr ⟨dst, src, rest, hop, hargs, lowProductBy_some.2
      ⟨g, lo, sz, e, k, hloc, hb, placeBy_mono (fun m hm => h m (by simp [hm])) he, hk, rfl⟩⟩

/-- The multiplications are right with their operand where the code finds it. -/
theorem products_sound : productsLowering.Sound where
  access := accesses_of_multiply
  mono := multiplyBy_mono
  sim hsup hrep _ hm := liftMultiplication_reaches hsup hrep hm

/-! ### an operand multiplied by 0 -/

theorem lowProduct_zero (c : Cpu) (sz : Size) (g : Gpr) (v w : BitVec sz.bits) :
    c.lowProduct sz g 0 v = c.lowProduct sz g 0 w := by
  have hp : ∀ v : BitVec sz.bits, Words.product (sz.bits + sz.bits) true 0 v = 0 := by
    intro v
    show (0 : BitVec sz.bits).signExtend _ * _ = 0
    have hext : (0 : BitVec sz.bits).signExtend (sz.bits + sz.bits) = 0 := by
      rw [BitVec.ofNat_eq_ofNat, BitVec.signExtend, BitVec.toInt_zero]
      rfl
    rw [hext, BitVec.ofNat_eq_ofNat, BitVec.zero_mul]
  unfold Cpu.lowProduct
  rw [hp, hp, BitVec.ofNat_eq_ofNat, BitVec.zero_mul, BitVec.zero_mul]

/-- A place the code finds for each operand that x86 has. -/
theorem placeBy_code {sz : Size} {src : Arg} {e : Place}
    (hform : ∀ m, src = .mem m → Addressable m) (s : State)
    (he : Cpu.placeBy (fun m => m.ea c i) i sz src = some e) :
    ∃ e', Cpu.placeBy (codeOperand i s) i sz src = some e' := by
  cases src with
  | imm w => cases he
  | rel w => cases he
  | reg r => exact ⟨e, he⟩
  | mem m =>
      obtain ⟨hbytes, -, -, -⟩ := placeBy_mem.1 he
      exact ⟨_, placeBy_mem.2 ⟨hbytes, _, if_pos (hform m rfl), rfl⟩⟩

/-- A multiplication by 0 is right wherever its operand lies. -/
theorem right_of_timesZero (hsup : unsupportedAddressing i.inst = none) (hzero : timesZero i = true) :
    productsLowering.Right l i := by
  intro c s c' hrep _ hm
  have hm' : multiplyBy c (fun m => m.ea c i) i = some c' := hm
  have hacc := accesses_of_multiply hm'
  refine liftMultiplication_reaches hsup hrep (multiplyBy_some.2 ?_)
  rcases multiplyBy_some.1 hm' with ⟨src, -, hargs, -⟩ | ⟨dst, src, rest, hop, hargs, hmul⟩
  · rw [timesZero, hargs] at hzero
    cases src <;> cases hzero
  · obtain ⟨g, lo, sz, e, k, hloc, hb, he, hk, rfl⟩ := lowProductBy_some.1 hmul
    have hform : ∀ m, src = .mem m → Addressable m := by
      rintro m rfl
      obtain ⟨-, a, ha, -⟩ := placeBy_mem.1 he
      have hmem : .mem m ∈ i.inst.args := by simp [hargs]
      exact addressable_of_ea (supported_mem hacc hsup hmem).1 ha
    obtain ⟨e', he'⟩ := placeBy_code hform s he
    have hk0 : k = 0 := by
      unfold timesZero at hzero
      rw [hargs] at hzero
      unfold Cpu.factor at hk
      split at hk
      · cases hzero
      · rename_i n
        obtain rfl := Option.some.inj hk
        simpa [hloc] using hzero
      · cases hk
    rw [hk0] at hk ⊢
    exact .inr ⟨dst, src, rest, hop, hargs, lowProductBy_some.2
      ⟨g, lo, sz, e', 0, hloc, hb, he', hk, lowProduct_zero c sz g _ _⟩⟩

/-! ### an operand elsewhere -/

theorem lowProduct_differ {dst : Reg} {g : Gpr} {lo : ℕ} {sz : Size} (hloc : dst.loc = some (g, lo, sz))
    (hb : sz ≠ .b) {k : BitVec sz.bits} (hk : k ≠ 0) (c : Cpu) :
    (c.lowProduct sz g k 0).gpr ≠ (c.lowProduct sz g k 1).gpr := by
  obtain rfl := lo_eq_zero hloc hb
  intro heq
  have hget := congrArg (fun gpr : Gpr → BitVec 64 => (gpr g).extractLsb' 0 sz.bits) heq
  have h0 := get_put_self hloc c (k * 0)
  have h1 := get_put_self hloc c (k * 1)
  have hk1 : k * 1 = k := BitVec.mul_one k
  have hk0 : k * 0 = 0 := BitVec.mul_zero
  exact hk (hk1.symm.trans (h1.symm.trans (hget.symm.trans (h0.trans hk0))))

/-- A factor the code looks for at another address than x86 does. -/
theorem not_right_fsRip_multiply (hsup : unsupportedAddressing i.inst = none)
    (hmeant : ∃ c c', multiplies i c = some c') (hzero : timesZero i = false) {a : Arg}
    (ha : a ∈ i.inst.args) (hfs : isFsRip a = true) : ¬productsLowering.Right l i := by
  obtain ⟨c, c', hm⟩ := hmeant
  have hm' : multiplyBy c (fun m => m.ea c i) i = some c' := hm
  have hacc := accesses_of_multiply hm'
  obtain ⟨m, rfl⟩ := mem_of_fsRip hfs
  obtain ⟨f⟩ : Nonempty Nzcv := ⟨⟨false, false, false, false⟩⟩
  obtain ⟨fl⟩ : Nonempty X86.Flags := ⟨⟨false, false, false, false, false, false⟩⟩
  rcases multiplyBy_some.1 hm' with ⟨src, hop, hargs, hmul⟩ | ⟨dst, src, rest, hop, hargs, hmul⟩
  · obtain rfl : Arg.mem m = src := by
      rw [hargs] at ha
      exact List.mem_singleton.1 ha
    obtain ⟨sz, v, hv, -⟩ := wideProductBy_some.1 hmul
    obtain ⟨sz', e, hsize, he, heq⟩ := operandBy_some.1 hv
    obtain ⟨rfl, -⟩ := Sigma.mk.inj heq
    obtain ⟨hbytes, b, hb, -⟩ := placeBy_mem.1 he
    have hform := addressable_of_ea (supported_mem hacc hsup ha).1 hb
    have hmeans : ∀ x w, (hostGuest 1 1 (i.nextPC + dispOf m) oneByte f fl).mem.load sz.bits x = w →
        multiplyBy (hostGuest 1 1 (i.nextPC + dispOf m) oneByte f fl) (onlyAt m x) i =
          some ((hostGuest 1 1 (i.nextPC + dispOf m) oneByte f fl).wideProduct
            (i.inst.op == .imul) sz w) := by
      intro x w hw
      refine multiplyBy_some.2 (.inl ⟨.mem m, hop, hargs, wideProductBy_some.2 ⟨sz, w, ?_, rfl⟩⟩)
      refine operandBy_some.2 ⟨sz, .mem x, hsize, placeBy_mem.2 ⟨hbytes, x, if_pos rfl, rfl⟩, ?_⟩
      rw [← hw]
      rfl
    obtain ⟨hone, hnone⟩ := oneByte_load sz
    refine products_sound.not_right hsup hacc ha hform hfs (f := f) trivial
      (hmeans _ 0 ((hostGuest_load_fs 1 1 _ _ f fl _).trans hnone))
      (hmeans _ 1 ((hostGuest_load 1 1 _ _ f fl _).trans hone)) (.inl fun hg => ?_)
    have hrax : (hostGuest 1 1 (i.nextPC + dispOf m) oneByte f fl).get sz (.reg .rax 0) = 1 := by
      show BitVec.extractLsb' 0 sz.bits ((hostGuest 1 1 (i.nextPC + dispOf m) oneByte f fl).gpr .rax) = 1
      rw [hostGuest_const]
      cases sz <;> decide
    have hbit := congrArg (fun gpr : Gpr → BitVec 64 => (gpr .rax).getLsbD 0) hg
    have hlow : ∀ w, (((hostGuest 1 1 (i.nextPC + dispOf m) oneByte f fl).wideProduct
        (i.inst.op == .imul) sz w).gpr .rax).getLsbD 0 = w.getLsbD 0 := by
      intro w
      refine (getLsbD_putWide _ sz _ _).trans ?_
      rw [Words.product_low (by omega), hrax]
      exact congrArg (BitVec.getLsbD · 0) (BitVec.one_mul w)
    rw [hlow, hlow] at hbit
    cases sz <;> exact absurd hbit (by decide)
  · obtain ⟨g, lo, sz, e, k, hloc, hb, he, hk, -⟩ := lowProductBy_some.1 hmul
    obtain rfl : src = .mem m := by
      rw [hargs] at ha
      unfold Cpu.factor at hk
      split at hk
      · simpa [eq_comm] using ha
      · simpa [eq_comm] using ha
      · cases hk
    obtain ⟨hbytes, b, hea, -⟩ := placeBy_mem.1 he
    have hform := addressable_of_ea (supported_mem hacc hsup ha).1 hea
    -- the other factor is not 0
    obtain ⟨k', hk', hk0⟩ : ∃ k', (hostGuest 1 1 (i.nextPC + dispOf m) oneByte f fl).factor sz g rest =
        some k' ∧ k' ≠ 0 := by
      unfold Cpu.factor at hk
      split at hk
      · refine ⟨_, rfl, ?_⟩
        show BitVec.extractLsb' 0 sz.bits
          ((hostGuest 1 1 (i.nextPC + dispOf m) oneByte f fl).gpr g) ≠ 0
        rw [hostGuest_const]
        cases sz <;> decide
      · rename_i n
        refine ⟨_, rfl, ?_⟩
        rw [timesZero, hargs] at hzero
        simpa [hloc] using hzero
      · cases hk
    have hmeans : ∀ x w, (hostGuest 1 1 (i.nextPC + dispOf m) oneByte f fl).mem.load sz.bits x = w →
        multiplyBy (hostGuest 1 1 (i.nextPC + dispOf m) oneByte f fl) (onlyAt m x) i =
          some ((hostGuest 1 1 (i.nextPC + dispOf m) oneByte f fl).lowProduct sz g k' w) := by
      intro x w hw
      refine multiplyBy_some.2 (.inr ⟨dst, .mem m, rest, hop, hargs, lowProductBy_some.2
        ⟨g, lo, sz, .mem x, k', hloc, hb, placeBy_mem.2 ⟨hbytes, x, if_pos rfl, rfl⟩, hk', ?_⟩⟩)
      rw [← hw]
      rfl
    obtain ⟨hone, hnone⟩ := oneByte_load sz
    exact products_sound.not_right hsup hacc ha hform hfs (f := f) trivial
      (hmeans _ 0 ((hostGuest_load_fs 1 1 _ _ f fl _).trans hnone))
      (hmeans _ 1 ((hostGuest_load 1 1 _ _ f fl _).trans hone))
      (.inl (lowProduct_differ hloc hb hk0 _))

/-- **Multiplication.**  The code of `MUL` or `IMUL` leaves in every state the x86 product, and the
carry and the overflow that are not dead tell whether its high half is significant — if and only if
the operand is no `FS` one relative to the next instruction, or is multiplied by 0. -/
theorem liftMultiplication_exact (hsup : unsupportedAddressing i.inst = none)
    (hmeant : ∃ c c', multiplies i c = some c') :
    (∀ c s c', Rep c s → multiplies i c = some c' →
      ∃ s', Ends (liftMultiplication l i).1 s s' ∧ Rep c' s' ∧
        FlagsHeld (mulDefines.live i) (liftMultiplication l i).2.cpol c'.flags s'.flags) ↔
    timesZero i = true ∨ ∀ a ∈ i.inst.args, isFsRip a = false := by
  constructor
  · intro h
    by_contra hcond
    rw [not_or, Bool.not_eq_true] at hcond
    obtain ⟨hzero, hfs⟩ := hcond
    refine hfs fun a ha => ?_
    by_contra hfs
    rw [Bool.not_eq_false] at hfs
    exact not_right_fsRip_multiply (l := l) hsup hmeant hzero ha hfs
      fun c s c' hrep _ hm => h c s c' hrep hm
  · rintro (hzero | hsafe) c s c' hrep hm
    · exact right_of_timesZero hsup hzero c s c' hrep trivial hm
    · exact products_sound.right hsup hsafe c s c' hrep trivial hm

end Exact

/-- `imul cx, dx, -3`. -/
def imulCx : Instruction where
  address := 0x400000
  inst :=
    { op := .imul, dataSize := 16, len := 4
      args := [.reg (.w .rcx), .reg (.w .rdx), .imm (-3)] }

/-- `mul dword ptr fs:[rip]`. -/
def mulFsRip : Instruction where
  address := 0x400000
  inst :=
    { op := .mul, dataSize := 32, memBytes := 4, len := 8
      args := [.mem ⟨some .fs, some .rip, 0, none, 0⟩] }

/-- The product of a register and an immediate is right. -/
theorem liftMultiplication_exact_imul :
    (∀ c s c', Rep c s → multiplies imulCx c = some c' →
      ∃ s', Ends (liftMultiplication { knownFuncs := fun _ => false } imulCx).1 s s' ∧ Rep c' s' ∧
        FlagsHeld (mulDefines.live imulCx)
          (liftMultiplication { knownFuncs := fun _ => false } imulCx).2.cpol c'.flags s'.flags) ↔
    timesZero imulCx = true ∨ ∀ a ∈ imulCx.inst.args, isFsRip a = false :=
  liftMultiplication_exact (l := { knownFuncs := fun _ => false }) (i := imulCx) (by decide)
    ⟨guestOf (flat 0 0), _, rfl⟩

/-- The code multiplies by another word. -/
theorem mul_misses_fs_base :
    ¬∀ c s c', Rep c s → multiplies mulFsRip c = some c' →
      ∃ s', Ends (liftMultiplication { knownFuncs := fun _ => false } mulFsRip).1 s s' ∧ Rep c' s' ∧
        FlagsHeld (mulDefines.live mulFsRip)
          (liftMultiplication { knownFuncs := fun _ => false } mulFsRip).2.cpol c'.flags s'.flags := by
  intro h
  exact not_right_fsRip_multiply (l := { knownFuncs := fun _ => false }) (i := mulFsRip)
    (a := .mem ⟨some .fs, some .rip, 0, none, 0⟩) (by decide) ⟨guestOf (flat 0 0), _, rfl⟩ (by decide)
    (by decide) (by decide) fun c s c' hrep _ hm => h c s c' hrep hm

end PS4Recomp.Lifter
