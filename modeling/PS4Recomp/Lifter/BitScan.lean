import PS4Recomp.Arm64.DataProc
import PS4Recomp.Library.BitCount
import PS4Recomp.Lifter.Exact
import PS4Recomp.X86.BitScan

/-!
# Bit scans and counts

ARM64 counts leading zeros and reverses words of 32 and 64 bits; the 16-bit forms set a bit that stops
the count, and `POPCNT` adds up the bits of all bytes at once.

* `bitSource`, `scanCount`, `popcountCode`, `liftPopcnt`, `liftBitScan` — the code;
* `scanCount_spec`, `popcountCode_spec` — the count it leaves in a scratch register;
* `scans_sound`, `liftScan_exact` — the code is right but for an `FS` operand relative to the next
  instruction.
-/

namespace PS4Recomp.Lifter

open X86 Arm64 Library

/-! ### the code -/

/-- `bitSource`. -/
def bitSource (arg : Option Arg) (size : ℕ) (nextPC : Addr) : Option Asm :=
  match arg with
  | some (.reg v) => readRegTo v 0
  | some (.mem m) => some (readMemTo m nextPC size 0)
  | _ => none

/-- A constant of the two widths. -/
def constOf (sf : Width) (w x : BitVec 64) : BitVec 64 :=
  match sf with
  | .w => w
  | .x => x

/-- The count of `liftPopcnt`, of `x0` in place. -/
def popcountCode (sf : Width) : Asm :=
  [.shift .lsr sf 1 0 1,
   .logic .and false sf 1 1 (.imm (constOf sf 0x55555555 0x5555555555555555)),
   .addSub .sub false sf 0 0 (.reg 1 0),
   .logic .and false sf 1 0 (.imm (constOf sf 0x33333333 0x3333333333333333)),
   .shift .lsr sf 0 0 2,
   .logic .and false sf 0 0 (.imm (constOf sf 0x33333333 0x3333333333333333)),
   .addSub .add false sf 0 0 (.reg 1 0),
   .addLsr sf 0 0 0 4,
   .logic .and false sf 0 0 (.imm (constOf sf 0x0f0f0f0f 0x0f0f0f0f0f0f0f0f)),
   .movImm sf 1 (constOf sf 0x01010101 0x0101010101010101),
   .mul sf 0 0 1,
   .shift .lsr sf 0 0 (match sf with | .w => 24 | .x => 56)]

/-- `liftPopcnt`. -/
def liftPopcnt (l : Arm64Lifter) (inst : Instruction) (nextPC : Addr) : Code × Arm64Lifter :=
  match inst.inst.arg 0 with
  | some (.reg dstReg) =>
      match arm64RegMap dstReg with
      | none => l.emitUnsupported inst "unsupported popcnt dst"
      | some descDst =>
          match bitSource (inst.inst.arg 1) descDst.size nextPC with
          | none => l.emitUnsupported inst "unsupported popcnt src"
          | some ld =>
              let sf : Width := if descDst.size < 8 then .w else .x
              (asm (ld ++ popcountCode sf ++ (if inst.skipFlags then [] else [.tst sf 0 (.reg 0 0)]) ++
                (writeRegFrom dstReg 0).getD []),
                if inst.skipFlags then l else { l with cpol := .carryClear })
  | _ => l.emitUnsupported inst "unsupported popcnt dst"

/-- The count of `liftBitScan`, of `x0` into `x1`. -/
def scanCount (op : Op) (sz : ℕ) : Asm :=
  let sf : Width := if sz = 8 then .x else .w
  match op with
  | .tzcnt | .bsf =>
      if sz = 2 then [.logic .orr false .w 1 0 (.imm 0x10000), .rbit .w 1 1, .clz .w 1 1]
      else [.rbit sf 1 0, .clz sf 1 1]
  | .lzcnt =>
      if sz = 2 then [.shift .lsl .w 1 0 16, .logic .orr false .w 1 1 (.imm 0x8000), .clz .w 1 1]
      else [.clz sf 1 0]
  | .bsr =>
      [.clz sf 1 0, .movImm sf 2 (if sz = 2 then 31 else BitVec.ofNat 64 (8 * sz - 1)),
       .addSub .sub false sf 1 2 (.reg 1 0)]
  | _ => []

/-- `liftBitScan`. -/
def liftBitScan (l : Arm64Lifter) (inst : Instruction) (nextPC : Addr) : Code × Arm64Lifter :=
  match inst.inst.arg 0 with
  | some (.reg dstReg) =>
      match arm64RegMap dstReg with
      | none => l.emitUnsupported inst "unsupported bit scan dst"
      | some d =>
          match bitSource (inst.inst.arg 1) d.size nextPC with
          | none => l.emitUnsupported inst "unsupported bit scan src"
          | some ld =>
              let sf : Width := if d.size = 8 then .x else .w
              let count := ld ++ scanCount inst.inst.op d.size
              if inst.inst.op = .tzcnt ∨ inst.inst.op = .lzcnt then
                -- the compare with 0 sets the carry unless the source is 0
                (asm (count ++
                  (if inst.skipFlags then []
                   else [.cmp sf 0 (.imm 0), .ccmp sf 1 31 ⟨false, false, false, false⟩ .ne]) ++
                  (writeRegFrom dstReg 1).getD []),
                  if inst.skipFlags then l else { l with cpol := .carrySub })
              else
                (asm (count ++ [.cmp sf 0 (.imm 0)] ++
                  (if d.size = 2 then
                    [.logic .and false .w 2 d.x (.imm 0xffff), .csel .w 1 2 1 .eq] ++
                      (writeRegFrom dstReg 1).getD []
                   else [.csel .x d.x d.x 1 .eq])),
                  { l with cpol := .carrySub })
  | _ => l.emitUnsupported inst "unsupported bit scan dst"

/-- The five instructions in `liftInstructionInternal`. -/
def liftScan (l : Arm64Lifter) (inst : Instruction) : Code × Arm64Lifter :=
  match unsupportedAddressing inst.inst with
  | some reason => l.emitUnsupported inst reason
  | none =>
      match inst.inst.op with
      | .popcnt => liftPopcnt l inst inst.nextPC
      | _ => liftBitScan l inst inst.nextPC

/-! ### the source -/

section Spec

variable {c : Cpu} {s : State} {i : Instruction}

theorem bitSource_piece {src : Arg} {sz : Size} {e : Place} (hrep : Rep c s)
    (he : Cpu.placeBy (codeOperand i s) i sz src = some e) :
    ∃ ld s', bitSource (some src) sz.bytes i.nextPC = some ld ∧ Piece ld s s' ∧ Rep c s' ∧
      s'.get 0 = (c.get sz e).setWidth 64 ∧ s'.flags = s.flags := by
  have h0 : (0 : XReg) ∈ scratch := by decide
  cases src with
  | imm w => cases he
  | rel w => cases he
  | reg r =>
      obtain ⟨g, lo, hloc, rfl⟩ := placeBy_reg.1 he
      obtain ⟨ld, hld, hpiece⟩ := readRegTo_piece hloc 0
      refine ⟨ld, _, hld, hpiece s, hrep.set_scratch h0 _, ?_, State.set_flags _ _ _⟩
      rw [State.get_set_self (by decide), get_reg hrep]
  | mem m =>
      obtain ⟨-, a, ha, rfl⟩ := placeBy_mem.1 he
      obtain ⟨s', hpiece, hin, hrep'⟩ := readMemTo_piece ha hrep sz 0
      refine ⟨_, _, rfl, hpiece, hrep'.set_scratch h0 _, ?_, ?_⟩
      · rw [State.get_set_self (by decide)]
        rfl
      · rw [State.set_flags, hin.flags]

theorem plain_popcountCode (sf : Width) : ∀ i ∈ popcountCode sf, i.plain = true := by
  intro i hi
  simp only [popcountCode, List.mem_cons, List.not_mem_nil, or_false] at hi
  rcases hi with rfl | rfl | rfl | rfl | rfl | rfl | rfl | rfl | rfl | rfl | rfl | rfl <;> rfl

theorem popcountCode_spec (sf : Width) (hrep : Rep c s) :
    Rep c (execs (popcountCode sf) s) ∧ (execs (popcountCode sf) s).getW sf 0 = (s.getW sf 0).cpop := by
  have hadd : ∀ k, (Instr.addLsr sf 0 0 0 k : Instr Label).exec =
      fun s => s.setW sf 0 (s.getW sf 0 + s.getW sf 0 >>> k) := fun k => rfl
  have hmul : (Instr.mul sf 0 0 1 : Instr Label).exec =
      fun s => s.setW sf 0 (s.getW sf 0 * s.getW sf 1) := rfl
  constructor
  · simp (disch := decide) only [popcountCode, execs_cons, execs_nil, exec_shiftW, exec_logicW,
      exec_subW, exec_addW, exec_movImmW, hadd, hmul, rep_setW]
    exact hrep
  · simp (disch := decide) only [popcountCode, execs_cons, execs_nil, exec_shiftW, exec_logicW,
      exec_subW, exec_addW, exec_movImmW, hadd, hmul, eval_reg, eval_imm, State.getW_setW_self,
      State.getW_setW_ne]
    apply BitVec.eq_of_toNat_eq
    cases sf
    · exact BitCount.swar_toNat (n := 3) (by decide) rfl (s.getW .w 0)
    · exact BitCount.swar_toNat (n := 7) (by decide) rfl (s.getW .x 0)

theorem exec_rbit (sf : Width) (rd rn : XReg) (s : State) :
    (Instr.rbit sf rd rn : Instr Label).exec s = s.setW sf rd (s.getW sf rn).reverse := rfl

theorem exec_clz (sf : Width) (rd rn : XReg) (s : State) :
    (Instr.clz sf rd rn : Instr Label).exec s = s.setW sf rd (s.getW sf rn).clz := rfl

theorem scanCount_tzcnt (sz : ℕ) : scanCount .tzcnt sz =
    if sz = 2 then [.logic .orr false .w 1 0 (.imm 0x10000), .rbit .w 1 1, .clz .w 1 1]
    else [.rbit (if sz = 8 then .x else .w) 1 0, .clz (if sz = 8 then .x else .w) 1 1] := rfl

theorem scanCount_bsf (sz : ℕ) : scanCount .bsf sz = scanCount .tzcnt sz := rfl

theorem scanCount_lzcnt (sz : ℕ) : scanCount .lzcnt sz =
    if sz = 2 then [.shift .lsl .w 1 0 16, .logic .orr false .w 1 1 (.imm 0x8000), .clz .w 1 1]
    else [.clz (if sz = 8 then .x else .w) 1 0] := rfl

theorem scanCount_bsr (sz : ℕ) : scanCount .bsr sz =
    [.clz (if sz = 8 then .x else .w) 1 0,
      .movImm (if sz = 8 then .x else .w) 2 (if sz = 2 then 31 else BitVec.ofNat 64 (8 * sz - 1)),
      .addSub .sub false (if sz = 8 then .x else .w) 1 2 (.reg 1 0)] := rfl

theorem scanCount_frame {op : Op} (hop : isScan op = true) (hpop : op ≠ .popcnt) {sz : Size}
    (hb : sz ≠ .b) (hrep : Rep c s) : (∀ i ∈ scanCount op sz.bytes, i.plain = true) ∧
      Rep c (execs (scanCount op sz.bytes) s) ∧ (execs (scanCount op sz.bytes) s).get 0 = s.get 0 := by
  have hcases : op = .tzcnt ∨ op = .bsf ∨ op = .lzcnt ∨ op = .bsr := by
    rcases isScan_cases hop with h | h | h | h | h
    · exact .inl h
    · exact .inr (.inr (.inl h))
    · exact absurd h hpop
    · exact .inr (.inl h)
    · exact .inr (.inr (.inr h))
  have hplain : ∀ is : Asm, is.all (·.plain) = true → ∀ i ∈ is, i.plain = true := fun is h =>
    List.all_eq_true.1 h
  rcases hcases with rfl | rfl | rfl | rfl <;> cases sz
  all_goals first
    | exact absurd rfl hb
    | refine ⟨hplain _ rfl, ?_, ?_⟩
      · simp (disch := decide) only [scanCount_tzcnt, scanCount_bsf, scanCount_lzcnt, scanCount_bsr,
          Size.bytes, execs_cons, execs_nil, reduceIte, Nat.reduceEqDiff, exec_logicW, exec_shiftW,
          exec_movImmW, exec_subW, exec_rbit, exec_clz, rep_setW]
        exact hrep
      · simp (disch := decide) only [scanCount_tzcnt, scanCount_bsf, scanCount_lzcnt, scanCount_bsr,
          Size.bytes, execs_cons, execs_nil, reduceIte, Nat.reduceEqDiff, exec_logicW, exec_shiftW,
          exec_movImmW, exec_subW, exec_rbit, exec_clz, State.get_setW_ne]

theorem trailing_spec {sz : Size} (hb : sz ≠ .b) {v : BitVec sz.bits} (h0 : s.get 0 = v.setWidth 64) :
    (execs (scanCount .tzcnt sz.bytes) s).get 1 = v.ctz.setWidth 64 := by
  have hw := getW_of_get h0 .w
  have hx := getW_of_get h0 .x
  cases sz
  case b => exact absurd rfl hb
  all_goals
    simp (disch := decide) only [scanCount_tzcnt, Size.bytes, execs_cons, execs_nil, reduceIte, Nat.reduceEqDiff,
      exec_logicW, exec_rbit, exec_clz, eval_imm, State.getW_setW_self, State.get_setW_self]
  case w =>
    rw [hw]
    exact extend_eq (BitCount.ctz_stop (by decide : 16 < 32) v)
  case l =>
    rw [hw]
    exact congrArg (fun x : BitVec 32 => x.ctz.setWidth 64) (BitVec.setWidth_eq v)
  case q =>
    rw [hx]
    exact congrArg (fun x : BitVec 64 => x.ctz.setWidth 64) (BitVec.setWidth_eq v)

theorem leading_spec {sz : Size} (hb : sz ≠ .b) {v : BitVec sz.bits} (h0 : s.get 0 = v.setWidth 64) :
    (execs (scanCount .lzcnt sz.bytes) s).get 1 = v.clz.setWidth 64 := by
  have hw := getW_of_get h0 .w
  have hx := getW_of_get h0 .x
  cases sz
  case b => exact absurd rfl hb
  all_goals
    simp (disch := decide) only [scanCount_lzcnt, Size.bytes, execs_cons, execs_nil, reduceIte, Nat.reduceEqDiff,
      exec_logicW, exec_shiftW, exec_clz, eval_imm, State.getW_setW_self, State.get_setW_self]
  case w =>
    rw [hw]
    exact extend_eq (BitCount.clz_stop (by decide : 16 + (15 + 1) = 32) v)
  case l =>
    rw [hw]
    exact congrArg (fun x : BitVec 32 => x.clz.setWidth 64) (BitVec.setWidth_eq v)
  case q =>
    rw [hx]
    exact congrArg (fun x : BitVec 64 => x.clz.setWidth 64) (BitVec.setWidth_eq v)

theorem last_spec {sz : Size} (hb : sz ≠ .b) {v : BitVec sz.bits} (hv : v ≠ 0)
    (h0 : s.get 0 = v.setWidth 64) : (execs (scanCount .bsr sz.bytes) s).get 1 =
      (BitVec.ofNat sz.bits (sz.bits - 1) - v.clz).setWidth 64 := by
  have hw := getW_of_get h0 .w
  have hx := getW_of_get h0 .x
  have hne : ∀ m, sz.bits ≤ m → v.setWidth m ≠ 0 := by
    intro m hm h
    have hback := congrArg (BitVec.setWidth sz.bits) h
    rw [BitVec.setWidth_setWidth_of_le _ hm, BitVec.setWidth_eq] at hback
    exact hv (hback.trans (BitVec.setWidth_zero _ _))
  have hlog : ∀ m, sz.bits ≤ m → (BitVec.ofNat m (m - 1) - (v.setWidth m).clz).toNat =
      (BitVec.ofNat sz.bits (sz.bits - 1) - v.clz).toNat := by
    intro m hm
    have hlt := v.isLt
    have hle : 2 ^ sz.bits ≤ 2 ^ m := Nat.pow_le_pow_right (by decide) hm
    rw [BitCount.top_sub_clz (hne m hm), BitCount.top_sub_clz hv, BitVec.toNat_setWidth,
      Nat.mod_eq_of_lt (by omega)]
  cases sz
  case b => exact absurd rfl hb
  all_goals
    simp (disch := decide) only [scanCount_bsr, Size.bytes, execs_cons, execs_nil, reduceIte,
      Nat.reduceEqDiff, exec_clz, exec_movImmW, exec_subW, eval_reg, State.getW_setW_self,
      State.getW_setW_ne, State.get_setW_self]
  case w =>
    rw [hw]
    exact extend_eq (hlog 32 (by decide))
  case l =>
    rw [hw]
    exact extend_eq (hlog 32 (by decide))
  case q =>
    rw [hx]
    exact extend_eq (hlog 64 (by decide))

theorem scanCount_spec {op : Op} (hop : isScan op = true) (hpop : op ≠ .popcnt) {sz : Size}
    (hb : sz ≠ .b) {v r : BitVec sz.bits} (h0 : s.get 0 = v.setWidth 64)
    (hr : scanResult op v = some r) : (execs (scanCount op sz.bytes) s).get 1 = r.setWidth 64 := by
  rcases isScan_cases hop with rfl | rfl | rfl | rfl | rfl
  · obtain rfl := Option.some.inj hr
    exact trailing_spec hb h0
  · obtain rfl := Option.some.inj hr
    exact leading_spec hb h0
  · exact absurd rfl hpop
  · simp only [scanResult] at hr
    by_cases hv : v = 0
    · rw [if_pos hv] at hr
      cases hr
    · rw [if_neg hv] at hr
      obtain rfl := Option.some.inj hr
      exact trailing_spec hb h0
  · simp only [scanResult] at hr
    by_cases hv : v = 0
    · rw [if_pos hv] at hr
      cases hr
    · rw [if_neg hv] at hr
      obtain rfl := Option.some.inj hr
      exact last_spec hb hv h0

/-! ### the instructions -/

/-- The flags an instruction defines. -/
def scanDefines : Op → FlagSet
  | .tzcnt | .lzcnt => ⟨true, true, false, false⟩
  | .popcnt => .all
  | _ => ⟨false, true, false, false⟩

theorem popcnt_flags {n m : ℕ} {v : BitVec n} {x : BitVec m} (hm : 2 * n < 2 ^ m)
    (hx : x.toNat = v.cpop.toNat) (f : X86.Flags) :
    FlagsHeld .all .carryClear (scanFlags .popcnt f v) (logicFlags (x &&& x)) := by
  have hzero : (x == 0) = (v == 0) := by
    rw [Bool.eq_iff_iff, beq_iff_eq, beq_iff_eq, ← BitCount.cpop_eq_zero_iff v, ← hx]
    exact ⟨fun h => h ▸ BitVec.toNat_zero, fun h => BitVec.eq_of_toNat_eq h⟩
  have hmsb : x.msb = false := by
    have hle := BitCount.ones_le v.toNat n
    rw [← BitCount.cpop_toNat, ← hx] at hle
    exact BitVec.msb_eq_false_iff_two_mul_lt.2 (by omega)
  rw [BitVec.and_self]
  exact ⟨fun _ => ⟨rfl, rfl⟩, fun _ => hzero, fun _ => hmsb, fun _ => rfl⟩

/-- **`POPCNT`.** -/
theorem liftPopcnt_spec (l : Arm64Lifter) {dst : Reg} {src : Arg}
    (hargs : i.inst.args = [.reg dst, src]) (hrep : Rep c s) {g : Gpr} {lo : ℕ} {sz : Size}
    (hloc : dst.loc = some (g, lo, sz)) (hb : sz ≠ .b) {e : Place}
    (he : Cpu.placeBy (codeOperand i s) i sz src = some e) :
    ∃ is s', (liftPopcnt l i i.nextPC).1 = asm is ∧ Piece is s s' ∧
      Rep (c.put sz (.reg g 0) (c.get sz e).cpop) s' ∧
      (i.skipFlags = false → FlagsHeld .all (liftPopcnt l i i.nextPC).2.cpol
        (scanFlags .popcnt c.flags (c.get sz e)) s'.flags) := by
  obtain rfl := lo_eq_zero hloc hb
  obtain ⟨ld, s₁, hld, hp₁, hrep₁, h0, -⟩ := bitSource_piece hrep he
  obtain ⟨sf, hsf⟩ : ∃ sf : Width, sf = if sz.bytes < 8 then .w else .x := ⟨_, rfl⟩
  obtain ⟨hrep₂, hcount⟩ := popcountCode_spec sf hrep₁
  have hp₂ := Piece.of_plain (plain_popcountCode sf) s₁
  generalize execs (popcountCode sf) s₁ = s₂ at hrep₂ hcount hp₂
  have hle : sz.bits ≤ sf.bits ∧ 2 * sz.bits < 2 ^ sf.bits := by
    rw [hsf]
    cases sz
    case b => exact absurd rfl hb
    all_goals decide
  -- the count of the source, in the width it is computed in
  have hnat : (s₂.getW sf 0).toNat = (c.get sz e).cpop.toNat := by
    rw [hcount, getW_of_get h0, BitCount.cpop_setWidth hle.1]
  have hval : (s₂.get 0).setWidth sz.bits = (c.get sz e).cpop := by
    have hcut := BitVec.setWidth_setWidth_of_le (s₂.get 0) hle.1
    apply BitVec.eq_of_toNat_eq
    rw [← hcut, BitVec.toNat_setWidth]
    exact (congrArg (· % 2 ^ sz.bits) hnat).trans (Nat.mod_eq_of_lt (BitVec.isLt _))
  have hcode : (liftPopcnt l i i.nextPC) =
      (asm (ld ++ popcountCode sf ++ (if i.skipFlags then [] else [.tst sf 0 (.reg 0 0)]) ++
        (writeRegFrom dst 0).getD []), if i.skipFlags then l else { l with cpol := .carryClear }) := by
    simp only [liftPopcnt, Inst.arg, hargs, List.getElem?_cons_zero, List.getElem?_cons_succ,
      arm64RegMap_loc hloc, hld, ← hsf]
  rw [hcode]
  cases hskip : i.skipFlags with
  | true =>
      obtain ⟨s₃, hp₃, hrep₃, -⟩ := written hloc hrep₂ hval
      refine ⟨_, s₃, rfl, ((hp₁.append hp₂).append (Piece.nil _)).append hp₃, hrep₃, ?_⟩
      intro h
      cases h
  | false =>
      have htst : Piece [.tst sf 0 (.reg 0 0)] s₂
          { s₂ with flags := logicFlags (s₂.getW sf 0 &&& s₂.getW sf 0) } := by
        refine (Piece.one rfl s₂).trans_eq ?_
        rw [exec_tst, eval_reg]
      obtain ⟨s₃, hp₃, hrep₃, hfl⟩ := written hloc
        (hrep₂.set_flags (logicFlags (s₂.getW sf 0 &&& s₂.getW sf 0))) hval
      refine ⟨_, s₃, rfl, ((hp₁.append hp₂).append htst).append hp₃, hrep₃, fun _ => ?_⟩
      rw [hfl]
      exact popcnt_flags hle.2 hnat c.flags

theorem count_flags {op : Op} (hop : op = .tzcnt ∨ op = .lzcnt) {sz : Size} {sf : Width}
    (hle : sz.bits ≤ sf.bits) {v r : BitVec sz.bits} (hr : scanResult op v = some r)
    (h0 : s.get 0 = v.setWidth 64) (h1 : s.get 1 = r.setWidth 64) (f : X86.Flags) :
    FlagsHeld (scanDefines op) .carrySub (scanFlags op f v)
      (execs ([.cmp sf 0 (.imm 0), .ccmp sf 1 31 ⟨false, false, false, false⟩ .ne] : Asm) s).flags := by
  have hv : (s.getW sf 0 == 0) = (v == 0) := by
    rw [getW_of_get h0, extend_eq_zero hle]
  have hr0 : (s.getW sf 1 == 0) = (r == 0) := by
    rw [getW_of_get h1, extend_eq_zero hle]
  have hfl : (execs ([.cmp sf 0 (.imm 0), .ccmp sf 1 31 ⟨false, false, false, false⟩ .ne] : Asm)
      s).flags = if v == 0 then ⟨false, false, false, false⟩ else subNzcv (s.getW sf 1) 0 false := by
    rw [execs_cons, execs_cons, execs_nil, exec_ccmp, exec_cmp]
    have hz := (subNzcv_zero (s.getW sf 0)).1
    rw [hv] at hz
    show (if !(subNzcv (s.getW sf 0) ((Op2.imm 0).eval s sf) false).z then
      subNzcv (s.getW sf 1) (State.getW s sf 31) false else _) = _
    have himm : (Op2.imm 0).eval s sf = 0 := BitVec.setWidth_zero _ _
    have hzr : State.getW s sf 31 = 0 := BitVec.setWidth_zero _ _
    rw [himm, hzr, hz]
    cases v == 0 <;> rfl
  -- only an empty source counts to the size
  have hempty : (v == 0) = true → (r == 0) = false := by
    intro h
    obtain rfl := eq_of_beq h
    have hnat : r.toNat = sz.bits := by
      rcases hop with rfl | rfl
      · obtain rfl := Option.some.inj hr
        exact BitCount.ctz_zero
      · obtain rfl := Option.some.inj hr
        exact BitCount.clz_zero
    have hpos := sz.bits_pos
    rw [beq_eq_false_iff_ne]
    rintro rfl
    have hzero : (0 : BitVec sz.bits).toNat = 0 := BitVec.toNat_zero
    omega
  have hres : scanFlags op f v = { f with cf := v == 0, zf := r == 0 } := by
    rcases hop with rfl | rfl
    · obtain rfl := Option.some.inj hr
      rfl
    · obtain rfl := Option.some.inj hr
      rfl
  have hdef : scanDefines op = ⟨true, true, false, false⟩ := by
    rcases hop with rfl | rfl <;> rfl
  rw [hfl, hres, hdef]
  obtain ⟨hz, hc⟩ := subNzcv_zero (s.getW sf 1)
  cases h : v == 0 with
  | true =>
      rw [if_pos rfl]
      exact ⟨fun _ => rfl, fun _ => (hempty h).symm, fun hs => absurd hs (by decide),
        fun ho => absurd ho (by decide)⟩
  | false =>
      exact ⟨fun _ => hc, fun _ => hz.trans hr0, fun hs => absurd hs (by decide),
        fun ho => absurd ho (by decide)⟩

/-- **`TZCNT` and `LZCNT`.** -/
theorem liftZeros_spec (l : Arm64Lifter) (hop : i.inst.op = .tzcnt ∨ i.inst.op = .lzcnt) {dst : Reg}
    {src : Arg} (hargs : i.inst.args = [.reg dst, src]) (hrep : Rep c s) {g : Gpr} {lo : ℕ} {sz : Size}
    (hloc : dst.loc = some (g, lo, sz)) (hb : sz ≠ .b) {e : Place}
    (he : Cpu.placeBy (codeOperand i s) i sz src = some e) :
    ∃ is s', (liftBitScan l i i.nextPC).1 = asm is ∧ Piece is s s' ∧
      Rep (c.putResult sz g (scanResult i.inst.op (c.get sz e))) s' ∧
      (i.skipFlags = false → FlagsHeld (scanDefines i.inst.op) (liftBitScan l i i.nextPC).2.cpol
        (scanFlags i.inst.op c.flags (c.get sz e)) s'.flags) := by
  obtain rfl := lo_eq_zero hloc hb
  have hscan : isScan i.inst.op = true := by
    rcases hop with h | h <;> rw [h] <;> rfl
  have hpop : i.inst.op ≠ .popcnt := by
    rcases hop with h | h <;> rw [h] <;> decide
  obtain ⟨r, hr⟩ : ∃ r, scanResult i.inst.op (c.get sz e) = some r := by
    rcases hop with h | h <;> rw [h] <;> exact ⟨_, rfl⟩
  obtain ⟨ld, s₁, hld, hp₁, hrep₁, h0, -⟩ := bitSource_piece hrep he
  obtain ⟨hplain, hrep₂, h0'⟩ := scanCount_frame hscan hpop hb hrep₁
  have h1 := scanCount_spec hscan hpop hb h0 hr
  have hp₂ := Piece.of_plain hplain s₁
  rw [h0] at h0'
  generalize execs (scanCount i.inst.op sz.bytes) s₁ = s₂ at hrep₂ h0' h1 hp₂
  have hval : (s₂.get 1).setWidth sz.bits = r := by rw [h1, setWidth_roundtrip]
  obtain ⟨sf, hsf⟩ : ∃ sf : Width, sf = if sz.bytes = 8 then .x else .w := ⟨_, rfl⟩
  have hle : sz.bits ≤ sf.bits := by
    rw [hsf]
    cases sz <;> decide
  have hcode : liftBitScan l i i.nextPC =
      (asm (ld ++ scanCount i.inst.op sz.bytes ++
        (if i.skipFlags then []
          else [.cmp sf 0 (.imm 0), .ccmp sf 1 31 ⟨false, false, false, false⟩ .ne]) ++
        (writeRegFrom dst 1).getD []), if i.skipFlags then l else { l with cpol := .carrySub }) := by
    simp only [liftBitScan, Inst.arg, hargs, List.getElem?_cons_zero, List.getElem?_cons_succ,
      arm64RegMap_loc hloc, hld, ← hsf, if_pos hop]
  rw [hcode, hr]
  cases hskip : i.skipFlags with
  | true =>
      obtain ⟨s₃, hp₃, hrep₃, -⟩ := written hloc hrep₂ hval
      refine ⟨_, s₃, rfl, ((hp₁.append hp₂).append (Piece.nil _)).append hp₃, hrep₃, ?_⟩
      intro h
      cases h
  | false =>
      have hcmp : Piece [.cmp sf 0 (.imm 0), .ccmp sf 1 31 ⟨false, false, false, false⟩ .ne] s₂
          { s₂ with flags := (execs ([.cmp sf 0 (.imm 0),
            .ccmp sf 1 31 ⟨false, false, false, false⟩ .ne] : Asm) s₂).flags } :=
        Piece.cons rfl (Piece.one rfl _)
      have hheld := count_flags hop hle hr h0' h1 c.flags
      obtain ⟨s₃, hp₃, hrep₃, hfl⟩ := written hloc (hrep₂.set_flags
        (execs ([.cmp sf 0 (.imm 0), .ccmp sf 1 31 ⟨false, false, false, false⟩ .ne] : Asm) s₂).flags)
        hval
      refine ⟨_, s₃, rfl, ((hp₁.append hp₂).append hcmp).append hp₃, hrep₃, fun _ => ?_⟩
      rw [hfl]
      exact hheld

theorem put_word_self (c : Cpu) (g : Gpr) : c.put .w (.reg g 0) (c.get .w (.reg g 0)) = c := by
  have hsame : insertBits 0 16 (c.gpr g) ((c.gpr g).extractLsb' 0 16) = c.gpr g := by
    apply BitVec.eq_of_getLsbD_eq
    intro k hk
    rw [getLsbD_insertBits _ _ _ _ hk]
    split
    · rw [BitVec.getLsbD_extractLsb', decide_eq_true (by omega), Bool.true_and,
        show 0 + (k - 0) = k by omega]
    · rfl
  show { c with gpr := Function.update c.gpr g _ } = c
  rw [show regWrite .w 0 (c.gpr g) (c.get .w (.reg g 0)) = c.gpr g from hsame,
    Function.update_eq_self]

/-- The destination of `BSF` and `BSR`, after the compare with 0. -/
theorem scanKeep_spec {dst : Reg} {g : Gpr} {sz : Size} (hloc : dst.loc = some (g, 0, sz)) (hb : sz ≠ .b)
    (hrep : Rep c s) {v : BitVec sz.bits} (hz : s.flags.z = (v == 0)) {r : Option (BitVec sz.bits)}
    (hr : r = none ↔ v = 0) (h1 : ∀ x, r = some x → s.get 1 = x.setWidth 64) :
    ∃ is s', (if sz.bytes = 2 then
        [.logic .and false .w 2 (pin g) (.imm 0xffff), .csel .w 1 2 1 .eq] ++ (writeRegFrom dst 1).getD []
      else [.csel .x (pin g) (pin g) 1 .eq]) = is ∧ Piece is s s' ∧ Rep (c.putResult sz g r) s' ∧
      s'.flags = s.flags := by
  have hpin : s.get (pin g) = c.gpr g := hrep.gpr g
  by_cases hsz : sz = .w
  · subst hsz
    have h1s : (1 : XReg) ∈ scratch := by decide
    have h2s : (2 : XReg) ∈ scratch := by decide
    -- the old value or the result, in `w1`
    obtain ⟨x, hx⟩ : ∃ x, x = if s.flags.z then (c.get .w (.reg g 0)).setWidth 64
        else ((s.get 1).setWidth 32).setWidth 64 := ⟨_, rfl⟩
    have hsel : Piece [.logic .and false .w 2 (pin g) (.imm 0xffff), .csel .w 1 2 1 .eq] s
        ((s.set 2 ((c.get .w (.reg g 0)).setWidth 64)).set 1 x) := by
      refine (Piece.cons rfl (Piece.one rfl _)).trans_eq ?_
      have hand : (Instr.logic .and false .w 2 (pin g) (.imm 0xffff) : Instr Label).exec s =
          s.set 2 ((c.get .w (.reg g 0)).setWidth 64) := by
        rw [exec_logicW]
        refine congrArg (s.set 2) ((setWidth_low_half (s.get (pin g))).trans ?_)
        rw [hpin]
        rfl
      rw [hand]
      show State.set _ 1 (BitVec.setWidth 64 (if (State.set s 2 _).flags.z
        then ((State.set s 2 _).get 2).setWidth 32 else ((State.set s 2 _).get 1).setWidth 32)) = _
      rw [State.set_flags, State.get_set_self (by decide), State.get_set_ne (by decide), hx]
      cases s.flags.z with
      | true =>
          rw [if_pos rfl, if_pos rfl]
          exact congrArg (State.set _ 1) (extend_eq (toNat_extend (by decide) _))
      | false => rfl
    obtain ⟨s', hp', hrep', hfl'⟩ := written (x := 1) hloc ((hrep.set_scratch h2s
      ((c.get .w (.reg g 0)).setWidth 64)).set_scratch h1s x) (v := r.getD (c.get .w (.reg g 0))) (by
        rw [State.get_set_self (by decide), hx, hz]
        cases hres : r with
        | none =>
            rw [hr.1 hres, if_pos (beq_self_eq_true _), setWidth_roundtrip, Option.getD_none]
        | some y =>
            have hne : (v == 0) = false := by
              rw [beq_eq_false_iff_ne]
              intro h0
              rw [hr.2 h0] at hres
              cases hres
            have hy : (((y.setWidth 64).setWidth 32).setWidth 64) = y.setWidth 64 :=
              extend_eq (toNat_extend (by decide) y)
            rw [hne, if_neg Bool.false_ne_true, h1 y hres, hy, setWidth_roundtrip, Option.getD_some])
    refine ⟨_, s', rfl, hsel.append hp', ?_, hfl'⟩
    cases r with
    | none =>
        rw [Option.getD_none, put_word_self] at hrep'
        exact hrep'
    | some y => exact hrep'
  · have hbytes : sz.bytes ≠ 2 := by
      cases sz
      case b => exact absurd rfl hb
      case w => exact absurd rfl hsz
      all_goals decide
    rw [if_neg hbytes]
    have hexec : (Instr.csel .x (pin g) (pin g) 1 .eq : Instr Label).exec s =
        s.set (pin g) (if s.flags.z then s.get (pin g) else s.get 1) := by
      show s.set (pin g) (BitVec.setWidth 64 (if s.flags.z then (s.get (pin g)).setWidth 64
        else (s.get 1).setWidth 64)) = _
      rw [BitVec.setWidth_eq, BitVec.setWidth_eq, BitVec.setWidth_eq]
    refine ⟨_, _, rfl, (Piece.one rfl s).trans_eq hexec, ?_, State.set_flags _ _ _⟩
    rw [hz]
    cases hres : r with
    | none =>
        rw [hr.1 hres]
        have hwrite := hrep.write g (c.gpr g)
        rw [Cpu.setGpr, Function.update_eq_self] at hwrite
        rw [if_pos (beq_self_eq_true _), hpin]
        exact hwrite
    | some x =>
        have hne : (v == 0) = false := by
          rw [beq_eq_false_iff_ne]
          intro h0
          rw [hr.2 h0] at hres
          cases hres
        rw [hne, if_neg Bool.false_ne_true, h1 x hres]
        have hput := hrep.put g 0 sz x
        cases sz
        case b => exact absurd rfl hb
        case w => exact absurd rfl hsz
        case l => exact hput
        case q => exact hput

/-- **`BSF` and `BSR`.** -/
theorem liftFirst_spec (l : Arm64Lifter) (hop : i.inst.op = .bsf ∨ i.inst.op = .bsr) {dst : Reg}
    {src : Arg} (hargs : i.inst.args = [.reg dst, src]) (hrep : Rep c s) {g : Gpr} {lo : ℕ} {sz : Size}
    (hloc : dst.loc = some (g, lo, sz)) (hb : sz ≠ .b) {e : Place}
    (he : Cpu.placeBy (codeOperand i s) i sz src = some e) :
    ∃ is s', (liftBitScan l i i.nextPC).1 = asm is ∧ Piece is s s' ∧
      Rep (c.putResult sz g (scanResult i.inst.op (c.get sz e))) s' ∧
      FlagsHeld (scanDefines i.inst.op) (liftBitScan l i i.nextPC).2.cpol
        (scanFlags i.inst.op c.flags (c.get sz e)) s'.flags := by
  obtain rfl := lo_eq_zero hloc hb
  have hscan : isScan i.inst.op = true := by
    rcases hop with h | h <;> rw [h] <;> rfl
  have hpop : i.inst.op ≠ .popcnt := by
    rcases hop with h | h <;> rw [h] <;> decide
  have hzeros : ¬(i.inst.op = .tzcnt ∨ i.inst.op = .lzcnt) := by
    rcases hop with h | h <;> rw [h] <;> decide
  have hnone : scanResult i.inst.op (c.get sz e) = none ↔ c.get sz e = 0 := by
    rcases hop with h | h <;> rw [h] <;> simp [scanResult]
  have hdef : scanDefines i.inst.op = ⟨false, true, false, false⟩ := by
    rcases hop with h | h <;> rw [h] <;> rfl
  have hflags : (scanFlags i.inst.op c.flags (c.get sz e)).zf = (c.get sz e == 0) := by
    rcases hop with h | h <;> rw [h] <;> rfl
  obtain ⟨ld, s₁, hld, hp₁, hrep₁, h0, -⟩ := bitSource_piece hrep he
  obtain ⟨hplain, hrep₂, h0'⟩ := scanCount_frame hscan hpop hb hrep₁
  have h1 := fun r => scanCount_spec (r := r) hscan hpop hb h0
  have hp₂ := Piece.of_plain hplain s₁
  rw [h0] at h0'
  generalize execs (scanCount i.inst.op sz.bytes) s₁ = s₂ at hrep₂ h0' h1 hp₂
  obtain ⟨sf, hsf⟩ : ∃ sf : Width, sf = if sz.bytes = 8 then .x else .w := ⟨_, rfl⟩
  have hle : sz.bits ≤ sf.bits := by
    rw [hsf]
    cases sz <;> decide
  -- the compare with 0
  have hcmp : Piece [.cmp sf 0 (.imm 0)] s₂
      { s₂ with flags := subNzcv (s₂.getW sf 0) ((Op2.imm 0).eval s₂ sf) false } :=
    (Piece.one rfl s₂).trans_eq (exec_cmp _ _ _ _)
  have hz : (subNzcv (s₂.getW sf 0) ((Op2.imm 0).eval s₂ sf) false).z = (c.get sz e == 0) := by
    have himm : (Op2.imm 0).eval s₂ sf = 0 := BitVec.setWidth_zero _ _
    rw [himm, (subNzcv_zero _).1, getW_of_get h0', extend_eq_zero hle]
  obtain ⟨is, s₃, his, hp₃, hrep₃, hfl⟩ := scanKeep_spec hloc hb (hrep₂.set_flags
    (subNzcv (s₂.getW sf 0) ((Op2.imm 0).eval s₂ sf) false)) hz hnone h1
  have hcode : liftBitScan l i i.nextPC =
      (asm (ld ++ scanCount i.inst.op sz.bytes ++ [.cmp sf 0 (.imm 0)] ++ is),
        { l with cpol := .carrySub }) := by
    rw [← his]
    simp only [liftBitScan, Inst.arg, hargs, List.getElem?_cons_zero, List.getElem?_cons_succ,
      arm64RegMap_loc hloc, hld, ← hsf, if_neg hzeros]
  rw [hcode]
  refine ⟨_, s₃, rfl, ((hp₁.append hp₂).append hcmp).append hp₃, hrep₃, ?_⟩
  rw [hdef, hfl]
  exact ⟨fun h => absurd h (by decide), fun _ => hz.trans hflags.symm, fun h => absurd h (by decide),
    fun h => absurd h (by decide)⟩

end Spec

/-! ### which are right -/

/-- The scans and counts. -/
def scansLowering : Lowering where
  means := scanBy
  lift := liftScan
  pre _ _ _ _ := True
  post l i c s := FlagsHeld ((scanDefines i.inst.op).live i) l.cpol c.flags s.flags

section Exact

variable {c c' : Cpu} {s : State} {l : Arm64Lifter} {i : Instruction}

theorem accesses_of_scan {addr : Mem → Option Addr} (h : scanBy c addr i = some c') :
    accessesNone i.inst.op = false := by
  obtain ⟨-, -, -, -, -, -, -, hop, -⟩ := scanBy_some.1 h
  rcases isScan_cases hop with h | h | h | h | h <;> rw [h] <;> rfl

theorem held_live {m : FlagSet} {p : CarryPol} {f : X86.Flags} {g : Nzcv}
    (h : i.skipFlags = false → FlagsHeld m p f g) : FlagsHeld (m.live i) p f g := by
  cases hskip : i.skipFlags with
  | true => exact FlagsHeld.of_skip hskip p f g
  | false => exact (h hskip).live i

/-- With its operand where the code finds it, a scan is right. -/
theorem liftScan_reaches (hsup : unsupportedAddressing i.inst = none) (hrep : Rep c s)
    (hm : scanBy c (codeOperand i s) i = some c') : scansLowering.Reaches l i s c' := by
  obtain ⟨dst, src, g, lo, sz, e, hargs, hop, hloc, hb, he, rfl⟩ := scanBy_some.1 hm
  by_cases hpop : i.inst.op = .popcnt
  · obtain ⟨is, s', his, hp, hrep', hfl⟩ := liftPopcnt_spec l hargs hrep hloc hb he
    have hlift : scansLowering.lift l i = liftPopcnt l i i.nextPC := by
      show liftScan l i = _
      rw [liftScan, hsup, hpop]
    refine ⟨s', ?_, ?_, ?_⟩
    · rw [hlift, his]
      exact hp.runs
    · rw [hpop]
      exact hrep'.guestFlags _
    · show FlagsHeld ((scanDefines i.inst.op).live i) (scansLowering.lift l i).2.cpol _ _
      rw [hlift, hpop]
      exact held_live hfl
  · have hlift : scansLowering.lift l i = liftBitScan l i i.nextPC := by
      show liftScan l i = _
      rw [liftScan, hsup]
      rcases isScan_cases hop with h | h | h | h | h <;> first | exact absurd h hpop | rw [h]
    by_cases hzeros : i.inst.op = .tzcnt ∨ i.inst.op = .lzcnt
    · obtain ⟨is, s', his, hp, hrep', hfl⟩ := liftZeros_spec l hzeros hargs hrep hloc hb he
      refine ⟨s', ?_, hrep'.guestFlags _, ?_⟩
      · rw [hlift, his]
        exact hp.runs
      · show FlagsHeld ((scanDefines i.inst.op).live i) (scansLowering.lift l i).2.cpol _ _
        rw [hlift]
        exact held_live hfl
    · have hfirst : i.inst.op = .bsf ∨ i.inst.op = .bsr := by
        rcases isScan_cases hop with h | h | h | h | h
        · exact absurd (.inl h) hzeros
        · exact absurd (.inr h) hzeros
        · exact absurd h hpop
        · exact .inl h
        · exact .inr h
      obtain ⟨is, s', his, hp, hrep', hfl⟩ := liftFirst_spec l hfirst hargs hrep hloc hb he
      refine ⟨s', ?_, hrep'.guestFlags _, ?_⟩
      · rw [hlift, his]
        exact hp.runs
      · show FlagsHeld ((scanDefines i.inst.op).live i) (scansLowering.lift l i).2.cpol _ _
        rw [hlift]
        exact hfl.live i

theorem scanBy_mono {addr addr' : Mem → Option Addr}
    (h : ∀ m, .mem m ∈ i.inst.args → ∀ a, addr m = some a → addr' m = some a)
    (hm : scanBy c addr i = some c') : scanBy c addr' i = some c' := by
  obtain ⟨dst, src, g, lo, sz, e, hargs, hop, hloc, hb, he, rfl⟩ := scanBy_some.1 hm
  rw [hargs] at h
  exact scanBy_some.2 ⟨dst, src, g, lo, sz, e, hargs, hop, hloc, hb,
    placeBy_mono (fun m hm => h m (by simp [hm])) he, rfl⟩

/-- The scans and counts are right with their operand where the code finds it. -/
theorem scans_sound : scansLowering.Sound where
  access := accesses_of_scan
  mono := scanBy_mono
  sim hsup hrep _ hm := liftScan_reaches hsup hrep hm

theorem get_putResult {dst : Reg} {g : Gpr} {lo : ℕ} {sz : Size} (hloc : dst.loc = some (g, lo, sz))
    (hb : sz ≠ .b) (r : Option (BitVec sz.bits)) :
    (c.putResult sz g r).get sz (.reg g 0) = r.getD (c.get sz (.reg g 0)) := by
  obtain rfl := lo_eq_zero hloc hb
  cases r with
  | none => rfl
  | some x => exact get_put_self hloc c x

theorem scanResult_differ {op : Op} (hop : isScan op = true) {sz : Size} (hb : sz ≠ .b) :
    (scanResult op (1 : BitVec sz.bits)).getD 1 ≠ (scanResult op (0 : BitVec sz.bits)).getD 1 := by
  rcases isScan_cases hop with rfl | rfl | rfl | rfl | rfl
  all_goals
    cases sz
    case b => exact absurd rfl hb
    all_goals decide +kernel

theorem not_right_fsRip_scan (hsup : unsupportedAddressing i.inst = none)
    (hmeant : ∃ c c', scans i c = some c') {a : Arg} (ha : a ∈ i.inst.args)
    (hfs : isFsRip a = true) : ¬scansLowering.Right l i := by
  obtain ⟨c, c', hm⟩ := hmeant
  have hacc := accesses_of_scan hm
  obtain ⟨dst, src, g, lo, sz, e, hargs, hop, hloc, hb, he, -⟩ := scanBy_some.1 hm
  obtain ⟨m, rfl⟩ := mem_of_fsRip hfs
  obtain rfl : src = .mem m := by
    rw [hargs] at ha
    simpa [eq_comm] using ha
  obtain ⟨hbytes, b, hea, -⟩ := placeBy_mem.1 he
  have hform := addressable_of_ea (supported_mem hacc hsup ha).1 hea
  obtain ⟨f⟩ : Nonempty Nzcv := ⟨⟨false, false, false, false⟩⟩
  obtain ⟨fl⟩ : Nonempty X86.Flags := ⟨⟨false, false, false, false, false, false⟩⟩
  -- the instruction with its source at an address
  have hmeans : ∀ x w, (hostGuest 1 1 (i.nextPC + dispOf m) oneByte f fl).mem.load sz.bits x = w →
      scanBy (hostGuest 1 1 (i.nextPC + dispOf m) oneByte f fl) (onlyAt m x) i =
        some { (hostGuest 1 1 (i.nextPC + dispOf m) oneByte f fl).putResult sz g
          (scanResult i.inst.op w) with flags := scanFlags i.inst.op fl w } := by
    intro x w hw
    refine scanBy_some.2 ⟨dst, .mem m, g, lo, sz, .mem x, hargs, hop, hloc, hb,
      placeBy_mem.2 ⟨hbytes, x, if_pos rfl, rfl⟩, ?_⟩
    rw [← hw]
    rfl
  obtain ⟨hone, hzero⟩ := oneByte_load sz
  refine scans_sound.not_right hsup hacc ha hform hfs (f := f) trivial
    (hmeans _ 0 ((hostGuest_load_fs 1 1 _ _ f fl _).trans hzero))
    (hmeans _ 1 ((hostGuest_load 1 1 _ _ f fl _).trans hone)) (.inl fun hg => ?_)
  have hold : (hostGuest 1 1 (i.nextPC + dispOf m) oneByte f fl).get sz (.reg g 0) = 1 := by
    show BitVec.extractLsb' 0 sz.bits ((hostGuest 1 1 (i.nextPC + dispOf m) oneByte f fl).gpr g) = 1
    rw [hostGuest_const]
    cases sz <;> decide
  have hget := congrArg (fun gpr : Gpr → BitVec 64 => (gpr g).extractLsb' 0 sz.bits) hg
  have h0 := get_putResult (c := hostGuest 1 1 (i.nextPC + dispOf m) oneByte f fl) hloc hb
    (scanResult i.inst.op (0 : BitVec sz.bits))
  have h1 := get_putResult (c := hostGuest 1 1 (i.nextPC + dispOf m) oneByte f fl) hloc hb
    (scanResult i.inst.op (1 : BitVec sz.bits))
  rw [hold] at h0 h1
  exact scanResult_differ hop hb (h1.symm.trans (hget.symm.trans h0))

/-- **Bit scans and counts.**  The code of `BSF`, `BSR`, `TZCNT`, `LZCNT` or `POPCNT` leaves in every
state what x86 leaves, and the flags that x86 defines and that are not dead — if and only if the
source is no `FS` operand relative to the next instruction. -/
theorem liftScan_exact (hsup : unsupportedAddressing i.inst = none)
    (hmeant : ∃ c c', scans i c = some c') :
    (∀ c s c', Rep c s → scans i c = some c' → ∃ s', Ends (liftScan l i).1 s s' ∧ Rep c' s' ∧
      FlagsHeld ((scanDefines i.inst.op).live i) (liftScan l i).2.cpol c'.flags s'.flags) ↔
    ∀ a ∈ i.inst.args, isFsRip a = false := by
  constructor
  · intro h a ha
    by_contra hfs
    rw [Bool.not_eq_false] at hfs
    exact not_right_fsRip_scan (l := l) hsup hmeant ha hfs fun c s c' hrep _ hm => h c s c' hrep hm
  · intro hsafe c s c' hrep hm
    exact scans_sound.right hsup hsafe c s c' hrep trivial hm

end Exact

/-- `bsr cx, dx`. -/
def bsrCx : Instruction where
  address := 0x400000
  inst := { op := .bsr, dataSize := 16, len := 4, args := [.reg (.w .rcx), .reg (.w .rdx)] }

/-- `popcnt ecx, dword ptr fs:[rip]`. -/
def popcntFsRip : Instruction where
  address := 0x400000
  inst :=
    { op := .popcnt, dataSize := 32, memBytes := 4, len := 10
      args := [.reg (.l .rcx), .mem ⟨some .fs, some .rip, 0, none, 0⟩] }

/-- The scan of a register is right. -/
theorem liftScan_exact_bsr :
    (∀ c s c', Rep c s → scans bsrCx c = some c' →
      ∃ s', Ends (liftScan { knownFuncs := fun _ => false } bsrCx).1 s s' ∧ Rep c' s' ∧
        FlagsHeld ((scanDefines bsrCx.inst.op).live bsrCx)
          (liftScan { knownFuncs := fun _ => false } bsrCx).2.cpol c'.flags s'.flags) ↔
    ∀ a ∈ bsrCx.inst.args, isFsRip a = false :=
  liftScan_exact (l := { knownFuncs := fun _ => false }) (i := bsrCx) (by decide)
    ⟨guestOf (flat 0 0), _, rfl⟩

/-- The code counts the bits of another word. -/
theorem popcnt_misses_fs_base :
    ¬∀ c s c', Rep c s → scans popcntFsRip c = some c' →
      ∃ s', Ends (liftScan { knownFuncs := fun _ => false } popcntFsRip).1 s s' ∧ Rep c' s' ∧
        FlagsHeld ((scanDefines popcntFsRip.inst.op).live popcntFsRip)
          (liftScan { knownFuncs := fun _ => false } popcntFsRip).2.cpol c'.flags s'.flags := by
  intro h
  exact not_right_fsRip_scan (l := { knownFuncs := fun _ => false }) (i := popcntFsRip)
    (a := .mem ⟨some .fs, some .rip, 0, none, 0⟩) (by decide) ⟨guestOf (flat 0 0), _, rfl⟩ (by decide)
    (by decide) fun c s c' hrep _ hm => h c s c' hrep hm

end PS4Recomp.Lifter
