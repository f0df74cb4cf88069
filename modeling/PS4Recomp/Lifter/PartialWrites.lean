import PS4Recomp.Lifter.OperandSpec

/-!
# Partial register writes

The moves against x86: which bits of which registers change.

* `Moved`, `Leaves` — the code runs to its end in a state that holds the guest's next one;
* `liftMov_spec`, `liftMovzx_leaves`, `liftMovsx_leaves`, `liftLea_spec`, `liftSetcc_spec`,
  `liftCmovcc_spec`, `liftXchg_spec` — what each lowering does, with memory operands where the code
  finds them.
-/

namespace PS4Recomp.Lifter

open X86 Arm64 Library

/-! ### MOV -/

/-- The code runs to its end in a state that holds the guest state `c'`. -/
def Moved (is : Asm) (c' : Cpu) (s : State) : Prop := ∃ s', Piece is s s' ∧ Rep c' s'

section Moves

variable {c c' : Cpu} {s : State} {i : Instruction}

/-- A register operand written from a register that holds its new value. -/
theorem moved_write {r : Reg} {g : Gpr} {lo : ℕ} {sz : Size} (hloc : r.loc = some (g, lo, sz))
    {src : XReg} (hrep : Rep c s) {v : BitVec sz.bits} (hv : (s.get src).setWidth sz.bits = v) :
    Moved ((writeRegFrom r src).getD []) (c.put sz (.reg g lo) v) s := by
  obtain ⟨is, his, hpiece⟩ := writeRegFrom_piece hloc src
  rw [his, ← hv]
  exact ⟨_, hpiece s, hrep.put g lo sz _⟩

theorem Moved.cons_piece {is js : Asm} {s' : State} (h : Piece is s s') (h' : Moved js c' s') :
    Moved (is ++ js) c' s := by
  obtain ⟨s'', hpiece, hrep⟩ := h'
  exact ⟨s'', h.append hpiece, hrep⟩

theorem get_reg (hrep : Rep c s) (g : Gpr) (lo : ℕ) (sz : Size) :
    (s.get (pin g)).extractLsb' lo sz.bits = c.get sz (.reg g lo) := by
  rw [hrep.gpr]
  rfl

theorem setWidth_roundtrip {sz : Size} (v : BitVec sz.bits) :
    (v.setWidth 64).setWidth sz.bits = v := by
  rw [BitVec.setWidth_setWidth_of_le _ sz.bits_le, BitVec.setWidth_eq]

theorem mov_reg_reg {dst src : Reg} (hargs : i.inst.args = [.reg dst, .reg src]) (hrep : Rep c s)
    {gd gs : Gpr} {lod los : ℕ} {sz : Size} (hd : dst.loc = some (gd, lod, sz))
    (hs : src.loc = some (gs, los, sz)) :
    Moved (liftMov i i.nextPC) (c.put sz (.reg gd lod) (c.get sz (.reg gs los))) s := by
  obtain ⟨load, hload, hpload⟩ := readRegTo_piece hs 16
  obtain ⟨store, hstore, hpstore⟩ := writeRegFrom_piece hd 16
  have hcode : liftMov i i.nextPC =
      if decide (lod = 8) = false ∧ decide (los = 8) = false ∧ sz.bytes = 4 ∧ sz.bytes = 4 then
        [.mov .w (pin gd) (pin gs)]
      else if decide (lod = 8) = false ∧ decide (los = 8) = false ∧ sz.bytes = 8 ∧ sz.bytes = 8 then
        [.mov .x (pin gd) (pin gs)]
      else load ++ store := by
    simp only [liftMov, movGeneral, Inst.arg, hargs, List.getElem?_cons_zero,
      List.getElem?_cons_succ, hload, hstore, arm64RegMap_loc hd, arm64RegMap_loc hs,
      Option.bind_eq_bind, Option.bind_some]
    split
    · rfl
    · split
      · rfl
      · rfl
  rw [hcode, ← get_reg hrep]
  split
  · rename_i h4
    obtain rfl : sz = .l := by
      have hsz := h4.2.2.1
      cases sz <;> first | rfl | cases hsz
    obtain rfl : los = 0 := by
      rcases loc_lo hs with h0 | ⟨-, hb⟩
      · exact h0
      · cases hb
    refine ⟨_, Piece.one rfl s, ?_⟩
    have hval : (Instr.mov .w (pin gd) (pin gs) : Instr Label).exec s = s.set (pin gd)
        (regWrite .l lod (s.get (pin gd)) ((s.get (pin gs)).extractLsb' 0 32)) := by
      rw [← BitVec.setWidth_eq_extractLsb' (by decide : 32 ≤ 64)]
      rfl
    rw [hval]
    exact hrep.put gd lod .l _
  · split
    · rename_i h8
      obtain rfl : sz = .q := by
        have hsz := h8.2.2.1
        cases sz <;> first | rfl | cases hsz
      obtain rfl : los = 0 := by
        rcases loc_lo hs with h0 | ⟨-, hb⟩
        · exact h0
        · cases hb
      refine ⟨_, Piece.one rfl s, ?_⟩
      have hval : (Instr.mov .x (pin gd) (pin gs) : Instr Label).exec s = s.set (pin gd)
          (regWrite .q lod (s.get (pin gd)) ((s.get (pin gs)).extractLsb' 0 64)) := by
        rw [exec_movX, BitVec.extractLsb'_eq_self]
        exact congrArg (s.set (pin gd)) (BitVec.setWidth_eq _).symm
      rw [hval]
      exact hrep.put gd lod .q _
    · refine ⟨_, (hpload s).append (hpstore _), ?_⟩
      have hrep' := hrep.set_scratch (r := 16) (by decide)
        (((s.get (pin gs)).extractLsb' los sz.bits).setWidth 64)
      have hput := hrep'.put gd lod sz ((s.get (pin gs)).extractLsb' los sz.bits)
      rw [State.get_set_self (by decide : (16 : XReg) ≠ 31), setWidth_roundtrip]
      exact hput

theorem plain_loadImm32 (reg : XReg) (val : BitVec 32) :
    ∀ i ∈ loadImm32 reg val, i.plain = true := by
  unfold loadImm32
  split
  · exact plain_one rfl
  · intro i h
    dsimp only at h
    rcases List.mem_cons.1 h with rfl | h
    · rfl
    · split at h
      · obtain rfl := List.mem_singleton.1 h
        rfl
      · cases h

theorem setWidth_mask_byte (v : BitVec 64) :
    ((((v &&& 0xff).setWidth 32).setWidth 64).setWidth 8) = v.setWidth 8 := by
  apply BitVec.eq_of_toNat_eq
  simp only [BitVec.toNat_setWidth, BitVec.toNat_and]
  show (v.toNat &&& (2 ^ 8 - 1)) % 2 ^ 32 % 2 ^ 64 % 2 ^ 8 = _
  rw [Nat.and_two_pow_sub_one_eq_mod]
  omega

theorem setWidth_mask_half (v : BitVec 64) :
    ((((v &&& 0xffff).setWidth 32).setWidth 64).setWidth 16) = v.setWidth 16 := by
  apply BitVec.eq_of_toNat_eq
  simp only [BitVec.toNat_setWidth, BitVec.toNat_and]
  show (v.toNat &&& (2 ^ 16 - 1)) % 2 ^ 32 % 2 ^ 64 % 2 ^ 16 = _
  rw [Nat.and_two_pow_sub_one_eq_mod]
  omega

theorem moved_imm_narrow {g : Gpr} {lo : ℕ} {sz : Size} (hsz : sz = .b ∨ sz = .w) (hrep : Rep c s)
    {v : BitVec 64} {imm : BitVec 64} (hv : ((imm.setWidth 32).setWidth 64).setWidth sz.bits =
      v.setWidth sz.bits) :
    Moved [.movImm .w 16 imm, .bfi (pin g) 16 lo sz.bits]
      (c.put sz (.reg g lo) (v.setWidth sz.bits)) s := by
  refine ⟨_, Piece.cons rfl (Piece.one rfl _), ?_⟩
  have hrep' := hrep.set_scratch (r := 16) (by decide) ((imm.setWidth 32).setWidth 64)
  have hput := hrep'.put g lo sz (v.setWidth sz.bits)
  rw [← hv] at hput ⊢
  have hval : ((s.set 16 ((imm.setWidth 32).setWidth 64)).get 16).setWidth sz.bits =
      ((imm.setWidth 32).setWidth 64).setWidth sz.bits := by
    rw [State.get_set_self (by decide : (16 : XReg) ≠ 31)]
  rcases hsz with rfl | rfl
  · exact hval ▸ hput
  · exact hval ▸ hput

theorem mov_reg_imm {dst : Reg} {v : BitVec 64} (hargs : i.inst.args = [.reg dst, .imm v])
    (hrep : Rep c s) {g : Gpr} {lo : ℕ} {sz : Size} (hd : dst.loc = some (g, lo, sz)) :
    Moved (liftMov i i.nextPC) (c.put sz (.reg g lo) (v.setWidth sz.bits)) s := by
  have hcode : liftMov i i.nextPC = (loadImmToReg dst v).getD [.brk] := by
    simp only [liftMov, movGeneral, movSegment, Inst.arg, hargs, List.getElem?_cons_zero,
      List.getElem?_cons_succ, loadImmToReg, arm64RegMap_loc hd]
    rfl
  rw [hcode, loadImmToReg, arm64RegMap_loc hd]
  cases dst <;> cases hd
  case b => exact moved_imm_narrow (.inl rfl) hrep (setWidth_mask_byte v)
  case h => exact moved_imm_narrow (.inl rfl) hrep (setWidth_mask_byte v)
  case w => exact moved_imm_narrow (.inr rfl) hrep (setWidth_mask_half v)
  case l =>
    refine ⟨_, Piece.of_plain (plain_loadImm32 _ _) s, ?_⟩
    rw [execs_loadImm32 (pin_ne_zr g)]
    exact hrep.put g 0 .l _
  case q =>
    refine ⟨_, Piece.of_plain (plain_loadImm64 _ _) s, ?_⟩
    rw [execs_loadImm64 (pin_ne_zr g)]
    have hput := hrep.put g 0 .q (v.setWidth 64)
    have hval : regWrite .q 0 (s.get (pin g)) (v.setWidth 64) = v := by
      show (v.setWidth 64).setWidth 64 = v
      rw [BitVec.setWidth_eq, BitVec.setWidth_eq]
    rw [hval] at hput
    exact hput

/-- A memory operand read and written to a register through `x16`, or straight into it. -/
theorem mov_reg_mem {dst : Reg} {m : Mem} {a : Addr} (hargs : i.inst.args = [.reg dst, .mem m])
    (ha : codeOperand i s m = some a) (hrep : Rep c s) {g : Gpr} {lo : ℕ} {sz : Size}
    (hd : dst.loc = some (g, lo, sz)) :
    Moved (liftMov i i.nextPC) (c.put sz (.reg g lo) (c.get sz (.mem a))) s := by
  have hcode : liftMov i i.nextPC =
      if sz.bytes ≥ 4 then readMemTo m i.nextPC sz.bytes (pin g)
      else readMemTo m i.nextPC sz.bytes 16 ++ (writeRegFrom dst 16).getD [] := by
    simp only [liftMov, movGeneral, Inst.arg, hargs, List.getElem?_cons_zero,
      List.getElem?_cons_succ, arm64RegMap_loc hd, Option.map_some]
    rfl
  rw [hcode]
  split
  · rename_i h4
    obtain ⟨s', hpiece, -, hrep'⟩ := readMemTo_piece ha hrep sz (pin g)
    refine ⟨_, hpiece, ?_⟩
    have hput := hrep'.put g lo sz (c.mem.load sz.bits a)
    have hval : regWrite sz lo (s'.get (pin g)) (c.mem.load sz.bits a) =
        (c.mem.load sz.bits a).setWidth 64 := by
      cases sz
      case b => exact absurd h4 (by decide)
      case w => exact absurd h4 (by decide)
      case l => rfl
      case q => rfl
    rw [hval] at hput
    exact hput
  · obtain ⟨s', hpiece, -, hrep'⟩ := readMemTo_piece ha hrep sz 16
    refine Moved.cons_piece hpiece (moved_write hd (hrep'.set_scratch (by decide) _) ?_)
    rw [State.get_set_self (by decide : (16 : XReg) ≠ 31), setWidth_roundtrip]
    rfl

theorem pin_ne_seven (g : Gpr) : pin g ≠ 7 := pin_ne_scratch g (by decide)

/-- The low bits of a register are its operand unless it is a high byte. -/
theorem setWidth_low (x : BitVec 64) (sz : Size) : x.setWidth sz.bits = x.extractLsb' 0 sz.bits :=
  BitVec.setWidth_eq_extractLsb' sz.bits_le

theorem mov_mem_reg {src : Reg} {m : Mem} {a : Addr} (hargs : i.inst.args = [.mem m, .reg src])
    (ha : codeOperand i s m = some a) (hrep : Rep c s) {g : Gpr} {lo : ℕ} {sz : Size}
    (hs : src.loc = some (g, lo, sz)) :
    Moved (liftMov i i.nextPC) (c.put sz (.mem a) (c.get sz (.reg g lo))) s := by
  have hcode : liftMov i i.nextPC =
      if decide (lo = 8) = false then writeMemFrom m i.nextPC sz.bytes (pin g)
      else (readRegTo src 17).getD [] ++ writeMemFrom m i.nextPC sz.bytes 17 := by
    simp only [liftMov, movGeneral, Inst.arg, hargs, List.getElem?_cons_zero,
      List.getElem?_cons_succ, arm64RegMap_loc hs, Option.map_some]
    rfl
  rw [hcode, ← get_reg hrep]
  split
  · rename_i hlo
    obtain rfl : lo = 0 := by
      rcases loc_lo hs with h0 | ⟨h8, -⟩
      · exact h0
      · exact absurd h8 (by simpa using hlo)
    obtain ⟨s', hpiece, hrep'⟩ := writeMemFrom_piece ha hrep sz (pin_ne_seven g)
    rw [setWidth_low] at hrep'
    exact ⟨s', hpiece, hrep'⟩
  · obtain ⟨load, hload, hpload⟩ := readRegTo_piece hs 17
    rw [hload]
    have h17 : (17 : XReg) ∈ scratch := by decide
    have ha' : codeOperand i (s.set 17 (((s.get (pin g)).extractLsb' lo sz.bits).setWidth 64)) m =
        some a := by rw [codeOperand_set_scratch h17, ha]
    obtain ⟨s', hpiece, hrep'⟩ := writeMemFrom_piece ha' (hrep.set_scratch h17 _) sz
      (by decide : (17 : XReg) ≠ 7)
    rw [State.get_set_self (zr_ne_scratch h17), setWidth_roundtrip] at hrep'
    exact Moved.cons_piece (hpload s) ⟨s', hpiece, hrep'⟩

theorem mov_mem_imm {v : BitVec 64} {m : Mem} {a : Addr} (hargs : i.inst.args = [.mem m, .imm v])
    (ha : codeOperand i s m = some a) (hrep : Rep c s) {sz : Size}
    (hsz : Size.ofBytes i.inst.memBytes = some sz) :
    Moved (liftMov i i.nextPC) (c.put sz (.mem a) (v.setWidth sz.bits)) s := by
  have h17 : (17 : XReg) ∈ scratch := by decide
  have hcode : liftMov i i.nextPC =
      (if sz.bytes = 8 then loadImm64 17 v else loadImm32 17 (v.setWidth 32)) ++
        writeMemFrom m i.nextPC sz.bytes 17 := by
    simp only [liftMov, movGeneral, Inst.arg, hargs, List.getElem?_cons_zero,
      List.getElem?_cons_succ, defMemSz_eq hsz]
    rfl
  -- what `x17` holds, cut to the operand
  have hstore : ∀ w : BitVec 64, w.setWidth sz.bits = v.setWidth sz.bits →
      Moved (writeMemFrom m i.nextPC sz.bytes 17) (c.put sz (.mem a) (v.setWidth sz.bits))
        (s.set 17 w) := by
    intro w hw
    have ha' : codeOperand i (s.set 17 w) m = some a := by rw [codeOperand_set_scratch h17, ha]
    obtain ⟨s', hpiece, hrep'⟩ := writeMemFrom_piece ha' (hrep.set_scratch h17 _) sz
      (by decide : (17 : XReg) ≠ 7)
    rw [State.get_set_self (zr_ne_scratch h17), hw] at hrep'
    exact ⟨s', hpiece, hrep'⟩
  rw [hcode]
  split
  · have hpiece := Piece.of_plain (plain_loadImm64 17 v) s
    rw [execs_loadImm64 (zr_ne_scratch h17)] at hpiece
    exact Moved.cons_piece hpiece (hstore v rfl)
  · rename_i h8
    have hpiece := Piece.of_plain (plain_loadImm32 17 (v.setWidth 32)) s
    rw [execs_loadImm32 (zr_ne_scratch h17)] at hpiece
    refine Moved.cons_piece hpiece (hstore _ ?_)
    have hle : sz.bits ≤ 32 := by
      cases sz
      case q => exact absurd rfl h8
      all_goals decide
    rw [BitVec.setWidth_setWidth_of_le _ (by omega), BitVec.setWidth_setWidth_of_le _ hle]

/-- **`MOV`.** -/
theorem liftMov_spec {dst src : Arg} (hargs : i.inst.args = [dst, src]) (hrep : Rep c s)
    (hm : movBy c (codeOperand i s) i dst src = some c') : Moved (liftMov i i.nextPC) c' s := by
  obtain ⟨sz, d, v, hd, hboth, hv, rfl⟩ := movBy_some.1 hm
  cases dst with
  | imm w => cases hd
  | rel w => cases hd
  | reg r =>
      obtain ⟨g, lo, hloc, rfl⟩ := placeBy_reg.1 hd
      cases src with
      | rel w => cases hv
      | imm w =>
          obtain rfl := Option.some.inj hv
          exact mov_reg_imm hargs hrep hloc
      | reg r' =>
          obtain ⟨e, he, rfl⟩ := sourceBy_place hv (fun w h => by cases h)
          obtain ⟨g', lo', hloc', rfl⟩ := placeBy_reg.1 he
          exact mov_reg_reg hargs hrep hloc hloc'
      | mem m =>
          obtain ⟨e, he, rfl⟩ := sourceBy_place hv (fun w h => by cases h)
          obtain ⟨-, a, ha, rfl⟩ := placeBy_mem.1 he
          exact mov_reg_mem hargs ha hrep hloc
  | mem m =>
      obtain ⟨hsz, a, ha, rfl⟩ := placeBy_mem.1 hd
      cases src with
      | rel w => cases hv
      | mem m' => exact absurd rfl hboth
      | imm w =>
          obtain rfl := Option.some.inj hv
          exact mov_mem_imm hargs ha hrep hsz
      | reg r' =>
          obtain ⟨e, he, rfl⟩ := sourceBy_place hv (fun w h => by cases h)
          obtain ⟨g', lo', hloc', rfl⟩ := placeBy_reg.1 he
          exact mov_mem_reg hargs ha hrep hloc'

/-! ### MOVZX, MOVSX and MOVSXD -/

/-- The code leaves `v` in a guest register and the rest of the guest as it was. -/
def Leaves (is : Asm) (c : Cpu) (g : Gpr) (v : BitVec 64) (s : State) : Prop :=
  ∃ s', Rep c s' ∧ Piece is s (s'.set (pin g) v)

/-- The guest state a written register leads to is determined by what is written. -/
theorem Leaves.moved {is : Asm} {g : Gpr} {v : BitVec 64} (h : Leaves is c g v s)
    {lo : ℕ} {sz : Size} {w : BitVec sz.bits} (hv : regWrite sz lo (c.gpr g) w = v) :
    Moved is (c.put sz (.reg g lo) w) s := by
  obtain ⟨s', hrep, hpiece⟩ := h
  refine ⟨_, hpiece, ?_⟩
  rw [← hv]
  exact hrep.write g _

/-- `MOVZX` leaves the source, extended by zeros to 64 bits. -/
theorem liftMovzx_leaves {dst : Reg} {src : Arg} (hargs : i.inst.args = [.reg dst, src])
    (hrep : Rep c s) {gd : Gpr} {lod : ℕ} {dsz : Size} (hd : dst.loc = some (gd, lod, dsz))
    {ssz : Size} (hssz : ssz ∈ [Size.b, .w]) {e : Place}
    (he : Cpu.placeBy (codeOperand i s) i ssz src = some e) :
    Leaves (liftMovzx i i.nextPC) c gd ((c.get ssz e).setWidth 64) s := by
  cases src with
  | imm w => cases he
  | rel w => cases he
  | reg r =>
      obtain ⟨gs, los, hs, rfl⟩ := placeBy_reg.1 he
      have hcode : liftMovzx i i.nextPC = [.ubfx .w (pin gd) (pin gs) los ssz.bits] := by
        simp only [liftMovzx, Inst.arg, hargs, List.getElem?_cons_zero, List.getElem?_cons_succ,
          arm64RegMap_loc hd, arm64RegMap_loc hs]
        cases r <;> cases hs
        case b => rfl
        case h => rfl
        case w => rfl
        case l => exact absurd hssz (by decide)
        case q => exact absurd hssz (by decide)
      have hlow : los + ssz.bits ≤ 32 := by
        rcases loc_lo hs with rfl | ⟨rfl, rfl⟩
        · simp only [List.mem_cons, List.not_mem_nil, or_false] at hssz
          rcases hssz with rfl | rfl <;> decide
        · decide
      rw [hcode, ← get_reg hrep]
      refine ⟨s, hrep, (Piece.one rfl s).trans_eq ?_⟩
      exact congrArg (s.set (pin gd)) (extract_setWidth _ hlow)
  | mem m =>
      obtain ⟨hsz, a, ha, rfl⟩ := placeBy_mem.1 he
      obtain ⟨s', hpiece, hin, hrep'⟩ := computeEffAddr_piece ha hrep (t := 16) (by decide)
      have hcode : liftMovzx i i.nextPC =
          computeEffAddr m i.nextPC 16 ++ [loadSized ssz.bytes (pin gd)] := by
        simp only [liftMovzx, Inst.arg, hargs, List.getElem?_cons_zero, List.getElem?_cons_succ,
          arm64RegMap_loc hd, defMemSz_eq hsz]
        simp only [List.mem_cons, List.not_mem_nil, or_false] at hssz
        rcases hssz with rfl | rfl <;> rfl
      rw [hcode]
      refine ⟨s', hrep', hpiece.append ((Piece.one (plain_loadSized ssz _) s').trans_eq ?_)⟩
      rw [exec_loadSized, hin.target, hrep'.load]
      rfl

/-- The host width `liftMovsx` extends to. -/
def movsxWidth (dsz ssz : Size) : Width := if ssz = .l then .x else width dsz.bytes

/-- The part of a register `liftMovsx` extends: the low one. -/
def lowPart : Place → Place
  | .reg g _ => .reg g 0
  | .mem a => .mem a

/-- `MOVSX` and `MOVSXD` leave the low part of the source, extended by its sign. -/
theorem liftMovsx_leaves {dst : Reg} {src : Arg} (hargs : i.inst.args = [.reg dst, src])
    (hrep : Rep c s) {gd : Gpr} {lod : ℕ} {dsz : Size} (hd : dst.loc = some (gd, lod, dsz))
    {ssz : Size} (hssz : i.inst.op = .movsx ∧ ssz ∈ [Size.b, .w] ∨ i.inst.op = .movsxd ∧ ssz = .l)
    {e : Place} (he : Cpu.placeBy (codeOperand i s) i ssz src = some e) :
    Leaves (liftMovsx i i.nextPC) c gd
      (((c.get ssz (lowPart e)).signExtend (movsxWidth dsz ssz).bits).setWidth 64) s := by
  have hmem : ssz ∈ [Size.b, .w, .l] := by
    rcases hssz with ⟨-, h⟩ | ⟨-, rfl⟩
    · simp only [List.mem_cons, List.not_mem_nil, or_false] at h ⊢
      exact h.imp id .inl
    · decide
  simp only [List.mem_cons, List.not_mem_nil, or_false] at hmem
  cases src with
  | imm w => cases he
  | rel w => cases he
  | reg r =>
      obtain ⟨gs, los, hs, rfl⟩ := placeBy_reg.1 he
      have hcode : liftMovsx i i.nextPC =
          [.sxt ssz.bits (movsxWidth dsz ssz) (pin gd) (pin gs)] := by
        simp only [liftMovsx, Inst.arg, hargs, List.getElem?_cons_zero, List.getElem?_cons_succ,
          arm64RegMap_loc hd, arm64RegMap_loc hs]
        rcases hmem with rfl | rfl | rfl <;> rfl
      rw [hcode]
      refine ⟨s, hrep, (Piece.one rfl s).trans_eq ?_⟩
      show s.set (pin gd) ((((s.get (pin gs)).setWidth ssz.bits).signExtend _).setWidth 64) = _
      rw [setWidth_low, get_reg hrep]
      rfl
  | mem m =>
      obtain ⟨hsz, a, ha, rfl⟩ := placeBy_mem.1 he
      obtain ⟨s', hpiece, hin, hrep'⟩ := computeEffAddr_piece ha hrep (t := 16) (by decide)
      refine ⟨s', hrep', ?_⟩
      have hload : s'.mem.load ssz.bits (s'.get 28 + s'.get 16) = c.get ssz (.mem a) := by
        rw [hin.target, hrep'.load]
        rfl
      have hcode : ∃ j : Instr Label, liftMovsx i i.nextPC = computeEffAddr m i.nextPC 16 ++ [j] ∧
          j.plain = true ∧ j.exec s' = s'.set (pin gd)
            (((s'.mem.load ssz.bits (s'.get 28 + s'.get 16)).signExtend
              (movsxWidth dsz ssz).bits).setWidth 64) := by
        simp only [liftMovsx, Inst.arg, hargs, List.getElem?_cons_zero, List.getElem?_cons_succ,
          arm64RegMap_loc hd, defMemSz_eq hsz]
        rcases hssz with ⟨hop, h⟩ | ⟨hop, rfl⟩
        · simp only [List.mem_cons, List.not_mem_nil, or_false] at h
          rw [hop]
          rcases h with rfl | rfl
          · exact ⟨.ldst .ldrsb (width dsz.bytes) (pin gd) 16, rfl, rfl, rfl⟩
          · exact ⟨.ldst .ldrsh (width dsz.bytes) (pin gd) 16, rfl, rfl, rfl⟩
        · rw [hop]
          exact ⟨.ldst .ldrsw .x (pin gd) 16, rfl, rfl, rfl⟩
      obtain ⟨j, hcode, hplain, hexec⟩ := hcode
      rw [hcode]
      refine hpiece.append ((Piece.one hplain s').trans_eq ?_)
      rw [hexec, hload]
      rfl

/-! ### LEA -/

/-- `LEA` leaves the address the code finds, in the bits of the destination. -/
theorem liftLea_spec {dst : Reg} {m : Mem} (hargs : i.inst.args = [.reg dst, .mem m])
    (hrep : Rep c s) (hm : leaBy c (codeOperand i s) i dst m = some c') :
    Moved (liftLea i i.nextPC) c' s := by
  obtain ⟨sz, d, a, hb, hd, ha, rfl⟩ := leaBy_some.1 hm
  obtain ⟨g, lo, hloc, rfl⟩ := placeBy_reg.1 hd
  obtain ⟨s', hpiece, hin, hrep'⟩ := computeEffAddr_piece ha hrep (t := 16) (by decide)
  have hcode : liftLea i i.nextPC =
      computeEffAddr m i.nextPC 16 ++ (writeRegFrom dst 16).getD [] := by
    simp only [liftLea, Inst.arg, hargs, List.getElem?_cons_zero, List.getElem?_cons_succ,
      writeRegFrom, arm64RegMap_loc hloc]
    cases dst <;> cases hloc
    case b => exact absurd rfl hb
    case h => exact absurd rfl hb
    case w => rfl
    case l => rfl
    case q => rfl
  rw [hcode]
  refine Moved.cons_piece hpiece (moved_write hloc hrep' ?_)
  rw [hin.target]

/-! ### SETcc and CMOVcc -/

theorem setWidth_bool (b : Bool) :
    (((if b then 1 else 0 : BitVec 32).setWidth 64).setWidth 8) = if b then 1 else 0 := by
  cases b <;> rfl

/-- **`SETcc`**, when the ARM condition holds exactly when the x86 one does. -/
theorem liftSetcc_spec {cc : X86.Cond} {cond : Arm64.Cond} {dst : Arg}
    (hargs : i.inst.args = [dst]) (hrep : Rep c s) (hcond : cond.holds s.flags = cc.holds c.flags)
    (hm : setccBy c (codeOperand i s) i cc dst = some c') :
    Moved (liftSetcc i i.nextPC cond) c' s := by
  have h16 : (16 : XReg) ∈ scratch := by decide
  obtain ⟨d, hd, rfl⟩ := setccBy_some.1 hm
  have hset := Piece.one (i := .cset .w 16 cond) rfl s
  have hrep' := hrep.set_scratch h16 ((if cond.holds s.flags then 1 else 0 : BitVec 32).setWidth 64)
  have hval : ((s.set 16 ((if cond.holds s.flags then 1 else 0 : BitVec 32).setWidth 64)).get 16).setWidth
      8 = if cc.holds c.flags then 1 else 0 := by
    rw [State.get_set_self (zr_ne_scratch h16), setWidth_bool, hcond]
  cases dst with
  | imm w => cases hd
  | rel w => cases hd
  | reg r =>
      obtain ⟨g, lo, hloc, rfl⟩ := placeBy_reg.1 hd
      obtain ⟨is, his, hpiece⟩ := writeRegFrom_piece hloc 16
      have hcode : liftSetcc i i.nextPC cond = [.cset .w 16 cond] ++ is := by
        simp only [liftSetcc, Inst.arg, hargs, List.getElem?_cons_zero, his]
        rfl
      rw [hcode]
      refine Moved.cons_piece hset ?_
      have hmoved := moved_write hloc hrep' hval
      rw [his] at hmoved
      exact hmoved
  | mem m =>
      obtain ⟨-, a, ha, rfl⟩ := placeBy_mem.1 hd
      have hcode : liftSetcc i i.nextPC cond =
          [.cset .w 16 cond] ++ writeMemFrom m i.nextPC Size.b.bytes 16 := by
        simp only [liftSetcc, Inst.arg, hargs, List.getElem?_cons_zero]
        rfl
      rw [hcode]
      refine Moved.cons_piece hset ?_
      have ha' := (codeOperand_set_scratch (i := i) (m := m) (s := s) h16
        ((if cond.holds s.flags then 1 else 0 : BitVec 32).setWidth 64)).trans ha
      obtain ⟨s', hpiece, hrep''⟩ := writeMemFrom_piece ha' hrep' .b (by decide : (16 : XReg) ≠ 7)
      rw [show (State.get (s.set 16 _) 16).setWidth Size.b.bits = _ from hval] at hrep''
      exact ⟨s', hpiece, hrep''⟩

/-- The select of `liftCmovcc` from the register `r`, and its merge for 16 bits. -/
def cmovSelect (sz : Size) (g : Gpr) (r : XReg) (cond : Arm64.Cond) : Asm :=
  match sz with
  | .w => [.csel .w 16 r (pin g) cond, .bfi (pin g) 16 0 16]
  | .l => [.csel .w (pin g) r (pin g) cond]
  | _ => [.csel .x (pin g) r (pin g) cond]

theorem moved_cmovSelect {sz : Size} (hb : sz ≠ .b) {g : Gpr} {r : XReg} {cond : Arm64.Cond}
    (hrep : Rep c s) {b : Bool} (hcond : cond.holds s.flags = b) {v : BitVec sz.bits}
    (hv : (s.get r).setWidth sz.bits = v) :
    Moved (cmovSelect sz g r cond)
      (c.put sz (.reg g 0) (if b then v else c.get sz (.reg g 0))) s := by
  have hold : (s.get (pin g)).setWidth sz.bits = c.get sz (.reg g 0) := by
    rw [setWidth_low, get_reg hrep]
  rw [← hcond, ← hv, ← hold]
  cases sz
  case b => exact absurd rfl hb
  case w =>
    have h16 : (16 : XReg) ∈ scratch := by decide
    refine ⟨_, Piece.cons rfl (Piece.one rfl _), ?_⟩
    have hrep' := hrep.set_scratch h16 ((if cond.holds s.flags then s.getW .w r
      else s.getW .w (pin g)).setWidth 64)
    have hput := hrep'.put g 0 .w (((if cond.holds s.flags then s.getW .w r
      else s.getW .w (pin g)).setWidth 64).setWidth 16)
    have hval : ((if cond.holds s.flags then s.getW .w r else s.getW .w (pin g)).setWidth 64).setWidth
        16 = if cond.holds s.flags then (s.get r).setWidth 16 else (s.get (pin g)).setWidth 16 := by
      split
      · exact (BitVec.setWidth_setWidth_of_le _ (by decide)).trans
          (BitVec.setWidth_setWidth_of_le _ (by decide))
      · exact (BitVec.setWidth_setWidth_of_le _ (by decide)).trans
          (BitVec.setWidth_setWidth_of_le _ (by decide))
    have hget : ((Instr.csel .w 16 r (pin g) cond : Instr Label).exec s).get 16 =
        (if cond.holds s.flags then s.getW .w r else s.getW .w (pin g)).setWidth 64 :=
      State.get_set_self (zr_ne_scratch h16)
    show Rep _ (((Instr.csel .w 16 r (pin g) cond : Instr Label).exec s).set (pin g)
      (insertBits 0 16 _ ((((Instr.csel .w 16 r (pin g) cond : Instr Label).exec s).get 16).setWidth
        16)))
    rw [hget]
    rw [hval] at hput ⊢
    exact hput
  case l =>
    refine ⟨_, Piece.one rfl s, ?_⟩
    exact hrep.put g 0 .l _
  case q =>
    refine ⟨_, Piece.one rfl s, ?_⟩
    exact hrep.put g 0 .q _

/-- **`CMOVcc`**, when the ARM condition holds exactly when the x86 one does. -/
theorem liftCmovcc_spec {cc : X86.Cond} {cond : Arm64.Cond} {dst : Reg} {src : Arg}
    (hargs : i.inst.args = [.reg dst, src]) (hrep : Rep c s)
    (hcond : cond.holds s.flags = cc.holds c.flags)
    (hm : cmovccBy c (codeOperand i s) i cc dst src = some c') :
    Moved (liftCmovcc i i.nextPC cond) c' s := by
  obtain ⟨sz, d, e, hb, hd, he, rfl⟩ := cmovccBy_some.1 hm
  obtain ⟨g, lo, hloc, rfl⟩ := placeBy_reg.1 hd
  obtain rfl : lo = 0 := by
    rcases loc_lo hloc with h0 | ⟨-, hbyte⟩
    · exact h0
    · exact absurd hbyte hb
  cases src with
  | imm w => cases he
  | rel w => cases he
  | reg r =>
      obtain ⟨g', lo', hloc', rfl⟩ := placeBy_reg.1 he
      obtain rfl : lo' = 0 := by
        rcases loc_lo hloc' with h0 | ⟨-, hbyte⟩
        · exact h0
        · exact absurd hbyte hb
      have hcode : liftCmovcc i i.nextPC cond = cmovSelect sz g (pin g') cond := by
        simp only [liftCmovcc, Inst.arg, hargs, List.getElem?_cons_zero, List.getElem?_cons_succ,
          arm64RegMap_loc hloc, arm64RegMap_loc hloc']
        cases sz
        case b => exact absurd rfl hb
        all_goals rfl
      rw [hcode]
      apply moved_cmovSelect hb hrep hcond
      rw [setWidth_low, get_reg hrep]
  | mem m =>
      obtain ⟨-, a, ha, rfl⟩ := placeBy_mem.1 he
      obtain ⟨s', hpiece, hin, hrep'⟩ := readMemTo_piece ha hrep sz 16
      have hcode : liftCmovcc i i.nextPC cond =
          readMemTo m i.nextPC sz.bytes 16 ++ cmovSelect sz g 16 cond := by
        simp only [liftCmovcc, Inst.arg, hargs, List.getElem?_cons_zero, List.getElem?_cons_succ,
          arm64RegMap_loc hloc]
        cases sz
        case b => exact absurd rfl hb
        all_goals rfl
      rw [hcode]
      refine Moved.cons_piece hpiece
        (moved_cmovSelect hb (hrep'.set_scratch (by decide) _) ?_ ?_)
      · rw [State.set_flags, hin.flags, hcond]
      · rw [State.get_set_self (by decide : (16 : XReg) ≠ 31), setWidth_roundtrip]
        rfl

/-! ### XCHG -/

/-- The move that writes a 32- or 64-bit guest register. -/
theorem exec_movWidth {sz : Size} (hsz : sz = .l ∨ sz = .q) (g : Gpr) (r : XReg) (s : State) :
    (Instr.mov (width sz.bytes) (pin g) r : Instr Label).exec s =
      s.set (pin g) (regWrite sz 0 (s.get (pin g)) ((s.get r).setWidth sz.bits)) := by
  rcases hsz with rfl | rfl <;> rfl

/-- Two guest registers of 32 or 64 bits exchanged through `x16`. -/
theorem moved_exchange {sz : Size} (hsz : sz = .l ∨ sz = .q) (hrep : Rep c s) (gd gs : Gpr) :
    Moved [.mov (width sz.bytes) 16 (pin gd), .mov (width sz.bytes) (pin gd) (pin gs),
        .mov (width sz.bytes) (pin gs) 16]
      ((c.put sz (.reg gd 0) (c.get sz (.reg gs 0))).put sz (.reg gs 0) (c.get sz (.reg gd 0)))
      s := by
  have h16 : (16 : XReg) ∈ scratch := by decide
  have hlow : ∀ g, (s.get (pin g)).setWidth sz.bits = c.get sz (.reg g 0) := by
    intro g
    rw [setWidth_low, get_reg hrep]
  -- `x16` holds the old destination
  have hsave : (Instr.mov (width sz.bytes) 16 (pin gd) : Instr Label).exec s =
      s.set 16 ((c.get sz (.reg gd 0)).setWidth 64) := by
    rw [← hlow]
    rcases hsz with rfl | rfl
    · rfl
    · rfl
  have hrep₁ := hrep.set_scratch h16 ((c.get sz (.reg gd 0)).setWidth 64)
  have hsrc : ((s.set 16 ((c.get sz (.reg gd 0)).setWidth 64)).get (pin gs)).setWidth sz.bits =
      c.get sz (.reg gs 0) := by
    rw [State.get_set_ne (pin_ne_scratch gs h16), hlow]
  have hrep₂ := hrep₁.put gd 0 sz (c.get sz (.reg gs 0))
  rw [← hsrc] at hrep₂
  refine ⟨_, Piece.cons rfl (Piece.cons rfl (Piece.one rfl _)), ?_⟩
  rw [hsave, exec_movWidth hsz, exec_movWidth hsz, State.get_set_ne (pin_ne_scratch gd h16).symm,
    State.get_set_self (zr_ne_scratch h16), setWidth_roundtrip]
  have hput := hrep₂.put gs 0 sz (c.get sz (.reg gd 0))
  rw [hsrc] at hput ⊢
  exact hput

/-- Two narrow registers exchanged through `x16` and `x17`. -/
theorem moved_exchange_narrow {dst src : Reg} {gd gs : Gpr} {lod los : ℕ} {sz : Size}
    (hd : dst.loc = some (gd, lod, sz)) (hs : src.loc = some (gs, los, sz)) (hrep : Rep c s) :
    Moved ((readRegTo dst 16).getD [] ++ (readRegTo src 17).getD [] ++
        (writeRegFrom dst 17).getD [] ++ (writeRegFrom src 16).getD [])
      ((c.put sz (.reg gd lod) (c.get sz (.reg gs los))).put sz (.reg gs los)
        (c.get sz (.reg gd lod))) s := by
  have h16 : (16 : XReg) ∈ scratch := by decide
  have h17 : (17 : XReg) ∈ scratch := by decide
  obtain ⟨is₁, his₁, hp₁⟩ := readRegTo_piece hd 16
  obtain ⟨is₂, his₂, hp₂⟩ := readRegTo_piece hs 17
  obtain ⟨is₃, his₃, hp₃⟩ := writeRegFrom_piece hd 17
  rw [his₁, his₂, his₃, Option.getD_some, Option.getD_some, Option.getD_some]
  have hgetd := get_reg hrep gd lod sz
  have hgets := get_reg hrep gs los sz
  have hstep₁ := hp₁ s
  rw [hgetd] at hstep₁
  have hstep₂ := hp₂ (s.set 16 ((c.get sz (.reg gd lod)).setWidth 64))
  rw [State.get_set_ne (pin_ne_scratch gs h16), hgets] at hstep₂
  have hrep₂ := (hrep.set_scratch h16 ((c.get sz (.reg gd lod)).setWidth 64)).set_scratch h17
    ((c.get sz (.reg gs los)).setWidth 64)
  have hstep₃ := hp₃ ((s.set 16 ((c.get sz (.reg gd lod)).setWidth 64)).set 17
    ((c.get sz (.reg gs los)).setWidth 64))
  have hrep₃ := hrep₂.put gd lod sz (c.get sz (.reg gs los))
  rw [State.get_set_self (zr_ne_scratch h17), setWidth_roundtrip] at hstep₃
  refine Moved.cons_piece ((hstep₁.append hstep₂).append hstep₃) (moved_write hs hrep₃ ?_)
  rw [State.get_set_ne (pin_ne_scratch gd h16).symm, State.get_set_ne (by decide : (16 : XReg) ≠ 17),
    State.get_set_self (zr_ne_scratch h16), setWidth_roundtrip]

/-- The states may differ in `x2` only. -/
def SameBut2 (s s' : State) : Prop := s' = s ∨ ∃ v, s' = s.set 2 v

theorem SameBut2.rep {s' : State} (h : SameBut2 s s') (hrep : Rep c s) : Rep c s' := by
  obtain rfl | ⟨v, rfl⟩ := h
  · exact hrep
  · exact hrep.set_scratch (by decide) v

theorem SameBut2.operand {s' : State} (h : SameBut2 s s') (m : Mem) :
    codeOperand i s' m = codeOperand i s m := by
  obtain rfl | ⟨v, rfl⟩ := h
  · rfl
  · exact codeOperand_set_scratch (by decide) v

theorem SameBut2.get {s' : State} (h : SameBut2 s s') {r : XReg} (hr : r ≠ 2) :
    s'.get r = s.get r := by
  obtain rfl | ⟨v, rfl⟩ := h
  · rfl
  · exact State.get_set_ne hr

/-- The source of a locked instruction: a wide register stays where it is, a narrow one goes to
`x2`. -/
theorem lockSource_piece {r : Reg} {g : Gpr} {lo : ℕ} {sz : Size} (hs : r.loc = some (g, lo, sz))
    (hrep : Rep c s) : ∃ is b s', lockSource (some (.reg r)) sz.bytes = some (is, b) ∧
      Piece is s s' ∧ SameBut2 s s' ∧ (b = 2 ∨ b = pin g) ∧
      (s'.get b).setWidth sz.bits = c.get sz (.reg g lo) := by
  have h2 : (2 : XReg) ∈ scratch := by decide
  obtain ⟨is, his, hpiece⟩ := readRegTo_piece hs 2
  have hnarrow : Piece is s (s.set 2 ((c.get sz (.reg g lo)).setWidth 64)) := by
    have hstep := hpiece s
    rw [get_reg hrep] at hstep
    exact hstep
  have hget : ((s.set 2 ((c.get sz (.reg g lo)).setWidth 64)).get 2).setWidth sz.bits =
      c.get sz (.reg g lo) := by
    rw [State.get_set_self (zr_ne_scratch h2), setWidth_roundtrip]
  have hcode : lockSource (some (.reg r)) sz.bytes =
      if sz.bytes = 8 then some ([], pin g)
      else if sz.bytes = 4 ∧ decide (lo = 8) = false ∧ sz.bytes = 4 then some ([], pin g)
      else some (is, 2) := by
    simp only [lockSource, arm64RegMap_loc hs, his, Option.getD_some]
  have hwide : lo = 0 → (s.get (pin g)).setWidth sz.bits = c.get sz (.reg g lo) := by
    rintro rfl
    rw [setWidth_low, get_reg hrep]
  rw [hcode]
  split
  · rename_i h8
    refine ⟨[], pin g, s, rfl, .nil s, .inl rfl, .inr rfl, hwide ?_⟩
    rcases loc_lo hs with h0 | ⟨-, rfl⟩
    · exact h0
    · cases h8
  · split
    · rename_i h4
      refine ⟨[], pin g, s, rfl, .nil s, .inl rfl, .inr rfl, hwide ?_⟩
      rcases loc_lo hs with h0 | ⟨-, rfl⟩
      · exact h0
      · cases h4.1
    · exact ⟨is, 2, _, rfl, hnarrow, .inr ⟨_, rfl⟩, .inl rfl, hget⟩

theorem lockAddr_piece {m : Mem} {a : Addr} (ha : codeOperand i s m = some a) (hrep : Rep c s) :
    ∃ s', Piece (lockAddr m i.nextPC) s (s'.set 16 (s.get 28 + a)) ∧ Rep c s' ∧
      s'.get 28 = s.get 28 ∧ ∀ r, r ≠ 16 → r ≠ 7 → s'.get r = s.get r := by
  obtain ⟨s', hpiece, hin, hrep'⟩ := computeEffAddr_piece ha hrep (t := 16) (by decide)
  have h28 : s'.get 28 = s.get 28 := hin.regs 28 (by decide) (by decide)
  refine ⟨s', hpiece.append ((Piece.one rfl s').trans_eq ?_), hrep', h28, hin.regs⟩
  rw [exec_addX, hin.target, h28]

theorem moved_atomicXchg {r : Reg} {g : Gpr} {lo : ℕ} {sz : Size} (hs : r.loc = some (g, lo, sz))
    {m : Mem} {a : Addr} (ha : codeOperand i s m = some a) (hrep : Rep c s)
    (hcross : ¬ Crosses (s.get 28 + a) sz.bytes) (hi : Bool) :
    Moved (liftAtomicXchg m r ⟨pin g, sz.bytes, hi⟩ i.nextPC)
      ((c.put sz (.mem a) (c.get sz (.reg g lo))).put sz (.reg g lo) (c.get sz (.mem a))) s := by
  have h16 : (16 : XReg) ∈ scratch := by decide
  have h17 : (17 : XReg) ∈ scratch := by decide
  obtain ⟨is, b, s₁, hlock, hp₁, hsame, hb, hval⟩ := lockSource_piece hs hrep
  have h28 : s₁.get 28 = s.get 28 := hsame.get (by decide)
  obtain ⟨s₂, hp₂, hrep₂, hbase, hregs⟩ := lockAddr_piece ((hsame.operand m).trans ha)
    (hsame.rep hrep)
  -- the source register is neither `x16` nor the scratch register of the address
  have hb16 : b ≠ 16 ∧ b ≠ 7 := by
    rcases hb with rfl | rfl
    · decide
    · exact ⟨pin_ne_scratch g h16, pin_ne_seven g⟩
  have hsrc : ((s₂.set 16 (s₁.get 28 + a)).get b).setWidth sz.bits = c.get sz (.reg g lo) := by
    rw [State.get_set_ne hb16.1, hregs b hb16.1 hb16.2, hval]
  have haddr : (s₂.set 16 (s₁.get 28 + a)).get 16 = s₂.get 28 + a := by
    rw [State.get_set_self (zr_ne_scratch h16), hbase]
  have hload : s₂.mem.load sz.bits (s₂.get 28 + a) = c.get sz (.mem a) := by
    rw [hrep₂.load]
    rfl
  have hbits : 8 * sz.bytes = sz.bits := by cases sz <;> rfl
  have hnofault : (Instr.swpal sz.bits b 17 16 : Instr Label).faults
      (s₂.set 16 (s₁.get 28 + a)) = false := by
    have hbytes : sz.bits / 8 = sz.bytes := by cases sz <;> rfl
    show decide (Crosses ((s₂.set 16 (s₁.get 28 + a)).get 16) (sz.bits / 8)) = false
    rw [haddr, hbytes, hbase, h28]
    exact decide_eq_false hcross
  have hswap : Piece [.swpal sz.bits b 17 16] (s₂.set 16 (s₁.get 28 + a))
      ((Instr.swpal sz.bits b 17 16 : Instr Label).exec (s₂.set 16 (s₁.get 28 + a))) :=
    ⟨⟨rfl, hnofault, trivial⟩, rfl⟩
  have hexec : (Instr.swpal sz.bits b 17 16 : Instr Label).exec (s₂.set 16 (s₁.get 28 + a)) =
      ({ (s₂.set 16 (s₁.get 28 + a)) with
        mem := (s₂.set 16 (s₁.get 28 + a)).mem.store
          ((s₂.set 16 (s₁.get 28 + a)).get 28 + a) (c.get sz (.reg g lo)) } : State).set 17
        ((c.get sz (.mem a)).setWidth 64) := by
    show ({ (s₂.set 16 (s₁.get 28 + a)).set 17 (((s₂.set 16 (s₁.get 28 + a)).mem.load sz.bits
      ((s₂.set 16 (s₁.get 28 + a)).get 16)).setWidth 64) with
        mem := (s₂.set 16 (s₁.get 28 + a)).mem.store ((s₂.set 16 (s₁.get 28 + a)).get 16)
          (((s₂.set 16 (s₁.get 28 + a)).get b).setWidth sz.bits) } : State) = _
    rw [haddr, hsrc, State.set_mem, hload, State.get_set_ne (base_ne_scratch h16)]
    rfl
  have hrep₃ := ((hrep₂.set_scratch h16 (s₁.get 28 + a)).store a (c.get sz (.reg g lo))).set_scratch
    h17 ((c.get sz (.mem a)).setWidth 64)
  rw [hexec] at hswap
  have hcode : liftAtomicXchg m r ⟨pin g, sz.bytes, hi⟩ i.nextPC =
      ((is ++ lockAddr m i.nextPC) ++ [.swpal sz.bits b 17 16]) ++ (writeRegFrom r 17).getD [] := by
    simp only [liftAtomicXchg, hlock, Option.getD_some, hbits]
  rw [hcode]
  refine Moved.cons_piece ((hp₁.append hp₂).append hswap) (moved_write hs hrep₃ ?_)
  rw [State.get_set_self (zr_ne_scratch h17), setWidth_roundtrip]

/-- A register and a memory operand written, in either order. -/
theorem put_comm (sz : Size) (g : Gpr) (lo : ℕ) (a : Addr) (v w : BitVec sz.bits) :
    (c.put sz (.reg g lo) v).put sz (.mem a) w = (c.put sz (.mem a) w).put sz (.reg g lo) v := rfl

/-- **`XCHG`**, when an exchange with memory stays inside a 16-byte granule. -/
theorem liftXchg_spec (l : Arm64Lifter) {x y : Arg} (hargs : i.inst.args = [x, y]) (hrep : Rep c s)
    (hcross : ∀ m a, .mem m ∈ i.inst.args → codeOperand i s m = some a →
      ¬ Crosses (s.get 28 + a) i.inst.memBytes)
    (hm : xchgBy c (codeOperand i s) i x y = some c') :
    ∃ is, (liftXchg l i i.nextPC).1 = asm is ∧ Moved is c' s := by
  obtain ⟨sz, p, q, hboth, hp, hq, rfl⟩ := xchgBy_some.1 hm
  cases x with
  | imm w => cases hp
  | rel w => cases hp
  | reg r =>
      obtain ⟨gd, lod, hd, rfl⟩ := placeBy_reg.1 hp
      cases y with
      | imm w => cases hq
      | rel w => cases hq
      | reg r' =>
          obtain ⟨gs, los, hs, rfl⟩ := placeBy_reg.1 hq
          simp only [liftXchg, Inst.arg, hargs, List.getElem?_cons_zero, List.getElem?_cons_succ,
            arm64RegMap_loc hd, arm64RegMap_loc hs]
          refine ⟨_, rfl, ?_⟩
          have hlow : sz = .l ∨ sz = .q → lod = 0 ∧ los = 0 := by
            intro hsz
            constructor
            · rcases loc_lo hd with h0 | ⟨-, rfl⟩
              · exact h0
              · rcases hsz with h | h <;> cases h
            · rcases loc_lo hs with h0 | ⟨-, rfl⟩
              · exact h0
              · rcases hsz with h | h <;> cases h
          cases sz
          case b => exact moved_exchange_narrow hd hs hrep
          case w => exact moved_exchange_narrow hd hs hrep
          case l =>
            obtain ⟨rfl, rfl⟩ := hlow (.inl rfl)
            exact moved_exchange (.inl rfl) hrep gd gs
          case q =>
            obtain ⟨rfl, rfl⟩ := hlow (.inr rfl)
            exact moved_exchange (.inr rfl) hrep gd gs
      | mem m =>
          obtain ⟨hsz, a, ha, rfl⟩ := placeBy_mem.1 hq
          simp only [liftXchg, Inst.arg, hargs, List.getElem?_cons_zero, List.getElem?_cons_succ,
            arm64RegMap_loc hd]
          have hc := hcross m a (by rw [hargs]; simp) ha
          rw [Size.bytes_of_ofBytes hsz] at hc
          exact ⟨_, rfl, put_comm sz gd lod a _ _ ▸ moved_atomicXchg hd ha hrep hc _⟩
  | mem m =>
      obtain ⟨hsz, a, ha, rfl⟩ := placeBy_mem.1 hp
      cases y with
      | imm w => cases hq
      | rel w => cases hq
      | mem m' => exact absurd rfl hboth
      | reg r' =>
          obtain ⟨gs, los, hs, rfl⟩ := placeBy_reg.1 hq
          simp only [liftXchg, Inst.arg, hargs, List.getElem?_cons_zero, List.getElem?_cons_succ,
            arm64RegMap_loc hs]
          have hc := hcross m a (by rw [hargs]; simp) ha
          rw [Size.bytes_of_ofBytes hsz] at hc
          exact ⟨_, rfl, moved_atomicXchg hs ha hrep hc _⟩

end Moves

end PS4Recomp.Lifter
