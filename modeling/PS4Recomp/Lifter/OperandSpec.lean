import PS4Recomp.Lifter.EffAddr
import PS4Recomp.Lifter.Moves
import PS4Recomp.X86.Moves

/-!
# What the operand code does

* `arm64RegMap_loc` — the entry of the register map for an x86 register;
* `Piece` — code that neither branches nor faults and takes a state to another one;
* `readRegTo_piece`, `writeRegFrom_piece`, `readMemTo_piece`, `writeMemFrom_piece` — operands read
  and written, against the places of the processor.
-/

namespace PS4Recomp.Lifter

open X86 Arm64 Library

/-! ### pieces of code -/

/-- Code that neither branches nor faults and takes `s` to `s'`. -/
structure Piece (is : Asm) (s s' : State) : Prop where
  clear : Clear is s
  ends : execs is s = s'

namespace Piece

variable {is js : Asm} {s s' s'' : State}

theorem append (h : Piece is s s') (h' : Piece js s' s'') : Piece (is ++ js) s s'' where
  clear := clear_append h.clear (by rw [h.ends]; exact h'.clear)
  ends := by rw [execs_append, h.ends, h'.ends]

theorem of_plain (h : ∀ i ∈ is, i.plain = true) (s : State) : Piece is s (execs is s) :=
  ⟨clear_of_plain h s, rfl⟩

theorem one {i : Instr Label} (h : i.plain = true) (s : State) : Piece [i] s (i.exec s) :=
  ⟨clear_of_plain (plain_one h) s, rfl⟩

theorem cons {i : Instr Label} (h : i.plain = true) (h' : Piece js (i.exec s) s'') :
    Piece (i :: js) s s'' := (one h s).append h'

theorem nil (s : State) : Piece [] s s := ⟨trivial, rfl⟩

theorem trans_eq (h : Piece is s s') (he : s' = s'') : Piece is s s'' := he ▸ h

theorem runs (h : Piece is s s') : Ends (asm is) s s' := h.ends ▸ ends_asm h.clear

end Piece

/-! ### registers -/

theorem arm64RegMap_loc {r : Reg} {g : Gpr} {lo : ℕ} {sz : Size} (h : r.loc = some (g, lo, sz)) :
    arm64RegMap r = some { x := pin g, size := sz.bytes, isHigh8 := decide (lo = 8) } := by
  cases r <;> first | cases h <;> rfl | cases h

theorem loc_lo {r : Reg} {g : Gpr} {lo : ℕ} {sz : Size} (h : r.loc = some (g, lo, sz)) :
    lo = 0 ∨ lo = 8 ∧ sz = .b := by
  cases r <;> first | cases h <;> simp | cases h

theorem setWidth_low_byte (x : BitVec 64) :
    ((x.setWidth 32 &&& (0xff : BitVec 64).setWidth 32).setWidth 64) =
      (x.extractLsb' 0 8).setWidth 64 := by
  apply BitVec.eq_of_toNat_eq
  simp only [BitVec.toNat_setWidth, BitVec.toNat_and, BitVec.extractLsb'_toNat, Nat.shiftRight_zero]
  show (x.toNat % 2 ^ 32 &&& (2 ^ 8 - 1)) % 2 ^ 64 = _
  rw [Nat.and_two_pow_sub_one_eq_mod]
  omega

theorem setWidth_low_half (x : BitVec 64) :
    ((x.setWidth 32 &&& (0xffff : BitVec 64).setWidth 32).setWidth 64) =
      (x.extractLsb' 0 16).setWidth 64 := by
  apply BitVec.eq_of_toNat_eq
  simp only [BitVec.toNat_setWidth, BitVec.toNat_and, BitVec.extractLsb'_toNat, Nat.shiftRight_zero]
  show (x.toNat % 2 ^ 32 &&& (2 ^ 16 - 1)) % 2 ^ 64 = _
  rw [Nat.and_two_pow_sub_one_eq_mod]
  omega

theorem extract_setWidth (x : BitVec 64) {lo n : ℕ} (h : lo + n ≤ 32) :
    (((x.setWidth 32).extractLsb' lo n).setWidth 32).setWidth 64 =
      (x.extractLsb' lo n).setWidth 64 := by
  rw [BitVec.extractLsb'_setWidth_of_le h]
  apply BitVec.eq_of_toNat_eq
  have hlt := (x.extractLsb' lo n).isLt
  have hle : 2 ^ n ≤ 2 ^ 32 := Nat.pow_le_pow_right (by decide) (by omega)
  rw [BitVec.toNat_setWidth, BitVec.toNat_setWidth, BitVec.toNat_setWidth]
  omega

/-- A register operand read: its bits, extended by zeros. -/
theorem readRegTo_piece {r : Reg} {g : Gpr} {lo : ℕ} {sz : Size} (h : r.loc = some (g, lo, sz))
    (t : XReg) : ∃ is, readRegTo r t = some is ∧
      ∀ s, Piece is s (s.set t (((s.get (pin g)).extractLsb' lo sz.bits).setWidth 64)) := by
  rw [readRegTo, arm64RegMap_loc h]
  refine ⟨_, rfl, fun s => ?_⟩
  cases r <;> cases h
  case b =>
    refine (Piece.one rfl s).trans_eq ?_
    show ({ s.set t _ with flags := s.flags } : State) = _
    rw [State.set_flags_self]
    exact congrArg (s.set t) (setWidth_low_byte _)
  case h =>
    refine (Piece.one rfl s).trans_eq ?_
    exact congrArg (s.set t) (extract_setWidth _ (by decide))
  case w =>
    refine (Piece.one rfl s).trans_eq ?_
    show ({ s.set t _ with flags := s.flags } : State) = _
    rw [State.set_flags_self]
    exact congrArg (s.set t) (setWidth_low_half _)
  case l =>
    refine (Piece.one rfl s).trans_eq ?_
    refine congrArg (s.set t) ?_
    show BitVec.setWidth 64 ((s.get (pin g)).setWidth 32) = _
    rw [BitVec.setWidth_eq_extractLsb' (by decide : 32 ≤ 64)]
    rfl
  case q =>
    refine (Piece.one rfl s).trans_eq ?_
    rw [exec_movX]
    refine congrArg (s.set t) ?_
    show s.get (pin g) = BitVec.setWidth 64 ((s.get (pin g)).extractLsb' 0 64)
    rw [BitVec.extractLsb'_eq_self, BitVec.setWidth_eq]

/-- A register operand written: the low bits of the source, the way x86 writes them. -/
theorem writeRegFrom_piece {r : Reg} {g : Gpr} {lo : ℕ} {sz : Size} (h : r.loc = some (g, lo, sz))
    (src : XReg) : ∃ is, writeRegFrom r src = some is ∧
      ∀ s, Piece is s
        (s.set (pin g) (regWrite sz lo (s.get (pin g)) ((s.get src).setWidth sz.bits))) := by
  rw [writeRegFrom, arm64RegMap_loc h]
  refine ⟨_, rfl, fun s => ?_⟩
  cases r <;> cases h
  case q =>
    refine (Piece.one rfl s).trans_eq ?_
    rw [exec_movX]
    refine congrArg (s.set (pin g)) ?_
    show s.get src = BitVec.setWidth 64 (BitVec.setWidth 64 (s.get src))
    rw [BitVec.setWidth_eq, BitVec.setWidth_eq]
  all_goals exact Piece.one rfl s

/-- A register operand written keeps the representation. -/
theorem Rep.put {c : Cpu} {s : State} (h : Rep c s) (g : Gpr) (lo : ℕ) (sz : Size)
    (v : BitVec sz.bits) :
    Rep (c.put sz (.reg g lo) v) (s.set (pin g) (regWrite sz lo (s.get (pin g)) v)) := by
  rw [h.gpr]
  exact h.write g _

/-! ### memory -/

theorem addrScratch_mem (t : XReg) : addrScratch t ∈ scratch := by
  unfold addrScratch
  split <;> decide

/-- An address computed in a scratch register keeps the representation. -/
theorem AddressIn.rep {t : XReg} {a : Addr} {c : Cpu} {s s' : State} (h : AddressIn t a s s')
    (ht : t ∈ scratch) (hrep : Rep c s) : Rep c s' where
  gpr g := by
    rw [h.regs _ (pin_ne_scratch g ht) (pin_ne_scratch g (addrScratch_mem t))]
    exact hrep.gpr g
  fs := by
    rw [h.regs _ (fs_ne_scratch ht) (fs_ne_scratch (addrScratch_mem t))]
    exact hrep.fs
  mem := by
    rw [h.regs _ (base_ne_scratch ht) (base_ne_scratch (addrScratch_mem t)), h.mem]
    exact hrep.mem

/-- Where the code of a memory operand finds it. -/
def codeOperand (i : Instruction) (s : State) (m : Mem) : Option Addr :=
  if Addressable m then some (codeAddr m i.nextPC s) else none

theorem codeOperand_some {i : Instruction} {s : State} {m : Mem} {a : Addr}
    (h : codeOperand i s m = some a) : Addressable m ∧ codeAddr m i.nextPC s = a := by
  unfold codeOperand at h
  split at h
  · rename_i hform
    exact ⟨hform, Option.some.inj h⟩
  · cases h

theorem codeOperand_set_scratch {i : Instruction} {s : State} {m : Mem} {r : XReg}
    (hr : r ∈ scratch) (v : BitVec 64) : codeOperand i (s.set r v) m = codeOperand i s m := by
  have hreg : ∀ x : Option Reg, regVal (s.set r v) x = regVal s x := by
    intro x
    unfold regVal
    split
    · exact State.get_set_ne (pin_ne_scratch _ hr)
    · rfl
  have hidx : indexVal (s.set r v) m = indexVal s m := by
    unfold indexVal
    rw [hreg]
  unfold codeOperand codeAddr
  rw [hreg, hidx, State.get_set_ne (fs_ne_scratch hr)]

/-- The address of a memory operand computed in a scratch register. -/
theorem computeEffAddr_piece {i : Instruction} {c : Cpu} {s : State} {m : Mem} {a : Addr}
    (ha : codeOperand i s m = some a) (hrep : Rep c s) {t : XReg} (ht : t ∈ scratch) :
    ∃ s', Piece (computeEffAddr m i.nextPC t) s s' ∧ AddressIn t a s s' ∧ Rep c s' := by
  obtain ⟨hform, rfl⟩ := codeOperand_some ha
  have hin := computeEffAddr_spec hform ht i.nextPC s
  exact ⟨_, Piece.of_plain (plain_computeEffAddr m i.nextPC t) s, hin, hin.rep ht hrep⟩

theorem exec_loadSized (sz : Size) (t : XReg) (s : State) :
    (loadSized sz.bytes t).exec s =
      s.set t ((s.mem.load sz.bits (s.get 28 + s.get 16)).setWidth 64) := by
  cases sz <;> rfl

theorem exec_storeAt (sz : Size) (src a : XReg) (s : State) :
    (storeAt sz.bytes src a).exec s =
      { s with mem := s.mem.store (s.get 28 + s.get a) ((s.get src).setWidth sz.bits) } := by
  cases sz <;> rfl

theorem plain_loadSized (sz : Size) (t : XReg) : (loadSized sz.bytes t).plain = true := by
  cases sz <;> rfl

theorem plain_storeAt (sz : Size) (src a : XReg) : (storeAt sz.bytes src a).plain = true := by
  cases sz <;> rfl

theorem readMemTo_piece {i : Instruction} {c : Cpu} {s : State} {m : Mem} {a : Addr}
    (ha : codeOperand i s m = some a) (hrep : Rep c s) (sz : Size) (t : XReg) :
    ∃ s', Piece (readMemTo m i.nextPC sz.bytes t) s
        (s'.set t ((c.mem.load sz.bits a).setWidth 64)) ∧ AddressIn 16 a s s' ∧ Rep c s' := by
  obtain ⟨s', hpiece, hin, hrep'⟩ := computeEffAddr_piece ha hrep (t := 16) (by decide)
  refine ⟨s', hpiece.append ((Piece.one (plain_loadSized sz t) s').trans_eq ?_), hin, hrep'⟩
  rw [exec_loadSized, hin.target, hrep'.load]

theorem writeMemFrom_piece {i : Instruction} {c : Cpu} {s : State} {m : Mem} {a : Addr}
    (ha : codeOperand i s m = some a) (hrep : Rep c s) (sz : Size) {src : XReg} (h7 : src ≠ 7) :
    ∃ s', Piece (writeMemFrom m i.nextPC sz.bytes src) s s' ∧
      Rep (c.put sz (.mem a) ((s.get src).setWidth sz.bits)) s' := by
  have hcase : ∀ t : XReg, t ∈ scratch → t ≠ 7 → src ≠ t → ∃ s',
      Piece (computeEffAddr m i.nextPC t ++ [storeAt sz.bytes src t]) s s' ∧
        Rep (c.put sz (.mem a) ((s.get src).setWidth sz.bits)) s' := by
    intro t ht ht7 hst
    obtain ⟨s', hpiece, hin, hrep'⟩ := computeEffAddr_piece ha hrep ht
    have hsrc : s'.get src = s.get src := by
      apply hin.regs src hst
      rw [addrScratch, if_neg ht7]
      exact h7
    refine ⟨_, hpiece.append (Piece.one (plain_storeAt sz src t) s'), ?_⟩
    rw [exec_storeAt, hin.target, hsrc]
    exact hrep'.store a _
  unfold writeMemFrom
  dsimp only
  split
  · rename_i h16
    subst h16
    exact hcase 17 (by decide) (by decide) (by decide)
  · rename_i h16
    exact hcase 16 (by decide) (by decide) h16

/-! ### operand sizes -/

theorem defMemSz_eq {i : Instruction} {sz : Size} (h : Size.ofBytes i.inst.memBytes = some sz) :
    defMemSz i = sz.bytes := by
  have hbytes := Size.bytes_of_ofBytes h
  have hpos : sz.bytes ≠ 0 := by cases sz <;> decide
  have hsz : (if sz.bytes = 0 ∧ i.inst.dataSize > 0 then i.inst.dataSize / 8 else sz.bytes) =
      sz.bytes := if_neg (fun h0 => hpos h0.1)
  unfold defMemSz
  dsimp only
  rw [hbytes, hsz, if_neg hpos]

end PS4Recomp.Lifter
