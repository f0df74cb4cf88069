import PS4Recomp.Lifter.PartialWrites

/-!
# Which moves write partial registers right

* `MovesRight` — in every state the code of a move ends in a state that holds the guest's next one;
* `WidthSafe`, `OperandsSafe` — the moves the code gets right: `MOVZX` and `MOVSX` to at least 32
  bits, `MOVSX` not from a high byte, `MOVSXD` to 64 bits, `LEA` without an `FS` base to leave out,
  no `FS` operand relative to the next instruction;
* `liftMove_sim` — under `WidthSafe` the code moves as x86 does, with memory operands where the code
  finds them;
* `not_right_extend_word` and its kin — a state that tells them apart, for each of the others;
* `liftMove_exact` — the code is right exactly for the safe moves.
-/

namespace PS4Recomp.Lifter

open X86 Arm64 Library

/-! ### the property -/

/-- The ARM condition, after what `condFor` runs before it, holds exactly when the x86 one does. -/
def CondHeld (l : Arm64Lifter) (i : Instruction) (c : Cpu) (s : State) : Prop :=
  ∀ cc, i.inst.op = .setcc cc ∨ i.inst.op = .cmovcc cc →
    (l.condFor cc).2.1.holds (execs (l.condFor cc).1 s).flags = cc.holds c.flags

/-- An exchange with memory stays inside a 16-byte granule, as the atomics require. -/
def InGranule (i : Instruction) (s : State) : Prop :=
  i.inst.op = .xchg → ∀ m a, .mem m ∈ i.inst.args → codeOperand i s m = some a →
    ¬ Crosses (s.get 28 + a) i.inst.memBytes

/-- In every state the code of the move ends in a state that holds the guest's next one. -/
def MovesRight (l : Arm64Lifter) (i : Instruction) : Prop :=
  ∀ c s c', Rep c s → CondHeld l i c s → InGranule i s → moves i c = some c' →
    ∃ s', Ends (liftMove l i).1 s s' ∧ Rep c' s'

def isWord : Reg → Bool
  | .w _ => true
  | _ => false

def isQuad : Reg → Bool
  | .q _ => true
  | _ => false

def isHigh : Arg → Bool
  | .reg (.h _) => true
  | _ => false

/-- An `FS` operand relative to the next instruction. -/
def isFsRip : Arg → Bool
  | .mem m => m.segment == some .fs && m.base == some .rip
  | _ => false

/-- The widths the lowerings keep apart. -/
def WidthSafe (i : Instruction) : Prop :=
  match i.inst.op, i.inst.args with
  | .movzx, [.reg dst, _] => isWord dst = false
  | .movsx, [.reg dst, src] => isWord dst = false ∧ isHigh src = false
  | .movsxd, [.reg dst, _] => isQuad dst = true
  | _, _ => True

/-- The memory operands the lowerings find where x86 does. -/
def OperandsSafe (i : Instruction) : Prop :=
  match i.inst.op, i.inst.args with
  | .lea, [_, .mem m] => m.segment ≠ some .fs ∨ m.base = some .rip
  | _, args => ∀ a ∈ args, isFsRip a = false

/-! ### values -/

theorem setWidth_signExtend {n : ℕ} (v : BitVec n) {m k : ℕ} (h : m ≤ k) :
    (v.signExtend k).setWidth m = v.signExtend m := by
  apply BitVec.eq_of_getLsbD_eq
  intro i hi
  simp only [BitVec.getLsbD_setWidth, BitVec.getLsbD_signExtend, hi, decide_true, Bool.true_and,
    show i < k by omega]

theorem regWrite_extend_zero {dsz : Size} (h : dsz = .l ∨ dsz = .q) {n : ℕ} (hn : n ≤ 32)
    (v : BitVec n) (lo : ℕ) (old : BitVec 64) :
    regWrite dsz lo old (extendTo false v dsz.bits) = v.setWidth 64 := by
  have hlt := v.isLt
  have hle : 2 ^ n ≤ 2 ^ 32 := Nat.pow_le_pow_right (by decide) hn
  rcases h with rfl | rfl
  · show ((v.setWidth 64).setWidth 32).setWidth 64 = v.setWidth 64
    apply BitVec.eq_of_toNat_eq
    simp only [BitVec.toNat_setWidth]
    omega
  · show ((v.setWidth 64).setWidth 64).setWidth 64 = v.setWidth 64
    rw [BitVec.setWidth_eq, BitVec.setWidth_eq]

theorem regWrite_extend_sign {dsz ssz : Size} (h : dsz = .q ∨ dsz = .l ∧ ssz ≠ .l)
    (v : BitVec ssz.bits) (lo : ℕ) (old : BitVec 64) :
    regWrite dsz lo old (extendTo true v dsz.bits) =
      (v.signExtend (movsxWidth dsz ssz).bits).setWidth 64 := by
  rcases h with rfl | ⟨rfl, hl⟩
  · show ((v.signExtend 64).setWidth 64).setWidth 64 = _
    rw [BitVec.setWidth_eq, BitVec.setWidth_eq]
    cases ssz <;> exact (BitVec.setWidth_eq _).symm
  · show ((v.signExtend 64).setWidth 32).setWidth 64 = _
    rw [setWidth_signExtend v (by decide), movsxWidth, if_neg hl]
    rfl

/-! ### the simulation -/

section Simulation

variable {l : Arm64Lifter} {i : Instruction} {c c' : Cpu} {s : State}

theorem condFor_piece (l : Arm64Lifter) (cc : X86.Cond) (s : State) :
    ∃ f, Piece (l.condFor cc).1 s { s with flags := f } := by
  have hnorm : ∃ f, Piece l.normalizeCarry.1 s { s with flags := f } := by
    unfold Arm64Lifter.normalizeCarry
    split
    · exact ⟨s.flags, .nil s⟩
    · exact ⟨_, Piece.one rfl s⟩
  have hnil : ∃ f, Piece [] s { s with flags := f } := ⟨s.flags, .nil s⟩
  unfold Arm64Lifter.condFor
  cases cc
  case be => cases l.cpol <;> first | exact hnil | exact hnorm
  case a => cases l.cpol <;> first | exact hnil | exact hnorm
  all_goals exact hnil

theorem Moved.ends {is : Asm} (h : Moved is c' s) : ∃ s', Ends (asm is) s s' ∧ Rep c' s' := by
  obtain ⟨s', hpiece, hrep⟩ := h
  exact ⟨s', hpiece.runs, hrep⟩

theorem moved_condFor {cc : X86.Cond} {is : Asm} (hcond : CondHeld l i c s)
    (hop : i.inst.op = .setcc cc ∨ i.inst.op = .cmovcc cc) (hrep : Rep c s)
    (h : ∀ f, Rep c { s with flags := f } →
      (l.condFor cc).2.1.holds f = cc.holds c.flags → Moved is c' { s with flags := f }) :
    ∃ s', Ends (asm ((l.condFor cc).1 ++ is)) s s' ∧ Rep c' s' := by
  obtain ⟨f, hpre⟩ := condFor_piece l cc s
  have hholds := hcond cc hop
  rw [hpre.ends] at hholds
  exact (Moved.cons_piece hpre (h f (hrep.set_flags f) hholds)).ends

theorem wide_of_loc {r : Reg} {g : Gpr} {lo : ℕ} {sz : Size} (hloc : r.loc = some (g, lo, sz))
    (hb : sz ≠ .b) (hw : isWord r = false) : sz = .l ∨ sz = .q := by
  cases r <;> cases hloc
  case b => exact absurd rfl hb
  case h => exact absurd rfl hb
  case w => cases hw
  case l => exact .inl rfl
  case q => exact .inr rfl

theorem quad_of_loc {r : Reg} {g : Gpr} {lo : ℕ} {sz : Size} (hloc : r.loc = some (g, lo, sz))
    (hq : isQuad r = true) : sz = .q := by
  cases r <;> cases hloc <;> first | rfl | cases hq

theorem lowPart_eq {addr : Mem → Option Addr} {sz : Size} {src : Arg} {e : Place}
    (he : Cpu.placeBy addr i sz src = some e) (hh : isHigh src = false) : lowPart e = e := by
  cases src with
  | imm w => cases he
  | rel w => cases he
  | mem m =>
      obtain ⟨-, a, -, rfl⟩ := placeBy_mem.1 he
      rfl
  | reg r =>
      obtain ⟨g, lo, hloc, rfl⟩ := placeBy_reg.1 he
      cases r <;> cases hloc <;> first | rfl | cases hh

/-- **The code moves as x86 does**, with memory operands where the code finds them. -/
theorem liftMove_sim (hsup : unsupportedAddressing i.inst = none) (hw : WidthSafe i)
    (hrep : Rep c s) (hcond : CondHeld l i c s) (hgr : InGranule i s)
    (hm : moveBy c (codeOperand i s) i = some c') :
    ∃ s', Ends (liftMove l i).1 s s' ∧ Rep c' s' := by
  unfold moveBy at hm
  unfold WidthSafe at hw
  split at hm
  case h_1 dst src hop hargs =>
    have hcode : (liftMove l i).1 = asm (liftMov i i.nextPC) := by rw [liftMove, hsup, hop]
    rw [hcode]
    exact (liftMov_spec hargs hrep hm).ends
  case h_2 dst src hop hargs =>
    have hcode : (liftMove l i).1 = asm (liftMovzx i i.nextPC) := by rw [liftMove, hsup, hop]
    rw [hcode]
    rw [hop, hargs] at hw
    obtain ⟨dsz, ssz, d, e, hb, hssz, hd, he, rfl⟩ := extendBy_some.1 hm
    obtain ⟨g, lo, hloc, rfl⟩ := placeBy_reg.1 hd
    have hn : ssz.bits ≤ 32 := by
      simp only [List.mem_cons, List.not_mem_nil, or_false] at hssz
      rcases hssz with rfl | rfl <;> decide
    exact ((liftMovzx_leaves hargs hrep hloc hssz he).moved
      (regWrite_extend_zero (wide_of_loc hloc hb hw) hn _ _ _)).ends
  case h_3 dst src hop hargs =>
    have hcode : (liftMove l i).1 = asm (liftMovsx i i.nextPC) := by rw [liftMove, hsup, hop]
    rw [hcode]
    rw [hop, hargs] at hw
    obtain ⟨dsz, ssz, d, e, hb, hssz, hd, he, rfl⟩ := extendBy_some.1 hm
    obtain ⟨g, lo, hloc, rfl⟩ := placeBy_reg.1 hd
    have hl : ssz ≠ .l := by
      rintro rfl
      exact absurd hssz (by decide)
    have hleaves := liftMovsx_leaves hargs hrep hloc (.inl ⟨hop, hssz⟩) he
    rw [lowPart_eq he hw.2] at hleaves
    exact (hleaves.moved (regWrite_extend_sign
      ((wide_of_loc hloc hb hw.1).symm.imp id fun h => ⟨h, hl⟩) _ _ _)).ends
  case h_4 dst src hop hargs =>
    have hcode : (liftMove l i).1 = asm (liftMovsx i i.nextPC) := by rw [liftMove, hsup, hop]
    rw [hcode]
    rw [hop, hargs] at hw
    obtain ⟨dsz, ssz, d, e, hb, hssz, hd, he, rfl⟩ := extendBy_some.1 hm
    obtain ⟨g, lo, hloc, rfl⟩ := placeBy_reg.1 hd
    obtain rfl : ssz = .l := by simpa using hssz
    have hhigh : isHigh src = false := by
      cases src with
      | reg r =>
          obtain ⟨g', lo', hloc', -⟩ := placeBy_reg.1 he
          cases r <;> cases hloc'
          rfl
      | _ => rfl
    have hleaves := liftMovsx_leaves hargs hrep hloc (.inr ⟨hop, rfl⟩) he
    rw [lowPart_eq he hhigh] at hleaves
    exact (hleaves.moved (regWrite_extend_sign (.inl (quad_of_loc hloc hw)) _ _ _)).ends
  case h_5 cc dst hop hargs =>
    have hcode : (liftMove l i).1 =
        asm ((l.condFor cc).1 ++ liftSetcc i i.nextPC (l.condFor cc).2.1) := by rw [liftMove, hsup, hop]
    rw [hcode]
    exact moved_condFor hcond (.inl hop) hrep fun f hrep' hholds =>
      liftSetcc_spec hargs hrep' hholds hm
  case h_6 cc dst src hop hargs =>
    have hcode : (liftMove l i).1 =
        asm ((l.condFor cc).1 ++ liftCmovcc i i.nextPC (l.condFor cc).2.1) := by rw [liftMove, hsup, hop]
    rw [hcode]
    exact moved_condFor hcond (.inr hop) hrep fun f hrep' hholds =>
      liftCmovcc_spec hargs hrep' hholds hm
  case h_7 x y hop hargs =>
    have hcode : (liftMove l i).1 = (liftXchg l i i.nextPC).1 := by rw [liftMove, hsup, hop]
    rw [hcode]
    obtain ⟨is, his, hmoved⟩ := liftXchg_spec l hargs hrep (hgr hop) hm
    rw [his]
    exact hmoved.ends
  case h_8 dst m hop hargs =>
    have hcode : (liftMove l i).1 = asm (liftLea i i.nextPC) := by rw [liftMove, hsup, hop]
    rw [hcode]
    exact (liftLea_spec hargs hrep hm).ends
  case h_9 => cases hm

/-! ### the operands of the processor and of the code -/

theorem accesses_of_move (hm : moveBy c addr i = some c') : accessesNone i.inst.op = false := by
  unfold moveBy at hm
  split at hm
  case h_9 => cases hm
  all_goals
    rename_i hop _
    rw [hop]
    rfl

/-- What has an offset is an operand of 64-bit addressing. -/
theorem addressable_of_offset (h32 : i.inst.addrSize ≠ 32) {m : Mem} {a : Addr}
    (h : m.offset c i = some a) : Addressable m := by
  unfold Mem.offset at h
  split at h
  · rename_i hrip
    simp only [Mem.ripRelative, Bool.or_eq_true, Bool.and_eq_true, beq_iff_eq] at hrip
    rcases hrip with ⟨hbase, hidx⟩ | ⟨⟨⟨-, hbase⟩, hidx⟩, -⟩
    · exact ⟨.inl ⟨hbase, hidx⟩, .inl hidx⟩
    · exact ⟨.inr (by rw [hbase]; rfl), .inl hidx⟩
  · have hreg : ∀ (r : Option Reg) b, c.addrReg i r = some b → isGpr64 r = true := by
      intro r b hb
      unfold Cpu.addrReg at hb
      split at hb
      · rfl
      · rfl
      · rw [if_neg h32] at hb
        cases hb
      · cases hb
    simp only [Option.bind_eq_bind, Option.bind_eq_some_iff] at h
    obtain ⟨b, hb, x, hx, hs⟩ := h
    refine ⟨.inr (hreg _ b hb), ?_⟩
    split at hs
    · rename_i hscale
      exact hscale.imp id fun h => ⟨hreg _ x hx, h⟩
    · cases hs

/-- Where the processor finds an operand, the code's steps apply. -/
theorem addressable_of_operand (h32 : i.inst.addrSize ≠ 32) {m : Mem} {a : Addr}
    (h : c.operandAddr i m = some a) : Addressable m := by
  unfold Cpu.operandAddr at h
  split at h
  · exact addressable_of_offset h32 h
  · obtain ⟨o, ho, -⟩ := Option.map_eq_some_iff.1 h
    exact addressable_of_offset h32 ho

/-- `codeAddr` without the base of the segment is the offset. -/
theorem offset_eq_codeAddr (hrep : Rep c s) (h32 : i.inst.addrSize ≠ 32) {m : Mem}
    (hform : Addressable m) (hfs : m.segment ≠ some .fs ∨ m.base = some .rip) :
    m.offset c i = some (codeAddr m i.nextPC s) := by
  unfold codeAddr
  by_cases hrip : m.base = some .rip ∨
      (m.segment = none ∧ m.base = none ∧ m.index = none ∧ m.scale = 0)
  · rw [if_pos hrip, Mem.offset, if_pos (ripRelative_of hform hrip)]
    rfl
  · rw [if_neg hrip]
    have hseg : m.segment ≠ some .fs := by
      rcases hfs with hseg | hbase
      · exact hseg
      · exact absurd (.inl hbase) hrip
    rw [if_neg hseg, zero_add]
    exact offset_eq hrep h32 (not_ripRelative_of hrip) (base_of_not_rip hform hrip) hform.2

/-- The code finds the operands of a safe move where the processor does. -/
theorem codeOperand_of_safe (hrep : Rep c s) (hsup : unsupportedAddressing i.inst = none)
    (hop : accessesNone i.inst.op = false) (hsafe : OperandsSafe i)
    (hlea : i.inst.op = .lea → ∃ dst m, i.inst.args = [.reg dst, .mem m]) {m : Mem}
    (hmem : .mem m ∈ i.inst.args) {a : Addr} (ha : c.operandAddr i m = some a) :
    codeOperand i s m = some a := by
  obtain ⟨h32, hgs⟩ := supported_mem hop hsup hmem
  have hform := addressable_of_operand h32 ha
  rw [codeOperand, if_pos hform, ← ha]
  unfold Cpu.operandAddr
  unfold OperandsSafe at hsafe
  split
  · rename_i hl
    obtain ⟨dst, m', hargs⟩ := hlea hl
    rw [hl, hargs] at hsafe
    obtain rfl : m = m' := by
      rw [hargs] at hmem
      simpa using hmem
    exact (offset_eq_codeAddr hrep h32 hform hsafe).symm
  · rename_i hl
    have hall : ∀ a ∈ i.inst.args, isFsRip a = false := by
      split at hsafe
      · rename_i hop' _
        exact absurd hop' hl
      · exact hsafe
    have hfr : ¬(m.segment = some .fs ∧ m.base = some .rip) := by
      rintro ⟨hseg, hbase⟩
      have hno := hall _ hmem
      simp [isFsRip, hseg, hbase] at hno
    exact (ea_eq_codeAddr hrep h32 hgs hform hfr).symm

/-- **The safe moves are right.** -/
theorem movesRight_of_safe (hsup : unsupportedAddressing i.inst = none) (hw : WidthSafe i)
    (hsafe : OperandsSafe i) : MovesRight l i := by
  intro c s c' hrep hcond hgr hm
  refine liftMove_sim hsup hw hrep hcond hgr (moveBy_mono ?_ hm)
  intro m hmem a ha
  refine codeOperand_of_safe hrep hsup (accesses_of_move hm) hsafe ?_ hmem ha
  intro hl
  unfold moves moveBy at hm
  split at hm
  case h_8 dst m' _ hargs => exact ⟨dst, m', hargs⟩
  case h_9 => cases hm
  all_goals
    rename_i hop _
    rw [hl] at hop
    cases hop

end Simulation

/-! ### states that tell the other moves apart -/

theorem Rep.agree {c₁ c₂ : Cpu} {s : State} (h₁ : Rep c₁ s) (h₂ : Rep c₂ s) :
    c₁.gpr = c₂.gpr ∧ c₁.mem = c₂.mem :=
  ⟨funext fun g => (h₁.gpr g).symm.trans (h₂.gpr g), h₁.mem.symm.trans h₂.mem⟩

section Wrong

variable {l : Arm64Lifter} {i : Instruction}

/-- A state in which the code ends in one that holds another guest state. -/
theorem not_right {c c₁ c₂ : Cpu} {s s' : State} (hrep : Rep c s) (hcond : CondHeld l i c s)
    (hgr : InGranule i s) (hm : moves i c = some c₁) (hends : Ends (liftMove l i).1 s s')
    (h₂ : Rep c₂ s') (hne : c₁.gpr ≠ c₂.gpr ∨ c₁.mem ≠ c₂.mem) : ¬MovesRight l i := by
  intro h
  obtain ⟨s'', hends', h₁⟩ := h c s c₁ hrep hcond hgr hm
  obtain rfl := hends.unique hends'
  obtain ⟨hg, hmem⟩ := h₁.agree h₂
  rcases hne with hne | hne
  · exact hne hg
  · exact hne hmem

/-- The instruction has a meaning. -/
def Meant (i : Instruction) : Prop := ∃ c c', moves i c = some c'

/-- A processor with every register and every byte the same. -/
def flat (v : BitVec 64) (b : BitVec 8) : State where
  x := fun _ => v
  sp := 0
  flags := { n := false, z := false, c := false, v := false }
  mem := fun _ => b
  fails := 0

/-- The address of a memory operand does not decide whether it has one. -/
theorem operandAddr_defined (hop : accessesNone i.inst.op = false)
    (hsup : unsupportedAddressing i.inst = none) {m : Mem} (hmem : .mem m ∈ i.inst.args) {c : Cpu}
    {a : Addr} (ha : c.operandAddr i m = some a) {c' : Cpu} {s : State} (hrep : Rep c' s) :
    ∃ a', c'.operandAddr i m = some a' := by
  obtain ⟨h32, hgs⟩ := supported_mem hop hsup hmem
  have hform := addressable_of_operand h32 ha
  have hoff : ∃ o, m.offset c' i = some o := by
    by_cases hrip : m.base = some .rip ∨
        (m.segment = none ∧ m.base = none ∧ m.index = none ∧ m.scale = 0)
    · exact ⟨_, by rw [Mem.offset, if_pos (ripRelative_of hform hrip)]⟩
    · exact ⟨_, offset_eq hrep h32 (not_ripRelative_of hrip) (base_of_not_rip hform hrip) hform.2⟩
  obtain ⟨o, ho⟩ := hoff
  unfold Cpu.operandAddr
  split
  · exact ⟨o, ho⟩
  · exact ⟨_, ea_of_offset h32 ho⟩

theorem placeBy_defined (hop : accessesNone i.inst.op = false)
    (hsup : unsupportedAddressing i.inst = none) {c : Cpu} {sz : Size} {a : Arg}
    (hmem : a ∈ i.inst.args) {p : Place} (hp : Cpu.placeBy (c.operandAddr i) i sz a = some p)
    {c' : Cpu} {s : State} (hrep : Rep c' s) :
    ∃ p', Cpu.placeBy (c'.operandAddr i) i sz a = some p' ∧
      ∃ p'', Cpu.placeBy (codeOperand i s) i sz a = some p'' ∧
        (∀ g lo, p' = .reg g lo → p'' = .reg g lo) := by
  cases a with
  | imm w => cases hp
  | rel w => cases hp
  | reg r => exact ⟨p, hp, p, hp, fun _ _ h => h⟩
  | mem m =>
      obtain ⟨hsz, a, ha, rfl⟩ := placeBy_mem.1 hp
      obtain ⟨a', ha'⟩ := operandAddr_defined hop hsup hmem ha hrep
      have hform := addressable_of_operand (supported_mem hop hsup hmem).1 ha
      refine ⟨.mem a', placeBy_mem.2 ⟨hsz, a', ha', rfl⟩, .mem (codeAddr m i.nextPC s),
        placeBy_mem.2 ⟨hsz, _, if_pos hform, rfl⟩, fun g lo h => by cases h⟩

/-! #### extensions -/

theorem guestOf_flat (v : BitVec 64) (b : BitVec 8) (g : Gpr) : (guestOf (flat v b)).gpr g = v :=
  if_neg (pin_ne_zr g)

/-- A load where every byte is the same does not depend on the address. -/
theorem flat_load (v : BitVec 64) (b : BitVec 8) (n : ℕ) (a : Addr) :
    (guestOf (flat v b)).mem.load n a = BitVec.ofNat n (b.toNat * (256 ^ (n / 8) - 1) / 255) := by
  show BitVec.ofNat n (ByteMem.loadNat (fun _ => b) a (n / 8)) = _
  rw [← ByteMem.loadNat_const b a (n / 8), Nat.mul_div_cancel _ (by decide)]

/-- The extensions, as the processor does them from a state on and as the code leaves them. -/
theorem extend_at {signed : Bool} {sources : List Size} {dst : Reg} {src : Arg}
    (hsup : unsupportedAddressing i.inst = none) (hacc : accessesNone i.inst.op = false)
    (hargs : i.inst.args = [.reg dst, src])
    (hmoves : ∀ c, moves i c = extendBy c (c.operandAddr i) i signed sources dst src)
    (hmeant : Meant i) : ∃ dsz ssz g lo, dst.loc = some (g, lo, dsz) ∧ dsz ≠ .b ∧
      ssz ∈ sources ∧ ∀ c s, Rep c s → ∃ e₁ e₂,
        Cpu.placeBy (c.operandAddr i) i ssz src = some e₁ ∧
        Cpu.placeBy (codeOperand i s) i ssz src = some e₂ ∧
        moves i c = some (c.put dsz (.reg g lo) (extendTo signed (c.get ssz e₁) dsz.bits)) := by
  obtain ⟨c₀, c₀', hm⟩ := hmeant
  rw [hmoves] at hm
  obtain ⟨dsz, ssz, d, e, hb, hssz, hd, he, rfl⟩ := extendBy_some.1 hm
  obtain ⟨g, lo, hloc, rfl⟩ := placeBy_reg.1 hd
  refine ⟨dsz, ssz, g, lo, hloc, hb, hssz, fun c s hrep => ?_⟩
  obtain ⟨e₁, he₁, e₂, he₂, -⟩ := placeBy_defined hacc hsup (by rw [hargs]; simp) he hrep
  refine ⟨e₁, e₂, he₁, he₂, ?_⟩
  rw [hmoves]
  exact extendBy_some.2 ⟨dsz, ssz, _, e₁, hb, hssz, placeBy_reg.2 ⟨g, lo, hloc, rfl⟩, he₁, rfl⟩

/-- What a move leaves in a register is not what the processor does. -/
theorem not_right_leaves {c c₁ : Cpu} {s : State} (hrep : Rep c s) (hcond : CondHeld l i c s)
    (hgr : InGranule i s) {is : Asm} (hcode : (liftMove l i).1 = asm is) {g : Gpr} {v : BitVec 64}
    (hm : moves i c = some c₁) (hleaves : Leaves is c g v s) (hne : c₁.gpr g ≠ v) :
    ¬MovesRight l i := by
  obtain ⟨s', hrep', hpiece⟩ := hleaves
  refine not_right hrep hcond hgr hm (hcode ▸ hpiece.runs) (hrep'.write g v) (.inl fun heq => ?_)
  apply hne
  rw [heq]
  exact Function.update_self g v c.gpr

theorem getLsbD_put_word (c : Cpu) (g : Gpr) (v : BitVec Size.w.bits) :
    ((c.put .w (.reg g 0) v).gpr g).getLsbD 63 = (c.gpr g).getLsbD 63 := by
  show (Function.update c.gpr g (insertBits 0 Size.w.bits (c.gpr g) v) g).getLsbD 63 = _
  rw [Function.update_self, getLsbD_insertBits _ _ _ _ (by decide), if_neg (by decide)]

theorem word_of_loc {r : Reg} {g : Gpr} {lo : ℕ} {sz : Size} (hloc : r.loc = some (g, lo, sz))
    (hw : isWord r = true) : sz = .w ∧ lo = 0 := by
  cases r <;> cases hloc <;> first | exact ⟨rfl, rfl⟩ | cases hw

theorem condHeld_of_op {c : Cpu} {s : State}
    (hop : i.inst.op = .movzx ∨ i.inst.op = .movsx ∨ i.inst.op = .movsxd) :
    CondHeld l i c s ∧ InGranule i s := by
  refine ⟨fun cc hcc => ?_, fun hx => ?_⟩
  · rcases hop with h | h | h <;> rw [h] at hcc <;> rcases hcc with hcc | hcc <;> cases hcc
  · rcases hop with h | h | h <;> rw [h] at hx <;> cases hx

/-- `MOVZX` and `MOVSX` to 16 bits clear the upper half of the register. -/
theorem not_right_extend_word (hsup : unsupportedAddressing i.inst = none)
    (hop : i.inst.op = .movzx ∨ i.inst.op = .movsx) {dst : Reg} {src : Arg} (hargs : i.inst.args = [.reg dst, src])
    (hw : isWord dst = true) (hmeant : Meant i) : ¬MovesRight l i := by
  obtain ⟨signed, hmoves⟩ : ∃ signed, ∀ c, moves i c =
      extendBy c (c.operandAddr i) i signed [.b, .w] dst src := by
    rcases hop with hop | hop
    · exact ⟨false, fun c => by rw [moves, moveBy, hop, hargs]⟩
    · exact ⟨true, fun c => by rw [moves, moveBy, hop, hargs]⟩
  obtain ⟨dsz, ssz, g, lo, hloc, hb, hssz, hat⟩ :=
    extend_at hsup (by rcases hop with h | h <;> rw [h] <;> rfl) hargs hmoves hmeant
  obtain ⟨rfl, rfl⟩ := word_of_loc hloc hw
  obtain ⟨e₁, e₂, -, he₂, hm⟩ := hat _ _ (rep_guestOf (flat 0x8000000000000000 0))
  obtain ⟨hcond, hgr⟩ := condHeld_of_op (l := l) (c := guestOf (flat 0x8000000000000000 0))
    (s := flat 0x8000000000000000 0) (hop.imp id .inl)
  have hsrc : ssz.bits ≤ 63 ∧ (movsxWidth .w ssz).bits ≤ 63 := by
    simp only [List.mem_cons, List.not_mem_nil, or_false] at hssz
    rcases hssz with rfl | rfl <;> decide
  obtain ⟨is, n, v, hcode, hn, hleaves⟩ : ∃ is, ∃ n, ∃ v : BitVec n, (liftMove l i).1 = asm is ∧ n ≤ 63 ∧
      Leaves is (guestOf (flat 0x8000000000000000 0)) g (v.setWidth 64) (flat 0x8000000000000000 0) := by
    rcases hop with hop | hop
    · exact ⟨_, _, _, by rw [liftMove, hsup, hop], hsrc.1, liftMovzx_leaves hargs (rep_guestOf _) hloc hssz he₂⟩
    · exact ⟨_, _, _, by rw [liftMove, hsup, hop], hsrc.2,
        liftMovsx_leaves hargs (rep_guestOf _) hloc (.inl ⟨hop, hssz⟩) he₂⟩
  refine not_right_leaves (rep_guestOf _) hcond hgr hcode hm hleaves (fun heq => ?_)
  have hbit := congrArg (BitVec.getLsbD · 63) heq
  rw [getLsbD_put_word, guestOf_flat, BitVec.getLsbD_setWidth, BitVec.getLsbD_of_ge _ 63 hn] at hbit
  exact absurd hbit (by decide)

theorem not_right_movsx_high (hsup : unsupportedAddressing i.inst = none) (hop : i.inst.op = .movsx)
    {dst : Reg} {src : Arg} (hargs : i.inst.args = [.reg dst, src]) (hw : isWord dst = false)
    (hh : isHigh src = true) (hmeant : Meant i) : ¬MovesRight l i := by
  have hmoves : ∀ c, moves i c = extendBy c (c.operandAddr i) i true [.b, .w] dst src := by
    intro c
    rw [moves, moveBy, hop, hargs]
  obtain ⟨dsz, ssz, g, lo, hloc, hb, hssz, hat⟩ := extend_at hsup (by rw [hop]; rfl) hargs hmoves
    hmeant
  obtain ⟨e₁, e₂, he₁, he₂, hm⟩ := hat _ _ (rep_guestOf (flat 0x8000 0))
  obtain ⟨hcond, hgr⟩ := condHeld_of_op (l := l) (c := guestOf (flat 0x8000 0))
    (s := flat 0x8000 0) (.inr (.inl hop))
  obtain ⟨h, rfl⟩ : ∃ h, src = .reg (.h h) := by
    unfold isHigh at hh
    split at hh
    · exact ⟨_, rfl⟩
    · cases hh
  obtain ⟨g', lo', hs, rfl⟩ := placeBy_reg.1 he₁
  cases hs
  obtain ⟨g', lo', hs, rfl⟩ := placeBy_reg.1 he₂
  cases hs
  refine not_right_leaves (rep_guestOf _) hcond hgr (by rw [liftMove, hsup, hop]) hm
    (liftMovsx_leaves hargs (rep_guestOf _) hloc (.inl ⟨hop, hssz⟩) he₂) ?_
  have hsrc : (guestOf (flat 0x8000 0)).get .b (.reg h.gpr 8) = 0x80#8 := by
    show ((guestOf (flat 0x8000 0)).gpr h.gpr).extractLsb' 8 8 = 0x80#8
    rw [guestOf_flat]
    decide
  have hlow : (guestOf (flat 0x8000 0)).get .b (lowPart (.reg h.gpr 8)) = 0#8 := by
    show ((guestOf (flat 0x8000 0)).gpr h.gpr).extractLsb' 0 8 = 0#8
    rw [guestOf_flat]
    decide
  rw [hsrc, hlow]
  show Function.update (guestOf (flat 0x8000 0)).gpr g
    (regWrite dsz lo _ (extendTo true 0x80#8 dsz.bits)) g ≠ _
  rw [Function.update_self]
  rcases wide_of_loc hloc hb hw with rfl | rfl
  · show (extendTo true 0x80#8 32).setWidth 64 ≠ ((0#8).signExtend 32).setWidth 64
    decide
  · show (extendTo true 0x80#8 64).setWidth 64 ≠ ((0#8).signExtend 64).setWidth 64
    decide

theorem not_right_movsxd (hsup : unsupportedAddressing i.inst = none) (hop : i.inst.op = .movsxd)
    {dst : Reg} {src : Arg} (hargs : i.inst.args = [.reg dst, src]) (hq : isQuad dst = false)
    (hmeant : Meant i) : ¬MovesRight l i := by
  have hmoves : ∀ c, moves i c = extendBy c (c.operandAddr i) i true [.l] dst src := by
    intro c
    rw [moves, moveBy, hop, hargs]
  obtain ⟨dsz, ssz, g, lo, hloc, hb, hssz, hat⟩ := extend_at hsup (by rw [hop]; rfl) hargs hmoves
    hmeant
  obtain rfl : ssz = .l := by simpa using hssz
  -- what the code extends, in a state whose bytes and registers are all the same
  have hval : ∀ v b e₂, Cpu.placeBy (codeOperand i (flat v b)) i .l src = some e₂ →
      (guestOf (flat v b)).get .l (lowPart e₂) = v.extractLsb' 0 32 ∨
      (guestOf (flat v b)).get .l (lowPart e₂) = BitVec.ofNat 32 (b.toNat * (256 ^ 4 - 1) / 255) := by
    intro v b e₂ he₂
    cases src with
    | imm w => cases he₂
    | rel w => cases he₂
    | reg r =>
        obtain ⟨g', lo', hs, rfl⟩ := placeBy_reg.1 he₂
        left
        show ((guestOf (flat v b)).gpr g').extractLsb' 0 32 = _
        rw [guestOf_flat]
    | mem m =>
        obtain ⟨-, a, -, rfl⟩ := placeBy_mem.1 he₂
        right
        exact flat_load v b 32 a
  have hcond : ∀ v b, CondHeld l i (guestOf (flat v b)) (flat v b) ∧ InGranule i (flat v b) :=
    fun v b => condHeld_of_op (.inr (.inr hop))
  cases hdw : isWord dst with
  | true =>
      obtain ⟨rfl, rfl⟩ := word_of_loc hloc hdw
      obtain ⟨e₁, e₂, -, he₂, hm⟩ := hat _ _ (rep_guestOf (flat 0x8000000000000000 0))
      refine not_right_leaves (rep_guestOf _) (hcond _ _).1 (hcond _ _).2
        (by rw [liftMove, hsup, hop]) hm
        (liftMovsx_leaves hargs (rep_guestOf _) hloc (.inr ⟨hop, rfl⟩) he₂) (fun heq => ?_)
      have hbit := congrArg (BitVec.getLsbD · 63) heq
      rw [getLsbD_put_word, guestOf_flat] at hbit
      rcases hval _ _ e₂ he₂ with h | h
      · rw [h] at hbit
        exact absurd hbit (by decide)
      · rw [h] at hbit
        exact absurd hbit (by decide)
  | false =>
      obtain rfl : dsz = .l := by
        rcases wide_of_loc hloc hb hdw with h | rfl
        · exact h
        · cases dst <;> cases hloc
          cases hq
      obtain ⟨e₁, e₂, -, he₂, hm⟩ := hat _ _ (rep_guestOf (flat 0x80000000 0xff))
      refine not_right_leaves (rep_guestOf _) (hcond _ _).1 (hcond _ _).2
        (by rw [liftMove, hsup, hop]) hm
        (liftMovsx_leaves hargs (rep_guestOf _) hloc (.inr ⟨hop, rfl⟩) he₂) (fun heq => ?_)
      have hbit := congrArg (BitVec.getLsbD · 63) heq
      have hput : ∀ (c : Cpu) (v : BitVec Size.l.bits), ((c.put .l (.reg g lo) v).gpr g).getLsbD 63 = false := by
        intro c v
        show (Function.update c.gpr g (v.setWidth 64) g).getLsbD 63 = false
        rw [Function.update_self, BitVec.getLsbD_setWidth, BitVec.getLsbD_of_ge v 63 (by decide)]
        rfl
      rw [hput] at hbit
      rcases hval _ _ e₂ he₂ with h | h
      · rw [h] at hbit
        exact absurd hbit (by decide)
      · rw [h] at hbit
        exact absurd hbit (by decide)

/-! #### addresses -/

theorem getLsbD_put_lo {r : Reg} {g : Gpr} {lo : ℕ} {sz : Size} (hloc : r.loc = some (g, lo, sz))
    (c : Cpu) (v : BitVec sz.bits) :
    ((c.put sz (.reg g lo) v).gpr g).getLsbD lo = v.getLsbD 0 := by
  show (Function.update c.gpr g (regWrite sz lo (c.gpr g) v) g).getLsbD lo = _
  rw [Function.update_self]
  have hnarrow : ∀ (w : ℕ) (v : BitVec w), 0 < w → lo < 64 →
      (insertBits lo w (c.gpr g) v).getLsbD lo = v.getLsbD 0 := by
    intro w v hw hlo
    rw [getLsbD_insertBits _ _ _ _ hlo, if_pos ⟨le_refl _, by omega⟩, Nat.sub_self]
  cases r <;> cases hloc
  case b => exact hnarrow 8 v (by decide) (by decide)
  case h => exact hnarrow 8 v (by decide) (by decide)
  case w => exact hnarrow 16 v (by decide) (by decide)
  case l =>
    show (v.setWidth 64).getLsbD 0 = _
    rw [BitVec.getLsbD_setWidth]
    rfl
  case q =>
    show (v.setWidth 64).getLsbD 0 = _
    rw [BitVec.getLsbD_setWidth]
    rfl

theorem not_right_lea (hsup : unsupportedAddressing i.inst = none) (hop : i.inst.op = .lea)
    {dst : Reg} {m : Mem} (hargs : i.inst.args = [.reg dst, .mem m]) (hfs : m.segment = some .fs)
    (hbase : m.base ≠ some .rip) (hmeant : Meant i) : ¬MovesRight l i := by
  have hmoves : ∀ c, moves i c = leaBy c (c.operandAddr i) i dst m := by
    intro c
    rw [moves, moveBy, hop, hargs]
  have hmem : .mem m ∈ i.inst.args := by simp [hargs]
  have hrep := rep_guestOf (oneReg 27 1)
  obtain ⟨c₀, c₀', hm₀⟩ := hmeant
  rw [hmoves] at hm₀
  obtain ⟨sz, d, a₀, hb, hd, ha₀, rfl⟩ := leaBy_some.1 hm₀
  obtain ⟨g, lo, hloc, rfl⟩ := placeBy_reg.1 hd
  have h32 := (supported_mem (by rw [hop]; rfl) hsup hmem).1
  have hform := addressable_of_operand h32 ha₀
  have hrip : ¬(m.base = some .rip ∨
      (m.segment = none ∧ m.base = none ∧ m.index = none ∧ m.scale = 0)) := by
    rintro (h | ⟨h, -⟩)
    · exact hbase h
    · rw [hfs] at h
      cases h
  have hoff := offset_eq hrep h32 (not_ripRelative_of hrip) (base_of_not_rip hform hrip) hform.2
  have ha₁ : (guestOf (oneReg 27 1)).operandAddr i m =
      some (regVal (oneReg 27 1) m.base + indexVal (oneReg 27 1) m + dispOf m) := by
    rw [Cpu.operandAddr, if_pos hop, hoff]
  have ha₂ : codeOperand i (oneReg 27 1) m =
      some (1 + (regVal (oneReg 27 1) m.base + indexVal (oneReg 27 1) m + dispOf m)) := by
    rw [codeOperand, if_pos hform, codeAddr, if_neg hrip, if_pos hfs]
    rfl
  have hm₁ := (hmoves _).trans (leaBy_some.2 ⟨sz, _, _, hb, placeBy_reg.2 ⟨g, lo, hloc, rfl⟩, ha₁,
    rfl⟩)
  have hby : ∀ addr, moveBy (guestOf (oneReg 27 1)) addr i =
      leaBy (guestOf (oneReg 27 1)) addr i dst m := by
    intro addr
    rw [moveBy, hop, hargs]
  have hm₂ := (hby _).trans (leaBy_some.2 ⟨sz, _, _, hb, placeBy_reg.2 ⟨g, lo, hloc, rfl⟩, ha₂,
    rfl⟩)
  have hcond : CondHeld l i (guestOf (oneReg 27 1)) (oneReg 27 1) := by
    intro cc hcc
    rw [hop] at hcc
    rcases hcc with hcc | hcc <;> cases hcc
  have hgr : InGranule i (oneReg 27 1) := by
    intro hx
    rw [hop] at hx
    cases hx
  have hw : WidthSafe i := by
    rw [WidthSafe, hop, hargs]
    trivial
  obtain ⟨s', hends, hrep₂⟩ := liftMove_sim (l := l) hsup hw hrep hcond hgr hm₂
  refine not_right hrep hcond hgr hm₁ hends hrep₂ (.inl fun heq => ?_)
  -- the two addresses differ in bit 0
  have hbit := congrArg (fun f : Gpr → BitVec 64 => (f g).getLsbD lo) heq
  rw [getLsbD_put_lo hloc, getLsbD_put_lo hloc, BitVec.getLsbD_setWidth, BitVec.getLsbD_setWidth]
    at hbit
  have hpos : decide (0 < sz.bits) = true := decide_eq_true sz.bits_pos
  rw [hpos, Bool.true_and, Bool.true_and] at hbit
  generalize regVal (oneReg 27 1) m.base + indexVal (oneReg 27 1) m + dispOf m = x at hbit
  rw [BitVec.getLsbD, BitVec.getLsbD, Nat.testBit_zero, Nat.testBit_zero, decide_eq_decide,
    BitVec.toNat_add] at hbit
  have h1 : (1 : BitVec 64).toNat = 1 := rfl
  omega

/-- A processor whose `FS` base is 8 and where the guest address `a` is host address 0. -/
def fsState (a : Addr) (hm : ByteMem) (f : Nzcv) : State where
  x := fun r => if r = 27 then 8 else if r = 28 then -a else 0
  sp := 0
  flags := f
  mem := hm
  fails := 0

/-- Its guest. -/
def fsGuest (a : Addr) (hm : ByteMem) (f : Nzcv) (g : X86.Flags) : Cpu :=
  { guestOf (fsState a hm f) with flags := g }

theorem fsGuest_gpr (a : Addr) (hm : ByteMem) (f : Nzcv) (fl : X86.Flags) (g : Gpr) :
    (fsGuest a hm f fl).gpr g = 0 := by
  show (if pin g = 31 then 0 else if pin g = 27 then (8 : BitVec 64) else
    if pin g = 28 then -a else 0) = 0
  rw [if_neg (pin_ne_zr g), if_neg (pin_ne_fs g), if_neg (pin_ne_base g)]

theorem fsGuest_mem (a : Addr) (hm : ByteMem) (f : Nzcv) (fl : X86.Flags) (b : Addr) :
    (fsGuest a hm f fl).mem b = hm (b - a) := by
  show hm (-a + b) = hm (b - a)
  rw [sub_eq_add_neg, add_comm]

/-- Every condition holds of some flags, on either side. -/
theorem cond_holds (l : Arm64Lifter) (cc : X86.Cond) : ∃ f g, cc.holds g = true ∧
    ∀ s : State, s.flags = f → (l.condFor cc).2.1.holds (execs (l.condFor cc).1 s).flags = true := by
  have harm : ∀ c : Arm64.Cond, ∃ f, c.holds f = true := by
    intro c
    cases c
    case eq => exact ⟨⟨false, true, false, false⟩, rfl⟩
    case ls => exact ⟨⟨false, true, false, false⟩, rfl⟩
    case le => exact ⟨⟨false, true, false, false⟩, rfl⟩
    case cs => exact ⟨⟨false, false, true, false⟩, rfl⟩
    case hi => exact ⟨⟨false, false, true, false⟩, rfl⟩
    case mi => exact ⟨⟨true, false, false, false⟩, rfl⟩
    case lt => exact ⟨⟨true, false, false, false⟩, rfl⟩
    case vs => exact ⟨⟨false, false, false, true⟩, rfl⟩
    all_goals exact ⟨⟨false, false, false, false⟩, rfl⟩
  have hx86 : ∃ g, cc.holds g = true := by
    cases cc
    case o => exact ⟨⟨false, false, false, false, false, true⟩, rfl⟩
    case b => exact ⟨⟨true, false, false, false, false, false⟩, rfl⟩
    case be => exact ⟨⟨true, false, false, false, false, false⟩, rfl⟩
    case e => exact ⟨⟨false, false, false, true, false, false⟩, rfl⟩
    case le => exact ⟨⟨false, false, false, true, false, false⟩, rfl⟩
    case s => exact ⟨⟨false, false, false, false, true, false⟩, rfl⟩
    case l => exact ⟨⟨false, false, false, false, true, false⟩, rfl⟩
    case p => exact ⟨⟨false, true, false, false, false, false⟩, rfl⟩
    all_goals exact ⟨⟨false, false, false, false, false, false⟩, rfl⟩
  have hpre : (l.condFor cc).1 = [] ∨ (l.condFor cc).1 = [.cfinv] := by
    have hnorm : l.normalizeCarry.1 = [] ∨ l.normalizeCarry.1 = [.cfinv] := by
      unfold Arm64Lifter.normalizeCarry
      split
      · exact .inl rfl
      · exact .inr rfl
    unfold Arm64Lifter.condFor
    cases cc
    case be => cases l.cpol <;> first | exact .inl rfl | exact hnorm
    case a => cases l.cpol <;> first | exact .inl rfl | exact hnorm
    all_goals exact .inl rfl
  obtain ⟨f, hf⟩ := harm (l.condFor cc).2.1
  obtain ⟨g, hg⟩ := hx86
  rcases hpre with hnil | hinv
  · refine ⟨f, g, hg, fun s hs => ?_⟩
    rw [hnil]
    exact hs ▸ hf
  · refine ⟨{ f with c := !f.c }, g, hg, fun s hs => ?_⟩
    rw [hinv, execs_cons, execs_nil]
    show Arm64.Cond.holds _ { s.flags with c := !s.flags.c } = true
    rw [hs]
    dsimp only
    rw [Bool.not_not]
    exact hf

theorem memBytes_small {sz : Size} (h : Size.ofBytes i.inst.memBytes = some sz) :
    i.inst.memBytes ≤ 16 := by
  rw [Size.bytes_of_ofBytes h]
  cases sz <;> decide

/-- A move that differs between the operand at `a` and at `8 + a` is not right when its operand is
an `FS` one relative to the next instruction. -/
theorem not_right_fsRip_of {m : Mem} (hsup : unsupportedAddressing i.inst = none)
    (hacc : accessesNone i.inst.op = false) (hw : WidthSafe i) (hl : i.inst.op ≠ .lea)
    (hmem : .mem m ∈ i.inst.args) (hone : ∀ m', .mem m' ∈ i.inst.args → m' = m)
    (hfs : m.segment = some .fs) (hbase : m.base = some .rip) {c₀ : Cpu} {a₀ : Addr}
    (ha₀ : c₀.operandAddr i m = some a₀) (hm : ByteMem) {sz : Size} (hsz : Size.ofBytes i.inst.memBytes = some sz)
    (h : ∀ f g, (∀ cc, i.inst.op = .setcc cc ∨ i.inst.op = .cmovcc cc → cc.holds g = true) →
      ∃ c₁ c₂,
        (∀ addr, addr m = some (8 + (i.nextPC + dispOf m)) →
          moveBy (fsGuest (i.nextPC + dispOf m) hm f g) addr i = some c₁) ∧
        (∀ addr, addr m = some (i.nextPC + dispOf m) →
          moveBy (fsGuest (i.nextPC + dispOf m) hm f g) addr i = some c₂) ∧
        (c₁.gpr ≠ c₂.gpr ∨ c₁.mem ≠ c₂.mem)) : ¬MovesRight l i := by
  obtain ⟨h32, -⟩ := supported_mem hacc hsup hmem
  have hform := addressable_of_operand h32 ha₀
  have hsmall := memBytes_small hsz
  -- flags for which the condition, if there is one, holds on both sides
  obtain ⟨f, g, hg, hf⟩ : ∃ f g,
      (∀ cc, i.inst.op = .setcc cc ∨ i.inst.op = .cmovcc cc → cc.holds g = true) ∧
      ∀ cc, i.inst.op = .setcc cc ∨ i.inst.op = .cmovcc cc → ∀ s : State, s.flags = f →
        (l.condFor cc).2.1.holds (execs (l.condFor cc).1 s).flags = true := by
    by_cases hcc : ∃ cc, i.inst.op = .setcc cc ∨ i.inst.op = .cmovcc cc
    · obtain ⟨cc, hcc⟩ := hcc
      obtain ⟨f, g, hg, hf⟩ := cond_holds l cc
      have huniq : ∀ cc', i.inst.op = .setcc cc' ∨ i.inst.op = .cmovcc cc' → cc' = cc := by
        intro cc' hcc'
        rcases hcc with hcc | hcc <;> rw [hcc] at hcc' <;> rcases hcc' with hcc' | hcc' <;>
          cases hcc' <;> rfl
      exact ⟨f, g, fun cc' h => huniq cc' h ▸ hg, fun cc' h => huniq cc' h ▸ hf⟩
    · exact ⟨⟨false, false, false, false⟩, ⟨false, false, false, false, false, false⟩,
        fun cc h => absurd ⟨cc, h⟩ hcc, fun cc h => absurd ⟨cc, h⟩ hcc⟩
  obtain ⟨c₁, c₂, h₁, h₂, hne⟩ := h f g hg
  have hrep : Rep (fsGuest (i.nextPC + dispOf m) hm f g) (fsState (i.nextPC + dispOf m) hm f) :=
    (rep_guestOf _).guestFlags g
  have hcond : CondHeld l i (fsGuest (i.nextPC + dispOf m) hm f g)
      (fsState (i.nextPC + dispOf m) hm f) := fun cc hcc =>
    (hf cc hcc _ rfl).trans (hg cc hcc).symm
  have ha₂ : codeOperand i (fsState (i.nextPC + dispOf m) hm f) m = some (i.nextPC + dispOf m) := by
    rw [codeOperand, if_pos hform, codeAddr, if_pos (.inl hbase)]
  have hgr : InGranule i (fsState (i.nextPC + dispOf m) hm f) := by
    intro hx m' a hmem' ha
    obtain rfl := hone m' hmem'
    rw [ha₂] at ha
    obtain rfl := Option.some.inj ha
    have hzero : (fsState (i.nextPC + dispOf m') hm f).get 28 + (i.nextPC + dispOf m') = 0 :=
      neg_add_cancel _
    rw [hzero]
    show ¬ 16 < 0 + i.inst.memBytes
    omega
  have ha₁ : (fsGuest (i.nextPC + dispOf m) hm f g).operandAddr i m =
      some (8 + (i.nextPC + dispOf m)) := by
    rw [Cpu.operandAddr, if_neg hl, ea_rip h32 (ripRelative_of hform (.inl hbase)), hfs]
    rfl
  obtain ⟨s', hends, hrep₂⟩ := liftMove_sim (l := l) hsup hw hrep hcond hgr (h₂ _ ha₂)
  exact not_right hrep hcond hgr (h₁ _ ha₁) hends hrep₂ hne

/-- One byte set, at address 0. -/
def oneByte : ByteMem := fun b => if b = 0 then 1 else 0

/-- A load at the address the code finds has bit 0 set, one at the address of x86 has not. -/
theorem fsGuest_loads (a : Addr) (f : Nzcv) (fl : X86.Flags) (sz : Size) :
    ((fsGuest a oneByte f fl).get sz (.mem (8 + a))).getLsbD 0 = false ∧
      ((fsGuest a oneByte f fl).get sz (.mem a)).getLsbD 0 = true := by
  have hfirst : ∀ (c : Cpu) (b : Addr), (c.get sz (.mem b)).getLsbD 0 = (c.mem b).getLsbD 0 := by
    intro c b
    have hle : 8 ≤ sz.bits := by cases sz <;> decide
    show (c.mem.load sz.bits b).getLsbD 0 = _
    rw [← ByteMem.load_setWidth c.mem hle b, BitVec.getLsbD_setWidth]
    rfl
  constructor
  · rw [hfirst, fsGuest_mem, add_sub_cancel_right]
    decide
  · rw [hfirst, fsGuest_mem, sub_self]
    decide

/-- A store at the address the code finds leaves its first byte there, one at the address of x86
leaves the byte that was there. -/
theorem fsGuest_stores (a : Addr) (b : BitVec 8) (f : Nzcv) (fl : X86.Flags) {sz : Size}
    (v : BitVec sz.bits) (hne : b ≠ v.setWidth 8) :
    (fsGuest a (fun _ => b) f fl).mem.store (8 + a) v ≠
      (fsGuest a (fun _ => b) f fl).mem.store a v := by
  intro heq
  have hle : 8 ≤ sz.bits := by cases sz <;> decide
  have hbytes : sz.bits / 8 ≤ (a - (8 + a)).toNat := by
    have hsub : a - (8 + a) = -8 := by ring
    rw [hsub]
    cases sz <;> decide
  have hat := congrFun heq a
  rw [ByteMem.store_outside _ v hbytes, ByteMem.store_first _ hle, fsGuest_mem] at hat
  exact hne hat

theorem getLsbD_extendTo (signed : Bool) {n k : ℕ} (hn : 0 < n) (hk : 0 < k) (v : BitVec n) :
    (extendTo signed v k).getLsbD 0 = v.getLsbD 0 := by
  cases signed with
  | true =>
      show ((v.signExtend 64).setWidth k).getLsbD 0 = _
      rw [BitVec.getLsbD_setWidth, BitVec.getLsbD_signExtend]
      simp [hn, hk]
  | false =>
      show ((v.setWidth 64).setWidth k).getLsbD 0 = _
      rw [BitVec.getLsbD_setWidth, BitVec.getLsbD_setWidth]
      simp [hk]

theorem not_ne_self (b : BitVec 8) : ~~~b ≠ b := by
  intro h
  have hbit := congrArg (BitVec.getLsbD · 0) h
  simp at hbit

theorem gpr_ne_of_bit {r : Reg} {g : Gpr} {lo : ℕ} {sz : Size} (hloc : r.loc = some (g, lo, sz))
    (c : Cpu) {v w : BitVec sz.bits} (hv : v.getLsbD 0 = false) (hw : w.getLsbD 0 = true) :
    (c.put sz (.reg g lo) v).gpr ≠ (c.put sz (.reg g lo) w).gpr := by
  intro heq
  have hbit := congrArg (fun f : Gpr → BitVec 64 => (f g).getLsbD lo) heq
  rw [getLsbD_put_lo hloc, getLsbD_put_lo hloc, hv, hw] at hbit
  cases hbit

/-- An extension of an `FS` operand relative to the next instruction. -/
theorem not_right_fsRip_extend {signed : Bool} {sources : List Size} {dst : Reg} {m : Mem}
    (hsup : unsupportedAddressing i.inst = none) (hacc : accessesNone i.inst.op = false)
    (hw : WidthSafe i) (hl : i.inst.op ≠ .lea) (hargs : i.inst.args = [.reg dst, .mem m])
    (hby : ∀ c addr, moveBy c addr i = extendBy c addr i signed sources dst (.mem m))
    (hfs : m.segment = some .fs) (hbase : m.base = some .rip) (hmeant : Meant i) :
    ¬MovesRight l i := by
  obtain ⟨c₀, c₀', hm₀⟩ := hmeant
  rw [moves, hby] at hm₀
  obtain ⟨dsz, ssz, d, e, hb, hssz, hd, he, rfl⟩ := extendBy_some.1 hm₀
  obtain ⟨g, lo, hloc, rfl⟩ := placeBy_reg.1 hd
  obtain ⟨hsz, a₀, ha₀, rfl⟩ := placeBy_mem.1 he
  refine not_right_fsRip_of hsup hacc hw hl (by simp [hargs]) (fun m' h => by simpa [hargs] using h) hfs hbase
    ha₀ oneByte hsz (fun f fl _ => ?_)
  obtain ⟨h0, h1⟩ := fsGuest_loads (i.nextPC + dispOf m) f fl ssz
  have hcode : ∀ c addr a, addr m = some a → moveBy c addr i =
      some (c.put dsz (.reg g lo) (extendTo signed (c.get ssz (.mem a)) dsz.bits)) := by
    intro c addr a haddr
    rw [hby]
    exact extendBy_some.2 ⟨dsz, ssz, _, _, hb, hssz, placeBy_reg.2 ⟨g, lo, hloc, rfl⟩,
      placeBy_mem.2 ⟨hsz, _, haddr, rfl⟩, rfl⟩
  exact ⟨_, _, fun addr haddr => hcode _ addr _ haddr, fun addr haddr => hcode _ addr _ haddr,
    .inl (gpr_ne_of_bit hloc _ ((getLsbD_extendTo signed ssz.bits_pos dsz.bits_pos _).trans h0)
      ((getLsbD_extendTo signed ssz.bits_pos dsz.bits_pos _).trans h1))⟩

/-- A load from an `FS` operand relative to the next instruction. -/
theorem not_right_fsRip_mov_load {dst : Reg} {m : Mem}
    (hsup : unsupportedAddressing i.inst = none) (hop : i.inst.op = .mov)
    (hargs : i.inst.args = [.reg dst, .mem m]) (hfs : m.segment = some .fs)
    (hbase : m.base = some .rip) (hmeant : Meant i) : ¬MovesRight l i := by
  have hby : ∀ c addr, moveBy c addr i = movBy c addr i (.reg dst) (.mem m) := by
    intro c addr
    rw [moveBy, hop, hargs]
  have hacc : accessesNone i.inst.op = false := by rw [hop]; rfl
  have hw : WidthSafe i := by
    rw [WidthSafe, hop]
    trivial
  obtain ⟨c₀, c₀', hm₀⟩ := hmeant
  rw [moves, hby] at hm₀
  obtain ⟨sz, d, v, hd, hg, hv, rfl⟩ := movBy_some.1 hm₀
  obtain ⟨g, lo, hloc, rfl⟩ := placeBy_reg.1 hd
  obtain ⟨e, he, rfl⟩ := sourceBy_place hv (fun w h => by cases h)
  obtain ⟨hsz, a₀, ha₀, rfl⟩ := placeBy_mem.1 he
  refine not_right_fsRip_of hsup hacc hw (by rw [hop]; simp) (by simp [hargs])
    (fun m' h => by simpa [hargs] using h) hfs hbase ha₀ oneByte hsz
    (fun f fl _ => ?_)
  obtain ⟨h0, h1⟩ := fsGuest_loads (i.nextPC + dispOf m) f fl sz
  have hcode : ∀ c addr a, addr m = some a → moveBy c addr i =
      some (c.put sz (.reg g lo) (c.get sz (.mem a))) := by
    intro c addr a haddr
    rw [hby]
    refine movBy_some.2 ⟨sz, _, _, placeBy_reg.2 ⟨g, lo, hloc, rfl⟩, hg, ?_, rfl⟩
    show (Cpu.placeBy addr i sz (.mem m)).map (c.get sz) = _
    rw [placeBy_mem.2 ⟨hsz, a, haddr, rfl⟩]
    rfl
  exact ⟨_, _, fun addr haddr => hcode _ addr _ haddr, fun addr haddr => hcode _ addr _ haddr,
    .inl (gpr_ne_of_bit hloc _ h0 h1)⟩

/-- A store to an `FS` operand relative to the next instruction. -/
theorem not_right_fsRip_mov_store {src : Arg} {m : Mem}
    (hsup : unsupportedAddressing i.inst = none) (hop : i.inst.op = .mov)
    (hargs : i.inst.args = [.mem m, src]) (hfs : m.segment = some .fs)
    (hbase : m.base = some .rip) (hmeant : Meant i) : ¬MovesRight l i := by
  have hby : ∀ c addr, moveBy c addr i = movBy c addr i (.mem m) src := by
    intro c addr
    rw [moveBy, hop, hargs]
  have hacc : accessesNone i.inst.op = false := by rw [hop]; rfl
  have hw : WidthSafe i := by
    rw [WidthSafe, hop]
    trivial
  obtain ⟨c₀, c₀', hm₀⟩ := hmeant
  rw [moves, hby] at hm₀
  obtain ⟨sz, d, v₀, hd, hg, hv₀, rfl⟩ := movBy_some.1 hm₀
  obtain ⟨hsz, a₀, ha₀, rfl⟩ := placeBy_mem.1 hd
  have hone : ∀ m', .mem m' ∈ i.inst.args → m' = m := by
    intro m' h
    rw [hargs] at h
    rcases List.mem_cons.1 h with h | h
    · cases h
      rfl
    · obtain rfl := List.mem_singleton.1 h
      exact absurd rfl hg
  -- the value stored in a state whose registers are all clear
  obtain ⟨v, hv⟩ : ∃ v : BitVec sz.bits, ∀ (c : Cpu) addr, (∀ g, c.gpr g = 0) →
      c.sourceBy addr i sz src = some v := by
    cases src with
    | rel w => cases hv₀
    | mem m' => exact absurd rfl hg
    | imm w => exact ⟨_, fun _ _ _ => rfl⟩
    | reg r =>
        obtain ⟨e, he, rfl⟩ := sourceBy_place hv₀ (fun w h => by cases h)
        obtain ⟨g, lo, hloc, rfl⟩ := placeBy_reg.1 he
        refine ⟨(0 : BitVec 64).extractLsb' lo sz.bits, fun c addr hzero => ?_⟩
        show (Cpu.placeBy addr i sz (.reg r)).map (c.get sz) = _
        rw [placeBy_reg.2 ⟨g, lo, hloc, rfl⟩]
        show some ((c.gpr g).extractLsb' lo sz.bits) = _
        rw [hzero]
  refine not_right_fsRip_of hsup hacc hw (by rw [hop]; simp) (by simp [hargs]) hone hfs hbase ha₀
    (fun _ => ~~~(v.setWidth 8)) hsz (fun f fl _ => ?_)
  have hcode : ∀ c addr a, addr m = some a → (∀ g, c.gpr g = 0) → moveBy c addr i =
      some (c.put sz (.mem a) v) := by
    intro c addr a haddr hzero
    rw [hby]
    exact movBy_some.2 ⟨sz, _, _, placeBy_mem.2 ⟨hsz, a, haddr, rfl⟩, hg, hv c addr hzero, rfl⟩
  exact ⟨_, _, fun addr haddr => hcode _ addr _ haddr (fsGuest_gpr _ _ f fl),
    fun addr haddr => hcode _ addr _ haddr (fsGuest_gpr _ _ f fl),
    .inr (fsGuest_stores _ _ f fl v (not_ne_self _))⟩

/-- `SETcc` to an `FS` operand relative to the next instruction. -/
theorem not_right_fsRip_setcc {cc : X86.Cond} {m : Mem}
    (hsup : unsupportedAddressing i.inst = none) (hop : i.inst.op = .setcc cc)
    (hargs : i.inst.args = [.mem m]) (hfs : m.segment = some .fs)
    (hbase : m.base = some .rip) (hmeant : Meant i) : ¬MovesRight l i := by
  have hby : ∀ c addr, moveBy c addr i = setccBy c addr i cc (.mem m) := by
    intro c addr
    rw [moveBy, hop, hargs]
  have hacc : accessesNone i.inst.op = false := by rw [hop]; rfl
  have hw : WidthSafe i := by
    rw [WidthSafe, hop]
    trivial
  obtain ⟨c₀, c₀', hm₀⟩ := hmeant
  rw [moves, hby] at hm₀
  obtain ⟨d, hd, rfl⟩ := setccBy_some.1 hm₀
  obtain ⟨hsz, a₀, ha₀, rfl⟩ := placeBy_mem.1 hd
  refine not_right_fsRip_of hsup hacc hw (by rw [hop]; simp) (by simp [hargs])
    (fun m' h => by simpa [hargs] using h) hfs hbase ha₀ (fun _ => 0xff) hsz
    (fun f fl hfl => ?_)
  have hcode : ∀ addr a, addr m = some a →
      moveBy (fsGuest (i.nextPC + dispOf m) (fun _ => 0xff) f fl) addr i =
        some ((fsGuest (i.nextPC + dispOf m) (fun _ => 0xff) f fl).put .b (.mem a) 1) := by
    intro addr a haddr
    rw [hby]
    refine setccBy_some.2 ⟨_, placeBy_mem.2 ⟨hsz, a, haddr, rfl⟩, ?_⟩
    have hholds : cc.holds (fsGuest (i.nextPC + dispOf m) (fun _ => 0xff) f fl).flags = true :=
      hfl cc (.inl hop)
    rw [hholds]
    rfl
  exact ⟨_, _, fun addr haddr => hcode addr _ haddr, fun addr haddr => hcode addr _ haddr,
    .inr (fsGuest_stores _ _ f fl (1 : BitVec Size.b.bits) (by decide))⟩

/-- `CMOVcc` from an `FS` operand relative to the next instruction. -/
theorem not_right_fsRip_cmovcc {cc : X86.Cond} {dst : Reg} {m : Mem}
    (hsup : unsupportedAddressing i.inst = none) (hop : i.inst.op = .cmovcc cc)
    (hargs : i.inst.args = [.reg dst, .mem m]) (hfs : m.segment = some .fs)
    (hbase : m.base = some .rip) (hmeant : Meant i) : ¬MovesRight l i := by
  have hby : ∀ c addr, moveBy c addr i = cmovccBy c addr i cc dst (.mem m) := by
    intro c addr
    rw [moveBy, hop, hargs]
  have hacc : accessesNone i.inst.op = false := by rw [hop]; rfl
  have hw : WidthSafe i := by
    rw [WidthSafe, hop]
    trivial
  obtain ⟨c₀, c₀', hm₀⟩ := hmeant
  rw [moves, hby] at hm₀
  obtain ⟨sz, d, e, hb, hd, he, rfl⟩ := cmovccBy_some.1 hm₀
  obtain ⟨g, lo, hloc, rfl⟩ := placeBy_reg.1 hd
  obtain ⟨hsz, a₀, ha₀, rfl⟩ := placeBy_mem.1 he
  refine not_right_fsRip_of hsup hacc hw (by rw [hop]; simp) (by simp [hargs])
    (fun m' h => by simpa [hargs] using h) hfs hbase ha₀ oneByte hsz
    (fun f fl hfl => ?_)
  obtain ⟨h0, h1⟩ := fsGuest_loads (i.nextPC + dispOf m) f fl sz
  have hcode : ∀ addr a, addr m = some a →
      moveBy (fsGuest (i.nextPC + dispOf m) oneByte f fl) addr i =
        some ((fsGuest (i.nextPC + dispOf m) oneByte f fl).put sz (.reg g lo)
          ((fsGuest (i.nextPC + dispOf m) oneByte f fl).get sz (.mem a))) := by
    intro addr a haddr
    rw [hby]
    refine cmovccBy_some.2 ⟨sz, _, _, hb, placeBy_reg.2 ⟨g, lo, hloc, rfl⟩,
      placeBy_mem.2 ⟨hsz, a, haddr, rfl⟩, ?_⟩
    have hholds : cc.holds (fsGuest (i.nextPC + dispOf m) oneByte f fl).flags = true :=
      hfl cc (.inr hop)
    rw [if_pos hholds]
  exact ⟨_, _, fun addr haddr => hcode addr _ haddr, fun addr haddr => hcode addr _ haddr,
    .inl (gpr_ne_of_bit hloc _ h0 h1)⟩

/-- `XCHG` with an `FS` operand relative to the next instruction. -/
theorem not_right_fsRip_xchg {r : Reg} {m : Mem} (hsup : unsupportedAddressing i.inst = none)
    (hop : i.inst.op = .xchg)
    (hargs : i.inst.args = [.reg r, .mem m] ∨ i.inst.args = [.mem m, .reg r])
    (hfs : m.segment = some .fs) (hbase : m.base = some .rip) (hmeant : Meant i) :
    ¬MovesRight l i := by
  have hmem : .mem m ∈ i.inst.args := by rcases hargs with h | h <;> simp [h]
  have hone : ∀ m', .mem m' ∈ i.inst.args → m' = m := by
    intro m' h
    rcases hargs with h' | h' <;> simpa [h'] using h
  have hacc : accessesNone i.inst.op = false := by rw [hop]; rfl
  have hw : WidthSafe i := by
    rw [WidthSafe, hop]
    trivial
  obtain ⟨c₀, c₀', hm₀⟩ := hmeant
  -- the operands, in either order, and what the exchange does
  obtain ⟨sz, g, lo, hloc, hsz, a₀, ha₀, hcode⟩ : ∃ sz g lo, r.loc = some (g, lo, sz) ∧
      Size.ofBytes i.inst.memBytes = some sz ∧ ∃ a₀, c₀.operandAddr i m = some a₀ ∧
      ∀ c addr a, addr m = some a → ∃ c₁, moveBy c addr i = some c₁ ∧
        c₁.mem = c.mem.store a (c.get sz (.reg g lo)) := by
    rcases hargs with hargs | hargs
    · have hby : ∀ c addr, moveBy c addr i = xchgBy c addr i (.reg r) (.mem m) := by
        intro c addr
        rw [moveBy, hop, hargs]
      rw [moves, hby] at hm₀
      obtain ⟨sz, p, q, hg, hp, hq, rfl⟩ := xchgBy_some.1 hm₀
      obtain ⟨g, lo, hloc, rfl⟩ := placeBy_reg.1 hp
      obtain ⟨hsz, a₀, ha₀, rfl⟩ := placeBy_mem.1 hq
      refine ⟨sz, g, lo, hloc, hsz, a₀, ha₀, fun c addr a haddr =>
        ⟨(c.put sz (.reg g lo) (c.get sz (.mem a))).put sz (.mem a) (c.get sz (.reg g lo)), ?_, rfl⟩⟩
      rw [hby]
      exact xchgBy_some.2 ⟨sz, _, _, hg, placeBy_reg.2 ⟨g, lo, hloc, rfl⟩,
        placeBy_mem.2 ⟨hsz, a, haddr, rfl⟩, rfl⟩
    · have hby : ∀ c addr, moveBy c addr i = xchgBy c addr i (.mem m) (.reg r) := by
        intro c addr
        rw [moveBy, hop, hargs]
      rw [moves, hby] at hm₀
      obtain ⟨sz, p, q, hg, hp, hq, rfl⟩ := xchgBy_some.1 hm₀
      obtain ⟨g, lo, hloc, rfl⟩ := placeBy_reg.1 hq
      obtain ⟨hsz, a₀, ha₀, rfl⟩ := placeBy_mem.1 hp
      refine ⟨sz, g, lo, hloc, hsz, a₀, ha₀, fun c addr a haddr =>
        ⟨(c.put sz (.mem a) (c.get sz (.reg g lo))).put sz (.reg g lo) (c.get sz (.mem a)), ?_, rfl⟩⟩
      rw [hby]
      exact xchgBy_some.2 ⟨sz, _, _, hg, placeBy_mem.2 ⟨hsz, a, haddr, rfl⟩,
        placeBy_reg.2 ⟨g, lo, hloc, rfl⟩, rfl⟩
  refine not_right_fsRip_of hsup hacc hw (by rw [hop]; simp) hmem hone hfs hbase ha₀
    (fun _ => 0xff) hsz (fun f fl _ => ?_)
  obtain ⟨c₁, h₁, hmem₁⟩ := hcode (fsGuest (i.nextPC + dispOf m) (fun _ => 0xff) f fl)
    (fun _ => some (8 + (i.nextPC + dispOf m))) _ rfl
  obtain ⟨c₂, h₂, hmem₂⟩ := hcode (fsGuest (i.nextPC + dispOf m) (fun _ => 0xff) f fl)
    (fun _ => some (i.nextPC + dispOf m)) _ rfl
  have hzero : (fsGuest (i.nextPC + dispOf m) (fun _ => 0xff) f fl).get sz (.reg g lo) =
      (0 : BitVec 64).extractLsb' lo sz.bits := by
    show ((fsGuest _ _ f fl).gpr g).extractLsb' lo sz.bits = _
    rw [fsGuest_gpr]
  refine ⟨c₁, c₂, fun addr haddr => moveBy_mono (fun m' hm' x hx => ?_) h₁,
    fun addr haddr => moveBy_mono (fun m' hm' x hx => ?_) h₂, .inr ?_⟩
  · obtain rfl := hone m' hm'
    rw [haddr, ← hx]
  · obtain rfl := hone m' hm'
    rw [haddr, ← hx]
  · rw [hmem₁, hmem₂, hzero]
    apply fsGuest_stores
    cases sz <;> rcases loc_lo hloc with rfl | ⟨rfl, -⟩ <;> decide

/-! ### the claim -/

theorem isFsRip_mem {m : Mem} (h : isFsRip (.mem m) = true) :
    m.segment = some .fs ∧ m.base = some .rip := by
  simpa [isFsRip] using h

theorem widthSafe_of_right (hsup : unsupportedAddressing i.inst = none) (hmeant : Meant i)
    (h : MovesRight l i) : WidthSafe i := by
  unfold WidthSafe
  split
  · rename_i dst src hop hargs
    by_contra hw
    exact not_right_extend_word hsup (.inl hop) hargs (Bool.not_eq_false _ ▸ hw) hmeant h
  · rename_i dst src hop hargs
    have hw : isWord dst = false := by
      by_contra hw
      exact not_right_extend_word hsup (.inr hop) hargs (Bool.not_eq_false _ ▸ hw) hmeant h
    refine ⟨hw, ?_⟩
    by_contra hh
    exact not_right_movsx_high hsup hop hargs hw (Bool.not_eq_false _ ▸ hh) hmeant h
  · rename_i dst src hop hargs
    by_contra hq
    exact not_right_movsxd hsup hop hargs (Bool.not_eq_true _ ▸ hq) hmeant h
  · trivial

/-- No operand is an `FS` one relative to the next instruction. -/
theorem isFsRip_free {args : List Arg}
    (h : ∀ m, .mem m ∈ args → m.segment = some .fs → m.base = some .rip → False) :
    ∀ a ∈ args, isFsRip a = false := by
  intro a ha
  cases a with
  | mem m =>
      rw [Bool.eq_false_iff]
      intro hfr
      obtain ⟨hfs, hbase⟩ := isFsRip_mem hfr
      exact h m ha hfs hbase
  | _ => rfl

theorem operandsSafe_of_right (hsup : unsupportedAddressing i.inst = none) (hmeant : Meant i)
    (h : MovesRight l i) : OperandsSafe i := by
  have hw := widthSafe_of_right hsup hmeant h
  obtain ⟨c, c', hm⟩ := hmeant
  have hmeant : Meant i := ⟨c, c', hm⟩
  have hacc := accesses_of_move hm
  -- the extensions share one argument
  have hextend : ∀ {signed sources dst src}, i.inst.op ≠ .lea → i.inst.args = [.reg dst, src] →
      (∀ c addr, moveBy c addr i = extendBy c addr i signed sources dst src) →
      ∀ a ∈ [.reg dst, src], isFsRip a = false := by
    intro signed sources dst src hl hargs hby
    refine isFsRip_free fun m ha hfs hbase => ?_
    obtain rfl : .mem m = src := by simpa using ha
    exact not_right_fsRip_extend hsup hacc hw hl hargs hby hfs hbase hmeant h
  unfold moves moveBy at hm
  unfold OperandsSafe
  split at hm
  case h_1 dst src hop hargs =>
    rw [hop, hargs]
    refine isFsRip_free fun m ha hfs hbase => ?_
    rcases List.mem_cons.1 ha with ha | ha
    · subst ha
      exact not_right_fsRip_mov_store hsup hop hargs hfs hbase hmeant h
    · obtain rfl := List.mem_singleton.1 ha
      obtain ⟨sz, d, v, hd, hg, -, -⟩ := movBy_some.1 hm
      cases dst with
      | imm w => cases hd
      | rel w => cases hd
      | mem m' => exact absurd rfl hg
      | reg r => exact not_right_fsRip_mov_load hsup hop hargs hfs hbase hmeant h
  case h_2 dst src hop hargs =>
    rw [hop, hargs]
    exact hextend (by rw [hop]; simp) hargs (fun c addr => by rw [moveBy, hop, hargs])
  case h_3 dst src hop hargs =>
    rw [hop, hargs]
    exact hextend (by rw [hop]; simp) hargs (fun c addr => by rw [moveBy, hop, hargs])
  case h_4 dst src hop hargs =>
    rw [hop, hargs]
    exact hextend (by rw [hop]; simp) hargs (fun c addr => by rw [moveBy, hop, hargs])
  case h_5 cc dst hop hargs =>
    rw [hop, hargs]
    refine isFsRip_free fun m ha hfs hbase => ?_
    obtain rfl : .mem m = dst := by simpa using ha
    exact not_right_fsRip_setcc hsup hop hargs hfs hbase hmeant h
  case h_6 cc dst src hop hargs =>
    rw [hop, hargs]
    refine isFsRip_free fun m ha hfs hbase => ?_
    obtain rfl : .mem m = src := by simpa using ha
    exact not_right_fsRip_cmovcc hsup hop hargs hfs hbase hmeant h
  case h_7 x y hop hargs =>
    rw [hop, hargs]
    refine isFsRip_free fun m ha hfs hbase => ?_
    obtain ⟨sz, p, q, hg, hp, hq, -⟩ := xchgBy_some.1 hm
    rcases List.mem_cons.1 ha with ha | ha
    · subst ha
      cases y with
      | imm w => cases hq
      | rel w => cases hq
      | mem m' => exact absurd rfl hg
      | reg r => exact not_right_fsRip_xchg hsup hop (.inr hargs) hfs hbase hmeant h
    · obtain rfl := List.mem_singleton.1 ha
      cases x with
      | imm w => cases hp
      | rel w => cases hp
      | mem m' => exact absurd rfl hg
      | reg r => exact not_right_fsRip_xchg hsup hop (.inl hargs) hfs hbase hmeant h
  case h_8 dst m hop hargs =>
    rw [hop, hargs]
    by_contra hno
    rw [not_or, not_not] at hno
    exact not_right_lea hsup hop hargs hno.1 hno.2 hmeant h
  case h_9 => cases hm

/-- **Partial register writes.**  A move that the lifter lowers and x86 gives a meaning changes, in
every state, exactly what x86 changes — if and only if `MOVZX` and `MOVSX` write at least 32 bits,
`MOVSX` does not read a high byte, `MOVSXD` writes 64 bits, `LEA` has no `FS` base to leave out and
no operand in memory is an `FS` one relative to the next instruction. -/
theorem liftMove_exact (hsup : unsupportedAddressing i.inst = none) (hmeant : Meant i) :
    MovesRight l i ↔ WidthSafe i ∧ OperandsSafe i :=
  ⟨fun h => ⟨widthSafe_of_right hsup hmeant h, operandsSafe_of_right hsup hmeant h⟩,
    fun h => movesRight_of_safe hsup h.1 h.2⟩

end Wrong

/-- `movzx ecx, bl`. -/
def movzxWide : Instruction where
  address := 0x400000
  inst := { op := .movzx, dataSize := 32, len := 3, args := [.reg (.l .rcx), .reg (.b .rbx)] }

/-- `movzx cx, bl`. -/
def movzxNarrow : Instruction where
  address := 0x400000
  inst := { op := .movzx, dataSize := 16, len := 4, args := [.reg (.w .rcx), .reg (.b .rbx)] }

/-- The extension to 32 bits is right. -/
theorem liftMove_exact_movzx :
    MovesRight { knownFuncs := fun _ => false } movzxWide :=
  (liftMove_exact (l := { knownFuncs := fun _ => false }) (i := movzxWide) (by decide)
    ⟨guestOf (flat 0 0), _, rfl⟩).2 ⟨rfl, by simp [OperandsSafe, movzxWide, isFsRip]⟩

/-- The extension to 16 bits is not: it clears bits 63:16 of the destination. -/
theorem movzx_clears_upper :
    ¬MovesRight { knownFuncs := fun _ => false } movzxNarrow :=
  not_right_extend_word (by decide) (.inl rfl) rfl rfl ⟨guestOf (flat 0 0), _, rfl⟩

end PS4Recomp.Lifter
