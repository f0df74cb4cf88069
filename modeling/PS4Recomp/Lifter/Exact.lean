import PS4Recomp.Arm64.DataProc
import PS4Recomp.Lifter.PartialWritesExact

/-!
# When a lowering is right

What the proofs about one family of instructions share.

* `CarryPol.Holds`, `FlagsHeld` — how the ARM carry holds `CF`, and the ARM flags those of a set;
  `FlagSet.live`: those not marked dead;
* `Lowering` — the x86 meaning of a family, its lowering, and what is to hold of the flags before and
  after; `Lowering.Right`: in every state the code ends in one that holds the guest's next state;
* `Lowering.Sound`, `Sound.right` — a lowering that is right with memory operands where the code finds
  them is right unless one is an `FS` operand relative to the next instruction;
* `hostState`, `Sound.not_right` — and not right with such an operand, when its value matters.
-/

namespace PS4Recomp.Lifter

open X86 Arm64 Library

/-! ### flags -/

/-- The ARM carry holds `CF` in the sense recorded. -/
def CarryPol.Holds (p : CarryPol) (cf c : Bool) : Prop :=
  match p with
  | .carrySub => c = !cf
  | .carryAdd => c = cf
  | .carryClear => c = false ∧ cf = false

/-- Some of the four flags the ARM flags hold. -/
structure FlagSet where
  cf : Bool
  zf : Bool
  sf : Bool
  of : Bool

/-- All four. -/
def FlagSet.all : FlagSet := ⟨true, true, true, true⟩

/-- Those not marked dead after an instruction. -/
def FlagSet.live (m : FlagSet) (i : Instruction) : FlagSet where
  cf := m.cf && !i.skipFlags && !i.carryDead
  zf := m.zf && !i.skipFlags
  sf := m.sf && !i.skipFlags
  of := m.of && !i.skipFlags && !i.overflowDead

/-- The ARM flags hold the guest flags of a set. -/
structure FlagsHeld (m : FlagSet) (p : CarryPol) (f : X86.Flags) (g : Nzcv) : Prop where
  cf : m.cf = true → p.Holds f.cf g.c
  zf : m.zf = true → g.z = f.zf
  sf : m.sf = true → g.n = f.sf
  of : m.of = true → g.v = f.of

theorem FlagsHeld.of_skip {m : FlagSet} {i : Instruction} (h : i.skipFlags = true) (p : CarryPol)
    (f : X86.Flags) (g : Nzcv) : FlagsHeld (m.live i) p f g where
  cf hm := by simp [FlagSet.live, h] at hm
  zf hm := by simp [FlagSet.live, h] at hm
  sf hm := by simp [FlagSet.live, h] at hm
  of hm := by simp [FlagSet.live, h] at hm

theorem FlagsHeld.live {m : FlagSet} {p : CarryPol} {f : X86.Flags} {g : Nzcv}
    (h : FlagsHeld m p f g) (i : Instruction) : FlagsHeld (m.live i) p f g where
  cf hm := h.cf (by simp only [FlagSet.live, Bool.and_eq_true] at hm; exact hm.1.1)
  zf hm := h.zf (by simp only [FlagSet.live, Bool.and_eq_true] at hm; exact hm.1)
  sf hm := h.sf (by simp only [FlagSet.live, Bool.and_eq_true] at hm; exact hm.1)
  of hm := h.of (by simp only [FlagSet.live, Bool.and_eq_true] at hm; exact hm.1.1)

/-! ### values -/

theorem cut_back {n : ℕ} (h : n ≤ 64) (v : BitVec n) : (v.setWidth 64).setWidth n = v := by
  rw [BitVec.setWidth_setWidth_of_le _ h, BitVec.setWidth_eq]

theorem toNat_extend {n : ℕ} (hn : n ≤ 32) (v : BitVec n) :
    ((v.setWidth 64).setWidth 32).toNat = v.toNat := by
  have hlt := v.isLt
  have hle : 2 ^ n ≤ 2 ^ 32 := Nat.pow_le_pow_right (by decide) hn
  rw [BitVec.toNat_setWidth, BitVec.toNat_setWidth]
  omega

theorem extend_eq {n m : ℕ} {a : BitVec n} {b : BitVec m} (h : a.toNat = b.toNat) :
    a.setWidth 64 = b.setWidth 64 := by
  apply BitVec.eq_of_toNat_eq
  rw [BitVec.toNat_setWidth, BitVec.toNat_setWidth, h]

theorem extend_twice {n : ℕ} (hn : n ≤ 32) (v : BitVec n) :
    (v.setWidth 32).setWidth 64 = v.setWidth 64 := by
  have hlt := v.isLt
  have hle : 2 ^ n ≤ 2 ^ 32 := Nat.pow_le_pow_right (by decide) hn
  apply extend_eq
  rw [BitVec.toNat_setWidth]
  omega

theorem extend_eq_zero {n m : ℕ} (h : n ≤ m) (v : BitVec n) : (v.setWidth m == 0) = (v == 0) := by
  have hlt : v.toNat < 2 ^ m := lt_of_lt_of_le v.isLt (Nat.pow_le_pow_right (by decide) h)
  rw [Bool.eq_iff_iff, beq_iff_eq, beq_iff_eq]
  constructor
  · intro h0
    apply BitVec.eq_of_toNat_eq
    have hnat := congrArg BitVec.toNat h0
    rw [BitVec.toNat_setWidth, Nat.mod_eq_of_lt hlt] at hnat
    exact hnat.trans (BitVec.toNat_zero.trans BitVec.toNat_zero.symm)
  · rintro rfl
    exact BitVec.setWidth_zero _ _

theorem extract_insertBits {lo w : ℕ} (h : lo + w ≤ 64) (x : BitVec 64) (v : BitVec w) :
    (insertBits lo w x v).extractLsb' lo w = v := by
  apply BitVec.eq_of_getLsbD_eq
  intro k hk
  rw [BitVec.getLsbD_extractLsb', decide_eq_true hk, Bool.true_and,
    getLsbD_insertBits _ _ _ _ (by omega), if_pos ⟨by omega, by omega⟩, Nat.add_sub_cancel_left]

theorem get_put_self {r : Reg} {g : Gpr} {lo : ℕ} {sz : Size} (hloc : r.loc = some (g, lo, sz))
    (c : Cpu) (v : BitVec sz.bits) : (c.put sz (.reg g lo) v).get sz (.reg g lo) = v := by
  show (Function.update c.gpr g (regWrite sz lo (c.gpr g) v) g).extractLsb' lo sz.bits = v
  rw [Function.update_self]
  have hwide : ∀ (w : ℕ) (v : BitVec w), w ≤ 64 → (v.setWidth 64).extractLsb' 0 w = v := by
    intro w v hw
    rw [← BitVec.setWidth_eq_extractLsb' hw, cut_back hw]
  cases r <;> cases hloc
  case b => exact extract_insertBits (by decide) _ _
  case h => exact extract_insertBits (by decide) _ _
  case w => exact extract_insertBits (by decide) _ _
  case l => exact hwide 32 v (by decide)
  case q => exact hwide 64 v (by decide)

section Values

variable {c : Cpu} {s : State}

theorem getW_of_get {r : XReg} {n : ℕ} {v : BitVec n} (h : s.get r = v.setWidth 64) (sf : Width) :
    s.getW sf r = v.setWidth sf.bits := by
  rw [State.getW, h]
  cases sf
  · exact BitVec.setWidth_setWidth_of_le _ (by decide)
  · exact BitVec.setWidth_eq _

theorem rep_setW {r : XReg} (hr : r ∈ scratch) {sf : Width} {v : BitVec sf.bits} :
    Rep c (s.setW sf r v) ↔ Rep c s := by
  constructor
  · intro h
    have hset := h.set_scratch hr (s.get r)
    rw [State.setW, State.set_set] at hset
    refine ⟨fun g => ?_, ?_, ?_⟩
    · rw [← hset.gpr g, State.get_set_ne (pin_ne_scratch g hr)]
    · rw [← hset.fs, State.get_set_ne (fs_ne_scratch hr)]
    · rw [← hset.mem, State.get_set_ne (base_ne_scratch hr), State.set_mem]
  · exact fun h => h.set_scratch hr _

end Values

/-! ### operands -/

/-- The code finds an operand where the processor does, unless it is an `FS` one relative to the next
instruction. -/
theorem codeOperand_of_ea {i : Instruction} {c : Cpu} {s : State} (hrep : Rep c s)
    (hsup : unsupportedAddressing i.inst = none) (hop : accessesNone i.inst.op = false) {m : Mem}
    (hmem : .mem m ∈ i.inst.args) (hfr : isFsRip (.mem m) = false) {a : Addr}
    (ha : m.ea c i = some a) : codeOperand i s m = some a := by
  obtain ⟨h32, hgs⟩ := supported_mem hop hsup hmem
  obtain ⟨o, ho, -⟩ := Option.map_eq_some_iff.1 ha
  have hform := addressable_of_offset h32 ho
  have hno : ¬(m.segment = some .fs ∧ m.base = some .rip) := by
    rintro ⟨hseg, hbase⟩
    simp [isFsRip, hseg, hbase] at hfr
  rw [codeOperand, if_pos hform, ← ha]
  exact (ea_eq_codeAddr hrep h32 hgs hform hno).symm

/-- One operand found at an address. -/
def onlyAt (m : Mem) (a : Addr) (m' : Mem) : Option Addr := if m' = m then some a else none

theorem written {c : Cpu} {s : State} {r : Reg} {g : Gpr} {lo : ℕ} {sz : Size}
    (hloc : r.loc = some (g, lo, sz)) (hrep : Rep c s) {x : XReg} {v : BitVec sz.bits}
    (hv : (s.get x).setWidth sz.bits = v) :
    ∃ s', Piece ((writeRegFrom r x).getD []) s s' ∧ Rep (c.put sz (.reg g lo) v) s' ∧
      s'.flags = s.flags := by
  obtain ⟨is, his, hpiece⟩ := writeRegFrom_piece hloc x
  rw [his, ← hv]
  exact ⟨_, hpiece s, hrep.put g lo sz _, State.set_flags _ _ _⟩

theorem lo_eq_zero {r : Reg} {g : Gpr} {lo : ℕ} {sz : Size} (hloc : r.loc = some (g, lo, sz))
    (hb : sz ≠ .b) : lo = 0 := by
  rcases loc_lo hloc with h0 | ⟨-, hbyte⟩
  · exact h0
  · exact absurd hbyte hb

/-! ### lowerings -/

/-- A family of instructions and its lowering. -/
structure Lowering where
  /-- The meaning of an instruction whose memory operands lie at given addresses. -/
  means : Cpu → (Mem → Option Addr) → Instruction → Option Cpu
  lift : Arm64Lifter → Instruction → Code × Arm64Lifter
  /-- What holds of the flags before. -/
  pre : Arm64Lifter → Instruction → Cpu → State → Prop
  /-- What is to hold of them after, for the lifter as the lowering leaves it. -/
  post : Arm64Lifter → Instruction → Cpu → State → Prop

namespace Lowering

variable (F : Lowering)

/-- The code ends in a state that holds the guest state `c'`. -/
def Reaches (l : Arm64Lifter) (i : Instruction) (s : State) (c' : Cpu) : Prop :=
  ∃ s', Ends (F.lift l i).1 s s' ∧ Rep c' s' ∧ F.post (F.lift l i).2 i c' s'

/-- In every state the code ends in one that holds the guest's next state. -/
def Right (l : Arm64Lifter) (i : Instruction) : Prop :=
  ∀ c s c', Rep c s → F.pre l i c s → F.means c (fun m => m.ea c i) i = some c' → F.Reaches l i s c'

/-- A lowering that is right with memory operands where the code finds them. -/
structure Sound : Prop where
  access : ∀ {c addr i c'}, F.means c addr i = some c' → accessesNone i.inst.op = false
  mono : ∀ {c addr addr' i c'},
    (∀ m, .mem m ∈ i.inst.args → ∀ a, addr m = some a → addr' m = some a) →
    F.means c addr i = some c' → F.means c addr' i = some c'
  sim : ∀ {l i c s c'}, unsupportedAddressing i.inst = none → Rep c s → F.pre l i c s →
    F.means c (codeOperand i s) i = some c' → F.Reaches l i s c'

variable {F} {l : Arm64Lifter} {i : Instruction}

theorem Sound.right (h : F.Sound) (hsup : unsupportedAddressing i.inst = none)
    (hsafe : ∀ a ∈ i.inst.args, isFsRip a = false) : F.Right l i := by
  intro c s c' hrep hpre hm
  refine h.sim hsup hrep hpre (h.mono (fun m hmem a ha => ?_) hm)
  exact codeOperand_of_ea hrep hsup (h.access hm) hmem (hsafe _ hmem) ha

end Lowering

/-! ### a state that tells the two addresses apart -/

/-- A processor whose `FS` base is 8, where the guest address `a` is host address 0, with `v` in `RAX`
and `w` in the other guest registers. -/
def hostState (v w : BitVec 64) (a : Addr) (hm : ByteMem) (f : Nzcv) : State where
  x := fun r => if r = 27 then 8 else if r = 28 then -a else if r = 19 then v else w
  sp := 0
  flags := f
  mem := hm
  fails := 0

/-- Its guest. -/
def hostGuest (v w : BitVec 64) (a : Addr) (hm : ByteMem) (f : Nzcv) (g : X86.Flags) : Cpu :=
  { guestOf (hostState v w a hm f) with flags := g }

section Host

variable (v w : BitVec 64) (a : Addr) (hm : ByteMem) (f : Nzcv) (fl : X86.Flags)

theorem rep_hostGuest : Rep (hostGuest v w a hm f fl) (hostState v w a hm f) :=
  (rep_guestOf _).guestFlags fl

theorem hostGuest_rax : (hostGuest v w a hm f fl).gpr .rax = v := rfl

theorem hostGuest_gpr {g : Gpr} (hg : g ≠ .rax) : (hostGuest v w a hm f fl).gpr g = w := by
  show (if pin g = 31 then 0 else if pin g = 27 then (8 : BitVec 64) else
    if pin g = 28 then -a else if pin g = 19 then v else w) = w
  rw [if_neg (pin_ne_zr g), if_neg (pin_ne_fs g), if_neg (pin_ne_base g),
    if_neg (fun h => hg (pin_injective (h.trans (rfl : (19 : XReg) = pin .rax))))]

theorem hostGuest_const (g : Gpr) : (hostGuest v v a hm f fl).gpr g = v := by
  by_cases hg : g = .rax
  · rw [hg, hostGuest_rax]
  · exact hostGuest_gpr v v a hm f fl hg

theorem hostGuest_load (n : ℕ) : (hostGuest v w a hm f fl).mem.load n a = hm.load n 0 := by
  show (hm.view (-a)).load n a = _
  rw [ByteMem.load_view, neg_add_cancel]

theorem hostGuest_load_fs (n : ℕ) : (hostGuest v w a hm f fl).mem.load n (8 + a) = hm.load n 8 := by
  show (hm.view (-a)).load n (8 + a) = _
  rw [ByteMem.load_view, add_comm (8 : BitVec 64), neg_add_cancel_left]

end Host

theorem oneByte_load (sz : Size) : oneByte.load sz.bits 0 = 1 ∧ oneByte.load sz.bits 8 = 0 := by
  cases sz <;> decide

/-- Where the code finds an `FS` operand relative to the next instruction. -/
theorem codeOperand_fsRip {i : Instruction} {m : Mem} (hform : Addressable m)
    (hfs : isFsRip (.mem m) = true) (s : State) :
    codeOperand i s m = some (i.nextPC + dispOf m) := by
  rw [codeOperand, if_pos hform, codeAddr, if_pos (.inl (isFsRip_mem hfs).2)]

theorem ea_fsRip {i : Instruction} {m : Mem} (h32 : i.inst.addrSize ≠ 32) (hform : Addressable m)
    (hfs : isFsRip (.mem m) = true) (v w : BitVec 64) (a : Addr) (hm : ByteMem) (f : Nzcv)
    (fl : X86.Flags) :
    m.ea (hostGuest v w a hm f fl) i = some (8 + (i.nextPC + dispOf m)) := by
  rw [ea_rip h32 (ripRelative_of hform (.inl (isFsRip_mem hfs).2)), (isFsRip_mem hfs).1]
  rfl

/-- An operand the processor finds has one of the forms of 64-bit addressing. -/
theorem addressable_of_ea {i : Instruction} {c : Cpu} {m : Mem} {a : Addr}
    (h32 : i.inst.addrSize ≠ 32) (ha : m.ea c i = some a) : Addressable m := by
  obtain ⟨o, ho, -⟩ := Option.map_eq_some_iff.1 ha
  exact addressable_of_offset h32 ho

/-- Only a memory operand is an `FS` one relative to the next instruction. -/
theorem mem_of_fsRip {a : Arg} (h : isFsRip a = true) : ∃ m, a = .mem m := by
  cases a with
  | mem m => exact ⟨m, rfl⟩
  | _ => cases h

/-- **An `FS` operand relative to the next instruction** whose value matters. -/
theorem Lowering.Sound.not_right {F : Lowering} (h : F.Sound) {l : Arm64Lifter} {i : Instruction}
    (hsup : unsupportedAddressing i.inst = none) (hop : accessesNone i.inst.op = false) {m : Mem}
    (hmem : .mem m ∈ i.inst.args) (hform : Addressable m) (hfs : isFsRip (.mem m) = true)
    {v w : BitVec 64} {hm : ByteMem} {f : Nzcv} {fl : X86.Flags} {c₁ c₂ : Cpu}
    (hpre : F.pre l i (hostGuest v w (i.nextPC + dispOf m) hm f fl)
      (hostState v w (i.nextPC + dispOf m) hm f))
    (h₁ : F.means (hostGuest v w (i.nextPC + dispOf m) hm f fl)
      (onlyAt m (8 + (i.nextPC + dispOf m))) i = some c₁)
    (h₂ : F.means (hostGuest v w (i.nextPC + dispOf m) hm f fl)
      (onlyAt m (i.nextPC + dispOf m)) i = some c₂)
    (hne : c₁.gpr ≠ c₂.gpr ∨ c₁.mem ≠ c₂.mem) : ¬F.Right l i := by
  intro hright
  have h32 := (supported_mem hop hsup hmem).1
  have hrep := rep_hostGuest v w (i.nextPC + dispOf m) hm f fl
  have hx86 : ∀ m' x, onlyAt m (8 + (i.nextPC + dispOf m)) m' = some x →
      m'.ea (hostGuest v w (i.nextPC + dispOf m) hm f fl) i = some x := by
    intro m' x hx
    unfold onlyAt at hx
    split at hx
    · rename_i heq
      rw [heq, ea_fsRip h32 hform hfs, hx]
    · cases hx
  have hcode : ∀ m' x, onlyAt m (i.nextPC + dispOf m) m' = some x →
      codeOperand i (hostState v w (i.nextPC + dispOf m) hm f) m' = some x := by
    intro m' x hx
    unfold onlyAt at hx
    split at hx
    · rename_i heq
      rw [heq, codeOperand_fsRip hform hfs, hx]
    · cases hx
  obtain ⟨s₁, hends₁, hrep₁, -⟩ :=
    hright _ _ c₁ hrep hpre (h.mono (fun m' _ x hx => hx86 m' x hx) h₁)
  obtain ⟨s₂, hends₂, hrep₂, -⟩ :=
    h.sim hsup hrep hpre (h.mono (fun m' _ x hx => hcode m' x hx) h₂)
  obtain rfl := hends₁.unique hends₂
  obtain ⟨hg, hmm⟩ := hrep₁.agree hrep₂
  rcases hne with hne | hne
  · exact hne hg
  · exact hne hmm

end PS4Recomp.Lifter
