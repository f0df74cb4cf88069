import PS4Recomp.Lifter.Guest

/-!
# Effective addresses

`computeEffAddr` against the address of the x86 operand.

* `AddressIn` — a register holds an address, and nothing but it and the scratch register changed;
* `Addressable` — the operands of 64-bit addressing;
* `baseIndex_spec`, `addDisp_spec`, `fsDisp_spec` — the steps of `computeEffAddr`;
* `AddrSafe` — the operand is not an `FS` one relative to the next instruction, and the target is
  not the index register of an operand with another base;
* `codeAddr`, `computeEffAddr_spec` — the address left in a scratch register;
* `computeEffAddr_exact` — the code leaves the address for every state exactly under `AddrSafe`.
-/

namespace PS4Recomp.Lifter

open X86 Arm64 Library

/-- The scratch register of step 5. -/
def addrScratch (t : XReg) : XReg := if t = 7 then 6 else 7

/-- `t` holds the address; nothing but `t` and the scratch register of step 5 changed. -/
structure AddressIn (t : XReg) (a : Addr) (s s' : State) : Prop where
  target : s'.get t = a
  regs : ∀ r, r ≠ t → r ≠ addrScratch t → s'.get r = s.get r
  flags : s'.flags = s.flags
  mem : s'.mem = s.mem
  sp : s'.sp = s.sp

namespace AddressIn

variable {t : XReg} {a b : Addr} {s s' s'' : State}

theorem trans (h : AddressIn t a s s') (h' : AddressIn t b s' s'') : AddressIn t b s s'' where
  target := h'.target
  regs r ht hx := (h'.regs r ht hx).trans (h.regs r ht hx)
  flags := h'.flags.trans h.flags
  mem := h'.mem.trans h.mem
  sp := h'.sp.trans h.sp

theorem set (ht : t ≠ 31) (s : State) (v : BitVec 64) : AddressIn t v s (s.set t v) where
  target := State.get_set_self ht
  regs _ hr _ := State.get_set_ne hr
  flags := State.set_flags s t v
  mem := State.set_mem s t v
  sp := State.set_sp s t v

end AddressIn

/-! ### operands -/

/-- A register of 64-bit addressing, or none. -/
def isGpr64 : Option Reg → Bool
  | none | some (.q _) => true
  | _ => false

/-- The memory references of 64-bit addressing. -/
def Addressable (m : Mem) : Prop :=
  (m.base = some .rip ∧ m.index = none ∨ isGpr64 m.base) ∧
    (m.index = none ∨ isGpr64 m.index ∧ m.scale ∈ [1, 2, 4, 8])

instance (m : Mem) : Decidable (Addressable m) := inferInstanceAs (Decidable (_ ∧ _))

/-- The value of a register of an address. -/
def regVal (s : State) : Option Reg → BitVec 64
  | some (.q g) => s.get (pin g)
  | _ => 0

/-- The index, scaled. -/
def indexVal (s : State) (m : Mem) : BitVec 64 :=
  match m.index with
  | some _ => regVal s m.index * BitVec.ofNat 64 m.scale
  | none => 0

/-- The target is not the index register of an operand with another base. -/
def NoClobber (m : Mem) (t : XReg) : Prop :=
  ∀ b x, m.base = some (.q b) → m.index = some (.q x) → t = pin x → b = x

theorem shiftLeft_scale (v : BitVec 64) {k : ℕ} (hk : k ∈ [1, 2, 4, 8]) :
    v <<< scaleShift k = v * BitVec.ofNat 64 k := by
  rw [BitVec.shiftLeft_eq_mul_twoPow]
  congr 1
  simp only [List.mem_cons, List.not_mem_nil, or_false] at hk
  rcases hk with rfl | rfl | rfl | rfl <;> rfl

/-! ### the steps -/

theorem exec_movX (rd rm : XReg) (s : State) :
    (Instr.mov .x rd rm : Instr Label).exec s = s.set rd (s.get rm) := by
  show s.set rd (BitVec.setWidth 64 ((s.get rm).setWidth 64)) = _
  rw [BitVec.setWidth_eq, BitVec.setWidth_eq]

theorem exec_lslX (rd rn : XReg) (k : ℕ) (s : State) :
    (Instr.shift .lsl .x rd rn k : Instr Label).exec s = s.set rd (s.get rn <<< k) := by
  show s.set rd (BitVec.setWidth 64 ((s.get rn).setWidth 64 <<< k)) = _
  rw [BitVec.setWidth_eq, BitVec.setWidth_eq]

/-- An addition of a shifted 64-bit register that sets no flags. -/
theorem exec_addXLsl (rd rn rm : XReg) (k : ℕ) (s : State) :
    (Instr.addSub .add false .x rd rn (.reg rm k) : Instr Label).exec s =
      s.set rd (s.get rn + s.get rm <<< k) := by
  rw [exec_add]
  show ({ s.set rd (BitVec.setWidth 64 ((s.get rn).setWidth 64 + (s.get rm).setWidth 64 <<< k)) with
    flags := s.flags } : State) = _
  rw [BitVec.setWidth_eq, BitVec.setWidth_eq, BitVec.setWidth_eq, State.set_flags_self]

theorem isGpr64_cases {r : Option Reg} (h : isGpr64 r = true) :
    r = none ∨ ∃ g, r = some (.q g) := by
  unfold isGpr64 at h
  split at h
  · exact .inl rfl
  · exact .inr ⟨_, rfl⟩
  · cases h

theorem baseIndex_spec {m : Mem} {t : XReg} (ht : t ≠ 31) (hb : isGpr64 m.base = true)
    (hx : m.index = none ∨ isGpr64 m.index ∧ m.scale ∈ [1, 2, 4, 8]) (hsafe : NoClobber m t)
    (s : State) : execs (baseIndex m t) s = s.set t (regVal s m.base + indexVal s m) := by
  obtain ⟨seg, base, scale, index, disp⟩ := m
  dsimp only at hb hx
  have hx' : index = none ∨ ∃ x, index = some (.q x) ∧ scale ∈ [1, 2, 4, 8] := by
    rcases hx with hnone | ⟨hq, hscale⟩
    · exact .inl hnone
    · exact (isGpr64_cases hq).imp id fun ⟨x, hx⟩ => ⟨x, hx, hscale⟩
  obtain rfl | ⟨b, rfl⟩ := isGpr64_cases hb
  · obtain rfl | ⟨x, rfl, hscale⟩ := hx'
    · rfl
    · have hval : (0 : BitVec 64) + s.get (pin x) * BitVec.ofNat 64 scale =
          s.get (pin x) <<< scaleShift scale := by
        rw [zero_add, shiftLeft_scale _ hscale]
      show execs (if 0 < scaleShift scale then
        [.shift .lsl .x t (pin x) (scaleShift scale)] else [.mov .x t (pin x)]) s =
          s.set t (0 + s.get (pin x) * BitVec.ofNat 64 scale)
      rw [hval]
      split
      · rw [execs_cons, execs_nil, exec_lslX]
      · rename_i h0
        have hz : scaleShift scale = 0 := by omega
        rw [execs_cons, execs_nil, exec_movX, hz, BitVec.shiftLeft_zero]
  · obtain rfl | ⟨x, rfl, hscale⟩ := hx'
    · show (Instr.mov .x t (pin b) : Instr Label).exec s = s.set t (s.get (pin b) + 0)
      rw [exec_movX, add_zero]
    · -- the index is read after the target was written
      have hidx : (s.set t (s.get (pin b))).get (pin x) = s.get (pin x) := by
        by_cases htx : t = pin x
        · obtain rfl := hsafe b x rfl rfl htx
          rw [htx, State.get_set_self (pin_ne_zr b)]
        · exact State.get_set_ne (fun h => htx h.symm)
      show execs [.mov .x t (pin b), .addSub .add false .x t t (.reg (pin x) (scaleShift scale))] s =
        s.set t (s.get (pin b) + s.get (pin x) * BitVec.ofNat 64 scale)
      rw [execs_cons, execs_cons, execs_nil, exec_movX, exec_addXLsl, hidx, State.get_set_self ht,
        State.set_set, shiftLeft_scale _ hscale]

theorem addrScratch_ne (t : XReg) : addrScratch t ≠ t ∧ addrScratch t ≠ 31 ∧
    addrScratch t ≠ 27 := by
  unfold addrScratch
  split
  · rename_i h
    subst h
    decide
  · rename_i h
    exact ⟨fun he => h he.symm, by decide, by decide⟩

theorem addressIn_scratch {t : XReg} (ht : t ≠ 31) (s : State) (v : BitVec 64) :
    AddressIn t (s.get t + v) s
      (execs (loadImm64 (addrScratch t) v ++
        [.addSub .add false .x t t (.reg (addrScratch t) 0)]) s) := by
  obtain ⟨hne, h31, -⟩ := addrScratch_ne t
  rw [execs_append, execs_loadImm64 h31, execs_cons, execs_nil, exec_addX,
    State.get_set_self h31, State.get_set_ne hne.symm]
  exact
    { target := State.get_set_self ht
      regs := fun r hrt hrx => by rw [State.get_set_ne hrt, State.get_set_ne hrx]
      flags := by rw [State.set_flags, State.set_flags]
      mem := by rw [State.set_mem, State.set_mem]
      sp := by rw [State.set_sp, State.set_sp] }

theorem addDisp_spec {t : XReg} (ht : t ≠ 31) (disp : BitVec 64) (s : State) :
    AddressIn t (s.get t + disp) s (execs (addDisp t disp) s) := by
  unfold addDisp
  split
  · rename_i h0
    subst h0
    rw [add_zero]
    exact ⟨rfl, fun _ _ _ => rfl, rfl, rfl, rfl⟩
  · split
    · rw [execs_cons, execs_nil, exec_addXImm]
      exact .set ht s _
    · split
      · rw [execs_cons, execs_nil, exec_subXImm, sub_neg_eq_add]
        exact .set ht s _
      · exact addressIn_scratch ht s disp

theorem fsDisp_spec {t : XReg} (ht : t ≠ 31) (h27 : t ≠ 27) (disp : BitVec 64) (s : State) :
    AddressIn t (s.get 27 + disp) s (execs (fsDisp t disp) s) := by
  unfold fsDisp
  split
  · rename_i h0
    subst h0
    rw [add_zero, execs_cons, execs_nil, exec_movX]
    exact .set ht s _
  · split
    · rw [execs_cons, execs_nil, exec_addXImm]
      exact .set ht s _
    · split
      · rw [execs_cons, execs_nil, exec_subXImm, sub_neg_eq_add]
        exact .set ht s _
      · rw [execs_append, execs_loadImm64 ht, execs_cons, execs_nil, exec_addX,
          State.get_set_self ht, State.get_set_ne h27.symm, State.set_set]
        exact .set ht s _

/-! ### the code neither branches nor faults -/

theorem plain_loadChunks (reg : XReg) (val : BitVec 64) (lsls : List ℕ) : ∀ first,
    ∀ i ∈ loadChunks reg val lsls first, i.plain = true := by
  induction lsls with
  | nil => intro first i h; cases h
  | cons lsl lsls ih =>
      intro first i h
      simp only [loadChunks] at h
      split at h
      · rcases List.mem_cons.1 h with rfl | h
        · cases first <;> rfl
        · exact ih false i h
      · exact ih first i h

theorem plain_loadImm64 (reg : XReg) (val : BitVec 64) :
    ∀ i ∈ loadImm64 reg val, i.plain = true := by
  intro i h
  unfold loadImm64 at h
  split at h
  · obtain rfl := List.mem_singleton.1 h
    rfl
  · split at h
    · obtain rfl := List.mem_singleton.1 h
      rfl
    · exact plain_loadChunks reg val _ _ i h

theorem plain_append {is js : Asm} (hi : ∀ i ∈ is, i.plain = true) (hj : ∀ i ∈ js, i.plain = true) :
    ∀ i ∈ is ++ js, i.plain = true := by
  intro i h
  rcases List.mem_append.1 h with h | h
  · exact hi i h
  · exact hj i h

theorem plain_one {j : Instr Label} (hj : j.plain = true) : ∀ i ∈ [j], i.plain = true := by
  intro i h
  obtain rfl := List.mem_singleton.1 h
  exact hj

theorem plain_baseIndex (m : Mem) (t : XReg) : ∀ i ∈ baseIndex m t, i.plain = true := by
  unfold baseIndex
  dsimp only
  split
  · exact plain_one rfl
  · exact plain_one rfl
  · split
    · exact plain_one rfl
    · exact plain_one rfl
  · exact plain_append (plain_one rfl) (plain_one rfl)

theorem plain_addDisp (t : XReg) (disp : BitVec 64) : ∀ i ∈ addDisp t disp, i.plain = true := by
  unfold addDisp
  split
  · intro i h
    cases h
  · split
    · exact plain_one rfl
    · split
      · exact plain_one rfl
      · exact plain_append (plain_loadImm64 _ _) (plain_one rfl)

theorem plain_computeEffAddr (m : Mem) (nextPC : Addr) (t : XReg) :
    ∀ i ∈ computeEffAddr m nextPC t, i.plain = true := by
  unfold computeEffAddr
  dsimp only
  split
  · exact plain_loadImm64 _ _
  · split
    · split
      · exact plain_append (plain_append (plain_baseIndex m t) (plain_addDisp t _)) (plain_one rfl)
      · unfold fsDisp
        split
        · exact plain_one rfl
        · split
          · exact plain_one rfl
          · split
            · exact plain_one rfl
            · exact plain_append (plain_loadImm64 _ _) (plain_one rfl)
    · exact plain_append (plain_baseIndex m t) (plain_addDisp t _)

/-! ### the address -/

/-- The operations `unsupportedAddressing` exempts: they access no memory. -/
def accessesNone : Op → Bool
  | .nop | .prefetcht0 | .prefetchnta | .prefetcht1 | .prefetcht2 | .prefetchw => true
  | _ => false

theorem supported_mem {inst : Inst} (hop : accessesNone inst.op = false)
    (hsup : unsupportedAddressing inst = none) {m : Mem} (hm : .mem m ∈ inst.args) :
    inst.addrSize ≠ 32 ∧ m.segment ≠ some .gs := by
  have hall := hsup
  unfold unsupportedAddressing at hall
  split at hall
  case h_7 =>
    have harg := List.findSome?_eq_none_iff.1 hall (.mem m) hm
    dsimp only at harg
    split at harg
    · cases harg
    · rename_i h32
      split at harg
      · cases harg
      · split at harg
        · cases harg
        · rename_i hgs
          exact ⟨h32, hgs⟩
  all_goals
    rename_i heq
    rw [heq] at hop
    cases hop

/-- The guest a host state holds, with flags of its own. -/
def guestOf (s : State) : Cpu where
  gpr g := s.get (pin g)
  mem := s.mem.view (s.get 28)
  fsBase := s.get 27
  gsBase := 0
  flags := { cf := false, pf := false, af := false, zf := false, sf := false, of := false }

theorem rep_guestOf (s : State) : Rep (guestOf s) s := ⟨fun _ => rfl, rfl, rfl⟩

theorem addrReg_eq {c : Cpu} {s : State} (hrep : Rep c s) {i : Instruction}
    (h32 : i.inst.addrSize ≠ 32) {r : Option Reg} (hr : isGpr64 r = true) :
    c.addrReg i r = some (regVal s r) := by
  obtain rfl | ⟨g, rfl⟩ := isGpr64_cases hr
  · rfl
  · show (if i.inst.addrSize = 32 then none else some (c.gpr g)) = some (s.get (pin g))
    rw [if_neg h32, hrep.gpr]

theorem offset_eq {c : Cpu} {s : State} (hrep : Rep c s) {i : Instruction}
    (h32 : i.inst.addrSize ≠ 32) {m : Mem} (hrip : m.ripRelative = false)
    (hb : isGpr64 m.base = true) (hx : m.index = none ∨ isGpr64 m.index ∧ m.scale ∈ [1, 2, 4, 8]) :
    m.offset c i = some (regVal s m.base + indexVal s m + dispOf m) := by
  have hxq : isGpr64 m.index = true := by
    rcases hx with hnone | ⟨hq, -⟩
    · rw [hnone]
      rfl
    · exact hq
  have hmul : regVal s m.index * BitVec.ofNat 64 m.scale = indexVal s m := by
    unfold indexVal
    obtain hnone | ⟨x, hxs⟩ := isGpr64_cases hxq
    · rw [hnone]
      exact zero_mul _
    · rw [hxs]
  have hscale : m.index = none ∨ m.scale ∈ [1, 2, 4, 8] := hx.imp id And.right
  unfold Mem.offset
  rw [hrip, addrReg_eq hrep h32 hb, addrReg_eq hrep h32 hxq]
  simp only [Bool.false_eq_true, if_false, Option.bind_eq_bind, Option.bind_some, if_pos hscale, hmul]
  rfl

/-- The address is the offset from the base of the segment. -/
theorem ea_of_offset {c : Cpu} {i : Instruction} (h32 : i.inst.addrSize ≠ 32) {m : Mem}
    {a : Addr} (h : m.offset c i = some a) : m.ea c i = some (c.segBase m.segment + a) := by
  rw [Mem.ea, h]
  simp only [Option.map_some, if_neg h32]

theorem ea_rip {c : Cpu} {i : Instruction} (h32 : i.inst.addrSize ≠ 32) {m : Mem}
    (hrip : m.ripRelative = true) :
    m.ea c i = some (c.segBase m.segment + (i.nextPC + dispOf m)) := by
  apply ea_of_offset h32
  rw [Mem.offset, if_pos hrip]
  rfl

theorem segBase_zero (c : Cpu) {sg : Option Seg} (hfs : sg ≠ some .fs) (hgs : sg ≠ some .gs) :
    c.segBase sg = 0 := by
  unfold Cpu.segBase
  split
  · exact absurd rfl hfs
  · exact absurd rfl hgs
  · rfl

/-! ### the code leaves the address -/

/-- For every guest and host state the code leaves the address of the operand in `t`. -/
def LeavesAddress (i : Instruction) (m : Mem) (t : XReg) : Prop :=
  ∀ (c : Cpu) (s : State), Rep c s → ∃ a, m.ea c i = some a ∧
    Clear (computeEffAddr m i.nextPC t) s ∧
    AddressIn t a s (execs (computeEffAddr m i.nextPC t) s)

/-- The operand is not an `FS` one relative to the next instruction, and the target is not the
index register of an operand with another base. -/
structure AddrSafe (m : Mem) (t : XReg) : Prop where
  not_fsRip : ¬(m.segment = some .fs ∧ m.base = some .rip)
  noClobber : NoClobber m t

section Address

variable {i : Instruction} {m : Mem} {t : XReg} {c : Cpu} {s : State}

theorem ripRelative_of (hform : Addressable m) (hrip : m.base = some .rip ∨
    (m.segment = none ∧ m.base = none ∧ m.index = none ∧ m.scale = 0)) :
    m.ripRelative = true := by
  unfold Mem.ripRelative
  rcases hrip with hbase | ⟨hseg, hbase, hidx, hscale⟩
  · have hidx : m.index = none := by
      rcases hform.1 with ⟨-, hnone⟩ | hq
      · exact hnone
      · rw [hbase] at hq
        cases hq
    rw [hbase, hidx]
    rfl
  · rw [hseg, hbase, hidx, hscale]
    rfl

theorem not_ripRelative_of (hrip : ¬(m.base = some .rip ∨
    (m.segment = none ∧ m.base = none ∧ m.index = none ∧ m.scale = 0))) :
    m.ripRelative = false := by
  rw [Bool.eq_false_iff]
  intro htrue
  simp only [Mem.ripRelative, Bool.or_eq_true, Bool.and_eq_true, beq_iff_eq] at htrue
  rcases htrue with ⟨hbase, -⟩ | ⟨⟨⟨hseg, hbase⟩, hidx⟩, hscale⟩
  · exact hrip (.inl hbase)
  · exact hrip (.inr ⟨hseg, hbase, hidx, hscale⟩)

theorem base_of_not_rip (hform : Addressable m) (hrip : ¬(m.base = some .rip ∨
    (m.segment = none ∧ m.base = none ∧ m.index = none ∧ m.scale = 0))) :
    isGpr64 m.base = true := by
  rcases hform.1 with ⟨hbase, -⟩ | hq
  · exact absurd (.inl hbase) hrip
  · exact hq

/-- Relative to the next instruction, step 1 leaves the offset. -/
theorem computeEffAddr_rip (ht : t ≠ 31) (hrip : m.base = some .rip ∨
    (m.segment = none ∧ m.base = none ∧ m.index = none ∧ m.scale = 0)) (nextPC : Addr) (s : State) :
    AddressIn t (nextPC + dispOf m) s (execs (computeEffAddr m nextPC t) s) := by
  unfold computeEffAddr
  dsimp only
  rw [if_pos hrip, execs_loadImm64 ht]
  exact .set ht s _

/-- Otherwise the steps leave base, index, displacement and `FS` base added up. -/
theorem computeEffAddr_sum (ht : t ≠ 31) (h27 : t ≠ 27) (hrip : ¬(m.base = some .rip ∨
      (m.segment = none ∧ m.base = none ∧ m.index = none ∧ m.scale = 0)))
    (hb : isGpr64 m.base = true) (hx : m.index = none ∨ isGpr64 m.index ∧ m.scale ∈ [1, 2, 4, 8])
    (hsafe : NoClobber m t) (nextPC : Addr) (s : State) :
    AddressIn t ((if m.segment = some .fs then s.get 27 else 0) +
      (regVal s m.base + indexVal s m + dispOf m)) s (execs (computeEffAddr m nextPC t) s) := by
  have hsum : AddressIn t (regVal s m.base + indexVal s m + dispOf m) s
      (execs (baseIndex m t ++ addDisp t (dispOf m)) s) := by
    rw [execs_append, baseIndex_spec ht hb hx hsafe]
    have hdisp := addDisp_spec ht (dispOf m) (s.set t (regVal s m.base + indexVal s m))
    rw [State.get_set_self ht] at hdisp
    exact (AddressIn.set ht s _).trans hdisp
  unfold computeEffAddr
  dsimp only
  rw [if_neg hrip]
  by_cases hfs : m.segment = some .fs
  · rw [if_pos hfs, if_pos hfs]
    split
    · rw [execs_append, execs_cons, execs_nil, exec_addX]
      -- `x27` is neither the target nor the scratch register
      have hbase : (execs (baseIndex m t ++ addDisp t (dispOf m)) s).get 27 = s.get 27 :=
        hsum.regs 27 h27.symm (addrScratch_ne t).2.2.symm
      rw [hbase, hsum.target, add_comm (s.get 27)]
      exact hsum.trans (.set ht _ _)
    · rename_i hnone
      simp only [Bool.or_eq_true, not_or, Bool.not_eq_true, Option.isSome_eq_false_iff,
        Option.isNone_iff_eq_none] at hnone
      have hzero : regVal s m.base + indexVal s m = 0 := by
        unfold indexVal
        rw [hnone.1, hnone.2]
        exact add_zero _
      rw [hzero, zero_add]
      exact fsDisp_spec ht h27 (dispOf m) s
  · rw [if_neg hfs, if_neg hfs, zero_add]
    exact hsum

theorem leavesAddress (h32 : i.inst.addrSize ≠ 32) (hgs : m.segment ≠ some .gs)
    (hform : Addressable m) (ht : t ≠ 31) (h27 : t ≠ 27) (hsafe : AddrSafe m t) :
    LeavesAddress i m t := by
  intro c s hrep
  have hclear := clear_of_plain (plain_computeEffAddr m i.nextPC t) s
  by_cases hrip : m.base = some .rip ∨
      (m.segment = none ∧ m.base = none ∧ m.index = none ∧ m.scale = 0)
  · have hfs : m.segment ≠ some .fs := by
      intro hfs
      rcases hrip with hbase | ⟨hnone, -⟩
      · exact hsafe.not_fsRip ⟨hfs, hbase⟩
      · rw [hnone] at hfs
        cases hfs
    have hmrip := ripRelative_of hform hrip
    refine ⟨_, ea_rip h32 hmrip, hclear, ?_⟩
    rw [segBase_zero c hfs hgs, zero_add]
    exact computeEffAddr_rip ht hrip i.nextPC s
  · have hb := base_of_not_rip hform hrip
    have hmrip := not_ripRelative_of hrip
    refine ⟨_, ea_of_offset h32 (offset_eq hrep h32 hmrip hb hform.2), hclear, ?_⟩
    have hseg : c.segBase m.segment = if m.segment = some .fs then s.get 27 else 0 := by
      split
      · rename_i hfs
        rw [hfs, hrep.fs]
        rfl
      · rename_i hfs
        exact segBase_zero c hfs hgs
    rw [hseg]
    exact computeEffAddr_sum ht h27 hrip hb hform.2 hsafe.noClobber i.nextPC s

/-- The address the code leaves in a scratch register. -/
def codeAddr (m : Mem) (nextPC : Addr) (s : State) : Addr :=
  if m.base = some .rip ∨ (m.segment = none ∧ m.base = none ∧ m.index = none ∧ m.scale = 0) then
    nextPC + dispOf m
  else (if m.segment = some .fs then s.get 27 else 0) +
    (regVal s m.base + indexVal s m + dispOf m)

theorem noClobber_scratch (m : Mem) (ht : t ∈ scratch) : NoClobber m t :=
  fun _ x _ _ hx => absurd hx.symm (pin_ne_scratch x ht)

/-- **The code of an address**, in a scratch register. -/
theorem computeEffAddr_spec (hform : Addressable m) (ht : t ∈ scratch) (nextPC : Addr) (s : State) :
    AddressIn t (codeAddr m nextPC s) s (execs (computeEffAddr m nextPC t) s) := by
  unfold codeAddr
  split
  · rename_i hrip
    exact computeEffAddr_rip (zr_ne_scratch ht) hrip nextPC s
  · rename_i hrip
    exact computeEffAddr_sum (zr_ne_scratch ht) (fs_ne_scratch ht).symm hrip
      (base_of_not_rip hform hrip) hform.2
      (noClobber_scratch m ht) nextPC s

/-- The address of an operand that is not an `FS` one relative to the next instruction. -/
theorem ea_eq_codeAddr (hrep : Rep c s) (h32 : i.inst.addrSize ≠ 32) (hgs : m.segment ≠ some .gs)
    (hform : Addressable m) (hfr : ¬(m.segment = some .fs ∧ m.base = some .rip)) :
    m.ea c i = some (codeAddr m i.nextPC s) := by
  have hmem : (16 : XReg) ∈ scratch := by decide
  obtain ⟨a, ha, -, hin⟩ := leavesAddress h32 hgs hform (zr_ne_scratch hmem)
    (fs_ne_scratch hmem).symm ⟨hfr, noClobber_scratch m hmem⟩ c s hrep
  rw [ha, ← hin.target]
  exact congrArg some (computeEffAddr_spec hform hmem i.nextPC s).target

/-- A processor with one register set and the others clear. -/
def oneReg (r : XReg) (v : BitVec 64) : State where
  x := Function.update (fun _ => 0) r v
  sp := 0
  flags := { n := false, z := false, c := false, v := false }
  mem := fun _ => 0
  fails := 0

theorem get_oneReg {r r' : XReg} (h : r' ≠ r) (v : BitVec 64) : (oneReg r v).get r' = 0 := by
  unfold State.get
  split
  · rfl
  · exact Function.update_of_ne h v (fun _ => (0 : BitVec 64))

theorem get_oneReg_self {r : XReg} (h : r ≠ 31) (v : BitVec 64) : (oneReg r v).get r = v := by
  unfold State.get
  rw [if_neg h]
  exact Function.update_self r v (fun _ => (0 : BitVec 64))

/-- An `FS` operand relative to the next instruction loses the `FS` base. -/
theorem not_leavesAddress_fsRip (h32 : i.inst.addrSize ≠ 32) (hform : Addressable m) (ht : t ≠ 31)
    (hfs : m.segment = some .fs) (hbase : m.base = some .rip) : ¬LeavesAddress i m t := by
  intro h
  obtain ⟨a, ha, -, hin⟩ := h _ (oneReg 27 1) (rep_guestOf _)
  have hidx : m.index = none := by
    rcases hform.1 with ⟨-, hnone⟩ | hq
    · exact hnone
    · rw [hbase] at hq
      cases hq
  have hmrip : m.ripRelative = true := by
    rw [Mem.ripRelative, hbase, hidx]
    rfl
  have hcode := (computeEffAddr_rip (m := m) ht (.inl hbase) i.nextPC (oneReg 27 1)).target
  rw [ea_rip h32 hmrip, hfs, Option.some.injEq] at ha
  rw [hin.target, ← ha] at hcode
  have hone : (1 : BitVec 64) + (i.nextPC + dispOf m) = i.nextPC + dispOf m := hcode
  exact absurd (add_eq_right.1 hone) (by decide)

/-- With another base, the target written first clobbers the index. -/
theorem not_leavesAddress_clobber (h32 : i.inst.addrSize ≠ 32) (hgs : m.segment ≠ some .gs)
    (hform : Addressable m) {b x : Gpr} (hbase : m.base = some (.q b)) (hidx : m.index = some (.q x))
    (hbx : b ≠ x) : ¬LeavesAddress i m (pin x) := by
  intro h
  have hpin : pin b ≠ pin x := fun he => hbx (pin_injective he)
  obtain ⟨a, ha, -, hin⟩ := h _ (oneReg (pin x) 1) (rep_guestOf _)
  obtain ⟨seg, base, scale, index, disp⟩ := m
  dsimp only at hbase hidx hgs
  subst hbase hidx
  have hscale : scale ∈ [1, 2, 4, 8] := by
    rcases hform.2 with hnone | ⟨-, hs⟩
    · cases hnone
    · exact hs
  -- the value of the operand: the index counts once with its scale
  have hoff := offset_eq (rep_guestOf (oneReg (pin x) 1)) h32
    (m := ⟨seg, some (.q b), scale, some (.q x), disp⟩) (by simp [Mem.ripRelative]) rfl hform.2
  have hval : regVal (oneReg (pin x) 1) (some (.q b)) = 0 := get_oneReg hpin 1
  have hmul : indexVal (oneReg (pin x) 1) ⟨seg, some (.q b), scale, some (.q x), disp⟩ =
      BitVec.ofNat 64 scale := by
    show (oneReg (pin x) 1).get (pin x) * BitVec.ofNat 64 scale = _
    rw [get_oneReg_self (pin_ne_zr x), one_mul]
  rw [ea_of_offset h32 hoff, hmul, Option.some.injEq] at ha
  dsimp only at ha
  have h27 : (oneReg (pin x) 1).get 27 = 0 := get_oneReg (pin_ne_fs x).symm 1
  have hseg : (guestOf (oneReg (pin x) 1)).segBase seg = 0 := by
    by_cases hfs : seg = some .fs
    · rw [hfs]
      exact h27
    · exact segBase_zero _ hfs hgs
  rw [hval, hseg, zero_add, zero_add] at ha
  -- what the code leaves: the base, twice
  have hbi : execs (baseIndex ⟨seg, some (.q b), scale, some (.q x), disp⟩ (pin x))
      (oneReg (pin x) 1) = (oneReg (pin x) 1).set (pin x) 0 := by
    show execs [.mov .x (pin x) (pin b),
      .addSub .add false .x (pin x) (pin x) (.reg (pin x) (scaleShift scale))] _ = _
    rw [execs_cons, execs_cons, execs_nil, exec_movX, exec_addXLsl,
      State.get_set_self (pin_ne_zr x), State.set_set, get_oneReg hpin]
    congr 1
    simp
  have hsum : AddressIn (pin x) (dispOf ⟨seg, some (.q b), scale, some (.q x), disp⟩)
      (oneReg (pin x) 1) (execs (baseIndex ⟨seg, some (.q b), scale, some (.q x), disp⟩ (pin x) ++
        addDisp (pin x) (dispOf ⟨seg, some (.q b), scale, some (.q x), disp⟩)) (oneReg (pin x) 1)) := by
    rw [execs_append, hbi]
    have hdisp := addDisp_spec (pin_ne_zr x)
      (dispOf ⟨seg, some (.q b), scale, some (.q x), disp⟩) ((oneReg (pin x) 1).set (pin x) 0)
    rw [State.get_set_self (pin_ne_zr x), zero_add] at hdisp
    exact (AddressIn.set (pin_ne_zr x) _ _).trans hdisp
  have hcode : (execs (computeEffAddr ⟨seg, some (.q b), scale, some (.q x), disp⟩ i.nextPC (pin x))
      (oneReg (pin x) 1)).get (pin x) = dispOf ⟨seg, some (.q b), scale, some (.q x), disp⟩ := by
    unfold computeEffAddr
    dsimp only
    rw [if_neg (by simp)]
    split
    · rw [if_pos (by simp), execs_append, execs_cons, execs_nil, exec_addX,
        State.get_set_self (pin_ne_zr x), hsum.target,
        hsum.regs 27 (pin_ne_fs x).symm (addrScratch_ne _).2.2.symm, h27, add_zero]
    · exact hsum.target
  rw [hin.target, ← ha] at hcode
  have hzero := add_eq_right.1 hcode
  simp only [List.mem_cons, List.not_mem_nil, or_false] at hscale
  rcases hscale with rfl | rfl | rfl | rfl <;> exact absurd hzero (by decide)

/-- **Effective addresses.**  For every memory operand that is not rejected and every target that
is neither the zero register nor the register of the `FS` base: the code leaves the address of the
operand for every state, and changes nothing but the target and the scratch register, exactly when
the operand is not an `FS` one relative to the next instruction and the target is not the index
register of an operand with another base. -/
theorem computeEffAddr_exact (hop : accessesNone i.inst.op = false)
    (hsup : unsupportedAddressing i.inst = none) (hm : .mem m ∈ i.inst.args)
    (hform : Addressable m) (ht : t ≠ 31) (h27 : t ≠ 27) :
    LeavesAddress i m t ↔ AddrSafe m t := by
  obtain ⟨h32, hgs⟩ := supported_mem hop hsup hm
  refine ⟨fun h => ⟨fun hfr => ?_, fun b x hb hx htx => ?_⟩, leavesAddress h32 hgs hform ht h27⟩
  · exact not_leavesAddress_fsRip h32 hform ht hfr.1 hfr.2 h
  · subst htx
    by_contra hbx
    exact not_leavesAddress_clobber h32 hgs hform hb hx hbx h

end Address

/-- `mov rax, fs:[rip + 8]`. -/
def fsRipLoad : Instruction where
  address := 0x400000
  inst :=
    { op := .mov
      dataSize := 64
      memBytes := 8
      len := 8
      args := [.reg (.q .rax), .mem ⟨some .fs, some .rip, 0, none, 8⟩] }

/-- `mov rax, [rbx + 4*rcx - 4096]`. -/
def indexedLoad : Instruction where
  address := 0x400000
  inst :=
    { op := .mov
      dataSize := 64
      memBytes := 8
      len := 8
      args := [.reg (.q .rax), .mem ⟨none, some (.q .rbx), 4, some (.q .rcx), -4096⟩] }

/-- The address of an operand with base, index and displacement -4096 is left in `x16`. -/
theorem computeEffAddr_exact_indexed :
    LeavesAddress indexedLoad ⟨none, some (.q .rbx), 4, some (.q .rcx), -4096⟩ 16 :=
  (computeEffAddr_exact (i := indexedLoad) (by decide) (by decide) (by decide) (by decide)
    (by decide) (by decide)).2
    ⟨by simp, fun b x _ _ hx => absurd hx.symm (pin_ne_scratch x (by decide))⟩

/-- The address of `fs:[rip + 8]` is not left in `x16`: the `FS` base is missing. -/
theorem fs_base_dropped : ¬LeavesAddress fsRipLoad ⟨some .fs, some .rip, 0, none, 8⟩ 16 :=
  not_leavesAddress_fsRip (by decide) (by decide) (by decide) rfl rfl

end PS4Recomp.Lifter
