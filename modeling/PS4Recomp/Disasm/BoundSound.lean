import PS4Recomp.X86.FallThrough

/-!
# The bound of a jump index

`switchTableCountKill` against the values the index can have at the end of a window.

* `Below` — the low bits of a register are below a bound;
* `copyWidth` — how much of the source of a copy a bound on its destination is about;
* `Fits` — a register is known to be narrow;
* `BoundCarried` — the scan relies on nothing that does not hold: `Spares`, `CheckHolds`,
  `CopiedHolds`, `MaskWhole`, `ControlKept`;
* **`switchTableCount_holds`** — then the index is below the reported count at the end of every
  execution of the window.

The scan does not look at widths, takes the fall-through of `JB` and `JBE` for a check that holds, takes
the old value of the first operand of a `SUB` for the new one, and sees writes to the first operand only.
-/

namespace PS4Recomp.Disasm

open X86 Library

/-! ### low bits -/

/-- The low `k` bits are below `n`. -/
def Below (k n : ℕ) (x : BitVec 64) : Prop := x.toNat % 2 ^ k < n

theorem mod_pow_mod {k k' : ℕ} (h : k' ≤ k) (x : ℕ) : x % 2 ^ k % 2 ^ k' = x % 2 ^ k' :=
  Nat.mod_mod_of_dvd x (Nat.pow_dvd_pow 2 h)

theorem Below.narrow {k k' n : ℕ} {x : BitVec 64} (h : Below k n x) (hk : k' ≤ k) : Below k' n x := by
  unfold Below at h ⊢
  rw [← mod_pow_mod hk]
  exact lt_of_le_of_lt (Nat.mod_le _ _) h

theorem Below.mono {k n n' : ℕ} {x : BitVec 64} (h : Below k n x) (hn : n ≤ n') : Below k n' x :=
  lt_of_lt_of_le h hn

theorem below_of_lt {n : ℕ} {x : BitVec 64} (h : x.toNat < n) (k : ℕ) : Below k n x :=
  lt_of_le_of_lt (Nat.mod_le _ _) h

theorem low_regWrite {sz : Size} {k : ℕ} (hk : (sz = .l ∨ sz = .q) ∨ k ≤ sz.bits) (old : BitVec 64)
    (v : BitVec sz.bits) : (regWrite sz 0 old v).toNat % 2 ^ k = v.toNat % 2 ^ k := by
  have hlt : v.toNat < 2 ^ 64 :=
    lt_of_lt_of_le v.isLt (Nat.pow_le_pow_right (by decide) sz.bits_le)
  have hwide : (v.setWidth 64).toNat = v.toNat := by
    rw [BitVec.toNat_setWidth, Nat.mod_eq_of_lt hlt]
  have hinsert : k ≤ sz.bits → (insertBits 0 sz.bits old v).toNat % 2 ^ k = v.toNat % 2 ^ k := by
    intro hle
    have hle64 := sz.bits_le
    have hbits : (insertBits 0 sz.bits old v).setWidth k = v.setWidth k := by
      apply BitVec.eq_of_getLsbD_eq
      intro j hj
      rw [BitVec.getLsbD_setWidth, BitVec.getLsbD_setWidth, getLsbD_insertBits _ _ _ _ (by omega),
        if_pos ⟨Nat.zero_le j, by omega⟩, Nat.sub_zero]
    have hnat := congrArg BitVec.toNat hbits
    rwa [BitVec.toNat_setWidth, BitVec.toNat_setWidth] at hnat
  cases sz with
  | l => exact congrArg (· % 2 ^ k) hwide
  | q => exact congrArg (· % 2 ^ k) hwide
  | b => exact hinsert (hk.resolve_left (by simp))
  | w => exact hinsert (hk.resolve_left (by simp))

theorem toNat_get (c : Cpu) (sz : Size) (g : Gpr) :
    (c.get sz (.reg g 0)).toNat = (c.gpr g).toNat % 2 ^ sz.bits := by
  show ((c.gpr g).extractLsb' 0 sz.bits).toNat = _
  rw [BitVec.extractLsb'_toNat, Nat.shiftRight_zero]

/-! ### copies -/

/-- For the low `k` bits of the destination of an extension to be below `n`, so many of the source
must be. -/
def extendWidth (signed : Bool) (dsz ssz : Size) (k n : ℕ) : Option ℕ :=
  if (dsz = .b ∨ dsz = .w) ∧ dsz.bits < k then none
  else if k ≤ ssz.bits then some k
  else if signed = true ∧ 2 ^ (ssz.bits - 1) < n then none
  else some ssz.bits

/-- The operation extends a register of one size to one of another. -/
def copies (op : Op) (dsz ssz : Size) : Bool :=
  match op with
  | .mov => dsz == ssz
  | .movzx | .movsx => dsz != .b && (ssz == .b || ssz == .w)
  | .movsxd => dsz != .b && ssz == .l
  | _ => false

def signedCopy (op : Op) : Bool := op == .movsx || op == .movsxd

/-- `extendWidth` of a copy between registers. -/
def copyWidth (inst : Inst) (k n : ℕ) : Option ℕ :=
  match inst.args with
  | [.reg d, .reg s] =>
      match d.loc, s.loc with
      | some (_, 0, dsz), some (_, 0, ssz) =>
          if copies inst.op dsz ssz then extendWidth (signedCopy inst.op) dsz ssz k n else none
      | _, _ => none
  | _ => none

theorem copyWidth_some {inst : Inst} {k n k' : ℕ} (h : copyWidth inst k n = some k') :
    ∃ d s g g' dsz ssz, inst.args = [.reg d, .reg s] ∧ d.loc = some (g, 0, dsz) ∧
      s.loc = some (g', 0, ssz) ∧ copies inst.op dsz ssz = true ∧
      extendWidth (signedCopy inst.op) dsz ssz k n = some k' := by
  unfold copyWidth at h
  split at h
  · rename_i d s hargs
    split at h
    · rename_i g dsz g' ssz hd hs
      split at h
      · rename_i hcopies
        exact ⟨d, s, g, g', dsz, ssz, hargs, hd, hs, hcopies, h⟩
      · cases h
    · cases h
  · cases h

theorem below_extend {signed : Bool} {dsz ssz : Size} {k k' n : ℕ}
    (hsz : dsz = .l → ssz.bits ≤ 32) (hw : extendWidth signed dsz ssz k n = some k')
    (old x : BitVec 64) (hx : Below k' n x) :
    Below k n (regWrite dsz 0 old (extendTo signed (x.extractLsb' 0 ssz.bits) dsz.bits)) := by
  have hbits : ∀ v : BitVec ssz.bits, k ≤ ssz.bits → k ≤ dsz.bits →
      (extendTo signed v dsz.bits).toNat % 2 ^ k = v.toNat % 2 ^ k := by
    intro v hks hkd
    have hle64 := ssz.bits_le
    have hset : (extendTo signed v dsz.bits).setWidth k = v.setWidth k := by
      apply BitVec.eq_of_getLsbD_eq
      intro j hj
      cases signed with
      | true =>
          show (((v.signExtend 64).setWidth dsz.bits).setWidth k).getLsbD j = _
          simp only [BitVec.getLsbD_setWidth, BitVec.getLsbD_signExtend, hj,
            show j < dsz.bits by omega, show j < ssz.bits by omega, show j < 64 by omega,
            decide_true, Bool.true_and, if_true]
      | false =>
          show (((v.setWidth 64).setWidth dsz.bits).setWidth k).getLsbD j = _
          simp only [BitVec.getLsbD_setWidth, hj, show j < dsz.bits by omega,
            show j < 64 by omega, decide_true, Bool.true_and]
    have hnat := congrArg BitVec.toNat hset
    rwa [BitVec.toNat_setWidth, BitVec.toNat_setWidth] at hnat
  have hv : (x.extractLsb' 0 ssz.bits).toNat = x.toNat % 2 ^ ssz.bits := by
    rw [BitVec.extractLsb'_toNat, Nat.shiftRight_zero]
  unfold extendWidth at hw
  split at hw
  · cases hw
  · rename_i hfull
    have hwhole : (dsz = .l ∨ dsz = .q) ∨ k ≤ dsz.bits := by
      by_contra hno
      cases dsz <;> simp at hno hfull <;> omega
    unfold Below
    rw [low_regWrite hwhole]
    split at hw
    · rename_i hks
      cases hw
      have hkd : k ≤ dsz.bits := by
        cases dsz with
        | l => exact le_trans hks (hsz rfl)
        | q => exact le_trans hks ssz.bits_le
        | b => exact hwhole.resolve_left (by simp)
        | w => exact hwhole.resolve_left (by simp)
      rw [hbits _ hks hkd, hv, mod_pow_mod hks]
      exact hx
    · split at hw
      · cases hw
      · rename_i hsigned
        cases hw
        -- the source is a small number that is not negative
        have hlt : (x.extractLsb' 0 ssz.bits).toNat < n := by
          rw [hv]
          exact hx
        have hzero : extendTo signed (x.extractLsb' 0 ssz.bits) dsz.bits =
            ((x.extractLsb' 0 ssz.bits).setWidth 64).setWidth dsz.bits := by
          cases signed with
          | false => rfl
          | true =>
              have hn : n ≤ 2 ^ (ssz.bits - 1) := by
                by_contra hno
                exact hsigned ⟨rfl, by omega⟩
              have hpow : 2 ^ ssz.bits = 2 * 2 ^ (ssz.bits - 1) := by
                rw [← Nat.pow_succ', Nat.succ_eq_add_one, Nat.sub_add_cancel ssz.bits_pos]
              have hmsb : (x.extractLsb' 0 ssz.bits).msb = false := by
                rw [BitVec.msb_eq_false_iff_two_mul_lt]
                omega
              show ((x.extractLsb' 0 ssz.bits).signExtend 64).setWidth dsz.bits = _
              rw [BitVec.signExtend_eq_setWidth_of_msb_false hmsb]
        rw [hzero]
        refine lt_of_le_of_lt (Nat.mod_le _ _) (lt_of_le_of_lt ?_ hlt)
        rw [BitVec.toNat_setWidth, BitVec.toNat_setWidth]
        exact le_trans (Nat.mod_le _ _) (Nat.mod_le _ _)

section

variable {unnamed : ℕ → List Gpr} {i : Instruction} {c c' : Cpu}

theorem moves_copy {d s : Reg} {g g' : Gpr} {dsz ssz : Size} (hargs : i.inst.args = [.reg d, .reg s])
    (hd : d.loc = some (g, 0, dsz)) (hs : s.loc = some (g', 0, ssz))
    (hc : copies i.inst.op dsz ssz = true) :
    moves i c = some (c.put dsz (.reg g 0)
      (extendTo (signedCopy i.inst.op) (c.get ssz (.reg g' 0)) dsz.bits)) := by
  have hplace : ∀ addr, Cpu.placeBy addr i dsz (.reg d) = some (.reg g 0) :=
    fun addr => placeBy_reg.2 ⟨g, 0, hd, rfl⟩
  have hsource : ∀ addr, Cpu.placeBy addr i ssz (.reg s) = some (.reg g' 0) :=
    fun addr => placeBy_reg.2 ⟨g', 0, hs, rfl⟩
  have hextend : ∀ (addr : Mem → Option Addr) (signed : Bool) (sources : List Size), dsz ≠ .b →
      ssz ∈ sources → extendBy c addr i signed sources d (.reg s) = some (c.put dsz (.reg g 0)
        (extendTo signed (c.get ssz (.reg g' 0)) dsz.bits)) := fun addr signed sources hb hmem =>
    extendBy_some.2 ⟨dsz, ssz, _, _, hb, hmem, hplace addr, hsource addr, rfl⟩
  unfold copies at hc
  split at hc
  · rename_i hop
    have hsz : dsz = ssz := by simpa using hc
    subst hsz
    have hsame : extendTo false (c.get dsz (.reg g' 0)) dsz.bits = c.get dsz (.reg g' 0) := by
      show ((c.get dsz (.reg g' 0)).setWidth 64).setWidth dsz.bits = _
      rw [BitVec.setWidth_setWidth_of_le _ dsz.bits_le, BitVec.setWidth_eq]
    rw [moves, moveBy, hop, hargs]
    show movBy c _ i (.reg d) (.reg s) = some (c.put dsz (.reg g 0) (extendTo false _ _))
    rw [hsame]
    refine movBy_some.2 ⟨dsz, _, _, hplace _, by simp [Arg.isMem], ?_, rfl⟩
    rw [Cpu.sourceBy, hsource]
    · rfl
    · simp
  · rename_i hop
    obtain ⟨hb, hmem⟩ := Bool.and_eq_true_iff.1 hc
    rw [moves, moveBy, hop, hargs]
    exact hextend _ false _ (by simpa using hb) (by simpa using hmem)
  · rename_i hop
    obtain ⟨hb, hmem⟩ := Bool.and_eq_true_iff.1 hc
    rw [moves, moveBy, hop, hargs]
    exact hextend _ true _ (by simpa using hb) (by simpa using hmem)
  · rename_i hop
    obtain ⟨hb, hmem⟩ := Bool.and_eq_true_iff.1 hc
    rw [moves, moveBy, hop, hargs]
    exact hextend _ true _ (by simpa using hb) (by simpa using hmem)
  · cases hc

theorem executes_moves {d : Cpu} (h : Executes unnamed i c c') (hm : moves i c = some d)
    (hop : i.inst.op = .mov ∨ i.inst.op = .movzx ∨ i.inst.op = .movsx ∨ i.inst.op = .movsxd) :
    c' = d := by
  unfold Executes at h
  rcases hop with hop | hop | hop | hop
  all_goals
    rw [hop] at h
    dsimp only at h
    rw [hm] at h
  · exact h.2
  all_goals exact (Option.some.inj h).symm

theorem copies_op {op : Op} {dsz ssz : Size} (h : copies op dsz ssz = true) :
    op = .mov ∨ op = .movzx ∨ op = .movsx ∨ op = .movsxd := by
  unfold copies at h
  split at h
  · exact .inl rfl
  · exact .inr (.inl rfl)
  · exact .inr (.inr (.inl rfl))
  · exact .inr (.inr (.inr rfl))
  · cases h

theorem copies_low {op : Op} {dsz ssz : Size} (h : copies op dsz ssz = true) :
    dsz = .l → ssz.bits ≤ 32 := by
  rintro rfl
  unfold copies at h
  cases ssz with
  | q => split at h <;> simp at h
  | _ => decide

theorem below_copy {d s : Reg} {g g' : Gpr} {k n k' : ℕ} (hw : copyWidth i.inst k n = some k')
    (hd : i.inst.arg 0 = some (.reg d)) (hg : gprFamily d = some g)
    (hs : i.inst.arg 1 = some (.reg s)) (hg' : gprFamily s = some g')
    (h : Executes unnamed i c c') (hb : Below k' n (c.gpr g')) : Below k n (c'.gpr g) := by
  obtain ⟨d', s', gd, gs, dsz, ssz, hargs, hdl, hsl, hc, hwidth⟩ := copyWidth_some hw
  rw [Inst.arg, hargs] at hd hs
  cases hd
  cases hs
  obtain rfl : gd = g := Option.some.inj ((gprFamily_loc hdl).symm.trans hg)
  obtain rfl : gs = g' := Option.some.inj ((gprFamily_loc hsl).symm.trans hg')
  have hc' := executes_moves h (moves_copy hargs hdl hsl hc) (copies_op hc)
  rw [hc']
  show Below k n (Function.update c.gpr gd _ gd)
  rw [Function.update_self]
  exact below_extend (copies_low hc) hwidth _ _ hb

theorem moves_imm {d : Reg} {g : Gpr} {sz : Size} {v : BitVec 64}
    (hop : i.inst.op = .mov) (hargs : i.inst.args = [.reg d, .imm v])
    (hd : d.loc = some (g, 0, sz)) : moves i c = some (c.put sz (.reg g 0) (v.setWidth sz.bits)) := by
  rw [moves, moveBy, hop, hargs]
  exact movBy_some.2 ⟨sz, _, _, placeBy_reg.2 ⟨g, 0, hd, rfl⟩, by simp [Arg.isMem], rfl, rfl⟩

theorem below_and {d : Reg} {g : Gpr} {sz : Size} {v : BitVec 64} {k : ℕ}
    (hop : i.inst.op = .and) (hd : i.inst.arg 0 = some (.reg d)) (hloc : d.loc = some (g, 0, sz))
    (hv : i.inst.arg 1 = some (.imm v)) (hk : (sz = .l ∨ sz = .q) ∨ k ≤ sz.bits)
    (h : Executes unnamed i c c') : Below k (v.toNat + 1) (c'.gpr g) := by
  unfold Executes at h
  rw [hop] at h
  obtain ⟨dst, src, sz', p, b, r, f, hargs, hp, hb, hr, rfl⟩ := step_logical h (by simp [isLogical, hop])
  rw [Inst.arg, hargs] at hd hv
  cases hd
  cases hv
  rw [Cpu.place_eq] at hp
  obtain ⟨g', lo, hloc', rfl⟩ := placeBy_reg.1 hp
  rw [hloc] at hloc'
  cases hloc'
  cases hb
  rw [hop] at hr ⊢
  cases hr
  show Below k (v.toNat + 1) (Function.update c.gpr g _ g)
  rw [Function.update_self]
  unfold Below
  rw [low_regWrite hk]
  refine lt_of_le_of_lt (Nat.mod_le _ _) ?_
  rw [BitVec.toNat_and, BitVec.toNat_setWidth]
  exact Nat.lt_succ_of_le (le_trans Nat.and_le_right (Nat.mod_le _ _))

theorem below_load {d : Reg} {g : Gpr} {sz : Size} {m : Mem} {k : ℕ}
    (hop : i.inst.op = .movzx) (hd : i.inst.arg 0 = some (.reg d)) (hloc : d.loc = some (g, 0, sz))
    (hm : i.inst.arg 1 = some (.mem m)) (hk : (sz = .l ∨ sz = .q) ∨ k ≤ sz.bits)
    (h : Executes unnamed i c c') : Below k (2 ^ (8 * i.inst.memBytes)) (c'.gpr g) := by
  unfold Executes at h
  rw [hop] at h
  dsimp only at h
  rw [moves, moveBy, hop] at h
  split at h
  case h_2 dst src _ hargs =>
    rw [Inst.arg, hargs] at hd hm
    cases hd
    cases hm
    obtain ⟨dsz, ssz, p, e, -, -, hp, he, rfl⟩ := extendBy_some.1 h
    obtain ⟨g', lo, hloc', rfl⟩ := placeBy_reg.1 hp
    rw [hloc] at hloc'
    cases hloc'
    obtain ⟨hbytes, a, -, rfl⟩ := placeBy_mem.1 he
    have hbits : 8 * i.inst.memBytes = ssz.bits := by
      rw [Size.bytes_of_ofBytes hbytes]
      cases ssz <;> rfl
    show Below k _ (Function.update c.gpr g _ g)
    rw [Function.update_self, hbits]
    unfold Below
    rw [low_regWrite hk]
    refine lt_of_le_of_lt (Nat.mod_le _ _) (lt_of_le_of_lt ?_ (c.get ssz (.mem a)).isLt)
    show (((c.get ssz (.mem a)).setWidth 64).setWidth sz.bits).toNat ≤ _
    rw [BitVec.toNat_setWidth, BitVec.toNat_setWidth]
    exact le_trans (Nat.mod_le _ _) (Nat.mod_le _ _)
  all_goals
    first
    | cases h
    | rename_i hop' _
      cases hop'

end

/-! ### what a scan relies on -/

/-- An execution of the instructions before a place; the last one is first. -/
def Ran (unnamed : ℕ → List Gpr) (before : List Instruction) (c c' : Cpu) : Prop :=
  FallsThrough unnamed before.reverse c c'

section

variable (unnamed : ℕ → List Gpr)

/-- An instruction that is passed does not write the register. -/
def Spares (i : Instruction) (reg : Reg) : Prop :=
  stops i.inst.op = true ∨ ∀ g, gprFamily reg = some g → g ∉ gprsWritten unnamed i.inst

/-- The low `k` bits of a register are known to be below `2 ^ s`. -/
inductive Narrow : List Instruction → Gpr → ℕ → ℕ → Prop where
  | zeroExtended {i : Instruction} {before : List Instruction} {g : Gpr} {k s : ℕ} :
      zeroExtends i.inst = true → i.inst.arg 0 = some (.reg (.l g)) → 32 ≤ s →
      Narrow (i :: before) g k s
  | masked {i : Instruction} {before : List Instruction} {d : Reg} {g : Gpr} {sz : Size}
      {v : BitVec 64} {k s : ℕ} : i.inst.op = .and → i.inst.arg 0 = some (.reg d) →
      d.loc = some (g, 0, sz) → i.inst.arg 1 = some (.imm v) →
      ((sz = .l ∨ sz = .q) ∨ k ≤ sz.bits) → v.toNat < 2 ^ s → Narrow (i :: before) g k s
  | loaded {i : Instruction} {before : List Instruction} {d : Reg} {g : Gpr} {sz : Size} {m : Mem}
      {k s : ℕ} : i.inst.op = .movzx → i.inst.arg 0 = some (.reg d) → d.loc = some (g, 0, sz) →
      i.inst.arg 1 = some (.mem m) → ((sz = .l ∨ sz = .q) ∨ k ≤ sz.bits) → 8 * i.inst.memBytes ≤ s →
      Narrow (i :: before) g k s
  | narrowCopy {i : Instruction} {before : List Instruction} {d r : Reg} {g g' : Gpr} {k s k' : ℕ} :
      i.inst.arg 0 = some (.reg d) → gprFamily d = some g → i.inst.arg 1 = some (.reg r) →
      gprFamily r = some g' → copyWidth i.inst k (2 ^ s) = some k' → k' ≤ s →
      Narrow (i :: before) g k s
  | copied {i : Instruction} {before : List Instruction} {d r : Reg} {g g' : Gpr} {k s k' : ℕ} :
      i.inst.arg 0 = some (.reg d) → gprFamily d = some g → i.inst.arg 1 = some (.reg r) →
      gprFamily r = some g' → copyWidth i.inst k (2 ^ s) = some k' → Narrow before g' k' s →
      Narrow (i :: before) g k s
  | kept {i : Instruction} {before : List Instruction} {g : Gpr} {k s : ℕ} :
      Spares unnamed i (.q g) → Narrow before g k s → Narrow (i :: before) g k s

/-- The low `bits` bits of a control are those of the move that `lastMovImm` finds. -/
def ControlKept (bits : ℕ) : List Instruction → Reg → Prop
  | [], _ => True
  | i :: before, reg =>
      match i.inst.op, i.inst.arg 0 with
      | .mov, some (.reg dst) =>
          if sameGPR dst reg then ∃ g sz, dst.loc = some (g, 0, sz) ∧ bits ≤ sz.bits
          else ControlKept bits before reg
      | _, _ => Spares unnamed i reg ∧ ControlKept bits before reg

/-- A bit extraction or mask bounds the low `k` bits. -/
def MaskWhole (before : List Instruction) (inst : Inst) (k : ℕ) : Prop :=
  match inst.op, inst.arg 0, inst.arg 2 with
  | .and, some (.reg d), _ => ∃ g sz, d.loc = some (g, 0, sz) ∧ ((sz = .l ∨ sz = .q) ∨ k ≤ sz.bits)
  | .bzhi, _, some (.reg r) => ControlKept unnamed 8 before r
  | .bextr, _, some (.reg r) => ControlKept unnamed 16 before r
  | _, _, _ => True

/-- The register that is checked, `w` of its bits, is still what the followed one was copied from. -/
def CopiedHolds (n k w : ℕ) (cand r : Reg) : List Instruction → Prop
  | [] => True
  | i :: before =>
      match i.inst.op, i.inst.arg 0, i.inst.arg 1 with
      | .mov, some (.reg d), some (.reg s) =>
          if sameGPR d cand && sameGPR s r then
            ∃ k' g, copyWidth i.inst k n = some k' ∧ gprFamily r = some g ∧
              (k' ≤ w ∨ Narrow unnamed before g k' w)
          else Spares unnamed i cand ∧ Spares unnamed i r ∧ CopiedHolds n k w cand r before
      | _, _, _ => Spares unnamed i cand ∧ Spares unnamed i r ∧ CopiedHolds n k w cand r before

/-- A comparison is about the whole of the followed register, and its new value. -/
def CheckWhole (n k : ℕ) (check : Instruction) (before : List Instruction) (cand : Reg) : Prop :=
  match check.inst.arg 0 with
  | some (.reg r) => ∃ g sz, r.loc = some (g, 0, sz) ∧
      if sameGPR r cand then
        (check.inst.op = .cmp ∨ check.inst.arg 1 = some (.imm 0)) ∧
          (k ≤ sz.bits ∨ Narrow unnamed (check :: before) g k sz.bits)
      else CopiedHolds unnamed n k sz.bits cand r before
  | _ => True

/-- The copies between a comparison and its jump carry the bound. -/
def CheckHolds (n : ℕ) : List Instruction → Reg → ℕ → Prop
  | [], _, _ => True
  | prev :: before, cand, k =>
      match prev.inst.op with
      | .mov | .lea | .nop | .movzx | .movsx | .movsxd =>
          match copyInto prev.inst cand with
          | none => CheckHolds n before cand k
          | some none => True
          | some (some src) => ∃ k', copyWidth prev.inst k n = some k' ∧ CheckHolds n before src k'
      | _ => CheckWhole unnamed n k prev before cand

/-- The scan relies on nothing that does not hold: the copies it follows carry the bound, what it
passes writes nothing it follows, and the check it ends at is one. -/
def BoundCarried (n : ℕ) : List Instruction → Reg → ℕ → Prop
  | [], _, _ => True
  | i :: before, idx, k =>
      match maskCount before i.inst idx, jccCount before i.inst idx with
      | some _, _ => MaskWhole unnamed before i.inst k
      | none, some _ => (i.inst.op = .jcc .a ∨ i.inst.op = .jcc .ae) ∧ CheckHolds unnamed n before idx k
      | none, none =>
          match copyInto i.inst idx with
          | none => Spares unnamed i idx ∧ BoundCarried n before idx k
          | some none => True
          | some (some src) => ∃ k', copyWidth i.inst k n = some k' ∧ BoundCarried n before src k'

end

/-! ### executions -/

section

variable {unnamed : ℕ → List Gpr} {i : Instruction} {before : List Instruction} {c c' : Cpu}

theorem ran_cons : Ran unnamed (i :: before) c c' ↔
    ∃ c₁, Ran unnamed before c c₁ ∧ Executes unnamed i c₁ c' := by
  rw [Ran, List.reverse_cons, fallsThrough_concat]
  rfl

theorem Spares.eq {reg : Reg} {g : Gpr} (h : Spares unnamed i reg) (hg : gprFamily reg = some g)
    (hi : Executes unnamed i c c') : c'.gpr g = c.gpr g := by
  rcases h with hs | hkept
  · exact absurd hi (not_executes_of_stops hs)
  · exact executes_kept hi (hkept g hg)

theorem Narrow.holds {g : Gpr} {k s : ℕ} (h : Narrow unnamed before g k s) :
    ∀ c c', Ran unnamed before c c' → Below k (2 ^ s) (c'.gpr g) := by
  induction h with
  | zeroExtended hz harg hs =>
      intro c c' hran
      obtain ⟨c₁, -, hi⟩ := ran_cons.1 hran
      exact (below_of_lt (executes_low32 hi hz harg) _).mono (Nat.pow_le_pow_right (by decide) hs)
  | masked hop hd hloc hv hk hlt =>
      intro c c' hran
      obtain ⟨c₁, -, hi⟩ := ran_cons.1 hran
      exact (below_and hop hd hloc hv hk hi).mono hlt
  | @loaded i before d g sz m k s hop hd hloc hm hk hbytes =>
      intro c c' hran
      obtain ⟨c₁, -, hi⟩ := ran_cons.1 hran
      exact (below_load hop hd hloc hm hk hi).mono (Nat.pow_le_pow_right (by decide) hbytes)
  | @narrowCopy i before d r g g' k s k' hd hg hr hg' hw hk =>
      intro c c' hran
      obtain ⟨c₁, -, hi⟩ := ran_cons.1 hran
      refine below_copy hw hd hg hr hg' hi ?_
      exact lt_of_lt_of_le (Nat.mod_lt _ (Nat.two_pow_pos k')) (Nat.pow_le_pow_right (by decide) hk)
  | copied hd hg hr hg' hw _ ih =>
      intro c c' hran
      obtain ⟨c₁, hbefore, hi⟩ := ran_cons.1 hran
      exact below_copy hw hd hg hr hg' hi (ih c c₁ hbefore)
  | kept hkeep _ ih =>
      intro c c' hran
      obtain ⟨c₁, hbefore, hi⟩ := ran_cons.1 hran
      rw [hkeep.eq rfl hi]
      exact ih c c₁ hbefore

theorem Below.widen {k w n : ℕ} {x : BitVec 64} (h : Below w n x) (hk : k ≤ w ∨ Below k (2 ^ w) x) :
    Below k n x := by
  rcases Nat.le_total k w with hle | hle
  · exact h.narrow hle
  · rcases hk with hk | hk
    · exact h.narrow hk
    · unfold Below at h hk ⊢
      rwa [← mod_pow_mod hle, Nat.mod_eq_of_lt hk] at h

/-- The moves, `LEA` and `NOP`: what may stand between a comparison and its jump. -/
def passesChecks (op : Op) : Prop :=
  op = .mov ∨ op = .lea ∨ op = .nop ∨ op = .movzx ∨ op = .movsx ∨ op = .movsxd

theorem keeps_of_copyInto {reg : Reg} (hop : passesChecks i.inst.op)
    (h : copyInto i.inst reg = none) : Spares unnamed i reg := by
  have hmod : modifiesReg i.inst reg = false := by
    unfold copyInto at h
    split at h
    · split at h <;> cases h
    · rename_i hno
      simpa using hno
  refine .inr fun g hg hmem => ?_
  have harg : i.inst.op ≠ .nop → g ∉ argGpr i.inst 0 := by
    intro hnop hin
    unfold argGpr at hin
    split at hin
    · rename_i r hr
      have hsame : sameGPR r reg = true := by
        rw [sameGPR, hg]
        cases hf : gprFamily r with
        | none => rw [hf] at hin; cases hin
        | some g' =>
            rw [hf, Option.toList_some, List.mem_singleton] at hin
            simp [hin]
      unfold modifiesReg at hmod
      rcases hop with hop | hop | hop | hop | hop | hop
      case inr.inr.inl => exact hnop hop
      all_goals
        rw [hop, hr] at hmod
        dsimp only at hmod
        rw [hsame] at hmod
        cases hmod
    · cases hin
  unfold gprsWritten explicitGprs implicitGprs at hmem
  rcases hop with hop | hop | hop | hop | hop | hop
  case inr.inr.inl =>
    rw [hop] at hmem
    cases hmem
  all_goals
    rw [hop] at hmem
    dsimp only at hmem
    rw [List.append_nil] at hmem
    exact harg (by rw [hop]; simp) hmem

theorem sameGPR_eq {a b : Reg} {g : Gpr} (hb : gprFamily b = some g) (h : sameGPR a b = true) :
    gprFamily a = some g := by
  unfold sameGPR at h
  rw [hb] at h
  cases ha : gprFamily a with
  | none => rw [ha] at h; cases h
  | some g' =>
      rw [ha] at h
      simpa using h

theorem copyInto_some {inst : Inst} {reg src : Reg} {g : Gpr} (hg : gprFamily reg = some g)
    (h : copyInto inst reg = some (some src)) :
    ∃ d gs, inst.arg 0 = some (.reg d) ∧ gprFamily d = some g ∧ inst.arg 1 = some (.reg src) ∧
      gprFamily src = some gs := by
  unfold copyInto at h
  split at h
  · rename_i hmod
    have hsrc : ∀ r, some (if (gprFamily r).isSome then some r else none) = some (some src) →
        r = src ∧ ∃ gs, gprFamily src = some gs := by
      intro r hr
      split at hr
      · rename_i hsome
        cases hr
        exact ⟨rfl, Option.isSome_iff_exists.1 hsome⟩
      · cases hr
    have hdst : (inst.op = .mov ∨ inst.op = .movsxd ∨ inst.op = .movzx ∨ inst.op = .movsx) →
        ∃ d, inst.arg 0 = some (.reg d) ∧ gprFamily d = some g := by
      intro hop
      unfold modifiesReg at hmod
      rcases hop with hop | hop | hop | hop
      all_goals
        rw [hop] at hmod
        dsimp only at hmod
        split at hmod
        · rename_i d hd
          exact ⟨d, hd, sameGPR_eq hg hmod⟩
        · cases hmod
    have hboth : ∀ r, (inst.op = .mov ∨ inst.op = .movsxd ∨ inst.op = .movzx ∨ inst.op = .movsx) →
        inst.arg 1 = some (.reg r) →
        some (if (gprFamily r).isSome then some r else none) = some (some src) →
        ∃ d gs, inst.arg 0 = some (.reg d) ∧ gprFamily d = some g ∧ inst.arg 1 = some (.reg src) ∧
          gprFamily src = some gs := by
      intro r hop harg hr
      obtain ⟨rfl, gs, hgs⟩ := hsrc r hr
      obtain ⟨d, hd, hdg⟩ := hdst hop
      exact ⟨d, gs, hd, hdg, harg, hgs⟩
    split at h
    · rename_i r hop harg
      exact hboth r (.inl hop) harg h
    · rename_i r hop harg
      exact hboth r (.inr (.inl hop)) harg h
    · rename_i r hop harg
      exact hboth r (.inr (.inr (.inl hop))) harg h
    · rename_i r hop harg
      exact hboth r (.inr (.inr (.inr hop))) harg h
    · cases h
  · cases h

theorem keeps_of_mov {d reg : Reg} (hop : i.inst.op = .mov) (hd : i.inst.arg 0 = some (.reg d))
    (hne : sameGPR d reg = false) : Spares unnamed i reg := by
  have hmod : modifiesReg i.inst reg = false := by
    rw [modifiesReg, hop, hd]
    exact hne
  apply keeps_of_copyInto (.inl hop)
  rw [copyInto, if_neg (by simp [hmod])]

theorem control_value (bits : ℕ) (before : List Instruction) : ∀ (reg : Reg) (g : Gpr) (v : BitVec 64)
    (c c' : Cpu), gprFamily reg = some g → lastMovImm before reg = some v →
    ControlKept unnamed bits before reg → Ran unnamed before c c' →
    (c'.gpr g).toNat % 2 ^ bits = v.toNat % 2 ^ bits := by
  induction before with
  | nil =>
      intro reg g v c c' _ hv
      cases hv
  | cons i before ih =>
      intro reg g v c c' hg hv hkept hran
      obtain ⟨c₁, hbefore, hi⟩ := ran_cons.1 hran
      unfold lastMovImm at hv
      unfold ControlKept at hkept
      split at hv
      · rename_i dst hop hd
        rw [hop, hd] at hkept
        dsimp only at hkept
        split at hv
        · rename_i hsame
          rw [if_pos hsame] at hkept
          obtain ⟨g', sz, hloc, hbits⟩ := hkept
          split at hv
          · rename_i w himm
            cases hv
            obtain rfl : g' = g := by
              have hfam := gprFamily_loc hloc
              rw [sameGPR, hfam, hg] at hsame
              simpa using hsame
            have hlen : i.inst.args.length = 2 := by
              unfold Executes at hi
              rw [hop] at hi
              exact hi.1
            have hargs : i.inst.args = [.reg dst, .imm v] := by
              obtain ⟨x, y, hlist⟩ := List.length_eq_two.1 hlen
              rw [Inst.arg, hlist] at hd himm
              cases hd
              cases himm
              exact hlist
            rw [executes_moves hi (moves_imm hop hargs hloc) (.inl hop)]
            show (Function.update c₁.gpr g' _ g').toNat % _ = _
            rw [Function.update_self, low_regWrite (.inr hbits), BitVec.toNat_setWidth,
              mod_pow_mod hbits]
          · cases hv
        · rename_i hdiff
          rw [if_neg hdiff] at hkept
          rw [(keeps_of_mov hop hd (by simpa using hdiff)).eq hg hi]
          exact ih reg g v c c₁ hg hv hkept hbefore
      · rename_i hno
        split at hkept
        · rename_i dst hop hd
          exact absurd hd (hno dst hop)
        · rw [hkept.1.eq hg hi]
          exact ih reg g v c c₁ hg hv hkept.2 hbefore

/-- `BZHI` and `BEXTR` leave as many bits as their control says. -/
theorem below_extract {d r : Reg} {g gr : Gpr} {k bits : ℕ}
    (hop : i.inst.op = .bzhi ∨ i.inst.op = .bextr) (hd : i.inst.arg 0 = some (.reg d))
    (hg : gprFamily d = some g) (hr : i.inst.arg 2 = some (.reg r)) (hgr : gprFamily r = some gr)
    (hbits : (if i.inst.op = .bzhi then (c.gpr gr).toNat % 2 ^ 8
      else (c.gpr gr).toNat / 256 % 256) = bits)
    (h : Executes unnamed i c c') : Below k (2 ^ bits) (c'.gpr g) := by
  have hex : Extracts i c c' := by
    unfold Executes at h
    rcases hop with hop | hop
    all_goals
      rw [hop] at h
      exact h
  obtain ⟨d', src, r', g', gr', sz, hargs, hdl, hrl, hwide, v, f, -, rfl⟩ := hex
  rw [Inst.arg, hargs] at hd hr
  cases hd
  cases hr
  obtain rfl : g' = g := Option.some.inj ((gprFamily_loc hdl).symm.trans hg)
  obtain rfl : gr' = gr := Option.some.inj ((gprFamily_loc hrl).symm.trans hgr)
  have hctl := toNat_get c sz gr'
  have hle : 16 ≤ sz.bits := by rcases hwide with rfl | rfl <;> decide
  show Below k _ (Function.update c.gpr g' _ g')
  rw [Function.update_self]
  unfold Below
  rw [low_regWrite (.inl hwide)]
  refine lt_of_le_of_lt (Nat.mod_le _ _) ?_
  unfold extractBits
  rcases hop with hop | hop
  · rw [if_pos hop] at hbits
    have hlow : (c.get sz (.reg gr' 0)).toNat % 256 = bits := by
      rw [hctl, show (256 : ℕ) = 2 ^ 8 from rfl, mod_pow_mod (by omega), hbits]
    rw [hop]
    dsimp only
    rw [hlow, BitVec.toNat_ofNat]
    exact lt_of_le_of_lt (Nat.mod_le _ _) (Nat.mod_lt _ (Nat.two_pow_pos bits))
  · rw [if_neg (by rw [hop]; simp)] at hbits
    have hlow : (c.get sz (.reg gr' 0)).toNat / 256 % 256 = bits := by
      have h16 : (c.get sz (.reg gr' 0)).toNat % 2 ^ 16 = (c.gpr gr').toNat % 2 ^ 16 := by
        rw [hctl, mod_pow_mod hle]
      omega
    rw [hop]
    dsimp only
    rw [hlow, BitVec.toNat_ofNat]
    exact lt_of_le_of_lt (Nat.mod_le _ _) (Nat.mod_lt _ (Nat.two_pow_pos bits))

theorem control_length (v : BitVec 64) : ((v >>> 8) &&& 0xff).toNat = v.toNat / 256 % 256 := by
  rw [BitVec.toNat_and, BitVec.toNat_ushiftRight, Nat.shiftRight_eq_div_pow]
  exact Nat.and_two_pow_sub_one_eq_mod _ 8

theorem lastMovImm_family (before : List Instruction) {reg : Reg} {v : BitVec 64}
    (h : lastMovImm before reg = some v) : ∃ g, gprFamily reg = some g := by
  induction before with
  | nil => cases h
  | cons i before ih =>
      unfold lastMovImm at h
      split at h
      · rename_i dst hop hd
        split at h
        · rename_i hsame
          unfold sameGPR at hsame
          cases hreg : gprFamily reg with
          | none =>
              rw [hreg] at hsame
              split at hsame <;> simp_all
          | some g => exact ⟨g, rfl⟩
        · exact ih h
      · exact ih h

theorem mask_below {idx : Reg} {g : Gpr} {k n : ℕ} {c₁ : Cpu} (hg : gprFamily idx = some g)
    (hcount : maskCount before i.inst idx = some (some n)) (hwhole : MaskWhole unnamed before i.inst k)
    (hran : Ran unnamed before c c₁) (hi : Executes unnamed i c₁ c') : Below k n (c'.gpr g) := by
  have hcontrol : ∀ bits r imm, lastMovImm before r = some imm → ControlKept unnamed bits before r →
      ∃ gr, gprFamily r = some gr ∧ (c₁.gpr gr).toNat % 2 ^ bits = imm.toNat % 2 ^ bits := by
    intro bits r imm himm hkept
    obtain ⟨gr, hgr⟩ := lastMovImm_family before himm
    exact ⟨gr, hgr, control_value bits before r gr imm c c₁ hgr himm hkept hran⟩
  unfold maskCount at hcount
  unfold MaskWhole at hwhole
  split at hcount
  · rename_i dst hop hd
    rw [hop, hd] at hwhole
    split at hcount
    · rename_i hsame
      have hcount := Option.some.inj hcount
      split at hcount
      · rename_i r hr
        rw [hr] at hwhole
        obtain ⟨imm, himm, hlen⟩ := Option.bind_eq_some_iff.1 hcount
        dsimp only at hlen hwhole
        split at hlen
        · cases hlen
          obtain ⟨gr, hgr, hval⟩ := hcontrol 16 r imm himm hwhole
          apply below_extract (.inr hop) hd (sameGPR_eq hg hsame) hr hgr _ hi
          rw [if_neg (by rw [hop]; simp), control_length]
          omega
        · cases hlen
      · cases hcount
    · cases hcount
  · rename_i dst hop hd
    rw [hop, hd] at hwhole
    split at hcount
    · rename_i hsame
      have hcount := Option.some.inj hcount
      split at hcount
      · rename_i r hr
        rw [hr] at hwhole
        obtain ⟨imm, himm, hlen⟩ := Option.bind_eq_some_iff.1 hcount
        dsimp only at hlen hwhole
        split at hlen
        · cases hlen
          obtain ⟨gr, hgr, hval⟩ := hcontrol 8 r imm himm hwhole
          apply below_extract (.inl hop) hd (sameGPR_eq hg hsame) hr hgr _ hi
          rw [if_pos hop, hval]
          omega
        · cases hlen
      · cases hcount
    · cases hcount
  · rename_i dst hop hd
    rw [hop, hd] at hwhole
    obtain ⟨gd, sz, hloc, hk⟩ := hwhole
    split at hcount
    · rename_i hsame
      have hcount := Option.some.inj hcount
      split at hcount
      · rename_i v hv
        split at hcount
        · cases hcount
          have hdg := (gprFamily_loc hloc).symm.trans (sameGPR_eq hg hsame)
          cases hdg
          exact below_and hop hd hloc hv hk hi
        · cases hcount
      · cases hcount
    · cases hcount
  · cases hcount

/-! ### comparisons -/

/-- What `JA` and `JAE` fall through on. -/
def shown (inclusive : Bool) (f : Flags) : Bool := f.cf || inclusive && f.zf

/-- A comparison or subtraction that the jump falls through on. -/
theorem below_compare {r : Reg} {g : Gpr} {sz : Size} {v : BitVec 64} {inclusive : Bool}
    (hop : i.inst.op = .cmp ∨ i.inst.op = .sub) (hr : i.inst.arg 0 = some (.reg r))
    (hloc : r.loc = some (g, 0, sz)) (hv : i.inst.arg 1 = some (.imm v))
    (hi : Executes unnamed i c c') (hs : shown inclusive c'.flags = true) :
    Below sz.bits (if inclusive then v.toNat + 1 else v.toNat) (c.gpr g) ∧
      (i.inst.op = .cmp ∨ v = 0 →
        (c'.gpr g).toNat % 2 ^ sz.bits = (c.gpr g).toNat % 2 ^ sz.bits) := by
  have hstep : step i c = some c' := by
    unfold Executes at hi
    rcases hop with hop | hop
    all_goals
      rw [hop] at hi
      exact hi
  obtain ⟨dst, src, sz', p, b, res, f, hargs, hp, hb, hres, rfl⟩ :=
    step_logical hstep (by rcases hop with hop | hop <;> simp [isLogical, hop])
  rw [Inst.arg, hargs] at hr hv
  cases hr
  cases hv
  rw [Cpu.place_eq] at hp
  obtain ⟨g', lo, hloc', rfl⟩ := placeBy_reg.1 hp
  rw [hloc] at hloc'
  cases hloc'
  cases hb
  have hpair : res = c.get sz (.reg g 0) - v.setWidth sz.bits ∧
      f = Flags.ofSub (c.get sz (.reg g 0)) (v.setWidth sz.bits) false := by
    rcases hop with hop | hop
    all_goals
      rw [hop] at hres
      cases hres
      exact ⟨rfl, rfl⟩
  obtain ⟨rfl, rfl⟩ := hpair
  have hget := toNat_get c sz g
  have himm : (v.setWidth sz.bits).toNat ≤ v.toNat := by
    rw [BitVec.toNat_setWidth]
    exact Nat.mod_le _ _
  constructor
  · have hcf : (Flags.ofSub (c.get sz (.reg g 0)) (v.setWidth sz.bits) false).cf = true →
        (c.get sz (.reg g 0)).toNat < (v.setWidth sz.bits).toNat := of_decide_eq_true
    have hzf : (Flags.ofSub (c.get sz (.reg g 0)) (v.setWidth sz.bits) false).zf = true →
        (c.get sz (.reg g 0)).toNat = (v.setWidth sz.bits).toNat := by
      intro hz
      have hsub : c.get sz (.reg g 0) - v.setWidth sz.bits - BitVec.ofNat sz.bits 0 = 0 := by
        simpa [Flags.ofSub, AddCarry.diff] using hz
      rw [BitVec.ofNat_eq_ofNat, BitVec.sub_zero] at hsub
      rw [BitVec.sub_eq_iff_eq_add, BitVec.zero_add] at hsub
      rw [hsub]
    unfold Below
    rw [← hget]
    unfold shown at hs
    rcases Bool.or_eq_true_iff.1 hs with hc | hz
    · have hlt := hcf hc
      split <;> omega
    · obtain ⟨hinc, hz⟩ := Bool.and_eq_true_iff.1 hz
      have heq := hzf hz
      rw [if_pos hinc]
      omega
  · intro hsame
    cases hcmp : comparesOnly i.inst.op with
    | true => rfl
    | false =>
        have hzero : v = 0 := by
          rcases hsame with hop | hv
          · rw [hop] at hcmp
            cases hcmp
          · exact hv
        show (Function.update c.gpr g _ g).toNat % _ = _
        rw [Function.update_self, low_regWrite (.inr (le_refl _)), ← hget, hzero]
        have hlt := (c.get sz (.reg g 0)).isLt
        rw [BitVec.ofNat_eq_ofNat, BitVec.setWidth_zero, BitVec.sub_zero, Nat.mod_eq_of_lt hlt]

theorem copied_below {n k w : ℕ} {cand r : Reg} {g gr : Gpr} (hg : gprFamily cand = some g)
    (hgr : gprFamily r = some gr) (hne : sameGPR r cand = false) (before : List Instruction) :
    ∀ (between : List Instruction) (c c' : Cpu), copiedScan cand r before between = true →
    CopiedHolds unnamed n k w cand r before → Ran unnamed before c c' → Below w n (c'.gpr gr) →
    Below k n (c'.gpr g) := by
  induction before with
  | nil =>
      intro between c c' hscan
      cases hscan
  | cons i before ih =>
      intro between c c' hscan hholds hran hb
      obtain ⟨c₁, hbefore, hi⟩ := ran_cons.1 hran
      have hpass : ∀ between', copiedScan cand r before between' = true →
          Spares unnamed i cand ∧ Spares unnamed i r ∧ CopiedHolds unnamed n k w cand r before →
          Below k n (c'.gpr g) := by
        intro between' hscan' hkeeps
        rw [hkeeps.2.1.eq hgr hi] at hb
        rw [hkeeps.1.eq hg hi]
        exact ih between' c c₁ hscan' hkeeps.2.2 hbefore hb
      unfold copiedScan at hscan
      unfold CopiedHolds at hholds
      split at hscan
      · rename_i d s hop hd hs
        rw [hop, hd, hs] at hholds
        dsimp only at hholds
        split at hscan
        · rename_i hsame
          rw [if_pos hsame] at hholds
          obtain ⟨hdc, hsr⟩ := Bool.and_eq_true_iff.1 hsame
          obtain ⟨k', gr', hw, hgr', hnarrow⟩ := hholds
          obtain rfl : gr' = gr := Option.some.inj (hgr'.symm.trans hgr)
          have hdg := sameGPR_eq hg hdc
          have hdr : sameGPR d r = false := by
            unfold sameGPR at hne ⊢
            rw [hg, hgr] at hne
            rw [hdg, hgr]
            simpa using fun h => (by simpa using hne : gr' ≠ g) h.symm
          rw [(keeps_of_mov hop hd hdr).eq hgr hi] at hb
          exact below_copy hw hd hdg hs (sameGPR_eq hgr hsr) hi
            (hb.widen (hnarrow.imp id fun h => h.holds c c₁ hbefore))
        · rename_i hdiff
          rw [if_neg hdiff] at hholds
          split at hscan
          · cases hscan
          · exact hpass _ hscan hholds
      · rename_i hno
        split at hholds
        · rename_i d s hop hd hs
          exact absurd hs (hno d s hop hd)
        · split at hscan
          · cases hscan
          · exact hpass _ hscan hholds

theorem check_below {inclusive : Bool} {n k : ℕ} {cand r : Reg} {g : Gpr} {v : BitVec 64} {c₁ : Cpu}
    (hg : gprFamily cand = some g) (hop : i.inst.op = .cmp ∨ i.inst.op = .sub)
    (hr : i.inst.arg 0 = some (.reg r)) (hv : i.inst.arg 1 = some (.imm v))
    (hfrom : (sameGPR r cand || copiedFrom before cand r) = true)
    (hn : (if inclusive then v.toNat + 1 else v.toNat) = n) (hwhole : CheckWhole unnamed n k i before cand)
    (hran : Ran unnamed before c c₁) (hi : Executes unnamed i c₁ c')
    (hs : shown inclusive c'.flags = true) : Below k n (c'.gpr g) := by
  unfold CheckWhole at hwhole
  rw [hr] at hwhole
  obtain ⟨gr, sz, hloc, hwhole⟩ := hwhole
  have hgr := gprFamily_loc hloc
  obtain ⟨hb, hkept⟩ := below_compare hop hr hloc hv hi hs
  rw [hn] at hb
  split at hwhole
  · rename_i hsame
    obtain rfl : gr = g := Option.some.inj (hgr.symm.trans (sameGPR_eq hg hsame))
    obtain ⟨hnew, hnarrow⟩ := hwhole
    have hzero : i.inst.op = .cmp ∨ v = 0 := by
      refine hnew.imp id fun h0 => ?_
      rw [hv] at h0
      cases h0
      rfl
    have hb' : Below sz.bits n (c'.gpr gr) := by
      unfold Below
      rw [hkept hzero]
      exact hb
    exact hb'.widen (hnarrow.imp id fun h => h.holds c c' (ran_cons.2 ⟨c₁, hran, hi⟩))
  · rename_i hdiff
    have hdiff : sameGPR r cand = false := by simpa using hdiff
    rw [hdiff, Bool.false_or] at hfrom
    have hkeep : c'.gpr g = c₁.gpr g := by
      apply executes_kept hi
      have hnot : g ∉ argGpr i.inst 0 := by
        rw [argGpr, hr]
        dsimp only
        rw [hgr]
        unfold sameGPR at hdiff
        rw [hg, hgr] at hdiff
        simpa using fun h => (by simpa using hdiff : gr ≠ g) h.symm
      unfold gprsWritten explicitGprs implicitGprs
      rcases hop with hop | hop
      · rw [hop]
        simp
      · rw [hop]
        simpa using hnot
    rw [hkeep]
    have hscan : copiedScan cand r before [] = true := by
      unfold copiedFrom at hfrom
      split at hfrom
      · cases hfrom
      · exact hfrom
    exact copied_below hg hgr hdiff before [] c c₁ hscan hwhole hran hb

/-- **A bounds check** before a jump that is fallen through bounds the register that is followed. -/
theorem boundCheck_below {inclusive : Bool} {n : ℕ} (before : List Instruction) :
    ∀ (cand : Reg) (g : Gpr) (k : ℕ) (c c' : Cpu), gprFamily cand = some g →
    boundCheck true inclusive before cand = some n → CheckHolds unnamed n before cand k →
    Ran unnamed before c c' → shown inclusive c'.flags = true → Below k n (c'.gpr g) := by
  induction before with
  | nil =>
      intro cand g k c c' _ hcheck
      cases hcheck
  | cons prev before ih =>
      intro cand g k c c' hg hcheck hholds hran hs
      obtain ⟨c₁, hbefore, hi⟩ := ran_cons.1 hran
      -- a move: nothing, or a copy that carries the bound
      have hmove : passesChecks prev.inst.op →
          (match copyInto prev.inst cand with
            | none => boundCheck true inclusive before cand
            | some none => none
            | some (some src) => boundCheck true inclusive before src) = some n →
          (match copyInto prev.inst cand with
            | none => CheckHolds unnamed n before cand k
            | some none => True
            | some (some src) => ∃ k', copyWidth prev.inst k n = some k' ∧
                CheckHolds unnamed n before src k') → Below k n (c'.gpr g) := by
        intro hop hcheck hholds
        rw [executes_flags hi hop] at hs
        split at hcheck
        · rename_i hcopy
          rw [hcopy] at hholds
          rw [(keeps_of_copyInto hop hcopy).eq hg hi]
          exact ih cand g k c c₁ hg hcheck hholds hbefore hs
        · cases hcheck
        · rename_i src hcopy
          rw [hcopy] at hholds
          obtain ⟨k', hw, hholds⟩ := hholds
          obtain ⟨d, gs, hd, hdc, hsrc, hgs⟩ := copyInto_some hg hcopy
          exact below_copy hw hd hdc hsrc hgs hi (ih src gs k' c c₁ hgs hcheck hholds hbefore hs)
      unfold boundCheck at hcheck
      unfold CheckHolds at hholds
      split at hcheck
      case h_7 =>
        rename_i hmov hlea hnop hmovzx hmovsx hmovsxd
        split at hcheck
        · rename_i hcmp
          split at hcheck
          · rename_i r v hr hv
            simp only [Option.ite_none_right_eq_some, Option.some.injEq] at hcheck
            obtain ⟨hcond, hn⟩ := hcheck
            have hwhole : CheckWhole unnamed n k prev before cand := by
              split at hholds
              all_goals first
                | exact hholds
                | contradiction
            exact check_below hg (hcmp.imp id And.right) hr hv hcond.1 hn hwhole hbefore hi hs
          · cases hcheck
        · cases hcheck
      all_goals
        rename_i hop
        rw [hop] at hholds
        exact hmove (by simp [passesChecks, hop]) hcheck hholds

/-! ### the count -/

theorem count_below {n : ℕ} (before : List Instruction) : ∀ (idx : Reg) (g : Gpr) (k : ℕ) (c c' : Cpu),
    gprFamily idx = some g → (switchTableCountKill before idx).1 = n → 0 < n →
    BoundCarried unnamed n before idx k → Ran unnamed before c c' → Below k n (c'.gpr g) := by
  induction before with
  | nil =>
      intro idx g k c c' _ hcount hpos
      rw [← hcount] at hpos
      cases hpos
  | cons i before ih =>
      intro idx g k c c' hg hcount hpos hcarried hran
      obtain ⟨c₁, hbefore, hi⟩ := ran_cons.1 hran
      unfold switchTableCountKill at hcount
      unfold BoundCarried at hcarried
      cases hmask : maskCount before i.inst idx with
      | some m =>
          rw [hmask] at hcount hcarried
          cases m with
          | some m =>
              obtain rfl : m = n := hcount
              exact mask_below hg hmask hcarried hbefore hi
          | none =>
              rw [← hcount] at hpos
              cases hpos
      | none =>
          rw [hmask] at hcount hcarried
          cases hjcc : jccCount before i.inst idx with
          | some m =>
              rw [hjcc] at hcount hcarried
              obtain rfl : m = n := hcount
              obtain ⟨hop, hholds⟩ := hcarried
              unfold jccCount at hjcc
              unfold Executes at hi
              rcases hop with hop | hop
              · rw [hop] at hjcc hi
                obtain ⟨hfalls, rfl⟩ := hi
                exact boundCheck_below before idx g k c c' hg hjcc hholds hbefore
                  ((Bool.not_eq_false' _).mp hfalls)
              · rw [hop] at hjcc hi
                obtain ⟨hfalls, rfl⟩ := hi
                exact boundCheck_below before idx g k c c' hg hjcc hholds hbefore
                  (by simpa [Cond.holds, shown] using hfalls)
          | none =>
              rw [hjcc] at hcount hcarried
              dsimp only at hcount hcarried
              split at hcount
              · rename_i hcopy
                rw [hcopy] at hcarried
                rw [hcarried.1.eq hg hi]
                exact ih idx g k c c₁ hg hcount hpos hcarried.2 hbefore
              · rename_i src hcopy
                rw [hcopy] at hcarried
                obtain ⟨k', hw, hcarried⟩ := hcarried
                obtain ⟨d, gs, hd, hdg, hsrc, hgs⟩ := copyInto_some hg hcopy
                exact below_copy hw hd hdg hsrc hgs hi
                  (ih src gs k' c c₁ hgs hcount hpos hcarried hbefore)
              · rw [← hcount] at hpos
                cases hpos

end

/-- The value of a register. -/
def regValue (c : Cpu) (r : Reg) : ℕ :=
  match r.loc with
  | some (g, lo, sz) => (c.get sz (.reg g lo)).toNat
  | none => 0

/-- What a reported count relies on holds, for an index register that starts at bit 0. -/
def CountCarried (unnamed : ℕ → List Gpr) (window : List Instruction) (idx : Reg) : Prop :=
  ∃ g sz, idx.loc = some (g, 0, sz) ∧
    BoundCarried unnamed (switchTableCountKill window.reverse idx).1 window.reverse idx sz.bits

/-- **Bounds of an index.**  Where the scan relies on nothing that does not hold, the index is below
the reported count after every execution of the window. -/
theorem switchTableCount_holds (unnamed : ℕ → List Gpr) (window : List Instruction) (idx : Reg)
    (hpos : 0 < (switchTableCountKill window.reverse idx).1) (hcarried : CountCarried unnamed window idx) :
    ∀ c c', FallsThrough unnamed window c c' →
      regValue c' idx < (switchTableCountKill window.reverse idx).1 := by
  intro c c' hfalls
  obtain ⟨g, sz, hloc, hcarried⟩ := hcarried
  have hran : Ran unnamed window.reverse c c' := by
    rw [Ran, List.reverse_reverse]
    exact hfalls
  have hb := count_below window.reverse idx g sz.bits c c' (gprFamily_loc hloc) rfl hpos hcarried hran
  unfold regValue
  rw [hloc]
  show (c'.get sz (.reg g 0)).toNat < _
  rw [toNat_get]
  exact hb

/-- `mov eax, edi; cmp eax, 7; ja`. -/
def checkedWindow : List Instruction :=
  [{ address := 0x40, inst := { op := .mov, len := 2, args := [.reg (.l .rax), .reg (.l .rdi)] } },
   { address := 0x42, inst := { op := .cmp, len := 3, args := [.reg (.l .rax), .imm 7] } },
   { address := 0x45, inst := { op := .jcc .a, len := 6, args := [.rel 0x100] } }]

/-- There `rax` is at most 7. -/
theorem checkedWindow_holds : (switchTableCountKill checkedWindow.reverse (.q .rax)).1 = 8 ∧
    ∀ c c', FallsThrough (fun _ => []) checkedWindow c c' → regValue c' (.q .rax) < 8 :=
  ⟨by decide, switchTableCount_holds (fun _ => []) checkedWindow (.q .rax) (by decide)
    ⟨.rax, .q, rfl, .inl rfl, .rax, .l, rfl, .inl rfl, .inr (.kept (.inr fun g hg hmem => by
      simp [gprsWritten, explicitGprs, implicitGprs] at hmem) (.zeroExtended rfl rfl (le_refl 32)))⟩⟩

/-- `and al, 7`. -/
def maskedWindow : List Instruction :=
  [{ address := 0x40, inst := { op := .and, len := 2, args := [.reg (.b .rax), .imm 7] } }]

/-- `sub eax, 5; ja`. -/
def subtractedWindow : List Instruction :=
  [{ address := 0x40, inst := { op := .sub, len := 3, args := [.reg (.l .rax), .imm 5] } },
   { address := 0x43, inst := { op := .jcc .a, len := 6, args := [.rel 0x100] } }]

/-- `cmp rax, 5; jb`. -/
def belowWindow : List Instruction :=
  [{ address := 0x40, inst := { op := .cmp, len := 4, args := [.reg (.q .rax), .imm 5] } },
   { address := 0x44, inst := { op := .jcc .b, len := 6, args := [.rel 0x100] } }]

/-- A processor with a value in `rax`. -/
def cpuWith (v : BitVec 64) : Cpu :=
  { gpr := fun g => if g = .rax then v else 0
    mem := fun _ => 0
    fsBase := 0
    gsBase := 0
    flags := ⟨false, false, false, false, false, false⟩ }

/-- `and al, 7` leaves 256 in `rax`, and 8 is reported; `sub eax, 5; ja` and `cmp rax, 5; jb` fall
through with -5 in `eax` and 9 in `rax`, and 6 and 5 are reported. -/
theorem switchTableCount_wrong :
    (switchTableCountKill maskedWindow.reverse (.q .rax) = (8, false, .q .rax) ∧
      ∃ c c', FallsThrough (fun _ => []) maskedWindow c c' ∧ regValue c' (.q .rax) = 256) ∧
    (switchTableCountKill subtractedWindow.reverse (.l .rax) = (6, false, .l .rax) ∧
      ∃ c c', FallsThrough (fun _ => []) subtractedWindow c c' ∧ regValue c' (.l .rax) = 2 ^ 32 - 5) ∧
    (switchTableCountKill belowWindow.reverse (.q .rax) = (5, false, .q .rax) ∧
      ∃ c c', FallsThrough (fun _ => []) belowWindow c c' ∧ regValue c' (.q .rax) = 9) := by
  refine ⟨⟨by decide, cpuWith 256, _, ⟨_, rfl, rfl⟩, ?_⟩,
    ⟨by decide, cpuWith 0, _, ⟨_, rfl, _, ⟨?_, rfl⟩, rfl⟩, ?_⟩,
    ⟨by decide, cpuWith 9, _, ⟨_, rfl, _, ⟨?_, rfl⟩, rfl⟩, ?_⟩⟩
  all_goals decide +kernel

end PS4Recomp.Disasm
