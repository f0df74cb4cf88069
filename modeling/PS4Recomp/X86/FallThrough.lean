import PS4Recomp.X86.Moves
import PS4Recomp.X86.RegEffects

/-!
# Executions that fall through

What instructions do to the general registers and the flags when control goes on behind them.

* `extractBits` — `BZHI` and `BEXTR`;
* `zeroExtends` — the operations known to clear the upper half of a 32-bit destination;
* `LeavesOthers` — what is known of an instruction without a description of its own;
* `Executes`, `FallsThrough` — an instruction, and a list of them;
* `executes_kept`, `executes_flags`, `executes_low32` — what an instruction leaves alone;
* `moves_put`, `step_logical` — the moves and the logical operations as writes of their results;
* `not_executes_of_stops` — a jump or a terminator is not run through.

The moves and the logical operations are described exactly, with whatever memory holds.  A conditional
jump falls through when its condition does not hold, another jump or a terminator never does.
-/

namespace PS4Recomp.X86

open Disasm Library

/-! ### instructions -/

section

variable {n : ℕ}

/-- `BZHI` keeps the low bits, `BEXTR` takes a field; the control gives the number of bits, for
`BEXTR` behind the first of them. -/
def extractBits (op : Op) (v ctl : BitVec n) : BitVec n :=
  match op with
  | .bzhi => BitVec.ofNat n (v.toNat % 2 ^ (ctl.toNat % 256))
  | _ => BitVec.ofNat n (v.toNat / 2 ^ (ctl.toNat % 256) % 2 ^ (ctl.toNat / 256 % 256))

end

/-- A 32-bit destination is zero-extended. -/
def zeroExtends (inst : Inst) : Bool :=
  match inst.op with
  | .mov | .movzx | .movsx | .movsxd | .lea | .cmovcc _ | .movbe
  | .add | .sub | .and | .or | .xor | .adc | .sbb | .inc | .dec | .neg | .not
  | .shl | .shr | .sar | .popcnt | .tzcnt | .lzcnt | .andn | .bextr | .bzhi => true
  | .imul => 1 < inst.args.length
  | _ => false

/-- Control never goes on behind the instruction. -/
def stops (op : Op) : Bool := endsStraightLine op && !isJcc op

section

variable (unnamed : ℕ → List Gpr)

/-- The registers an instruction does not write are kept. -/
structure LeavesOthers (i : Instruction) (c c' : Cpu) : Prop where
  kept : ∀ g, g ∉ gprsWritten unnamed i.inst → c'.gpr g = c.gpr g
  flags : i.inst.op = .mov → c'.flags = c.flags
  low32 : ∀ g, zeroExtends i.inst = true → i.inst.arg 0 = some (.reg (.l g)) →
    (c'.gpr g).toNat < 2 ^ 32

/-- `BZHI` and `BEXTR`; the source may lie anywhere. -/
def Extracts (i : Instruction) (c c' : Cpu) : Prop :=
  ∃ dst src ctl g g' sz, i.inst.args = [.reg dst, src, .reg ctl] ∧
    dst.loc = some (g, 0, sz) ∧ ctl.loc = some (g', 0, sz) ∧ (sz = .l ∨ sz = .q) ∧
    ∃ v f, (∀ w, c.source i sz src = some w → v = w) ∧
      c' = { c.put sz (.reg g 0) (extractBits i.inst.op v (c.get sz (.reg g' 0))) with flags := f }

/-- One instruction. -/
def Executes (i : Instruction) (c c' : Cpu) : Prop :=
  match i.inst.op with
  | .jcc cc => cc.holds c.flags = false ∧ c' = c
  | .nop => c' = c
  | .movzx | .movsx | .movsxd | .lea => moves i c = some c'
  | .mov => i.inst.args.length = 2 ∧
      match moves i c with
      | some d => c' = d
      | none => LeavesOthers unnamed i c c'  -- a segment, control or debug register
  | .add | .sub | .and | .or | .xor | .cmp | .test => step i c = some c'
  | .bextr | .bzhi => Extracts i c c'
  | op => stops op = false ∧ LeavesOthers unnamed i c c'

/-- A list of instructions, run from its start to its end. -/
def FallsThrough : List Instruction → Cpu → Cpu → Prop
  | [], c, c' => c' = c
  | i :: rest, c, c' => ∃ c₁, Executes unnamed i c c₁ ∧ FallsThrough rest c₁ c'

end

/-! ### writes -/

theorem gprFamily_loc {r : Reg} {g : Gpr} {lo : ℕ} {sz : Size} (h : r.loc = some (g, lo, sz)) :
    gprFamily r = some g := by
  cases r with
  | b g' => cases h; rfl
  | h g' => cases h; rfl
  | w g' => cases h; rfl
  | l g' => cases h; rfl
  | q g' => cases h; rfl
  | _ => cases h

theorem put_kept {c : Cpu} {addr : Mem → Option Addr} {i : Instruction} {sz : Size} {dst : Arg}
    {d : Place} (hdst : i.inst.arg 0 = some dst) (hd : Cpu.placeBy addr i sz dst = some d)
    (v : BitVec sz.bits) {g : Gpr} (hg : g ∉ argGpr i.inst 0) : (c.put sz d v).gpr g = c.gpr g := by
  cases dst with
  | imm w => cases hd
  | rel w => cases hd
  | mem m =>
      obtain ⟨-, a, -, rfl⟩ := placeBy_mem.1 hd
      rfl
  | reg r =>
      obtain ⟨g', lo, hloc, rfl⟩ := placeBy_reg.1 hd
      rw [argGpr, hdst] at hg
      simp only [gprFamily_loc hloc, Option.toList_some, List.mem_singleton] at hg
      exact Function.update_of_ne hg _ _

/-- A write to a 32-bit register leaves a 32-bit number. -/
theorem put_low32 {c : Cpu} {addr : Mem → Option Addr} {i : Instruction} {sz : Size} {g : Gpr}
    {d : Place} (hd : Cpu.placeBy addr i sz (.reg (.l g)) = some d) (v : BitVec sz.bits) :
    ((c.put sz d v).gpr g).toNat < 2 ^ 32 := by
  obtain ⟨g', lo, hloc, rfl⟩ := placeBy_reg.1 hd
  cases hloc
  show (Function.update c.gpr g (v.setWidth 64) g).toNat < 2 ^ 32
  have hlt : v.toNat < 2 ^ 32 := v.isLt
  rw [Function.update_self, BitVec.toNat_setWidth]
  omega

section

variable {unnamed : ℕ → List Gpr} {i : Instruction} {c c' : Cpu}

/-- What the exactly described moves have in common: one write to the first operand. -/
theorem moves_put (h : moves i c = some c')
    (hop : i.inst.op = .mov ∨ i.inst.op = .movzx ∨ i.inst.op = .movsx ∨ i.inst.op = .movsxd ∨
      i.inst.op = .lea) :
    ∃ addr sz dst d v, i.inst.arg 0 = some dst ∧ Cpu.placeBy addr i sz dst = some d ∧
      c' = c.put sz d v := by
  unfold moves moveBy at h
  split at h
  · rename_i dst src hmov hargs
    obtain ⟨sz, d, v, hd, -, -, rfl⟩ := movBy_some.1 h
    exact ⟨_, sz, dst, d, v, by rw [Inst.arg, hargs]; rfl, hd, rfl⟩
  · rename_i dst src hmov hargs
    obtain ⟨sz, ssz, d, e, -, -, hd, -, rfl⟩ := extendBy_some.1 h
    exact ⟨_, sz, .reg dst, d, _, by rw [Inst.arg, hargs]; rfl, hd, rfl⟩
  · rename_i dst src hmov hargs
    obtain ⟨sz, ssz, d, e, -, -, hd, -, rfl⟩ := extendBy_some.1 h
    exact ⟨_, sz, .reg dst, d, _, by rw [Inst.arg, hargs]; rfl, hd, rfl⟩
  · rename_i dst src hmov hargs
    obtain ⟨sz, ssz, d, e, -, -, hd, -, rfl⟩ := extendBy_some.1 h
    exact ⟨_, sz, .reg dst, d, _, by rw [Inst.arg, hargs]; rfl, hd, rfl⟩
  · rename_i cc dst hmov hargs
    simp [hmov] at hop
  · rename_i cc dst src hmov hargs
    simp [hmov] at hop
  · rename_i x y hmov hargs
    simp [hmov] at hop
  · rename_i dst m hmov hargs
    obtain ⟨sz, d, a, -, hd, -, rfl⟩ := leaBy_some.1 h
    exact ⟨_, sz, .reg dst, d, _, by rw [Inst.arg, hargs]; rfl, hd, rfl⟩
  · cases h

/-- `ADD`, `SUB`, `AND`, `OR`, `XOR`, `CMP` and `TEST`. -/
def isLogical (op : Op) : Prop :=
  op = .add ∨ op = .sub ∨ op = .and ∨ op = .or ∨ op = .xor ∨ op = .cmp ∨ op = .test

/-- A logical operation: its operands, and one write to the first unless it compares. -/
theorem step_logical (h : step i c = some c') (hop : isLogical i.inst.op) :
    ∃ dst src sz d b r f, i.inst.args = [dst, src] ∧ c.place i sz dst = some d ∧
      c.source i sz src = some b ∧ binary i.inst.op c.flags (c.get sz d) b = some (r, f) ∧
      c' = { (if comparesOnly i.inst.op then c else c.put sz d r) with flags := f } := by
  have hbin : ∃ dst src, i.inst.args = [dst, src] ∧ binaryStep i c dst src = some c' := by
    have hunary : ∀ dst, unaryStep i c dst ≠ some c' := by
      intro dst hu
      unfold unaryStep at hu
      simp only [Option.bind_eq_bind, Option.bind_eq_some_iff] at hu
      obtain ⟨sz, -, d, -, r, hr, -⟩ := hu
      rcases hop with hop | hop | hop | hop | hop | hop | hop
      all_goals
        rw [hop] at hr
        cases hr
    unfold step at h
    rcases hop with hop | hop | hop | hop | hop | hop | hop
    all_goals
      rw [hop] at h
      dsimp only at h
      split at h
      · rename_i dst src hargs
        exact ⟨dst, src, hargs, h⟩
      · rename_i dst hargs
        exact absurd h (hunary dst)
      · cases h
  obtain ⟨dst, src, hargs, hbin⟩ := hbin
  unfold binaryStep at hbin
  simp only [Option.bind_eq_bind, Option.bind_eq_some_iff, Option.some.injEq] at hbin
  obtain ⟨sz, -, -, -, d, hd, b, hb, r, hr, rfl⟩ := hbin
  exact ⟨dst, src, sz, d, b, r.1, r.2, hargs, hd, hb, hr, rfl⟩

/-- An exactly described instruction writes its first operand only. -/
theorem logical_kept (h : step i c = some c') (hop : isLogical i.inst.op) {g : Gpr}
    (hg : g ∉ gprsWritten unnamed i.inst) : c'.gpr g = c.gpr g := by
  obtain ⟨dst, src, sz, d, b, r, f, hargs, hd, -, -, rfl⟩ := step_logical h hop
  cases hcmp : comparesOnly i.inst.op with
  | true => rfl
  | false =>
      rw [Cpu.place_eq] at hd
      refine put_kept (by rw [Inst.arg, hargs]; rfl) hd r fun hmem => hg ?_
      rw [gprsWritten, List.mem_append]
      left
      rcases hop with hop | hop | hop | hop | hop | hop | hop
      case inr.inr.inr.inr.inr.inl => rw [hop] at hcmp; cases hcmp
      case inr.inr.inr.inr.inr.inr => rw [hop] at hcmp; cases hcmp
      all_goals
        rw [explicitGprs, hop]
        exact hmem

/-- An instruction keeps the registers it does not write. -/
theorem executes_kept (h : Executes unnamed i c c') {g : Gpr} (hg : g ∉ gprsWritten unnamed i.inst) :
    c'.gpr g = c.gpr g := by
  have hmove : ∀ d, moves i c = some d → explicitGprs i.inst = argGpr i.inst 0 →
      (i.inst.op = .mov ∨ i.inst.op = .movzx ∨ i.inst.op = .movsx ∨ i.inst.op = .movsxd ∨
        i.inst.op = .lea) → d.gpr g = c.gpr g := by
    intro d hd hex hop
    obtain ⟨addr, sz, dst, p, v, hdst, hp, rfl⟩ := moves_put hd hop
    refine put_kept hdst hp v fun hmem => hg ?_
    rw [gprsWritten, hex, List.mem_append]
    exact Or.inl hmem
  have hextract : Extracts i c c' → explicitGprs i.inst = argGpr i.inst 0 → c'.gpr g = c.gpr g := by
    rintro ⟨dst, src, ctl, g', g'', sz, hargs, hdst, -, -, v, f, -, rfl⟩ hex
    have harg : i.inst.arg 0 = some (.reg dst) := by rw [Inst.arg, hargs]; rfl
    have hplace : Cpu.placeBy (fun _ => none) i sz (.reg dst) = some (.reg g' 0) :=
      placeBy_reg.2 ⟨g', 0, hdst, rfl⟩
    refine put_kept harg hplace _ fun hmem => hg ?_
    rw [gprsWritten, hex, List.mem_append]
    exact Or.inl hmem
  unfold Executes at h
  split at h
  case h_1 hop => rw [h.2]
  case h_2 hop => rw [h]
  case h_3 hop => exact hmove _ h (by rw [explicitGprs, hop]) (by simp [hop])
  case h_4 hop => exact hmove _ h (by rw [explicitGprs, hop]) (by simp [hop])
  case h_5 hop => exact hmove _ h (by rw [explicitGprs, hop]) (by simp [hop])
  case h_6 hop => exact hmove _ h (by rw [explicitGprs, hop]) (by simp [hop])
  case h_7 hop =>
    obtain ⟨-, h⟩ := h
    split at h
    · rename_i d hd
      rw [h]
      exact hmove d hd (by rw [explicitGprs, hop]) (by simp [hop])
    · exact h.kept g hg
  case h_15 hop => exact hextract h (by rw [explicitGprs, hop])
  case h_16 hop => exact hextract h (by rw [explicitGprs, hop])
  case h_17 => exact h.2.kept g hg
  all_goals
    rename_i hop
    exact logical_kept h (by simp [isLogical, hop]) hg

theorem executes_flags (h : Executes unnamed i c c')
    (hop : i.inst.op = .mov ∨ i.inst.op = .lea ∨ i.inst.op = .nop ∨ i.inst.op = .movzx ∨
      i.inst.op = .movsx ∨ i.inst.op = .movsxd) : c'.flags = c.flags := by
  have hput : ∀ (sz : Size) (d : Place) (v : BitVec sz.bits), (c.put sz d v).flags = c.flags := by
    intro sz d v
    cases d with
    | reg g lo => rfl
    | mem a => rfl
  have hmove : ∀ d, moves i c = some d →
      (i.inst.op = .mov ∨ i.inst.op = .movzx ∨ i.inst.op = .movsx ∨ i.inst.op = .movsxd ∨
        i.inst.op = .lea) → d.flags = c.flags := by
    intro d hd hop
    obtain ⟨addr, sz, dst, p, v, -, -, rfl⟩ := moves_put hd hop
    exact hput sz p v
  unfold Executes at h
  rcases hop with hop | hop | hop | hop | hop | hop
  all_goals
    rw [hop] at h
    dsimp only at h
  · obtain ⟨-, h⟩ := h
    split at h
    · rename_i d hd
      rw [h]
      exact hmove d hd (by simp [hop])
    · exact h.flags hop
  · exact hmove _ h (by simp [hop])
  · rw [h]
  · exact hmove _ h (by simp [hop])
  · exact hmove _ h (by simp [hop])
  · exact hmove _ h (by simp [hop])

/-- A 32-bit destination of an operation that zero-extends holds a 32-bit number. -/
theorem executes_low32 (h : Executes unnamed i c c') {g : Gpr} (hz : zeroExtends i.inst = true)
    (harg : i.inst.arg 0 = some (.reg (.l g))) : (c'.gpr g).toNat < 2 ^ 32 := by
  have hmove : ∀ d, moves i c = some d →
      (i.inst.op = .mov ∨ i.inst.op = .movzx ∨ i.inst.op = .movsx ∨ i.inst.op = .movsxd ∨
        i.inst.op = .lea) → (d.gpr g).toNat < 2 ^ 32 := by
    intro d hd hop
    obtain ⟨addr, sz, dst, p, v, hdst, hp, rfl⟩ := moves_put hd hop
    obtain rfl : Arg.reg (.l g) = dst := Option.some.inj (harg.symm.trans hdst)
    exact put_low32 hp v
  have hextract : Extracts i c c' → (c'.gpr g).toNat < 2 ^ 32 := by
    rintro ⟨dst, src, ctl, g', g'', sz, hargs, hdst, -, -, v, f, -, rfl⟩
    have hreg : Reg.l g = dst := by
      rw [Inst.arg, hargs] at harg
      cases harg
      rfl
    subst hreg
    have hplace : Cpu.placeBy (fun _ => none) i sz (.reg (.l g)) = some (.reg g' 0) :=
      placeBy_reg.2 ⟨g', 0, hdst, rfl⟩
    exact put_low32 hplace _
  have hlogical : step i c = some c' → isLogical i.inst.op → comparesOnly i.inst.op = false →
      (c'.gpr g).toNat < 2 ^ 32 := by
    intro hs hop hcmp
    obtain ⟨dst, src, sz, d, b, r, f, hargs, hd, -, -, rfl⟩ := step_logical hs hop
    have hreg : Arg.reg (.l g) = dst := by
      rw [Inst.arg, hargs] at harg
      cases harg
      rfl
    subst hreg
    rw [Cpu.place_eq] at hd
    rw [hcmp]
    exact put_low32 hd r
  unfold Executes at h
  split at h
  case h_1 hop => simp [zeroExtends, hop] at hz
  case h_2 hop => simp [zeroExtends, hop] at hz
  case h_3 hop => exact hmove _ h (by simp [hop])
  case h_4 hop => exact hmove _ h (by simp [hop])
  case h_5 hop => exact hmove _ h (by simp [hop])
  case h_6 hop => exact hmove _ h (by simp [hop])
  case h_7 hop =>
    obtain ⟨-, h⟩ := h
    split at h
    · rename_i d hd
      rw [h]
      exact hmove d hd (by simp [hop])
    · exact h.low32 g hz harg
  case h_13 hop => simp [zeroExtends, hop] at hz
  case h_14 hop => simp [zeroExtends, hop] at hz
  case h_15 hop => exact hextract h
  case h_16 hop => exact hextract h
  case h_17 => exact h.2.low32 g hz harg
  all_goals
    rename_i hop
    exact hlogical h (by simp [isLogical, hop]) (by rw [hop]; rfl)

theorem not_executes_of_stops (hs : stops i.inst.op = true) : ¬Executes unnamed i c c' := by
  intro h
  unfold Executes at h
  split at h
  case h_17 =>
    rw [h.1] at hs
    cases hs
  all_goals
    rename_i hop
    rw [hop] at hs
    cases hs

end

/-! ### a list -/

variable {unnamed : ℕ → List Gpr}

theorem fallsThrough_concat (insts : List Instruction) (i : Instruction) : ∀ c c' : Cpu,
    FallsThrough unnamed (insts ++ [i]) c c' ↔
      ∃ c₁, FallsThrough unnamed insts c c₁ ∧ Executes unnamed i c₁ c' := by
  induction insts with
  | nil =>
      intro c c'
      constructor
      · rintro ⟨c₁, hi, h⟩
        cases h
        exact ⟨c, rfl, hi⟩
      · rintro ⟨c₁, h, hi⟩
        cases h
        exact ⟨c', hi, rfl⟩
  | cons j insts ih =>
      intro c c'
      constructor
      · rintro ⟨c₁, hj, hrest⟩
        obtain ⟨c₂, hinsts, hi⟩ := (ih c₁ c').1 hrest
        exact ⟨c₂, ⟨c₁, hj, hinsts⟩, hi⟩
      · rintro ⟨c₂, ⟨c₁, hj, hinsts⟩, hi⟩
        exact ⟨c₁, hj, (ih c₁ c').2 ⟨c₂, hinsts, hi⟩⟩

end PS4Recomp.X86
