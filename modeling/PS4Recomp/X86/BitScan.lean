import PS4Recomp.X86.Moves

/-!
# Bit scans and counts

The x86 meaning of `BSF`, `BSR`, `TZCNT`, `LZCNT` and `POPCNT`.

* `scanResult` — what an instruction leaves in its destination; nothing when `BSF` and `BSR` find no
  one;
* `scanFlags` — its flags; those that are undefined are left as they are;
* `scanBy` — one instruction, with memory operands at given addresses.
-/

namespace PS4Recomp.X86

open Library

variable {n : ℕ}

/-- The result for the source `v`. -/
def scanResult (op : Op) (v : BitVec n) : Option (BitVec n) :=
  match op with
  | .tzcnt => some v.ctz
  | .lzcnt => some v.clz
  | .popcnt => some v.cpop
  | .bsf => if v = 0 then none else some v.ctz
  | .bsr => if v = 0 then none else some (BitVec.ofNat n (n - 1) - v.clz)
  | _ => none

/-- The flags: `TZCNT` and `LZCNT` tell an empty source by `CF`, the others by `ZF`. -/
def scanFlags (op : Op) (f : Flags) (v : BitVec n) : Flags :=
  match op with
  | .tzcnt => { f with cf := v == 0, zf := v.ctz == 0 }
  | .lzcnt => { f with cf := v == 0, zf := v.clz == 0 }
  | .popcnt =>
      { cf := false, pf := false, af := false, zf := v == 0, sf := false, of := false }
  | _ => { f with zf := v == 0 }

/-- The five instructions. -/
def isScan : Op → Bool
  | .tzcnt | .lzcnt | .popcnt | .bsf | .bsr => true
  | _ => false

theorem isScan_cases {op : Op} (h : isScan op = true) :
    op = .tzcnt ∨ op = .lzcnt ∨ op = .popcnt ∨ op = .bsf ∨ op = .bsr := by
  unfold isScan at h
  split at h
  · exact .inl rfl
  · exact .inr (.inl rfl)
  · exact .inr (.inr (.inl rfl))
  · exact .inr (.inr (.inr (.inl rfl)))
  · exact .inr (.inr (.inr (.inr rfl)))
  · cases h

/-- The processor with a register of size `sz` written, if there is a result. -/
def Cpu.putResult (c : Cpu) (sz : Size) (g : Gpr) (r : Option (BitVec sz.bits)) : Cpu :=
  match r with
  | some r => c.put sz (.reg g 0) r
  | none => c

/-- One of them. -/
def scanBy (c : Cpu) (addr : Mem → Option Addr) (i : Instruction) : Option Cpu :=
  match i.inst.args with
  | [.reg dst, src] => do
      guard (isScan i.inst.op)
      let (g, _, sz) ← dst.loc
      guard (sz ≠ .b)
      let e ← Cpu.placeBy addr i sz src
      some { c.putResult sz g (scanResult i.inst.op (c.get sz e)) with
        flags := scanFlags i.inst.op c.flags (c.get sz e) }
  | _ => none

/-- One of them on the processor. -/
def scans (i : Instruction) (c : Cpu) : Option Cpu := scanBy c (fun m => m.ea c i) i

theorem scanBy_some {c c' : Cpu} {addr : Mem → Option Addr} {i : Instruction} :
    scanBy c addr i = some c' ↔ ∃ dst src g lo sz e, i.inst.args = [.reg dst, src] ∧
      isScan i.inst.op = true ∧ dst.loc = some (g, lo, sz) ∧ sz ≠ .b ∧
      Cpu.placeBy addr i sz src = some e ∧
      c' = { c.putResult sz g (scanResult i.inst.op (c.get sz e)) with
        flags := scanFlags i.inst.op c.flags (c.get sz e) } := by
  unfold scanBy
  constructor
  · intro h
    split at h
    · rename_i dst src hargs
      simp only [Option.bind_eq_bind, Option.bind_eq_some_iff, Option.some.injEq] at h
      obtain ⟨_, hop, ⟨g, lo, sz⟩, hloc, _, hb, e, he, rfl⟩ := h
      refine ⟨dst, src, g, lo, sz, e, hargs, ?_, hloc, ?_, he, rfl⟩
      · simpa [guard] using hop
      · simpa [guard] using hb
    · cases h
  · rintro ⟨dst, src, g, lo, sz, e, hargs, hop, hloc, hb, he, rfl⟩
    rw [hargs]
    simp [hop, hloc, hb, he]

end PS4Recomp.X86
