import PS4Recomp.Library.Words
import PS4Recomp.X86.Moves

/-!
# Division and multiplication

The x86 meaning of `DIV` and `IDIV`, `MUL` and `IMUL`.

* `highPlace` — the register with the high half of a double-width value: `AH`, `DX`, `EDX` or `RDX`;
* `divideBy` — one division, with memory operands at given addresses; there is none when x86 raises
  an exception;
* `narrowBy` — the divisions of a dividend that says no more than its low half;
* `divides`, `narrow` — the division of the processor;
* `wideProduct`, `lowProduct` — the processor after a product, whole or cut to its low half;
* `multiplyBy`, `multiplies` — one multiplication.

The flags are undefined after a division, and all but `CF` and `OF` after a multiplication; they are
left as they are.
-/

namespace PS4Recomp.X86

open Library

/-- The high half of the double-width accumulator; its low half starts at bit 0 of `RAX`. -/
def highPlace : Size → Place
  | .b => .reg .rax 8
  | _ => .reg .rdx 0

/-- The double-width accumulator: `AX`, `DX:AX`, `EDX:EAX` or `RDX:RAX`. -/
def Cpu.wide (c : Cpu) (sz : Size) : BitVec (sz.bits + sz.bits) :=
  c.get sz (highPlace sz) ++ c.get sz (.reg .rax 0)

/-- The double-width accumulator written, low half first. -/
def Cpu.putWide (c : Cpu) (sz : Size) (lo hi : BitVec sz.bits) : Cpu :=
  (c.put sz (.reg .rax 0) lo).put sz (highPlace sz) hi

/-- The size and the value of the operand `src`. -/
def Cpu.operandBy (c : Cpu) (addr : Mem → Option Addr) (i : Instruction) (src : Arg) :
    Option ((sz : Size) × BitVec sz.bits) := do
  let sz ← src.size? i
  let p ← Cpu.placeBy addr i sz src
  some ⟨sz, c.get sz p⟩

/-- A division by the operand `src`. -/
def divisionBy (c : Cpu) (addr : Mem → Option Addr) (i : Instruction) (signed : Bool) (src : Arg) :
    Option Cpu := do
  let v ← c.operandBy addr i src
  let qr ← Words.divide signed (c.wide v.1) v.2
  some (c.putWide v.1 qr.1 qr.2)

/-- `DIV` and `IDIV`. -/
def divideBy (c : Cpu) (addr : Mem → Option Addr) (i : Instruction) : Option Cpu :=
  match i.inst.op, i.inst.args with
  | .div, [src] => divisionBy c addr i false src
  | .idiv, [src] => divisionBy c addr i true src
  | _, _ => none

/-- An 8- or 16-bit division, or one that is the division of the low half. -/
def narrowBy (c : Cpu) (addr : Mem → Option Addr) (i : Instruction) : Bool :=
  match i.inst.args with
  | [src] =>
      match c.operandBy addr i src with
      | some ⟨sz, v⟩ =>
          sz == .b || sz == .w || decide (Words.Narrow (i.inst.op == .idiv) (c.wide sz) v)
      | none => false
  | _ => false

/-- `DIV` and `IDIV` of the processor. -/
def divides (i : Instruction) (c : Cpu) : Option Cpu := divideBy c (fun m => m.ea c i) i

/-- An 8- or 16-bit division of the processor, or one that is the division of the low half. -/
def narrow (i : Instruction) (c : Cpu) : Bool := narrowBy c (fun m => m.ea c i) i

theorem operandBy_some {c : Cpu} {addr : Mem → Option Addr} {i : Instruction} {src : Arg}
    {v : (sz : Size) × BitVec sz.bits} : c.operandBy addr i src = some v ↔
      ∃ sz p, src.size? i = some sz ∧ Cpu.placeBy addr i sz src = some p ∧ v = ⟨sz, c.get sz p⟩ := by
  unfold Cpu.operandBy
  simp only [Option.bind_eq_bind, Option.bind_eq_some_iff, Option.some.injEq]
  constructor
  · rintro ⟨sz, hsz, p, hp, rfl⟩
    exact ⟨sz, p, hsz, hp, rfl⟩
  · rintro ⟨sz, p, hsz, hp, rfl⟩
    exact ⟨sz, hsz, p, hp, rfl⟩

theorem divisionBy_some {c c' : Cpu} {addr : Mem → Option Addr} {i : Instruction} {signed : Bool}
    {src : Arg} : divisionBy c addr i signed src = some c' ↔
      ∃ sz v q r, c.operandBy addr i src = some ⟨sz, v⟩ ∧
        Words.divide signed (c.wide sz) v = some (q, r) ∧ c' = c.putWide sz q r := by
  unfold divisionBy
  simp only [Option.bind_eq_bind, Option.bind_eq_some_iff, Option.some.injEq]
  constructor
  · rintro ⟨⟨sz, v⟩, hv, ⟨q, r⟩, hqr, rfl⟩
    exact ⟨sz, v, q, r, hv, hqr, rfl⟩
  · rintro ⟨sz, v, q, r, hv, hqr, rfl⟩
    exact ⟨⟨sz, v⟩, hv, (q, r), hqr, rfl⟩

/-- A division has one operand, and its operation tells the sign. -/
theorem divideBy_some {c c' : Cpu} {addr : Mem → Option Addr} {i : Instruction} :
    divideBy c addr i = some c' ↔ ∃ src, (i.inst.op = .div ∨ i.inst.op = .idiv) ∧
      i.inst.args = [src] ∧ divisionBy c addr i (i.inst.op == .idiv) src = some c' := by
  unfold divideBy
  constructor
  · intro h
    split at h
    · rename_i src hop hargs
      refine ⟨src, .inl hop, hargs, ?_⟩
      rw [hop]
      exact h
    · rename_i src hop hargs
      refine ⟨src, .inr hop, hargs, ?_⟩
      rw [hop]
      exact h
    · cases h
  · rintro ⟨src, hop | hop, hargs, h⟩
    · rw [hop] at h
      rw [hop, hargs]
      exact h
    · rw [hop] at h
      rw [hop, hargs]
      exact h

/-! ### multiplication -/

/-- `CF` and `OF` tell whether the high half of a product is significant. -/
def Flags.significance (f : Flags) (b : Bool) : Flags := { f with cf := b, of := b }

/-- The accumulator times `v`, in the double-width accumulator. -/
def Cpu.wideProduct (c : Cpu) (signed : Bool) (sz : Size) (v : BitVec sz.bits) : Cpu :=
  let p := Words.product (sz.bits + sz.bits) signed (c.get sz (.reg .rax 0)) v
  { c.putWide sz (p.setWidth sz.bits) (p.extractLsb' sz.bits sz.bits) with
    flags := c.flags.significance (Words.significant signed p) }

/-- The low half of a signed product, in a register. -/
def Cpu.lowProduct (c : Cpu) (sz : Size) (g : Gpr) (a b : BitVec sz.bits) : Cpu :=
  { c.put sz (.reg g 0) (a * b) with
    flags := c.flags.significance
      (Words.significant true (Words.product (sz.bits + sz.bits) true a b)) }

/-- The factor besides the source: the destination itself, or an immediate. -/
def Cpu.factor (c : Cpu) (sz : Size) (g : Gpr) : List Arg → Option (BitVec sz.bits)
  | [] => some (c.get sz (.reg g 0))
  | [.imm k] => some (k.setWidth sz.bits)
  | _ => none

/-- `MUL`, or `IMUL` with one operand. -/
def wideProductBy (c : Cpu) (addr : Mem → Option Addr) (i : Instruction) (signed : Bool) (src : Arg) :
    Option Cpu := do
  let v ← c.operandBy addr i src
  some (c.wideProduct signed v.1 v.2)

/-- `IMUL` with two operands or three. -/
def lowProductBy (c : Cpu) (addr : Mem → Option Addr) (i : Instruction) (dst : Reg) (src : Arg)
    (rest : List Arg) : Option Cpu := do
  let (g, _, sz) ← dst.loc
  guard (sz ≠ .b)
  let e ← Cpu.placeBy addr i sz src
  let k ← c.factor sz g rest
  some (c.lowProduct sz g k (c.get sz e))

/-- `MUL` and `IMUL`. -/
def multiplyBy (c : Cpu) (addr : Mem → Option Addr) (i : Instruction) : Option Cpu :=
  match i.inst.op, i.inst.args with
  | .mul, [src] => wideProductBy c addr i false src
  | .imul, [src] => wideProductBy c addr i true src
  | .imul, .reg dst :: src :: rest => lowProductBy c addr i dst src rest
  | _, _ => none

/-- `MUL` and `IMUL` of the processor. -/
def multiplies (i : Instruction) (c : Cpu) : Option Cpu := multiplyBy c (fun m => m.ea c i) i

/-- `IMUL` by an immediate that is 0 in the size of the destination. -/
def timesZero (i : Instruction) : Bool :=
  match i.inst.args with
  | [.reg dst, _, .imm k] => dst.loc.any fun d => k.setWidth d.2.2.bits == 0
  | _ => false

theorem wideProductBy_some {c c' : Cpu} {addr : Mem → Option Addr} {i : Instruction} {signed : Bool}
    {src : Arg} : wideProductBy c addr i signed src = some c' ↔
      ∃ sz v, c.operandBy addr i src = some ⟨sz, v⟩ ∧ c' = c.wideProduct signed sz v := by
  unfold wideProductBy
  simp only [Option.bind_eq_bind, Option.bind_eq_some_iff, Option.some.injEq]
  constructor
  · rintro ⟨⟨sz, v⟩, hv, rfl⟩
    exact ⟨sz, v, hv, rfl⟩
  · rintro ⟨sz, v, hv, rfl⟩
    exact ⟨⟨sz, v⟩, hv, rfl⟩

theorem lowProductBy_some {c c' : Cpu} {addr : Mem → Option Addr} {i : Instruction} {dst : Reg}
    {src : Arg} {rest : List Arg} : lowProductBy c addr i dst src rest = some c' ↔
      ∃ g lo sz e k, dst.loc = some (g, lo, sz) ∧ sz ≠ .b ∧ Cpu.placeBy addr i sz src = some e ∧
        c.factor sz g rest = some k ∧ c' = c.lowProduct sz g k (c.get sz e) := by
  unfold lowProductBy
  constructor
  · intro h
    simp only [Option.bind_eq_bind, Option.bind_eq_some_iff, Option.some.injEq] at h
    obtain ⟨⟨g, lo, sz⟩, hloc, _, hb, e, he, k, hk, rfl⟩ := h
    refine ⟨g, lo, sz, e, k, hloc, ?_, he, hk, rfl⟩
    simpa [guard] using hb
  · rintro ⟨g, lo, sz, e, k, hloc, hb, he, hk, rfl⟩
    simp [hloc, hb, he, hk]

theorem multiplyBy_some {c c' : Cpu} {addr : Mem → Option Addr} {i : Instruction} :
    multiplyBy c addr i = some c' ↔
      (∃ src, (i.inst.op = .mul ∨ i.inst.op = .imul) ∧ i.inst.args = [src] ∧
        wideProductBy c addr i (i.inst.op == .imul) src = some c') ∨
      ∃ dst src rest, i.inst.op = .imul ∧ i.inst.args = .reg dst :: src :: rest ∧
        lowProductBy c addr i dst src rest = some c' := by
  unfold multiplyBy
  constructor
  · intro h
    split at h
    · rename_i src hop hargs
      refine .inl ⟨src, .inl hop, hargs, ?_⟩
      rw [hop]
      exact h
    · rename_i src hop hargs
      refine .inl ⟨src, .inr hop, hargs, ?_⟩
      rw [hop]
      exact h
    · rename_i dst src rest hop hargs
      exact .inr ⟨dst, src, rest, hop, hargs, h⟩
    · cases h
  · rintro (⟨src, hop | hop, hargs, h⟩ | ⟨dst, src, rest, hop, hargs, h⟩)
    · rw [hop] at h
      rw [hop, hargs]
      exact h
    · rw [hop] at h
      rw [hop, hargs]
      exact h
    · rw [hop, hargs]
      exact h

end PS4Recomp.X86
