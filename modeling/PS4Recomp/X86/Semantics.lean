import PS4Recomp.Library.AddCarry
import PS4Recomp.Library.ByteMemory
import PS4Recomp.X86.Inst

/-!
# What the integer instructions do

The x86 meaning of the instructions whose lowering carries flags.

* `Cpu`, `Flags` — general registers, memory, segment bases and the arithmetic flags;
* `Mem.ea`, `Cpu.place`, `Cpu.get`, `Cpu.put` — where an operand lies, read and written: a 32-bit
  register write clears the upper half, a narrower one keeps the rest of the register;
* `binary`, `unary` — results and flags;
* `Cond.holds` — the sixteen conditions;
* `step` — one instruction; `none` for what is no encoding or raises an exception, and for the
  operations this file does not describe.

`AF` is architecturally undefined after the logical operations; it is cleared here.
-/

namespace PS4Recomp.X86

open Library Library.AddCarry

/-- Operand sizes. -/
inductive Size where
  | b | w | l | q
  deriving DecidableEq, Repr

def Size.bits : Size → ℕ
  | .b => 8
  | .w => 16
  | .l => 32
  | .q => 64

def Size.bytes : Size → ℕ
  | .b => 1
  | .w => 2
  | .l => 4
  | .q => 8

def Size.ofBytes : ℕ → Option Size
  | 1 => some .b
  | 2 => some .w
  | 4 => some .l
  | 8 => some .q
  | _ => none

theorem Size.bits_pos (sz : Size) : 0 < sz.bits := by cases sz <;> decide

theorem Size.bits_le (sz : Size) : sz.bits ≤ 64 := by cases sz <;> decide

theorem Size.bytes_of_ofBytes {n : ℕ} {sz : Size} (h : Size.ofBytes n = some sz) :
    n = sz.bytes := by
  unfold Size.ofBytes at h
  split at h <;> cases h <;> rfl

/-- The arithmetic flags. -/
structure Flags where
  cf : Bool
  pf : Bool
  af : Bool
  zf : Bool
  sf : Bool
  of : Bool
  deriving DecidableEq

/-- The state the integer instructions act on. -/
structure Cpu where
  gpr : Gpr → BitVec 64
  mem : ByteMem
  fsBase : BitVec 64
  gsBase : BitVec 64
  flags : Flags

/-! ### operands -/

/-- The register that holds a named register, the first of its bits and its size. -/
def Reg.loc : Reg → Option (Gpr × ℕ × Size)
  | .b g => some (g, 0, .b)
  | .h g => some (g.gpr, 8, .b)
  | .w g => some (g, 0, .w)
  | .l g => some (g, 0, .l)
  | .q g => some (g, 0, .q)
  | _ => none

/-- A register of an address; the address size is 64 or 32 bits. -/
def Cpu.addrReg (c : Cpu) (i : Instruction) : Option Reg → Option (BitVec 64)
  | none => some 0
  | some (.q g) => if i.inst.addrSize = 32 then none else some (c.gpr g)
  | some (.l g) => if i.inst.addrSize = 32 then some (((c.gpr g).setWidth 32).setWidth 64) else none
  | _ => none

/-- The displacement: at most 32 bits, sign-extended. -/
def Mem.dispVal (m : Mem) : BitVec 64 := (m.disp.setWidth 32).signExtend 64

/-- The base of the segment. -/
def Cpu.segBase (c : Cpu) : Option Seg → BitVec 64
  | some .fs => c.fsBase
  | some .gs => c.gsBase
  | _ => 0

/-- The memory reference is relative to the next instruction.  The decoder of VEX instructions
leaves the base out there; a SIB byte sets a scale. -/
def Mem.ripRelative (m : Mem) : Bool :=
  (m.base == some .rip && m.index == none) ||
    (m.segment == none && m.base == none && m.index == none && m.scale == 0)

/-- The effective address inside the segment. -/
def Mem.offset (m : Mem) (c : Cpu) (i : Instruction) : Option (BitVec 64) :=
  if m.ripRelative then some (i.nextPC + m.dispVal)
  else do
    let b ← c.addrReg i m.base
    let x ← c.addrReg i m.index
    if m.index = none ∨ m.scale ∈ [1, 2, 4, 8] then
      some (b + x * BitVec.ofNat 64 m.scale + m.dispVal)
    else none

/-- The linear address of a memory operand. -/
def Mem.ea (m : Mem) (c : Cpu) (i : Instruction) : Option Addr :=
  (m.offset c i).map fun a =>
    c.segBase m.segment + if i.inst.addrSize = 32 then (a.setWidth 32).setWidth 64 else a

/-- Where an operand that can be written lies. -/
inductive Place where
  | reg (g : Gpr) (lo : ℕ)
  | mem (a : Addr)

/-- The place of an operand of size `sz`. -/
def Cpu.place (c : Cpu) (i : Instruction) (sz : Size) : Arg → Option Place
  | .reg r =>
      match r.loc with
      | some (g, lo, sz') => if sz' = sz then some (.reg g lo) else none
      | none => none
  | .mem m => if Size.ofBytes i.inst.memBytes = some sz then (m.ea c i).map .mem else none
  | _ => none

/-- The value at a place. -/
def Cpu.get (c : Cpu) (sz : Size) : Place → BitVec sz.bits
  | .reg g lo => (c.gpr g).extractLsb' lo sz.bits
  | .mem a => c.mem.load sz.bits a

/-- A register with some of its bits written. -/
def regWrite (sz : Size) (lo : ℕ) (old : BitVec 64) (v : BitVec sz.bits) : BitVec 64 :=
  match sz with
  | .l | .q => v.setWidth 64
  | .b | .w => insertBits lo _ old v

/-- The processor with a register set. -/
def Cpu.setGpr (c : Cpu) (g : Gpr) (v : BitVec 64) : Cpu :=
  { c with gpr := Function.update c.gpr g v }

/-- The processor with a value written to a place. -/
def Cpu.put (c : Cpu) (sz : Size) (p : Place) (v : BitVec sz.bits) : Cpu :=
  match p with
  | .reg g lo => c.setGpr g (regWrite sz lo (c.gpr g) v)
  | .mem a => { c with mem := c.mem.store a v }

/-- The value of a source operand. -/
def Cpu.source (c : Cpu) (i : Instruction) (sz : Size) : Arg → Option (BitVec sz.bits)
  | .imm v => some (v.setWidth sz.bits)
  | a => (c.place i sz a).map (c.get sz)

def Arg.isMem : Arg → Bool
  | .mem _ => true
  | _ => false

/-- The operand size an operand tells. -/
def Arg.size? (a : Arg) (i : Instruction) : Option Size :=
  match a with
  | .reg r => r.loc.map (·.2.2)
  | .mem _ => Size.ofBytes i.inst.memBytes
  | _ => none

/-! ### results and flags -/

section Results

variable {n : ℕ}

/-- `PF`: an even number of ones in the low byte. -/
def parity (r : BitVec n) : Bool := (List.range 8).countP (r.getLsbD ·) % 2 == 0

/-- The flags of `a + b + c`. -/
def Flags.ofAdd (a b : BitVec n) (c : Bool) : Flags where
  cf := carryOut a b c
  pf := parity (sum a b c)
  af := carryOut (a.setWidth 4) (b.setWidth 4) c
  zf := sum a b c == 0
  sf := (sum a b c).msb
  of := addOverflow a b c

/-- The flags of `a - b - c`. -/
def Flags.ofSub (a b : BitVec n) (c : Bool) : Flags where
  cf := borrowOut a b c
  pf := parity (diff a b c)
  af := borrowOut (a.setWidth 4) (b.setWidth 4) c
  zf := diff a b c == 0
  sf := (diff a b c).msb
  of := subOverflow a b c

/-- The flags of a logical operation. -/
def Flags.ofLogic (r : BitVec n) : Flags where
  cf := false
  pf := parity r
  af := false
  zf := r == 0
  sf := r.msb
  of := false

/-- The two-operand instructions. -/
def binary (op : Op) (f : Flags) (a b : BitVec n) : Option (BitVec n × Flags) :=
  match op with
  | .add => some (a + b, .ofAdd a b false)
  | .adc => some (sum a b f.cf, .ofAdd a b f.cf)
  | .sub | .cmp => some (a - b, .ofSub a b false)
  | .sbb => some (diff a b f.cf, .ofSub a b f.cf)
  | .and | .test => some (a &&& b, .ofLogic (a &&& b))
  | .or => some (a ||| b, .ofLogic (a ||| b))
  | .xor => some (a ^^^ b, .ofLogic (a ^^^ b))
  | _ => none

/-- The one-operand instructions. -/
def unary (op : Op) (f : Flags) (a : BitVec n) : Option (BitVec n × Flags) :=
  match op with
  | .inc => some (a + 1, { Flags.ofAdd a 1 false with cf := f.cf })
  | .dec => some (a - 1, { Flags.ofSub a 1 false with cf := f.cf })
  | .neg => some (-a, .ofSub 0 a false)
  | .not => some (~~~a, f)
  | _ => none

end Results

/-- The flags in `AH`. -/
def Flags.image (f : Flags) : BitVec 8 :=
  BitVec.ofNat 8 (f.sf.toNat * 128 + f.zf.toNat * 64 + f.af.toNat * 16 + f.pf.toNat * 4 + 2 +
    f.cf.toNat)

/-- The flags `SAHF` takes from `AH`; `OF` is kept. -/
def Flags.load (f : Flags) (v : BitVec 8) : Flags where
  cf := v.getLsbD 0
  pf := v.getLsbD 2
  af := v.getLsbD 4
  zf := v.getLsbD 6
  sf := v.getLsbD 7
  of := f.of

/-- When a condition holds. -/
def Cond.holds : Cond → Flags → Bool
  | .o, f => f.of
  | .no, f => !f.of
  | .b, f => f.cf
  | .ae, f => !f.cf
  | .e, f => f.zf
  | .ne, f => !f.zf
  | .be, f => f.cf || f.zf
  | .a, f => !(f.cf || f.zf)
  | .s, f => f.sf
  | .ns, f => !f.sf
  | .p, f => f.pf
  | .np, f => !f.pf
  | .l, f => f.sf != f.of
  | .ge, f => f.sf == f.of
  | .le, f => f.zf || f.sf != f.of
  | .g, f => !f.zf && f.sf == f.of

/-! ### instructions -/

/-- `CMP` and `TEST` write no result. -/
def comparesOnly : Op → Bool
  | .cmp | .test => true
  | _ => false

/-- `AH`. -/
def ah : Place := .reg .rax 8

/-- `ADD`, `SUB`, `AND`, `OR`, `XOR`, `ADC`, `SBB`, `CMP` and `TEST`. -/
def binaryStep (i : Instruction) (c : Cpu) (dst src : Arg) : Option Cpu := do
  let sz ← dst.size? i
  guard (¬(dst.isMem && src.isMem))
  let d ← c.place i sz dst
  let b ← c.source i sz src
  let r ← binary i.inst.op c.flags (c.get sz d) b
  some { (if comparesOnly i.inst.op then c else c.put sz d r.1) with flags := r.2 }

/-- `INC`, `DEC`, `NEG` and `NOT`. -/
def unaryStep (i : Instruction) (c : Cpu) (dst : Arg) : Option Cpu := do
  let sz ← dst.size? i
  let d ← c.place i sz dst
  let r ← unary i.inst.op c.flags (c.get sz d)
  some { c.put sz d r.1 with flags := r.2 }

/-- `XADD`: the sum to the destination, the old destination to the source. -/
def xaddStep (i : Instruction) (c : Cpu) (dst : Arg) (src : Reg) : Option Cpu := do
  let sz ← dst.size? i
  let d ← c.place i sz dst
  let e ← c.place i sz (.reg src)
  let a := c.get sz d
  let b := c.get sz e
  some { (c.put sz e a).put sz d (a + b) with flags := .ofAdd a b false }

/-- `XCHG`. -/
def xchgStep (i : Instruction) (c : Cpu) (x y : Arg) : Option Cpu := do
  let sz ← x.size? i
  guard (¬(x.isMem && y.isMem))
  let p ← c.place i sz x
  let q ← c.place i sz y
  some ((c.put sz p (c.get sz q)).put sz q (c.get sz p))

/-- `CMPXCHG`: the accumulator is compared with the destination, which the source replaces when
they are equal and which goes to the accumulator when they are not. -/
def cmpxchgStep (i : Instruction) (c : Cpu) (dst : Arg) (src : Reg) : Option Cpu := do
  let sz ← dst.size? i
  let d ← c.place i sz dst
  let e ← c.place i sz (.reg src)
  let acc := c.get sz (.reg .rax 0)
  let old := c.get sz d
  some { (if acc = old then c.put sz d (c.get sz e) else c.put sz (.reg .rax 0) old) with
    flags := .ofSub acc old false }

/-- The low halves of two registers, as one word. -/
def Cpu.pair (c : Cpu) (hi lo : Gpr) : BitVec 64 :=
  (c.gpr hi).setWidth 32 ++ (c.gpr lo).setWidth 32

/-- `CMPXCHG8B`. -/
def cmpxchg8bStep (i : Instruction) (c : Cpu) (m : Mem) : Option Cpu := do
  let a ← m.ea c i
  let old := c.mem.load 64 a
  let eq := old == c.pair .rdx .rax
  some { (if eq then c.put .q (.mem a) (c.pair .rcx .rbx)
      else (c.put .l (.reg .rax 0) (old.setWidth 32)).put .l (.reg .rdx 0) (old.extractLsb' 32 32))
    with flags := { c.flags with zf := eq } }

/-- `CMPXCHG16B`; the operand is aligned. -/
def cmpxchg16bStep (i : Instruction) (c : Cpu) (m : Mem) : Option Cpu := do
  let a ← m.ea c i
  guard (a.toNat % 16 = 0)
  let lo := c.mem.load 64 a
  let hi := c.mem.load 64 (a + 8)
  let eq := lo == c.gpr .rax && hi == c.gpr .rdx
  some { (if eq then (c.put .q (.mem a) (c.gpr .rbx)).put .q (.mem (a + 8)) (c.gpr .rcx)
      else (c.setGpr .rax lo).setGpr .rdx hi)
    with flags := { c.flags with zf := eq } }

/-- One instruction. -/
def step (i : Instruction) (c : Cpu) : Option Cpu :=
  match i.inst.op with
  | .clc => some { c with flags := { c.flags with cf := false } }
  | .stc => some { c with flags := { c.flags with cf := true } }
  | .cmc => some { c with flags := { c.flags with cf := !c.flags.cf } }
  | .lahf => some (c.put .b ah c.flags.image)
  | .sahf => some { c with flags := c.flags.load (c.get .b ah) }
  | .xadd =>
      match i.inst.args with
      | [dst, .reg src] => xaddStep i c dst src
      | _ => none
  | .xchg =>
      match i.inst.args with
      | [x, y] => xchgStep i c x y
      | _ => none
  | .cmpxchg =>
      match i.inst.args with
      | [dst, .reg src] => cmpxchgStep i c dst src
      | _ => none
  | .cmpxchg8b =>
      match i.inst.args with
      | [.mem m] => cmpxchg8bStep i c m
      | _ => none
  | .cmpxchg16b =>
      match i.inst.args with
      | [.mem m] => cmpxchg16bStep i c m
      | _ => none
  | _ =>
      match i.inst.args with
      | [dst, src] => binaryStep i c dst src
      | [dst] => unaryStep i c dst
      | _ => none

end PS4Recomp.X86
