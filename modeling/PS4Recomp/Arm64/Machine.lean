import PS4Recomp.Library.ByteMemory

/-!
# The ARM64 machine of the lowered code

The general registers, the condition flags, memory and the instructions the lowerings are made of.

* `State` — registers, stack pointer, `NZCV`, memory; `fails` is the number of store-exclusives
  that will still fail, the one choice the machine leaves open to code that runs without
  interference;
* `addWithCarry`, `Cond.holds` — the adder with its flags, and the conditions;
* `Instr`, `exec`, `faults`, `branch` — the instructions: what they change, when they fault, where
  they branch;
* `regs` and `exec_agree` — the registers an instruction names, and that it depends on no other.

A register number is that of the encoding: 31 is the zero register.  An ordered, atomic or
exclusive access faults when it crosses a 16-byte boundary.  Instructions this machine has no
constructor for are `Other`: a state transformer that depends on no register it does not name.
-/

namespace PS4Recomp.Arm64

open Library

/-- A general register, or the zero register 31. -/
abbrev XReg := Fin 32

/-- The two operand widths. -/
inductive Width where
  | w | x
  deriving DecidableEq, Repr

/-- The number of bits. -/
def Width.bits : Width → ℕ
  | .w => 32
  | .x => 64

/-- The condition flags. -/
structure Nzcv where
  n : Bool
  z : Bool
  c : Bool
  v : Bool
  deriving DecidableEq, Repr

/-- The state of one processor. -/
structure State where
  x : XReg → BitVec 64
  sp : BitVec 64
  flags : Nzcv
  mem : ByteMem
  fails : ℕ

namespace State

/-- A register; the zero register reads as zero. -/
def get (s : State) (r : XReg) : BitVec 64 := if r = 31 then 0 else s.x r

/-- A register written; writes of the zero register are dropped. -/
def set (s : State) (r : XReg) (v : BitVec 64) : State :=
  if r = 31 then s else { s with x := Function.update s.x r v }

/-- The low bits of a register. -/
def getW (s : State) (sf : Width) (r : XReg) : BitVec sf.bits := (s.get r).setWidth sf.bits

/-- A narrow write clears the rest of the register. -/
def setW (s : State) (sf : Width) (r : XReg) (v : BitVec sf.bits) : State := s.set r (v.setWidth 64)

theorem get_set_self {s : State} {r : XReg} {v : BitVec 64} (h : r ≠ 31) : (s.set r v).get r = v := by
  simp [get, set, h]

theorem get_set_ne {s : State} {r r' : XReg} {v : BitVec 64} (h : r' ≠ r) :
    (s.set r v).get r' = s.get r' := by
  unfold get set
  split
  · rfl
  · split
    · rfl
    · exact Function.update_of_ne h _ _

theorem set_set (s : State) (r : XReg) (v w : BitVec 64) : (s.set r v).set r w = s.set r w := by
  unfold State.set
  split
  · rfl
  · simp only [Function.update_idem]

@[simp] theorem get_zr (s : State) : s.get 31 = 0 := rfl

@[simp] theorem set_sp (s : State) (r : XReg) (v : BitVec 64) : (s.set r v).sp = s.sp := by
  unfold set
  split <;> rfl

@[simp] theorem set_flags (s : State) (r : XReg) (v : BitVec 64) :
    (s.set r v).flags = s.flags := by
  unfold set
  split <;> rfl

@[simp] theorem set_mem (s : State) (r : XReg) (v : BitVec 64) : (s.set r v).mem = s.mem := by
  unfold set
  split <;> rfl

@[simp] theorem set_fails (s : State) (r : XReg) (v : BitVec 64) :
    (s.set r v).fails = s.fails := by
  unfold set
  split <;> rfl

theorem set_flags_self (s : State) (r : XReg) (v : BitVec 64) :
    ({ s.set r v with flags := s.flags } : State) = s.set r v := by
  unfold set
  split <;> rfl

@[simp] theorem get_mem (s : State) (m : ByteMem) (r : XReg) :
    ({ s with mem := m } : State).get r = s.get r := rfl

end State

/-! ### flags -/

/-- `AddWithCarry` of the architecture. -/
def addWithCarry {n : ℕ} (a b : BitVec n) (c : Bool) : BitVec n × Nzcv :=
  let u := a.toNat + b.toNat + c.toNat
  let r := BitVec.ofNat n u
  (r, { n := r.msb, z := r == 0, c := decide (r.toNat ≠ u)
        v := decide (r.toInt ≠ a.toInt + b.toInt + c.toNat) })

/-- The flags of a logical operation. -/
def logicFlags {n : ℕ} (r : BitVec n) : Nzcv := { n := r.msb, z := r == 0, c := false, v := false }

/-- The conditions of `B.cond`, `CSEL` and their kin. -/
inductive Cond where
  | eq | ne | cs | cc | mi | pl | vs | vc | hi | ls | ge | lt | gt | le
  deriving DecidableEq, Repr

/-- `ConditionHolds`. -/
def Cond.holds : Cond → Nzcv → Bool
  | .eq, f => f.z
  | .ne, f => !f.z
  | .cs, f => f.c
  | .cc, f => !f.c
  | .mi, f => f.n
  | .pl, f => !f.n
  | .vs, f => f.v
  | .vc, f => !f.v
  | .hi, f => f.c && !f.z
  | .ls, f => !(f.c && !f.z)
  | .ge, f => f.n == f.v
  | .lt, f => !(f.n == f.v)
  | .gt, f => !f.z && f.n == f.v
  | .le, f => !(!f.z && f.n == f.v)

/-- The flags as bits 31:28 of a register (`MRS x, NZCV`). -/
def Nzcv.pack (f : Nzcv) : BitVec 64 :=
  BitVec.ofNat 64 (f.n.toNat * 2 ^ 31 + f.z.toNat * 2 ^ 30 + f.c.toNat * 2 ^ 29 + f.v.toNat * 2 ^ 28)

/-- The flags in bits 31:28 of a register (`MSR NZCV, x`). -/
def Nzcv.unpack (v : BitVec 64) : Nzcv :=
  { n := v.getLsbD 31, z := v.getLsbD 30, c := v.getLsbD 29, v := v.getLsbD 28 }

theorem Nzcv.unpack_pack (f : Nzcv) : Nzcv.unpack f.pack = f := by
  obtain ⟨n, z, c, v⟩ := f
  cases n <;> cases z <;> cases c <;> cases v <;> decide

/-! ### instructions -/

/-- The last operand of a data-processing instruction: a register shifted left, or an immediate. -/
inductive Op2 where
  | reg (r : XReg) (lsl : ℕ)
  | imm (v : BitVec 64)
  deriving DecidableEq, Repr

/-- The value of an operand. -/
def Op2.eval (o : Op2) (s : State) (sf : Width) : BitVec sf.bits :=
  match o with
  | .reg r lsl => s.getW sf r <<< lsl
  | .imm v => v.setWidth sf.bits

def Op2.regs : Op2 → List XReg
  | .reg r _ => [r]
  | .imm _ => []

inductive AddSub where
  | add | sub
  deriving DecidableEq, Repr

inductive Logic where
  | and | orr | eor
  deriving DecidableEq, Repr

def Logic.eval {n : ℕ} : Logic → BitVec n → BitVec n → BitVec n
  | .and, a, b => a &&& b
  | .orr, a, b => a ||| b
  | .eor, a, b => a ^^^ b

inductive Shift where
  | lsl | lsr | asr
  deriving DecidableEq, Repr

def Shift.eval {n : ℕ} : Shift → BitVec n → ℕ → BitVec n
  | .lsl, a, k => a <<< k
  | .lsr, a, k => a >>> k
  | .asr, a, k => a.sshiftRight k

/-- The scalar accesses of the form `[x28, rm]`. -/
inductive MemOp where
  | ldr | ldrb | ldrh | ldrsb | ldrsh | ldrsw | str | strb | strh
  deriving DecidableEq, Repr

/-- The accesses that load. -/
def MemOp.isLoad : MemOp → Bool
  | .str | .strb | .strh => false
  | _ => true

/-- The number of bits accessed. -/
def MemOp.bits : MemOp → Width → ℕ
  | .ldr, sf | .str, sf => sf.bits
  | .ldrb, _ | .ldrsb, _ | .strb, _ => 8
  | .ldrh, _ | .ldrsh, _ | .strh, _ => 16
  | .ldrsw, _ => 32

/-- What a load leaves in its register. -/
def MemOp.loaded (op : MemOp) (sf : Width) (v : BitVec (op.bits sf)) : BitVec 64 :=
  match op with
  | .ldrsb | .ldrsh | .ldrsw => (v.signExtend sf.bits).setWidth 64
  | _ => v.setWidth 64

/-- The atomic read-modify-write operations (`LDADDAL`, `LDCLRAL`, `LDEORAL`, `LDSETAL`). -/
inductive Atomic where
  | ldaddal | ldclral | ldeoral | ldsetal
  deriving DecidableEq, Repr

def Atomic.eval {n : ℕ} : Atomic → BitVec n → BitVec n → BitVec n
  | .ldaddal, old, v => old + v
  | .ldclral, old, v => old &&& ~~~v
  | .ldeoral, old, v => old ^^^ v
  | .ldsetal, old, v => old ||| v

inductive Barrier where
  | ish | ishld | ishst
  deriving DecidableEq, Repr

/-- The registers `s` and `t` may differ in is `r` only. -/
def AgreeOff (r : XReg) (s t : State) : Prop := ∃ v, t = { s with x := Function.update s.x r v }

/-- An instruction with no constructor of its own, a call of a helper included: it names registers,
and what it does depends on no other. -/
structure Other where
  uses : List XReg
  run : State → State
  framed : ∀ r, r ∉ uses → ∀ s t, AgreeOff r s t → AgreeOff r (run s) (run t)

/-- Instructions, with labels of type `L`. -/
inductive Instr (L : Type) where
  | mov (sf : Width) (rd rm : XReg)
  | movImm (sf : Width) (rd : XReg) (imm : BitVec 64)
  | movz (sf : Width) (rd : XReg) (imm : BitVec 16) (lsl : ℕ)
  | movk (sf : Width) (rd : XReg) (imm : BitVec 16) (lsl : ℕ)
  | mvn (sf : Width) (rd rm : XReg)
  | addSub (op : AddSub) (s : Bool) (sf : Width) (rd rn : XReg) (o : Op2)
  | addSubC (op : AddSub) (s : Bool) (sf : Width) (rd rn rm : XReg)
  | logic (op : Logic) (s : Bool) (sf : Width) (rd rn : XReg) (o : Op2)
  | shift (op : Shift) (sf : Width) (rd rn : XReg) (k : ℕ)
  | ubfx (sf : Width) (rd rn : XReg) (lsb w : ℕ)
  | bfi (rd rn : XReg) (lsb w : ℕ)
  | sxt (k : ℕ) (sf : Width) (rd rn : XReg)
  | cset (sf : Width) (rd : XReg) (c : Cond)
  | csetm (sf : Width) (rd : XReg) (c : Cond)
  | cinc (sf : Width) (rd rn : XReg) (c : Cond)
  | csel (sf : Width) (rd rn rm : XReg) (c : Cond)
  | ccmp (sf : Width) (rn rm : XReg) (f : Nzcv) (c : Cond)
  | setf (k : ℕ) (rn : XReg)
  | rmif (rn : XReg) (ror : ℕ) (mask : BitVec 4)
  | cfinv
  | mrsNzcv (rd : XReg)
  | msrNzcv (rn : XReg)
  | ldst (op : MemOp) (sf : Width) (rt rm : XReg)
  | ldapr (n : ℕ) (rt rn : XReg)
  | stlr (n : ℕ) (rt rn : XReg)
  | atomic (op : Atomic) (n : ℕ) (rs rt rn : XReg)
  | swpal (n : ℕ) (rs rt rn : XReg)
  | casal (n : ℕ) (rs rt rn : XReg)
  | caspal (rs rs' rt rt' rn : XReg)
  | ldaxr (n : ℕ) (rt rn : XReg)
  | stlxr (n : ℕ) (ws rt rn : XReg)
  | dmb (k : Barrier)
  | ldrPostSp (rt : XReg)
  | b (l : L)
  | bCond (c : Cond) (l : L)
  | cbz (rt : XReg) (l : L)
  | cbnz (rt : XReg) (l : L)
  | tbz (rt : XReg) (bit : ℕ) (l : L)
  | ret
  | brk
  | other (o : Other)

namespace Instr

variable {L : Type}

/-- `cmp rn, o`. -/
abbrev cmp (sf : Width) (rn : XReg) (o : Op2) : Instr L := .addSub .sub true sf 31 rn o

/-- `cmn rn, o`. -/
abbrev cmn (sf : Width) (rn : XReg) (o : Op2) : Instr L := .addSub .add true sf 31 rn o

/-- `tst rn, o`. -/
abbrev tst (sf : Width) (rn : XReg) (o : Op2) : Instr L := .logic .and true sf 31 rn o

/-- `neg rd, rm` (`negs` when `s`). -/
abbrev neg (s : Bool) (sf : Width) (rd rm : XReg) : Instr L := .addSub .sub s sf rd 31 (.reg rm 0)

/-- The flags `SETF8` and `SETF16` write: those of the low `k` bits, `C` kept. -/
def setfFlags (k : ℕ) (v : BitVec 64) (f : Nzcv) : Nzcv :=
  { n := v.getLsbD (k - 1), z := v.setWidth k == 0, c := f.c
    v := v.getLsbD k != v.getLsbD (k - 1) }

/-- The flags `RMIF` writes: bits of the rotated register, under a mask. -/
def rmifFlags (v : BitVec 64) (ror : ℕ) (mask : BitVec 4) (f : Nzcv) : Nzcv :=
  let t := v.rotateRight ror
  { n := if mask.getLsbD 3 then t.getLsbD 3 else f.n
    z := if mask.getLsbD 2 then t.getLsbD 2 else f.z
    c := if mask.getLsbD 1 then t.getLsbD 1 else f.c
    v := if mask.getLsbD 0 then t.getLsbD 0 else f.v }

/-- What an instruction changes when it does not fault. -/
def exec : Instr L → State → State
  | .mov sf rd rm, s => s.setW sf rd (s.getW sf rm)
  | .movImm sf rd imm, s => s.setW sf rd (imm.setWidth sf.bits)
  | .movz sf rd imm lsl, s => s.setW sf rd (imm.setWidth sf.bits <<< lsl)
  | .movk sf rd imm lsl, s =>
      s.setW sf rd ((s.getW sf rd &&& ~~~((0xffff#16).setWidth sf.bits <<< lsl)) |||
        imm.setWidth sf.bits <<< lsl)
  | .mvn sf rd rm, s => s.setW sf rd (~~~s.getW sf rm)
  | .addSub op fl sf rd rn o, s =>
      let r : BitVec sf.bits × Nzcv := match op with
        | .add => addWithCarry (s.getW sf rn) (o.eval s sf) false
        | .sub => addWithCarry (s.getW sf rn) (~~~o.eval s sf) true
      { s.setW sf rd r.1 with flags := if fl then r.2 else s.flags }
  | .addSubC op fl sf rd rn rm, s =>
      let r : BitVec sf.bits × Nzcv := match op with
        | .add => addWithCarry (s.getW sf rn) (s.getW sf rm) s.flags.c
        | .sub => addWithCarry (s.getW sf rn) (~~~s.getW sf rm) s.flags.c
      { s.setW sf rd r.1 with flags := if fl then r.2 else s.flags }
  | .logic op fl sf rd rn o, s =>
      let r := op.eval (s.getW sf rn) (o.eval s sf)
      { s.setW sf rd r with flags := if fl then logicFlags r else s.flags }
  | .shift op sf rd rn k, s => s.setW sf rd (op.eval (s.getW sf rn) k)
  | .ubfx sf rd rn lsb w, s => s.setW sf rd (((s.getW sf rn).extractLsb' lsb w).setWidth sf.bits)
  | .bfi rd rn lsb w, s => s.set rd (insertBits lsb w (s.get rd) ((s.get rn).setWidth w))
  | .sxt k sf rd rn, s => s.setW sf rd (((s.get rn).setWidth k).signExtend sf.bits)
  | .cset sf rd c, s => s.setW sf rd (if c.holds s.flags then 1 else 0)
  | .csetm sf rd c, s => s.setW sf rd (if c.holds s.flags then BitVec.allOnes _ else 0)
  | .cinc sf rd rn c, s =>
      s.setW sf rd (if c.holds s.flags then s.getW sf rn + 1 else s.getW sf rn)
  | .csel sf rd rn rm c, s => s.setW sf rd (if c.holds s.flags then s.getW sf rn else s.getW sf rm)
  | .ccmp sf rn rm f c, s =>
      { s with flags := if c.holds s.flags then
          (addWithCarry (s.getW sf rn) (~~~s.getW sf rm) true).2 else f }
  | .setf k rn, s => { s with flags := setfFlags k (s.get rn) s.flags }
  | .rmif rn ror mask, s => { s with flags := rmifFlags (s.get rn) ror mask s.flags }
  | .cfinv, s => { s with flags := { s.flags with c := !s.flags.c } }
  | .mrsNzcv rd, s => s.set rd s.flags.pack
  | .msrNzcv rn, s => { s with flags := Nzcv.unpack (s.get rn) }
  | .ldst op sf rt rm, s =>
      if op.isLoad then s.set rt (op.loaded sf (s.mem.load (op.bits sf) (s.get 28 + s.get rm)))
      else { s with mem := s.mem.store (s.get 28 + s.get rm) ((s.get rt).setWidth (op.bits sf)) }
  | .ldapr n rt rn, s => s.set rt ((s.mem.load n (s.get rn)).setWidth 64)
  | .stlr n rt rn, s => { s with mem := s.mem.store (s.get rn) ((s.get rt).setWidth n) }
  | .atomic op n rs rt rn, s =>
      let old := s.mem.load n (s.get rn)
      { s.set rt (old.setWidth 64) with
        mem := s.mem.store (s.get rn) (op.eval old ((s.get rs).setWidth n)) }
  | .swpal n rs rt rn, s =>
      { s.set rt ((s.mem.load n (s.get rn)).setWidth 64) with
        mem := s.mem.store (s.get rn) ((s.get rs).setWidth n) }
  | .casal n rs rt rn, s =>
      let old := s.mem.load n (s.get rn)
      { s.set rs (old.setWidth 64) with
        mem := if old = (s.get rs).setWidth n then
          s.mem.store (s.get rn) ((s.get rt).setWidth n) else s.mem }
  | .caspal rs rs' rt rt' rn, s =>
      let lo := s.mem.load 64 (s.get rn)
      let hi := s.mem.load 64 (s.get rn + 8)
      { (s.set rs lo).set rs' hi with
        mem := if lo = s.get rs ∧ hi = s.get rs' then
          (s.mem.store (s.get rn) (s.get rt)).store (s.get rn + 8) (s.get rt') else s.mem }
  | .ldaxr n rt rn, s => s.set rt ((s.mem.load n (s.get rn)).setWidth 64)
  | .stlxr n ws rt rn, s =>
      -- a store-exclusive fails as often as `fails` says
      if s.fails = 0 then
        { s.set ws 0 with mem := s.mem.store (s.get rn) ((s.get rt).setWidth n) }
      else { s.set ws 1 with fails := s.fails - 1 }
  | .ldrPostSp rt, s => { s.set rt (s.mem.load 64 s.sp) with sp := s.sp + 16 }
  | .other o, s => o.run s
  | .dmb _, s | .b _, s | .bCond _ _, s | .cbz _ _, s | .cbnz _ _, s | .tbz _ _ _, s
  | .ret, s | .brk, s => s

/-- An ordered, atomic or exclusive access that crosses a 16-byte boundary faults; `BRK` traps. -/
def faults : Instr L → State → Bool
  | .ldapr n _ rn, s | .stlr n _ rn, s | .atomic _ n _ _ rn, s | .swpal n _ _ rn, s
  | .casal n _ _ rn, s | .ldaxr n _ rn, s | .stlxr n _ _ rn, s =>
      decide (Crosses (s.get rn) (n / 8))
  | .caspal _ _ _ _ rn, s => decide (Crosses (s.get rn) 16)
  | .brk, _ => true
  | _, _ => false

/-- Where an instruction branches to, if it does. -/
def branch : Instr L → State → Option L
  | .b l, _ => some l
  | .bCond c l, s => if c.holds s.flags then some l else none
  | .cbz rt l, s => if s.get rt = 0 then some l else none
  | .cbnz rt l, s => if s.get rt = 0 then none else some l
  | .tbz rt bit l, s => if (s.get rt).getLsbD bit then none else some l
  | _, _ => none

/-- The registers an instruction names. -/
def regs : Instr L → List XReg
  | .mov _ rd rm | .mvn _ rd rm => [rd, rm]
  | .movImm _ rd _ | .movz _ rd _ _ | .movk _ rd _ _ => [rd]
  | .addSub _ _ _ rd rn o | .logic _ _ _ rd rn o => rd :: rn :: o.regs
  | .addSubC _ _ _ rd rn rm => [rd, rn, rm]
  | .shift _ _ rd rn _ | .ubfx _ rd rn _ _ | .bfi rd rn _ _ | .sxt _ _ rd rn => [rd, rn]
  | .cset _ rd _ | .csetm _ rd _ => [rd]
  | .cinc _ rd rn _ => [rd, rn]
  | .csel _ rd rn rm _ => [rd, rn, rm]
  | .ccmp _ rn rm _ _ => [rn, rm]
  | .setf _ rn | .rmif rn _ _ | .msrNzcv rn | .mrsNzcv rn => [rn]
  | .ldst _ _ rt rm => [rt, 28, rm]
  | .ldapr _ rt rn | .stlr _ rt rn | .ldaxr _ rt rn => [rt, rn]
  | .atomic _ _ rs rt rn | .swpal _ rs rt rn | .casal _ rs rt rn | .stlxr _ rs rt rn => [rs, rt, rn]
  | .caspal rs rs' rt rt' rn => [rs, rs', rt, rt', rn]
  | .ldrPostSp rt => [rt]
  | .cbz rt _ | .cbnz rt _ | .tbz rt _ _ => [rt]
  | .other o => o.uses
  | .cfinv | .dmb _ | .b _ | .bCond _ _ | .ret | .brk => []

end Instr

/-! ### registers an instruction does not name -/

namespace AgreeOff

variable {r : XReg} {s t : State}

theorem refl (r : XReg) (s : State) : AgreeOff r s s := ⟨s.x r, by rw [Function.update_eq_self]⟩

theorem trans {u : State} (h : AgreeOff r s t) (h' : AgreeOff r t u) : AgreeOff r s u := by
  obtain ⟨v, rfl⟩ := h
  obtain ⟨w, rfl⟩ := h'
  exact ⟨w, by simp only [Function.update_idem]⟩

theorem set_self (r : XReg) (s : State) (v : BitVec 64) : AgreeOff r s (s.set r v) := by
  unfold State.set
  split
  · exact refl r s
  · exact ⟨v, rfl⟩

theorem get (h : AgreeOff r s t) {r' : XReg} (hr : r' ≠ r) : t.get r' = s.get r' := by
  obtain ⟨v, rfl⟩ := h
  unfold State.get
  split
  · rfl
  · exact Function.update_of_ne hr _ _

theorem getW (h : AgreeOff r s t) {r' : XReg} (hr : r' ≠ r) (sf : Width) :
    t.getW sf r' = s.getW sf r' := by
  rw [State.getW, State.getW, h.get hr]

theorem eval (h : AgreeOff r s t) {o : Op2} (hr : r ∉ o.regs) (sf : Width) :
    o.eval t sf = o.eval s sf := by
  cases o with
  | reg r' lsl =>
      show t.getW sf r' <<< lsl = s.getW sf r' <<< lsl
      rw [h.getW (fun e => hr (by simp [Op2.regs, e]))]
  | imm v => rfl

theorem set (h : AgreeOff r s t) {r' : XReg} (hr : r' ≠ r) (w : BitVec 64) :
    AgreeOff r (s.set r' w) (t.set r' w) := by
  obtain ⟨v, rfl⟩ := h
  refine ⟨v, ?_⟩
  unfold State.set
  split
  · rfl
  · simp only [Function.update_comm hr]

/-- Everything but the registers may be replaced by equal values. -/
theorem replace (h : AgreeOff r s t) (a : BitVec 64) (f : Nzcv) (m : ByteMem) (n : ℕ) :
    AgreeOff r ⟨s.x, a, f, m, n⟩ ⟨t.x, a, f, m, n⟩ := by
  obtain ⟨v, rfl⟩ := h
  exact ⟨v, rfl⟩

theorem flags (h : AgreeOff r s t) : t.flags = s.flags := by
  obtain ⟨v, rfl⟩ := h
  rfl

theorem mem (h : AgreeOff r s t) : t.mem = s.mem := by
  obtain ⟨v, rfl⟩ := h
  rfl

theorem sp (h : AgreeOff r s t) : t.sp = s.sp := by
  obtain ⟨v, rfl⟩ := h
  rfl

theorem fails (h : AgreeOff r s t) : t.fails = s.fails := by
  obtain ⟨v, rfl⟩ := h
  rfl

end AgreeOff

section Agree

variable {L : Type} {r : XReg} {s t : State} {i : Instr L}

theorem ne_of_not_mem_regs (hr : r ∉ i.regs) : ∀ r' ∈ i.regs, r' ≠ r :=
  fun _ hmem heq => hr (heq ▸ hmem)

/-- **Frame.**  What an instruction changes does not depend on a register it does not name. -/
theorem exec_agree (hr : r ∉ i.regs) (h : AgreeOff r s t) : AgreeOff r (i.exec s) (i.exec t) := by
  have hne := ne_of_not_mem_regs hr
  cases i
  case addSub op fl sf rd rn o =>
    have ho : r ∉ o.regs := fun hmem => hr (by simp [Instr.regs, hmem])
    simp only [Instr.regs, List.mem_cons, forall_eq_or_imp] at hne
    simp only [Instr.exec, State.setW, State.set_sp, State.set_mem, State.set_fails,
      h.getW hne.2.1, h.eval ho, h.flags, h.sp, h.mem, h.fails]
    exact (h.set hne.1 _).replace _ _ _ _
  case logic op fl sf rd rn o =>
    have ho : r ∉ o.regs := fun hmem => hr (by simp [Instr.regs, hmem])
    simp only [Instr.regs, List.mem_cons, forall_eq_or_imp] at hne
    simp only [Instr.exec, State.setW, State.set_sp, State.set_mem, State.set_fails,
      h.getW hne.2.1, h.eval ho, h.flags, h.sp, h.mem, h.fails]
    exact (h.set hne.1 _).replace _ _ _ _
  case other o => exact o.framed r hr s t h
  all_goals
    simp only [Instr.regs, List.mem_cons, List.not_mem_nil, or_false, forall_eq_or_imp,
      forall_eq] at hne
    simp only [Instr.exec, State.setW, State.set_sp, State.set_flags, State.set_mem,
      State.set_fails, h.getW, h.get, h.flags, h.mem, h.sp, h.fails, hne, ne_eq, not_false_eq_true]
  case ldst =>
    split
    · exact h.set hne.1 _
    · exact h.replace _ _ _ _
  case caspal => exact ((h.set hne.1 _).set hne.2.1 _).replace _ _ _ _
  case stlxr =>
    split
    · exact (h.set hne.1 _).replace _ _ _ _
    · exact (h.set hne.1 _).replace _ _ _ _
  all_goals first
    | exact h
    | exact h.set hne _
    | exact h.set hne.1 _
    | exact h.replace _ _ _ _
    | exact (h.set hne.1 _).replace _ _ _ _
    | exact (h.set hne.2.1 _).replace _ _ _ _
    | exact (h.set hne _).replace _ _ _ _

theorem faults_agree (hr : r ∉ i.regs) (h : AgreeOff r s t) : i.faults t = i.faults s := by
  have hne := ne_of_not_mem_regs hr
  cases i
  case other o => rfl
  all_goals
    simp only [Instr.regs, List.mem_cons, List.not_mem_nil, or_false, forall_eq_or_imp,
      forall_eq] at hne
    simp only [Instr.faults, h.get, hne, ne_eq, not_false_eq_true]

theorem branch_agree (hr : r ∉ i.regs) (h : AgreeOff r s t) : i.branch t = i.branch s := by
  have hne := ne_of_not_mem_regs hr
  cases i
  case other o => rfl
  all_goals
    simp only [Instr.regs, List.mem_cons, List.not_mem_nil, or_false, forall_eq_or_imp,
      forall_eq] at hne
    simp only [Instr.branch, h.get, h.flags, hne, ne_eq, not_false_eq_true]

end Agree

end PS4Recomp.Arm64
