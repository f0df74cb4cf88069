import PS4Recomp.X86.Semantics

/-!
# What the moves do

The x86 meaning of `MOV`, `MOVZX`, `MOVSX`, `MOVSXD`, `SETcc`, `CMOVcc`, `XCHG` and `LEA`.

* `placeBy`, `sourceBy` — the operands of an instruction whose memory operands lie at given
  addresses; `place_eq`, `source_eq`: those of the processor are at their effective addresses;
* `moveBy` — one of the eight instructions over such operands;
* `moves` — the instruction of the processor: `LEA` takes the address inside the segment;
* `placeBy_reg`, `placeBy_mem`, `movBy_some`, `extendBy_some`, … — operands and moves, taken apart.
-/

namespace PS4Recomp.X86

open Library

/-- The place of an operand of size `sz` when memory operands lie at `addr`. -/
def Cpu.placeBy (addr : Mem → Option Addr) (i : Instruction) (sz : Size) : Arg → Option Place
  | .reg r =>
      match r.loc with
      | some (g, lo, sz') => if sz' = sz then some (.reg g lo) else none
      | none => none
  | .mem m => if Size.ofBytes i.inst.memBytes = some sz then (addr m).map .mem else none
  | _ => none

/-- The value of a source operand when memory operands lie at `addr`. -/
def Cpu.sourceBy (c : Cpu) (addr : Mem → Option Addr) (i : Instruction) (sz : Size) :
    Arg → Option (BitVec sz.bits)
  | .imm v => some (v.setWidth sz.bits)
  | a => (placeBy addr i sz a).map (c.get sz)

theorem Cpu.place_eq (c : Cpu) (i : Instruction) (sz : Size) (a : Arg) :
    c.place i sz a = placeBy (fun m => m.ea c i) i sz a := by
  cases a <;> rfl

theorem Cpu.source_eq (c : Cpu) (i : Instruction) (sz : Size) (a : Arg) :
    c.source i sz a = c.sourceBy (fun m => m.ea c i) i sz a := by
  cases a <;> rfl

/-- A value extended by its sign or by zeros, and cut to a width. -/
def extendTo {n : ℕ} (signed : Bool) (v : BitVec n) (m : ℕ) : BitVec m :=
  if signed then (v.signExtend 64).setWidth m else (v.setWidth 64).setWidth m

/-- `MOVZX`, `MOVSX` and `MOVSXD`: a narrow source, extended. -/
def extendBy (c : Cpu) (addr : Mem → Option Addr) (i : Instruction) (signed : Bool)
    (sources : List Size) (dst : Reg) (src : Arg) : Option Cpu := do
  let dsz ← (Arg.reg dst).size? i
  guard (dsz ≠ .b)
  let ssz ← src.size? i
  guard (ssz ∈ sources)
  let d ← Cpu.placeBy addr i dsz (.reg dst)
  let e ← Cpu.placeBy addr i ssz src
  some (c.put dsz d (extendTo signed (c.get ssz e) dsz.bits))

/-- `MOV`. -/
def movBy (c : Cpu) (addr : Mem → Option Addr) (i : Instruction) (dst src : Arg) : Option Cpu := do
  let sz ← dst.size? i
  guard (¬(dst.isMem && src.isMem))
  let d ← Cpu.placeBy addr i sz dst
  let v ← c.sourceBy addr i sz src
  some (c.put sz d v)

/-- `SETcc`. -/
def setccBy (c : Cpu) (addr : Mem → Option Addr) (i : Instruction) (cc : Cond) (dst : Arg) :
    Option Cpu := do
  let d ← Cpu.placeBy addr i .b dst
  some (c.put .b d (if cc.holds c.flags then 1 else 0))

/-- `CMOVcc`: the destination is written in either case. -/
def cmovccBy (c : Cpu) (addr : Mem → Option Addr) (i : Instruction) (cc : Cond) (dst : Reg)
    (src : Arg) : Option Cpu := do
  let sz ← (Arg.reg dst).size? i
  guard (sz ≠ .b)
  let d ← Cpu.placeBy addr i sz (.reg dst)
  let e ← Cpu.placeBy addr i sz src
  some (c.put sz d (if cc.holds c.flags then c.get sz e else c.get sz d))

/-- `XCHG`. -/
def xchgBy (c : Cpu) (addr : Mem → Option Addr) (i : Instruction) (x y : Arg) : Option Cpu := do
  let sz ← x.size? i
  guard (¬(x.isMem && y.isMem))
  let p ← Cpu.placeBy addr i sz x
  let q ← Cpu.placeBy addr i sz y
  some ((c.put sz p (c.get sz q)).put sz q (c.get sz p))

/-- `LEA`, of the address `addr` gives. -/
def leaBy (c : Cpu) (addr : Mem → Option Addr) (i : Instruction) (dst : Reg) (m : Mem) :
    Option Cpu := do
  let sz ← (Arg.reg dst).size? i
  guard (sz ≠ .b)
  let d ← Cpu.placeBy addr i sz (.reg dst)
  let a ← addr m
  some (c.put sz d (a.setWidth sz.bits))

/-- One of the moves, with memory operands at `addr`. -/
def moveBy (c : Cpu) (addr : Mem → Option Addr) (i : Instruction) : Option Cpu :=
  match i.inst.op, i.inst.args with
  | .mov, [dst, src] => movBy c addr i dst src
  | .movzx, [.reg dst, src] => extendBy c addr i false [.b, .w] dst src
  | .movsx, [.reg dst, src] => extendBy c addr i true [.b, .w] dst src
  | .movsxd, [.reg dst, src] => extendBy c addr i true [.l] dst src
  | .setcc cc, [dst] => setccBy c addr i cc dst
  | .cmovcc cc, [.reg dst, src] => cmovccBy c addr i cc dst src
  | .xchg, [x, y] => xchgBy c addr i x y
  | .lea, [.reg dst, .mem m] => leaBy c addr i dst m
  | _, _ => none

/-- Where the processor finds a memory operand; `LEA` leaves out the base of the segment. -/
def Cpu.operandAddr (c : Cpu) (i : Instruction) (m : Mem) : Option Addr :=
  if i.inst.op = .lea then m.offset c i else m.ea c i

/-- One of the moves. -/
def moves (i : Instruction) (c : Cpu) : Option Cpu := moveBy c (c.operandAddr i) i

/-! ### operands, taken apart -/

theorem placeBy_reg {addr : Mem → Option Addr} {i : Instruction} {sz : Size} {r : Reg} {p : Place} :
    Cpu.placeBy addr i sz (.reg r) = some p ↔ ∃ g lo, r.loc = some (g, lo, sz) ∧ p = .reg g lo := by
  simp only [Cpu.placeBy]
  constructor
  · intro h
    split at h
    · rename_i g lo sz' hloc
      split at h
      · rename_i hsz
        subst hsz
        exact ⟨g, lo, hloc, (Option.some.inj h).symm⟩
      · cases h
    · cases h
  · rintro ⟨g, lo, hloc, rfl⟩
    rw [hloc]
    exact if_pos rfl

theorem placeBy_mem {addr : Mem → Option Addr} {i : Instruction} {sz : Size} {m : Mem} {p : Place} :
    Cpu.placeBy addr i sz (.mem m) = some p ↔
      Size.ofBytes i.inst.memBytes = some sz ∧ ∃ a, addr m = some a ∧ p = .mem a := by
  simp only [Cpu.placeBy]
  constructor
  · intro h
    split at h
    · rename_i hsz
      obtain ⟨a, ha, rfl⟩ := Option.map_eq_some_iff.1 h
      exact ⟨hsz, a, ha, rfl⟩
    · cases h
  · rintro ⟨hsz, a, ha, rfl⟩
    rw [if_pos hsz, ha]
    rfl

/-! ### the moves, taken apart -/

theorem of_guard {p : Prop} [Decidable p] {u : Unit} (h : (guard p : Option Unit) = some u) : p := by
  by_contra hp
  rw [guard, if_neg hp] at h
  cases h

theorem guard_some {p : Prop} [Decidable p] (h : p) : (guard p : Option Unit) = some () := if_pos h

section Inversion

variable {c c' : Cpu} {addr : Mem → Option Addr} {i : Instruction}

theorem size_of_place {sz : Size} {a : Arg} {p : Place}
    (h : Cpu.placeBy addr i sz a = some p) : a.size? i = some sz := by
  cases a with
  | imm w => cases h
  | rel w => cases h
  | reg r =>
      obtain ⟨g, lo, hloc, -⟩ := placeBy_reg.1 h
      rw [Arg.size?, hloc]
      rfl
  | mem m => exact (placeBy_mem.1 h).1

theorem movBy_some {dst src : Arg} : movBy c addr i dst src = some c' ↔
    ∃ sz d v, Cpu.placeBy addr i sz dst = some d ∧ ¬(dst.isMem && src.isMem) = true ∧
      c.sourceBy addr i sz src = some v ∧ c' = c.put sz d v := by
  unfold movBy
  simp only [Option.bind_eq_bind, Option.bind_eq_some_iff, Option.some.injEq]
  constructor
  · rintro ⟨sz, -, u, hg, d, hd, v, hv, rfl⟩
    exact ⟨sz, d, v, hd, of_guard hg, hv, rfl⟩
  · rintro ⟨sz, d, v, hd, hg, hv, rfl⟩
    exact ⟨sz, size_of_place hd, (), guard_some hg, d, hd, v, hv, rfl⟩

theorem extendBy_some {signed : Bool} {sources : List Size} {dst : Reg} {src : Arg} :
    extendBy c addr i signed sources dst src = some c' ↔
    ∃ dsz ssz d e, dsz ≠ .b ∧ ssz ∈ sources ∧ Cpu.placeBy addr i dsz (.reg dst) = some d ∧
      Cpu.placeBy addr i ssz src = some e ∧
      c' = c.put dsz d (extendTo signed (c.get ssz e) dsz.bits) := by
  unfold extendBy
  simp only [Option.bind_eq_bind, Option.bind_eq_some_iff, Option.some.injEq]
  constructor
  · rintro ⟨dsz, -, u, hg, ssz, -, u', hg', d, hd, e, he, rfl⟩
    exact ⟨dsz, ssz, d, e, of_guard hg, of_guard hg', hd, he, rfl⟩
  · rintro ⟨dsz, ssz, d, e, hg, hg', hd, he, rfl⟩
    exact ⟨dsz, size_of_place hd, (), guard_some hg, ssz, size_of_place he, (), guard_some hg',
      d, hd, e, he, rfl⟩

theorem setccBy_some {cc : Cond} {dst : Arg} : setccBy c addr i cc dst = some c' ↔
    ∃ d, Cpu.placeBy addr i .b dst = some d ∧
      c' = c.put .b d (if cc.holds c.flags then 1 else 0) := by
  unfold setccBy
  simp only [Option.bind_eq_bind, Option.bind_eq_some_iff, Option.some.injEq]
  constructor
  · rintro ⟨d, hd, rfl⟩
    exact ⟨d, hd, rfl⟩
  · rintro ⟨d, hd, rfl⟩
    exact ⟨d, hd, rfl⟩

theorem cmovccBy_some {cc : Cond} {dst : Reg} {src : Arg} :
    cmovccBy c addr i cc dst src = some c' ↔
    ∃ sz d e, sz ≠ .b ∧ Cpu.placeBy addr i sz (.reg dst) = some d ∧
      Cpu.placeBy addr i sz src = some e ∧
      c' = c.put sz d (if cc.holds c.flags then c.get sz e else c.get sz d) := by
  unfold cmovccBy
  simp only [Option.bind_eq_bind, Option.bind_eq_some_iff, Option.some.injEq]
  constructor
  · rintro ⟨sz, -, u, hg, d, hd, e, he, rfl⟩
    exact ⟨sz, d, e, of_guard hg, hd, he, rfl⟩
  · rintro ⟨sz, d, e, hg, hd, he, rfl⟩
    exact ⟨sz, size_of_place hd, (), guard_some hg, d, hd, e, he, rfl⟩

theorem xchgBy_some {x y : Arg} : xchgBy c addr i x y = some c' ↔
    ∃ sz p q, ¬(x.isMem && y.isMem) = true ∧ Cpu.placeBy addr i sz x = some p ∧
      Cpu.placeBy addr i sz y = some q ∧
      c' = (c.put sz p (c.get sz q)).put sz q (c.get sz p) := by
  unfold xchgBy
  simp only [Option.bind_eq_bind, Option.bind_eq_some_iff, Option.some.injEq]
  constructor
  · rintro ⟨sz, -, u, hg, p, hp, q, hq, rfl⟩
    exact ⟨sz, p, q, of_guard hg, hp, hq, rfl⟩
  · rintro ⟨sz, p, q, hg, hp, hq, rfl⟩
    exact ⟨sz, size_of_place hp, (), guard_some hg, p, hp, q, hq, rfl⟩

theorem leaBy_some {dst : Reg} {m : Mem} : leaBy c addr i dst m = some c' ↔
    ∃ sz d a, sz ≠ .b ∧ Cpu.placeBy addr i sz (.reg dst) = some d ∧ addr m = some a ∧
      c' = c.put sz d (a.setWidth sz.bits) := by
  unfold leaBy
  simp only [Option.bind_eq_bind, Option.bind_eq_some_iff, Option.some.injEq]
  constructor
  · rintro ⟨sz, -, u, hg, d, hd, a, ha, rfl⟩
    exact ⟨sz, d, a, of_guard hg, hd, ha, rfl⟩
  · rintro ⟨sz, d, a, hg, hd, ha, rfl⟩
    exact ⟨sz, size_of_place hd, (), guard_some hg, d, hd, a, ha, rfl⟩

theorem sourceBy_place {addr : Mem → Option Addr} {sz : Size} {src : Arg} {v : BitVec sz.bits}
    (h : c.sourceBy addr i sz src = some v) (himm : ∀ w, src ≠ .imm w) :
    ∃ e, Cpu.placeBy addr i sz src = some e ∧ c.get sz e = v := by
  cases src with
  | imm w => exact absurd rfl (himm w)
  | reg r => exact Option.map_eq_some_iff.1 h
  | mem m => exact Option.map_eq_some_iff.1 h
  | rel r => cases h

/-- The addresses of the memory operands stand for the whole move. -/
theorem placeBy_mono {addr addr' : Mem → Option Addr} {sz : Size} {a : Arg} {p : Place}
    (h : ∀ m, a = .mem m → ∀ x, addr m = some x → addr' m = some x)
    (hp : Cpu.placeBy addr i sz a = some p) : Cpu.placeBy addr' i sz a = some p := by
  cases a with
  | imm w => cases hp
  | rel w => cases hp
  | reg r => exact hp
  | mem m =>
      obtain ⟨hsz, x, hx, rfl⟩ := placeBy_mem.1 hp
      exact placeBy_mem.2 ⟨hsz, x, h m rfl x hx, rfl⟩

theorem sourceBy_mono {addr addr' : Mem → Option Addr} {sz : Size} {a : Arg} {v : BitVec sz.bits}
    (h : ∀ m, a = .mem m → ∀ x, addr m = some x → addr' m = some x)
    (hv : c.sourceBy addr i sz a = some v) : c.sourceBy addr' i sz a = some v := by
  cases a with
  | imm w => exact hv
  | rel w => cases hv
  | reg r => exact hv
  | mem m =>
      obtain ⟨e, he, rfl⟩ := sourceBy_place hv (fun w h => by cases h)
      show (Cpu.placeBy addr' i sz (.mem m)).map (c.get sz) = _
      rw [placeBy_mono h he]
      rfl

theorem moveBy_mono {addr addr' : Mem → Option Addr}
    (h : ∀ m, .mem m ∈ i.inst.args → ∀ x, addr m = some x → addr' m = some x)
    (hm : moveBy c addr i = some c') : moveBy c addr' i = some c' := by
  unfold moveBy at hm ⊢
  split at hm
  case h_1 dst src hop hargs =>
    rw [hargs] at h
    obtain ⟨sz, d, v, hd, hg, hv, rfl⟩ := movBy_some.1 hm
    exact movBy_some.2 ⟨sz, d, v, placeBy_mono (fun m hm => h m (by simp [hm])) hd, hg,
      sourceBy_mono (fun m hm => h m (by simp [hm])) hv, rfl⟩
  case h_2 dst src hop hargs =>
    rw [hargs] at h
    obtain ⟨dsz, ssz, d, e, hb, hg, hd, he, rfl⟩ := extendBy_some.1 hm
    exact extendBy_some.2 ⟨dsz, ssz, d, e, hb, hg, hd,
      placeBy_mono (fun m hm => h m (by simp [hm])) he, rfl⟩
  case h_3 dst src hop hargs =>
    rw [hargs] at h
    obtain ⟨dsz, ssz, d, e, hb, hg, hd, he, rfl⟩ := extendBy_some.1 hm
    exact extendBy_some.2 ⟨dsz, ssz, d, e, hb, hg, hd,
      placeBy_mono (fun m hm => h m (by simp [hm])) he, rfl⟩
  case h_4 dst src hop hargs =>
    rw [hargs] at h
    obtain ⟨dsz, ssz, d, e, hb, hg, hd, he, rfl⟩ := extendBy_some.1 hm
    exact extendBy_some.2 ⟨dsz, ssz, d, e, hb, hg, hd,
      placeBy_mono (fun m hm => h m (by simp [hm])) he, rfl⟩
  case h_5 cc dst hop hargs =>
    rw [hargs] at h
    obtain ⟨d, hd, rfl⟩ := setccBy_some.1 hm
    exact setccBy_some.2 ⟨d, placeBy_mono (fun m hm => h m (by simp [hm])) hd, rfl⟩
  case h_6 cc dst src hop hargs =>
    rw [hargs] at h
    obtain ⟨sz, d, e, hb, hd, he, rfl⟩ := cmovccBy_some.1 hm
    exact cmovccBy_some.2 ⟨sz, d, e, hb, hd, placeBy_mono (fun m hm => h m (by simp [hm])) he, rfl⟩
  case h_7 x y hop hargs =>
    rw [hargs] at h
    obtain ⟨sz, p, q, hg, hp, hq, rfl⟩ := xchgBy_some.1 hm
    exact xchgBy_some.2 ⟨sz, p, q, hg, placeBy_mono (fun m hm => h m (by simp [hm])) hp,
      placeBy_mono (fun m hm => h m (by simp [hm])) hq, rfl⟩
  case h_8 dst m hop hargs =>
    rw [hargs] at h
    obtain ⟨sz, d, a, hb, hd, ha, rfl⟩ := leaBy_some.1 hm
    exact leaBy_some.2 ⟨sz, d, a, hb, hd, h m (by simp) a ha, rfl⟩
  case h_9 => cases hm

end Inversion

end PS4Recomp.X86
