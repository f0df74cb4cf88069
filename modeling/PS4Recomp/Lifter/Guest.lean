import PS4Recomp.Lifter.Operands

/-!
# The guest in the host

* `Rep` — the guest's registers, memory and `FS` base are in the host's;
* `scratch` — the registers the lowerings compute in; a write of one of them keeps `Rep`;
* `Rep.write`, `Rep.store` — a guest register or guest memory written.

The flags are not part of `Rep`: how they are held depends on the recorded carry sense.
-/

namespace PS4Recomp.Lifter

open X86 Arm64 Library

/-! ### registers -/

/-- The registers the lowerings compute in. -/
def scratch : List XReg := [0, 1, 2, 3, 4, 5, 6, 7, 16, 17]

theorem pin_injective : Function.Injective pin := by
  intro g g' h
  cases g <;> cases g' <;> first | rfl | exact absurd h (by decide)

theorem pin_ne_zr (g : Gpr) : pin g ≠ 31 := by cases g <;> decide

theorem pin_ne_fs (g : Gpr) : pin g ≠ 27 := by cases g <;> decide

theorem pin_ne_base (g : Gpr) : pin g ≠ 28 := by cases g <;> decide

theorem pin_ne_scratch (g : Gpr) {r : XReg} (h : r ∈ scratch) : pin g ≠ r := by
  rintro rfl
  cases g <;> exact absurd h (by decide)

theorem fs_ne_scratch {r : XReg} (h : r ∈ scratch) : (27 : XReg) ≠ r := by
  rintro rfl
  exact absurd h (by decide)

theorem base_ne_scratch {r : XReg} (h : r ∈ scratch) : (28 : XReg) ≠ r := by
  rintro rfl
  exact absurd h (by decide)

theorem zr_ne_scratch {r : XReg} (h : r ∈ scratch) : r ≠ 31 := by
  rintro rfl
  exact absurd h (by decide)

/-! ### representation -/

/-- The guest's registers, memory and `FS` base are in the host's. -/
structure Rep (c : Cpu) (s : State) : Prop where
  gpr : ∀ g, s.get (pin g) = c.gpr g
  fs : s.get 27 = c.fsBase
  mem : s.mem.view (s.get 28) = c.mem

namespace Rep

variable {c : Cpu} {s : State}

theorem set_scratch (h : Rep c s) {r : XReg} (hr : r ∈ scratch) (v : BitVec 64) :
    Rep c (s.set r v) where
  gpr g := by
    rw [State.get_set_ne (pin_ne_scratch g hr)]
    exact h.gpr g
  fs := by
    rw [State.get_set_ne (fs_ne_scratch hr)]
    exact h.fs
  mem := by
    rw [State.get_set_ne (base_ne_scratch hr), State.set_mem]
    exact h.mem

theorem set_flags (h : Rep c s) (f : Nzcv) : Rep c { s with flags := f } := ⟨h.gpr, h.fs, h.mem⟩

theorem guestFlags (h : Rep c s) (f : X86.Flags) : Rep { c with flags := f } s :=
  ⟨h.gpr, h.fs, h.mem⟩

theorem write (h : Rep c s) (g : Gpr) (v : BitVec 64) : Rep (c.setGpr g v) (s.set (pin g) v) where
  gpr g' := by
    show _ = Function.update c.gpr g v g'
    by_cases hg : g' = g
    · subst hg
      rw [State.get_set_self (pin_ne_zr g'), Function.update_self]
    · rw [State.get_set_ne (fun heq => hg (pin_injective heq)), Function.update_of_ne hg]
      exact h.gpr g'
  fs := by
    rw [State.get_set_ne (pin_ne_fs g).symm]
    exact h.fs
  mem := by
    rw [State.get_set_ne (pin_ne_base g).symm, State.set_mem]
    exact h.mem

theorem store (h : Rep c s) {n : ℕ} (a : Addr) (v : BitVec n) :
    Rep { c with mem := c.mem.store a v } { s with mem := s.mem.store (s.get 28 + a) v } where
  gpr := h.gpr
  fs := h.fs
  mem := by
    show (s.mem.store (s.get 28 + a) v).view (s.get 28) = c.mem.store a v
    rw [ByteMem.store_view, h.mem]

theorem load (h : Rep c s) (n : ℕ) (a : Addr) : s.mem.load n (s.get 28 + a) = c.mem.load n a := by
  rw [← ByteMem.load_view, h.mem]

end Rep

end PS4Recomp.Lifter
