import PS4Recomp.Library.RadixTable

/-!
# The dispatch table

`recomp_runtime.c`, `recomp_context.h` and the trampoline: a three-level table from 48-bit guest addresses
to host functions, written by `recomp_register_fn` and read by `recomp_dispatch` and by the assembly macro
`DISPATCH_LOOKUP`.

* `l1Idx`, `l2Idx`, `l3Idx` — the three 16-bit fields, `fields_inj` — they determine the address;
* `recompRegisterFn`, `dispatchLookup`, `recompDispatch` — the writer and the two readers;
* `lastRegistration` — what a list of registrations leaves at an address;
* **`dispatch_lastRegistration`** — both readers find the last registration, but the C function takes the
  address 0 for no function.

What the dispatcher does with a function, or without one, is left out.
-/

namespace PS4Recomp.Runtime.Dispatch

open Library

def dispatchL1Shift : ℕ := 32
def dispatchL2Shift : ℕ := 16

/-- `DISPATCH_LEVEL_MASK`. -/
def dispatchLevelMask : BitVec 64 := 0xFFFF

/-! ### the fields of an address -/

def l1Idx (a : BitVec 64) : BitVec 64 := (a >>> dispatchL1Shift) &&& dispatchLevelMask
def l2Idx (a : BitVec 64) : BitVec 64 := (a >>> dispatchL2Shift) &&& dispatchLevelMask
def l3Idx (a : BitVec 64) : BitVec 64 := a &&& dispatchLevelMask

theorem toNat_field (a : BitVec 64) (shift : ℕ) :
    ((a >>> shift) &&& dispatchLevelMask).toNat = a.toNat / 2 ^ shift % 2 ^ 16 := by
  have hmask : dispatchLevelMask.toNat = 2 ^ 16 - 1 := rfl
  rw [BitVec.toNat_and, BitVec.toNat_ushiftRight, hmask, Nat.and_two_pow_sub_one_eq_mod,
    Nat.shiftRight_eq_div_pow]

/-- **Fields.**  An address below `2 ^ 48` is its three fields. -/
theorem fields_inj {a b : BitVec 64} (ha : a.toNat < 2 ^ 48) (hb : b.toNat < 2 ^ 48)
    (h1 : l1Idx a = l1Idx b) (h2 : l2Idx a = l2Idx b) (h3 : l3Idx a = l3Idx b) : a = b := by
  have e1 := congrArg BitVec.toNat h1
  have e2 := congrArg BitVec.toNat h2
  have e3 : ((a >>> 0) &&& dispatchLevelMask).toNat = ((b >>> 0) &&& dispatchLevelMask).toNat := by
    rw [BitVec.ushiftRight_zero, BitVec.ushiftRight_zero]
    exact congrArg BitVec.toNat h3
  unfold l1Idx dispatchL1Shift at e1
  unfold l2Idx dispatchL2Shift at e2
  rw [toNat_field, toNat_field] at e1 e2 e3
  refine BitVec.eq_of_toNat_eq ?_
  omega

/-! ### the table -/

/-- `g_dispatch_l1` and the levels it leads to; `F` are the function pointers other than `NULL`. -/
abbrev DispatchTable (F : Type*) := RadixTable (BitVec 64) F

section Table

variable {F : Type*}

/-- `recomp_register_fn`, with the outcomes of the two allocations; `none` where it aborts. -/
def recompRegisterFn (t : DispatchTable F) (guestAddr : BitVec 64) (fn : Option F) (ok2 ok3 : Bool) :
    Option (DispatchTable F) :=
  if 2 ^ 48 ≤ guestAddr.toNat then some t
  else t.insert (l1Idx guestAddr) (l2Idx guestAddr) (l3Idx guestAddr) fn ok2 ok3

/-- `DISPATCH_LOOKUP`: the guest address in `x0`. -/
def dispatchLookup (t : DispatchTable F) (x0 : BitVec 64) : Option F :=
  (t.l1 ((x0 >>> 32) &&& 0xffff)).bind fun x16 =>
    (t.l2 x16 ((x0 >>> 16) &&& 0xffff)).bind fun x16 => t.l3 x16 (x0 &&& 0xffff)

/-- The lookup of `recomp_dispatch`. -/
def recompDispatch (t : DispatchTable F) (target : BitVec 64) : Option F :=
  if target ≠ 0 ∧ target.toNat < 2 ^ 48 then
    (t.l1 (l1Idx target)).bind fun l2 =>
      (t.l2 l2 (l2Idx target)).bind fun l3 => t.l3 l3 (l3Idx target)
  else none

/-- The place of an address. -/
def place (t : DispatchTable F) (a : BitVec 64) : Option (ℕ × BitVec 64) :=
  t.slot (l1Idx a) (l2Idx a) (l3Idx a)

/-- A call of `recomp_register_fn`. -/
structure Registration (F : Type*) where
  guestAddr : BitVec 64
  fn : Option F
  ok2 : Bool := true
  ok3 : Bool := true

/-- Registrations one after the other. -/
def registerAll : DispatchTable F → List (Registration F) → Option (DispatchTable F)
  | t, [] => some t
  | t, r :: rs => (recompRegisterFn t r.guestAddr r.fn r.ok2 r.ok3).bind fun t => registerAll t rs

/-- What the last registration of an address leaves, over what was there before. -/
def lastRegistration (before : BitVec 64 → Option F) : List (Registration F) → BitVec 64 → Option F
  | [], a => before a
  | r :: rs, a => lastRegistration (Function.update before r.guestAddr r.fn) rs a

theorem dispatchLookup_eq_find (t : DispatchTable F) (a : BitVec 64) :
    dispatchLookup t a = t.find (l1Idx a) (l2Idx a) (l3Idx a) := rfl

theorem recompDispatch_eq (t : DispatchTable F) {a : BitVec 64} (ha : a.toNat < 2 ^ 48) :
    recompDispatch t a = if a = 0 then none else dispatchLookup t a := by
  unfold recompDispatch
  by_cases h0 : a = 0
  · rw [if_pos h0, if_neg fun e => e.1 h0]
  · rw [if_neg h0, if_pos ⟨h0, ha⟩]
    rfl

variable {t t' : DispatchTable F}

/-- **Register.**  The address has the function, and no other address below `2 ^ 48` changes. -/
theorem register_spec (h : t.WF) {r : Registration F} (hr : r.guestAddr.toNat < 2 ^ 48)
    (hreg : recompRegisterFn t r.guestAddr r.fn r.ok2 r.ok3 = some t') :
    t'.WF ∧ ∀ a : BitVec 64, a.toNat < 2 ^ 48 →
      dispatchLookup t' a = Function.update (dispatchLookup t) r.guestAddr r.fn a := by
  unfold recompRegisterFn at hreg
  rw [if_neg (by omega)] at hreg
  obtain ⟨hwf, hnew, hold⟩ := RadixTable.insert_spec h hreg
  refine ⟨hwf, fun a ha => ?_⟩
  by_cases har : a = r.guestAddr
  · rw [har, Function.update_self, dispatchLookup_eq_find]
    exact hnew
  · rw [Function.update_of_ne har, dispatchLookup_eq_find, dispatchLookup_eq_find]
    exact hold _ _ _ fun e => har (fields_inj ha hr e.1 e.2.1 e.2.2)

theorem registerAll_spec : ∀ (regs : List (Registration F)) {t : DispatchTable F}
    (before : BitVec 64 → Option F), t.WF → (∀ r ∈ regs, r.guestAddr.toNat < 2 ^ 48) →
    (∀ a : BitVec 64, a.toNat < 2 ^ 48 → dispatchLookup t a = before a) →
    registerAll t regs = some t' →
    t'.WF ∧ ∀ a : BitVec 64, a.toNat < 2 ^ 48 → dispatchLookup t' a = lastRegistration before regs a := by
  intro regs
  induction regs with
  | nil =>
      intro t before h _ hbefore ht
      cases ht
      exact ⟨h, hbefore⟩
  | cons r rs ih =>
      intro t before h hlt hbefore ht
      obtain ⟨t₁, h₁, ht⟩ := Option.bind_eq_some_iff.1 ht
      have hr := hlt r List.mem_cons_self
      obtain ⟨hwf, hlook⟩ := register_spec h hr h₁
      refine ih _ hwf (fun r' hr' => hlt r' (List.mem_cons_of_mem _ hr')) (fun a ha => ?_) ht
      rw [hlook a ha]
      by_cases har : a = r.guestAddr
      · rw [har, Function.update_self, Function.update_self]
      · rw [Function.update_of_ne har, Function.update_of_ne har, hbefore a ha]

/-- **The dispatch table.**  After any registrations of addresses below `2 ^ 48`, the assembly lookup of
an address finds its last registration, and the C lookup does but for the address 0, where it finds
nothing; two addresses have two places, and one more registration changes no other address. -/
theorem dispatch_lastRegistration {regs : List (Registration F)}
    (hlt : ∀ r ∈ regs, r.guestAddr.toNat < 2 ^ 48) (ht : registerAll {} regs = some t) :
    (∀ a : BitVec 64, a.toNat < 2 ^ 48 →
      dispatchLookup t a = lastRegistration (fun _ => none) regs a ∧
      recompDispatch t a = if a = 0 then none else lastRegistration (fun _ => none) regs a) ∧
    (∀ a b : BitVec 64, a.toNat < 2 ^ 48 → b.toNat < 2 ^ 48 →
      ∀ p, place t a = some p → place t b = some p → a = b) ∧
    ∀ (r : Registration F) t', r.guestAddr.toNat < 2 ^ 48 →
      recompRegisterFn t r.guestAddr r.fn r.ok2 r.ok3 = some t' →
      ∀ b : BitVec 64, b.toNat < 2 ^ 48 → b ≠ r.guestAddr →
        dispatchLookup t' b = dispatchLookup t b ∧ recompDispatch t' b = recompDispatch t b := by
  obtain ⟨hwf, hlook⟩ := registerAll_spec regs (fun _ => none) RadixTable.wf_empty hlt (fun _ _ => rfl) ht
  refine ⟨fun a ha => ⟨hlook a ha, ?_⟩, fun a b ha hb p hpa hpb => ?_, fun r t' hr hreg b hb hne => ?_⟩
  · rw [recompDispatch_eq t ha, hlook a ha]
  · obtain ⟨h1, h2, h3⟩ := RadixTable.slot_inj hwf hpa hpb
    exact fields_inj ha hb h1 h2 h3
  · have hsame : dispatchLookup t' b = dispatchLookup t b := by
      rw [(register_spec hwf hr hreg).2 b hb, Function.update_of_ne hne]
    refine ⟨hsame, ?_⟩
    rw [recompDispatch_eq t' hb, recompDispatch_eq t hb, hsame]

end Table

/-! ### registrations -/

/-- Two addresses that differ in bit 16, one of them registered twice. -/
def twice : List (Registration ℕ) :=
  [{ guestAddr := 0x400000, fn := some 1 }, { guestAddr := 0x410000, fn := some 2 },
    { guestAddr := 0x400000, fn := some 3 }]

theorem dispatch_lastRegistration_twice : ∃ t, registerAll {} twice = some t ∧
    dispatchLookup t 0x400000 = some 3 ∧ recompDispatch t 0x410000 = some 2 := by
  obtain ⟨t, ht⟩ : ∃ t, registerAll {} twice = some t := Option.isSome_iff_exists.1 (by decide)
  have h := (dispatch_lastRegistration (by decide) ht).1
  exact ⟨t, ht, (h 0x400000 (by decide)).1.trans (by decide),
    (h 0x410000 (by decide)).2.trans (by decide)⟩

/-- The C function does not find what is registered at 0. -/
theorem recompDispatch_zero : ¬ ∀ (regs : List (Registration ℕ)) t,
    (∀ r ∈ regs, r.guestAddr.toNat < 2 ^ 48) → registerAll {} regs = some t →
    ∀ a : BitVec 64, a.toNat < 2 ^ 48 →
      dispatchLookup t a = lastRegistration (fun _ => none) regs a ∧
      recompDispatch t a = lastRegistration (fun _ => none) regs a := by
  intro hall
  obtain ⟨t, ht⟩ : ∃ t, registerAll {} [({ guestAddr := 0, fn := some 1 } : Registration ℕ)] = some t :=
    Option.isSome_iff_exists.1 (by decide)
  have hzero := (hall _ t (by decide) ht 0 (by decide)).2
  cases hzero

end PS4Recomp.Runtime.Dispatch
