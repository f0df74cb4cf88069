import Mathlib

/-!
# A pool of slots

A fixed number of slots with a stack of the freed ones and a mark for those that were used before.
A slot is taken from the stack, or from the slots never used; between taking a slot and marking it
live, and between unmarking it and pushing it, it is in the hands of the caller.

* `Pool`, `pop`, `publish`, `clear`, `push` — the pool and its four writes;
* `Pool.Status`, `Pool.Has` — never used, freed, live;
* `Pool.Inv` — each slot has one status, but the one in the caller's hands, which has none;
* `inv_pop`, `inv_publish`, `inv_clear`, `inv_push` — the writes keep it;
* `Inv.unique`, `Inv.length_free` — exactly one status for each slot, and the stack fits.
-/

namespace PS4Recomp.Library

/-- A pool of slots. -/
structure Pool where
  next : ℕ := 0
  free : List ℕ := []
  live : ℕ → Bool := fun _ => false

namespace Pool

variable {cap : ℕ} {p p' : Pool} {slot : ℕ}

/-- A slot of the stack, else one that was never used. -/
def pop (cap : ℕ) (p : Pool) : Option (ℕ × Pool) :=
  match p.free with
  | slot :: free => some (slot, { p with free })
  | [] => if p.next < cap then some (p.next, { p with next := p.next + 1 }) else none

/-- The slot is live. -/
def publish (slot : ℕ) (p : Pool) : Pool := { p with live := Function.update p.live slot true }

/-- The slot is not live. -/
def clear (slot : ℕ) (p : Pool) : Pool := { p with live := Function.update p.live slot false }

/-- The slot back on the stack. -/
def push (slot : ℕ) (p : Pool) : Pool := { p with free := slot :: p.free }

/-- Where a slot is. -/
inductive Status where
  | unused | freed | live
  deriving DecidableEq, Repr

/-- A slot has a status. -/
def Has (p : Pool) (slot : ℕ) : Status → Prop
  | .unused => p.next ≤ slot
  | .freed => slot ∈ p.free
  | .live => p.live slot = true

/-- The invariant, with the slot in the caller's hands. -/
structure Inv (cap : ℕ) (held : Option ℕ) (p : Pool) : Prop where
  bound : p.next ≤ cap
  nodup : p.free.Nodup
  used : ∀ slot, slot ∈ p.free ∨ p.live slot = true ∨ held = some slot → slot < p.next
  covered : ∀ slot < p.next, slot ∈ p.free ∨ p.live slot = true ∨ held = some slot
  freed : ∀ slot ∈ p.free, p.live slot = false ∧ held ≠ some slot
  held : ∀ slot, held = some slot → p.live slot = false

theorem inv_empty (cap : ℕ) : Inv cap none {} where
  bound := Nat.zero_le _
  nodup := List.nodup_nil
  used slot h := by simp at h
  covered slot h := absurd h (Nat.not_lt_zero slot)
  freed slot h := (nomatch h)
  held slot h := (nomatch h)

theorem inv_pop (h : Inv cap none p) (hp : p.pop cap = some (slot, p')) :
    Inv cap (some slot) p' ∧ slot < cap ∧ p'.live = p.live := by
  unfold pop at hp
  cases hfree : p.free with
  | cons s free =>
      rw [hfree] at hp
      cases hp
      have hnodup := h.nodup
      rw [hfree, List.nodup_cons] at hnodup
      have hs := h.freed slot (by rw [hfree]; exact List.mem_cons_self)
      have hlt := h.used slot (.inl (by rw [hfree]; exact List.mem_cons_self))
      refine ⟨⟨h.bound, hnodup.2, fun t ht => ?_, fun t ht => ?_, fun t ht => ?_, fun t ht => ?_⟩,
        Nat.lt_of_lt_of_le hlt h.bound, rfl⟩
      · rcases ht with ht | ht | ht
        · exact h.used t (.inl (by rw [hfree]; exact List.mem_cons_of_mem _ ht))
        · exact h.used t (.inr (.inl ht))
        · cases ht
          exact hlt
      · rcases h.covered t ht with hmem | hlive | hheld
        · rw [hfree, List.mem_cons] at hmem
          rcases hmem with rfl | hmem
          · exact .inr (.inr rfl)
          · exact .inl hmem
        · exact .inr (.inl hlive)
        · cases hheld
      · have hold := h.freed t (by rw [hfree]; exact List.mem_cons_of_mem _ ht)
        refine ⟨hold.1, fun e => ?_⟩
        cases e
        exact hnodup.1 ht
      · cases ht
        exact hs.1
  | nil =>
      rw [hfree] at hp
      dsimp only at hp
      split at hp
      · rename_i hlt
        cases hp
        have hnew : p.live p.next = false := by
          by_contra hlive
          rw [Bool.not_eq_false] at hlive
          exact Nat.lt_irrefl _ (h.used _ (.inr (.inl hlive)))
        refine ⟨⟨hlt, List.nodup_nil, fun t ht => ?_, fun t ht => ?_, fun t ht => (nomatch ht),
          fun t ht => ?_⟩, hlt, rfl⟩
        · show t < p.next + 1
          rcases ht with ht | ht | ht
          · cases ht
          · exact Nat.lt_succ_of_lt (h.used t (.inr (.inl ht)))
          · cases ht
            exact Nat.lt_succ_self _
        · rcases Nat.lt_succ_iff_lt_or_eq.1 ht with ht | rfl
          · rcases h.covered t ht with hmem | hlive | hheld
            · rw [hfree] at hmem
              cases hmem
            · exact .inr (.inl hlive)
            · cases hheld
          · exact .inr (.inr rfl)
        · cases ht
          exact hnew
      · cases hp

theorem inv_publish (h : Inv cap (some slot) p) : Inv cap none (p.publish slot) := by
  have hother : ∀ t, t ≠ slot → (p.publish slot).live t = p.live t := fun t ht =>
    Function.update_of_ne ht _ _
  have hself : (p.publish slot).live slot = true := Function.update_self ..
  refine ⟨h.bound, h.nodup, fun t ht => ?_, fun t ht => ?_, fun t ht => ?_, fun t ht => (nomatch ht)⟩
  · show t < p.next
    by_cases hts : t = slot
    · rw [hts]
      exact h.used slot (.inr (.inr rfl))
    · rcases ht with ht | ht | ht
      · exact h.used t (.inl ht)
      · rw [hother t hts] at ht
        exact h.used t (.inr (.inl ht))
      · cases ht
  · rcases h.covered t ht with hmem | hlive | hheld
    · exact .inl hmem
    · by_cases hts : t = slot
      · rw [hts]
        exact .inr (.inl hself)
      · rw [hother t hts]
        exact .inr (.inl hlive)
    · cases hheld
      exact .inr (.inl hself)
  · have hold := h.freed t ht
    have hts : t ≠ slot := fun e => hold.2 (congrArg some e.symm)
    rw [hother t hts]
    exact ⟨hold.1, nofun⟩

theorem inv_clear (h : Inv cap none p) (hlive : p.live slot = true) :
    Inv cap (some slot) (p.clear slot) := by
  have hother : ∀ t, t ≠ slot → (p.clear slot).live t = p.live t := fun t ht =>
    Function.update_of_ne ht _ _
  have hself : (p.clear slot).live slot = false := Function.update_self ..
  refine ⟨h.bound, h.nodup, fun t ht => ?_, fun t ht => ?_, fun t ht => ?_, fun t ht => ?_⟩
  · show t < p.next
    by_cases hts : t = slot
    · rw [hts]
      exact h.used slot (.inr (.inl hlive))
    · rcases ht with ht | ht | ht
      · exact h.used t (.inl ht)
      · rw [hother t hts] at ht
        exact h.used t (.inr (.inl ht))
      · exact absurd (Option.some.inj ht).symm hts
  · by_cases hts : t = slot
    · rw [hts]
      exact .inr (.inr rfl)
    · rw [hother t hts]
      rcases h.covered t ht with hmem | hl | hheld
      · exact .inl hmem
      · exact .inr (.inl hl)
      · cases hheld
  · have hold := h.freed t ht
    have hts : t ≠ slot := by
      intro e
      rw [e, hlive] at hold
      cases hold.1
    rw [hother t hts]
    exact ⟨hold.1, fun e => hts (Option.some.inj e).symm⟩
  · cases ht
    exact hself

theorem inv_push (h : Inv cap (some slot) p) : Inv cap none (p.push slot) := by
  have hnew : slot ∉ p.free := fun hmem => (h.freed slot hmem).2 rfl
  refine ⟨h.bound, List.nodup_cons.2 ⟨hnew, h.nodup⟩, fun t ht => ?_, fun t ht => ?_, fun t ht => ?_,
    fun t ht => (nomatch ht)⟩
  · show t < p.next
    rcases ht with ht | ht | ht
    · rcases List.mem_cons.1 ht with rfl | ht
      · exact h.used t (.inr (.inr rfl))
      · exact h.used t (.inl ht)
    · exact h.used t (.inr (.inl ht))
    · cases ht
  · rcases h.covered t ht with hmem | hlive | hheld
    · exact .inl (List.mem_cons_of_mem _ hmem)
    · exact .inr (.inl hlive)
    · cases hheld
      exact .inl List.mem_cons_self
  · refine ⟨?_, nofun⟩
    rcases List.mem_cons.1 ht with rfl | ht
    · exact h.held t rfl
    · exact (h.freed t ht).1

/-- The stack holds each slot at most once, so it never outgrows the pool. -/
theorem Inv.length_free {held : Option ℕ} (h : Inv cap held p) : p.free.length ≤ p.next := by
  have hsub : p.free.toFinset ⊆ Finset.range p.next := by
    intro slot hs
    rw [Finset.mem_range]
    exact h.used slot (.inl (List.mem_toFinset.1 hs))
  have hcard := Finset.card_le_card hsub
  rwa [List.toFinset_card_of_nodup h.nodup, Finset.card_range] at hcard

/-- While a slot is in the caller's hands there is room for it. -/
theorem Inv.room (h : Inv cap (some slot) p) : p.free.length < cap :=
  Nat.lt_of_lt_of_le ((inv_push h).length_free) h.bound

/-- **One status.**  Each slot has exactly one, but the one in the caller's hands, which has none. -/
theorem Inv.unique {held : Option ℕ} (h : Inv cap held p) (slot : ℕ) :
    if held = some slot then ∀ k, ¬ p.Has slot k else ∃! k, p.Has slot k := by
  by_cases hheld : held = some slot
  · rw [if_pos hheld]
    rintro (_ | _ | _) hk
    · exact Nat.not_le_of_lt (h.used slot (.inr (.inr hheld))) hk
    · exact (h.freed slot hk).2 hheld
    · have hoff := h.held slot hheld
      rw [show p.live slot = true from hk] at hoff
      cases hoff
  · rw [if_neg hheld]
    by_cases hlt : slot < p.next
    · rcases h.covered slot hlt with hmem | hlive | hno
      · refine ⟨.freed, hmem, ?_⟩
        rintro (_ | _ | _) hk
        · exact absurd hlt (Nat.not_lt_of_le hk)
        · rfl
        · have hoff := (h.freed slot hmem).1
          rw [show p.live slot = true from hk] at hoff
          cases hoff
      · refine ⟨.live, hlive, ?_⟩
        rintro (_ | _ | _) hk
        · exact absurd hlt (Nat.not_lt_of_le hk)
        · have hoff := (h.freed slot hk).1
          rw [hlive] at hoff
          cases hoff
        · rfl
      · exact absurd hno hheld
    · refine ⟨.unused, Nat.le_of_not_lt hlt, ?_⟩
      rintro (_ | _ | _) hk
      · rfl
      · exact absurd (h.used slot (.inl hk)) hlt
      · exact absurd (h.used slot (.inr (.inl hk))) hlt

end Pool

end PS4Recomp.Library
