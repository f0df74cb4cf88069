import Mathlib.Logic.Function.Basic

/-!
# Readers that take no lock, and when what they read may be freed

A reader is in a count while it follows shared pointers.  Who frees an object first takes it out of what
readers find, and then waits until there was a moment without readers.

* `Readers` — who reads, and what is held, out of reach, and drained; `early` are the readers that were there
  when the object was taken out and still are;
* `Readers.Step` — what a step may do to them;
* **`Readers.Inv.step`** — every such step keeps the invariant; `Inv.not_held` — what is drained is held by
  no reader.
-/

namespace PS4Recomp.Library.Quiesce

/-- Readers `L` of objects `X`. -/
structure Readers (L X : Type*) where
  active : L → Prop
  holds : L → X → Prop
  out : X → Prop
  early : X → L → Prop
  drained : X → Prop

namespace Readers

variable {L X : Type*} {r r' : Readers L X}

structure Inv (r : Readers L X) : Prop where
  active_of_holds : ∀ l x, r.holds l x → r.active l
  early_of_holds : ∀ l x, r.holds l x → r.out x → r.early x l
  active_of_early : ∀ l x, r.early x l → r.active l
  out_of_drained : ∀ x, r.drained x → r.out x
  not_early : ∀ l x, r.drained x → ¬r.early x l

/-- A step: a reader finds only what is in reach, the readers there when an object is taken out are early,
an object is drained when none of these is left, and what is drained stays out. -/
structure Step (r r' : Readers L X) : Prop where
  active : ∀ l x, r'.holds l x → r'.active l
  finds : ∀ l x, r'.holds l x → r.holds l x ∨ ¬r'.out x
  keeps : ∀ l x, r.early x l → r'.active l → r'.early x l
  takes : ∀ l x, r'.out x → ¬r.out x → r.holds l x → r'.active l → r'.early x l
  early : ∀ l x, r'.early x l → r'.active l ∧ (r.early x l ∨ ¬r.drained x)
  stays : ∀ x, r.drained x → r'.out x
  drains : ∀ x, r'.drained x → r.drained x ∨ r'.out x ∧ ∀ l, ¬r'.early x l

theorem Inv.not_held (h : r.Inv) {l : L} {x : X} (hx : r.drained x) : ¬r.holds l x := by
  intro hl
  exact h.not_early l x hx (h.early_of_holds l x hl (h.out_of_drained x hx))

/-- **Every step keeps the invariant.** -/
theorem Inv.step (h : r.Inv) (hs : r.Step r') : r'.Inv where
  active_of_holds := hs.active
  early_of_holds l x hl hx := by
    have hactive := hs.active l x hl
    rcases hs.finds l x hl with hold | hin
    · by_cases hout : r.out x
      · exact hs.keeps l x (h.early_of_holds l x hold hout) hactive
      · exact hs.takes l x hx hout hold hactive
    · exact absurd hx hin
  active_of_early l x hl := (hs.early l x hl).1
  out_of_drained x hx := by
    rcases hs.drains x hx with hold | ⟨hout, -⟩
    · exact hs.stays x hold
    · exact hout
  not_early l x hx hl := by
    rcases hs.drains x hx with hold | ⟨-, hnone⟩
    · rcases (hs.early l x hl).2 with hearly | hnot
      · exact h.not_early l x hold hearly
      · exact hnot hold
    · exact hnone l hl

end Readers

end PS4Recomp.Library.Quiesce
