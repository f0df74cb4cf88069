import Mathlib

/-!
# A lock and the places of its threads

A lock names its owner; a predicate on places tells which threads hold it.  The two agree in every
state, and each kind of move keeps that.

* `HeldBy` — the owner is the one thread whose place holds the lock;
* `HeldBy.keep`, `HeldBy.take`, `HeldBy.drop` — a move that neither takes nor drops it, one that
  takes it, one that drops it;
* `HeldBy.unique` — two threads that hold it are one.
-/

namespace PS4Recomp.Library

variable {T P : Type*} {lock : Option T} {place : T → P} {holds : P → Bool} {t u : T} {p : P}

/-- The owner of the lock is the thread whose place holds it. -/
def HeldBy (lock : Option T) (place : T → P) (holds : P → Bool) : Prop :=
  ∀ u, lock = some u ↔ holds (place u) = true

namespace HeldBy

theorem unique (h : HeldBy lock place holds) (ht : holds (place t) = true)
    (hu : holds (place u) = true) : t = u := by
  have hlock := (h t).2 ht
  rw [(h u).2 hu] at hlock
  exact (Option.some.inj hlock).symm

variable [DecidableEq T]

theorem keep (h : HeldBy lock place holds) (hp : holds p = holds (place t)) :
    HeldBy lock (Function.update place t p) holds := by
  intro u
  rw [h u]
  by_cases hu : u = t
  · rw [hu, Function.update_self, hp]
  · rw [Function.update_of_ne hu]

theorem take (h : HeldBy none place holds) (hp : holds p = true) :
    HeldBy (some t) (Function.update place t p) holds := by
  intro u
  by_cases hu : u = t
  · rw [hu, Function.update_self]
    exact ⟨fun _ => hp, fun _ => rfl⟩
  · rw [Function.update_of_ne hu, ← h u, Option.some.injEq]
    exact ⟨fun heq => absurd heq.symm hu, fun heq => (nomatch heq)⟩

theorem drop (h : HeldBy lock place holds) (ht : holds (place t) = true) (hp : holds p = false) :
    HeldBy none (Function.update place t p) holds := by
  intro u
  by_cases hu : u = t
  · rw [hu, Function.update_self, hp]
    exact ⟨fun heq => (nomatch heq), fun heq => (nomatch heq)⟩
  · rw [Function.update_of_ne hu, ← h u, (h t).2 ht, Option.some.injEq]
    exact ⟨fun heq => (nomatch heq), fun heq => absurd heq.symm hu⟩

end HeldBy

end PS4Recomp.Library
