import PS4Recomp.Library.Transition
import PS4Recomp.Library.Lock

/-!
# One-time initialisation under a lock and a condition

Any number of threads, a memory `M`, a lock and a condition with spurious wake-ups.  A call looks at
the memory under the lock, and leaves, sleeps or wins; a winner runs the initializer, in which it may
call again, and ends it with a completion or an abort.

* `Protocol` — what a call reads and writes, `State`, `exec`, `Protocol.system` — the machine;
* `Stage` — the abstract state: idle, running, ended, complete;
* `Sound` — the memory tells the stage, `same` relates threads that a look takes for one another;
* `Rel`, `rel_step` — the machine follows the stages;
* `exclusive`, `once`, `leave_spec` — one initializer at a time, none after a completion, and nobody
  leaves before it, but a thread taken for the one that runs it;
* `awake`, `idle_of_abort`, `idle_wins`, `idle_reach` — after an abort nobody sleeps and any call can
  win;
* `reachable_acts` — the state after a list of steps.
-/

namespace PS4Recomp.Library.OneTime

open Transition

/-- What a look under the lock decides. -/
inductive Look where
  | leave | sleep | win
  deriving DecidableEq

/-- What the calls read and write: `fast` is a look without the lock, `publish` the first store of a
completion, `settle` the stores before the broadcast, after a completion or an abort. -/
structure Protocol (T M : Type*) where
  start : M
  fast : Option (M → Bool)
  look : T → M → Look
  mark : T → M → M
  publish : M → M
  settle : Bool → M → M
  aborts : Bool

/-- Where a thread is; `c` tells a completion from an abort. -/
inductive Place where
  | out | entered | want | locked | asleep | woken
  | endWant (c : Bool) | endLocked (c : Bool) | endStored (c : Bool)
  deriving DecidableEq

/-- The thread holds the lock. -/
def Place.holds : Place → Bool
  | .locked | .endLocked _ | .endStored _ => true
  | _ => false

/-- Where a thread goes that takes the lock. -/
def Place.afterLock : Place → Option Place
  | .want | .woken => some .locked
  | .endWant c => some (.endLocked c)
  | _ => none

/-- The thread ends an initializer: how, and whether its first store is done. -/
def Place.ending : Place → Option (Bool × Bool)
  | .endWant c | .endLocked c => some (c, false)
  | .endStored c => some (c, true)
  | _ => none

/-- Where a broadcast puts a thread. -/
def Place.wake : Place → Place
  | .asleep => .woken
  | p => p

/-- The memory, the lock's owner, who runs the initializer, whether one was completed (which no code
reads), and where each thread is. -/
structure State (T M : Type*) where
  mem : M
  lock : Option T := none
  running : T → Bool := fun _ => false
  completed : Bool := false
  place : T → Place := fun _ => .out

/-- The steps. -/
inductive Act (T : Type*) where
  | call (t : T) | fast (t : T) | lock (t : T) | loop (t : T) | wake (t : T)
  | finish (t : T) (c : Bool) | store (t : T) | settle (t : T)

/-- Who takes the step. -/
def Act.thread {T : Type*} : Act T → T
  | .call t | .fast t | .lock t | .loop t | .wake t | .finish t _ | .store t | .settle t => t

section Machine

variable {T M : Type*} [DecidableEq T]

/-- A thread moved. -/
def State.goto (s : State T M) (t : T) (p : Place) : State T M :=
  { s with place := Function.update s.place t p }

/-- A step and what a call returns in it: `some false` where it leaves, `some true` where it wins.
`none` where the step is not possible. -/
def exec (P : Protocol T M) (s : State T M) : Act T → Option (State T M × Option Bool)
  | .call t =>
      if s.place t = .out then
        some (s.goto t (if P.fast.isSome then .entered else .want), none)
      else none
  | .fast t =>
      match P.fast with
      | none => none
      | some f =>
          if s.place t = .entered then
            if f s.mem then some (s.goto t .out, some false) else some (s.goto t .want, none)
          else none
  | .lock t =>
      match s.lock, (s.place t).afterLock with
      | none, some p => some ({ s.goto t p with lock := some t }, none)
      | _, _ => none
  | .loop t =>
      if s.place t = .locked then
        match P.look t s.mem with
        | .leave => some ({ s.goto t .out with lock := none }, some false)
        | .sleep => some ({ s.goto t .asleep with lock := none }, none)
        | .win =>
            some ({ s.goto t .out with
              lock := none, mem := P.mark t s.mem
              running := Function.update s.running t true }, some true)
      else none
  | .wake t => if s.place t = .asleep then some (s.goto t .woken, none) else none
  | .finish t c =>
      if s.place t = .out ∧ s.running t = true ∧ (c = true ∨ P.aborts = true) then
        some ({ s.goto t (.endWant c) with
          running := Function.update s.running t false, completed := s.completed || c }, none)
      else none
  | .store t =>
      match s.place t with
      | .endLocked c =>
          some ({ s.goto t (.endStored c) with mem := if c then P.publish s.mem else s.mem }, none)
      | _ => none
  | .settle t =>
      match s.place t with
      | .endStored c =>
          some ({ s with
            mem := P.settle c s.mem, lock := none
            place := Function.update (fun u => (s.place u).wake) t .out }, none)
      | _ => none

/-- All interleavings; a label is the step and what it returns. -/
def Protocol.system (P : Protocol T M) : System (State T M) (Act T × Option Bool) where
  init s := s = { mem := P.start }
  step s a s' := exec P s a.1 = some (s', a.2)

end Machine

/-! ### the stages -/

/-- The abstract state: nobody runs the initializer, `w` runs it, `w` has ended it (`c` with a
completion, `b` its first store done), it is complete. -/
inductive Stage (T : Type*) where
  | idle
  | run (w : T)
  | ended (w : T) (c b : Bool)
  | complete

/-- What the memory tells. -/
inductive Word (T : Type*) where
  | fresh
  | busy (w : T)
  | published (w : T)
  | done

/-- The memory in a stage. -/
def Stage.word {T : Type*} : Stage T → Word T
  | .idle => .fresh
  | .run w => .busy w
  | .ended w c b => if c && b then .published w else .busy w
  | .complete => .done

/-- The memory of the protocol tells the stage; `same w t` allows the look of `t` to take the thread
`w` that runs the initializer for `t` itself. -/
structure Sound {T M : Type*} (P : Protocol T M) (R : Word T → M → Prop) (same : T → T → Prop) :
    Prop where
  start : R .fresh P.start
  fast {f x m} : P.fast = some f → f m = true → R x m → (∃ w, x = .published w) ∨ x = .done
  look_fresh {m} : R .fresh m → ∀ t, P.look t m = .win
  look_busy {m w} : R (.busy w) m → ∀ t, P.look t m = .sleep ∨ P.look t m = .leave ∧ same w t
  look_done {m} : R .done m → ∀ t, P.look t m = .leave
  mark {m} : R .fresh m → ∀ t, R (.busy t) (P.mark t m)
  publish {m w} : R (.busy w) m → R (.published w) (P.publish m)
  settle_published {m w} : R (.published w) m → R .done (P.settle true m)
  settle_busy {m w} : P.aborts = true → R (.busy w) m → R .fresh (P.settle false m)

variable {T M : Type*} {P : Protocol T M} {R : Word T → M → Prop} {same : T → T → Prop}

/-- A state of the machine in a stage. -/
structure Rel (P : Protocol T M) (R : Word T → M → Prop) (st : Stage T) (s : State T M) : Prop where
  mem : R st.word s.mem
  lock : ∀ t, s.lock = some t ↔ (s.place t).holds = true
  running : ∀ t, s.running t = true ↔ st = .run t
  ending : ∀ t c b, (s.place t).ending = some (c, b) ↔ st = .ended t c b
  completed : s.completed = true ↔ st = .complete ∨ ∃ w b, st = .ended w true b
  asleep : ∀ t, s.place t = .asleep → (∃ w, st = .run w) ∨ ∃ w c b, st = .ended w c b
  abort : ∀ w b, st = .ended w false b → P.aborts = true

/-- What a step returns: a win opens the stage of the winner; who leaves does so after a completion,
or is taken for the thread that runs or aborts the initializer. -/
def Returns (same : T → T → Prop) (st st' : Stage T) (t : T) : Option Bool → Prop
  | none => True
  | some true => st = .idle ∧ st' = .run t
  | some false => st = .complete ∨ (∃ w b, st = .ended w true b) ∨
      ∃ w, (st = .run w ∨ ∃ b, st = .ended w false b) ∧ same w t

/-! ### one step -/

section Steps

variable [DecidableEq T] {s s' : State T M} {st : Stage T} {t : T} {p : Place}

theorem lock_keep (h : ∀ u, s.lock = some u ↔ (s.place u).holds = true)
    (hp : p.holds = (s.place t).holds) (u : T) :
    s.lock = some u ↔ (Function.update s.place t p u).holds = true :=
  HeldBy.keep h hp u

theorem lock_take (h : ∀ u, s.lock = some u ↔ (s.place u).holds = true) (hfree : s.lock = none)
    (hp : p.holds = true) (u : T) :
    some t = some u ↔ (Function.update s.place t p u).holds = true := by
  rw [hfree] at h
  exact HeldBy.take h hp u

theorem lock_drop (h : ∀ u, s.lock = some u ↔ (s.place u).holds = true)
    (ht : (s.place t).holds = true) (hp : p.holds = false) (u : T) :
    none = some u ↔ (Function.update s.place t p u).holds = true :=
  HeldBy.drop h ht hp u

/-- A thread that moves without ending an initializer or leaving its end. -/
theorem Rel.move (h : Rel P R st s) {lk : Option T} (hend : p.ending = (s.place t).ending)
    (hlock : ∀ u, lk = some u ↔ (Function.update s.place t p u).holds = true)
    (hasleep : p = .asleep → (∃ w, st = .run w) ∨ ∃ w c b, st = .ended w c b) :
    Rel P R st { s.goto t p with lock := lk } where
  mem := h.mem
  lock := hlock
  running := h.running
  ending u c b := by
    rw [← h.ending u c b]
    show (Function.update s.place t p u).ending = _ ↔ _
    by_cases hu : u = t
    · rw [hu, Function.update_self, hend]
    · rw [Function.update_of_ne hu]
  completed := h.completed
  asleep u hu := by
    by_cases hut : u = t
    · subst hut
      exact hasleep (by simpa [State.goto] using hu)
    · exact h.asleep u (by simpa [State.goto, Function.update_of_ne hut] using hu)
  abort := h.abort

omit [DecidableEq T] in
/-- The thread that holds the lock at the top of the loop does not end an initializer, and nobody
has stored an end. -/
theorem Rel.locked (h : Rel P R st s) (ht : s.place t = .locked) {w : T} {c : Bool} :
    st ≠ .ended w c true := by
  intro hst
  have hend := (h.ending w c true).2 hst
  have hholds : (s.place w).holds = true := by
    revert hend
    cases s.place w <;> simp [Place.ending, Place.holds]
  have hlock := (h.lock w).2 hholds
  rw [(h.lock t).2 (by rw [ht]; rfl), Option.some.injEq] at hlock
  rw [← hlock, ht] at hend
  cases hend

theorem rel_call {r : Option Bool} (h : Rel P R st s)
    (he : exec P s (.call t) = some (s', r)) : Rel P R st s' ∧ r = none := by
  simp only [exec] at he
  split at he
  · rename_i ht
    cases he
    refine ⟨h.move ?_ (lock_keep h.lock ?_) ?_, rfl⟩
    · rw [ht]
      split <;> rfl
    · rw [ht]
      split <;> rfl
    · intro hp
      split at hp <;> cases hp
  · cases he

theorem rel_fast {r : Option Bool} (hsound : Sound P R same) (h : Rel P R st s)
    (he : exec P s (.fast t) = some (s', r)) :
    Rel P R st s' ∧
      (r = none ∨ r = some false ∧ (st = .complete ∨ ∃ w b, st = .ended w true b)) := by
  simp only [exec] at he
  split at he
  · cases he
  · rename_i f hf
    split at he
    · rename_i ht
      split at he
      · rename_i hm
        cases he
        refine ⟨h.move (by rw [ht]; rfl) (lock_keep h.lock (by rw [ht]; rfl)) (nofun),
          .inr ⟨rfl, ?_⟩⟩
        rcases hsound.fast hf hm h.mem with ⟨w, hw⟩ | hw
        · cases st with
          | ended w c b =>
              cases c with
              | true => exact .inr ⟨w, b, rfl⟩
              | false => cases hw
          | idle => cases hw
          | run => cases hw
          | complete => cases hw
        · cases st with
          | ended w c b =>
              simp only [Stage.word] at hw
              split at hw <;> cases hw
          | idle => cases hw
          | run => cases hw
          | complete => exact .inl rfl
      · cases he
        exact ⟨h.move (by rw [ht]; rfl) (lock_keep h.lock (by rw [ht]; rfl)) (nofun), .inl rfl⟩
    · cases he

/-- Taking the lock, a thread stays where it is in the end of an initializer. -/
theorem afterLock_spec {q : Place} (h : q.afterLock = some p) :
    p.holds = true ∧ p.ending = q.ending ∧ p ≠ .asleep := by
  cases q <;> simp only [Place.afterLock, Option.some.injEq, reduceCtorEq] at h <;> subst h <;>
    exact ⟨rfl, rfl, nofun⟩

theorem rel_lock {r : Option Bool} (h : Rel P R st s)
    (he : exec P s (.lock t) = some (s', r)) : Rel P R st s' ∧ r = none := by
  simp only [exec] at he
  split at he
  · rename_i p hlock hp
    cases he
    obtain ⟨hholds, hend, hasleep⟩ := afterLock_spec hp
    exact ⟨h.move hend (lock_take h.lock hlock hholds) fun heq => absurd heq hasleep, rfl⟩
  · cases he

theorem rel_wake {r : Option Bool} (h : Rel P R st s)
    (he : exec P s (.wake t) = some (s', r)) : Rel P R st s' ∧ r = none := by
  simp only [exec] at he
  split at he
  · rename_i ht
    cases he
    exact ⟨h.move (by rw [ht]; rfl) (lock_keep h.lock (by rw [ht]; rfl)) (nofun), rfl⟩
  · cases he

omit [DecidableEq T] in
/-- **The look under the lock** wins where nobody runs the initializer, leaves where it is complete,
and otherwise sleeps or takes the thread for the one that runs it. -/
theorem Rel.look (hsound : Sound P R same) (h : Rel P R st s) (ht : s.place t = .locked) :
    (st = .idle ∧ P.look t s.mem = .win) ∨ (st = .complete ∧ P.look t s.mem = .leave) ∨
      ∃ w, (st = .run w ∨ ∃ c, st = .ended w c false) ∧
        (P.look t s.mem = .sleep ∨ P.look t s.mem = .leave ∧ same w t) := by
  have hmem := h.mem
  cases st with
  | idle => exact .inl ⟨rfl, hsound.look_fresh hmem t⟩
  | complete => exact .inr (.inl ⟨rfl, hsound.look_done hmem t⟩)
  | run w => exact .inr (.inr ⟨w, .inl rfl, hsound.look_busy hmem t⟩)
  | ended w c b =>
      cases b with
      | true => exact absurd rfl (h.locked ht)
      | false =>
          have hbusy : R (.busy w) s.mem := by
            simpa only [Stage.word, Bool.and_false, Bool.false_eq_true, if_false] using hmem
          exact .inr (.inr ⟨w, .inr ⟨c, rfl⟩, hsound.look_busy hbusy t⟩)

theorem rel_loop {r : Option Bool} (hsound : Sound P R same) (h : Rel P R st s)
    (he : exec P s (.loop t) = some (s', r)) :
    ∃ st', Rel P R st' s' ∧ Returns same st st' t r := by
  simp only [exec] at he
  split at he
  · rename_i ht
    have hholds : (s.place t).holds = true := by rw [ht]; rfl
    rcases h.look hsound ht with ⟨rfl, hlook⟩ | ⟨rfl, hlook⟩ | ⟨w, hst, hlook | ⟨hlook, hsame⟩⟩
    · rw [hlook] at he
      cases he
      have hmoved := h.move (t := t) (p := .out) (by rw [ht]; rfl) (lock_drop h.lock hholds rfl) nofun
      refine ⟨.run t, ⟨hsound.mark h.mem t, hmoved.lock, fun u => ?_, fun u c b => ?_, ?_,
        fun u hu => .inl ⟨t, rfl⟩, nofun⟩, rfl, rfl⟩
      · show Function.update s.running t true u = true ↔ Stage.run t = Stage.run u
        by_cases hu : u = t
        · rw [hu, Function.update_self]
          exact ⟨fun _ => rfl, fun _ => rfl⟩
        · rw [Function.update_of_ne hu, h.running u]
          exact ⟨fun heq => (nomatch heq), fun heq => absurd (Stage.run.inj heq).symm hu⟩
      · rw [hmoved.ending u c b]
        exact ⟨fun heq => (nomatch heq), fun heq => (nomatch heq)⟩
      · rw [hmoved.completed]
        constructor
        · rintro (heq | ⟨w, b, heq⟩) <;> cases heq
        · rintro (heq | ⟨w, b, heq⟩) <;> cases heq
    · rw [hlook] at he
      cases he
      exact ⟨.complete, h.move (by rw [ht]; rfl) (lock_drop h.lock hholds rfl) nofun, .inl rfl⟩
    · rw [hlook] at he
      cases he
      refine ⟨st, h.move (by rw [ht]; rfl) (lock_drop h.lock hholds rfl) fun _ => ?_, trivial⟩
      rcases hst with rfl | ⟨c, rfl⟩
      · exact .inl ⟨w, rfl⟩
      · exact .inr ⟨w, c, false, rfl⟩
    · rw [hlook] at he
      cases he
      refine ⟨st, h.move (by rw [ht]; rfl) (lock_drop h.lock hholds rfl) nofun, ?_⟩
      rcases hst with rfl | ⟨c, rfl⟩
      · exact .inr (.inr ⟨w, .inl rfl, hsame⟩)
      · cases c with
        | true => exact .inr (.inl ⟨w, false, rfl⟩)
        | false => exact .inr (.inr ⟨w, .inr ⟨false, rfl⟩, hsame⟩)
  · cases he

/-- **The end of an initializer.** -/
theorem rel_finish {r : Option Bool} {c : Bool} (h : Rel P R st s)
    (he : exec P s (.finish t c) = some (s', r)) :
    st = .run t ∧ Rel P R (.ended t c false) s' ∧ r = none := by
  simp only [exec] at he
  split at he
  · rename_i hcond
    obtain ⟨ht, hrun, hc⟩ := hcond
    cases he
    obtain rfl := (h.running t).1 hrun
    refine ⟨rfl, ⟨?_, lock_keep h.lock (by rw [ht]; rfl), fun u => ?_, fun u d b => ?_, ?_,
      fun u hu => .inr ⟨t, c, false, rfl⟩, fun w b heq => ?_⟩, rfl⟩
    · have hmem := h.mem
      cases c <;> exact hmem
    · show Function.update s.running t false u = true ↔ _
      by_cases hu : u = t
      · rw [hu, Function.update_self]
        exact ⟨fun heq => (nomatch heq), fun heq => (nomatch heq)⟩
      · rw [Function.update_of_ne hu, h.running u]
        exact ⟨fun heq => absurd (Stage.run.inj heq).symm hu, fun heq => (nomatch heq)⟩
    · show (Function.update s.place t (.endWant c) u).ending = _ ↔ _
      by_cases hu : u = t
      · rw [hu, Function.update_self]
        constructor
        · intro heq
          cases heq
          rfl
        · intro heq
          cases heq
          rfl
      · rw [Function.update_of_ne hu, h.ending u d b]
        exact ⟨fun heq => (nomatch heq), fun heq => absurd (Stage.ended.inj heq).1.symm hu⟩
    · have hnot : s.completed = false := by
        by_contra hne
        rcases h.completed.1 (by simpa using hne) with heq | ⟨w, b, heq⟩ <;> cases heq
      show (s.completed || c) = true ↔ _
      rw [hnot, Bool.false_or]
      constructor
      · rintro rfl
        exact .inr ⟨t, false, rfl⟩
      · rintro (heq | ⟨w, b, heq⟩)
        · cases heq
        · cases heq
          rfl
    · cases heq
      exact hc.resolve_left nofun
  · cases he

/-- **The first store** of a completion. -/
theorem rel_store {r : Option Bool} (hsound : Sound P R same) (h : Rel P R st s)
    (he : exec P s (.store t) = some (s', r)) :
    ∃ c, st = .ended t c false ∧ Rel P R (.ended t c true) s' ∧ r = none := by
  simp only [exec] at he
  split at he
  · rename_i c ht
    cases he
    obtain rfl := (h.ending t c false).1 (by rw [ht]; rfl)
    refine ⟨c, rfl, ⟨?_, lock_keep h.lock (by rw [ht]; rfl), fun u => ?_, fun u d b => ?_, ?_,
      fun u hu => .inr ⟨t, c, true, rfl⟩, fun w b heq => ?_⟩, rfl⟩
    · have hmem := h.mem
      cases c with
      | true => exact hsound.publish hmem
      | false => exact hmem
    · show s.running u = true ↔ _
      rw [h.running u]
      exact ⟨fun heq => (nomatch heq), fun heq => (nomatch heq)⟩
    · show (Function.update s.place t (.endStored c) u).ending = _ ↔ _
      by_cases hu : u = t
      · rw [hu, Function.update_self]
        constructor
        · intro heq
          cases heq
          rfl
        · intro heq
          cases heq
          rfl
      · rw [Function.update_of_ne hu, h.ending u d b]
        exact ⟨fun heq => absurd (Stage.ended.inj heq).1.symm hu,
          fun heq => absurd (Stage.ended.inj heq).1.symm hu⟩
    · show s.completed = true ↔ _
      rw [h.completed]
      constructor
      · rintro (heq | ⟨w, b, heq⟩)
        · cases heq
        · cases heq
          exact .inr ⟨t, true, rfl⟩
      · rintro (heq | ⟨w, b, heq⟩)
        · cases heq
        · cases heq
          exact .inr ⟨t, false, rfl⟩
    · cases heq
      exact h.abort t false rfl
  · cases he

/-- **The broadcast** ends the stage: it is complete, or idle again, and nobody sleeps. -/
theorem rel_settle {r : Option Bool} (hsound : Sound P R same) (h : Rel P R st s)
    (he : exec P s (.settle t) = some (s', r)) :
    ∃ c, st = .ended t c true ∧ Rel P R (if c then .complete else .idle) s' ∧ r = none := by
  simp only [exec] at he
  split at he
  · rename_i c ht
    cases he
    obtain rfl := (h.ending t c true).1 (by rw [ht]; rfl)
    have hplace : ∀ u, (Function.update (fun u => (s.place u).wake) t .out u).ending = none ∧
        (Function.update (fun u => (s.place u).wake) t .out u).holds = false ∧
        Function.update (fun u => (s.place u).wake) t .out u ≠ .asleep := by
      intro u
      by_cases hu : u = t
      · rw [hu, Function.update_self]
        exact ⟨rfl, rfl, nofun⟩
      · rw [Function.update_of_ne hu]
        have hend : (s.place u).ending = none := by
          cases hcase : (s.place u).ending with
          | none => rfl
          | some q => exact absurd (Stage.ended.inj ((h.ending u q.1 q.2).1 hcase)).1.symm hu
        have hholds : (s.place u).holds = false := by
          by_contra hne
          have hlock := (h.lock u).2 (by simpa using hne)
          rw [(h.lock t).2 (by rw [ht]; rfl), Option.some.injEq] at hlock
          exact hu hlock.symm
        revert hend hholds
        cases s.place u <;> simp [Place.wake, Place.ending, Place.holds]
    have hrun : ∀ u, s.running u ≠ true := fun u hu => nomatch (h.running u).1 hu
    refine ⟨c, rfl, ⟨?_, fun u => ?_, fun u => ?_, fun u d b => ?_, ?_, fun u hu => ?_,
      fun w b heq => ?_⟩, rfl⟩
    · have hmem := h.mem
      cases c with
      | true => exact hsound.settle_published hmem
      | false => exact hsound.settle_busy (h.abort t true rfl) hmem
    · rw [(hplace u).2.1]
      exact ⟨fun heq => (nomatch heq), fun heq => (nomatch heq)⟩
    · refine ⟨fun heq => absurd heq (hrun u), fun heq => ?_⟩
      cases c <;> cases heq
    · rw [(hplace u).1]
      refine ⟨fun heq => (nomatch heq), fun heq => ?_⟩
      cases c <;> cases heq
    · show s.completed = true ↔ _
      rw [h.completed]
      cases c with
      | true => exact ⟨fun _ => .inl rfl, fun _ => .inr ⟨t, true, rfl⟩⟩
      | false =>
          constructor
          · rintro (heq | ⟨w, b, heq⟩) <;> cases heq
          · rintro (heq | ⟨w, b, heq⟩) <;> cases heq
    · exact absurd hu (hplace u).2.2
    · cases c <;> cases heq
  · cases he

/-- **Simulation.**  Every step of the machine is a step of the stages. -/
theorem rel_step (hsound : Sound P R same) {a : Act T} {r : Option Bool} (h : Rel P R st s)
    (he : exec P s a = some (s', r)) :
    ∃ st', Rel P R st' s' ∧ Returns same st st' a.thread r := by
  cases a with
  | call t =>
      obtain ⟨hrel, rfl⟩ := rel_call h he
      exact ⟨st, hrel, trivial⟩
  | fast t =>
      obtain ⟨hrel, rfl | ⟨rfl, hst⟩⟩ := rel_fast hsound h he
      · exact ⟨st, hrel, trivial⟩
      · exact ⟨st, hrel, hst.imp_right .inl⟩
  | lock t =>
      obtain ⟨hrel, rfl⟩ := rel_lock h he
      exact ⟨st, hrel, trivial⟩
  | loop t => exact rel_loop hsound h he
  | wake t =>
      obtain ⟨hrel, rfl⟩ := rel_wake h he
      exact ⟨st, hrel, trivial⟩
  | finish t c =>
      obtain ⟨-, hrel, rfl⟩ := rel_finish h he
      exact ⟨_, hrel, trivial⟩
  | store t =>
      obtain ⟨c, -, hrel, rfl⟩ := rel_store hsound h he
      exact ⟨_, hrel, trivial⟩
  | settle t =>
      obtain ⟨c, -, hrel, rfl⟩ := rel_settle hsound h he
      exact ⟨_, hrel, trivial⟩

theorem completed_step {a : Act T} {r : Option Bool} (he : exec P s a = some (s', r))
    (hc : s.completed = true) : s'.completed = true := by
  cases a <;> simp only [exec] at he <;> repeat' split at he
  all_goals first
    | cases he; exact hc
    | cases he; simp [hc]
    | cases he

/-! ### every run -/

theorem reachable_step {a : Act T} {r : Option Bool} (h : Reachable P.system s)
    (he : exec P s a = some (s', r)) : Reachable P.system s' := by
  have hstep : P.system.step s (a, r) s' := he
  exact .step h hstep

theorem wake_eq_entered {q : Place} : q.wake = .entered ↔ q = .entered := by
  cases q <;> simp [Place.wake]

/-- Only a protocol with a look without the lock puts a thread before it. -/
theorem entered_reachable (h : Reachable P.system s) (ht : s.place t = .entered) :
    P.fast.isSome = true := by
  induction h with
  | init hs =>
      have heq := show _ = State.mk P.start none (fun _ => false) false (fun _ => .out) from hs
      rw [heq] at ht
      cases ht
  | @step s a s' _ hstep ih =>
      by_contra hfast
      have hnot : s.place t ≠ .entered := fun h => hfast (ih h)
      have he : exec P s a.1 = some (s', a.2) := hstep
      have hmoved : ∀ (u : T) (p : Place), Function.update s.place u p t = .entered →
          p = .entered := by
        intro u p hp
        by_cases hu : t = u
        · rwa [hu, Function.update_self] at hp
        · rw [Function.update_of_ne hu] at hp
          exact absurd hp hnot
      obtain ⟨a, r⟩ := a
      cases a with
      | call u =>
          simp only [exec, if_neg hfast] at he
          split at he <;> cases he
          cases hmoved u _ ht
      | fast u =>
          simp only [exec] at he
          repeat' split at he
          all_goals first | (cases he; done) | (cases he; cases hmoved u _ ht)
      | lock u =>
          simp only [exec] at he
          split at he
          · rename_i p _ hp
            cases he
            obtain rfl := hmoved u p ht
            cases hplace : s.place u <;> rw [hplace] at hp <;> cases hp
          · cases he
      | loop u =>
          simp only [exec] at he
          repeat' split at he
          all_goals first | (cases he; done) | (cases he; cases hmoved u _ ht)
      | wake u =>
          simp only [exec] at he
          split at he <;> cases he
          cases hmoved u _ ht
      | finish u c =>
          simp only [exec] at he
          split at he <;> cases he
          cases hmoved u _ ht
      | store u =>
          simp only [exec] at he
          split at he <;> cases he
          cases hmoved u _ ht
      | settle u =>
          simp only [exec] at he
          split at he <;> cases he
          have hout : Function.update (fun u => (s.place u).wake) u .out t = .entered := ht
          by_cases hu : t = u
          · rw [hu, Function.update_self] at hout
            cases hout
          · rw [Function.update_of_ne hu] at hout
            exact hnot (wake_eq_entered.1 hout)

/-- **Every reachable state is in a stage.** -/
theorem rel_reachable (hsound : Sound P R same) (h : Reachable P.system s) :
    ∃ st, Rel P R st s := by
  induction h with
  | init hs =>
      have heq := show _ = State.mk P.start none (fun _ => false) false (fun _ => .out) from hs
      subst heq
      refine ⟨.idle, hsound.start, fun t => ⟨nofun, nofun⟩, fun t => ⟨nofun, nofun⟩,
        fun t c b => ⟨nofun, nofun⟩, ⟨nofun, ?_⟩, nofun, nofun⟩
      rintro (heq | ⟨w, b, heq⟩) <;> cases heq
  | step _ hstep ih =>
      obtain ⟨st, hrel⟩ := ih
      obtain ⟨st', hrel', -⟩ := rel_step hsound hrel hstep
      exact ⟨st', hrel'⟩

/-- **One initializer at a time.** -/
theorem exclusive (hsound : Sound P R same) (h : Reachable P.system s) {t u : T}
    (ht : s.running t = true) (hu : s.running u = true) : t = u := by
  obtain ⟨st, hrel⟩ := rel_reachable hsound h
  have hst := (hrel.running t).1 ht
  rw [(hrel.running u).1 hu] at hst
  exact (Stage.run.inj hst).symm

/-- **Never again.**  After a completion nobody runs an initializer or wins, and it stays so. -/
theorem once (hsound : Sound P R same) (h : Reachable P.system s) (hc : s.completed = true) :
    (∀ t, s.running t = false) ∧
      ∀ a r s', exec P s a = some (s', r) → s'.completed = true ∧ r ≠ some true := by
  obtain ⟨st, hrel⟩ := rel_reachable hsound h
  have hst := hrel.completed.1 hc
  constructor
  · intro t
    by_contra hne
    have hrun := (hrel.running t).1 (by simpa using hne)
    rcases hst with heq | ⟨w, b, heq⟩ <;> rw [heq] at hrun <;> cases hrun
  · intro a r s' he
    refine ⟨completed_step he hc, ?_⟩
    rintro rfl
    obtain ⟨st', -, hret⟩ := rel_step hsound hrel he
    rcases hst with heq | ⟨w, b, heq⟩ <;> rw [heq] at hret <;> cases hret.1

/-- **Who leaves** does so after a completion, or its look takes it for the thread that runs the
initializer or aborts it. -/
theorem leave_spec (hsound : Sound P R same) (h : Reachable P.system s) {a : Act T}
    (he : exec P s a = some (s', some false)) :
    s.completed = true ∨ ∃ w t, a = .loop t ∧
      (s.running w = true ∨ ∃ b, (s.place w).ending = some (false, b)) ∧ same w t := by
  obtain ⟨st, hrel⟩ := rel_reachable hsound h
  by_cases hloop : ∃ t, a = .loop t
  · obtain ⟨t, rfl⟩ := hloop
    obtain ⟨st', -, hst | hst | ⟨w, hst, hsame⟩⟩ := rel_loop hsound hrel he
    · exact .inl (hrel.completed.2 (.inl hst))
    · exact .inl (hrel.completed.2 (.inr hst))
    · refine .inr ⟨w, t, rfl, ?_, hsame⟩
      rcases hst with hst | ⟨b, hst⟩
      · exact .inl ((hrel.running w).2 hst)
      · exact .inr ⟨b, (hrel.ending w false b).2 hst⟩
  · -- only the look without the lock lets a call leave elsewhere
    cases a with
    | fast t =>
        obtain ⟨-, hret | ⟨-, hst⟩⟩ := rel_fast hsound hrel he
        · cases hret
        · exact .inl (hrel.completed.2 hst)
    | loop t => exact absurd ⟨t, rfl⟩ hloop
    | call t => cases (rel_call hrel he).2
    | lock t => cases (rel_lock hrel he).2
    | wake t => cases (rel_wake hrel he).2
    | finish t c => cases (rel_finish hrel he).2.2
    | store t =>
        obtain ⟨c, -, -, hret⟩ := rel_store hsound hrel he
        cases hret
    | settle t =>
        obtain ⟨c, -, -, hret⟩ := rel_settle hsound hrel he
        cases hret

theorem settle_completed (hsound : Sound P R same) (haborts : P.aborts = false)
    (h : Reachable P.system s) {r : Option Bool} (he : exec P s (.settle t) = some (s', r)) :
    s.completed = true := by
  obtain ⟨st, hrel⟩ := rel_reachable hsound h
  obtain ⟨c, hst, -, -⟩ := rel_settle hsound hrel he
  cases c with
  | true => exact hrel.completed.2 (.inr ⟨t, true, hst⟩)
  | false =>
      have hab := hrel.abort t true hst
      rw [haborts] at hab
      cases hab

/-- Nobody runs an initializer or ends one, and none was completed: the state before the first win,
and after an abort. -/
structure Idle (s : State T M) : Prop where
  running : ∀ t, s.running t = false
  ending : ∀ t, (s.place t).ending = none
  completed : s.completed = false

omit [DecidableEq T] in
theorem Rel.idle (h : Rel P R st s) (hidle : Idle s) : st = .idle := by
  cases hst : st with
  | idle => rfl
  | run w =>
      have hrun := (h.running w).2 hst
      rw [hidle.running w] at hrun
      cases hrun
  | ended w c b =>
      have hend := (h.ending w c b).2 hst
      rw [hidle.ending w] at hend
      cases hend
  | complete =>
      have hc := h.completed.2 (.inl hst)
      rw [hidle.completed] at hc
      cases hc

theorem idle_of_abort (hsound : Sound P R same) (h : Reachable P.system s) {t : T}
    {r : Option Bool} (hplace : s.place t = .endStored false)
    (he : exec P s (.settle t) = some (s', r)) : Idle s' := by
  obtain ⟨st, hrel⟩ := rel_reachable hsound h
  obtain ⟨c, hst, hrel', -⟩ := rel_settle hsound hrel he
  have hend := (hrel.ending t c true).2 hst
  rw [hplace] at hend
  cases hend
  refine ⟨fun u => ?_, fun u => ?_, ?_⟩
  · by_contra hne
    cases (hrel'.running u).1 (by simpa using hne)
  · cases hcase : (s'.place u).ending with
    | none => rfl
    | some q => cases (hrel'.ending u q.1 q.2).1 hcase
  · by_contra hne
    rcases hrel'.completed.1 (by simpa using hne) with heq | ⟨w, b, heq⟩ <;> cases heq

/-- **Nobody sleeps** unless a thread runs the initializer or ends it. -/
theorem awake (hsound : Sound P R same) (h : Reachable P.system s)
    (hrun : ∀ t, s.running t = false) (hend : ∀ t, (s.place t).ending = none) (t : T) :
    s.place t ≠ .asleep := by
  obtain ⟨st, hrel⟩ := rel_reachable hsound h
  intro ht
  rcases hrel.asleep t ht with ⟨w, heq⟩ | ⟨w, c, b, heq⟩
  · have hw := (hrel.running w).2 heq
    rw [hrun w] at hw
    cases hw
  · have hw := (hrel.ending w c b).2 heq
    rw [hend w] at hw
    cases hw

/-- **Any call can win while the state is idle**: who looks under the lock does. -/
theorem idle_wins (hsound : Sound P R same) (h : Reachable P.system s) (hidle : Idle s) {t : T}
    (ht : s.place t = .locked) :
    ∃ s', exec P s (.loop t) = some (s', some true) ∧ s'.running t = true := by
  obtain ⟨st, hrel⟩ := rel_reachable hsound h
  have hst := hrel.idle hidle
  subst hst
  have hlook := hsound.look_fresh hrel.mem t
  let won : State T M := { s.goto t .out with
    lock := none, mem := P.mark t s.mem, running := Function.update s.running t true }
  refine ⟨won, ?_, Function.update_self ..⟩
  simp only [exec]
  rw [if_pos ht, hlook]

/-- Some step leads from one state to the other. -/
def Next (P : Protocol T M) (s s' : State T M) : Prop := ∃ a r, exec P s a = some (s', r)

theorem Idle.goto (h : Idle s) (hp : p.ending = none) (lk : Option T) :
    Idle { s.goto t p with lock := lk } where
  running := h.running
  ending u := by
    show (Function.update s.place t p u).ending = none
    by_cases hu : u = t
    · rw [hu, Function.update_self, hp]
    · rw [Function.update_of_ne hu]
      exact h.ending u
  completed := h.completed

/-- From `want` or `woken`, with the lock free: take it, look, win. -/
theorem idle_reach_lock (hsound : Sound P R same) (h : Reachable P.system s) (hidle : Idle s)
    (hlock : s.lock = none) (ht : (s.place t).afterLock = some .locked) :
    ∃ s', Relation.ReflTransGen (Next P) s s' ∧ s'.running t = true := by
  have hstep : exec P s (.lock t) = some ({ s.goto t .locked with lock := some t }, none) := by
    simp only [exec]
    rw [hlock, ht]
  have hplace : (State.place { s.goto t .locked with lock := some t }) t = .locked :=
    Function.update_self ..
  obtain ⟨s', hwin, hrun⟩ := idle_wins hsound (reachable_step h hstep)
    (hidle.goto rfl (some t)) hplace
  exact ⟨s', .head ⟨_, _, hstep⟩ (.single ⟨_, _, hwin⟩), hrun⟩

/-- **Handover.**  While the state is idle and the lock is free, any thread, in a call or not, wins
by its own next steps. -/
theorem idle_reach (hsound : Sound P R same) (h : Reachable P.system s) (hidle : Idle s)
    (hlock : s.lock = none) (t : T) :
    ∃ s', Relation.ReflTransGen (Next P) s s' ∧ s'.running t = true := by
  obtain ⟨st, hrel⟩ := rel_reachable hsound h
  have hst := hrel.idle hidle
  subst hst
  have hfree : (s.place t).holds = false := by
    by_contra hne
    have hheld := (hrel.lock t).2 (by simpa using hne)
    rw [hlock] at hheld
    cases hheld
  have hend := hidle.ending t
  -- from `entered` the look without the lock sees no completion
  have hentered : ∀ s : State T M, Reachable P.system s → Idle s → s.lock = none →
      s.place t = .entered → P.fast.isSome = true →
      ∃ s', Relation.ReflTransGen (Next P) s s' ∧ s'.running t = true := by
    intro s h hidle hlock ht hfast
    obtain ⟨f, hf⟩ := Option.isSome_iff_exists.1 hfast
    obtain ⟨st, hrel⟩ := rel_reachable hsound h
    have hst := hrel.idle hidle
    subst hst
    have hno : f s.mem = false := by
      by_contra hne
      rcases hsound.fast hf (by simpa using hne) hrel.mem with ⟨w, hw⟩ | hw <;> cases hw
    have hstep : exec P s (.fast t) = some (s.goto t .want, none) := by
      simp only [exec]
      rw [hf]
      simp only [ht, hno, if_true, Bool.false_eq_true, if_false]
    have hwant : (State.place (s.goto t .want) t).afterLock = some .locked := by
      show (Function.update s.place t .want t).afterLock = _
      rw [Function.update_self]
      rfl
    obtain ⟨s', hreach, hrun⟩ := idle_reach_lock hsound (reachable_step h hstep)
      (hidle.goto rfl s.lock) hlock hwant
    exact ⟨s', .head ⟨_, _, hstep⟩ hreach, hrun⟩
  cases ht : s.place t with
  | out =>
      have hstep : exec P s (.call t) =
          some (s.goto t (if P.fast.isSome then .entered else .want), none) := by
        simp only [exec]
        rw [if_pos ht]
      have hplace : (State.place (s.goto t (if P.fast.isSome then .entered else .want)) t) =
          if P.fast.isSome then .entered else .want := Function.update_self ..
      have hreach := reachable_step h hstep
      by_cases hfast : P.fast.isSome = true
      · rw [if_pos hfast] at hstep hplace hreach
        obtain ⟨s', hrest, hrun⟩ := hentered _ hreach (hidle.goto rfl s.lock) hlock hplace hfast
        exact ⟨s', .head ⟨_, _, hstep⟩ hrest, hrun⟩
      · rw [if_neg hfast] at hstep hplace hreach
        obtain ⟨s', hrest, hrun⟩ := idle_reach_lock hsound hreach (hidle.goto rfl s.lock) hlock
          (by rw [hplace]; rfl)
        exact ⟨s', .head ⟨_, _, hstep⟩ hrest, hrun⟩
  | entered => exact hentered s h hidle hlock ht (entered_reachable h ht)
  | want => exact idle_reach_lock hsound h hidle hlock (by rw [ht]; rfl)
  | woken => exact idle_reach_lock hsound h hidle hlock (by rw [ht]; rfl)
  | asleep => exact absurd ht (awake hsound h hidle.running hidle.ending t)
  | locked =>
      rw [ht] at hfree
      cases hfree
  | endWant c =>
      rw [ht] at hend
      cases hend
  | endLocked c =>
      rw [ht] at hend
      cases hend
  | endStored c =>
      rw [ht] at hend
      cases hend

/-- The state after a list of steps. -/
def acts (P : Protocol T M) (s : State T M) : List (Act T) → Option (State T M)
  | [] => some s
  | a :: as => (exec P s a).bind fun r => acts P r.1 as

theorem reachable_acts (as : List (Act T)) (h : Reachable P.system s)
    (hs : acts P s as = some s') : Reachable P.system s' := by
  induction as generalizing s with
  | nil =>
      cases hs
      exact h
  | cons a as ih =>
      obtain ⟨⟨s₁, r⟩, ha, has⟩ := Option.bind_eq_some_iff.1 hs
      exact ih (reachable_step h ha) has

end Steps

end PS4Recomp.Library.OneTime
