import PS4Recomp.Runtime.FiberLookupSafe
import PS4Recomp.Runtime.FiberSafe
import PS4Recomp.Runtime.FiberThreadsInv

/-!
# The two modes of fibers, as look-ups see them

* `coroutineMode`, `threadMode` — the fibers of `Runtime.Fiber` and of `Runtime.FiberThreads` with the
  look-ups of `Runtime.FiberLookup`;
* `coroutine_lawful`, `thread_lawful` — in both, under their conditions, a fiber that was taken by a
  finalizer is current on no worker;
* **`lookup_safe`** — look-ups read nothing that was freed;
* `lookup_unclaimed` — a fiber that another thread has finalized while `pthread_create` failed in its switch
  runs on, and is freed while it is current.
-/

namespace PS4Recomp.Runtime.FiberEndpoints

open Library.Transition FiberLookup
open Runtime.Fiber (Endpoint)

variable {T : Type*} [DecidableEq T]

/-- The fibers as coroutines. -/
def coroutineMode (T : Type*) [DecidableEq T] : Mode (Fiber.State T) (Fiber.Act T) T where
  start := {}
  exec := Fiber.exec
  threads := false
  current s w := (s.worker w).current
  hostStarted _ _ := false
  thread
    | .fiberInitialize t _ _ | .run t _ _ _ _ | .switch t _ _ _ _ | .returnToThread t _ | .finalize t _
    | .next t _ => some t
  getsWorker s
    | .next t true =>
        match s.place t with
        | .prepare a k => k.self.isNone && !k.refused (s.obj a)
        | _ => false
    | _ => false
  atGuest s t := s.place t = .guest
  takes s
    | .next t _ =>
        match s.place t with
        | .finTake a => if (s.obj a).state = .idle then (s.obj a).host else none
        | _ => none
    | _ => none
  frees s
    | .next t _ =>
        match s.place t with
        | .finFree a => (s.obj a).host
        | _ => none
    | _ => none

/-- The fibers with host threads of their own. -/
def threadMode (T : Type*) [DecidableEq T] : Mode (FiberThreads.State T) (FiberThreads.Act T) T where
  start := {}
  exec := FiberThreads.exec
  threads := true
  current s := s.current
  hostStarted s h := (s.fiber h).hostStarted
  thread
    | .run t _ | .fiberInitialize (.thread t) | .finalize (.thread t) _ | .next (.thread t) _ => some t
    | _ => none
  getsWorker s
    | .next (.thread t) true =>
        match s.place (.thread t) with
        | .prepare _ => true
        | _ => false
    | _ => false
  atGuest s t := s.place (.thread t) = .guest
  takes s
    | .next e _ =>
        match s.place e with
        | .finTake a => if (s.fiber a).state = .idle then some a else none
        | _ => none
    | _ => none
  frees s
    | .next e _ =>
        match s.place e with
        | .finFree a => some a
        | .killed =>
            match e with
            | .thread _ => none
            | .fiber g => some g
        | _ => none
    | _ => none

section Threads

open FiberThreads

variable {home : ℕ → Home T} {s s' : FiberThreads.State T}

/-- A fiber that was finalized. -/
def Finalized (s : FiberThreads.State T) (h : ℕ) : Prop := (s.fiber h).state = .finalized

omit [DecidableEq T] in
theorem store_state (s : FiberThreads.State T) (a h : ℕ) (x : Fiber.FiberState) :
    ((s.store a x).fiber h).state = if h = a then x else (s.fiber h).state := by
  show (Function.update s.fiber a _ h).state = _
  split
  · rename_i heq
    rw [heq, Function.update_self]
  · rename_i hne
    rw [Function.update_of_ne hne]

omit [DecidableEq T] in
theorem setFiber_state (s : FiberThreads.State T) {a : ℕ} {f : FiberThreads.Fiber T}
    (hf : f.state = (s.fiber a).state) (h : ℕ) : ((s.setFiber a f).fiber h).state = (s.fiber h).state := by
  show (Function.update s.fiber a f h).state = _
  by_cases heq : h = a
  · rw [heq, Function.update_self]
    exact hf
  · rw [Function.update_of_ne heq]

/-- A step other than that of a finalizer that takes its fiber finalizes nothing. -/
theorem finalized_same (hinv : FiberThreads.Inv home s) {e : Endpoint T} {ok : Bool}
    (hok : Unclaimed s (.next e ok)) (hs : next s e ok = some s') (hne : ∀ a, s.place e ≠ .finTake a) (h : ℕ) :
    Finalized s' h ↔ Finalized s h := by
  have hsame : (s'.fiber h).state = (s.fiber h).state → (Finalized s' h ↔ Finalized s h) := by
    intro heq
    rw [Finalized, Finalized, heq]
  have hstore : ∀ {a x}, (s'.fiber h).state = ((s.store a x).fiber h).state → x ≠ .finalized →
      (s.fiber a).state ≠ .finalized → (Finalized s' h ↔ Finalized s h) := by
    intro a x heq hx ha
    rw [Finalized, Finalized, heq, store_state]
    by_cases hha : h = a
    · rw [if_pos hha, hha]
      exact iff_of_false hx ha
    · rw [if_neg hha]
  have hclaimed : ∀ a, (s.place e).view.claims = some a → (s.fiber a).state ≠ .finalized := by
    intro a ha hf
    have hfits := hinv.fits a
    rw [hinv.claims e a ha] at hfits
    rw [hfits.1] at hf
    cases hf
  have hrunning : ∀ g, e = .fiber g → (s.place e).view.inside = true → (s.fiber g).state ≠ .finalized := by
    rintro g rfl hin hf
    obtain ⟨w, hw⟩ := hinv.inside g hin
    have hfits := hinv.fits g
    rw [hw] at hfits
    rw [hfits.1] at hf
    cases hf
  cases hp : s.place e with
  | unborn | guest | gone =>
      simp only [next, hp] at hs
      cases hs
  | valid a | finValid a =>
      simp only [next, hp] at hs
      split at hs
      · cases hs
        exact hsame rfl
      · cases hs
        exact hsame rfl
  | take a =>
      simp only [next, hp] at hs
      split at hs
      · rename_i hstate
        cases hs
        refine hstore rfl (by simp) ?_
        rw [hstate]
        simp
      · cases hs
        exact hsame rfl
  | prepare a =>
      simp only [next, hp] at hs
      split at hs
      · unfold handOver at hs
        split at hs
        · cases hs
          exact hsame rfl
        · obtain ⟨w, -, rfl⟩ := Option.map_eq_some_iff.1 hs
          exact hsame rfl
      · cases hs
        exact hsame rfl
  | giveBack a =>
      simp only [next, hp] at hs
      cases hs
      exact hstore rfl (by simp) (hclaimed a (by rw [hp]; rfl))
  | leaveCurrent a w =>
      simp only [next, hp] at hs
      cases hs
      exact hsame rfl
  | leaveIdle a w | backIdle w =>
      simp only [next, hp] at hs
      split at hs
      · cases hs
      · rename_i g
        cases hs
        exact hstore rfl (by simp) (hrunning g rfl (by rw [hp]; rfl))
  | resume a w | started a w | post a w | finPost a | finClear a =>
      simp only [next, hp] at hs
      cases hs
      exact hsame (setFiber_state s (by rfl) h)
  | create a w =>
      simp only [next, hp] at hs
      split at hs
      · cases hs
        exact hsame rfl
      · split at hs
        · cases hs
          exact hsame rfl
        · cases hs
          exact hsame rfl
  | failed a w =>
      simp only [next, hp] at hs
      split at hs
      · cases hs
        exact hsame rfl
      · cases hs
        exact hsame rfl
  | showSelf a w | hideSelf a w | backCurrent w =>
      simp only [next, hp] at hs
      split at hs
      · cases hs
      · cases hs
        exact hsame rfl
  | claimSelf a w =>
      cases e with
      | thread t =>
          simp only [next, hp] at hs
          cases hs
      | fiber g =>
          have hstate : (s.fiber g).state = .idle := by
            simp only [Unclaimed, hp] at hok
            exact hok
          simp only [next, hp, if_pos hstate] at hs
          cases hs
          refine hstore rfl (by simp) ?_
          rw [hstate]
          simp
  | wait =>
      simp only [next, hp] at hs
      unfold batonWait at hs
      split at hs
      · split at hs
        · cases hs
          exact hsame rfl
        · cases hs
      · split at hs
        · cases hs
          exact hsame (setFiber_state s (by rfl) h)
        · cases hs
  | woken =>
      simp only [next, hp] at hs
      split at hs
      · cases hs
      · split at hs
        · cases hs
          exact hsame rfl
        · cases hs
          exact hsame rfl
  | killed | backPost w | finFree a =>
      simp only [next, hp] at hs
      cases hs
      exact hsame rfl
  | finKill a =>
      simp only [next, hp] at hs
      split at hs
      · cases hs
        exact hsame (setFiber_state s (by rfl) h)
      · cases hs
        exact hsame rfl
  | finTake a => exact absurd hp (hne a)

theorem finalized_next (hinv : FiberThreads.Inv home s) {e : Endpoint T} {ok : Bool}
    (hok : Unclaimed s (.next e ok)) (hs : next s e ok = some s') (h : ℕ) :
    Finalized s' h ↔ Finalized s h ∨ (threadMode T).takes s (.next e ok) = some h := by
  by_cases hne : ∀ a, s.place e ≠ .finTake a
  · rw [finalized_same hinv hok hs hne]
    simp only [threadMode]
    exact ⟨.inl, fun hf => hf.resolve_right (by simp)⟩
  · obtain ⟨a, hp⟩ := not_forall_not.1 hne
    simp only [next, hp] at hs
    simp only [threadMode, hp]
    split at hs
    · rename_i hstate
      rw [if_pos hstate]
      cases hs
      show ((s.store a .finalized).fiber h).state = .finalized ↔ _
      rw [store_state]
      by_cases hha : h = a
      · rw [if_pos hha, hha]
        exact ⟨fun _ => .inr rfl, fun _ => rfl⟩
      · rw [if_neg hha]
        exact ⟨.inl, fun hf => hf.resolve_right fun heq => hha (Option.some.inj heq).symm⟩
    · rename_i hstate
      rw [if_neg hstate]
      cases hs
      exact ⟨.inl, fun hf => hf.resolve_right (by simp)⟩

theorem finalized_exec (hinv : FiberThreads.Inv home s) {act : Act T} (hok : Unclaimed s act)
    (hs : FiberThreads.exec s act = some s') (h : ℕ) :
    Finalized s' h ↔ Finalized s h ∨ (threadMode T).takes s act = some h := by
  have hsame : (threadMode T).takes s act = none → (s'.fiber h).state = (s.fiber h).state →
      (Finalized s' h ↔ Finalized s h ∨ (threadMode T).takes s act = some h) := by
    intro hnone heq
    rw [hnone, Finalized, Finalized, heq]
    exact ⟨.inl, fun hf => hf.resolve_right nofun⟩
  cases act with
  | next e ok => exact finalized_next hinv hok hs h
  | fiberInitialize e =>
      simp only [FiberThreads.exec] at hs
      split at hs
      · cases hs
        refine hsame rfl (setFiber_state s ?_ h)
        have hfits := hinv.fits s.nextFiber
        rw [hinv.fresh s.nextFiber le_rfl] at hfits
        exact hfits.2.2.2.2.symm
      · cases hs
  | run t a | switch g a | finalize e a =>
      simp only [FiberThreads.exec] at hs
      split at hs
      · cases hs
        exact hsame rfl rfl
      · cases hs
  | returnToThread g =>
      simp only [FiberThreads.exec] at hs
      split at hs
      · obtain ⟨w, -, rfl⟩ := Option.map_eq_some_iff.1 hs
        exact hsame rfl rfl
      · cases hs

/-- The invariant of the threads holds in every run that leaves switching fibers unclaimed. -/
theorem thread_inv {s : FiberThreads.State T}
    (h : Reachable ((threadMode T).system.restrict Unclaimed) s) : ∃ home, FiberThreads.Inv home s := by
  refine Reachable.invariant (P := fun s => ∃ home, FiberThreads.Inv home s) (fun s hs => ?_)
    (fun s act s' _ hi (hstep : Unclaimed s act ∧ FiberThreads.exec s act = some s') => ?_) h
  · rw [show s = {} from hs]
    have hview : ∀ e : Endpoint T, (({} : FiberThreads.State T).place e).view.claims = none ∧
        (({} : FiberThreads.State T).place e).view.finals = none ∧
        (({} : FiberThreads.State T).place e).view.names = none := by
      intro e
      cases e with
      | thread t => exact ⟨rfl, rfl, rfl⟩
      | fiber g => exact ⟨rfl, rfl, rfl⟩
    refine ⟨fun _ => .unused, ⟨fun _ => ⟨rfl, rfl, rfl, rfl, rfl⟩, fun _ _ => rfl, fun e a ha => ?_, nofun,
      fun e a ha => ?_, fun e a ha => ?_, nofun, nofun, nofun, nofun, fun e a w ha => ?_, fun e a b ha => ?_,
      fun _ _ => ⟨.inl rfl, rfl⟩, nofun, nofun, nofun, fun e a ha => ?_, nofun, nofun, nofun⟩⟩
    · rw [(hview e).1] at ha
      cases ha
    · rw [(hview e).2.1] at ha
      cases ha
    · rw [(hview e).2.2] at ha
      cases ha
    · rw [(hview e).1] at ha
      cases ha
    · rw [(hview e).1, (hview e).2.1] at ha
      rcases ha with ha | ha
      · cases ha
      · cases ha
    · cases e with
      | thread t => cases ha
      | fiber g => cases ha
  · obtain ⟨home, hinv⟩ := hi
    exact hinv.exec hstep.1 hstep.2

/-- In the thread mode a fiber that was finalized is current on no worker. -/
theorem thread_lawful : Lawful (threadMode T) Unclaimed Finalized where
  not_current s h w hr ht hcur := by
    obtain ⟨home, hinv⟩ := thread_inv hr
    have hfits := hinv.fits h
    rcases hinv.current w h hcur with hrun | ⟨e, he, -⟩
    · rw [hrun] at hfits
      rw [Finalized, hfits.1] at ht
      cases ht
    · rw [he] at hfits
      rw [Finalized, hfits.1] at ht
      cases ht
  taken_of_frees s a h hr hfrees := by
    obtain ⟨home, hinv⟩ := thread_inv hr
    have hfinal : ∀ b e, home b = .finalizing e → Finalized s b := by
      intro b e hb
      have hfits := hinv.fits b
      rw [hb] at hfits
      exact hfits
    cases a with
    | next e ok =>
        simp only [threadMode] at hfrees
        split at hfrees
        · rename_i b hp
          cases hfrees
          exact hfinal h e (hinv.finals e h (by rw [hp]; rfl))
        · rename_i hp
          split at hfrees
          · cases hfrees
          · cases hfrees
            obtain ⟨e, he⟩ := hinv.killing h (hinv.killed h hp)
            exact hfinal h e he
        · cases hfrees
    | _ => cases hfrees
  takes s a s' h hr hok hs htakes := by
    obtain ⟨home, hinv⟩ := thread_inv hr
    refine ⟨fun ht => ?_, (finalized_exec hinv hok hs h).2 (.inr htakes)⟩
    cases a with
    | next e ok =>
        simp only [threadMode] at htakes
        split at htakes
        · split at htakes
          · rename_i hstate
            cases htakes
            rw [Finalized, hstate] at ht
            cases ht
          · cases htakes
        · cases htakes
    | _ => cases htakes
  stays s a s' h hr hok hs ht := by
    obtain ⟨home, hinv⟩ := thread_inv hr
    exact (finalized_exec hinv hok hs h).2 (.inl ht)
  taken s a s' h hr hok hs ht := by
    obtain ⟨home, hinv⟩ := thread_inv hr
    exact (finalized_exec hinv hok hs h).1 ht

end Threads

section Coroutines

open Fiber

variable {home : ℕ → Home T} {s s' s₁ : Fiber.State T} {t : T} {a y : ℕ} {p q : Place T}

omit [DecidableEq T] in
/-- A fiber that a finalizer has taken, or freed. -/
def Taken (s : Fiber.State T) (y : ℕ) : Prop :=
  (s.host y).freed = true ∨ ∃ t a, s.place t = .finFree a ∧ (s.obj a).host = some y

omit [DecidableEq T] in
theorem store_host (s : Fiber.State T) (b : ℕ) (x : FiberState) (a : ℕ) :
    ((s.store b x).obj a).host = (s.obj a).host := by
  show (Function.update s.obj b _ a).host = _
  by_cases ha : a = b
  · rw [ha, Function.update_self]
  · rw [Function.update_of_ne ha]

omit [DecidableEq T] in
theorem setHost_freed (s : Fiber.State T) {z : ℕ} {x : FiberHost T} (hx : x.freed = (s.host z).freed) (y : ℕ) :
    ((s.setHost z x).host y).freed = (s.host y).freed := by
  show (Function.update s.host z x y).freed = _
  by_cases hy : y = z
  · rw [hy, Function.update_self]
    exact hx
  · rw [Function.update_of_ne hy]

theorem taken_goto (hplace : s₁.place = s.place) (hq : ∀ b, s.place t ≠ .finFree b) (hp : ∀ b, p ≠ .finFree b)
    (hfreed : ∀ y, (s₁.host y).freed = (s.host y).freed)
    (hobj : ∀ u b, s.place u = .finFree b → (s₁.obj b).host = (s.obj b).host) :
    Taken (s₁.goto t p) y ↔ Taken s y := by
  have hother : ∀ u b, (s₁.goto t p).place u = .finFree b ↔ s.place u = .finFree b := by
    intro u b
    show Function.update s₁.place t p u = .finFree b ↔ _
    by_cases hut : u = t
    · rw [hut, Function.update_self]
      exact ⟨fun h => absurd h (hp b), fun h => absurd h (hq b)⟩
    · rw [Function.update_of_ne hut, hplace]
  constructor
  · rintro (hf | ⟨u, b, hu, hb⟩)
    · exact .inl ((hfreed y).symm.trans hf)
    · have hu' := (hother u b).1 hu
      exact .inr ⟨u, b, hu', (hobj u b hu').symm.trans hb⟩
  · rintro (hf | ⟨u, b, hu, hb⟩)
    · exact .inl ((hfreed y).trans hf)
    · exact .inr ⟨u, b, (hother u b).2 hu, (hobj u b hu).trans hb⟩

/-- What was taken is the host side of a fiber that was made. -/
def Made (s : Fiber.State T) : Prop := ∀ y, Taken s y → y < s.nextHost

/-- A step outside `finTake` and `finFree` takes nothing and frees nothing. -/
theorem taken_same (hinv : Inv home s) (hmade : Made s) {ok : Bool} (hs : next s t ok = some s')
    (hne : ∀ a, s.place t ≠ .finTake a) (hnf : ∀ a, s.place t ≠ .finFree a) (y : ℕ) : Taken s' y ↔ Taken s y := by
  have hstay : ∀ p, (∀ b, p ≠ .finFree b) → (Taken (s.goto t p) y ↔ Taken s y) :=
    fun p hp => taken_goto rfl hnf hp (fun _ => rfl) fun _ _ _ => rfl
  have hstore : ∀ a x p, (∀ b, p ≠ .finFree b) → (Taken ((s.store a x).goto t p) y ↔ Taken s y) :=
    fun a x p hp => taken_goto rfl hnf hp (fun _ => rfl) fun _ _ _ => store_host ..
  have hloc := hinv.places t
  cases hp : s.place t with
  | guest =>
      simp only [next, hp] at hs
      cases hs
  | valid a k | finValid a =>
      simp only [next, hp] at hs
      split at hs
      · cases hs
        exact hstay _ (by simp)
      · cases hs
        exact hstay _ (by simp)
  | take a k =>
      simp only [next, hp] at hs
      split at hs
      · cases hs
        exact hstore _ _ _ (by simp)
      · cases hs
      · cases hs
        exact hstay _ (by simp)
      · cases hs
        exact hstay _ (by simp)
  | prepare a k =>
      simp only [next, hp] at hs
      have hattach : ∀ b, ((s.setObj a { s.obj a with addrContext := true }).obj b).host = (s.obj b).host := by
        intro b
        show (Function.update s.obj a _ b).host = _
        by_cases hb : b = a
        · rw [hb, Function.update_self]
        · rw [Function.update_of_ne hb]
      unfold prepare at hs
      split at hs
      · cases hs
        exact hstay _ (by simp)
      · split at hs
        · obtain ⟨z, hz, rfl⟩ := Option.map_eq_some_iff.1 hs
          unfold State.launch
          split
          · exact taken_goto rfl hnf (by simp) (fun x => setHost_freed _ (by rfl) x) fun _ b _ => hattach b
          · exact taken_goto rfl hnf (by simp) (fun x => setHost_freed _ (by rfl) x) fun _ b _ => hattach b
        · cases hs
          exact (taken_goto rfl hnf (by simp) (fun _ => rfl) (fun _ b _ => hattach b))
  | giveBack a | finishIdle a | initIdle a | backSuspend g w =>
      simp only [next, hp] at hs
      cases hs
      exact hstore _ _ _ (by simp)
  | suspend a z k =>
      simp only [next, hp] at hs
      split at hs
      · cases hs
      · split at hs
        · cases hs
        · cases hs
          exact hstore _ _ _ (by simp)
  | enter a z k w release =>
      simp only [next, hp] at hs
      cases hs
      exact (taken_goto rfl hnf (by simp) (fun x => setHost_freed _ (by rfl) x) (fun _ _ _ => rfl))
  | current a z k w | jump a z k | backCurrent g w | backRelease g w | backJump g w =>
      simp only [next, hp] at hs
      cases hs
      exact hstay _ (by simp)
  | finish =>
      simp only [next, hp] at hs
      split at hs
      · split at hs
        · cases hs
          exact hstay _ (by simp)
        · cases hs
          exact (taken_goto rfl hnf (by simp) (fun x => setHost_freed _ (by rfl) x) (fun _ _ _ => rfl))
      · split at hs
        · cases hs
          exact hstay _ (by simp)
        · cases hs
          exact hstay _ (by simp)
  | deliver =>
      simp only [next, hp] at hs
      split at hs
      · cases hs
        exact hstay _ (by simp)
      · cases hs
        exact hstay _ (by simp)
  | finClear a =>
      have howned : home a = .owned t .finalizing := by
        rw [hp] at hloc
        exact hloc
      simp only [next, hp] at hs
      cases hs
      refine (taken_goto rfl hnf (by simp) (fun _ => rfl) (fun u b hu => ?_))
      have hlocu := hinv.places u
      rw [hu] at hlocu
      have hba : b ≠ a := by
        rintro rfl
        have hu' : home b = .owned u .finalizing := hlocu
        rw [howned] at hu'
        cases hu'
        rw [hp] at hu
        cases hu
      show (Function.update s.obj a _ b).host = _
      rw [Function.update_of_ne hba]
  | initWrite a context =>
      have hfree : home a = .unused ∨ home a = .dead ∨ home a = .idle := by
        rw [hp] at hloc
        exact hloc
      have hnew : (s.host s.nextHost).freed = false := by
        cases hf : (s.host s.nextHost).freed with
        | false => rfl
        | true => exact absurd (hmade _ (.inl hf)) (Nat.lt_irrefl _)
      simp only [next, hp] at hs
      cases hs
      refine (taken_goto rfl hnf (by simp) (fun x => setHost_freed _ hnew.symm x) (fun u b hu => ?_))
      have hlocu := hinv.places u
      rw [hu] at hlocu
      have hu' : home b = .owned u .finalizing := hlocu
      have hba : b ≠ a := by
        rintro rfl
        rw [hu'] at hfree
        rcases hfree with heq | heq | heq
        · cases heq
        · cases heq
        · cases heq
      show (Function.update s.obj a _ b).host = _
      rw [Function.update_of_ne hba]
  | finTake a => exact absurd hp (hne a)
  | finFree a => exact absurd hp (hnf a)

theorem taken_next (hinv : Inv home s) (hmade : Made s) {ok : Bool} (hs : next s t ok = some s') (y : ℕ) :
    (Taken s' y ↔ Taken s y ∨ (coroutineMode T).takes s (.next t ok) = some y) := by
  by_cases hne : ∀ a, s.place t ≠ .finTake a
  · suffices hsame : Taken s' y ↔ Taken s y by
      rw [hsame]
      simp only [coroutineMode]
      exact ⟨.inl, fun hf => hf.resolve_right (by simp)⟩
    by_cases hnf : ∀ a, s.place t ≠ .finFree a
    · exact taken_same hinv hmade hs hne hnf y
    · obtain ⟨a, hp⟩ := not_forall_not.1 hnf
      simp only [next, hp] at hs
      split at hs
      · cases hs
      · rename_i z hz
        cases hs
        have hplace : ((s.setHost z { s.host z with freed := true }).goto t (.finClear a)).place t = .finClear a :=
          Function.update_self ..
        have hother : ∀ u, u ≠ t →
            ((s.setHost z { s.host z with freed := true }).goto t (.finClear a)).place u = s.place u :=
          fun u hu => Function.update_of_ne hu ..
        have hfreed : ∀ x, (Function.update s.host z { s.host z with freed := true } x).freed = true ↔
            (s.host x).freed = true ∨ x = z := by
          intro x
          by_cases hx : x = z
          · rw [hx, Function.update_self]
            exact ⟨fun _ => .inr rfl, fun _ => rfl⟩
          · rw [Function.update_of_ne hx]
            exact ⟨.inl, fun hf => hf.resolve_right hx⟩
        constructor
        · rintro (hf | ⟨u, b, hu, hb⟩)
          · rcases (hfreed y).1 hf with hold | rfl
            · exact .inl hold
            · exact .inr ⟨t, a, hp, hz⟩
          · have hut : u ≠ t := by
              rintro rfl
              rw [hplace] at hu
              cases hu
            exact .inr ⟨u, b, (hother u hut).symm.trans hu, hb⟩
        · rintro (hf | ⟨u, b, hu, hb⟩)
          · exact .inl ((hfreed y).2 (.inl hf))
          · by_cases hut : u = t
            · rw [hut, hp] at hu
              cases hu
              rw [hz] at hb
              cases hb
              exact .inl ((hfreed y).2 (.inr rfl))
            · exact .inr ⟨u, b, (hother u hut).trans hu, hb⟩
  · obtain ⟨a, hp⟩ := not_forall_not.1 hne
    have hnf : ∀ b, s.place t ≠ .finFree b := by
      rw [hp]
      simp
    simp only [next, hp] at hs
    simp only [coroutineMode, hp]
    split at hs
    · rename_i hstate
      rw [if_pos hstate]
      cases hs
      have hplace : ((s.store a .finalized).goto t (.finFree a)).place t = .finFree a := Function.update_self ..
      have hother : ∀ u, u ≠ t → ((s.store a .finalized).goto t (.finFree a)).place u = s.place u :=
        fun u hu => Function.update_of_ne hu ..
      constructor
      · rintro (hf | ⟨u, b, hu, hb⟩)
        · exact .inl (.inl hf)
        · have hb' : (s.obj b).host = some y := (store_host ..).symm.trans hb
          by_cases hut : u = t
          · rw [hut, hplace] at hu
            cases hu
            exact .inr hb'
          · rw [hother u hut] at hu
            exact .inl (.inr ⟨u, b, hu, hb'⟩)
      · rintro ((hf | ⟨u, b, hu, hb⟩) | hy)
        · exact .inl hf
        · have hut : u ≠ t := by
            rintro rfl
            exact hnf b hu
          exact .inr ⟨u, b, (hother u hut).trans hu, (store_host ..).trans hb⟩
        · exact .inr ⟨t, a, hplace, (store_host ..).trans hy⟩
    · cases hs
    · rename_i hstate
      rw [if_neg (by rw [hstate]; simp)]
      cases hs
      have heq : Taken (s.goto t .guest) y ↔ Taken s y :=
        taken_goto rfl hnf (by simp) (fun _ => rfl) (fun _ _ _ => rfl)
      rw [heq]
      exact ⟨.inl, fun hf => hf.resolve_right (by simp)⟩
    · rename_i hstate
      rw [if_neg (by rw [hstate]; simp)]
      cases hs
      have heq : Taken (s.goto t .guest) y ↔ Taken s y :=
        taken_goto rfl hnf (by simp) (fun _ => rfl) (fun _ _ _ => rfl)
      rw [heq]
      exact ⟨.inl, fun hf => hf.resolve_right (by simp)⟩

theorem nextHost_le {ok : Bool} (hs : next s t ok = some s') : s.nextHost ≤ s'.nextHost := by
  cases hp : s.place t with
  | guest =>
      simp only [next, hp] at hs
      cases hs
  | prepare a k =>
      simp only [next, hp] at hs
      unfold prepare at hs
      split at hs
      · cases hs
        exact le_rfl
      · split at hs
        · obtain ⟨z, -, rfl⟩ := Option.map_eq_some_iff.1 hs
          unfold State.launch
          split
          · exact le_rfl
          · exact le_rfl
        · cases hs
          exact le_rfl
  | suspend a z k =>
      simp only [next, hp] at hs
      split at hs
      · cases hs
      · split at hs
        · cases hs
        · cases hs
          exact le_rfl
  | finish =>
      simp only [next, hp] at hs
      split at hs
      · split at hs
        · cases hs
          exact le_rfl
        · cases hs
          exact le_rfl
      · split at hs
        · cases hs
          exact le_rfl
        · cases hs
          exact le_rfl
  | initWrite a context =>
      simp only [next, hp] at hs
      cases hs
      exact Nat.le_succ _
  | take a k | finTake a =>
      simp only [next, hp] at hs
      split at hs
      · cases hs
        exact le_rfl
      · cases hs
      · cases hs
        exact le_rfl
      · cases hs
        exact le_rfl
  | valid a k | finValid a | deliver =>
      simp only [next, hp] at hs
      split at hs
      · cases hs
        exact le_rfl
      · cases hs
        exact le_rfl
  | finFree a =>
      simp only [next, hp] at hs
      split at hs
      · cases hs
      · cases hs
        exact le_rfl
  | _ =>
      simp only [next, hp] at hs
      cases hs
      exact le_rfl

theorem taken_exec (hinv : Inv home s) (hmade : Made s) {act : Act T} (hs : Fiber.exec s act = some s') :
    (∀ y, Taken s' y ↔ Taken s y ∨ (coroutineMode T).takes s act = some y) ∧ s.nextHost ≤ s'.nextHost := by
  have hcall : ∀ {s₁ : Fiber.State T} {u : T} {r : Place T}, s₁.place = s.place → s₁.host = s.host →
      s₁.obj = s.obj → s.place u = .guest → (∀ b, r ≠ .finFree b) →
      ∀ y, Taken (s₁.goto u r) y ↔ Taken s y ∨ none = some y := by
    intro s₁ u r hplace hhost hobj hu hr y
    have heq : Taken (s₁.goto u r) y ↔ Taken s y :=
      taken_goto hplace (by rw [hu]; simp) hr (fun _ => by rw [hhost]) (fun _ _ _ => by rw [hobj])
    rw [heq]
    exact ⟨.inl, fun hf => hf.resolve_right (by simp)⟩
  have hnothing : ∀ y, Taken s y ↔ Taken s y ∨ none = some y := by
    intro y
    exact ⟨.inl, fun hf => hf.resolve_right (by simp)⟩
  cases act with
  | next u ok => exact ⟨taken_next hinv hmade hs, nextHost_le hs⟩
  | fiberInitialize u a context | finalize u a =>
      simp only [Fiber.exec] at hs
      split at hs
      · rename_i hu
        split at hs
        · cases hs
          exact ⟨hnothing, le_rfl⟩
        · cases hs
          exact ⟨hcall rfl rfl rfl hu (by simp), le_rfl⟩
      · cases hs
  | run u a arg attach contextOk | switch u a arg attach contextOk =>
      simp only [Fiber.exec] at hs
      split at hs
      · rename_i hu
        split at hs
        · cases hs
          exact ⟨hnothing, le_rfl⟩
        · split at hs
          · cases hs
            exact ⟨hnothing, le_rfl⟩
          · cases hs
            exact ⟨hcall rfl rfl rfl hu (by simp), le_rfl⟩
      · cases hs
  | returnToThread u arg =>
      simp only [Fiber.exec] at hs
      split at hs
      · rename_i hu
        split at hs
        · cases hs
          exact ⟨hnothing, le_rfl⟩
        · split at hs
          · cases hs
          · cases hs
            exact ⟨hcall rfl rfl rfl hu (by simp), le_rfl⟩
      · cases hs

/-- The invariants of the coroutines, with what was taken. -/
theorem coroutine_inv {s : Fiber.State T} (h : Reachable ((coroutineMode T).system.restrict Alone) s) :
    (∃ home, Inv home s) ∧ Made s := by
  refine Reachable.invariant (P := fun s => (∃ home, Inv home s) ∧ Made s) (fun s hs => ?_)
    (fun s act s' hr hi (hstep : Alone s act ∧ Fiber.exec s act = some s') => ?_) h
  · refine ⟨(inv_reachable (.init hs)).1, ?_⟩
    rw [show s = {} from hs]
    rintro y (hf | ⟨t, a, ht, -⟩)
    · cases hf
    · cases ht
  · obtain ⟨⟨home, hinv⟩, hmade⟩ := hi
    obtain ⟨htaken, hle⟩ := taken_exec hinv hmade hstep.2
    refine ⟨hinv.exec hstep.1 hstep.2, fun y hy => lt_of_lt_of_le ?_ hle⟩
    rcases (htaken y).1 hy with hold | htakes
    · exact hmade y hold
    · cases act with
      | next t ok =>
          simp only [coroutineMode] at htakes
          split at htakes
          · split at htakes
            · exact hinv.objs.hostNext _ y htakes
            · cases htakes
          · cases htakes
      | _ => cases htakes

theorem Taken.not_live (hinv : Inv home s) (h : Taken s y) : ¬Live s y := by
  rintro ⟨-, hfreed, hstate⟩
  rcases h with hf | ⟨t, a, hp, ha⟩
  · rw [hfreed] at hf
    cases hf
  · have hloc := hinv.places t
    rw [hp] at hloc
    have hhome : home a = .owned t .finalizing := hloc
    have hfits := hinv.objs.fits a
    rw [hhome] at hfits
    rw [hinv.objs.hostAddr a y ha, hfits.2.1] at hstate
    rcases hstate with hstate | hstate
    · cases hstate
    · cases hstate

/-- In the coroutine mode a fiber that was taken is current on no worker. -/
theorem coroutine_lawful : Lawful (coroutineMode T) Alone Taken where
  not_current s y w hr ht hcur := by
    obtain ⟨⟨home, hinv⟩, -⟩ := coroutine_inv hr
    exact ht.not_live hinv (hinv.live_of_current hcur)
  taken_of_frees s a y hr hfrees := by
    cases a with
    | next t ok =>
        simp only [coroutineMode] at hfrees
        split at hfrees
        · rename_i b hp
          exact .inr ⟨t, b, hp, hfrees⟩
        · cases hfrees
    | _ => cases hfrees
  takes s a s' y hr hok hs htakes := by
    obtain ⟨⟨home, hinv⟩, hmade⟩ := coroutine_inv hr
    refine ⟨fun ht => ?_, ((taken_exec hinv hmade hs).1 y).2 (.inr htakes)⟩
    cases a with
    | next t ok =>
        simp only [coroutineMode] at htakes
        split at htakes
        · rename_i b hp
          split at htakes
          · rename_i hstate
            have hfinal : ∃ u, home b = .owned u .finalizing := by
              rcases ht with hf | ⟨u, c, hu, hc⟩
              · exact hinv.objs.freed b y htakes hf
              · have hloc := hinv.places u
                rw [hu] at hloc
                have hbc : b = c := (hinv.objs.hostAddr b y htakes).symm.trans (hinv.objs.hostAddr c y hc)
                rw [hbc]
                exact ⟨u, hloc⟩
            obtain ⟨u, hu⟩ := hfinal
            have hfits := hinv.objs.fits b
            rw [hu] at hfits
            rw [hfits.2.1] at hstate
            cases hstate
          · cases htakes
        · cases htakes
    | _ => cases htakes
  stays s a s' y hr hok hs ht := by
    obtain ⟨⟨home, hinv⟩, hmade⟩ := coroutine_inv hr
    exact ((taken_exec hinv hmade hs).1 y).2 (.inl ht)
  taken s a s' y hr hok hs ht := by
    obtain ⟨⟨home, hinv⟩, hmade⟩ := coroutine_inv hr
    exact ((taken_exec hinv hmade hs).1 y).1 ht

end Coroutines

variable {L : Type*} [DecidableEq L]

/-- **Safe lookup of fiber endpoints.**  In every run — of the coroutine mode, where fibers are initialized
alone, and of the thread mode, where a fiber whose switch failed was not claimed meanwhile — no look-up reads a
worker or a fiber that was freed, and none is freed while a look-up runs that could have found it. -/
theorem lookup_safe :
    (∀ s : FiberLookup.State (Fiber.State T) T L,
      Reachable ((lookupSystem (coroutineMode T) L).restrict (FibersOk Fiber.Alone)) s →
        Safe (coroutineMode T) s) ∧
    ∀ s : FiberLookup.State (FiberThreads.State T) T L,
      Reachable ((lookupSystem (threadMode T) L).restrict (FibersOk FiberThreads.Unclaimed)) s →
        Safe (threadMode T) s :=
  ⟨fun _ h => safe_of_lawful coroutine_lawful h, fun _ h => safe_of_lawful thread_lawful h⟩

/-- A thread runs a new fiber, and a look-up of its context goes all the way. -/
def foundRun : List (FiberLookup.Act (Fiber.Act Bool) Bool Unit) :=
  [.base (.fiberInitialize false 8 true), .base (.next false true), .base (.next false true),
    .base (.run false 8 1 false true), .base (.next false true), .base (.next false true),
    .getWorker (.next false true), .worker false, .worker false, .worker false, .worker false, .worker false,
    .base (.next false true), .base (.next false true), .base (.next false true),
    .lookup () (.fiber 0), .read (), .read (), .read (), .read (), .read (), .read ()]

theorem lookup_safe_foundRun :
    ∃ s : FiberLookup.State (Fiber.State Bool) Bool Unit,
      execAll (guarded (FibersOk Fiber.Alone) (FiberLookup.exec (coroutineMode Bool)))
        { base := (coroutineMode Bool).start } foundRun = some s ∧
      s.look () = .leave (some (.thread false)) ∧ Safe (coroutineMode Bool) s := by
  have hlast : (execAll (guarded (FibersOk Fiber.Alone) (FiberLookup.exec (coroutineMode Bool)))
      ({ base := (coroutineMode Bool).start } : FiberLookup.State (Fiber.State Bool) Bool Unit) foundRun).map
      (fun s => s.look ()) = some (.leave (some (.thread false))) := by decide
  obtain ⟨s, hs, hlook⟩ := Option.map_eq_some_iff.1 hlast
  have hreach : Reachable ((lookupSystem (coroutineMode Bool) Unit).restrict (FibersOk Fiber.Alone)) s :=
    Reachable.guarded (fun _ _ _ hstep => hstep) foundRun (.init rfl) hs
  exact ⟨s, hs, hlook, lookup_safe.1 s hreach⟩

/-- The host thread of a worker, the finalizing thread and the host thread of the fiber run their next cuts. -/
def cuts (e : Endpoint Bool) (n : ℕ) : List (FiberLookup.Act (FiberThreads.Act Bool) Bool Unit) :=
  List.replicate n (.base (.next e true))

/-- A fiber runs and switches to another, whose host thread cannot be made; before it claims itself again it is
finalized.  It returns to its thread nevertheless, is run again, and only then its finalizer kills it. -/
def unclaimedRun : List (FiberLookup.Act (FiberThreads.Act Bool) Bool Unit) :=
  [.base (.fiberInitialize (.thread true)), .base (.fiberInitialize (.thread true)), .base (.run false 0)] ++
    cuts (.thread false) 2 ++
    [.getWorker (.next (.thread false) true), .worker false, .worker false, .worker false, .worker false,
      .worker false] ++
    cuts (.thread false) 5 ++ cuts (.fiber 0) 2 ++ [.base (.switch 0 1)] ++ cuts (.fiber 0) 6 ++
    [.base (.next (.fiber 0) false)] ++ cuts (.fiber 0) 1 ++
    [.base (.finalize (.thread true) 0)] ++ cuts (.thread true) 2 ++ cuts (.fiber 0) 3 ++
    [.base (.returnToThread 0)] ++ cuts (.fiber 0) 3 ++ cuts (.thread false) 1 ++
    [.base (.run false 0)] ++ cuts (.thread false) 6 ++ cuts (.thread true) 2 ++ cuts (.fiber 0) 2 ++
    [.quiesce (.next (.fiber 0) true), .lookup () (.fiber 0), .read (), .read (), .read ()] ++
    cuts (.fiber 0) 1 ++ [.read ()]

/-- A look-up reads a fiber that its own host thread has freed. -/
theorem lookup_unclaimed :
    ∃ s : FiberLookup.State (FiberThreads.State Bool) Bool Unit,
      Reachable (lookupSystem (threadMode Bool) Unit) s ∧ (s.look ()).reads = some (.fiber 0) ∧
      s.freed (.fiber 0) = true ∧ ¬Safe (threadMode Bool) s := by
  have hlast : (execAll (FiberLookup.exec (threadMode Bool))
      ({ base := (threadMode Bool).start } : FiberLookup.State (FiberThreads.State Bool) Bool Unit)
      unclaimedRun).map (fun s => ((s.look ()).reads, s.freed (.fiber 0))) = some (some (.fiber 0), true) := by
    decide
  obtain ⟨s, hs, hpair⟩ := Option.map_eq_some_iff.1 hlast
  have hreach : Reachable (lookupSystem (threadMode Bool) Unit) s :=
    Reachable.execAll (fun _ _ _ hstep => hstep) unclaimedRun (.init rfl) hs
  obtain ⟨hreads, hfreed⟩ := Prod.mk.inj hpair
  refine ⟨s, hreach, hreads, hfreed, fun hsafe => ?_⟩
  rw [hsafe.1 () (.fiber 0) hreads] at hfreed
  cases hfreed

end PS4Recomp.Runtime.FiberEndpoints
