import PS4Recomp.Runtime.FiberInv

/-!
# Fibers as coroutines: one thread for a fiber, and what it is resumed with

* `Logs` — of the arguments of the runs and switches that resumed a fiber all were delivered, but for one
  while a thread arrives on its stack; the same for what the runs return;
* `inv_reachable` — both invariants hold in every run whose initializations are alone;
* **`fiber_exclusive`** — in such a run one thread executes a fiber, an idle one has no thread on its stack
  and is not current, and every resumption and every run gets its own argument;
* `fiber_reinitialized` — a second initialization of a fiber that runs puts two threads on one stack.
-/

namespace PS4Recomp.Runtime.Fiber

open Library.Transition

variable {T : Type*}

/-- The thread has switched stacks and is in `co_finish_switch`. -/
def Place.arrives : Place T → Bool
  | .finish | .finishIdle _ | .deliver => true
  | _ => false

/-- The fiber has called `sceFiberReturnToThread`. -/
def Place.goesBack : Place T → Bool
  | .backCurrent _ _ | .backSuspend _ _ | .backRelease _ _ | .backJump _ _ => true
  | _ => false

/-- What a thread on the stack of a fiber will deliver to it. -/
def State.onWay (s : State T) (t : T) (h : ℕ) : List (BitVec 64) :=
  if (s.place t).arrives = true then [(s.host h).inArg] else []

/-- What the run that entered the fibers of a thread is about to return. -/
def State.owed (s : State T) (t : T) : List (BitVec 64) :=
  if (s.place t).goesBack = true ∨ (s.place t).arrives = true ∧ (s.stack t).fiber? = none then
    [(s.worker t).returnArg]
  else []

theorem State.onWay_length (s : State T) (t : T) (h : ℕ) : (s.onWay t h).length ≤ 1 := by
  unfold State.onWay
  split
  · exact le_rfl
  · exact Nat.zero_le 1

theorem State.owed_length (s : State T) (t : T) : (s.owed t).length ≤ 1 := by
  unfold State.owed
  split
  · exact le_rfl
  · exact Nat.zero_le 1

/-- What was passed, and what was received. -/
structure Logs (s : State T) : Prop where
  there : ∀ t h, s.stack t = .fiber h → s.resumed h = s.delivered h ++ s.onWay t h
  away : ∀ h, (∀ t, s.stack t ≠ .fiber h) → s.resumed h = s.delivered h
  threads : ∀ t, s.sent t = s.got t ++ s.owed t

section Steps

variable {home : ℕ → Home T} {s s' : State T} {t : T} {a : ℕ} {p q : Place T}

namespace Logs

theorem quiet (h : Logs s) (hresumed : s'.resumed = s.resumed) (hdelivered : s'.delivered = s.delivered)
    (hsent : s'.sent = s.sent) (hgot : s'.got = s.got) (hstack : s'.stack = s.stack)
    (harrives : ∀ u, (s'.place u).arrives = (s.place u).arrives)
    (hback : ∀ u, (s'.place u).goesBack = (s.place u).goesBack)
    (harg : ∀ u y, s.stack u = .fiber y → (s'.host y).inArg = (s.host y).inArg)
    (hret : ∀ u, s.owed u ≠ [] → (s'.worker u).returnArg = (s.worker u).returnArg) : Logs s' := by
  refine ⟨fun u y hu => ?_, fun y hy => ?_, fun u => ?_⟩
  · rw [hstack] at hu
    have hway : s'.onWay u y = s.onWay u y := by
      rw [State.onWay, State.onWay, harrives, harg u y hu]
    rw [hresumed, hdelivered, hway]
    exact h.there u y hu
  · rw [hresumed, hdelivered]
    refine h.away y fun u => ?_
    rw [← hstack]
    exact hy u
  · have howed : s'.owed u = s.owed u := by
      unfold State.owed at hret ⊢
      rw [harrives, hback, hstack]
      split
      · rename_i hret'
        rw [hret u]
        rw [if_pos hret']
        nofun
      · rfl
    rw [hsent, hgot, howed]
    exact h.threads u

variable [DecidableEq T]

theorem goto (h : Logs s) (hp : s.place t = q) (harrives : p.arrives = q.arrives)
    (hback : p.goesBack = q.goesBack) : Logs (s.goto t p) := by
  have hplace : ∀ u, ((s.goto t p).place u).arrives = (s.place u).arrives ∧
      ((s.goto t p).place u).goesBack = (s.place u).goesBack := by
    intro u
    by_cases hut : u = t
    · have hself : (s.goto t p).place u = p := by
        rw [hut]
        exact Function.update_self ..
      rw [hself, hut, hp]
      exact ⟨harrives, hback⟩
    · have hother : (s.goto t p).place u = s.place u := Function.update_of_ne hut ..
      rw [hother]
      exact ⟨rfl, rfl⟩
  exact h.quiet rfl rfl rfl rfl rfl (fun u => (hplace u).1) (fun u => (hplace u).2) (fun _ _ _ => rfl)
    fun _ _ => rfl

omit [DecidableEq T] in
theorem setObj (h : Logs s) (a : ℕ) (f : OrbisFiberObject) : Logs (s.setObj a f) :=
  h.quiet rfl rfl rfl rfl rfl (fun _ => rfl) (fun _ => rfl) (fun _ _ _ => rfl) fun _ _ => rfl

omit [DecidableEq T] in
/-- A host side changes, and the argument only where no thread is. -/
theorem setHost (h : Logs s) {y : ℕ} {x : FiberHost T}
    (harg : x.inArg = (s.host y).inArg ∨ ∀ u, s.stack u ≠ .fiber y) : Logs (s.setHost y x) := by
  refine h.quiet rfl rfl rfl rfl rfl (fun _ => rfl) (fun _ => rfl) (fun u z hu => ?_) fun _ _ => rfl
  show (Function.update s.host y x z).inArg = (s.host z).inArg
  by_cases hz : z = y
  · rw [hz, Function.update_self]
    rcases harg with hsame | hnone
    · exact hsame
    · rw [hz] at hu
      exact absurd hu (hnone u)
  · rw [Function.update_of_ne hz]

theorem setWorker (h : Logs s) {x : FiberWorker}
    (hret : x.returnArg = (s.worker t).returnArg ∨ s.owed t = []) : Logs (s.setWorker t x) := by
  refine h.quiet rfl rfl rfl rfl rfl (fun _ => rfl) (fun _ => rfl) (fun _ _ _ => rfl) fun u hu => ?_
  show (Function.update s.worker t x u).returnArg = (s.worker u).returnArg
  by_cases hut : u = t
  · rw [hut, Function.update_self]
    rcases hret with hsame | hnone
    · exact hsame
    · rw [hut] at hu
      exact absurd hnone hu
  · rw [Function.update_of_ne hut]

end Logs

theorem owed_eq_nil (hp : s.place t = q) (harrives : q.arrives = false) (hback : q.goesBack = false) :
    s.owed t = [] := by
  rw [State.owed, hp, harrives, hback, if_neg]
  rintro (hb | ⟨ha, -⟩)
  · cases hb
  · cases ha

theorem onWay_eq_nil (hp : s.place t = q) (harrives : q.arrives = false) (y : ℕ) : s.onWay t y = [] := by
  rw [State.onWay, hp, harrives, if_neg]
  nofun

theorem onWay_eq (hp : s.place t = q) (harrives : q.arrives = true) (y : ℕ) :
    s.onWay t y = [(s.host y).inArg] := by
  rw [State.onWay, hp, if_pos harrives]

theorem owed_eq (hp : s.place t = q)
    (hback : q.goesBack = true ∨ q.arrives = true ∧ (s.stack t).fiber? = none) :
    s.owed t = [(s.worker t).returnArg] := by
  rw [State.owed, hp, if_pos hback]

theorem owed_of_fiber (hp : s.place t = q) (hback : q.goesBack = false) {y : ℕ} (hst : s.stack t = .fiber y) :
    s.owed t = [] := by
  rw [State.owed, hp, hback, hst, if_neg]
  rintro (hb | ⟨-, hnone⟩)
  · cases hb
  · cases hnone

theorem Inv.stack_unique (h : Inv home s) {u : T} {y z : ℕ} (ht : s.stack t = .fiber y)
    (hu : s.stack u = .fiber z) (haddr : (s.host y).guestAddr = (s.host z).guestAddr) : t = u := by
  have hont := (h.grounds t).home y ht
  have honu := (h.grounds u).home z hu
  rw [haddr, honu] at hont
  exact (Home.owned.inj hont).1.symm

/-- No thread is on the stack of a fiber that is idle or claimed. -/
theorem Inv.no_stack (h : Inv home s) {y : ℕ} (hy : (s.obj a).host = some y)
    (ha : home a = .idle ∨ ∃ w, home a = .owned w .claimed) (u : T) : s.stack u ≠ .fiber y := by
  intro hu
  have hon := (h.grounds u).home y hu
  rw [h.objs.hostAddr a y hy] at hon
  rcases ha with ha | ⟨w, ha⟩
  · rw [ha] at hon
    cases hon
  · rw [ha] at hon
    split at hon
    · cases hon
    · cases hon

variable [DecidableEq T]

/-- A step of a thread that stays alone on the stacks it leaves and comes to. -/
theorem Logs.step (h : Logs s) (hinv : Inv home s) {e : Endpoint T}
    (hplace : s'.place = Function.update s.place t p) (hstack : s'.stack = Function.update s.stack t e)
    (hworker : ∀ u, u ≠ t → (s'.worker u).returnArg = (s.worker u).returnArg)
    (hargs : ∀ u y, u ≠ t → s.stack u = .fiber y → (s'.host y).inArg = (s.host y).inArg)
    (hcome : ∀ u y, u ≠ t → e = .fiber y → s.stack u ≠ .fiber y)
    (hlogs : ∀ y, s.stack t ≠ .fiber y → e ≠ .fiber y →
      s'.resumed y = s.resumed y ∧ s'.delivered y = s.delivered y)
    (hleft : ∀ y, s.stack t = .fiber y → e ≠ .fiber y → s'.resumed y = s'.delivered y)
    (hthere : ∀ y, e = .fiber y → s'.resumed y = s'.delivered y ++ s'.onWay t y)
    (hthreads : ∀ u, u ≠ t → s'.sent u = s.sent u ∧ s'.got u = s.got u)
    (hself : s'.sent t = s'.got t ++ s'.owed t) : Logs s' := by
  have hplaceOther : ∀ u, u ≠ t → s'.place u = s.place u := by
    intro u hu
    rw [hplace]
    exact Function.update_of_ne hu ..
  have hstackOther : ∀ u, u ≠ t → s'.stack u = s.stack u := by
    intro u hu
    rw [hstack]
    exact Function.update_of_ne hu ..
  have hstackSelf : s'.stack t = e := by
    rw [hstack]
    exact Function.update_self ..
  refine ⟨fun u y hu => ?_, fun y hy => ?_, fun u => ?_⟩
  · by_cases hut : u = t
    · rw [hut, hstackSelf] at hu
      rw [hut]
      exact hthere y hu
    · rw [hstackOther u hut] at hu
      have hto : s.stack t ≠ .fiber y := fun heq => hut (hinv.stack_unique hu heq rfl)
      have hte : e ≠ .fiber y := fun heq => hcome u y hut heq hu
      have hway : s'.onWay u y = s.onWay u y := by
        rw [State.onWay, State.onWay, hplaceOther u hut, hargs u y hut hu]
      rw [(hlogs y hto hte).1, (hlogs y hto hte).2, hway]
      exact h.there u y hu
  · have hte : e ≠ .fiber y := by
      rw [← hstackSelf]
      exact hy t
    by_cases hto : s.stack t = .fiber y
    · exact hleft y hto hte
    · rw [(hlogs y hto hte).1, (hlogs y hto hte).2]
      refine h.away y fun u => ?_
      by_cases hut : u = t
      · rw [hut]
        exact hto
      · rw [← hstackOther u hut]
        exact hy u
  · by_cases hut : u = t
    · rw [hut]
      exact hself
    · have howed : s'.owed u = s.owed u := by
        rw [State.owed, State.owed, hplaceOther u hut, hstackOther u hut, hworker u hut]
      rw [(hthreads u hut).1, (hthreads u hut).2, howed]
      exact h.threads u

theorem Logs.prepare (h : Logs s) {k : Call} {ok : Bool} (hp : s.place t = .prepare a k)
    (hs : prepare s t a k ok = some s') : Logs s' := by
  unfold Fiber.prepare at hs
  split at hs
  · cases hs
    exact h.goto hp rfl rfl
  · split at hs
    · obtain ⟨y, hy, rfl⟩ := Option.map_eq_some_iff.1 hs
      have hequip : Logs (s.equip a y) := (h.setObj a _).setHost (.inl rfl)
      unfold State.launch
      split
      · have hnone : (s.equip a y).owed t = [] := owed_eq_nil hp rfl rfl
        exact (hequip.setWorker (.inr hnone)).goto hp rfl rfl
      · exact hequip.goto hp rfl rfl
    · cases hs
      exact (h.setObj a _).goto hp rfl rfl

theorem Logs.jump (h : Logs s) (hinv : Inv home s) {y : ℕ} {k : Call} (hp : s.place t = .jump a y k)
    (hs : s' = { s with
      stack := Function.update s.stack t (.fiber y)
      resumed := Function.update s.resumed y (s.resumed y ++ [k.arg]) }.goto t .finish) : Logs s' := by
  have hloc := hinv.places t
  rw [hp] at hloc
  obtain ⟨hclaim, hy, -, -, -, harg⟩ := hloc
  have hnone := hinv.no_stack hy (.inr ⟨t, hclaim⟩)
  have hsettled : s.resumed y = s.delivered y := h.away y hnone
  have hplace : s'.place t = .finish := by
    rw [hs]
    exact Function.update_self ..
  have hstack : s'.stack t = .fiber y := by
    rw [hs]
    exact Function.update_self ..
  have hresumed : s'.resumed = Function.update s.resumed y (s.resumed y ++ [k.arg]) := by rw [hs]; rfl
  have hdelivered : s'.delivered = s.delivered := by rw [hs]; rfl
  have hhost : s'.host = s.host := by rw [hs]; rfl
  have hthreads := h.threads t
  rw [owed_eq_nil hp rfl rfl] at hthreads
  refine h.step hinv (t := t) (p := .finish) (e := .fiber y) (by rw [hs]; rfl) (by rw [hs]; rfl)
    (fun u _ => by rw [hs]; rfl) (fun u z _ _ => by rw [hhost]) (fun u z _ hz => ?_) (fun z _ hz => ?_)
    (fun z ht hz => ?_) (fun z hz => ?_) (fun u _ => by rw [hs]; exact ⟨rfl, rfl⟩) ?_
  · cases hz
    exact hnone u
  · have hzy : z ≠ y := fun heq => hz (by rw [heq])
    rw [hresumed, hdelivered]
    exact ⟨Function.update_of_ne hzy .., rfl⟩
  · have hzy : z ≠ y := fun heq => hz (by rw [heq])
    have hway := h.there t z ht
    rw [onWay_eq_nil hp rfl, List.append_nil] at hway
    rw [hresumed, hdelivered, Function.update_of_ne hzy]
    exact hway
  · cases hz
    rw [hresumed, hdelivered, Function.update_self, hsettled, onWay_eq hplace rfl, hhost, harg]
  · rw [owed_of_fiber hplace rfl hstack, hs]
    exact hthreads

theorem Logs.backJump (h : Logs s) (hinv : Inv home s) {g : ℕ} {w : T} (hp : s.place t = .backJump g w)
    (hs : s' = { s with stack := Function.update s.stack t (.thread w) }.goto t .finish) : Logs s' := by
  have hplace : s'.place t = .finish := by
    rw [hs]
    exact Function.update_self ..
  have hstack : s'.stack t = .thread w := by
    rw [hs]
    exact Function.update_self ..
  have hthreads := h.threads t
  rw [owed_eq hp (.inl rfl)] at hthreads
  refine h.step hinv (t := t) (p := .finish) (e := .thread w) (by rw [hs]; rfl) (by rw [hs]; rfl)
    (fun u _ => by rw [hs]; rfl) (fun u z _ _ => by rw [hs]; rfl) (fun u z _ hz => ?_)
    (fun z _ _ => by rw [hs]; exact ⟨rfl, rfl⟩) (fun z ht _ => ?_) (fun z hz => ?_)
    (fun u _ => by rw [hs]; exact ⟨rfl, rfl⟩) ?_
  · cases hz
  · have hway := h.there t z ht
    rw [onWay_eq_nil hp rfl, List.append_nil] at hway
    rw [hs]
    exact hway
  · cases hz
  · have hnone : (s'.stack t).fiber? = none := by
      rw [hstack]
      rfl
    rw [owed_eq hplace (.inr ⟨rfl, hnone⟩), hs]
    exact hthreads

theorem Logs.deliverFiber (h : Logs s) (hinv : Inv home s) {y : ℕ} (hp : s.place t = .deliver)
    (hst : s.stack t = .fiber y)
    (hs : s' = { s with
      delivered := Function.update s.delivered y (s.delivered y ++ [(s.host y).inArg]) }.goto t .guest) :
    Logs s' := by
  have hplace : s'.place t = .guest := by
    rw [hs]
    exact Function.update_self ..
  have hdelivered : s'.delivered = Function.update s.delivered y (s.delivered y ++ [(s.host y).inArg]) := by
    rw [hs]
    rfl
  have hresumed : s'.resumed = s.resumed := by rw [hs]; rfl
  have hstack : s'.stack = Function.update s.stack t (.fiber y) := by
    rw [← hst, Function.update_eq_self, hs]
    rfl
  have hthreads := h.threads t
  rw [owed_of_fiber hp rfl hst] at hthreads
  have hway := h.there t y hst
  rw [onWay_eq hp rfl] at hway
  refine h.step hinv (t := t) (p := .guest) (e := .fiber y) (by rw [hs]; rfl) hstack
    (fun u _ => by rw [hs]; rfl) (fun u z _ _ => by rw [hs]; rfl) (fun u z hut hz hu => ?_)
    (fun z _ hz => ?_) (fun z ht hz => ?_) (fun z hz => ?_) (fun u _ => by rw [hs]; exact ⟨rfl, rfl⟩) ?_
  · cases hz
    exact hut (hinv.stack_unique hu hst rfl)
  · have hzy : z ≠ y := fun heq => hz (by rw [heq])
    rw [hresumed, hdelivered]
    exact ⟨rfl, Function.update_of_ne hzy ..⟩
  · rw [hst] at ht
    exact absurd ht hz
  · cases hz
    rw [hresumed, hdelivered, Function.update_self, onWay_eq_nil hplace rfl, List.append_nil]
    exact hway
  · rw [owed_eq_nil hplace rfl rfl, hs]
    exact hthreads

theorem Logs.deliverThread (h : Logs s) (hinv : Inv home s) {w : T} (hp : s.place t = .deliver)
    (hst : s.stack t = .thread w)
    (hs : s' = { s with got := Function.update s.got t (s.got t ++ [(s.worker w).returnArg]) }.goto t .guest) :
    Logs s' := by
  obtain rfl : w = t := (hinv.grounds t).own w hst
  have hplace : s'.place w = .guest := by
    rw [hs]
    exact Function.update_self ..
  have hgot : s'.got = Function.update s.got w (s.got w ++ [(s.worker w).returnArg]) := by
    rw [hs]
    rfl
  have hsent : s'.sent = s.sent := by rw [hs]; rfl
  have hstack : s'.stack = Function.update s.stack w (.thread w) := by
    rw [← hst, Function.update_eq_self, hs]
    rfl
  have hnone : (s.stack w).fiber? = none := by
    rw [hst]
    rfl
  have hthreads := h.threads w
  rw [owed_eq hp (.inr ⟨rfl, hnone⟩)] at hthreads
  refine h.step hinv (t := w) (p := .guest) (e := .thread w) (by rw [hs]; rfl) hstack
    (fun u _ => by rw [hs]; rfl) (fun u z _ _ => by rw [hs]; rfl) (fun u z _ hz => ?_)
    (fun z _ _ => by rw [hs]; exact ⟨rfl, rfl⟩) (fun z ht _ => ?_) (fun z hz => ?_) (fun u hu => ?_) ?_
  · cases hz
  · rw [hst] at ht
    cases ht
  · cases hz
  · rw [hsent, hgot]
    exact ⟨rfl, Function.update_of_ne hu ..⟩
  · rw [hsent, hgot, Function.update_self, owed_eq_nil hplace rfl rfl, List.append_nil]
    exact hthreads

theorem Logs.goBack (h : Logs s) (hinv : Inv home s) {g : ℕ} {arg : BitVec 64} (hp : s.place t = .guest)
    (hs : s' = { s.setWorker t { s.worker t with returnArg := arg } with
      sent := Function.update s.sent t (s.sent t ++ [arg]) }.goto t (.backCurrent g t)) : Logs s' := by
  have hplace : s'.place t = .backCurrent g t := by
    rw [hs]
    exact Function.update_self ..
  have hworker : s'.worker = Function.update s.worker t { s.worker t with returnArg := arg } := by
    rw [hs]
    rfl
  have hsent : s'.sent = Function.update s.sent t (s.sent t ++ [arg]) := by rw [hs]; rfl
  have hgot : s'.got = s.got := by rw [hs]; rfl
  have hstack : s'.stack = Function.update s.stack t (s.stack t) := by
    rw [Function.update_eq_self, hs]
    rfl
  have hthreads := h.threads t
  rw [owed_eq_nil hp rfl rfl, List.append_nil] at hthreads
  refine h.step hinv (t := t) (p := .backCurrent g t) (e := s.stack t) (by rw [hs]; rfl) hstack
    (fun u hu => ?_) (fun u z _ _ => by rw [hs]; rfl) (fun u z hut hz hu => ?_)
    (fun z _ _ => by rw [hs]; exact ⟨rfl, rfl⟩) (fun z ht hz => absurd ht hz) (fun z hz => ?_)
    (fun u hu => ?_) ?_
  · rw [hworker, Function.update_of_ne hu]
  · exact hut (hinv.stack_unique hu hz rfl)
  · have hway := h.there t z hz
    rw [onWay_eq_nil hp rfl] at hway
    rw [onWay_eq_nil hplace rfl, hs]
    exact hway
  · rw [hsent, hgot]
    exact ⟨Function.update_of_ne hu .., rfl⟩
  · rw [hsent, hgot, Function.update_self, owed_eq hplace (.inl rfl), hworker, Function.update_self, hthreads]

theorem Logs.next (h : Logs s) (hinv : Inv home s) {ok : Bool} (hs : next s t ok = some s') : Logs s' := by
  have hloc := hinv.places t
  cases hp : s.place t with
  | guest =>
      simp only [Fiber.next, hp] at hs
      cases hs
  | valid a k | finValid a =>
      simp only [Fiber.next, hp] at hs
      split at hs
      · cases hs
        exact h.goto hp rfl rfl
      · cases hs
        exact h.goto hp rfl rfl
  | take a k | finTake a =>
      simp only [Fiber.next, hp] at hs
      split at hs
      · cases hs
        exact (h.setObj a _).goto hp rfl rfl
      · cases hs
      · cases hs
        exact h.goto hp rfl rfl
      · cases hs
        exact h.goto hp rfl rfl
  | prepare a k =>
      simp only [Fiber.next, hp] at hs
      exact h.prepare hp hs
  | giveBack a | finishIdle a | finClear a | initIdle a =>
      simp only [Fiber.next, hp] at hs
      cases hs
      exact (h.setObj a _).goto hp rfl rfl
  | suspend a y k =>
      simp only [Fiber.next, hp] at hs
      split at hs
      · cases hs
      · split at hs
        · cases hs
        · cases hs
          exact (h.setObj _ _).goto hp rfl rfl
  | enter a y k w release =>
      rw [hp] at hloc
      simp only [Fiber.next, hp] at hs
      cases hs
      exact (h.setHost (.inr (hinv.no_stack hloc.2.1 (.inr ⟨t, hloc.1⟩)))).goto hp rfl rfl
  | current a y k w =>
      simp only [Fiber.next, hp] at hs
      cases hs
      obtain ⟨hthere, haway, hthreads⟩ := h.setWorker (t := w) (x := { s.worker w with current := some y }) (.inl rfl)
      exact Logs.goto ⟨hthere, haway, hthreads⟩ hp rfl rfl
  | jump a y k =>
      simp only [Fiber.next, hp] at hs
      exact h.jump hinv hp (Option.some.inj hs).symm
  | finish =>
      simp only [Fiber.next, hp] at hs
      split at hs
      · split at hs
        · cases hs
          exact h.goto hp rfl rfl
        · cases hs
          exact (h.setHost (.inl (by rfl))).goto hp rfl rfl
      · split at hs
        · cases hs
          exact h.goto hp rfl rfl
        · cases hs
          exact (h.setWorker (.inl (by rfl))).goto hp rfl rfl
  | deliver =>
      simp only [Fiber.next, hp] at hs
      split at hs
      · rename_i y hst
        exact h.deliverFiber hinv hp hst (Option.some.inj hs).symm
      · rename_i u hst
        exact h.deliverThread hinv hp hst (Option.some.inj hs).symm
  | backCurrent g w =>
      simp only [Fiber.next, hp] at hs
      cases hs
      exact (h.setWorker (.inl (by rfl))).goto hp rfl rfl
  | backSuspend g w =>
      simp only [Fiber.next, hp] at hs
      cases hs
      exact (h.setObj _ _).goto hp rfl rfl
  | backRelease g w =>
      simp only [Fiber.next, hp] at hs
      cases hs
      obtain ⟨hthere, haway, hthreads⟩ := h.setWorker (t := w)
        (x := { s.worker w with release := some (s.host g).guestAddr }) (.inl rfl)
      exact Logs.goto ⟨hthere, haway, hthreads⟩ hp rfl rfl
  | backJump g w =>
      simp only [Fiber.next, hp] at hs
      exact h.backJump hinv hp (Option.some.inj hs).symm
  | finFree a =>
      simp only [Fiber.next, hp] at hs
      split at hs
      · cases hs
      · cases hs
        exact (h.setHost (.inl (by rfl))).goto hp rfl rfl
  | initWrite a context =>
      simp only [Fiber.next, hp] at hs
      cases hs
      have hnew : ∀ u, s.stack u ≠ .fiber s.nextHost := by
        intro u hu
        exact Nat.lt_irrefl _ (hinv.objs.hostNext _ _ ((hinv.grounds u).hosted _ hu))
      obtain ⟨hthere, haway, hthreads⟩ := (h.setHost (x := { guestAddr := a }) (.inr hnew)).setObj a
        { valid := true, host := some s.nextHost, addrContext := context }
      exact Logs.goto ⟨hthere, haway, hthreads⟩ hp rfl rfl

theorem Logs.exec (h : Logs s) (hinv : Inv home s) {act : Act T} (hs : exec s act = some s') : Logs s' := by
  cases act with
  | fiberInitialize t a context | finalize t a =>
      simp only [Fiber.exec] at hs
      split at hs
      · rename_i hp
        split at hs
        · cases hs
          exact h
        · cases hs
          exact h.goto hp rfl rfl
      · cases hs
  | run t a arg attach contextOk | switch t a arg attach contextOk =>
      simp only [Fiber.exec] at hs
      split at hs
      · rename_i hp
        split at hs
        · cases hs
          exact h
        · split at hs
          · cases hs
            exact h
          · cases hs
            exact h.goto hp rfl rfl
      · cases hs
  | returnToThread t arg =>
      simp only [Fiber.exec] at hs
      split at hs
      · rename_i hp
        split at hs
        · cases hs
          exact h
        · rename_i g hself
          split at hs
          · cases hs
          · rename_i w hworker
            obtain rfl : w = t := by
              have hworks := (hinv.grounds t).worker g (hinv.stack_of_self hp hself)
              rw [hworker] at hworks
              exact Option.some.inj hworks
            exact h.goBack hinv hp (Option.some.inj hs).symm
      · cases hs
  | next t ok => exact h.next hinv hs

end Steps

variable [DecidableEq T]

/-- Both invariants hold in every run whose initializations are alone. -/
theorem inv_reachable {s : State T} (h : Reachable ((fiberSystem T).restrict Alone) s) :
    (∃ home, Inv home s) ∧ Logs s := by
  refine Reachable.invariant (P := fun s => (∃ home, Inv home s) ∧ Logs s) (fun s hs => ?_)
    (fun s act s' _ hi (hstep : Alone s act ∧ exec s act = some s') => ?_) h
  · rw [show s = {} from hs]
    refine ⟨⟨fun _ => .unused, ⟨fun _ => ⟨rfl, rfl⟩, nofun, nofun, nofun⟩, fun t => ?_, fun _ => trivial, nofun⟩,
      nofun, fun _ _ => rfl, fun _ => rfl⟩
    refine ⟨fun u hu => ?_, nofun, nofun, nofun, rfl, rfl⟩
    cases hu
    rfl
  · obtain ⟨⟨home, hinv⟩, hlogs⟩ := hi
    exact ⟨hinv.exec hstep.1 hstep.2, hlogs.exec hinv hstep.2⟩

/-- The fiber of a host side runs or is about to leave its stack, and is not freed. -/
def Live (s : State T) (y : ℕ) : Prop :=
  (s.obj (s.host y).guestAddr).host = some y ∧ (s.host y).freed = false ∧
    ((s.obj (s.host y).guestAddr).state = .running ∨ (s.obj (s.host y).guestAddr).state = .suspending)

omit [DecidableEq T] in
theorem Inv.live_of_owned {home : ℕ → Home T} {s : State T} (h : Inv home s) {t : T} {a y : ℕ} {r : Role}
    (hy : (s.obj a).host = some y) (ha : home a = .owned t r) (hr : r ≠ .finalizing) : Live s y := by
  have haddr := h.objs.hostAddr a y hy
  have hfits := h.objs.fits a
  rw [ha] at hfits
  rw [Live, haddr]
  refine ⟨hy, ?_, ?_⟩
  · cases hf : (s.host y).freed with
    | false => rfl
    | true =>
        obtain ⟨u, hu⟩ := h.objs.freed a y hy hf
        rw [ha] at hu
        exact absurd (Home.owned.inj hu).2 hr
  · rw [hfits.2.1]
    cases r with
    | claimed | executing => exact .inl rfl
    | leaving | releasing => exact .inr rfl
    | finalizing => exact absurd rfl hr

omit [DecidableEq T] in
theorem Inv.live_of_stack {home : ℕ → Home T} {s : State T} (h : Inv home s) {t : T} {y : ℕ}
    (hst : s.stack t = .fiber y) : Live s y := by
  refine h.live_of_owned ((h.grounds t).hosted y hst) ((h.grounds t).home y hst) ?_
  split
  · nofun
  · nofun

omit [DecidableEq T] in
theorem Inv.live_of_current {home : ℕ → Home T} {s : State T} (h : Inv home s) {t : T} {y : ℕ}
    (hcur : (s.worker t).current = some y) : Live s y := by
  have hon := (h.grounds t).current
  have hloc := h.places t
  rw [hcur] at hon
  cases hp : s.place t with
  | jump a z k =>
      rw [hp] at hon hloc
      obtain rfl : y = z := Option.some.inj hon
      exact h.live_of_owned hloc.2.1 hloc.1 nofun
  | backSuspend g w | backRelease g w | backJump g w =>
      rw [hp] at hon
      cases hon
  | _ =>
      rw [hp] at hon
      cases hst : s.stack t with
      | thread u =>
          rw [hst] at hon
          cases hon
      | fiber z =>
          rw [hst] at hon
          obtain rfl : y = z := Option.some.inj hon
          exact h.live_of_stack hst

theorem taken_idle {s s' : State T} {t : T} {a : ℕ} {ok : Bool} (hs : exec s (.next t ok) = some s')
    (htaken : (∃ k, s.place t = .take a k ∧ s'.place t = .prepare a k) ∨
      s.place t = .finTake a ∧ s'.place t = .finFree a) : (s.obj a).state = .idle := by
  rcases htaken with ⟨k, hp, hp'⟩ | ⟨hp, hp'⟩
  · simp only [exec, next, hp] at hs
    split at hs
    · assumption
    · cases hs
    · cases hs
      rw [show (s.goto t .guest).place t = .guest from Function.update_self ..] at hp'
      cases hp'
    · cases hs
      rw [show (s.goto t .guest).place t = .guest from Function.update_self ..] at hp'
      cases hp'
  · simp only [exec, next, hp] at hs
    split at hs
    · assumption
    · cases hs
    · cases hs
      rw [show (s.goto t .guest).place t = .guest from Function.update_self ..] at hp'
      cases hp'
    · cases hs
      rw [show (s.goto t .guest).place t = .guest from Function.update_self ..] at hp'
      cases hp'

/-- **Fiber exclusivity and argument delivery.**  In every run whose initializations are alone: one thread
executes a fiber; a fiber is claimed, or finalized, when no thread is on its stack; what is current or
executed is neither idle nor finalized; the arguments delivered to a fiber are those of the runs and
switches that resumed it, and the runs of a thread return those of the calls of `sceFiberReturnToThread` on
it, in order and each at once. -/
theorem fiber_exclusive {s : State T} (h : Reachable ((fiberSystem T).restrict Alone) s) :
    (∀ t u y z, s.stack t = .fiber y → s.stack u = .fiber z →
      (s.host y).guestAddr = (s.host z).guestAddr → t = u ∧ y = z) ∧
    (∀ t a ok s', exec s (.next t ok) = some s' →
      (∃ k, s.place t = .take a k ∧ s'.place t = .prepare a k) ∨
        s.place t = .finTake a ∧ s'.place t = .finFree a →
      ∀ u y, s.stack u = .fiber y → (s.host y).guestAddr ≠ a) ∧
    (∀ t y, (s.worker t).current = some y ∨ s.stack t = .fiber y → Live s y) ∧
    (∀ y, ∃ l, s.resumed y = s.delivered y ++ l ∧ l.length ≤ 1) ∧
    ∀ t, ∃ l, s.sent t = s.got t ++ l ∧ l.length ≤ 1 := by
  obtain ⟨⟨home, hinv⟩, hlogs⟩ := inv_reachable h
  refine ⟨fun t u y z ht hu haddr => ?_, fun t a ok s' hs htaken u y hu haddr => ?_, fun t y hy => ?_,
    fun y => ?_, fun t => ⟨s.owed t, hlogs.threads t, s.owed_length t⟩⟩
  · obtain rfl := hinv.stack_unique ht hu haddr
    rw [ht] at hu
    exact ⟨rfl, Endpoint.fiber.inj hu⟩
  · have hidle := taken_idle hs htaken
    obtain ⟨-, -, hstate⟩ := hinv.live_of_stack hu
    rw [haddr, hidle] at hstate
    rcases hstate with hstate | hstate
    · cases hstate
    · cases hstate
  · rcases hy with hcur | hst
    · exact hinv.live_of_current hcur
    · exact hinv.live_of_stack hst
  · by_cases hthere : ∃ t, s.stack t = .fiber y
    · obtain ⟨t, ht⟩ := hthere
      exact ⟨s.onWay t y, hlogs.there t y ht, s.onWay_length t y⟩
    · refine ⟨[], ?_, Nat.zero_le 1⟩
      rw [List.append_nil]
      exact hlogs.away y fun t ht => hthere ⟨t, ht⟩

/-- The thread initializes a fiber at 8. -/
def initializeSteps (t : Bool) : List (Act Bool) :=
  [.fiberInitialize t 8 true, .next t true, .next t true]

/-- The thread runs the fiber at 8. -/
def runSteps (t : Bool) (arg : BitVec 64) : List (Act Bool) :=
  .run t 8 arg false true :: List.replicate 8 (.next t true)

/-- The fiber on the thread returns to it. -/
def returnSteps (t : Bool) (arg : BitVec 64) : List (Act Bool) :=
  .returnToThread t arg :: List.replicate 7 (.next t true)

/-- A fiber is run with 5, and returns 7. -/
def returnRun : List (Act Bool) := initializeSteps false ++ runSteps false 5 ++ returnSteps false 7

theorem fiber_exclusive_returnRun :
    ∃ s : State Bool, execAll (guarded Alone exec) {} returnRun = some s ∧
      s.delivered 0 = [5] ∧ s.got false = [7] ∧ ∃ l, s.resumed 0 = s.delivered 0 ++ l ∧ l.length ≤ 1 := by
  obtain ⟨s, hs⟩ : ∃ s : State Bool, execAll (guarded Alone exec) {} returnRun = some s :=
    Option.isSome_iff_exists.1 (by decide)
  have hreach : Reachable ((fiberSystem Bool).restrict Alone) s :=
    Reachable.guarded (fun _ _ _ hstep => hstep) returnRun (.init rfl) hs
  have hlast : (execAll (guarded Alone exec) ({} : State Bool) returnRun).map
      (fun s => (s.delivered 0, s.got false)) = some ([5], [7]) := by decide
  rw [hs] at hlast
  obtain ⟨hdelivered, hgot⟩ := Prod.mk.inj (Option.some.inj hlast)
  exact ⟨s, hs, hdelivered, hgot, (fiber_exclusive hreach).2.2.2.1 0⟩

/-- While a fiber runs, another thread initializes it again and runs it; the first returns, which marks the
new fiber idle, and runs it. -/
def reinitializeRun : List (Act Bool) :=
  initializeSteps false ++ runSteps false 5 ++ initializeSteps true ++ runSteps true 6 ++
    returnSteps false 7 ++ runSteps false 9

/-- Two threads are on the stack of one fiber after a second initialization. -/
theorem fiber_reinitialized :
    ∃ s : State Bool, Reachable (fiberSystem Bool) s ∧ s.stack false = .fiber 1 ∧ s.stack true = .fiber 1 := by
  obtain ⟨s, hs⟩ : ∃ s : State Bool, execAll exec {} reinitializeRun = some s :=
    Option.isSome_iff_exists.1 (by decide)
  have hreach : Reachable (fiberSystem Bool) s :=
    Reachable.execAll (fun _ _ _ hstep => hstep) reinitializeRun (.init rfl) hs
  have hlast : (execAll exec ({} : State Bool) reinitializeRun).map (fun s => (s.stack false, s.stack true)) =
      some (.fiber 1, .fiber 1) := by decide
  rw [hs] at hlast
  obtain ⟨hfirst, hsecond⟩ := Prod.mk.inj (Option.some.inj hlast)
  exact ⟨s, hreach, hfirst, hsecond⟩

end PS4Recomp.Runtime.Fiber
