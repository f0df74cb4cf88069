import PS4Recomp.Runtime.Fiber

/-!
# Fibers as coroutines: who has a fiber

Every fiber that is not idle belongs to one host thread, which has claimed it, runs on its stack, is about
to leave it, has left it and will mark it idle, or finalizes it.

* `Role`, `Home` — what the owner does with a fiber, and where a fiber is;
* `OnStack`, `Local` — what a thread knows about the stack it is on, and at its place;
* `Inv` — the invariant; `Rest` — the same but for one thread, kept by each change that thread makes;
* **`Inv.exec`** — every step whose initializations are alone keeps the invariant.
-/

namespace PS4Recomp.Runtime.Fiber

open Library.Transition

/-- What the thread that has a fiber does with it. -/
inductive Role where
  | claimed
  | executing
  | leaving
  | releasing
  | finalizing
  deriving DecidableEq

/-- Where the fiber of a guest object is: there was none yet, it is finalized, idle, or a thread has it. -/
inductive Home (T : Type*) where
  | unused
  | dead
  | idle
  | owned (t : T) (r : Role)
  deriving DecidableEq

/-- The state of the object, in each role of its owner. -/
def Role.state : Role → FiberState
  | .claimed => .running
  | .executing => .running
  | .leaving => .suspending
  | .releasing => .suspending
  | .finalizing => .finalized

variable {T : Type*}

/-- The object of a fiber that is somewhere. -/
def Fits : Home T → OrbisFiberObject → Prop
  | .unused, f => f.valid = false ∧ f.host = none
  | .dead, f => f.valid = false ∧ f.state = .finalized ∧ f.host = none
  | .idle, f => f.valid = true ∧ f.state = .idle ∧ f.host ≠ none
  | .owned _ r, f => f.valid = true ∧ f.state = r.state ∧ f.host ≠ none

/-- The fiber on the stack is marked as leaving. -/
def Place.leaves : Place T → Bool
  | .enter _ _ k _ _ | .current _ _ k _ | .jump _ _ k => k.self.isSome
  | .backRelease _ _ | .backJump _ _ => true
  | _ => false

/-- What `current` is, where it is not the fiber on the stack. -/
def Place.shown : Place T → Option (Option ℕ)
  | .jump _ h _ => some (some h)
  | .backSuspend _ _ | .backRelease _ _ | .backJump _ _ => some none
  | _ => none

/-- What `tl_fiber_self` is, where it is not the fiber on the stack. -/
def Place.named : Place T → Option (Option ℕ)
  | .jump _ h _ => some (some h)
  | .backJump _ _ => some none
  | _ => none

/-- The fiber of a host stack. -/
def Endpoint.fiber? : Endpoint T → Option ℕ
  | .thread _ => none
  | .fiber h => some h

/-- The stack a call was made on. -/
def Call.endpoint (k : Call) (t : T) : Endpoint T :=
  match k.self with
  | none => .thread t
  | some g => .fiber g

/-- The object of the fiber a call was made by. -/
def Call.selfAddr (k : Call) (s : State T) : Option ℕ := k.self.map fun g => (s.host g).guestAddr

/-- The object to mark idle after a switch to a stack. -/
def State.releaseOf (s : State T) : Endpoint T → Option ℕ
  | .fiber h => (s.host h).release
  | .thread u => (s.worker u).release

/-- The objects and their host sides. -/
structure Objs (home : ℕ → Home T) (s : State T) : Prop where
  fits : ∀ a, Fits (home a) (s.obj a)
  hostAddr : ∀ a h, (s.obj a).host = some h → (s.host h).guestAddr = a
  hostNext : ∀ a h, (s.obj a).host = some h → h < s.nextHost
  freed : ∀ a h, (s.obj a).host = some h → (s.host h).freed = true → ∃ t, home a = .owned t .finalizing

/-- The stack a thread is on: its own, or that of a fiber that belongs to it. -/
structure OnStack (home : ℕ → Home T) (s : State T) (t : T) (p : Place T) : Prop where
  own : ∀ u, s.stack t = .thread u → u = t
  home : ∀ h, s.stack t = .fiber h →
    home (s.host h).guestAddr = .owned t (if p.leaves = true then .leaving else .executing)
  hosted : ∀ h, s.stack t = .fiber h → (s.obj (s.host h).guestAddr).host = some h
  worker : ∀ h, s.stack t = .fiber h → (s.host h).worker = some t
  self : s.tlFiberSelf t = p.named.getD (s.stack t).fiber?
  current : (s.worker t).current = p.shown.getD (s.stack t).fiber?

/-- What a thread knows at a place. -/
def Local (home : ℕ → Home T) (s : State T) (t : T) : Place T → Prop
  | .valid _ k => s.stack t = k.endpoint t
  | .take a k => home a ≠ .unused ∧ s.stack t = k.endpoint t
  | .prepare a k => home a = .owned t .claimed ∧ s.stack t = k.endpoint t
  | .giveBack a => home a = .owned t .claimed
  | .suspend a h k => home a = .owned t .claimed ∧ (s.obj a).host = some h ∧ s.stack t = k.endpoint t
  | .enter a h k w release => home a = .owned t .claimed ∧ (s.obj a).host = some h ∧
      s.stack t = k.endpoint t ∧ w = t ∧ release = k.selfAddr s
  | .current a h k w => home a = .owned t .claimed ∧ (s.obj a).host = some h ∧
      s.stack t = k.endpoint t ∧ w = t ∧ (s.host h).worker = some t ∧
      (s.host h).release = k.selfAddr s ∧ (s.host h).inArg = k.arg
  | .jump a h k => home a = .owned t .claimed ∧ (s.obj a).host = some h ∧
      s.stack t = k.endpoint t ∧ (s.host h).worker = some t ∧
      (s.host h).release = k.selfAddr s ∧ (s.host h).inArg = k.arg
  | .finish => ∀ a, s.releaseOf (s.stack t) = some a → home a = .owned t .releasing
  | .finishIdle a => home a = .owned t .releasing
  | .backCurrent g w | .backSuspend g w | .backRelease g w => s.stack t = .fiber g ∧ w = t
  | .backJump g w =>
      s.stack t = .fiber g ∧ w = t ∧ (s.worker t).release = some (s.host g).guestAddr
  | .finFree a | .finClear a => home a = .owned t .finalizing
  | .finTake a => home a ≠ .unused
  | .initWrite a _ => home a = .unused ∨ home a = .dead ∨ home a = .idle
  | .initIdle a => home a = .idle
  | .guest | .deliver | .finValid _ => True

/-- Who has which fiber, and what each thread knows. -/
structure Inv (home : ℕ → Home T) (s : State T) : Prop where
  objs : Objs home s
  grounds : ∀ t, OnStack home s t (s.place t)
  places : ∀ t, Local home s t (s.place t)
  alone : ∀ t u a, (s.place t).initializes = some a → (s.place u).mentions = some a → u = t

/-- The invariant but for one thread, which is in the middle of a step. -/
structure Rest (t : T) (home : ℕ → Home T) (s : State T) : Prop where
  objs : Objs home s
  grounds : ∀ u, u ≠ t → OnStack home s u (s.place u)
  places : ∀ u, u ≠ t → Local home s u (s.place u)

theorem Inv.rest {home : ℕ → Home T} {s : State T} (h : Inv home s) (t : T) : Rest t home s :=
  ⟨h.objs, fun u _ => h.grounds u, fun u _ => h.places u⟩

/-! ### what a step of another thread leaves -/

/-- Nothing changed that belongs to the thread. -/
structure Keeps (u : T) (home : ℕ → Home T) (s : State T) (home' : ℕ → Home T) (s' : State T) : Prop where
  owned : ∀ a r, home a = .owned u r → home' a = .owned u r
  obj : ∀ a r, home a = .owned u r → (s'.obj a).host = (s.obj a).host
  host : ∀ a r h, home a = .owned u r → (s.obj a).host = some h → s'.host h = s.host h
  init : ∀ a, (s.place u).initializes = some a → home' a = home a
  used : ∀ a, home a ≠ .unused → home' a ≠ .unused
  worker : s'.worker u = s.worker u
  stack : s'.stack u = s.stack u
  self : s'.tlFiberSelf u = s.tlFiberSelf u
  place : s'.place u = s.place u

namespace Keeps

variable {u : T} {home home' : ℕ → Home T} {s s' : State T}

theorem host_stack (hk : Keeps u home s home' s') (hon : OnStack home s u (s.place u)) {h : ℕ}
    (hst : s.stack u = .fiber h) : s'.host h = s.host h :=
  hk.host _ _ h (hon.home h hst) (hon.hosted h hst)

theorem onStack (hk : Keeps u home s home' s') (hon : OnStack home s u (s.place u)) :
    OnStack home' s' u (s'.place u) := by
  rw [hk.place]
  constructor
  · rw [hk.stack]
    exact hon.own
  · intro h hst
    rw [hk.stack] at hst
    rw [hk.host_stack hon hst]
    exact hk.owned _ _ (hon.home h hst)
  · intro h hst
    rw [hk.stack] at hst
    rw [hk.host_stack hon hst, hk.obj _ _ (hon.home h hst)]
    exact hon.hosted h hst
  · intro h hst
    rw [hk.stack] at hst
    rw [hk.host_stack hon hst]
    exact hon.worker h hst
  · rw [hk.stack, hk.self]
    exact hon.self
  · rw [hk.stack, hk.worker]
    exact hon.current

theorem selfAddr (hk : Keeps u home s home' s') (hon : OnStack home s u (s.place u)) {k : Call}
    (hst : s.stack u = k.endpoint u) : k.selfAddr s' = k.selfAddr s := by
  unfold Call.selfAddr
  cases hself : k.self with
  | none => rfl
  | some g =>
      have hg : s.stack u = .fiber g := by
        rw [hst, Call.endpoint, hself]
      rw [Option.map_some, Option.map_some, hk.host_stack hon hg]

theorem releaseOf (hk : Keeps u home s home' s') (hon : OnStack home s u (s.place u)) :
    s'.releaseOf (s'.stack u) = s.releaseOf (s.stack u) := by
  rw [hk.stack]
  cases hst : s.stack u with
  | fiber h =>
      show (s'.host h).release = (s.host h).release
      rw [hk.host_stack hon hst]
  | thread w =>
      show (s'.worker w).release = (s.worker w).release
      rw [hon.own w hst, hk.worker]

theorem atPlace (hk : Keeps u home s home' s') (hon : OnStack home s u (s.place u))
    (hloc : Local home s u (s.place u)) : Local home' s' u (s'.place u) := by
  have hinit := hk.init
  rw [hk.place]
  cases hp : s.place u with
  | valid a k =>
      rw [hp] at hloc
      show s'.stack u = k.endpoint u
      rw [hk.stack]
      exact hloc
  | take a k =>
      rw [hp] at hloc
      refine ⟨hk.used a hloc.1, ?_⟩
      rw [hk.stack]
      exact hloc.2
  | finTake a =>
      rw [hp] at hloc
      exact hk.used a hloc
  | prepare a k =>
      rw [hp] at hloc
      refine ⟨hk.owned a _ hloc.1, ?_⟩
      rw [hk.stack]
      exact hloc.2
  | giveBack a | finishIdle a | finFree a | finClear a =>
      rw [hp] at hloc
      exact hk.owned a _ hloc
  | suspend a h k =>
      rw [hp] at hloc
      refine ⟨hk.owned a _ hloc.1, ?_, ?_⟩
      · rw [hk.obj a _ hloc.1]
        exact hloc.2.1
      · rw [hk.stack]
        exact hloc.2.2
  | enter a h k w release =>
      rw [hp] at hloc
      obtain ⟨hclaim, hhost, hst, hw, hrel⟩ := hloc
      refine ⟨hk.owned a _ hclaim, ?_, ?_, hw, ?_⟩
      · rw [hk.obj a _ hclaim]
        exact hhost
      · rw [hk.stack]
        exact hst
      · rw [hk.selfAddr hon hst]
        exact hrel
  | current a h k w =>
      rw [hp] at hloc
      obtain ⟨hclaim, hhost, hst, hw, hrest⟩ := hloc
      refine ⟨hk.owned a _ hclaim, ?_, ?_, hw, ?_⟩
      · rw [hk.obj a _ hclaim]
        exact hhost
      · rw [hk.stack]
        exact hst
      · rw [hk.selfAddr hon hst, hk.host a _ h hclaim hhost]
        exact hrest
  | jump a h k =>
      rw [hp] at hloc
      obtain ⟨hclaim, hhost, hst, hrest⟩ := hloc
      refine ⟨hk.owned a _ hclaim, ?_, ?_, ?_⟩
      · rw [hk.obj a _ hclaim]
        exact hhost
      · rw [hk.stack]
        exact hst
      · rw [hk.selfAddr hon hst, hk.host a _ h hclaim hhost]
        exact hrest
  | finish =>
      rw [hp] at hloc
      show ∀ a, s'.releaseOf (s'.stack u) = some a → home' a = .owned u .releasing
      rw [hk.releaseOf hon]
      exact fun a ha => hk.owned a _ (hloc a ha)
  | backCurrent g w | backSuspend g w | backRelease g w =>
      rw [hp] at hloc
      refine ⟨?_, hloc.2⟩
      rw [hk.stack]
      exact hloc.1
  | backJump g w =>
      rw [hp] at hloc
      refine ⟨?_, hloc.2.1, ?_⟩
      · rw [hk.stack]
        exact hloc.1
      · rw [hk.worker, hk.host_stack hon hloc.1]
        exact hloc.2.2
  | initWrite a context =>
      rw [hp] at hloc
      show home' a = .unused ∨ home' a = .dead ∨ home' a = .idle
      rw [hinit a (by rw [hp]; rfl)]
      exact hloc
  | initIdle a =>
      rw [hp] at hloc
      show home' a = .idle
      rw [hinit a (by rw [hp]; rfl)]
      exact hloc
  | guest | deliver | finValid a => trivial

end Keeps

theorem Rest.keep {t : T} {home home' : ℕ → Home T} {s s' : State T} (h : Rest t home s)
    (hobjs : Objs home' s') (hk : ∀ u, u ≠ t → Keeps u home s home' s') : Rest t home' s' where
  objs := hobjs
  grounds u hu := (hk u hu).onStack (h.grounds u hu)
  places u hu := (hk u hu).atPlace (h.grounds u hu) (h.places u hu)

namespace Rest

variable {home : ℕ → Home T} {s s' : State T} {t : T} {a : ℕ}

theorem congr (h : Rest t home s) (hobj : s'.obj = s.obj) (hhost : s'.host = s.host)
    (hnext : s'.nextHost = s.nextHost) (hworker : ∀ u, u ≠ t → s'.worker u = s.worker u)
    (hstack : ∀ u, u ≠ t → s'.stack u = s.stack u)
    (hself : ∀ u, u ≠ t → s'.tlFiberSelf u = s.tlFiberSelf u)
    (hplace : ∀ u, u ≠ t → s'.place u = s.place u) : Rest t home s' := by
  refine h.keep ⟨?_, ?_, ?_, ?_⟩ fun u hu => ⟨fun _ _ hb => hb, ?_, ?_, fun _ _ => rfl, fun _ hb => hb,
    hworker u hu, hstack u hu, hself u hu, hplace u hu⟩
  · rw [hobj]
    exact h.objs.fits
  · rw [hobj, hhost]
    exact h.objs.hostAddr
  · rw [hobj, hnext]
    exact h.objs.hostNext
  · rw [hobj, hhost]
    exact h.objs.freed
  · rw [hobj]
    exact fun _ _ _ => rfl
  · rw [hhost]
    exact fun _ _ _ _ _ => rfl

theorem setObj (h : Rest t home s) {x : Home T} {f : OrbisFiberObject} (hfits : Fits x f)
    (hother : ∀ u r, u ≠ t → home a ≠ .owned u r)
    (hinit : ∀ u, u ≠ t → (s.place u).initializes ≠ some a)
    (hused : x ≠ .unused) (hhost : f.host = (s.obj a).host ∨ f.host = none)
    (hfreed : ∀ y, f.host = some y → (s.host y).freed = true → ∃ u, x = .owned u .finalizing) :
    Rest t (Function.update home a x) (s.setObj a f) := by
  have hsame : ∀ y, f.host = some y → (s.obj a).host = some y := by
    intro y hy
    rcases hhost with heq | hnone
    · rw [← heq]
      exact hy
    · rw [hnone] at hy
      cases hy
  refine h.keep ⟨fun b => ?_, fun b y hb => ?_, fun b y hb => ?_, fun b y hb hf => ?_⟩ fun u hu =>
    ⟨fun b r hb => ?_, fun b r hb => ?_, fun _ _ _ _ _ => rfl, fun b hb => ?_, fun b hb => ?_, rfl, rfl,
      rfl, rfl⟩
  · show Fits (Function.update home a x b) (Function.update s.obj a f b)
    by_cases hba : b = a
    · rw [hba, Function.update_self, Function.update_self]
      exact hfits
    · rw [Function.update_of_ne hba, Function.update_of_ne hba]
      exact h.objs.fits b
  · have hb' : (Function.update s.obj a f b).host = some y := hb
    by_cases hba : b = a
    · rw [hba, Function.update_self] at hb'
      rw [hba]
      exact h.objs.hostAddr a y (hsame y hb')
    · rw [Function.update_of_ne hba] at hb'
      exact h.objs.hostAddr b y hb'
  · have hb' : (Function.update s.obj a f b).host = some y := hb
    by_cases hba : b = a
    · rw [hba, Function.update_self] at hb'
      exact h.objs.hostNext a y (hsame y hb')
    · rw [Function.update_of_ne hba] at hb'
      exact h.objs.hostNext b y hb'
  · have hb' : (Function.update s.obj a f b).host = some y := hb
    by_cases hba : b = a
    · rw [hba, Function.update_self] at hb' ⊢
      exact hfreed y hb' hf
    · rw [Function.update_of_ne hba] at hb' ⊢
      exact h.objs.freed b y hb' hf
  · have hne : b ≠ a := fun heq => hother u r hu (by rw [← heq]; exact hb)
    rw [Function.update_of_ne hne]
    exact hb
  · have hne : b ≠ a := fun heq => hother u r hu (by rw [← heq]; exact hb)
    show (Function.update s.obj a f b).host = _
    rw [Function.update_of_ne hne]
  · have hne : b ≠ a := fun heq => hinit u hu (by rw [← heq]; exact hb)
    rw [Function.update_of_ne hne]
  · by_cases hba : b = a
    · rw [hba, Function.update_self]
      exact hused
    · rw [Function.update_of_ne hba]
      exact hb

/-- The host side of an object that no other thread has changes. -/
theorem setHost (h : Rest t home s) {y : ℕ} {x : FiberHost T} (hy : (s.obj a).host = some y)
    (hother : ∀ u r, u ≠ t → home a ≠ .owned u r) (haddr : x.guestAddr = (s.host y).guestAddr)
    (hfreed : x.freed = true → (s.host y).freed = true ∨ ∃ u, home a = .owned u .finalizing) :
    Rest t home (s.setHost y x) := by
  have hadr := h.objs.hostAddr a y hy
  refine h.keep ⟨h.objs.fits, fun b z hb => ?_, h.objs.hostNext, fun b z hb hf => ?_⟩ fun u hu =>
    ⟨fun _ _ hb => hb, fun _ _ _ => rfl, fun b r z hb hz => ?_, fun _ _ => rfl, fun _ hb => hb, rfl, rfl,
      rfl, rfl⟩
  · show (Function.update s.host y x z).guestAddr = b
    by_cases hz : z = y
    · rw [hz, Function.update_self, haddr, ← hz]
      exact h.objs.hostAddr b z hb
    · rw [Function.update_of_ne hz]
      exact h.objs.hostAddr b z hb
  · have hf' : (Function.update s.host y x z).freed = true := hf
    by_cases hz : z = y
    · rw [hz, Function.update_self] at hf'
      have hba : b = a := by
        rw [← h.objs.hostAddr b z hb, hz]
        exact hadr
      rcases hfreed hf' with hold | hfin
      · exact h.objs.freed b z hb (by rw [hz]; exact hold)
      · rw [hba]
        exact hfin
    · rw [Function.update_of_ne hz] at hf'
      exact h.objs.freed b z hb hf'
  · show Function.update s.host y x z = s.host z
    have hzy : z ≠ y := by
      intro heq
      rw [heq] at hz
      have hba : b = a := by
        rw [← h.objs.hostAddr b y hz]
        exact hadr
      exact hother u r hu (by rw [← hba]; exact hb)
    rw [Function.update_of_ne hzy]

theorem setWorker [DecidableEq T] (h : Rest t home s) (x : FiberWorker) :
    Rest t home (s.setWorker t x) :=
  h.congr rfl rfl rfl (fun _ hu => Function.update_of_ne hu ..) (fun _ _ => rfl) (fun _ _ => rfl)
    fun _ _ => rfl

end Rest

/-! ### the thread that steps -/

section Steps

variable {home : ℕ → Home T} {s s' : State T} {t : T} {a : ℕ} {p q : Place T}

theorem OnStack.ofFiber {y : ℕ} (hst : s.stack t = .fiber y)
    (hhome : home (s.host y).guestAddr = .owned t (if p.leaves = true then .leaving else .executing))
    (hhosted : (s.obj (s.host y).guestAddr).host = some y) (hworker : (s.host y).worker = some t)
    (hself : s.tlFiberSelf t = p.named.getD (some y)) (hcurrent : (s.worker t).current = p.shown.getD (some y)) :
    OnStack home s t p := by
  refine ⟨fun u hu => ?_, fun z hz => ?_, fun z hz => ?_, fun z hz => ?_, ?_, ?_⟩
  · rw [hst] at hu
    cases hu
  · rw [hst] at hz
    cases hz
    exact hhome
  · rw [hst] at hz
    cases hz
    exact hhosted
  · rw [hst] at hz
    cases hz
    exact hworker
  · rw [hst]
    exact hself
  · rw [hst]
    exact hcurrent

theorem OnStack.ofThread (hst : s.stack t = .thread t) (hself : s.tlFiberSelf t = p.named.getD none)
    (hcurrent : (s.worker t).current = p.shown.getD none) : OnStack home s t p := by
  refine ⟨fun u hu => ?_, fun z hz => ?_, fun z hz => ?_, fun z hz => ?_, ?_, ?_⟩
  · rw [hst] at hu
    cases hu
    rfl
  · rw [hst] at hz
    cases hz
  · rw [hst] at hz
    cases hz
  · rw [hst] at hz
    cases hz
  · rw [hst]
    exact hself
  · rw [hst]
    exact hcurrent

theorem OnStack.move (h : OnStack home s t q) (hleaves : p.leaves = q.leaves) (hshown : p.shown = q.shown)
    (hnamed : p.named = q.named) : OnStack home s t p := by
  refine ⟨h.own, ?_, h.hosted, h.worker, ?_, ?_⟩
  · rw [hleaves]
    exact h.home
  · rw [hnamed]
    exact h.self
  · rw [hshown]
    exact h.current

/-- The object changed is not that of the fiber on the stack. -/
theorem OnStack.setObj (h : OnStack home s t p) {x : Home T} {f : OrbisFiberObject}
    (hne : ∀ y, s.stack t = .fiber y → (s.host y).guestAddr ≠ a) :
    OnStack (Function.update home a x) (s.setObj a f) t p := by
  refine ⟨h.own, fun y hy => ?_, fun y hy => ?_, h.worker, h.self, h.current⟩
  · show Function.update home a x (s.host y).guestAddr = _
    rw [Function.update_of_ne (hne y hy)]
    exact h.home y hy
  · show (Function.update s.obj a f (s.host y).guestAddr).host = some y
    rw [Function.update_of_ne (hne y hy)]
    exact h.hosted y hy

/-- The host side changed is not that of the fiber on the stack. -/
theorem OnStack.setHost (h : OnStack home s t p) {y : ℕ} {x : FiberHost T} (hne : s.stack t ≠ .fiber y) :
    OnStack home (s.setHost y x) t p := by
  have hsame : ∀ z, s.stack t = .fiber z → Function.update s.host y x z = s.host z := by
    intro z hz
    exact Function.update_of_ne (fun heq => hne (by rw [← heq]; exact hz)) ..
  refine ⟨h.own, fun z hz => ?_, fun z hz => ?_, fun z hz => ?_, h.self, h.current⟩
  · show home (Function.update s.host y x z).guestAddr = _
    rw [hsame z hz]
    exact h.home z hz
  · show (s.obj (Function.update s.host y x z).guestAddr).host = some z
    rw [hsame z hz]
    exact h.hosted z hz
  · show (Function.update s.host y x z).worker = some t
    rw [hsame z hz]
    exact h.worker z hz

/-- The fiber on the stack is not at an address where its thread has another role. -/
theorem OnStack.ne_addr (h : OnStack home s t p)
    (ha : home a ≠ .owned t (if p.leaves = true then .leaving else .executing)) {y : ℕ}
    (hy : s.stack t = .fiber y) : (s.host y).guestAddr ≠ a := by
  rintro rfl
  exact ha (h.home y hy)

theorem Inv.not_initializes (h : Inv home s) {u : T} {r : Role} (ha : home a = .owned u r) (w : T) :
    (s.place w).initializes ≠ some a := by
  intro hw
  have hloc := h.places w
  cases hp : s.place w with
  | initWrite b c =>
      rw [hp] at hloc hw
      cases hw
      have hfree : home a = .unused ∨ home a = .dead ∨ home a = .idle := hloc
      rw [ha] at hfree
      rcases hfree with heq | heq | heq
      · cases heq
      · cases heq
      · cases heq
  | initIdle b =>
      rw [hp] at hloc hw
      cases hw
      have hfree : home a = .idle := hloc
      rw [ha] at hfree
      cases hfree
  | _ =>
      rw [hp] at hw
      cases hw

theorem Inv.restObj (h : Inv home s) {r : Role} {x : Home T} {f : OrbisFiberObject}
    (ha : home a = .owned t r) (hfits : Fits x f) (hused : x ≠ .unused)
    (hhost : f.host = (s.obj a).host ∧ r ≠ .finalizing ∨ f.host = none) :
    Rest t (Function.update home a x) (s.setObj a f) := by
  refine (h.rest t).setObj hfits (fun u r' hu => ?_) (fun u _ => h.not_initializes ha u) hused
    (hhost.imp And.left id) fun y hy hf => ?_
  · rw [ha]
    intro heq
    cases heq
    exact hu rfl
  · rcases hhost with ⟨heq, hr⟩ | hnone
    · rw [heq] at hy
      obtain ⟨u, hu⟩ := h.objs.freed a y hy hf
      rw [ha] at hu
      cases hu
      exact absurd rfl hr
    · rw [hnone] at hy
      cases hy

/-- The step is over: the thread goes to its next place. -/
theorem Rest.closeAlone [DecidableEq T] (h : Rest t home s') (hplace : s'.place = s.place)
    (hon : OnStack home s' t p) (hloc : Local home s' t p)
    (halone : ∀ u v b, (Function.update s.place t p u).initializes = some b →
      (Function.update s.place t p v).mentions = some b → v = u) : Inv home (s'.goto t p) := by
  have hself : (s'.goto t p).place t = p := Function.update_self ..
  have hrest : Rest t home (s'.goto t p) :=
    h.congr rfl rfl rfl (fun _ _ => rfl) (fun _ _ => rfl) (fun _ _ => rfl)
      fun u hu => Function.update_of_ne hu ..
  refine ⟨hrest.objs, fun u => ?_, fun u => ?_, ?_⟩
  · by_cases hut : u = t
    · rw [hut, hself]
      exact ⟨hon.own, hon.home, hon.hosted, hon.worker, hon.self, hon.current⟩
    · exact hrest.grounds u hut
  · by_cases hut : u = t
    · rw [hut, hself]
      cases p <;> exact hloc
    · exact hrest.places u hut
  · rw [← hplace] at halone
    exact halone

theorem Rest.close [DecidableEq T] {home₀ : ℕ → Home T} (h : Rest t home s') (hold : Inv home₀ s)
    (hplace : s'.place = s.place) (hp : s.place t = q) (hon : OnStack home s' t p)
    (hloc : Local home s' t p) (hment : p.mentions = none ∨ p.mentions = q.mentions)
    (hinit : p.initializes = none ∨ p.initializes = q.initializes) : Inv home (s'.goto t p) := by
  refine h.closeAlone hplace hon hloc fun u v b hu hv => ?_
  have hu' : (s.place u).initializes = some b := by
    by_cases hut : u = t
    · rw [hut, Function.update_self] at hu
      rw [hut, hp]
      rcases hinit with hnone | hsame
      · rw [hnone] at hu
        cases hu
      · rw [← hsame]
        exact hu
    · rw [Function.update_of_ne hut] at hu
      exact hu
  have hv' : (s.place v).mentions = some b := by
    by_cases hvt : v = t
    · rw [hvt, Function.update_self] at hv
      rw [hvt, hp]
      rcases hment with hnone | hsame
      · rw [hnone] at hv
        cases hv
      · rw [← hsame]
        exact hv
    · rw [Function.update_of_ne hvt] at hv
      exact hv
  exact hold.alone u v b hu' hv'

variable [DecidableEq T]

theorem Inv.goto (h : Inv home s) (hp : s.place t = q) (hleaves : p.leaves = q.leaves)
    (hshown : p.shown = q.shown) (hnamed : p.named = q.named) (hloc : Local home s t p)
    (hment : p.mentions = none ∨ p.mentions = q.mentions)
    (hinit : p.initializes = none ∨ p.initializes = q.initializes) : Inv home (s.goto t p) := by
  have hon := h.grounds t
  rw [hp] at hon
  exact (h.rest t).close h rfl hp (hon.move hleaves hshown hnamed) hloc hment hinit

omit [DecidableEq T] in
/-- A fiber that was initialized and whose state is idle is idle. -/
theorem Inv.idle_of_state (h : Inv home s) (hused : home a ≠ .unused) (hstate : (s.obj a).state = .idle) :
    home a = .idle := by
  have hfits := h.objs.fits a
  cases hh : home a with
  | unused => exact absurd hh hused
  | dead =>
      rw [hh] at hfits
      rw [hfits.2.1] at hstate
      cases hstate
  | idle => rfl
  | owned u r =>
      rw [hh] at hfits
      rw [hfits.2.1] at hstate
      cases r <;> cases hstate

omit [DecidableEq T] in
/-- An idle object that the thread's call is about changes. -/
theorem Inv.restIdle (h : Inv home s) {x : Home T} {r : FiberState} (ha : home a = .idle)
    (hment : (s.place t).mentions = some a)
    (hfits : Fits (T := T) .idle (s.obj a) → Fits x { s.obj a with state := r }) (hused : x ≠ .unused) :
    Rest t (Function.update home a x) (s.store a r) := by
  have hidle := h.objs.fits a
  rw [ha] at hidle
  refine (h.rest t).setObj (hfits hidle) (fun u r _ => by rw [ha]; nofun) (fun u hu hi => ?_) hused (.inl rfl)
    fun y hy hf => ?_
  · exact hu (h.alone u t a hi hment).symm
  · obtain ⟨u, hu⟩ := h.objs.freed a y hy hf
    rw [ha] at hu
    cases hu

theorem Inv.take (h : Inv home s) {k : Call} (hp : s.place t = .take a k)
    (hstate : (s.obj a).state = .idle) :
    ∃ home', Inv home' ((s.store a .running).goto t (.prepare a k)) := by
  have hloc := h.places t
  have hon := h.grounds t
  rw [hp] at hloc hon
  have hidle := h.idle_of_state hloc.1 hstate
  have hrest := h.restIdle hidle (x := .owned t .claimed) (r := .running) (by rw [hp]; rfl)
    (fun hfits => ⟨hfits.1, rfl, hfits.2.2⟩) nofun
  refine ⟨_, hrest.close h rfl hp ?_ ⟨Function.update_self .., hloc.2⟩ (.inl rfl) (.inl rfl)⟩
  exact (hon.setObj fun y hy => hon.ne_addr (by rw [hidle]; nofun) hy).move rfl rfl rfl

/-- `atomic_store(&f->state, FIBER_STATE_IDLE)` of a fiber the thread has claimed or left. -/
theorem Inv.storeIdle (h : Inv home s) {r : Role} (ha : home a = .owned t r) (hr : r ≠ .finalizing)
    (hp : s.place t = q) (hrole : r ≠ if q.leaves = true then .leaving else .executing)
    (hleaves : p.leaves = q.leaves) (hshown : p.shown = q.shown) (hnamed : p.named = q.named)
    (hloc : Local (Function.update home a .idle) (s.store a .idle) t p) (hment : p.mentions = none)
    (hinit : p.initializes = none) :
    Inv (Function.update home a .idle) ((s.store a .idle).goto t p) := by
  have hon := h.grounds t
  rw [hp] at hon
  have hfits := h.objs.fits a
  rw [ha] at hfits
  have hrest : Rest t (Function.update home a .idle) (s.store a .idle) :=
    h.restObj ha ⟨hfits.1, rfl, hfits.2.2⟩ nofun (.inl ⟨rfl, hr⟩)
  refine hrest.close h rfl hp ?_ hloc (.inl hment) (.inl hinit)
  refine (hon.setObj fun y hy => hon.ne_addr (fun heq => ?_) hy).move hleaves hshown hnamed
  rw [ha] at heq
  cases heq
  exact hrole rfl

theorem Inv.storeSuspending (h : Inv home s) {g : ℕ} (hp : s.place t = q) (hst : s.stack t = .fiber g)
    (hq : q.leaves = false) (hleaves : p.leaves = true) (hshown : p.shown = q.shown)
    (hnamed : p.named = q.named)
    (hloc : Local (Function.update home (s.host g).guestAddr (.owned t .leaving))
      (s.store (s.host g).guestAddr .suspending) t p)
    (hment : p.mentions = none) (hinit : p.initializes = none) :
    ∃ home', Inv home' ((s.store (s.host g).guestAddr .suspending).goto t p) := by
  have hon := h.grounds t
  rw [hp] at hon
  have ha := hon.home g hst
  rw [hq, if_neg nofun] at ha
  have hfits := h.objs.fits (s.host g).guestAddr
  rw [ha] at hfits
  have hrest : Rest t (Function.update home (s.host g).guestAddr (.owned t .leaving))
      (s.store (s.host g).guestAddr .suspending) :=
    h.restObj ha ⟨hfits.1, rfl, hfits.2.2⟩ nofun (.inl ⟨rfl, nofun⟩)
  refine ⟨_, hrest.close h rfl hp ⟨hon.own, fun y hy => ?_, fun y hy => ?_, hon.worker, ?_, ?_⟩ hloc
    (.inl hment) (.inl hinit)⟩
  · have hyg : (.fiber y : Endpoint T) = .fiber g := by
      rw [← hst]
      exact hy.symm
    cases hyg
    rw [hleaves, if_pos rfl]
    exact Function.update_self ..
  · have hyg : (.fiber y : Endpoint T) = .fiber g := by
      rw [← hst]
      exact hy.symm
    cases hyg
    show (Function.update s.obj _ _ (s.host g).guestAddr).host = some g
    rw [Function.update_self]
    exact hon.hosted g hst
  · rw [hnamed]
    exact hon.self
  · rw [hshown]
    exact hon.current

theorem Inv.suspend (h : Inv home s) {y g : ℕ} {k : Call} {w : T} (hp : s.place t = .suspend a y k)
    (hself : k.self = some g) (hworker : (s.host g).worker = some w) :
    ∃ home', Inv home' ((s.store (s.host g).guestAddr .suspending).goto t
      (.enter a y k w (some (s.host g).guestAddr))) := by
  have hloc := h.places t
  have hon := h.grounds t
  rw [hp] at hloc hon
  obtain ⟨hclaim, hhost, hst⟩ := hloc
  have hg : s.stack t = .fiber g := by
    rw [hst, Call.endpoint, hself]
  have hw : w = t := by
    have hworks := hon.worker g hg
    rw [hworker] at hworks
    exact Option.some.inj hworks
  have hne : a ≠ (s.host g).guestAddr := by
    rintro rfl
    have hexec := hon.home g hg
    rw [hclaim] at hexec
    cases hexec
  have hleaves : (Place.enter a y k w (some (s.host g).guestAddr)).leaves = true := by
    show k.self.isSome = true
    rw [hself]
    rfl
  refine h.storeSuspending hp hg rfl hleaves rfl rfl ⟨?_, ?_, hst, hw, ?_⟩ rfl rfl
  · rw [Function.update_of_ne hne]
    exact hclaim
  · show (Function.update s.obj _ _ a).host = some y
    rw [Function.update_of_ne hne]
    exact hhost
  · rw [Call.selfAddr, hself]
    rfl

theorem Inv.enter (h : Inv home s) {y : ℕ} {k : Call} {w : T} {release : Option ℕ}
    (hp : s.place t = .enter a y k w release) :
    Inv home ((s.setHost y { s.host y with worker := some w, inArg := k.arg, release := release }).goto t
      (.current a y k w)) := by
  have hloc := h.places t
  have hon := h.grounds t
  rw [hp] at hloc hon
  obtain ⟨hclaim, hhost, hst, hw, hrel⟩ := hloc
  have hadr := h.objs.hostAddr a y hhost
  have hne : s.stack t ≠ .fiber y := by
    intro heq
    refine hon.ne_addr ?_ heq hadr
    rw [hclaim]
    intro hc
    cases hl : (Place.enter a y k w release).leaves with
    | false =>
        rw [hl] at hc
        cases hc
    | true =>
        rw [hl] at hc
        cases hc
  have hrest : Rest t home
      (s.setHost y { s.host y with worker := some w, inArg := k.arg, release := release }) := by
    refine (h.rest t).setHost hhost (fun u r hu => ?_) rfl fun hf => .inl hf
    rw [hclaim]
    intro heq
    cases heq
    exact hu rfl
  have hselfAddr : k.selfAddr (s.setHost y { s.host y with
      worker := some w, inArg := k.arg, release := release }) = k.selfAddr s := by
    unfold Call.selfAddr
    cases hself : k.self with
    | none => rfl
    | some g =>
        have hgy : g ≠ y := by
          rintro rfl
          apply hne
          rw [hst, Call.endpoint, hself]
        show some (Function.update s.host y _ g).guestAddr = some (s.host g).guestAddr
        rw [Function.update_of_ne hgy]
  refine hrest.close h rfl hp ((hon.setHost hne).move rfl rfl rfl) ⟨hclaim, hhost, hst, hw, ?_, ?_, ?_⟩
    (.inl rfl) (.inl rfl)
  · show (Function.update s.host y _ y).worker = some t
    rw [Function.update_self, hw]
  · show (Function.update s.host y _ y).release = _
    rw [Function.update_self, hselfAddr]
    exact hrel
  · show (Function.update s.host y _ y).inArg = k.arg
    rw [Function.update_self]

theorem Inv.current (h : Inv home s) {y : ℕ} {k : Call} {w : T} (hp : s.place t = .current a y k w) :
    Inv home ({ s.setWorker w { s.worker w with current := some y } with
      tlFiberSelf := Function.update s.tlFiberSelf t (some y) }.goto t (.jump a y k)) := by
  have hloc := h.places t
  have hon := h.grounds t
  rw [hp] at hloc hon
  obtain ⟨hclaim, hhost, hst, rfl, hrest⟩ := hloc
  have hchange : Rest w home { s.setWorker w { s.worker w with current := some y } with
      tlFiberSelf := Function.update s.tlFiberSelf w (some y) } :=
    (h.rest w).congr rfl rfl rfl (fun _ hu => Function.update_of_ne hu ..) (fun _ _ => rfl)
      (fun _ hu => Function.update_of_ne hu ..) fun _ _ => rfl
  refine hchange.close h rfl hp ⟨hon.own, hon.home, hon.hosted, hon.worker, ?_, ?_⟩
    ⟨hclaim, hhost, hst, hrest⟩ (.inl rfl) (.inl rfl)
  · exact Function.update_self ..
  · show (Function.update s.worker w _ w).current = some y
    rw [Function.update_self]

/-- The context switch to a fiber: it runs now, and the fiber that switched to it is off its stack. -/
theorem Inv.jump (h : Inv home s) {y : ℕ} {k : Call} (hp : s.place t = .jump a y k)
    {resumed : ℕ → List (BitVec 64)} :
    ∃ home', Inv home' ({ s with stack := Function.update s.stack t (.fiber y), resumed }.goto t
      .finish) := by
  have hloc := h.places t
  have hon := h.grounds t
  rw [hp] at hloc hon
  obtain ⟨hclaim, hhost, hst, hworker, hrel, -⟩ := hloc
  have hadr := h.objs.hostAddr a y hhost
  have hfits := h.objs.fits a
  rw [hclaim] at hfits
  have hclaimed : Rest t (Function.update home a (.owned t .executing)) (s.setObj a (s.obj a)) :=
    h.restObj hclaim hfits nofun (.inl ⟨rfl, nofun⟩)
  have hset : s.setObj a (s.obj a) = s := by
    unfold State.setObj
    rw [Function.update_eq_self]
  rw [hset] at hclaimed
  -- the fiber that switches is another one
  have hleave : ∀ g, k.self = some g → home (s.host g).guestAddr = .owned t .leaving := by
    intro g hself
    have hl : (Place.jump a y k : Place T).leaves = true := by
      show k.self.isSome = true
      rw [hself]
      rfl
    have hhome := hon.home g (by rw [hst, Call.endpoint, hself])
    rw [hl, if_pos rfl] at hhome
    exact hhome
  have hfinal : ∃ home', Rest t home' s ∧ home' a = .owned t .executing ∧
      ∀ b, k.selfAddr s = some b → home' b = .owned t .releasing := by
    cases hself : k.self with
    | none =>
        refine ⟨_, hclaimed, Function.update_self .., fun b hb => ?_⟩
        rw [Call.selfAddr, hself] at hb
        cases hb
    | some g =>
        have hleaving := hleave g hself
        have hne : (s.host g).guestAddr ≠ a := by
          intro heq
          rw [heq, hclaim] at hleaving
          cases hleaving
        have hfits' := h.objs.fits (s.host g).guestAddr
        rw [hleaving] at hfits'
        have hreleased := hclaimed.setObj (a := (s.host g).guestAddr) (x := .owned t .releasing) hfits'
          (fun u r hu => by
            rw [Function.update_of_ne hne, hleaving]
            intro heq
            cases heq
            exact hu rfl)
          (fun u _ => h.not_initializes hleaving u) nofun (.inl rfl) (fun z hz hf => by
            obtain ⟨u, hu⟩ := h.objs.freed _ z hz hf
            rw [hleaving] at hu
            cases hu)
        have hset' : s.setObj (s.host g).guestAddr (s.obj (s.host g).guestAddr) = s := by
          unfold State.setObj
          rw [Function.update_eq_self]
        rw [hset'] at hreleased
        refine ⟨_, hreleased, ?_, fun b hb => ?_⟩
        · rw [Function.update_of_ne (Ne.symm hne), Function.update_self]
        · rw [Call.selfAddr, hself] at hb
          cases hb
          exact Function.update_self ..
  obtain ⟨home', hrest, ha, hself⟩ := hfinal
  have hnew : Function.update s.stack t (.fiber y) t = .fiber y := Function.update_self ..
  have hchange : Rest t home' { s with stack := Function.update s.stack t (.fiber y), resumed } :=
    hrest.congr rfl rfl rfl (fun _ _ => rfl) (fun _ hu => Function.update_of_ne hu ..) (fun _ _ => rfl)
      fun _ _ => rfl
  refine ⟨home', hchange.close h rfl hp (.ofFiber hnew ?_ ?_ hworker hon.self hon.current) (fun b hb => ?_)
    (.inl rfl) (.inl rfl)⟩
  · show home' (s.host y).guestAddr = _
    rw [hadr]
    exact ha
  · show (s.obj (s.host y).guestAddr).host = some y
    rw [hadr]
    exact hhost
  · have hb' : s.releaseOf (Function.update s.stack t (.fiber y) t) = some b := hb
    rw [hnew] at hb'
    refine hself b ?_
    rw [← hrel]
    exact hb'

/-- `co_finish_switch` takes the object to mark idle, on the stack of a fiber. -/
theorem Inv.finishFiber (h : Inv home s) {y b : ℕ} (hp : s.place t = .finish) (hst : s.stack t = .fiber y)
    (hrel : (s.host y).release = some b) :
    Inv home ((s.setHost y { s.host y with release := none }).goto t (.finishIdle b)) := by
  have hloc := h.places t
  have hon := h.grounds t
  rw [hp] at hloc hon
  have hb : home b = .owned t .releasing := hloc b (by rw [hst]; exact hrel)
  have hhome := hon.home y hst
  have hrest : Rest t home (s.setHost y { s.host y with release := none }) := by
    refine (h.rest t).setHost (hon.hosted y hst) (fun u r hu => ?_) rfl fun hf => .inl hf
    rw [hhome]
    intro heq
    cases heq
    exact hu rfl
  have hsame : ∀ z, s.stack t = .fiber z → (Function.update s.host y { s.host y with release := none } z) =
      { s.host z with release := none } := by
    intro z hz
    rw [hst] at hz
    cases hz
    exact Function.update_self ..
  refine hrest.close h rfl hp ⟨hon.own, fun z hz => ?_, fun z hz => ?_, fun z hz => ?_, hon.self, hon.current⟩
    hb (.inl rfl) (.inl rfl)
  · show home (Function.update s.host y _ z).guestAddr = _
    rw [hsame z hz]
    exact hon.home z hz
  · show (s.obj (Function.update s.host y _ z).guestAddr).host = some z
    rw [hsame z hz]
    exact hon.hosted z hz
  · show (Function.update s.host y _ z).worker = some t
    rw [hsame z hz]
    exact hon.worker z hz

/-- A change of the thread's worker that keeps `current`. -/
theorem Inv.setWorker (h : Inv home s) {x : FiberWorker} (hx : x.current = (s.worker t).current)
    {sent : T → List (BitVec 64)} (hp : s.place t = q) (hleaves : p.leaves = q.leaves)
    (hshown : p.shown = q.shown) (hnamed : p.named = q.named)
    (hloc : Local home { s.setWorker t x with sent } t p) (hment : p.mentions = none)
    (hinit : p.initializes = none) : Inv home ({ s.setWorker t x with sent }.goto t p) := by
  have hon := h.grounds t
  rw [hp] at hon
  have hrest : Rest t home { s.setWorker t x with sent } :=
    (h.rest t).congr rfl rfl rfl (fun _ hu => Function.update_of_ne hu ..) (fun _ _ => rfl) (fun _ _ => rfl)
      fun _ _ => rfl
  refine hrest.close h rfl hp (OnStack.move ⟨hon.own, hon.home, hon.hosted, hon.worker, hon.self, ?_⟩ hleaves
    hshown hnamed) hloc (.inl hment) (.inl hinit)
  show (Function.update s.worker t x t).current = _
  rw [Function.update_self, hx]
  exact hon.current

theorem Inv.backCurrent (h : Inv home s) {g : ℕ} {w : T} (hp : s.place t = .backCurrent g w) :
    Inv home ((s.setWorker w { s.worker w with current := none }).goto t (.backSuspend g w)) := by
  have hloc := h.places t
  have hon := h.grounds t
  rw [hp] at hloc hon
  obtain ⟨hst, rfl⟩ := hloc
  refine ((h.rest w).setWorker _).close h rfl hp ⟨hon.own, hon.home, hon.hosted, hon.worker, hon.self, ?_⟩
    ⟨hst, rfl⟩ (.inl rfl) (.inl rfl)
  show (Function.update s.worker w _ w).current = none
  rw [Function.update_self]

/-- `sceFiberReturnToThread` tells the thread which fiber to mark idle. -/
theorem Inv.backRelease (h : Inv home s) {g : ℕ} {w : T} (hp : s.place t = .backRelease g w) :
    Inv home ({ s.setWorker w { s.worker w with release := some (s.host g).guestAddr } with
      tlFiberSelf := Function.update s.tlFiberSelf t none }.goto t (.backJump g w)) := by
  have hloc := h.places t
  have hon := h.grounds t
  rw [hp] at hloc hon
  obtain ⟨hst, rfl⟩ := hloc
  have hchange : Rest w home { s.setWorker w { s.worker w with release := some (s.host g).guestAddr } with
      tlFiberSelf := Function.update s.tlFiberSelf w none } :=
    (h.rest w).congr rfl rfl rfl (fun _ hu => Function.update_of_ne hu ..) (fun _ _ => rfl)
      (fun _ hu => Function.update_of_ne hu ..) fun _ _ => rfl
  refine hchange.close h rfl hp ⟨hon.own, hon.home, hon.hosted, hon.worker, ?_, ?_⟩ ⟨hst, rfl, ?_⟩ (.inl rfl)
    (.inl rfl)
  · exact Function.update_self ..
  · show (Function.update s.worker w _ w).current = none
    rw [Function.update_self]
    exact hon.current
  · show (Function.update s.worker w _ w).release = some (s.host g).guestAddr
    rw [Function.update_self]

/-- The context switch to the thread: the fiber is off its stack. -/
theorem Inv.backJump (h : Inv home s) {g : ℕ} {w : T} (hp : s.place t = .backJump g w) :
    ∃ home', Inv home' ({ s with stack := Function.update s.stack t (.thread w) }.goto t .finish) := by
  have hloc := h.places t
  have hon := h.grounds t
  rw [hp] at hloc hon
  obtain ⟨hst, rfl, hrel⟩ := hloc
  have hleaving := hon.home g hst
  have hfits := h.objs.fits (s.host g).guestAddr
  rw [hleaving] at hfits
  have hreleased : Rest w (Function.update home (s.host g).guestAddr (.owned w .releasing))
      (s.setObj (s.host g).guestAddr (s.obj (s.host g).guestAddr)) :=
    h.restObj hleaving hfits nofun (.inl ⟨rfl, nofun⟩)
  have hset : s.setObj (s.host g).guestAddr (s.obj (s.host g).guestAddr) = s := by
    unfold State.setObj
    rw [Function.update_eq_self]
  rw [hset] at hreleased
  have hnew : Function.update s.stack w (.thread w) w = .thread w := Function.update_self ..
  have hchange : Rest w (Function.update home (s.host g).guestAddr (.owned w .releasing))
      { s with stack := Function.update s.stack w (.thread w) } :=
    hreleased.congr rfl rfl rfl (fun _ _ => rfl) (fun _ hu => Function.update_of_ne hu ..) (fun _ _ => rfl)
      fun _ _ => rfl
  refine ⟨_, hchange.close h rfl hp (.ofThread hnew hon.self hon.current) (fun b hb => ?_) (.inl rfl)
    (.inl rfl)⟩
  have hb' : s.releaseOf (Function.update s.stack w (.thread w) w) = some b := hb
  rw [hnew] at hb'
  have hrel' : (s.worker w).release = some b := hb'
  rw [hrel] at hrel'
  cases hrel'
  exact Function.update_self ..

theorem Inv.finTake (h : Inv home s) (hp : s.place t = .finTake a) (hstate : (s.obj a).state = .idle) :
    ∃ home', Inv home' ((s.store a .finalized).goto t (.finFree a)) := by
  have hloc := h.places t
  have hon := h.grounds t
  rw [hp] at hloc hon
  have hidle := h.idle_of_state hloc hstate
  have hrest := h.restIdle hidle (x := .owned t .finalizing) (r := .finalized) (by rw [hp]; rfl)
    (fun hfits => ⟨hfits.1, rfl, hfits.2.2⟩) nofun
  refine ⟨_, hrest.close h rfl hp ?_ (Function.update_self ..) (.inl rfl) (.inl rfl)⟩
  exact (hon.setObj fun y hy => hon.ne_addr (by rw [hidle]; nofun) hy).move rfl rfl rfl

theorem Inv.finFree (h : Inv home s) {y : ℕ} (hp : s.place t = .finFree a) (hy : (s.obj a).host = some y) :
    Inv home ((s.setHost y { s.host y with freed := true }).goto t (.finClear a)) := by
  have ha : home a = .owned t .finalizing := by
    have hloc := h.places t
    rw [hp] at hloc
    exact hloc
  have hon := h.grounds t
  rw [hp] at hon
  have hne : s.stack t ≠ .fiber y := by
    intro heq
    refine hon.ne_addr ?_ heq (h.objs.hostAddr a y hy)
    rw [ha]
    nofun
  have hrest : Rest t home (s.setHost y { s.host y with freed := true }) := by
    refine (h.rest t).setHost hy (fun u r hu => ?_) rfl fun _ => .inr ⟨t, ha⟩
    rw [ha]
    intro heq
    cases heq
    exact hu rfl
  exact hrest.close h rfl hp ((hon.setHost hne).move rfl rfl rfl) ha (.inl rfl) (.inl rfl)

theorem Inv.finClear (h : Inv home s) (hp : s.place t = .finClear a) :
    ∃ home', Inv home' ((s.setObj a { s.obj a with host := none, valid := false }).goto t .guest) := by
  have ha : home a = .owned t .finalizing := by
    have hloc := h.places t
    rw [hp] at hloc
    exact hloc
  have hon := h.grounds t
  rw [hp] at hon
  have hfits := h.objs.fits a
  rw [ha] at hfits
  have hrest : Rest t (Function.update home a .dead)
      (s.setObj a { s.obj a with host := none, valid := false }) :=
    h.restObj ha ⟨rfl, hfits.2.1, rfl⟩ nofun (.inr rfl)
  refine ⟨_, hrest.close h rfl hp ?_ trivial (.inl rfl) (.inl rfl)⟩
  exact (hon.setObj fun y hy => hon.ne_addr (by rw [ha]; nofun) hy).move rfl rfl rfl

/-- `fiber_initialize` writes the object, with a new host side. -/
theorem Inv.initWrite (h : Inv home s) {context : Bool} (hp : s.place t = .initWrite a context) :
    ∃ home', Inv home' ({ (s.setHost s.nextHost { guestAddr := a }).setObj a
        { valid := true, host := some s.nextHost, addrContext := context } with
      nextHost := s.nextHost + 1 }.goto t (.initIdle a)) := by
  have hloc : home a = .unused ∨ home a = .dead ∨ home a = .idle := by
    have hl := h.places t
    rw [hp] at hl
    exact hl
  have hon := h.grounds t
  rw [hp] at hon
  have hnot : ∀ u r, home a ≠ .owned u r := by
    intro u r heq
    rw [heq] at hloc
    rcases hloc with hc | hc | hc
    · cases hc
    · cases hc
    · cases hc
  have hold : ∀ b y, (s.obj b).host = some y →
      Function.update s.host s.nextHost { guestAddr := a } y = s.host y := by
    intro b y hy
    exact Function.update_of_ne (h.objs.hostNext b y hy).ne ..
  have hother : ∀ b, b ≠ a →
      Function.update s.obj a { valid := true, host := some s.nextHost, addrContext := context } b = s.obj b :=
    fun b hb => Function.update_of_ne hb ..
  have hself : Function.update s.obj a { valid := true, host := some s.nextHost, addrContext := context } a =
      { valid := true, host := some s.nextHost, addrContext := context } := Function.update_self ..
  have hrest : Rest t (Function.update home a .idle) { (s.setHost s.nextHost { guestAddr := a }).setObj a
      { valid := true, host := some s.nextHost, addrContext := context } with
      nextHost := s.nextHost + 1 } := by
    refine (h.rest t).keep ⟨fun b => ?_, fun b y hb => ?_, fun b y hb => ?_, fun b y hb hf => ?_⟩ fun u hu =>
      ⟨fun b r hb => ?_, fun b r hb => ?_, fun b r y hb hy => hold b y hy, fun b hb => ?_, fun b hb => ?_, rfl,
        rfl, rfl, rfl⟩
    · show Fits (Function.update home a .idle b) (Function.update s.obj a _ b)
      by_cases hba : b = a
      · rw [hba, Function.update_self, hself]
        exact ⟨rfl, rfl, nofun⟩
      · rw [Function.update_of_ne hba, hother b hba]
        exact h.objs.fits b
    · have hb' : (Function.update s.obj a _ b).host = some y := hb
      show (Function.update s.host s.nextHost _ y).guestAddr = b
      by_cases hba : b = a
      · rw [hba, hself] at hb'
        cases hb'
        rw [Function.update_self]
        exact hba.symm
      · rw [hother b hba] at hb'
        rw [hold b y hb']
        exact h.objs.hostAddr b y hb'
    · have hb' : (Function.update s.obj a _ b).host = some y := hb
      show y < s.nextHost + 1
      by_cases hba : b = a
      · rw [hba, hself] at hb'
        cases hb'
        exact Nat.lt_succ_self _
      · rw [hother b hba] at hb'
        exact Nat.lt_succ_of_lt (h.objs.hostNext b y hb')
    · have hb' : (Function.update s.obj a _ b).host = some y := hb
      have hf' : (Function.update s.host s.nextHost _ y).freed = true := hf
      by_cases hba : b = a
      · rw [hba, hself] at hb'
        cases hb'
        rw [Function.update_self] at hf'
        cases hf'
      · rw [hother b hba] at hb'
        rw [hold b y hb'] at hf'
        rw [Function.update_of_ne hba]
        exact h.objs.freed b y hb' hf'
    · have hne : b ≠ a := fun heq => hnot u r (by rw [← heq]; exact hb)
      rw [Function.update_of_ne hne]
      exact hb
    · have hne : b ≠ a := fun heq => hnot u r (by rw [← heq]; exact hb)
      show (Function.update s.obj a _ b).host = _
      rw [hother b hne]
    · have hne : b ≠ a := by
        rintro rfl
        have hm := h.alone u t b hb (by rw [hp]; rfl)
        exact hu hm.symm
      rw [Function.update_of_ne hne]
    · by_cases hba : b = a
      · rw [hba, Function.update_self]
        nofun
      · rw [Function.update_of_ne hba]
        exact hb
  have hkept : ∀ y, s.stack t = .fiber y →
      Function.update s.host s.nextHost { guestAddr := a } y = s.host y :=
    fun y hy => hold _ y (hon.hosted y hy)
  have hne : ∀ y, s.stack t = .fiber y → (s.host y).guestAddr ≠ a :=
    fun y hy => hon.ne_addr (hnot t _) hy
  refine ⟨_, hrest.close h rfl hp ⟨hon.own, fun y hy => ?_, fun y hy => ?_, fun y hy => ?_, hon.self,
    hon.current⟩ (Function.update_self ..) (.inr rfl) (.inr rfl)⟩
  · show Function.update home a .idle (Function.update s.host s.nextHost _ y).guestAddr = _
    rw [hkept y hy, Function.update_of_ne (hne y hy)]
    exact hon.home y hy
  · show (Function.update s.obj a _ (Function.update s.host s.nextHost _ y).guestAddr).host = some y
    rw [hkept y hy, hother _ (hne y hy)]
    exact hon.hosted y hy
  · show (Function.update s.host s.nextHost _ y).worker = some t
    rw [hkept y hy]
    exact hon.worker y hy

/-- `fiber_initialize` stores the state, which is there. -/
theorem Inv.initIdle (h : Inv home s) (hp : s.place t = .initIdle a) :
    ∃ home', Inv home' ((s.store a .idle).goto t .guest) := by
  have ha : home a = .idle := by
    have hloc := h.places t
    rw [hp] at hloc
    exact hloc
  have hon := h.grounds t
  rw [hp] at hon
  have hrest := h.restIdle ha (x := .idle) (r := .idle) (by rw [hp]; rfl)
    (fun hfits => ⟨hfits.1, rfl, hfits.2.2⟩) nofun
  refine ⟨_, hrest.close h rfl hp ?_ trivial (.inl rfl) (.inl rfl)⟩
  exact (hon.setObj fun y hy => hon.ne_addr (by rw [ha]; nofun) hy).move rfl rfl rfl

omit [DecidableEq T] in
/-- The thread's worker is not looked at but for `current`. -/
theorem OnStack.setWorker [DecidableEq T] (h : OnStack home s t p) {x : FiberWorker}
    (hx : x.current = (s.worker t).current) : OnStack home (s.setWorker t x) t p := by
  refine ⟨h.own, h.home, h.hosted, h.worker, h.self, ?_⟩
  show (Function.update s.worker t x t).current = _
  rw [Function.update_self, hx]
  exact h.current

/-- `fiber_run` and `fiber_switch` check the context and get the worker and the host stack. -/
theorem Inv.prepare (h : Inv home s) {k : Call} {ok : Bool} (hp : s.place t = .prepare a k)
    (hs : prepare s t a k ok = some s') : Inv home s' := by
  have hloc := h.places t
  have hon := h.grounds t
  rw [hp] at hloc hon
  obtain ⟨hclaim, hst⟩ := hloc
  have hfits := h.objs.fits a
  rw [hclaim] at hfits
  unfold Fiber.prepare at hs
  split at hs
  · cases hs
    exact h.goto hp rfl rfl rfl hclaim (.inl rfl) (.inl rfl)
  · have hhome : Function.update home a (.owned t .claimed) = home := by
      rw [← hclaim]
      exact Function.update_eq_self a home
    have hne : ∀ y, s.stack t = .fiber y → (s.host y).guestAddr ≠ a :=
      fun y hy => hon.ne_addr (by rw [hclaim]; nofun) hy
    have hrest : Rest t home (s.setObj a { s.obj a with addrContext := true }) := by
      have hr := h.restObj hclaim (x := .owned t .claimed) (f := { s.obj a with addrContext := true })
        ⟨hfits.1, hfits.2.1, hfits.2.2⟩ nofun (.inl ⟨rfl, nofun⟩)
      rw [hhome] at hr
      exact hr
    have hon₁ : OnStack home (s.setObj a { s.obj a with addrContext := true }) t (.prepare a k) := by
      have ho := hon.setObj (a := a) (x := .owned t .claimed) (f := { s.obj a with addrContext := true }) hne
      rw [hhome] at ho
      exact ho
    split at hs
    · obtain ⟨y, hy, rfl⟩ := Option.map_eq_some_iff.1 hs
      have hnot : s.stack t ≠ .fiber y := fun heq => hne y heq (h.objs.hostAddr a y hy)
      have hhost : ((s.setObj a { s.obj a with addrContext := true }).obj a).host = some y := by
        show (Function.update s.obj a _ a).host = some y
        rw [Function.update_self]
        exact hy
      have hequip : Rest t home (s.equip a y) := by
        refine hrest.setHost hhost (fun u r hu => ?_) rfl fun hf => .inl hf
        rw [hclaim]
        intro heq
        cases heq
        exact hu rfl
      have hon₂ : OnStack home (s.equip a y) t (.prepare a k) := hon₁.setHost hnot
      unfold State.launch
      split
      · rename_i hself
        have hleaves : (Place.enter a y k t none).leaves = (Place.prepare a k : Place T).leaves := by
          show k.self.isSome = false
          rw [hself]
          rfl
        have hrelease : none = k.selfAddr (s.equip a y) := by
          rw [Call.selfAddr, hself]
          rfl
        have hon₃ := hon₂.setWorker (x := { (s.equip a y).worker t with returnArg := 0 }) rfl
        exact (hequip.setWorker _).close h rfl hp (hon₃.move hleaves rfl rfl)
          ⟨hclaim, hhost, hst, rfl, hrelease⟩ (.inl rfl) (.inl rfl)
      · exact hequip.close h rfl hp (hon₂.move rfl rfl rfl) ⟨hclaim, hhost, hst⟩ (.inl rfl) (.inl rfl)
    · cases hs
      exact hrest.close h rfl hp (hon₁.move rfl rfl rfl) hclaim (.inl rfl) (.inl rfl)

theorem Inv.finish (h : Inv home s) (hp : s.place t = .finish) {ok : Bool}
    (hs : next s t ok = some s') : Inv home s' := by
  simp only [next, hp] at hs
  have hon := h.grounds t
  split at hs
  · rename_i y hst
    split at hs
    · cases hs
      exact h.goto hp rfl rfl rfl trivial (.inl rfl) (.inl rfl)
    · rename_i b hrel
      cases hs
      exact h.finishFiber hp hst hrel
  · rename_i u hst
    obtain rfl : u = t := hon.own u hst
    split at hs
    · cases hs
      exact h.goto hp rfl rfl rfl trivial (.inl rfl) (.inl rfl)
    · rename_i b hrel
      cases hs
      have hb : home b = .owned u .releasing := by
        have hloc := h.places u
        rw [hp] at hloc
        exact hloc b (by rw [hst]; exact hrel)
      exact h.setWorker (x := { s.worker u with release := none }) (p := .finishIdle b) rfl hp rfl rfl rfl hb rfl rfl

theorem Inv.next (h : Inv home s) {ok : Bool} (hs : next s t ok = some s') : ∃ home', Inv home' s' := by
  have hloc := h.places t
  cases hp : s.place t with
  | guest =>
      simp only [Fiber.next, hp] at hs
      cases hs
  | valid a k =>
      rw [hp] at hloc
      simp only [Fiber.next, hp] at hs
      split at hs
      · rename_i hvalid
        cases hs
        refine ⟨home, h.goto hp rfl rfl rfl ⟨fun hu => ?_, hloc⟩ (.inr rfl) (.inl rfl)⟩
        have hfits := h.objs.fits a
        rw [hu] at hfits
        rw [OrbisFiberObject.fiberValid, hfits.1] at hvalid
        cases hvalid
      · cases hs
        exact ⟨home, h.goto hp rfl rfl rfl trivial (.inl rfl) (.inl rfl)⟩
  | take a k =>
      simp only [Fiber.next, hp] at hs
      split at hs
      · rename_i hstate
        cases hs
        exact h.take hp hstate
      · cases hs
      · cases hs
        exact ⟨home, h.goto hp rfl rfl rfl trivial (.inl rfl) (.inl rfl)⟩
      · cases hs
        exact ⟨home, h.goto hp rfl rfl rfl trivial (.inl rfl) (.inl rfl)⟩
  | prepare a k =>
      simp only [Fiber.next, hp] at hs
      exact ⟨home, h.prepare hp hs⟩
  | giveBack a =>
      rw [hp] at hloc
      simp only [Fiber.next, hp] at hs
      cases hs
      exact ⟨_, h.storeIdle hloc nofun hp nofun rfl rfl rfl trivial rfl rfl⟩
  | suspend a y k =>
      simp only [Fiber.next, hp] at hs
      split at hs
      · cases hs
      · rename_i g hself
        split at hs
        · cases hs
        · rename_i w hworker
          cases hs
          exact h.suspend hp hself hworker
  | enter a y k w release =>
      simp only [Fiber.next, hp] at hs
      cases hs
      exact ⟨home, h.enter hp⟩
  | current a y k w =>
      simp only [Fiber.next, hp] at hs
      cases hs
      exact ⟨home, h.current hp⟩
  | jump a y k =>
      simp only [Fiber.next, hp] at hs
      cases hs
      exact h.jump hp
  | finish => exact ⟨home, h.finish hp hs⟩
  | finishIdle a =>
      rw [hp] at hloc
      simp only [Fiber.next, hp] at hs
      cases hs
      exact ⟨_, h.storeIdle hloc nofun hp nofun rfl rfl rfl trivial rfl rfl⟩
  | deliver =>
      have hon := h.grounds t
      rw [hp] at hon
      simp only [Fiber.next, hp] at hs
      split at hs
      · cases hs
        rename_i y _
        have hrest : Rest t home { s with
            delivered := Function.update s.delivered y (s.delivered y ++ [(s.host y).inArg]) } :=
          (h.rest t).congr rfl rfl rfl (fun _ _ => rfl) (fun _ _ => rfl) (fun _ _ => rfl) fun _ _ => rfl
        exact ⟨home, hrest.close h rfl hp ⟨hon.own, hon.home, hon.hosted, hon.worker, hon.self, hon.current⟩
          trivial (.inl rfl) (.inl rfl)⟩
      · cases hs
        rename_i u _
        have hrest : Rest t home { s with got := Function.update s.got t (s.got t ++ [(s.worker u).returnArg]) } :=
          (h.rest t).congr rfl rfl rfl (fun _ _ => rfl) (fun _ _ => rfl) (fun _ _ => rfl) fun _ _ => rfl
        exact ⟨home, hrest.close h rfl hp ⟨hon.own, hon.home, hon.hosted, hon.worker, hon.self, hon.current⟩
          trivial (.inl rfl) (.inl rfl)⟩
  | backCurrent g w =>
      simp only [Fiber.next, hp] at hs
      cases hs
      exact ⟨home, h.backCurrent hp⟩
  | backSuspend g w =>
      rw [hp] at hloc
      simp only [Fiber.next, hp] at hs
      cases hs
      exact h.storeSuspending hp hloc.1 rfl rfl rfl rfl ⟨hloc.1, hloc.2⟩ rfl rfl
  | backRelease g w =>
      simp only [Fiber.next, hp] at hs
      cases hs
      exact ⟨home, h.backRelease hp⟩
  | backJump g w =>
      simp only [Fiber.next, hp] at hs
      cases hs
      exact h.backJump hp
  | finValid a =>
      simp only [Fiber.next, hp] at hs
      split at hs
      · rename_i hvalid
        cases hs
        refine ⟨home, h.goto hp rfl rfl rfl (fun hu => ?_) (.inr rfl) (.inl rfl)⟩
        have hfits := h.objs.fits a
        rw [hu] at hfits
        rw [OrbisFiberObject.fiberValid, hfits.1] at hvalid
        cases hvalid
      · cases hs
        exact ⟨home, h.goto hp rfl rfl rfl trivial (.inl rfl) (.inl rfl)⟩
  | finTake a =>
      simp only [Fiber.next, hp] at hs
      split at hs
      · rename_i hstate
        cases hs
        exact h.finTake hp hstate
      · cases hs
      · cases hs
        exact ⟨home, h.goto hp rfl rfl rfl trivial (.inl rfl) (.inl rfl)⟩
      · cases hs
        exact ⟨home, h.goto hp rfl rfl rfl trivial (.inl rfl) (.inl rfl)⟩
  | finFree a =>
      simp only [Fiber.next, hp] at hs
      split at hs
      · cases hs
      · rename_i y hy
        cases hs
        exact ⟨home, h.finFree hp hy⟩
  | finClear a =>
      simp only [Fiber.next, hp] at hs
      cases hs
      exact h.finClear hp
  | initWrite a context =>
      simp only [Fiber.next, hp] at hs
      cases hs
      exact h.initWrite hp
  | initIdle a =>
      simp only [Fiber.next, hp] at hs
      cases hs
      exact h.initIdle hp

omit [DecidableEq T] in
/-- Guest code runs on the stack of the fiber that `tl_fiber_self` names. -/
theorem Inv.stack_of_self (h : Inv home s) {g : ℕ} (hp : s.place t = .guest)
    (hself : s.tlFiberSelf t = some g) : s.stack t = .fiber g := by
  have hon := (h.grounds t).self
  rw [hp, hself] at hon
  cases hst : s.stack t with
  | thread u =>
      rw [hst] at hon
      cases hon
  | fiber y =>
      rw [hst] at hon
      cases hon
      rfl

theorem Inv.begin (h : Inv home s) (hp : s.place t = .guest) (hleaves : p.leaves = false)
    (hshown : p.shown = none) (hnamed : p.named = none) (hloc : Local home s t p)
    (hment : p.mentions = some a) (hfree : ∀ u, (s.place u).initializes ≠ some a)
    (hinit : p.initializes = none ∨ p.initializes = some a ∧ ∀ u, (s.place u).mentions ≠ some a) :
    Inv home (s.goto t p) := by
  have hon := h.grounds t
  rw [hp] at hon
  refine (h.rest t).closeAlone rfl (hon.move hleaves hshown hnamed) hloc fun u v b hu hv => ?_
  by_cases hut : u = t
  · rw [hut, Function.update_self] at hu
    rcases hinit with hnone | ⟨hsome, hother⟩
    · rw [hnone] at hu
      cases hu
    · rw [hsome] at hu
      cases hu
      by_cases hvt : v = t
      · rw [hut, hvt]
      · rw [Function.update_of_ne hvt] at hv
        exact absurd hv (hother v)
  · rw [Function.update_of_ne hut] at hu
    by_cases hvt : v = t
    · rw [hvt, Function.update_self, hment] at hv
      cases hv
      exact absurd hu (hfree u)
    · rw [Function.update_of_ne hvt] at hv
      exact h.alone u v b hu hv

/-- **Every step whose initializations are alone keeps the invariant.** -/
theorem Inv.exec (h : Inv home s) {act : Act T} (hok : Alone s act) (hs : exec s act = some s') :
    ∃ home', Inv home' s' := by
  cases act with
  | fiberInitialize t a context =>
      simp only [Fiber.exec] at hs
      split at hs
      · rename_i hp
        split at hs
        · cases hs
          exact ⟨home, h⟩
        · cases hs
          obtain ⟨hother, hstate⟩ := hok
          have hfree : ∀ u, (s.place u).initializes ≠ some a := by
            intro u hu
            apply hother u
            cases hpu : s.place u with
            | initWrite b c | initIdle b =>
                rw [hpu] at hu
                exact hu
            | _ =>
                rw [hpu] at hu
                cases hu
          refine ⟨home, h.begin hp rfl rfl rfl ?_ rfl hfree (.inr ⟨rfl, hother⟩)⟩
          show home a = .unused ∨ home a = .dead ∨ home a = .idle
          have hfits := h.objs.fits a
          cases hh : home a with
          | unused => exact .inl rfl
          | dead => exact .inr (.inl rfl)
          | idle => exact .inr (.inr rfl)
          | owned u r =>
              rw [hh] at hfits
              have hidle := hstate hfits.1
              rw [hfits.2.1] at hidle
              cases r <;> cases hidle
      · cases hs
  | run t a arg attach contextOk =>
      simp only [Fiber.exec] at hs
      split at hs
      · rename_i hp
        split at hs
        · cases hs
          exact ⟨home, h⟩
        · rename_i hself
          split at hs
          · cases hs
            exact ⟨home, h⟩
          · cases hs
            refine ⟨home, h.begin hp rfl rfl rfl ?_ rfl hok (.inl rfl)⟩
            have hon := h.grounds t
            rw [hp] at hon
            show s.stack t = .thread t
            have hnone := hon.self
            rw [not_not.1 hself] at hnone
            cases hst : s.stack t with
            | thread u => rw [hon.own u hst]
            | fiber y =>
                rw [hst] at hnone
                cases hnone
      · cases hs
  | switch t a arg attach contextOk =>
      simp only [Fiber.exec] at hs
      split at hs
      · rename_i hp
        split at hs
        · cases hs
          exact ⟨home, h⟩
        · rename_i g hself
          split at hs
          · cases hs
            exact ⟨home, h⟩
          · cases hs
            exact ⟨home, h.begin hp rfl rfl rfl (h.stack_of_self hp hself) rfl hok (.inl rfl)⟩
      · cases hs
  | returnToThread t arg =>
      simp only [Fiber.exec] at hs
      split at hs
      · rename_i hp
        split at hs
        · cases hs
          exact ⟨home, h⟩
        · rename_i g hself
          have hst := h.stack_of_self hp hself
          split at hs
          · cases hs
          · rename_i w hworker
            obtain rfl : w = t := by
              have hworks := (h.grounds t).worker g hst
              rw [hworker] at hworks
              exact Option.some.inj hworks
            cases hs
            exact ⟨home, h.setWorker (x := { s.worker w with returnArg := arg }) (p := .backCurrent g w) rfl hp
              rfl rfl rfl ⟨hst, rfl⟩ rfl rfl⟩
      · cases hs
  | finalize t a =>
      simp only [Fiber.exec] at hs
      split at hs
      · rename_i hp
        split at hs
        · cases hs
          exact ⟨home, h⟩
        · cases hs
          exact ⟨home, h.begin hp rfl rfl rfl trivial rfl hok (.inl rfl)⟩
      · cases hs
  | next t ok => exact h.next hs

end Steps

end PS4Recomp.Runtime.Fiber
