import PS4Recomp.Runtime.GuestThread

/-!
# Guest threads: where the objects are

Every object is at one place of its life — with its creator, in `g_threads`, in `g_gc_list`, with a
collector, or freed — and a thread touches only objects that are in a list or its own to make.

* `Home` — the places of an object's life, `Role` — what a thread does that owns one;
* `View` — what a thread's place says about the objects; most steps keep it;
* `Careful` — a collector takes an object only when nobody uses it any more, and `pthread_create` fails
  only for a thread created detached;
* `Inv` — the invariant, with a lemma for each kind of step that keeps it;
* **`Inv.exec`** — every careful step keeps it.
-/

namespace PS4Recomp.Runtime.GuestThread

open Library.Transition

/-- What the thread that owns an object does with it: `do_create_thread` before and after
`register_thread`, `try_collect_locked` before it moves the object. -/
inductive Role where
  | making
  | spawning
  | moving
  deriving DecidableEq

/-- Where an object is in its life. -/
inductive Home where
  | unborn
  | owned (a : ℕ) (r : Role)
  | registered
  | listed
  | taken (a : ℕ)
  | freed
  deriving DecidableEq

def Role.inThreads : Role → Bool
  | .making => false
  | .spawning => true
  | .moving => true

/-- The object is in `g_threads`. -/
def Home.inThreads : Home → Bool
  | .unborn => false
  | .owned _ r => r.inThreads
  | .registered => true
  | .listed => false
  | .taken _ => false
  | .freed => false

/-- The object is in `g_threads` or `g_gc_list`. -/
def Home.live : Home → Bool
  | .unborn => false
  | .owned _ r => r.inThreads
  | .registered => true
  | .listed => true
  | .taken _ => false
  | .freed => false

/-- What the place of a thread says: the object it owns, the objects it collects, whether its own object
is not marked dead yet, whether its value is stored and whether it is published, the object it waits for,
and the join it is going to return. -/
structure View where
  claim : Option (ℕ × Role) := none
  taken : List ℕ := []
  working : Bool := true
  stored : Bool := false
  finished : Bool := false
  joins : Option ℕ := none
  returns : Option (ℕ × BitVec 64) := none

def Collecting.view (o : ℕ) : Collecting → View
  | .exit => { working := false, stored := true }
  | .join v => { returns := some (o, v) }
  | .detach | .create => {}

def Returning.returns : Returning → Option (ℕ × BitVec 64)
  | .join o v => some (o, v)
  | .detach | .create _ => none

def Place.view : Place → View
  | .unborn => { working := false }
  | .exitMark => { stored := true }
  | .exitTerminate => { working := false, stored := true }
  | .exitBroadcast | .exitUnlock | .exitHost | .ended => { working := false, finished := true }
  | .collectMove o k => { k.view o with claim := some (o, .moving) }
  | .collectUnlock o k => k.view o
  | .gather k => { returns := k.returns }
  | .reclaim reclaimList k => { taken := reclaimList, returns := k.returns }
  | .joinUnlock o | .joinWait o | .joinSleep o | .joinLeave o | .joinRead o | .joinHost o _
  | .joinMark o _ => { joins := some o }
  | .createRegister o => { claim := some (o, .making) }
  | .createSpawn o | .createFail o => { claim := some (o, .spawning) }
  | .starting | .running | .joinCheck _ | .detachCheck _ | .refuse _ | .createAlloc _ | .createDetach _
  | .createReady _ => {}

theorem Place.view_taken (p : Place) : p.view.taken = p.taken := by
  cases p with
  | collectMove o k => cases k <;> rfl
  | collectUnlock o k => cases k <;> rfl
  | _ => rfl

/-- The condition on a step: a collector takes an object off the list only when no thread uses it, and
`pthread_create` fails only for a thread whose object is detached. -/
def Careful (s : State) : Act → Prop
  | .next a =>
      match s.place a with
      | .gather _ => ∀ o ∈ s.gcList, (s.obj o).terminated = true → ∀ b < s.next, ¬ Uses s b o
      | _ => True
  | .spawn a false =>
      match s.place a with
      | .createSpawn o => (s.obj o).detached = true
      | _ => True
  | _ => True

instance (s : State) (act : Act) : Decidable (Careful s act) := by
  unfold Careful
  split
  · split <;> infer_instance
  · split <;> infer_instance
  · infer_instance

/-- Where the objects are. -/
structure Inv (home : ℕ → Home) (s : State) : Prop where
  threads : ∀ o, o ∈ s.threads ↔ (home o).inThreads = true
  threadsNodup : s.threads.Nodup
  gcList : ∀ o, o ∈ s.gcList ↔ home o = .listed
  gcNodup : s.gcList.Nodup
  claim : ∀ a o r, (s.place a).view.claim = some (o, r) ↔ home o = .owned a r
  taken : ∀ a o, o ∈ (s.place a).view.taken ↔ home o = .taken a
  takenNodup : ∀ a, (s.place a).view.taken.Nodup
  released : ∀ o, s.released o = if home o = .freed then 1 else 0
  target : ∀ a o, (s.place a).target = some o → (home o).live = true ∨ home o = .owned a .making
  own : ∀ a, (s.place a).usesOwn = true → (home a).live = true
  next : ∀ o, s.next ≤ o → home o = .unborn ∧ s.place o = .unborn
  working : ∀ a, (s.place a).view.working = true → (s.obj a).dead = false
  making : ∀ a o, home o = .owned a .making → (s.obj o).dead = false ∧ s.place o = .unborn
  spawning : ∀ a o, home o = .owned a .spawning → (s.obj o).dead = false ∧ s.place o = .unborn
  moving : ∀ a o, home o = .owned a .moving → (s.obj o).shouldCollect = true
  listed : ∀ o, home o = .listed → (s.obj o).shouldCollect = true
  createFail : ∀ a o, s.place a = .createFail o → (s.obj o).detached = true
  failing : ∀ a o, s.place a = .collectUnlock o .create → home o = .listed
  failed : ∀ o ∈ s.failed, home o = .listed ∨ (∃ a, home o = .taken a) ∨ home o = .freed

/-- A move of a thread that runs: its new place says the same about the objects, but for what it has done
with its own. -/
structure Quiet (s : State) (a : ℕ) (p : Place) : Prop where
  born : s.place a ≠ .unborn
  claim : p.view.claim = (s.place a).view.claim
  taken : p.view.taken = (s.place a).view.taken
  working : p.view.working = true → (s.place a).view.working = true
  own : p.usesOwn = true → (s.place a).usesOwn = true
  target : ∀ o, p.target = some o → (s.place a).target = some o ∨ o ∈ s.threads
  createFail : ∀ o, p = .createFail o → (s.obj o).detached = true
  failing : ∀ o, p ≠ .collectUnlock o .create

theorem Quiet.of_view {s : State} {a : ℕ} {p q : Place} (hp : s.place a = q) (hborn : q ≠ .unborn)
    (hview : p.view = q.view) (hown : p.usesOwn = true → q.usesOwn = true)
    (htarget : p.target = q.target ∨ p.target = none) (hfail : ∀ o, p ≠ .createFail o)
    (hfailing : ∀ o, p ≠ .collectUnlock o .create) : Quiet s a p where
  born := by rw [hp]; exact hborn
  claim := by rw [hp, hview]
  taken := by rw [hp, hview]
  working := by rw [hp, hview]; exact id
  own := by rw [hp]; exact hown
  target o ho := by
    rcases htarget with heq | hnone
    · rw [hp]
      exact .inl (heq ▸ ho)
    · rw [hnone] at ho
      cases ho
  createFail o ho := absurd ho (hfail o)
  failing := hfailing

attribute [local grind =] Home.live Home.inThreads Role.inThreads Function.update_apply

namespace Inv

variable {home : ℕ → Home} {s : State} {a o : ℕ} {p : Place}

theorem live_of_mem (h : Inv home s) (ho : o ∈ s.threads) : (home o).live = true := by
  have hin := (h.threads o).1 ho
  cases hh : home o with
  | owned b r => cases r <;> grind
  | _ => grind

/-- A thread moves on: its fields that decide about the collection stay. -/
theorem quiet (h : Inv home s) (obj : ℕ → RecompThread) {exited joined}
    (hobj : ∀ o, (obj o).dead = (s.obj o).dead ∧ (obj o).refcount = (s.obj o).refcount ∧
      (obj o).detached = (s.obj o).detached) (hq : Quiet s a p) :
    Inv home { s with obj, exited, joined, place := Function.update s.place a p } := by
  obtain ⟨hborn, hclaim, htaken, hworking, hown, htarget, hfail, hfailing⟩ := hq
  have hcollect : ∀ o, (obj o).shouldCollect = (s.obj o).shouldCollect := by
    intro o
    rw [RecompThread.shouldCollect, (hobj o).1, (hobj o).2.1, (hobj o).2.2]
    rfl
  constructor
  case threads => exact h.threads
  case threadsNodup => exact h.threadsNodup
  case gcList => exact h.gcList
  case gcNodup => exact h.gcNodup
  case released => exact h.released
  case failed => exact h.failed
  case claim => grind [h.claim]
  case taken => grind [h.taken]
  case takenNodup => grind [h.takenNodup]
  case target =>
    intro b o' hb
    by_cases hba : b = a
    · rw [hba] at hb ⊢
      rcases htarget o' (by grind) with htar | hmem
      · exact h.target a o' htar
      · exact .inl (h.live_of_mem hmem)
    · exact h.target b o' (by grind)
  case own => grind [h.own]
  case next => grind [h.next]
  case working => grind [h.working]
  case making => grind [h.making]
  case spawning => grind [h.spawning]
  case moving => grind [h.moving]
  case listed => grind [h.listed]
  case createFail => grind [h.createFail]
  case failing => grind [h.failing]

/-- Nobody uses an object that is not in a list or its creator's. -/
theorem not_uses (h : Inv home s) (hlive : (home o).live = false)
    (hmaking : ∀ b, home o ≠ .owned b .making) (b : ℕ) : ¬ Uses s b o := by
  rintro (htar | ⟨rfl, hown⟩)
  · rcases h.target b o htar with hl | hm
    · rw [hl] at hlive
      cases hlive
    · exact hmaking b hm
  · rw [h.own b hown] at hlive
    cases hlive

/-- `try_collect_locked`, after a change that made the object collectable or did not. -/
theorem settle (h : Inv home s) {t : RecompThread} {k : Collecting} (hborn : s.place a ≠ .unborn)
    (hclaim : (s.place a).view.claim = none) (htaken : (s.place a).view.taken = [])
    (hworking : (k.view o).working = true → (s.place a).view.working = true)
    (hown : (s.place a).usesOwn = true) (hlive : (home o).live = true)
    (hnot : (s.obj o).shouldCollect = false) (hk : k ≠ .create)
    (hflag : (s.obj o).detached = true → t.detached = true)
    (hdead : t.dead = (s.obj o).dead ∨ o = a ∧ (k.view o).working = false) :
    ∃ home', Inv home' ((s.setObj o t).tryCollect a o k) := by
  have hhome : home o = .registered ∨ ∃ b, home o = .owned b .spawning := by
    have hlisted := h.listed o
    have hmoving := h.moving
    cases hh : home o with
    | owned b r => cases r <;> grind
    | _ => grind
  have hobj : (s.setObj o t).obj o = t := Function.update_self ..
  have hkt : (k.view o).taken = [] := by cases k <;> rfl
  have hkc : (k.view o).claim = none := by cases k <;> rfl
  unfold State.tryCollect
  rw [hobj]
  split
  · rename_i hshould
    have hreg : home o = .registered := by
      rcases hhome with hreg | ⟨b, hb⟩
      · exact hreg
      · have := h.spawning b o hb
        grind [RecompThread.shouldCollect]
    have hpt : (Place.collectMove o k).view.taken = [] := hkt
    have hpc : (Place.collectMove o k).view.claim = some (o, .moving) := rfl
    have hpw : (Place.collectMove o k).view.working = (k.view o).working := rfl
    have hpu : (Place.collectMove o k).usesOwn = true := rfl
    have hpo : (Place.collectMove o k).target = some o := rfl
    refine ⟨Function.update home o (.owned a .moving), ?_⟩
    constructor
    all_goals simp only [State.goto, State.setObj]
    case threads => grind [h.threads]
    case threadsNodup => exact h.threadsNodup
    case gcList => grind [h.gcList]
    case gcNodup => exact h.gcNodup
    case claim => grind [h.claim]
    case taken => grind [h.taken]
    case takenNodup => grind [h.takenNodup]
    case released => grind [h.released]
    case target => grind [h.target]
    case own => grind [h.own]
    case next => grind [h.next]
    case working => grind [h.working]
    case making => grind [h.making]
    case spawning => grind [h.spawning]
    case moving => grind [h.moving]
    case listed => grind [h.listed]
    case createFail => grind [h.createFail, h.claim]
    case failing => grind [h.failing]
    case failed => grind [h.failed]
  · have hpu : (Place.collectUnlock o k).usesOwn = true := rfl
    have hpo : (Place.collectUnlock o k).target = some o := rfl
    have hpv : (Place.collectUnlock o k).view = k.view o := rfl
    refine ⟨home, ?_⟩
    constructor
    all_goals simp only [State.goto, State.setObj]
    case threads => exact h.threads
    case threadsNodup => exact h.threadsNodup
    case gcList => exact h.gcList
    case gcNodup => exact h.gcNodup
    case claim => grind [h.claim]
    case taken => grind [h.taken]
    case takenNodup => grind [h.takenNodup]
    case released => exact h.released
    case target => grind [h.target]
    case own => grind [h.own]
    case next => grind [h.next]
    case working => grind [h.working]
    case making => grind [h.making]
    case spawning => grind [h.spawning]
    case moving => grind [h.moving]
    case listed => grind [h.listed]
    case createFail => grind [h.createFail]
    case failing => grind [h.failing]
    case failed => exact h.failed

/-- A creation that failed marks its object, which is collected. -/
theorem failed_marked (h : Inv home s) {t : RecompThread} (hp : s.place a = .createFail o)
    (ht : t.shouldCollect = true) :
    ∃ home', Inv home' ((s.setObj o t).tryCollect a o .create) := by
  have hspawning := (h.claim a o .spawning).1 (by rw [hp]; rfl)
  have hborn := h.spawning a o hspawning
  have hobj : (s.setObj o t).obj o = t := Function.update_self ..
  have hao : a ≠ o := fun heq => by grind
  have hvu : Place.unborn.view.working = false := rfl
  have hown := h.own a (by rw [hp]; rfl)
  have hpv : (Place.collectMove o .create).view = { claim := some (o, .moving) } := rfl
  have hpu : (Place.collectMove o .create).usesOwn = true := rfl
  have hpo : (Place.collectMove o .create).target = some o := rfl
  have hwork := h.working a (by rw [hp]; rfl)
  have htaken := h.taken a
  have hpt : (s.place a).view.taken = [] := by rw [hp]; rfl
  have hpc : (s.place a).view.claim = some (o, .spawning) := by rw [hp]; rfl
  unfold State.tryCollect
  rw [hobj, if_pos ht]
  refine ⟨Function.update home o (.owned a .moving), ?_⟩
  constructor
  all_goals simp only [State.goto, State.setObj]
  case threads => grind [h.threads]
  case threadsNodup => exact h.threadsNodup
  case gcList => grind [h.gcList]
  case gcNodup => exact h.gcNodup
  case claim => grind [h.claim]
  case taken => grind [h.taken]
  case takenNodup => grind [h.takenNodup]
  case released => grind [h.released]
  case target => grind [h.target]
  case own => grind [h.own]
  case next => grind [h.next]
  case working => grind [h.working]
  case making => grind [h.making]
  case spawning => grind [h.spawning]
  case moving => grind [h.moving]
  case listed => grind [h.listed]
  case createFail => grind [h.createFail, RecompThread.shouldCollect]
  case failing => grind [h.failing]
  case failed => grind [h.failed]

/-- `try_collect_locked` moves the object from `g_threads` to `g_gc_list`. -/
theorem collectMove (h : Inv home s) {k : Collecting} (hp : s.place a = .collectMove o k) :
    ∃ home', Inv home' (s.collectMove a o k) := by
  have hmoving := (h.claim a o .moving).1 (by rw [hp]; rfl)
  have hshould := h.moving a o hmoving
  have hkt : (k.view o).taken = [] := by cases k <;> rfl
  have hkc : (k.view o).claim = none := by cases k <;> rfl
  have hpv : (Place.collectUnlock o k).view = k.view o := rfl
  have hpu : (Place.collectUnlock o k).usesOwn = true := rfl
  have hpo : (Place.collectUnlock o k).target = some o := rfl
  have hpt : (s.place a).view.taken = [] := by rw [hp]; exact hkt
  have hpc : (s.place a).view.claim = some (o, .moving) := by rw [hp]; rfl
  have hpw : (s.place a).view.working = (k.view o).working := by rw [hp]; rfl
  have hpn : (s.place a).target = some o := by rw [hp]; rfl
  have hps : (s.place a).usesOwn = true := by rw [hp]; rfl
  unfold State.collectMove
  rw [if_pos hshould]
  refine ⟨Function.update home o .listed, ?_⟩
  constructor
  all_goals simp only [State.goto]
  case threads => grind [h.threads, h.threadsNodup]
  case threadsNodup => exact h.threadsNodup.erase o
  case gcList => grind [h.gcList]
  case gcNodup => grind [h.gcNodup, h.gcList]
  case claim => grind [h.claim]
  case taken => grind [h.taken]
  case takenNodup => grind [h.takenNodup]
  case released => grind [h.released]
  case target => grind [h.target]
  case own => grind [h.own]
  case next => grind [h.next]
  case working => grind [h.working]
  case making => grind [h.making]
  case spawning => grind [h.spawning]
  case moving => grind [h.moving]
  case listed => grind [h.listed]
  case createFail => grind [h.createFail]
  case failing => grind [h.failing]
  case failed => grind [h.failed]

/-- `recomp_thread_collect` takes the objects of terminated threads that nobody uses. -/
theorem gather (h : Inv home s) {k : Returning} (hp : s.place a = .gather k)
    (hfree : ∀ o ∈ s.gcList, (s.obj o).terminated = true → ∀ b < s.next, ¬ Uses s b o) :
    ∃ home', Inv home' (s.gather a k) := by
  have hpt : (s.place a).view.taken = [] := by rw [hp]; rfl
  have hpc : (s.place a).view.claim = none := by rw [hp]; rfl
  have hpw : (s.place a).view.working = true := by rw [hp]; rfl
  have hps : (s.place a).usesOwn = true := by rw [hp]; rfl
  have hunused : ∀ b o, o ∈ s.gcList → (s.obj o).terminated = true → ¬ Uses s b o := by
    intro b o ho hterm
    by_cases hb : b < s.next
    · exact hfree o ho hterm b hb
    · have hborn := (h.next b (by omega)).2
      rintro (htar | ⟨-, hown⟩)
      · rw [hborn] at htar
        cases htar
      · rw [hborn] at hown
        cases hown
  have hgt : ∀ l, (Place.reclaim l k).view.taken = l := fun _ => rfl
  have hgc : ∀ l, (Place.reclaim l k).view.claim = none := fun _ => rfl
  have hgu : ∀ l, (Place.reclaim l k).usesOwn = true := fun _ => rfl
  have hgo : ∀ l, (Place.reclaim l k).target = none := fun _ => rfl
  unfold Uses at hunused
  refine ⟨fun o => if o ∈ s.gcList ∧ (s.obj o).terminated = true then .taken a else home o, ?_⟩
  constructor
  all_goals simp only [State.gather, State.goto]
  case threads => grind [h.threads, h.gcList]
  case threadsNodup => exact h.threadsNodup
  case gcList => grind [h.gcList]
  case gcNodup => exact h.gcNodup.filter _
  case claim => grind [h.claim, h.gcList]
  case taken =>
    intro b o
    have hold := h.taken b o
    by_cases hb : b = a
    · rw [hb, hpt] at hold
      rw [hb, Function.update_self, hgt, List.mem_reverse, List.mem_filter]
      grind
    · rw [Function.update_of_ne hb, hold]
      grind [h.gcList]
  case takenNodup =>
    intro b
    by_cases hb : b = a
    · rw [hb, Function.update_self]
      exact List.nodup_reverse.2 (h.gcNodup.filter _)
    · rw [Function.update_of_ne hb]
      exact h.takenNodup b
  case released => grind [h.released, h.gcList]
  case target => grind [h.target, h.gcList]
  case own => grind [h.own, h.gcList]
  case next => grind [h.next, h.gcList]
  case working => grind [h.working]
  case making => grind [h.making]
  case spawning => grind [h.spawning]
  case moving => grind [h.moving]
  case listed => grind [h.listed, h.gcList]
  case createFail => grind [h.createFail]
  case failing => grind [h.failing, h.gcList, Place.target]
  case failed => grind [h.failed, h.gcList]

/-- `recomp_thread_collect` frees an object it has taken. -/
theorem free (h : Inv home s) {l : List ℕ} {k : Returning} (hp : s.place a = .reclaim (o :: l) k) :
    ∃ home', Inv home' ((s.free o).goto a (.reclaim l k)) := by
  have hpt : (s.place a).view.taken = o :: l := by rw [hp]; rfl
  have hpc : (s.place a).view.claim = none := by rw [hp]; rfl
  have hpw : (s.place a).view.working = true := by rw [hp]; rfl
  have hps : (s.place a).usesOwn = true := by rw [hp]; rfl
  have htaken := (h.taken a o).1 (by rw [hpt]; exact List.mem_cons_self)
  have hnodup := h.takenNodup a
  rw [hpt] at hnodup
  have hgt : (Place.reclaim l k).view.taken = l := rfl
  have hgc : (Place.reclaim l k).view.claim = none := rfl
  have hgu : (Place.reclaim l k).usesOwn = true := rfl
  have hgo : (Place.reclaim l k).target = none := rfl
  have hunused := h.not_uses (o := o) (by rw [htaken]; rfl) fun b => by rw [htaken]; exact nofun
  unfold Uses at hunused
  refine ⟨Function.update home o .freed, ?_⟩
  constructor
  all_goals simp only [State.free, State.goto]
  case threads => grind [h.threads]
  case threadsNodup => exact h.threadsNodup
  case gcList => grind [h.gcList]
  case gcNodup => exact h.gcNodup
  case claim => grind [h.claim]
  case taken => grind [h.taken]
  case takenNodup => grind [h.takenNodup]
  case released => grind [h.released]
  case target => grind [h.target]
  case own => grind [h.own]
  case next => grind [h.next]
  case working => grind [h.working]
  case making => grind [h.making]
  case spawning => grind [h.spawning]
  case moving => grind [h.moving]
  case listed => grind [h.listed]
  case createFail => grind [h.createFail]
  case failing => grind [h.failing]
  case failed => grind [h.failed]

theorem register (h : Inv home s) (hp : s.place a = .createRegister o) :
    ∃ home', Inv home' ({ s with threads := o :: s.threads }.goto a (.createSpawn o)) := by
  have hpv : (s.place a).view = { claim := some (o, .making) } := by rw [hp]; rfl
  have hps : (s.place a).usesOwn = true := by rw [hp]; rfl
  have hmaking := (h.claim a o .making).1 (by rw [hpv])
  have hgv : (Place.createSpawn o).view = { claim := some (o, .spawning) } := rfl
  have hgu : (Place.createSpawn o).usesOwn = true := rfl
  have hgo : (Place.createSpawn o).target = some o := rfl
  refine ⟨Function.update home o (.owned a .spawning), ?_⟩
  constructor
  all_goals simp only [State.goto]
  case threads => grind [h.threads]
  case threadsNodup => grind [h.threads, h.threadsNodup]
  case gcList => grind [h.gcList]
  case gcNodup => exact h.gcNodup
  case claim =>
    intro b o' r
    have hold := h.claim b o' r
    grind
  case taken =>
    intro b o'
    have hold := h.taken b o'
    grind
  case takenNodup => grind [h.takenNodup]
  case released => grind [h.released]
  case target => grind [h.target]
  case own => grind [h.own]
  case next => grind [h.next]
  case working => grind [h.working]
  case making => grind [h.making]
  case spawning => grind [h.spawning, h.making]
  case moving => grind [h.moving]
  case listed => grind [h.listed]
  case createFail => grind [h.createFail]
  case failing => grind [h.failing]
  case failed => grind [h.failed]

theorem spawn (h : Inv home s) (hp : s.place a = .createSpawn o) :
    ∃ home', Inv home' ((s.goto o .starting).goto a (.createDetach o)) := by
  have hpv : (s.place a).view = { claim := some (o, .spawning) } := by rw [hp]; rfl
  have hps : (s.place a).usesOwn = true := by rw [hp]; rfl
  have hspawning := (h.claim a o .spawning).1 (by rw [hpv])
  have hborn := h.spawning a o hspawning
  have huv : Place.unborn.view = { working := false } := rfl
  have hsv : Place.starting.view = {} := rfl
  have hst : Place.starting.target = none := rfl
  have hgv : (Place.createDetach o).view = {} := rfl
  have hgu : (Place.createDetach o).usesOwn = true := rfl
  have hgo : (Place.createDetach o).target = some o := rfl
  refine ⟨Function.update home o .registered, ?_⟩
  constructor
  all_goals simp only [State.goto]
  case threads => grind [h.threads]
  case threadsNodup => exact h.threadsNodup
  case gcList => grind [h.gcList]
  case gcNodup => exact h.gcNodup
  case claim =>
    intro b o' r
    have hold := h.claim b o' r
    grind
  case taken =>
    intro b o'
    have hold := h.taken b o'
    grind
  case takenNodup => grind [h.takenNodup]
  case released => grind [h.released]
  case target => grind [h.target]
  case own => grind [h.own]
  case next => grind [h.next]
  case working => grind [h.working]
  case making => grind [h.making]
  case spawning => grind [h.spawning]
  case moving => grind [h.moving]
  case listed => grind [h.listed]
  case createFail => grind [h.createFail]
  case failing => grind [h.failing]
  case failed => grind [h.failed]

/-- Nobody is at the end of a creation that has not begun. -/
theorem not_createFail (h : Inv home s) (b : ℕ) : s.place b ≠ .createFail s.next := by
  intro hb
  have hspawning := (h.claim b s.next .spawning).1 (by rw [hb]; rfl)
  rw [(h.next s.next le_rfl).1] at hspawning
  cases hspawning

/-- A new object, of the thread that creates it or freed at once. -/
theorem calloc (h : Inv home s) {detached : Bool} {H : Home} {released failed} (hp : s.place a = .createAlloc detached)
    (hcase : p = .createRegister s.next ∧ H = .owned a .making ∧ released = s.released ∧ failed = s.failed ∨
      p = .running ∧ H = .freed ∧ released = Function.update s.released s.next (s.released s.next + 1) ∧
        failed = s.next :: s.failed) :
    Inv (Function.update home s.next H) ({ s.calloc detached with released, failed }.goto a p) := by
  have hpv : (s.place a).view = {} := by rw [hp]; rfl
  have hps : (s.place a).usesOwn = true := by rw [hp]; rfl
  have hfresh := h.next s.next le_rfl
  have hgv : (Place.createRegister s.next).view = { claim := some (s.next, .making) } := rfl
  have hgu : (Place.createRegister s.next).usesOwn = true := rfl
  have hgo : (Place.createRegister s.next).target = some s.next := rfl
  have hrv : Place.running.view = {} := rfl
  have hro : Place.running.target = none := rfl
  constructor
  all_goals simp only [State.calloc, State.goto]
  case threads => grind [h.threads]
  case threadsNodup => exact h.threadsNodup
  case gcList => grind [h.gcList]
  case gcNodup => exact h.gcNodup
  case claim =>
    intro b o' r
    have hold := h.claim b o' r
    grind
  case taken =>
    intro b o'
    have hold := h.taken b o'
    grind
  case takenNodup => grind [h.takenNodup]
  case released =>
    intro o
    have hold := h.released o
    rcases hcase with ⟨_, rfl, rfl, _⟩ | ⟨_, rfl, rfl, _⟩ <;> grind
  case target => grind [h.target]
  case own => grind [h.own]
  case next => grind [h.next]
  case working => grind [h.working]
  case making => grind [h.making]
  case spawning => grind [h.spawning]
  case moving => grind [h.moving]
  case listed => grind [h.listed]
  case createFail => grind [h.createFail, h.not_createFail]
  case failing => grind [h.failing]
  case failed => grind [h.failed]

theorem allocated (h : Inv home s) {detached : Bool} (hp : s.place a = .createAlloc detached) :
    ∃ home', Inv home' ((s.calloc detached).goto a (.createRegister s.next)) :=
  ⟨_, h.calloc hp (.inl ⟨rfl, rfl, rfl, rfl⟩)⟩

theorem noContext (h : Inv home s) {detached : Bool} (hp : s.place a = .createAlloc detached) :
    ∃ home', Inv home' ({ (s.calloc detached).free s.next with
      failed := s.next :: s.failed }.goto a .running) :=
  ⟨_, h.calloc hp (.inr ⟨rfl, rfl, rfl, rfl⟩)⟩

theorem addFailed (h : Inv home s) (ho : home o = .listed) : Inv home { s with failed := o :: s.failed } :=
  { h with
    failed := fun o' ho' => (List.mem_cons.1 ho').elim (fun heq => .inl (by rw [heq]; exact ho))
      (h.failed o') }

/-- A thread moves on, and the fields of one object that decide about its collection stay. -/
theorem write (h : Inv home s) {t : RecompThread} (hq : Quiet s a p) (hdead : t.dead = (s.obj o).dead)
    (hcount : t.refcount = (s.obj o).refcount) (hflag : t.detached = (s.obj o).detached) :
    Inv home ((s.setObj o t).goto a p) := by
  refine h.quiet (Function.update s.obj o t) (fun o' => ?_) hq
  by_cases ho : o' = o
  · rw [ho, Function.update_self]
    exact ⟨hdead, hcount, hflag⟩
  · rw [Function.update_of_ne ho]
    exact ⟨rfl, rfl, rfl⟩

theorem goto (h : Inv home s) (hq : Quiet s a p) : Inv home (s.goto a p) :=
  h.quiet _ (fun _ => ⟨rfl, rfl, rfl⟩) hq

end Inv

theorem shouldCollect_dead {t : RecompThread} (h : t.dead = false) : t.shouldCollect = false := by
  rw [RecompThread.shouldCollect, h, Bool.and_false, Bool.false_and]

theorem shouldCollect_attached {t : RecompThread} (h : t.detached = false) : t.shouldCollect = false := by
  rw [RecompThread.shouldCollect, h, Bool.and_false]

/-- The object of a call, or the thread's own, is in a list unless the thread still makes it. -/
theorem Inv.live_target {home : ℕ → Home} {s : State} {a o : ℕ} (h : Inv home s)
    (ho : (s.place a).target = some o) (hclaim : (s.place a).view.claim = none) :
    (home o).live = true := by
  rcases h.target a o ho with hl | hm
  · exact hl
  · rw [(h.claim a o .making).2 hm] at hclaim
    cases hclaim

variable {home : ℕ → Home} {s s' : State} {a : ℕ}

theorem Inv.exits (h : Inv home s) (hs : run s a = some s')
    (hp : s.place a = .exitMark ∨ s.place a = .exitTerminate ∨ s.place a = .exitBroadcast ∨
      s.place a = .exitUnlock ∨ s.place a = .exitHost) : ∃ home', Inv home' s' := by
  rcases hp with hp | hp | hp | hp | hp
  · simp only [run, hp] at hs
    split at hs
    · cases hs
      exact h.settle (by rw [hp]; nofun) (by rw [hp]; rfl) (by rw [hp]; rfl) (by rw [hp]; exact fun _ => rfl)
        (by rw [hp]; rfl) (h.own a (by rw [hp]; rfl))
        (shouldCollect_dead (h.working a (by rw [hp]; rfl))) nofun id (.inr ⟨rfl, rfl⟩)
    · cases hs
  · simp only [run, hp] at hs
    split at hs
    · cases hs
      refine ⟨home, h.write ?_ rfl rfl rfl⟩
      exact ⟨by rw [hp]; nofun, by rw [hp]; rfl, by rw [hp]; rfl, nofun, by rw [hp]; exact fun _ => rfl,
        nofun, nofun, nofun⟩
    · cases hs
  · simp only [run, hp] at hs
    cases hs
    exact ⟨home, h.goto (.of_view hp nofun rfl (fun _ => rfl) (.inl rfl) nofun nofun)⟩
  · simp only [run, hp] at hs
    cases hs
    exact ⟨home, h.write (.of_view hp nofun rfl nofun (.inl rfl) nofun nofun) rfl rfl rfl⟩
  · simp only [run, hp] at hs
    cases hs
    exact ⟨home, h.goto (.of_view hp nofun rfl nofun (.inl rfl) nofun nofun)⟩

theorem Inv.collectUnlock (h : Inv home s) {o : ℕ} {k : Collecting}
    (hp : s.place a = .collectUnlock o k) :
    Inv home ((s.setObj o { s.obj o with lock := none }).afterCollect a o k) := by
  cases k with
  | exit => exact h.write (.of_view hp nofun rfl (fun _ => rfl) (.inr rfl) nofun nofun) rfl rfl rfl
  | join v => exact h.write (.of_view hp nofun rfl (fun _ => rfl) (.inr rfl) nofun nofun) rfl rfl rfl
  | detach => exact h.write (.of_view hp nofun rfl (fun _ => rfl) (.inr rfl) nofun nofun) rfl rfl rfl
  | create =>
      have hrun : Inv home ((s.setObj o { s.obj o with lock := none }).goto a .running) :=
        h.write (.of_view hp nofun rfl (fun _ => rfl) (.inr rfl) nofun nofun) rfl rfl rfl
      exact hrun.addFailed (h.failing a o hp)

theorem Inv.afterReclaim (h : Inv home s) {k : Returning} (hp : s.place a = .reclaim [] k) :
    Inv home (s.afterReclaim a k) := by
  have hq : ∀ p : Place, p.view = {} → p.target = none → (∀ o, p ≠ .createFail o) →
      (∀ o, p ≠ .collectUnlock o .create) → Quiet s a p := by
    intro p hview htarget hfail hfailing
    refine ⟨by rw [hp]; nofun, by rw [hp, hview]; rfl, by rw [hp, hview]; rfl, by rw [hp]; exact fun _ => rfl,
      by rw [hp]; exact fun _ => rfl, ?_, fun o ho => absurd ho (hfail o), hfailing⟩
    rw [htarget]
    nofun
  cases k with
  | join o v => exact h.quiet _ (fun _ => ⟨rfl, rfl, rfl⟩) (hq .running rfl rfl nofun nofun)
  | detach => exact h.goto (hq .running rfl rfl nofun nofun)
  | create detached => exact h.goto (hq (.createAlloc detached) rfl rfl nofun nofun)

theorem Inv.joins (h : Inv home s) {o : ℕ} (hs : run s a = some s')
    (hp : s.place a = .joinCheck o ∨ s.place a = .joinUnlock o ∨ s.place a = .joinWait o ∨
      s.place a = .joinSleep o ∨ s.place a = .joinLeave o ∨ s.place a = .joinRead o ∨
      ∃ v, s.place a = .joinHost o v) : ∃ home', Inv home' s' := by
  rcases hp with hp | hp | hp | hp | hp | hp | ⟨v, hp⟩
  · simp only [run, hp] at hs
    split at hs
    · split at hs
      · cases hs
        exact ⟨home, h.write (.of_view hp nofun rfl (fun _ => rfl) (.inl rfl) nofun nofun) rfl rfl rfl⟩
      · cases hs
        refine ⟨home, h.quiet _ (fun o' => ?_)
          ⟨by rw [hp]; nofun, by rw [hp]; rfl, by rw [hp]; rfl, by rw [hp]; exact fun _ => rfl,
            by rw [hp]; exact fun _ => rfl, by rw [hp]; exact fun _ ho => .inl ho, nofun, nofun⟩⟩
        simp only [State.setObj]
        grind
    · cases hs
  · simp only [run, hp] at hs
    cases hs
    exact ⟨home, h.write (.of_view hp nofun rfl (fun _ => rfl) (.inl rfl) nofun nofun) rfl rfl rfl⟩
  · simp only [run, hp] at hs
    split at hs
    · split at hs
      · cases hs
        exact ⟨home, h.write (.of_view hp nofun rfl (fun _ => rfl) (.inl rfl) nofun nofun) rfl rfl rfl⟩
      · cases hs
        exact ⟨home, h.goto (.of_view hp nofun rfl (fun _ => rfl) (.inl rfl) nofun nofun)⟩
    · cases hs
  · simp only [run, hp] at hs
    cases hs
    exact ⟨home, h.goto (.of_view hp nofun rfl (fun _ => rfl) (.inl rfl) nofun nofun)⟩
  · simp only [run, hp] at hs
    cases hs
    exact ⟨home, h.write (.of_view hp nofun rfl (fun _ => rfl) (.inl rfl) nofun nofun) rfl rfl rfl⟩
  · simp only [run, hp] at hs
    cases hs
    exact ⟨home, h.write (.of_view hp nofun rfl (fun _ => rfl) (.inl rfl) nofun nofun) rfl rfl rfl⟩
  · simp only [run, hp] at hs
    split at hs
    · cases hs
      exact ⟨home, h.goto (.of_view hp nofun rfl (fun _ => rfl) (.inl rfl) nofun nofun)⟩
    · cases hs

/-- The sections that set the flag, of `do_thread_join` and of `do_thread_detach`. -/
theorem Inv.marks (h : Inv home s) {o : ℕ} {t : RecompThread} {k : Collecting} (hk : k ≠ .create)
    (hborn : s.place a ≠ .unborn) (hclaim : (s.place a).view.claim = none)
    (htaken : (s.place a).view.taken = []) (hworking : (s.place a).view.working = true)
    (hown : (s.place a).usesOwn = true) (htarget : (s.place a).target = some o)
    (hattached : (s.obj o).detached = false) (hdead : t.dead = (s.obj o).dead) :
    ∃ home', Inv home' ((s.setObj o t).tryCollect a o k) := by
  refine h.settle hborn hclaim htaken (fun _ => hworking) hown (h.live_target htarget hclaim)
    (shouldCollect_attached hattached) hk (fun hd => ?_) (.inl hdead)
  rw [hattached] at hd
  cases hd

theorem Inv.run (h : Inv home s) (hok : Careful s (.next a)) (hattached : ∀ o v, s.place a = .joinMark o v →
    (s.obj o).detached = false) (hs : run s a = some s') : ∃ home', Inv home' s' := by
  cases hp : s.place a with
  | unborn | running | ended | createAlloc _ | createSpawn _ =>
      simp only [GuestThread.run, hp] at hs
      cases hs
  | starting =>
      simp only [GuestThread.run, hp] at hs
      split at hs
      · cases hs
        exact ⟨home, h.goto (.of_view hp nofun rfl (fun _ => rfl) (.inl rfl) nofun nofun)⟩
      · cases hs
  | exitMark => exact h.exits hs (.inl hp)
  | exitTerminate => exact h.exits hs (.inr (.inl hp))
  | exitBroadcast => exact h.exits hs (.inr (.inr (.inl hp)))
  | exitUnlock => exact h.exits hs (.inr (.inr (.inr (.inl hp))))
  | exitHost => exact h.exits hs (.inr (.inr (.inr (.inr hp))))
  | collectMove o k =>
      simp only [GuestThread.run, hp] at hs
      cases hs
      exact h.collectMove hp
  | collectUnlock o k =>
      simp only [GuestThread.run, hp] at hs
      cases hs
      exact ⟨home, h.collectUnlock hp⟩
  | gather k =>
      simp only [GuestThread.run, hp] at hs
      cases hs
      simp only [Careful, hp] at hok
      exact h.gather hp hok
  | reclaim l k =>
      cases l with
      | nil =>
          simp only [GuestThread.run, hp] at hs
          cases hs
          exact ⟨home, h.afterReclaim hp⟩
      | cons o l =>
          simp only [GuestThread.run, hp] at hs
          cases hs
          exact h.free hp
  | joinCheck o => exact h.joins hs (.inl hp)
  | joinUnlock o => exact h.joins hs (.inr (.inl hp))
  | joinWait o => exact h.joins hs (.inr (.inr (.inl hp)))
  | joinSleep o => exact h.joins hs (.inr (.inr (.inr (.inl hp))))
  | joinLeave o => exact h.joins hs (.inr (.inr (.inr (.inr (.inl hp)))))
  | joinRead o => exact h.joins hs (.inr (.inr (.inr (.inr (.inr (.inl hp))))))
  | joinHost o v => exact h.joins hs (.inr (.inr (.inr (.inr (.inr (.inr ⟨v, hp⟩))))))
  | joinMark o v =>
      simp only [GuestThread.run, hp] at hs
      split at hs
      · cases hs
        exact h.marks nofun (by rw [hp]; nofun) (by rw [hp]; rfl) (by rw [hp]; rfl) (by rw [hp]; rfl)
          (by rw [hp]; rfl) (by rw [hp]; rfl) (hattached o v hp) rfl
      · cases hs
  | detachCheck o =>
      simp only [GuestThread.run, hp] at hs
      split at hs
      · split at hs
        · cases hs
          exact ⟨home, h.write (.of_view hp nofun rfl (fun _ => rfl) (.inl rfl) nofun nofun) rfl rfl rfl⟩
        · rename_i hfree
          cases hs
          have hflag : (s.obj o).detached = false := by
            rw [← Bool.not_eq_true]
            exact fun hd => hfree (.inl hd)
          exact h.marks nofun (by rw [hp]; nofun) (by rw [hp]; rfl) (by rw [hp]; rfl) (by rw [hp]; rfl)
            (by rw [hp]; rfl) (by rw [hp]; rfl) hflag rfl
      · cases hs
  | refuse o =>
      simp only [GuestThread.run, hp] at hs
      cases hs
      exact ⟨home, h.write (.of_view hp nofun rfl (fun _ => rfl) (.inr rfl) nofun nofun) rfl rfl rfl⟩
  | createRegister o =>
      simp only [GuestThread.run, hp] at hs
      cases hs
      exact h.register hp
  | createDetach o =>
      simp only [GuestThread.run, hp] at hs
      cases hs
      exact ⟨home, h.goto (.of_view hp nofun rfl (fun _ => rfl) (.inl rfl) nofun nofun)⟩
  | createReady o =>
      simp only [GuestThread.run, hp] at hs
      cases hs
      exact ⟨home, h.write (.of_view hp nofun rfl (fun _ => rfl) (.inr rfl) nofun nofun) rfl rfl rfl⟩
  | createFail o =>
      simp only [GuestThread.run, hp] at hs
      split at hs
      · cases hs
        refine h.failed_marked hp ?_
        rw [RecompThread.shouldCollect, h.createFail a o hp]
        rfl
      · cases hs

theorem Inv.look (h : Inv home s) {found : Option ℕ} {p : ℕ → Place} (hp : s.place a = .running)
    (hview : ∀ o, (p o).view = {}) (htarget : ∀ o, (p o).target = some o)
    (hfail : ∀ o o', p o ≠ .createFail o') (hfailing : ∀ o o', p o ≠ .collectUnlock o' .create)
    (hs : look s a found p = some s') : ∃ home', Inv home' s' := by
  cases found with
  | none =>
      cases hs
      exact ⟨home, h⟩
  | some o =>
      simp only [GuestThread.look] at hs
      split at hs
      · rename_i hmem
        cases hs
        refine ⟨home, h.goto ⟨by rw [hp]; nofun, by rw [hp, hview]; rfl, by rw [hp, hview]; rfl,
          by rw [hp]; exact fun _ => rfl, by rw [hp]; exact fun _ => rfl, fun o' ho' => ?_,
          fun o' ho' => absurd ho' (hfail o o'), hfailing o⟩⟩
        rw [htarget] at ho'
        cases ho'
        exact .inr hmem
      · cases hs

/-- Every careful step keeps the objects where they belong. -/
theorem Inv.exec (h : Inv home s) {act : Act} (hok : Careful s act) (hattached : ∀ a o v,
    s.place a = .joinMark o v → (s.obj o).detached = false) (hs : exec s act = some s') :
    ∃ home', Inv home' s' := by
  cases act with
  | exit a status =>
      simp only [GuestThread.exec] at hs
      split at hs
      · rename_i hp
        split at hs
        · cases hs
          exact ⟨home, h.goto ⟨by rw [hp]; simp, by rw [hp]; rfl, by rw [hp]; rfl, (by intros; contradiction), (by intros; contradiction), (by intros; contradiction), (by simp),
            (by simp)⟩⟩
        · cases hs
          refine ⟨home, h.quiet _ (fun o => ?_) ⟨by rw [hp]; simp, by rw [hp]; rfl, by rw [hp]; rfl,
            by rw [hp]; exact fun _ => rfl, by rw [hp]; exact fun _ => rfl, (by intros; contradiction), (by simp), (by simp)⟩⟩
          simp only [State.setObj]
          grind
      · cases hs
  | join a found =>
      simp only [GuestThread.exec] at hs
      split at hs
      · rename_i hp
        split at hs
        · cases hs
          exact ⟨home, h⟩
        · exact h.look (p := .joinCheck) hp (fun _ => rfl) (fun _ => rfl) (fun _ => (by simp)) (fun _ => (by simp)) hs
      · cases hs
  | detach a found =>
      simp only [GuestThread.exec] at hs
      split at hs
      · rename_i hp
        exact h.look (p := .detachCheck) hp (fun _ => rfl) (fun _ => rfl) (fun _ => (by simp)) (fun _ => (by simp))
          hs
      · cases hs
  | create a detached =>
      simp only [GuestThread.exec] at hs
      split at hs
      · rename_i hp
        cases hs
        exact ⟨home, h.goto (.of_view hp (by simp) rfl (fun _ => rfl) (.inl rfl) (by simp) (by simp))⟩
      · cases hs
  | alloc a outcome =>
      simp only [GuestThread.exec] at hs
      split at hs
      · rename_i detached hp
        cases outcome with
        | noMemory =>
            cases hs
            exact ⟨home, h.goto (.of_view hp (by simp) rfl (fun _ => rfl) (.inl rfl) (by simp) (by simp))⟩
        | noContext =>
            cases hs
            exact h.noContext hp
        | allocated =>
            cases hs
            exact h.allocated hp
      · cases hs
  | spawn a ok =>
      simp only [GuestThread.exec] at hs
      split at hs
      · rename_i o hp
        cases ok with
        | true =>
            rw [if_pos rfl] at hs
            cases hs
            exact h.spawn hp
        | false =>
            rw [if_neg (by simp)] at hs
            cases hs
            simp only [Careful, hp] at hok
            refine ⟨home, h.goto ⟨by rw [hp]; simp, by rw [hp]; rfl, by rw [hp]; rfl,
              by rw [hp]; exact fun _ => rfl, by rw [hp]; exact fun _ => rfl,
              by rw [hp]; exact fun _ ho => .inl ho, fun o' ho' => ?_, (by simp)⟩⟩
            cases ho'
            exact hok
      · cases hs
  | next a => exact h.run hok (hattached a) hs

end PS4Recomp.Runtime.GuestThread
