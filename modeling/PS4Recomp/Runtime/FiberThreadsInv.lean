import PS4Recomp.Runtime.FiberThreads

/-!
# Fibers with host threads of their own: who has a fiber

A fiber is idle, claimed by a thread that hands a worker over to it, running on a worker, or being finalized;
its host thread runs guest code only while it is running.

* `Home` — where a fiber is, `View` — what a thread's place says about the fibers;
* `Inv` — the invariant: what is current on a worker is claimed for it or running on it;
* **`Inv.exec`** — every step that leaves a switching fiber unclaimed keeps it.
-/

namespace PS4Recomp.Runtime.FiberThreads

open Library.Transition
open Runtime.Fiber (Endpoint FiberState)

/-- Where a fiber is. -/
inductive Home (T : Type*) where
  | unused
  | idle
  | claimed (e : Endpoint T)
  | running (w : T)
  | finalizing (e : Endpoint T)

variable {T : Type*}

/-- The fiber that is somewhere. -/
def Fits : Home T → Fiber T → Prop
  | .unused, f =>
      f.valid = false ∧ f.hostStarted = false ∧ f.baton = false ∧ f.kill = false ∧ f.state = .idle
  | .idle, f => f.state = .idle ∧ f.kill = false
  | .claimed _, f => f.state = .running ∧ f.kill = false
  | .running w, f => f.state = .running ∧ f.kill = false ∧ f.worker = some w
  | .finalizing _, f => f.state = .finalized

/-- What the place of a thread says: the fiber it has claimed, whether it has not changed the worker of that
fiber (`keeps`), the worker that the fiber may be current on and the one it was given, whether its host thread
is started, the fiber it finalizes or names, whether the thread runs inside its own fiber, on which worker,
which worker it has left, and whether its own fiber is current nowhere. -/
structure View (T : Type*) where
  claims : Option ℕ := none
  keeps : Bool := true
  shows : Option T := none
  given : Option T := none
  started : Option Bool := none
  finals : Option ℕ := none
  names : Option ℕ := none
  inside : Bool := false
  works : Option T := none
  left : Option T := none
  hidden : Bool := false

def Place.view : Place T → View T
  | .unborn | .wait | .woken | .killed | .gone | .backPost _ => {}
  | .guest | .valid _ | .finValid _ => { inside := true }
  | .take a | .finTake a => { names := some a, inside := true }
  | .prepare a | .giveBack a => { claims := some a, inside := true }
  | .leaveCurrent a w => { claims := some a, inside := true, works := some w }
  | .leaveIdle a w => { claims := some a, shows := some w, inside := true, works := some w, hidden := true }
  | .resume a w => { claims := some a, keeps := false, shows := some w, left := some w }
  | .create a w | .started a w =>
      { claims := some a, keeps := false, shows := some w, given := some w, left := some w }
  | .post a w =>
      { claims := some a, keeps := false, shows := some w, given := some w, started := some true, left := some w }
  | .failed a w => { claims := some a, keeps := false, shows := some w, started := some false, left := some w }
  | .claimSelf a w => { claims := some a, keeps := false, started := some false, left := some w }
  | .showSelf a w => { claims := some a, keeps := false, started := some false, inside := true, works := some w }
  | .hideSelf a _ => { claims := some a, keeps := false, started := some false, inside := true }
  | .backCurrent w => { inside := true, works := some w }
  | .backIdle w => { inside := true, works := some w, hidden := true }
  | .finKill a | .finFree a | .finClear a => { finals := some a, inside := true }
  | .finPost a => { finals := some a, started := some true, inside := true }

theorem Place.inside_of_works {p : Place T} {w : T} (h : p.view.works = some w) : p.view.inside = true := by
  cases p with
  | leaveCurrent a v | leaveIdle a v | showSelf a v | backCurrent v | backIdle v => rfl
  | _ => cases h

theorem Place.ne_of_inside {p : Place T} (h : p.view.inside = true) : p ≠ .unborn ∧ p ≠ .wait := by
  constructor <;> rintro rfl <;> cases h

/-- A place of a thread inside its fiber that says no more than which fiber it works on. -/
def Place.plain : Place T → Bool
  | .guest | .valid _ | .finValid _ | .take _ | .finTake _ | .prepare _ | .giveBack _ | .leaveCurrent _ _
  | .backCurrent _ | .finKill _ | .finFree _ | .finClear _ => true
  | _ => false

theorem Place.inside_of_hidden {p : Place T} (h : p.view.hidden = true) : p.view.inside = true := by
  cases p with
  | leaveIdle a v | backIdle v => rfl
  | _ => cases h

/-- Who has which fiber, and what each thread knows. -/
structure Inv (home : ℕ → Home T) (s : State T) : Prop where
  fits : ∀ a, Fits (home a) (s.fiber a)
  fresh : ∀ a, s.nextFiber ≤ a → home a = .unused
  claims : ∀ e a, (s.place e).view.claims = some a → home a = .claimed e
  claimed : ∀ e a, home a = .claimed e → (s.place e).view.claims = some a
  finals : ∀ e a, (s.place e).view.finals = some a → home a = .finalizing e
  names : ∀ e a, (s.place e).view.names = some a → home a ≠ .unused
  current : ∀ w a, s.current w = some a →
    home a = .running w ∨ ∃ e, home a = .claimed e ∧ (s.place e).view.shows = some w
  inside : ∀ g, (s.place (.fiber g)).view.inside = true → ∃ w, home g = .running w
  works : ∀ g w, (s.place (.fiber g)).view.works = some w → (s.fiber g).worker = some w
  hidden : ∀ g w, (s.place (.fiber g)).view.hidden = true → s.current w ≠ some g
  given : ∀ e a w, (s.place e).view.claims = some a → (s.place e).view.given = some w →
    (s.fiber a).worker = some w
  started : ∀ e a b, (s.place e).view.claims = some a ∨ (s.place e).view.finals = some a →
    (s.place e).view.started = some b → (s.fiber a).hostStarted = b
  unstarted : ∀ g, (s.fiber g).hostStarted = false →
    (s.place (.fiber g) = .unborn ∨ s.place (.fiber g) = .wait) ∧ (s.fiber g).baton = false
  leftIdle : ∀ g w, (s.place (.fiber g)).view.left = some w → home g = .idle → (s.fiber g).worker = some w
  leftClaimed : ∀ g w e, (s.place (.fiber g)).view.left = some w → home g = .claimed e →
    (s.place e).view.keeps = true → (s.fiber g).worker = some w
  baton : ∀ g, (s.fiber g).baton = true → (s.fiber g).kill = false →
    (∃ w, home g = .running w) ∧ (s.place (.fiber g)).view.inside = false ∧ s.place (.fiber g) ≠ .woken
  posts : ∀ e a, s.place e = .finPost a → (s.fiber a).kill = true
  woken : ∀ g, s.place (.fiber g) = .woken → (s.fiber g).kill = true ∨ ∃ w, home g = .running w
  killed : ∀ g, s.place (.fiber g) = .killed → (s.fiber g).kill = true
  killing : ∀ g, (s.fiber g).kill = true → ∃ e, home g = .finalizing e

/-- A move of a thread that changes nobody's fiber. -/
structure Quiet (home : ℕ → Home T) (s : State T) (e : Endpoint T) (p : Place T) : Prop where
  claims : p.view.claims = (s.place e).view.claims
  finals : ∀ a, p.view.finals = some a → (s.place e).view.finals = some a
  names : ∀ a, p.view.names = some a → home a ≠ .unused
  keeps : (s.place e).view.keeps = true ∨ p.view.keeps = false ∨
    ∀ a, p.view.claims = some a → (s.fiber a).hostStarted = false
  given : ∀ a w, p.view.claims = some a → p.view.given = some w → (s.fiber a).worker = some w
  started : ∀ a b, p.view.claims = some a ∨ p.view.finals = some a → p.view.started = some b →
    (s.fiber a).hostStarted = b
  inside : p.view.inside = true → (s.place e).view.inside = true ∨ ∀ g, e = .fiber g → ∃ w, home g = .running w
  baton : ∀ g, e = .fiber g → p.view.inside = true ∨ p = .woken → (s.fiber g).baton = false
  works : ∀ g w, e = .fiber g → p.view.works = some w → (s.fiber g).worker = some w
  born : ∀ g, e = .fiber g → (s.fiber g).hostStarted = true ∨ p = .wait
  left : ∀ g w, e = .fiber g → p.view.left = some w → (s.place e).view.left = some w
  posts : ∀ a, p = .finPost a → (s.fiber a).kill = true
  woken : ∀ g, e = .fiber g → p = .woken → (s.fiber g).kill = true ∨ ∃ w, home g = .running w
  killed : ∀ g, e = .fiber g → p = .killed → (s.fiber g).kill = true

attribute [local grind =] Function.update_apply

namespace Inv

variable {home : ℕ → Home T} {s : State T} {e : Endpoint T} {a : ℕ} {p q : Place T} [DecidableEq T]

theorem move (h : Inv home s) (hq : Quiet home s e p) {current baton}
    (hcurrent : ∀ w a, current w = some a → home a = .running w ∨
      ∃ u, home a = .claimed u ∧ (Function.update s.place e p u).view.shows = some w)
    (hhidden : ∀ g w, (Function.update s.place e p (.fiber g)).view.hidden = true → current w ≠ some g) :
    Inv home { s with current, baton, place := Function.update s.place e p } := by
  obtain ⟨qclaims, qfinals, qnames, qkeeps, qgiven, qstarted, qinside, qbaton, qworks, qborn, qleft, qposts,
    qwoken, qkilled⟩ := hq
  have hunborn : (Place.unborn : Place T).view = {} := rfl
  have hwait : (Place.wait : Place T).view = {} := rfl
  constructor
  case fits => exact h.fits
  case fresh => exact h.fresh
  case claims => grind [h.claims]
  case claimed =>
    intro u b hb
    have hold := h.claimed u b
    grind
  case finals => grind [h.finals]
  case names => grind [h.names]
  case current => exact hcurrent
  case inside =>
    intro g hg
    have hold := h.inside g
    grind
  case works => grind [h.works]
  case hidden => exact hhidden
  case given => grind [h.given]
  case started => grind [h.started]
  case unstarted => grind [h.unstarted]
  case leftIdle => grind [h.leftIdle]
  case leftClaimed => grind [h.leftClaimed, h.unstarted, h.claimed]
  case baton =>
    intro g hb hk
    have hold := h.baton g
    grind
  case posts => grind [h.posts]
  case woken =>
    intro g hg
    have hold := h.woken g
    grind
  case killed => grind [h.killed]
  case killing => exact h.killing

theorem goto (h : Inv home s) (hp : s.place e = q) (hshows : q.view.shows = none ∨ p.view.shows = q.view.shows)
    (hhidden : p.view.hidden = false) (hq : Quiet home s e p) : Inv home (s.goto e p) := by
  refine h.move hq (fun w a hw => ?_) fun g w hg => ?_
  · rcases h.current w a hw with hrun | ⟨u, hu, hshow⟩
    · exact .inl hrun
    · refine .inr ⟨u, hu, ?_⟩
      by_cases hue : u = e
      · rw [hue, hp] at hshow
        rw [hue, Function.update_self]
        rcases hshows with hnone | hsame
        · rw [hnone] at hshow
          cases hshow
        · rw [hsame]
          exact hshow
      · rw [Function.update_of_ne hue]
        exact hshow
  · refine h.hidden g w ?_
    by_cases hge : Endpoint.fiber g = e
    · rw [hge, Function.update_self, hhidden] at hg
      cases hg
    · rw [Function.update_of_ne hge] at hg
      exact hg

/-- The fiber of a thread that is not new has its host thread. -/
theorem born (h : Inv home s) (hp : s.place e = q) (hunborn : q ≠ .unborn) (hwait : q ≠ .wait) :
    ∀ g, e = .fiber g → (s.fiber g).hostStarted = true ∨ p = .wait := by
  rintro g rfl
  refine .inl ?_
  cases hstarted : (s.fiber g).hostStarted with
  | true => rfl
  | false =>
      obtain ⟨hplace, -⟩ := h.unstarted g hstarted
      rw [hp] at hplace
      rcases hplace with hplace | hplace
      · exact absurd hplace hunborn
      · exact absurd hplace hwait

theorem no_baton (h : Inv home s) (hp : s.place e = q) (hin : q.view.inside = true) :
    ∀ g, e = .fiber g → (s.fiber g).baton = false := by
  rintro g rfl
  rw [← hp] at hin
  obtain ⟨w, hw⟩ := h.inside g hin
  have hfits := h.fits g
  rw [hw] at hfits
  cases hbaton : (s.fiber g).baton with
  | false => rfl
  | true =>
      have hnot := (h.baton g hbaton hfits.2.1).2.1
      rw [hin] at hnot
      cases hnot

theorem inner (h : Inv home s) (hp : s.place e = q) (hin : q.view.inside = true)
    (hclaims : p.view.claims = q.view.claims) (hfinals : ∀ a, p.view.finals = some a → q.view.finals = some a)
    (hnames : ∀ a, p.view.names = some a → home a ≠ .unused) (hkeeps : q.view.keeps = true)
    (hgiven : p.view.given = none)
    (hstarted : ∀ a b, p.view.claims = some a ∨ p.view.finals = some a → p.view.started = some b →
      (s.fiber a).hostStarted = b)
    (hshows : q.view.shows = none) (hhidden : p.view.hidden = false) (hleft : p.view.left = none)
    (hworks : ∀ g w, e = .fiber g → p.view.works = some w → (s.fiber g).worker = some w)
    (hposts : ∀ a, p = .finPost a → (s.fiber a).kill = true) (hplace : p ≠ .woken ∧ p ≠ .killed) :
    Inv home (s.goto e p) := by
  have hborn := Place.ne_of_inside hin
  refine h.goto hp (.inl hshows) hhidden ⟨?_, ?_, hnames, ?_, ?_, hstarted, ?_, ?_, hworks, ?_, ?_, hposts, ?_, ?_⟩
  · rw [hp]
    exact hclaims
  · rw [hp]
    exact hfinals
  · rw [hp]
    exact .inl hkeeps
  · intro a w _ hw
    rw [hgiven] at hw
    cases hw
  · intro _
    rw [hp]
    exact .inl hin
  · exact fun g hg _ => h.no_baton hp hin g hg
  · exact h.born hp hborn.1 hborn.2
  · intro g w _ hw
    rw [hleft] at hw
    cases hw
  · exact fun g _ hwoken => absurd hwoken hplace.1
  · exact fun g _ hkilled => absurd hkilled hplace.2

theorem innerPlain (h : Inv home s) (hp : s.place e = q) (hin : q.view.inside = true)
    (hclaims : p.view.claims = q.view.claims) (hfinals : ∀ a, p.view.finals = some a → q.view.finals = some a)
    (hnames : ∀ a, p.view.names = some a → home a ≠ .unused) (hkeeps : q.view.keeps = true)
    (hshows : q.view.shows = none) (hplain : p.plain = true)
    (hworks : ∀ g w, e = .fiber g → p.view.works = some w → (s.fiber g).worker = some w) :
    Inv home (s.goto e p) := by
  obtain ⟨hgiven, hstarted, hhidden, hleft⟩ : p.view.given = none ∧ p.view.started = none ∧
      p.view.hidden = false ∧ p.view.left = none := by
    cases p <;> first | exact ⟨rfl, rfl, rfl, rfl⟩ | cases hplain
  refine h.inner hp hin hclaims hfinals hnames hkeeps hgiven (fun a b _ hb => ?_) hshows hhidden hleft hworks
    (fun a ha => ?_) ⟨fun ha => ?_, fun ha => ?_⟩
  · rw [hstarted] at hb
    cases hb
  all_goals
    rw [ha] at hplain
    cases hplain

theorem setFiber (h : Inv home s) {f : Fiber T} (hfits : Fits (home a) f)
    (hworker : f.worker = (s.fiber a).worker ∨
      ∃ u, home a = .claimed u ∧ (s.place u).view.keeps = false ∧ (s.place u).view.given = none)
    (hstarted : f.hostStarted = (s.fiber a).hostStarted ∨ f.hostStarted = true ∧
      ∃ u, home a = .claimed u ∧ (s.place u).view.started = none)
    (hbaton : f.baton = true → f.hostStarted = true ∧ ((s.fiber a).baton = true ∨ f.kill = true))
    (hkill : f.kill = true → ∃ u, home a = .finalizing u) (hkills : (s.fiber a).kill = true → f.kill = true) :
    Inv home (s.setFiber a f) := by
  have hunborn : (Place.unborn : Place T).view = {} := rfl
  have hwait : (Place.wait : Place T).view = {} := rfl
  constructor
  all_goals simp only [State.setFiber]
  case fits =>
    intro b
    by_cases hb : b = a
    · rw [hb, Function.update_self]
      exact hfits
    · rw [Function.update_of_ne hb]
      exact h.fits b
  case fresh => exact h.fresh
  case claims => exact h.claims
  case claimed => exact h.claimed
  case finals => exact h.finals
  case names => exact h.names
  case current => exact h.current
  case inside => exact h.inside
  case hidden => exact h.hidden
  case works =>
    intro g w hg
    obtain ⟨v, hv⟩ := h.inside g (Place.inside_of_works hg)
    grind [h.works]
  case given =>
    intro u b w hb hw
    have hold := h.given u b w hb hw
    have hclaim := h.claims u b hb
    grind
  case started =>
    intro u b x hb hx
    have hold := h.started u b x hb hx
    have hclaim := h.claims u b
    have hfinal := h.finals u b
    grind
  case unstarted => grind [h.unstarted]
  case leftIdle => grind [h.leftIdle]
  case leftClaimed => grind [h.leftClaimed]
  case baton =>
    intro g hb hk
    have hold := h.baton g
    grind
  case posts => grind [h.posts]
  case woken =>
    intro g hg
    have hold := h.woken g hg
    grind
  case killed => grind [h.killed]
  case killing =>
    intro g hg
    have hold := h.killing g
    grind

/-- A move of a thread that takes a fiber to another home: an idle fiber, one that the thread has claimed, or its
own, which is current nowhere. -/
structure Rehome (home : ℕ → Home T) (s : State T) (e : Endpoint T) (a : ℕ) (q p : Place T) (H : Home T) : Prop where
  source : home a = .idle ∨ home a = .claimed e ∧ q.view.claims = some a ∨
    e = .fiber a ∧ q.view.inside = true ∧ q.view.hidden = true ∧ p.view.inside = false ∧ ∃ w, home a = .running w
  target : H = .idle ∧ home a ≠ .idle ∨ H = .claimed e ∧ home a = .idle ∧ p.view.claims = some a ∨
    H = .finalizing e ∧ home a = .idle ∨
      ∃ w, H = .running w ∧ (home a = .idle ∨ home a = .claimed e ∧ ∀ v, q.view.shows = some v → v = w)
  current : home a = .claimed e → (∃ w, H = .running w) ∨ q.view.shows = none
  claims : ∀ b, p.view.claims = some b → b = a ∧ H = .claimed e ∨ q.view.claims = some b ∧ home a ≠ .claimed e
  kept : ∀ b, q.view.claims = some b → b = a ∧ home a = .claimed e ∨ p.view.claims = some b ∧ p.view.shows = q.view.shows
  finals : ∀ b, p.view.finals = some b → b = a ∧ H = .finalizing e
  names : p.view.names = none
  keeps : p.view.keeps = true → q.view.keeps = true ∨ home a = .claimed e
  leaves : H = .idle → q.view.keeps = true
  given : p.view.given = none
  started : ∀ b, p.view.started = some b → q.view.started = some b ∧ p.view.claims = q.view.claims ∧ H ≠ .finalizing e
  inside : p.view.inside = true → q.view.inside = true ∨ e = .fiber a ∧ home a = .idle ∧ ∃ w, H = .running w
  works : ∀ g w, e = .fiber g → p.view.works = some w → (s.fiber g).worker = some w
  hidden : p.view.hidden = false
  left : ∀ g w, e = .fiber g → p.view.left = some w → (s.fiber g).worker = some w
  born : q ≠ .unborn ∧ q ≠ .wait
  place : p ≠ .woken ∧ p ≠ .killed ∧ ∀ b, p ≠ .finPost b

theorem rehome (h : Inv home s) {H : Home T} {f : Fiber T} (hp : s.place e = q) (hq : Rehome home s e a q p H)
    (hfits : Fits H f) (hworker : f.worker = (s.fiber a).worker) (hstarted : f.hostStarted = (s.fiber a).hostStarted)
    (hkill : f.kill = (s.fiber a).kill) (hbaton : f.baton = (s.fiber a).baton ∨
      (∃ w, H = .running w) ∧ home a = .claimed e ∧ (s.fiber a).hostStarted = true) :
    Inv (Function.update home a H) ((s.setFiber a f).goto e p) := by
  obtain ⟨qsource, qtarget, qcurrent, qclaims, qkept, qfinals, qnames, qkeeps, qleaves, qgiven, qstarted, qinside, qworks,
    qhidden, qleft, qborn, qplace⟩ := hq
  have hbase := h.fits a
  have hstill : (s.fiber a).kill = false := by
    rcases qsource with hs | ⟨hs, -⟩ | ⟨-, -, -, -, w, hs⟩
    all_goals
      rw [hs] at hbase
      grind [Fits]
  have hin := h.inside a
  have hwoken := h.woken a
  have hnone := fun hi => h.no_baton hp (e := e) hi
  constructor
  all_goals simp only [State.goto, State.setFiber]
  case fits =>
    intro c
    by_cases hc : c = a
    · rw [hc, Function.update_self, Function.update_self]
      exact hfits
    · rw [Function.update_of_ne hc, Function.update_of_ne hc]
      exact h.fits c
  case fresh => grind [h.fresh]
  case claims =>
    intro u c hc
    have hold := h.claims u c
    grind
  case claimed =>
    intro u c hc
    have hold := h.claimed u c
    grind
  case finals => grind [h.finals]
  case names => grind [h.names]
  case current =>
    intro w c hc
    have hold := h.current w c hc
    have hother := h.claimed e c
    have hhide := h.hidden a w
    grind
  case inside =>
    intro g hg
    have hold := h.inside g
    grind
  case works => grind [h.works]
  case hidden => grind [h.hidden]
  case given =>
    intro u c w hc hw
    have hold := h.given u c w
    grind
  case started =>
    intro u c x hc hx
    have hold := h.started u c x
    grind
  case unstarted => grind [h.unstarted]
  case leftIdle => grind [h.leftIdle, h.leftClaimed]
  case leftClaimed =>
    intro g v u hg hu hk
    have hold := h.leftClaimed g v u
    have hidle := h.leftIdle g v
    have hother := h.claimed u g
    grind
  case baton =>
    intro g hb hk
    have hold := h.baton g
    by_cases hg : g = a
    · subst hg
      rw [Function.update_self] at hb hk
      rcases hbaton with hsame | ⟨hrun, hclaim, -⟩
      · grind
      · grind
    · grind
  case posts => grind [h.posts]
  case woken =>
    intro g hg
    have hold := h.woken g
    grind
  case killed => grind [h.killed]
  case killing =>
    intro g hg
    have hold := h.killing g
    grind

theorem take (h : Inv home s) (hp : s.place e = .take a) (hidle : home a = .idle) :
    Inv (Function.update home a (.claimed e)) ((s.store a .running).goto e (.prepare a)) := by
  have hfits := h.fits a
  rw [hidle] at hfits
  refine h.rehome hp ?_ ⟨rfl, hfits.2⟩ rfl rfl rfl (.inl rfl)
  refine ⟨.inl hidle, .inr (.inl ⟨rfl, hidle, rfl⟩), fun _ => .inr rfl, fun b hb => ?_, nofun, nofun, rfl,
    fun _ => .inl rfl, fun _ => rfl, rfl, nofun, fun _ => .inl rfl, nofun, rfl, nofun, by simp, by simp⟩
  cases hb
  exact .inl ⟨rfl, rfl⟩

/-- A claimed fiber that is current nowhere is given back. -/
theorem giveBack (h : Inv home s) (hp : s.place e = .giveBack a) :
    Inv (Function.update home a .idle) ((s.store a .idle).goto e .guest) := by
  have hclaim : home a = .claimed e := h.claims e a (by rw [hp]; rfl)
  have hfits := h.fits a
  rw [hclaim] at hfits
  refine h.rehome hp ?_ ⟨rfl, hfits.2⟩ rfl rfl rfl (.inl rfl)
  refine ⟨.inr (.inl ⟨hclaim, rfl⟩), .inl ⟨rfl, by simp [hclaim]⟩, fun _ => .inr rfl, nofun, fun b hb => ?_, nofun, rfl,
    fun _ => .inl rfl, fun _ => rfl, rfl, nofun, fun _ => .inl rfl, nofun, rfl, nofun, by simp, by simp⟩
  cases hb
  exact .inl ⟨rfl, hclaim⟩

/-- A running fiber that is current nowhere leaves its worker. -/
theorem leave {g : ℕ} (h : Inv home s) (hp : s.place (.fiber g) = q) (hin : q.view.inside = true)
    (hhidden : q.view.hidden = true) (hpin : p.view.inside = false)
    (hclaims : p.view.claims = q.view.claims) (hshows : p.view.shows = q.view.shows)
    (hkeeps : q.view.keeps = true) (hgiven : p.view.given = none) (hstarted : p.view.started = none)
    (hfinals : p.view.finals = none) (hnames : p.view.names = none) (hphidden : p.view.hidden = false)
    (hleft : ∀ w, p.view.left = some w → q.view.works = some w)
    (hplace : p ≠ .woken ∧ p ≠ .killed ∧ (∀ a, p ≠ .finPost a) ∧ p.view.works = none) :
    Inv (Function.update home g .idle) ((s.store g .idle).goto (.fiber g) p) := by
  obtain ⟨v, hrun⟩ := h.inside g (by rw [hp]; exact hin)
  have hfits := h.fits g
  rw [hrun] at hfits
  refine h.rehome hp ?_ ⟨rfl, hfits.2.1⟩ rfl rfl rfl (.inl rfl)
  refine ⟨.inr (.inr ⟨rfl, hin, hhidden, hpin, v, hrun⟩), .inl ⟨rfl, by simp [hrun]⟩, by simp [hrun],
    fun b hb => .inr ⟨hclaims ▸ hb, by simp [hrun]⟩, fun b hb => .inr ⟨hclaims ▸ hb, hshows⟩, by simp [hfinals], hnames,
    fun _ => .inl hkeeps, fun _ => hkeeps, hgiven, by simp [hstarted], by simp [hpin], by simp [hplace], hphidden,
    fun y w hy hw => ?_, Place.ne_of_inside hin, hplace.1, hplace.2.1, hplace.2.2.1⟩
  cases hy
  exact h.works g w (by rw [hp]; exact hleft w hw)

theorem post (h : Inv home s) {w : T} (hp : s.place e = .post a w) :
    Inv (Function.update home a (.running w))
      ((s.setFiber a { s.fiber a with baton := true }).goto e .wait) := by
  have hclaim : home a = .claimed e := h.claims e a (by rw [hp]; rfl)
  have hworker : (s.fiber a).worker = some w := h.given e a w (by rw [hp]; rfl) (by rw [hp]; rfl)
  have hstarted : (s.fiber a).hostStarted = true := h.started e a true (by rw [hp]; exact .inl rfl) (by rw [hp]; rfl)
  have hfits := h.fits a
  rw [hclaim] at hfits
  refine h.rehome hp ?_ ⟨hfits.1, hfits.2, hworker⟩ rfl rfl rfl (.inr ⟨⟨w, rfl⟩, hclaim, hstarted⟩)
  refine ⟨.inr (.inl ⟨hclaim, rfl⟩), .inr (.inr (.inr ⟨w, rfl, .inr ⟨hclaim, fun v hv => ?_⟩⟩)), fun _ => .inl ⟨w, rfl⟩,
    nofun, fun b hb => ?_, nofun, rfl, fun _ => .inr hclaim, nofun, rfl, nofun, nofun, nofun, rfl, nofun, by simp,
    by simp⟩
  · cases hv
    rfl
  · cases hb
    exact .inl ⟨rfl, hclaim⟩

/-- A fiber that could not hand over its worker claims itself again. -/
theorem claimSelf {g : ℕ} (h : Inv home s) {w : T} (hp : s.place (.fiber g) = .claimSelf a w)
    (hidle : home g = .idle) :
    Inv (Function.update home g (.running w)) ((s.store g .running).goto (.fiber g) (.showSelf a w)) := by
  have hworker : (s.fiber g).worker = some w := h.leftIdle g w (by rw [hp]; rfl) hidle
  have hfits := h.fits g
  rw [hidle] at hfits
  refine h.rehome hp ?_ ⟨rfl, hfits.2, hworker⟩ rfl rfl rfl (.inl rfl)
  refine ⟨.inl hidle, .inr (.inr (.inr ⟨w, rfl, .inl hidle⟩)), fun _ => .inl ⟨w, rfl⟩,
    fun b hb => .inr ⟨hb, by simp [hidle]⟩, fun b hb => .inr ⟨hb, rfl⟩, nofun, rfl, nofun, nofun, rfl,
    fun b hb => ⟨hb, rfl, nofun⟩, fun _ => .inr ⟨rfl, hidle, w, rfl⟩, fun y v hy hv => ?_, rfl, nofun, by simp, by simp⟩
  cases hy
  cases hv
  exact hworker

theorem finTake (h : Inv home s) (hp : s.place e = .finTake a) (hidle : home a = .idle) :
    Inv (Function.update home a (.finalizing e)) ((s.store a .finalized).goto e (.finKill a)) := by
  refine h.rehome hp ?_ rfl rfl rfl rfl (.inl rfl)
  refine ⟨.inl hidle, .inr (.inr (.inl ⟨rfl, hidle⟩)), fun _ => .inr rfl, nofun, nofun, fun b hb => ?_, rfl,
    fun _ => .inl rfl, nofun, rfl, nofun, fun _ => .inl rfl, nofun, rfl, nofun, by simp, by simp⟩
  cases hb
  exact ⟨rfl, rfl⟩

theorem fiberInitialize (h : Inv home s) :
    Inv (Function.update home s.nextFiber .idle)
      { s.setFiber s.nextFiber { valid := true } with nextFiber := s.nextFiber + 1 } := by
  have hunused := h.fresh s.nextFiber le_rfl
  have hfits := h.fits s.nextFiber
  rw [hunused] at hfits
  have hplace := (h.unstarted s.nextFiber hfits.2.1).1
  have hunborn : (Place.unborn : Place T).view = {} := rfl
  have hwait : (Place.wait : Place T).view = {} := rfl
  constructor
  all_goals simp only [State.setFiber]
  case fits =>
    intro b
    by_cases hb : b = s.nextFiber
    · rw [hb, Function.update_self, Function.update_self]
      exact ⟨rfl, rfl⟩
    · rw [Function.update_of_ne hb, Function.update_of_ne hb]
      exact h.fits b
  case fresh => grind [h.fresh]
  case claims => grind [h.claims]
  case claimed =>
    intro u b hb
    have hold := h.claimed u b
    grind
  case finals => grind [h.finals]
  case names => grind [h.names]
  case current => grind [h.current]
  case inside =>
    intro g hg
    have hold := h.inside g
    grind
  case works => grind [h.works]
  case hidden => grind [h.hidden]
  case given =>
    intro u b w hb hw
    have hold := h.given u b w hb hw
    have hclaim := h.claims u b hb
    grind
  case started =>
    intro u b x hb hx
    have hold := h.started u b x hb hx
    have hclaim := h.claims u b
    have hfinal := h.finals u b
    grind
  case unstarted => grind [h.unstarted]
  case leftIdle => grind [h.leftIdle]
  case leftClaimed => grind [h.leftClaimed]
  case baton =>
    intro g hb hk
    have hold := h.baton g
    grind
  case posts =>
    intro u b hb
    have hold := h.posts u b hb
    have hfinal := h.finals u b (by rw [hb]; rfl)
    grind
  case woken =>
    intro g hg
    have hold := h.woken g hg
    grind
  case killed =>
    intro g hg
    have hold := h.killed g hg
    grind
  case killing =>
    intro g hg
    have hold := h.killing g
    grind

omit [DecidableEq T] in
/-- A fiber that was initialized and whose state is idle is idle. -/
theorem idle_of_state (h : Inv home s) (hused : home a ≠ .unused) (hstate : (s.fiber a).state = .idle) :
    home a = .idle := by
  have hfits := h.fits a
  cases hh : home a with
  | unused => exact absurd hh hused
  | idle => rfl
  | claimed u | running w =>
      rw [hh] at hfits
      rw [hfits.1] at hstate
      cases hstate
  | finalizing u =>
      rw [hh] at hfits
      have hfits' : (s.fiber a).state = .finalized := hfits
      rw [hfits'] at hstate
      cases hstate

omit [DecidableEq T] in
theorem used_of_valid (h : Inv home s) (hvalid : (s.fiber a).valid = true) : home a ≠ .unused := by
  intro hu
  have hfits := h.fits a
  rw [hu] at hfits
  rw [hfits.1] at hvalid
  cases hvalid

/-- A thread that runs inside its fiber goes to a place that says nothing. -/
theorem toGuest (h : Inv home s) (hp : s.place e = q) (hin : q.view.inside = true) (hclaims : q.view.claims = none)
    (hkeeps : q.view.keeps = true) (hshows : q.view.shows = none) : Inv home (s.goto e .guest) :=
  h.innerPlain hp hin hclaims.symm nofun nofun hkeeps hshows rfl (fun _ _ _ => nofun)

/-- A thread moves on and changes what is current on a worker. -/
theorem setCurrent (h : Inv home s) {w : T} {c : Option ℕ} (hp : s.place e = q) (hq : Quiet home s e p)
    (hnew : ∀ b, c = some b → (home b = .running w ∧ e = .fiber b) ∨ home b = .claimed e ∧ p.view.shows = some w)
    (hshows : ∀ v, q.view.shows = some v → p.view.shows = some v ∨ v = w)
    (hhidden : ∀ g, e = .fiber g → p.view.hidden = true → c ≠ some g ∧ ∀ v, s.current v = some g → v = w) :
    Inv home ((s.setCurrent w c).goto e p) := by
  have hset : (s.setCurrent w c).current = Function.update s.current w c := rfl
  refine h.move hq (fun v b hb => ?_) fun g v hg => ?_
  · rw [hset] at hb
    have hold := h.current v b
    have hclaims := h.claims e b
    grind
  · rw [hset]
    have hold := h.hidden g v
    by_cases hge : Endpoint.fiber g = e
    · rw [hge, Function.update_self] at hg
      have hself := hhidden g hge.symm hg
      grind
    · rw [Function.update_of_ne hge] at hg
      obtain ⟨x, hx⟩ := h.inside g (Place.inside_of_hidden hg)
      have hnewg := hnew g
      grind

theorem current_self {g : ℕ} (h : Inv home s) (hin : (s.place (.fiber g)).view.inside = true) {v w : T}
    (hworker : (s.fiber g).worker = some w) (hv : s.current v = some g) : v = w := by
  obtain ⟨x, hx⟩ := h.inside g hin
  have hfits := h.fits g
  rw [hx] at hfits
  rcases h.current v g hv with hrun | ⟨u, hu, -⟩
  · rw [hx] at hrun
    cases hrun
    rw [hfits.2.2] at hworker
    exact Option.some.inj hworker
  · rw [hx] at hu
    cases hu

/-- `fiber_switch` makes the fiber it switches to the current one. -/
theorem leaveCurrent (h : Inv home s) {w : T} (hp : s.place e = .leaveCurrent a w) :
    Inv home ((s.setCurrent w (some a)).goto e (.leaveIdle a w)) := by
  have hpv : (Place.leaveIdle a w : Place T).view =
      { claims := some a, shows := some w, inside := true, works := some w, hidden := true } := rfl
  have hqv : (s.place e).view = { claims := some a, inside := true, works := some w } := by rw [hp]; rfl
  have hclaim : home a = .claimed e := h.claims e a (by rw [hqv])
  refine h.setCurrent hp ⟨by rw [hqv, hpv], nofun, nofun, .inl (by rw [hqv]), nofun, fun _ _ _ => nofun,
    fun _ => .inl (by rw [hqv]), fun g hg _ => h.no_baton hp rfl g hg, fun g v hg hv => ?_,
    h.born hp nofun nofun, fun _ _ _ => nofun, nofun, fun _ _ => nofun, fun _ _ => nofun⟩
    (fun b hb => ?_) nofun fun g hg _ => ?_
  · subst hg
    refine h.works g v ?_
    rw [hqv]
    exact hv
  · cases hb
    exact .inr ⟨hclaim, rfl⟩
  · subst hg
    have hin : (s.place (.fiber g)).view.inside = true := by rw [hqv]
    refine ⟨?_, fun v hv => h.current_self hin (h.works g w (by rw [hqv])) hv⟩
    rintro heq
    cases heq
    obtain ⟨x, hx⟩ := h.inside a hin
    rw [hclaim] at hx
    cases hx

theorem resume (h : Inv home s) {w : T} (hp : s.place e = .resume a w) :
    Inv home (((s.setFiber a { s.fiber a with worker := some w }).setCurrent w (some a)).goto e (.create a w)) := by
  have hpv : (Place.create a w : Place T).view =
      { claims := some a, keeps := false, shows := some w, given := some w, left := some w } := rfl
  have hqv : (s.place e).view = { claims := some a, keeps := false, shows := some w, left := some w } := by
    rw [hp]
    rfl
  have hclaim : home a = .claimed e := h.claims e a (by rw [hqv])
  have hfits := h.fits a
  rw [hclaim] at hfits
  have hset : Inv home (s.setFiber a { s.fiber a with worker := some w }) := by
    refine h.setFiber ?_ (.inr ⟨e, hclaim, by rw [hqv], by rw [hqv]⟩) (.inl rfl) (fun hb => ?_) (fun hk => ?_) id
    · rw [hclaim]
      exact hfits
    · refine ⟨?_, .inl hb⟩
      cases hstarted : (s.fiber a).hostStarted with
      | true => rfl
      | false =>
          have hnot := (h.unstarted a hstarted).2
          rw [show (s.fiber a).baton = true from hb] at hnot
          cases hnot
    · have hk' : (s.fiber a).kill = true := hk
      have hnot : (s.fiber a).kill = false := hfits.2
      rw [hk'] at hnot
      cases hnot
  refine hset.setCurrent (q := .resume a w) hp ⟨?_, nofun, nofun, .inr (.inl rfl), fun b v hb hv => ?_,
    fun _ _ _ => nofun, nofun, fun _ _ => ?_, fun _ _ _ => nofun, hset.born hp nofun nofun, fun g v _ hv => ?_,
    nofun, fun _ _ => nofun, fun _ _ => nofun⟩ (fun b hb => ?_) (fun v hv => .inl hv) fun g hg => nofun
  · show _ = (s.place e).view.claims
    rw [hqv]
    rfl
  · cases hb
    cases hv
    show (Function.update s.fiber a _ a).worker = some w
    rw [Function.update_self]
  · rintro (hb | hb)
    · cases hb
    · cases hb
  · show (s.place e).view.left = some v
    rw [hqv]
    exact hv
  · cases hb
    exact .inr ⟨hclaim, rfl⟩

/-- A thread that is outside its fiber moves on, with the fiber it has claimed. -/
theorem outer (h : Inv home s) (hp : s.place e = q) (hclaims : p.view.claims = q.view.claims)
    (hfinals : p.view.finals = none) (hnames : p.view.names = none)
    (hkeeps : p.view.keeps = false ∨ q.view.keeps = true ∨ ∀ a, q.view.claims = some a → (s.fiber a).hostStarted = false)
    (hgiven : p.view.given = none ∨ p.view.given = q.view.given)
    (hstarted : ∀ a b, q.view.claims = some a → p.view.started = some b → (s.fiber a).hostStarted = b)
    (hin : p.view.inside = false ∨ ∀ g, e ≠ .fiber g) (hworks : p.view.works = none)
    (hleft : p.view.left = none ∨ p.view.left = q.view.left)
    (hshows : q.view.shows = none ∨ p.view.shows = q.view.shows) (hhidden : p.view.hidden = false)
    (hplace : p ≠ .woken ∧ p ≠ .killed ∧ ∀ a, p ≠ .finPost a)
    (hborn : q ≠ .unborn ∧ q ≠ .wait ∨ p = .wait) : Inv home (s.goto e p) := by
  refine h.goto hp hshows hhidden ⟨?_, ?_, ?_, ?_, ?_, ?_, ?_, ?_, ?_, ?_, ?_, ?_, ?_, ?_⟩
  · rw [hp]
    exact hclaims
  · intro a ha
    rw [hfinals] at ha
    cases ha
  · intro a ha
    rw [hnames] at ha
    cases ha
  · rw [hp, hclaims]
    rcases hkeeps with hk | hk | hk
    · exact .inr (.inl hk)
    · exact .inl hk
    · exact .inr (.inr hk)
  · intro a w ha hw
    rcases hgiven with hnone | hsame
    · rw [hnone] at hw
      cases hw
    · refine h.given e a w ?_ ?_
      · rw [hp, ← hclaims]
        exact ha
      · rw [hp, ← hsame]
        exact hw
  · intro a b ha hb
    rcases ha with ha | ha
    · rw [hclaims] at ha
      exact hstarted a b ha hb
    · rw [hfinals] at ha
      cases ha
  · intro hi
    rcases hin with hnot | hthread
    · rw [hnot] at hi
      cases hi
    · exact .inr fun g hg => absurd hg (hthread g)
  · intro g hg hi
    rcases hi with hi | hwoken
    · rcases hin with hnot | hthread
      · rw [hnot] at hi
        cases hi
      · exact absurd hg (hthread g)
    · exact absurd hwoken hplace.1
  · intro g w _ hw
    rw [hworks] at hw
    cases hw
  · rcases hborn with hborn | hwait
    · exact h.born hp hborn.1 hborn.2
    · exact fun _ _ => .inr hwait
  · intro g w _ hw
    rcases hleft with hnone | hsame
    · rw [hnone] at hw
      cases hw
    · rw [hp, ← hsame]
      exact hw
  · exact fun a ha => absurd ha (hplace.2.2 a)
  · exact fun g _ hwoken => absurd hwoken hplace.1
  · exact fun g _ hkilled => absurd hkilled hplace.2.1

theorem create (h : Inv home s) {w : T} (hp : s.place e = .create a w)
    (hnot : (s.fiber a).hostStarted = false) :
    Inv home ((s.goto (.fiber a) .wait).goto e (.started a w)) := by
  have hplace := (h.unstarted a hnot).1
  have hview : (s.place (.fiber a)).view = {} := by
    rcases hplace with hplace | hplace
    · rw [hplace]
      rfl
    · rw [hplace]
      rfl
  have hne : e ≠ .fiber a := by
    rintro rfl
    rw [hp] at hplace
    rcases hplace with hplace | hplace
    · cases hplace
    · cases hplace
  have hborn : Inv home (s.goto (.fiber a) .wait) := by
    refine h.outer rfl ?_ rfl rfl (.inr (.inl ?_)) (.inl rfl) (fun _ _ _ => nofun) (.inl rfl) rfl (.inl rfl)
      (.inl ?_) rfl ⟨nofun, nofun, nofun⟩ (.inr rfl)
    · rw [hview]
      rfl
    · rw [hview]
    · rw [hview]
  have hp' : (s.goto (.fiber a) .wait).place e = .create a w := by
    show Function.update s.place (.fiber a) .wait e = .create a w
    rw [Function.update_of_ne hne]
    exact hp
  exact hborn.outer hp' rfl rfl rfl (.inl rfl) (.inr rfl) (fun _ _ _ => nofun) (.inl rfl) rfl (.inr rfl)
    (.inr rfl) rfl ⟨nofun, nofun, nofun⟩ (.inl ⟨nofun, nofun⟩)

theorem started_set (h : Inv home s) {w : T} (hp : s.place e = .started a w) :
    Inv home ((s.setFiber a { s.fiber a with hostStarted := true }).goto e (.post a w)) := by
  have hqv : (s.place e).view =
      { claims := some a, keeps := false, shows := some w, given := some w, left := some w } := by
    rw [hp]
    rfl
  have hclaim : home a = .claimed e := h.claims e a (by rw [hqv])
  have hfits := h.fits a
  rw [hclaim] at hfits
  have hset : Inv home (s.setFiber a { s.fiber a with hostStarted := true }) := by
    refine h.setFiber ?_ (.inl rfl) (.inr ⟨rfl, e, hclaim, by rw [hqv]⟩) (fun hb => ⟨rfl, .inl hb⟩) (h.killing a) id
    rw [hclaim]
    exact hfits
  have hp' : (s.setFiber a { s.fiber a with hostStarted := true }).place e = .started a w := hp
  refine hset.outer hp' rfl rfl rfl (.inl rfl) (.inr rfl) (fun b x hb hx => ?_) (.inl rfl) rfl (.inr rfl)
    (.inr rfl) rfl ⟨nofun, nofun, nofun⟩ (.inl ⟨nofun, nofun⟩)
  cases hb
  cases hx
  show (Function.update s.fiber a _ a).hostStarted = true
  rw [Function.update_self]

theorem failed (h : Inv home s) {w : T} (hp : s.place e = .failed a w)
    (hpe : p = .giveBack a ∧ (∀ g, e ≠ .fiber g) ∨ p = .claimSelf a w) :
    Inv home ((s.setCurrent w none).goto e p) := by
  have hqv : (s.place e).view =
      { claims := some a, keeps := false, shows := some w, started := some false, left := some w } := by
    rw [hp]
    rfl
  have hnot : (s.fiber a).hostStarted = false :=
    h.started e a false (by rw [hqv]; exact .inl rfl) (by rw [hqv])
  rcases hpe with ⟨rfl, hthread⟩ | rfl
  · refine h.setCurrent hp ⟨by rw [hqv]; rfl, nofun, nofun, .inr (.inr fun b hb => ?_), nofun, fun _ _ _ => nofun,
      fun _ => .inr fun g hg => absurd hg (hthread g), fun g hg => absurd hg (hthread g), fun _ _ _ => nofun,
      fun g hg => absurd hg (hthread g), fun _ _ _ => nofun, nofun, fun _ _ => nofun, fun _ _ => nofun⟩ nofun
      (fun v hv => .inr ?_) nofun
    · cases hb
      exact hnot
    · cases hv
      rfl
  · refine h.setCurrent hp ⟨by rw [hqv]; rfl, nofun, nofun, .inr (.inl rfl), fun _ _ _ => nofun, fun b x hb hx => ?_,
      nofun, fun _ _ => ?_, fun _ _ _ => nofun, h.born hp nofun nofun, fun g v _ hv => ?_, nofun, fun _ _ => nofun,
      fun _ _ => nofun⟩ nofun (fun v hv => .inr ?_) nofun
    · rcases hb with hb | hb
      · cases hb
        cases hx
        exact hnot
      · cases hb
    · rintro (hi | hi)
      · cases hi
      · cases hi
    · rw [hqv]
      exact hv
    · cases hv
      rfl

/-- The fiber that could not switch is current again, or nothing is. -/
theorem showSelf {g : ℕ} (h : Inv home s) {w : T} {c : Option ℕ}
    (hp : s.place (.fiber g) = .showSelf a w ∧ c = some g ∨ s.place (.fiber g) = .hideSelf a w ∧ c = none) :
    Inv home ((s.setCurrent w c).goto (.fiber g) (.giveBack a)) := by
  obtain ⟨q, hq, hclaims, hstarted, hin, hshows, hkeeps, hborn, hnew⟩ : ∃ q, s.place (.fiber g) = q ∧
      q.view.claims = some a ∧ q.view.started = some false ∧ q.view.inside = true ∧ q.view.shows = none ∧
      q.view.keeps = false ∧ (q ≠ .unborn ∧ q ≠ .wait) ∧ ∀ b, c = some b → b = g ∧ q.view.works = some w := by
    rcases hp with ⟨hp, rfl⟩ | ⟨hp, rfl⟩
    · refine ⟨_, hp, rfl, rfl, rfl, rfl, rfl, ⟨nofun, nofun⟩, fun b hb => ?_⟩
      cases hb
      exact ⟨rfl, rfl⟩
    · exact ⟨_, hp, rfl, rfl, rfl, rfl, rfl, ⟨nofun, nofun⟩, nofun⟩
  have hnot : (s.fiber a).hostStarted = false := by
    refine h.started (.fiber g) a false ?_ ?_
    · rw [hq]
      exact .inl hclaims
    · rw [hq]
      exact hstarted
  refine h.setCurrent hq ⟨by rw [hq, hclaims]; rfl, nofun, nofun, .inr (.inr fun b hb => ?_), nofun,
    fun _ _ _ => nofun, fun _ => .inl (by rw [hq]; exact hin), fun y hy _ => h.no_baton hq hin y hy,
    fun _ _ _ => nofun, h.born hq hborn.1 hborn.2, fun _ _ _ => nofun, nofun, fun _ _ => nofun, fun _ _ => nofun⟩
    (fun b hb => ?_) (fun v hv => ?_) nofun
  · cases hb
    exact hnot
  · obtain ⟨rfl, hworks⟩ := hnew b hb
    have hin' : (s.place (.fiber b)).view.inside = true := by
      rw [hq]
      exact hin
    obtain ⟨x, hx⟩ := h.inside b hin'
    have hfits := h.fits b
    rw [hx] at hfits
    have hworker : (s.fiber b).worker = some w := by
      refine h.works b w ?_
      rw [hq]
      exact hworks
    rw [hfits.2.2] at hworker
    cases hworker
    exact .inl ⟨hx, rfl⟩
  · rw [hshows] at hv
    cases hv

theorem backCurrent {g : ℕ} (h : Inv home s) {w : T} (hp : s.place (.fiber g) = .backCurrent w) :
    Inv home ((s.setCurrent w none).goto (.fiber g) (.backIdle w)) := by
  have hqv : (s.place (.fiber g)).view = { inside := true, works := some w } := by rw [hp]; rfl
  refine h.setCurrent hp ⟨by rw [hqv]; rfl, nofun, nofun, .inl (by rw [hqv]), nofun, fun _ _ _ => nofun,
    fun _ => .inl (by rw [hqv]), fun y hy _ => h.no_baton hp rfl y hy, fun y v hy hv => ?_,
    h.born hp nofun nofun, fun _ _ _ => nofun, nofun, fun _ _ => nofun, fun _ _ => nofun⟩ nofun nofun
    fun y hy _ => ⟨nofun, fun v hv => ?_⟩
  · cases hy
    refine h.works g v ?_
    rw [hqv]
    exact hv
  · cases hy
    exact h.current_self (by rw [hqv]) (h.works g w (by rw [hqv])) hv

theorem wake {g : ℕ} (h : Inv home s) (hp : s.place (.fiber g) = .wait) (hbaton : (s.fiber g).baton = true) :
    Inv home ((s.setFiber g { s.fiber g with baton := false }).goto (.fiber g) .woken) := by
  have hset : Inv home (s.setFiber g { s.fiber g with baton := false }) :=
    h.setFiber (by
      have hfits := h.fits g
      cases hh : home g with
      | unused =>
          rw [hh] at hfits
          rw [hfits.2.2.1] at hbaton
          cases hbaton
      | _ =>
          rw [hh] at hfits
          exact hfits) (.inl rfl) (.inl rfl) nofun (h.killing g) id
  have hfiber : (s.setFiber g { s.fiber g with baton := false }).fiber g = { s.fiber g with baton := false } :=
    Function.update_self ..
  have hqv : ((s.setFiber g { s.fiber g with baton := false }).place (.fiber g)).view = {} := by
    show (s.place (.fiber g)).view = {}
    rw [hp]
    rfl
  refine hset.goto (q := .wait) hp (.inl rfl) rfl ⟨by rw [hqv]; rfl, nofun, nofun, .inl (by rw [hqv]), nofun,
    fun _ _ _ => nofun, nofun, fun y hy _ => ?_, fun _ _ _ => nofun, fun y hy => ?_, fun _ _ _ => nofun, nofun,
    fun y hy _ => ?_, fun _ _ => nofun⟩
  · cases hy
    rw [hfiber]
  · cases hy
    refine .inl ?_
    rw [hfiber]
    show (s.fiber g).hostStarted = true
    cases hstarted : (s.fiber g).hostStarted with
    | true => rfl
    | false =>
        rw [(h.unstarted g hstarted).2] at hbaton
        cases hbaton
  · cases hy
    rw [hfiber]
    show (s.fiber g).kill = true ∨ ∃ w, home g = .running w
    cases hkill : (s.fiber g).kill with
    | true => exact .inl rfl
    | false => exact .inr (h.baton g hbaton hkill).1

theorem woken_next {g : ℕ} (h : Inv home s) (hp : s.place (.fiber g) = .woken)
    (hpe : p = .killed ∧ (s.fiber g).kill = true ∨ p = .guest ∧ (s.fiber g).kill = false) :
    Inv home (s.goto (.fiber g) p) := by
  have hqv : (s.place (.fiber g)).view = {} := by rw [hp]; rfl
  have hborn := h.born hp (p := p) nofun nofun
  rcases hpe with ⟨rfl, hkill⟩ | ⟨rfl, hkill⟩
  · refine h.goto hp (.inl rfl) rfl ⟨by rw [hqv]; rfl, nofun, nofun, .inl (by rw [hqv]), nofun, fun _ _ _ => nofun,
      nofun, fun _ _ => ?_, fun _ _ _ => nofun, hborn, fun _ _ _ => nofun, nofun, fun _ _ => nofun, fun y hy _ => ?_⟩
    · rintro (hi | hi)
      · cases hi
      · cases hi
    · cases hy
      exact hkill
  · refine h.goto hp (.inl rfl) rfl ⟨by rw [hqv]; rfl, nofun, nofun, .inl (by rw [hqv]), nofun, fun _ _ _ => nofun,
      fun _ => .inr fun y hy => ?_, fun y hy _ => ?_, fun _ _ _ => nofun, hborn, fun _ _ _ => nofun, nofun,
      fun _ _ => nofun, fun _ _ => nofun⟩
    · cases hy
      rcases h.woken g hp with hk | hrun
      · rw [hkill] at hk
        cases hk
      · exact hrun
    · cases hy
      cases hbaton : (s.fiber g).baton with
      | false => rfl
      | true => exact absurd hp (h.baton g hbaton hkill).2.2

theorem finalizing (h : Inv home s) {f : Fiber T} (hp : s.place e = q) (hfinals : q.view.finals = some a)
    (hin : q.view.inside = true) (hclaims : q.view.claims = none) (hkeeps : q.view.keeps = true)
    (hshows : q.view.shows = none) (hstate : f.state = (s.fiber a).state)
    (hworker : f.worker = (s.fiber a).worker) (hstarted : f.hostStarted = (s.fiber a).hostStarted)
    (hbaton : f.baton = true → f.hostStarted = true ∧ ((s.fiber a).baton = true ∨ f.kill = true))
    (hkills : (s.fiber a).kill = true → f.kill = true)
    (hpe : p = .guest ∨ p = .finClear a ∨ p = .finFree a ∨
      p = .finPost a ∧ f.kill = true ∧ f.hostStarted = true) :
    Inv home ((s.setFiber a f).goto e p) := by
  have hhome : home a = .finalizing e := by
    refine h.finals e a ?_
    rw [hp]
    exact hfinals
  have hfits := h.fits a
  rw [hhome] at hfits
  have hset : Inv home (s.setFiber a f) := by
    refine h.setFiber ?_ (.inl hworker) (.inl hstarted) hbaton (fun _ => ⟨e, hhome⟩) hkills
    rw [hhome]
    exact hstate.trans hfits
  have hp' : (s.setFiber a f).place e = q := hp
  have hfiber : (s.setFiber a f).fiber a = f := Function.update_self ..
  rcases hpe with rfl | rfl | rfl | ⟨rfl, hkill, hhost⟩
  · exact hset.toGuest hp' hin hclaims hkeeps hshows
  · exact hset.innerPlain hp' hin hclaims.symm (fun b hb => hfinals.trans hb) nofun hkeeps hshows rfl (fun _ _ _ => nofun)
  · exact hset.innerPlain hp' hin hclaims.symm (fun b hb => hfinals.trans hb) nofun hkeeps hshows rfl (fun _ _ _ => nofun)
  · refine hset.inner hp' hin hclaims.symm (fun b hb => hfinals.trans hb) nofun hkeeps rfl (fun b x hb hx => ?_)
      hshows rfl rfl (fun _ _ _ => nofun) (fun b hb => ?_) ⟨nofun, nofun⟩
    · rcases hb with hb | hb
      · cases hb
      · cases hb
        cases hx
        rw [hfiber]
        exact hhost
    · cases hb
      rw [hfiber]
      exact hkill

omit [DecidableEq T] in
theorem batons (h : Inv home s) (baton : T → Bool) : Inv home { s with baton } :=
  ⟨h.fits, h.fresh, h.claims, h.claimed, h.finals, h.names, h.current, h.inside, h.works, h.hidden, h.given,
    h.started, h.unstarted, h.leftIdle, h.leftClaimed, h.baton, h.posts, h.woken, h.killed, h.killing⟩

theorem next (h : Inv home s) {ok : Bool} (hok : Unclaimed s (.next e ok)) {s' : State T}
    (hs : next s e ok = some s') : ∃ home', Inv home' s' := by
  cases hp : s.place e with
  | unborn | guest | gone =>
      simp only [FiberThreads.next, hp] at hs
      cases hs
  | valid a =>
      simp only [FiberThreads.next, hp] at hs
      split at hs
      · rename_i hvalid
        cases hs
        refine ⟨home, h.innerPlain hp rfl rfl nofun (fun b hb => ?_) rfl rfl rfl (fun _ _ _ => nofun)⟩
        cases hb
        exact h.used_of_valid hvalid
      · cases hs
        exact ⟨home, h.toGuest hp rfl rfl rfl rfl⟩
  | finValid a =>
      simp only [FiberThreads.next, hp] at hs
      split at hs
      · rename_i hvalid
        cases hs
        refine ⟨home, h.innerPlain hp rfl rfl nofun (fun b hb => ?_) rfl rfl rfl (fun _ _ _ => nofun)⟩
        cases hb
        exact h.used_of_valid hvalid
      · cases hs
        exact ⟨home, h.toGuest hp rfl rfl rfl rfl⟩
  | take a =>
      simp only [FiberThreads.next, hp] at hs
      split at hs
      · rename_i hstate
        cases hs
        exact ⟨_, h.take hp (h.idle_of_state (h.names e a (by rw [hp]; rfl)) hstate)⟩
      · cases hs
        exact ⟨home, h.toGuest hp rfl rfl rfl rfl⟩
  | finTake a =>
      simp only [FiberThreads.next, hp] at hs
      split at hs
      · rename_i hstate
        cases hs
        exact ⟨_, h.finTake hp (h.idle_of_state (h.names e a (by rw [hp]; rfl)) hstate)⟩
      · cases hs
        exact ⟨home, h.toGuest hp rfl rfl rfl rfl⟩
  | prepare a =>
      simp only [FiberThreads.next, hp] at hs
      split at hs
      · unfold handOver at hs
        split at hs
        · rename_i t
          cases hs
          refine ⟨home, h.goto hp (.inl rfl) rfl ⟨by rw [hp]; rfl, (by intros; contradiction), (by intros; contradiction), .inr (.inl rfl), (by intros; contradiction),
            fun _ _ _ => (by intros; contradiction), (by simp), (by simp), (by simp), (by simp), (by simp), (by simp), (by simp), (by simp)⟩⟩
        · rename_i g
          obtain ⟨w, hw, rfl⟩ := Option.map_eq_some_iff.1 hs
          refine ⟨home, h.innerPlain hp rfl rfl nofun nofun rfl rfl rfl (fun y v hy hv => ?_)⟩
          cases hy
          cases hv
          exact hw
      · cases hs
        exact ⟨home, h.innerPlain hp rfl rfl nofun nofun rfl rfl rfl (fun _ _ _ => nofun)⟩
  | giveBack a =>
      simp only [FiberThreads.next, hp] at hs
      cases hs
      exact ⟨_, h.giveBack hp⟩
  | leaveCurrent a w =>
      simp only [FiberThreads.next, hp] at hs
      cases hs
      exact ⟨home, h.leaveCurrent hp⟩
  | leaveIdle a w =>
      simp only [FiberThreads.next, hp] at hs
      split at hs
      · cases hs
      · cases hs
        exact ⟨_, h.leave hp rfl rfl rfl rfl rfl rfl rfl rfl rfl rfl rfl (fun _ hv => hv)
          ⟨(by simp), (by simp), (by simp), rfl⟩⟩
  | resume a w =>
      simp only [FiberThreads.next, hp] at hs
      cases hs
      exact ⟨home, h.resume hp⟩
  | create a w =>
      simp only [FiberThreads.next, hp] at hs
      split at hs
      · rename_i hstarted
        cases hs
        refine ⟨home, h.outer hp rfl rfl rfl (.inl rfl) (.inr rfl) (fun b x hb hx => ?_) (.inl rfl) rfl (.inr rfl)
          (.inr rfl) rfl ⟨(by simp), (by simp), (by simp)⟩ (.inl ⟨(by simp), (by simp)⟩)⟩
        cases hb
        cases hx
        exact hstarted
      · rename_i hnot
        have hnot' : (s.fiber a).hostStarted = false := Bool.eq_false_iff.2 hnot
        split at hs
        · cases hs
          exact ⟨home, h.create hp hnot'⟩
        · cases hs
          refine ⟨home, h.outer hp rfl rfl rfl (.inl rfl) (.inl rfl) (fun b x hb hx => ?_) (.inl rfl) rfl (.inr rfl)
            (.inr rfl) rfl ⟨(by simp), (by simp), (by simp)⟩ (.inl ⟨(by simp), (by simp)⟩)⟩
          cases hb
          cases hx
          exact hnot'
  | started a w =>
      simp only [FiberThreads.next, hp] at hs
      cases hs
      exact ⟨home, h.started_set hp⟩
  | post a w =>
      simp only [FiberThreads.next, hp] at hs
      cases hs
      exact ⟨_, h.post hp⟩
  | failed a w =>
      simp only [FiberThreads.next, hp] at hs
      split at hs
      · cases hs
        exact ⟨home, h.failed hp (.inl ⟨rfl, (by simp)⟩)⟩
      · cases hs
        exact ⟨home, h.failed hp (.inr rfl)⟩
  | claimSelf a w =>
      cases e with
      | thread t =>
          simp only [FiberThreads.next, hp] at hs
          cases hs
      | fiber g =>
          have hstate : (s.fiber g).state = .idle := by
            simp only [Unclaimed, hp] at hok
            exact hok
          simp only [FiberThreads.next, hp, if_pos hstate] at hs
          cases hs
          have hused : home g ≠ .unused := by
            intro hu
            have hfits := h.fits g
            rw [hu] at hfits
            obtain ⟨hplace, -⟩ := h.unstarted g hfits.2.1
            rw [hp] at hplace
            rcases hplace with hplace | hplace
            · cases hplace
            · cases hplace
          exact ⟨_, h.claimSelf hp (h.idle_of_state hused hstate)⟩
  | showSelf a w =>
      simp only [FiberThreads.next, hp] at hs
      split at hs
      · cases hs
      · cases hs
        exact ⟨home, h.showSelf (.inl ⟨hp, rfl⟩)⟩
  | hideSelf a w =>
      simp only [FiberThreads.next, hp] at hs
      split at hs
      · cases hs
      · cases hs
        exact ⟨home, h.showSelf (.inr ⟨hp, rfl⟩)⟩
  | wait =>
      simp only [FiberThreads.next, hp] at hs
      unfold batonWait at hs
      split at hs
      · split at hs
        · cases hs
          rename_i t _
          have hset := h.batons (Function.update s.baton t false)
          have hp' : ({ s with baton := Function.update s.baton t false } : State T).place (.thread t) = .wait := hp
          exact ⟨home, hset.goto hp' (.inl rfl) rfl ⟨by rw [hp']; rfl, (by intros; contradiction), (by intros; contradiction), .inl (by rw [hp']; rfl), (by intros; contradiction),
            fun _ _ _ => (by intros; contradiction), fun _ => .inr (by simp), (by simp), (by simp), (by simp), (by simp), (by simp), (by simp), (by simp)⟩⟩
        · cases hs
      · split at hs
        · rename_i hbaton
          cases hs
          exact ⟨home, h.wake hp hbaton⟩
        · cases hs
  | woken =>
      simp only [FiberThreads.next, hp] at hs
      split at hs
      · cases hs
      · split at hs
        · rename_i hkill
          cases hs
          exact ⟨home, h.woken_next hp (.inl ⟨rfl, hkill⟩)⟩
        · rename_i hkill
          cases hs
          exact ⟨home, h.woken_next hp (.inr ⟨rfl, Bool.eq_false_iff.2 hkill⟩)⟩
  | killed =>
      simp only [FiberThreads.next, hp] at hs
      cases hs
      exact ⟨home, h.outer hp rfl rfl rfl (.inr (.inl rfl)) (.inl rfl) (fun _ _ _ => (by intros; contradiction)) (.inl rfl) rfl (.inl rfl)
        (.inl rfl) rfl ⟨(by simp), (by simp), (by simp)⟩ (.inl ⟨(by simp), (by simp)⟩)⟩
  | backCurrent w =>
      simp only [FiberThreads.next, hp] at hs
      split at hs
      · cases hs
      · cases hs
        exact ⟨home, h.backCurrent hp⟩
  | backIdle w =>
      simp only [FiberThreads.next, hp] at hs
      split at hs
      · cases hs
      · cases hs
        exact ⟨_, h.leave hp rfl rfl rfl rfl rfl rfl rfl rfl rfl rfl rfl (by intros; contradiction)
          ⟨(by simp), (by simp), (by simp), rfl⟩⟩
  | backPost w =>
      simp only [FiberThreads.next, hp] at hs
      cases hs
      exact ⟨home, (h.batons _).outer hp rfl rfl rfl (.inr (.inl rfl)) (.inl rfl) (fun _ _ _ => (by intros; contradiction)) (.inl rfl) rfl
        (.inl rfl) (.inl rfl) rfl ⟨(by simp), (by simp), (by simp)⟩ (.inl ⟨(by simp), (by simp)⟩)⟩
  | finKill a =>
      simp only [FiberThreads.next, hp] at hs
      split at hs
      · rename_i hstarted
        cases hs
        exact ⟨home, h.finalizing hp rfl rfl rfl rfl rfl rfl rfl rfl (fun _ => ⟨hstarted, .inr rfl⟩)
          (fun _ => rfl) (.inr (.inr (.inr ⟨rfl, rfl, hstarted⟩)))⟩
      · cases hs
        exact ⟨home, h.innerPlain hp rfl rfl (fun _ hb => hb) nofun rfl rfl rfl (fun _ _ _ => nofun)⟩
  | finPost a =>
      simp only [FiberThreads.next, hp] at hs
      cases hs
      have hkill := h.posts e a hp
      have hstarted : (s.fiber a).hostStarted = true := by
        refine h.started e a true ?_ ?_
        · rw [hp]
          exact .inr rfl
        · rw [hp]
          rfl
      exact ⟨home, h.finalizing hp rfl rfl rfl rfl rfl rfl rfl rfl (fun _ => ⟨hstarted, .inr hkill⟩)
        id (.inr (.inl rfl))⟩
  | finFree a =>
      simp only [FiberThreads.next, hp] at hs
      cases hs
      exact ⟨home, h.innerPlain hp rfl rfl (fun _ hb => hb) nofun rfl rfl rfl (fun _ _ _ => nofun)⟩
  | finClear a =>
      simp only [FiberThreads.next, hp] at hs
      cases hs
      have hunstarted := h.unstarted a
      refine ⟨home, h.finalizing hp rfl rfl rfl rfl rfl rfl rfl rfl (fun hb => ⟨?_, .inl hb⟩) id
        (.inl rfl)⟩
      cases hstarted : (s.fiber a).hostStarted with
      | true => rfl
      | false =>
          have hb' : (s.fiber a).baton = true := hb
          rw [(hunstarted hstarted).2] at hb'
          cases hb'

/-- **Every step that leaves a switching fiber unclaimed keeps the invariant.** -/
theorem exec (h : Inv home s) {act : Act T} (hok : Unclaimed s act) {s' : State T}
    (hs : exec s act = some s') : ∃ home', Inv home' s' := by
  cases act with
  | fiberInitialize e =>
      simp only [FiberThreads.exec] at hs
      split at hs
      · cases hs
        exact ⟨_, h.fiberInitialize⟩
      · cases hs
  | run t a =>
      simp only [FiberThreads.exec] at hs
      split at hs
      · rename_i hp
        cases hs
        exact ⟨home, h.innerPlain hp rfl rfl nofun nofun rfl rfl rfl (fun _ _ _ => nofun)⟩
      · cases hs
  | switch g a =>
      simp only [FiberThreads.exec] at hs
      split at hs
      · rename_i hp
        cases hs
        exact ⟨home, h.innerPlain hp rfl rfl nofun nofun rfl rfl rfl (fun _ _ _ => nofun)⟩
      · cases hs
  | returnToThread g =>
      simp only [FiberThreads.exec] at hs
      split at hs
      · rename_i hp
        obtain ⟨w, hw, rfl⟩ := Option.map_eq_some_iff.1 hs
        refine ⟨home, h.innerPlain hp rfl rfl nofun nofun rfl rfl rfl (fun y v hy hv => ?_)⟩
        cases hy
        cases hv
        exact hw
      · cases hs
  | finalize e a =>
      simp only [FiberThreads.exec] at hs
      split at hs
      · rename_i hp
        cases hs
        exact ⟨home, h.innerPlain hp rfl rfl nofun nofun rfl rfl rfl (fun _ _ _ => nofun)⟩
      · cases hs
  | next e ok => exact h.next hok hs

end Inv

end PS4Recomp.Runtime.FiberThreads
