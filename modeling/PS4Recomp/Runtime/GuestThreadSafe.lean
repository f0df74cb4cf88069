import PS4Recomp.Runtime.GuestThreadInv

/-!
# Guest threads: joins, and the life of the objects

* `Joins` — what a joining thread knows about the thread it waits for, `Joins.exec` — every step keeps it;
* `inv_reachable` — both invariants hold in runs of careful steps;
* **`guestThread_lifetime`** — in runs of careful steps no step touches a freed object, none is freed
  twice, and of the joins of a thread one returns 0, after its end and with its value;
* `guestThread_uncareful` — without the condition a thread broadcasts on its freed object, and a creation
  that failed leaves its object registered.
-/

namespace PS4Recomp.Runtime.GuestThread

open Library.Transition

/-- What a join has seen of the thread it waits for. -/
def Ready (s : State) : Place → Prop
  | .joinLeave o | .joinRead o => (s.obj o).terminated = true
  | .joinHost o v => (s.obj o).terminated = true ∧ s.exited o = some v
  | .joinMark o v => s.place o = .ended ∧ s.exited o = some v
  | _ => True

/-- What the threads know about the thread they join, or have joined. -/
structure Joins (s : State) : Prop where
  stored : ∀ a, (s.place a).view.stored = true → s.exited a = some (s.obj a).retVal
  terminated : ∀ o, (s.obj o).terminated = true → (s.place o).view.finished = true
  value : ∀ o, (s.obj o).terminated = true → s.exited o = some (s.obj o).retVal
  joins : ∀ a o, (s.place a).view.joins = some o → (s.obj o).joiner = some a
  attached : ∀ a o, (s.place a).view.joins = some o → (s.obj o).detached = false
  ready : ∀ a, Ready s (s.place a)
  returns : ∀ a o v, (s.place a).view.returns = some (o, v) →
    (s.obj o).detached = true ∧ s.exited o = some v ∧ s.place o = .ended
  fresh : ∀ a o v w, (s.place a).view.returns = some (o, v) → (o, w) ∉ s.joined
  unique : ∀ a b o v w, (s.place a).view.returns = some (o, v) → (s.place b).view.returns = some (o, w) →
    a = b
  joined : ∀ o v, (o, v) ∈ s.joined →
    (s.obj o).detached = true ∧ s.exited o = some v ∧ s.place o = .ended
  nodup : (s.joined.map Prod.fst).Nodup

theorem Ready.mono {s s' : State} {p : Place} (h : Ready s p)
    (hterm : ∀ o, (s.obj o).terminated = true → (s'.obj o).terminated = true)
    (hended : ∀ o, s.place o = .ended → s'.place o = .ended)
    (hexited : ∀ o v, (s.obj o).terminated = true ∨ s.place o = .ended → s.exited o = some v →
      s'.exited o = some v) : Ready s' p := by
  cases p with
  | joinLeave o => exact hterm o h
  | joinRead o => exact hterm o h
  | joinHost o v => exact ⟨hterm o h.1, hexited o v (.inl h.1) h.2⟩
  | joinMark o v => exact ⟨hended o h.1, hexited o v (.inr h.1) h.2⟩
  | _ => trivial

/-- A move of a thread that learns nothing about another. -/
structure Still (s : State) (a : ℕ) (p : Place) : Prop where
  ended : s.place a ≠ .ended
  stored : p.view.stored = true → (s.place a).view.stored = true
  finished : (s.place a).view.finished = true → p.view.finished = true
  joins : ∀ o, p.view.joins = some o → (s.place a).view.joins = some o
  returns : ∀ x, p.view.returns = some x → (s.place a).view.returns = some x
  ready : Ready s p

theorem Still.of_view {s : State} {a : ℕ} {p q : Place} (hp : s.place a = q) (hended : q ≠ .ended)
    (hview : p.view = q.view) (hready : Ready s p) : Still s a p where
  ended := by rw [hp]; exact hended
  stored := by rw [hp, hview]; exact id
  finished := by rw [hp, hview]; exact id
  joins o := by rw [hp, hview]; exact id
  returns x := by rw [hp, hview]; exact id
  ready := hready

theorem Still.of_idle {s : State} {a : ℕ} {p q : Place} (hp : s.place a = q) (hended : q ≠ .ended)
    (hfinished : q.view.finished = false) (hstored : p.view.stored = false) (hjoins : p.view.joins = none)
    (hreturns : p.view.returns = none) (hready : Ready s p) : Still s a p where
  ended := by rw [hp]; exact hended
  stored := by rw [hstored]; nofun
  finished := by rw [hp, hfinished]; nofun
  joins o := by rw [hjoins]; nofun
  returns x := by rw [hreturns]; nofun
  ready := hready

attribute [local grind =] Function.update_apply

namespace Joins

variable {s : State} {a o : ℕ} {p : Place}

theorem ready_moved (h : Joins s) (hready : Ready s p) (b : ℕ) : Ready s (Function.update s.place a p b) := by
  by_cases hba : b = a
  · rw [hba, Function.update_self]
    exact hready
  · rw [Function.update_of_ne hba]
    exact h.ready b

/-- A thread moves on, and the fields of the objects that joins look at stay. -/
theorem quiet (h : Joins s) (obj : ℕ → RecompThread) {threads gcList next released failed}
    (hobj : ∀ o, (obj o).terminated = (s.obj o).terminated ∧ (obj o).joiner = (s.obj o).joiner ∧
      (obj o).retVal = (s.obj o).retVal ∧ (obj o).detached = (s.obj o).detached)
    (hq : Still s a p) :
    Joins { s with obj, threads, gcList, next, released, failed, place := Function.update s.place a p } := by
  obtain ⟨hended, hstored, hfinished, hjoins, hreturns, hready⟩ := hq
  have hterm : ∀ o, (obj o).terminated = (s.obj o).terminated := fun o => (hobj o).1
  have hjoiner : ∀ o, (obj o).joiner = (s.obj o).joiner := fun o => (hobj o).2.1
  have hvalue : ∀ o, (obj o).retVal = (s.obj o).retVal := fun o => (hobj o).2.2.1
  have hflag : ∀ o, (obj o).detached = (s.obj o).detached := fun o => (hobj o).2.2.2
  have hends : ∀ o, s.place o = .ended → Function.update s.place a p o = .ended := by
    intro o ho
    have hne : o ≠ a := fun heq => hended (by rw [← heq]; exact ho)
    rw [Function.update_of_ne hne]
    exact ho
  constructor
  case stored => grind [h.stored]
  case terminated => grind [h.terminated]
  case value => grind [h.value]
  case joins => grind [h.joins]
  case attached => grind [h.attached]
  case ready =>
    intro b
    have hb := h.ready_moved (p := p) (a := a) hready b
    exact hb.mono (fun o ho => by rw [hterm]; exact ho) hends fun _ _ _ hv => hv
  case returns =>
    intro b o' w hb
    have hold := h.returns b o' w
    grind
  case fresh => grind [h.fresh]
  case unique => grind [h.unique]
  case joined =>
    intro o' w hw
    have hold := h.joined o' w
    grind
  case nodup => exact h.nodup

theorem exits (h : Joins s) {v : BitVec 64} (hp : s.place a = .running) :
    Joins ({ s.setObj a { s.obj a with retVal := v } with
      exited := Function.update s.exited a (some v) }.goto a .exitMark) := by
  have hgv : Place.exitMark.view = { stored := true } := rfl
  have hrv : Place.running.view = {} := rfl
  have hterm := h.terminated a
  constructor
  all_goals simp only [State.goto, State.setObj]
  case stored => grind [h.stored]
  case terminated => grind [h.terminated]
  case value => grind [h.value]
  case joins => grind [h.joins]
  case attached => grind [h.attached]
  case ready =>
    intro b
    have hb := h.ready_moved (p := .exitMark) (a := a) (by trivial) b
    refine hb.mono (fun o ho => ?_) (fun o ho => ?_) fun o w ho hv => ?_
    · grind
    · grind
    · grind
  case returns =>
    intro b o' w hb
    have hold := h.returns b o' w
    grind
  case fresh => grind [h.fresh]
  case unique => grind [h.unique]
  case joined =>
    intro o' w hw
    have hold := h.joined o' w
    grind
  case nodup => exact h.nodup

theorem terminates (h : Joins s) {t : RecompThread} (hp : s.place a = .exitTerminate)
    (hjoiner : t.joiner = (s.obj a).joiner) (hvalue : t.retVal = (s.obj a).retVal)
    (hflag : t.detached = (s.obj a).detached) (hterm : t.terminated = true) :
    Joins ((s.setObj a t).goto a .exitBroadcast) := by
  have hgv : Place.exitBroadcast.view = { working := false, finished := true } := rfl
  have hrv : Place.exitTerminate.view = { working := false, stored := true } := rfl
  constructor
  all_goals simp only [State.goto, State.setObj]
  case stored => grind [h.stored]
  case terminated => grind [h.terminated]
  case value => grind [h.value, h.stored]
  case joins => grind [h.joins]
  case attached => grind [h.attached]
  case ready =>
    intro b
    have hb := h.ready_moved (p := .exitBroadcast) (a := a) (by trivial) b
    refine hb.mono (fun o ho => ?_) (fun o ho => ?_) fun o w ho hv => hv
    · grind
    · grind
  case returns =>
    intro b o' w hb
    have hold := h.returns b o' w
    grind
  case fresh => grind [h.fresh]
  case unique => grind [h.unique]
  case joined =>
    intro o' w hw
    have hold := h.joined o' w
    grind
  case nodup => exact h.nodup

theorem enters (h : Joins s) {obj : ℕ → RecompThread}
    (hobj : ∀ o', (obj o').terminated = (s.obj o').terminated ∧ (obj o').retVal = (s.obj o').retVal ∧
      (obj o').detached = (s.obj o').detached)
    (hjoiner : ∀ o', (obj o').joiner = if o' = o then some a else (s.obj o').joiner)
    (hp : s.place a = .joinCheck o) (hflag : (s.obj o).detached = false) (hnone : (s.obj o).joiner = none) :
    Joins { s with obj, place := Function.update s.place a (.joinUnlock o) } := by
  have hterm : ∀ o, (obj o).terminated = (s.obj o).terminated := fun o => (hobj o).1
  have hvalue : ∀ o, (obj o).retVal = (s.obj o).retVal := fun o => (hobj o).2.1
  have hdetached : ∀ o, (obj o).detached = (s.obj o).detached := fun o => (hobj o).2.2
  have hgv : (Place.joinUnlock o).view = { joins := some o } := rfl
  have hrv : (Place.joinCheck o).view = {} := rfl
  have hta := h.terminated a
  constructor
  case stored => grind [h.stored]
  case terminated => grind [h.terminated]
  case value => grind [h.value]
  case joins => grind [h.joins]
  case attached => grind [h.attached]
  case ready =>
    intro b
    have hb := h.ready_moved (p := .joinUnlock o) (a := a) (by trivial) b
    refine hb.mono (fun o ho => ?_) (fun o ho => ?_) fun o w ho hv => hv
    · grind
    · grind
  case returns =>
    intro b o' w hb
    have hold := h.returns b o' w
    grind
  case fresh => grind [h.fresh]
  case unique => grind [h.unique]
  case joined =>
    intro o' w hw
    have hold := h.joined o' w
    grind
  case nodup => exact h.nodup

/-- The flag of a thread is set that no other thread joins. -/
theorem flagged (h : Joins s) {t : RecompThread} {q : Place} (hp : s.place a = q) (hended : q ≠ .ended)
    (hfinished : q.view.finished = false) (hother : ∀ b, b ≠ a → (s.place b).view.joins ≠ some o)
    (hterm : t.terminated = (s.obj o).terminated) (hvalue : t.retVal = (s.obj o).retVal) (hflag : t.detached = true)
    (hview : ∀ o' v, p.view.returns = some (o', v) →
      o' = o ∧ (s.obj o).detached = false ∧ s.place o = .ended ∧ s.exited o = some v)
    (hjoins : p.view.joins = none) (hstored : p.view.stored = false) (hready : Ready s p) :
    Joins ((s.setObj o t).goto a p) := by
  have hnew : (s.obj o).detached = false → ∀ w, (o, w) ∉ s.joined := by
    intro hattached w hw
    rw [(h.joined o w hw).1] at hattached
    cases hattached
  have hfirst : (s.obj o).detached = false → ∀ b w, (s.place b).view.returns ≠ some (o, w) := by
    intro hattached b w hb
    rw [(h.returns b o w hb).1] at hattached
    cases hattached
  have hta := h.terminated a
  constructor
  all_goals simp only [State.goto, State.setObj]
  case stored => grind [h.stored]
  case terminated => grind [h.terminated]
  case value => grind [h.value]
  case joins => grind [h.joins]
  case attached => grind [h.attached]
  case ready =>
    intro b
    have hb := h.ready_moved (p := p) (a := a) hready b
    refine hb.mono (fun o ho => ?_) (fun o ho => ?_) fun o w ho hv => hv
    · grind
    · grind
  case returns =>
    intro b o' w hb
    have hold := h.returns b o' w
    grind
  case fresh => grind [h.fresh]
  case unique => grind [h.unique]
  case joined =>
    intro o' w hw
    have hold := h.joined o' w
    grind
  case nodup => exact h.nodup

/-- `do_thread_join` has its value, and marks the thread joined. -/
theorem marks (h : Joins s) {t : RecompThread} {v : BitVec 64} (hp : s.place a = .joinMark o v)
    (hterm : t.terminated = (s.obj o).terminated) (hvalue : t.retVal = (s.obj o).retVal)
    (hflag : t.detached = true) (hview : p.view.returns = some (o, v)) (hjoins : p.view.joins = none)
    (hstored : p.view.stored = false) (hready : Ready s p) : Joins ((s.setObj o t).goto a p) := by
  have hseen : s.place o = .ended ∧ s.exited o = some v := by
    have hr := h.ready a
    rw [hp] at hr
    exact hr
  have hjoiner := h.joins a o (by rw [hp]; rfl)
  have hattached := h.attached a o (by rw [hp]; rfl)
  refine h.flagged hp nofun rfl (fun b hb hjoin => ?_) hterm hvalue hflag (fun o' w hw => ?_) hjoins hstored hready
  · rw [h.joins b o hjoin, Option.some.injEq] at hjoiner
    exact hb hjoiner
  · rw [hview] at hw
    cases hw
    exact ⟨rfl, hattached, hseen⟩

/-- `do_thread_detach` sets the flag of a thread nobody joins. -/
theorem detaches (h : Joins s) {t : RecompThread} (hp : s.place a = .detachCheck o)
    (hterm : t.terminated = (s.obj o).terminated) (hvalue : t.retVal = (s.obj o).retVal)
    (hflag : t.detached = true)
    (hnone : (s.obj o).joiner = none) (hview : p.view.returns = none) (hjoins : p.view.joins = none)
    (hstored : p.view.stored = false) (hready : Ready s p) : Joins ((s.setObj o t).goto a p) := by
  refine h.flagged hp nofun rfl (fun b _ hjoin => ?_) hterm hvalue hflag (fun o' w hw => ?_) hjoins hstored hready
  · rw [h.joins b o hjoin] at hnone
    cases hnone
  · rw [hview] at hw
    cases hw

theorem returned (h : Joins s) {v : BitVec 64} (hview : (s.place a).view.returns = some (o, v))
    (hfinished : (s.place a).view.finished = false) :
    Joins ({ s with joined := (o, v) :: s.joined }.goto a .running) := by
  have hrv : Place.running.view = {} := rfl
  have hended : Place.ended.view = { working := false, finished := true } := rfl
  have hseen := h.returns a o v hview
  have hta := h.terminated a
  constructor
  all_goals simp only [State.goto]
  case stored => grind [h.stored]
  case terminated => grind [h.terminated]
  case value => exact h.value
  case joins => grind [h.joins]
  case attached => grind [h.attached]
  case ready =>
    intro b
    have hb := h.ready_moved (p := .running) (a := a) (by trivial) b
    refine hb.mono (fun o ho => ho) (fun o ho => ?_) fun o w ho hv => hv
    grind
  case returns =>
    intro b o' w hb
    have hold := h.returns b o' w
    grind
  case fresh => grind [h.fresh, h.unique]
  case unique => grind [h.unique]
  case joined =>
    intro o' w hw
    have hold := h.joined o' w
    grind
  case nodup =>
    rw [List.map_cons, List.nodup_cons]
    refine ⟨fun hmem => ?_, h.nodup⟩
    obtain ⟨⟨o', w⟩, hw, heq⟩ := List.mem_map.1 hmem
    cases heq
    exact h.fresh a o v w hview hw

theorem calloc (h : Joins s) {detached : Bool} (hborn : s.place s.next = .unborn)
    (hfree : ∀ b, (s.place b).view.joins ≠ some s.next) : Joins (s.calloc detached) := by
  have hrv : Place.unborn.view = { working := false } := rfl
  have hready : ∀ b o, s.place b = .joinLeave o ∨ s.place b = .joinRead o ∨ (∃ v, s.place b = .joinHost o v) →
      o ≠ s.next := by
    rintro b o hb rfl
    apply hfree b
    rcases hb with hb | hb | ⟨v, hb⟩
    · rw [hb]
      rfl
    · rw [hb]
      rfl
    · rw [hb]
      rfl
  constructor
  all_goals simp only [State.calloc]
  case stored => grind [h.stored]
  case terminated => grind [h.terminated]
  case value => grind [h.value]
  case joins => grind [h.joins]
  case attached => grind [h.attached]
  case ready =>
    intro b
    have hb := h.ready b
    cases hp : s.place b with
    | joinLeave o =>
        rw [hp] at hb
        have hne := hready b o (.inl hp)
        show (Function.update s.obj s.next _ o).terminated = true
        rw [Function.update_of_ne hne]
        exact hb
    | joinRead o =>
        rw [hp] at hb
        have hne := hready b o (.inr (.inl hp))
        show (Function.update s.obj s.next _ o).terminated = true
        rw [Function.update_of_ne hne]
        exact hb
    | joinHost o v =>
        rw [hp] at hb
        have hne := hready b o (.inr (.inr ⟨v, hp⟩))
        refine ⟨?_, hb.2⟩
        show (Function.update s.obj s.next _ o).terminated = true
        rw [Function.update_of_ne hne]
        exact hb.1
    | joinMark o v =>
        rw [hp] at hb
        exact hb
    | _ => trivial
  case returns =>
    intro b o' w hb
    have hold := h.returns b o' w
    grind
  case fresh => exact h.fresh
  case unique => exact h.unique
  case joined =>
    intro o' w hw
    have hold := h.joined o' w
    grind
  case nodup => exact h.nodup

theorem goto (h : Joins s) (hq : Still s a p) : Joins (s.goto a p) :=
  h.quiet _ (fun _ => ⟨rfl, rfl, rfl, rfl⟩) hq

/-- A thread moves on, and the fields of one object that joins look at stay. -/
theorem write (h : Joins s) {t : RecompThread} (hq : Still s a p)
    (hterm : t.terminated = (s.obj o).terminated) (hjoiner : t.joiner = (s.obj o).joiner)
    (hvalue : t.retVal = (s.obj o).retVal) (hflag : t.detached = (s.obj o).detached) :
    Joins ((s.setObj o t).goto a p) := by
  refine h.quiet (Function.update s.obj o t) (fun o' => ?_) hq
  by_cases ho : o' = o
  · rw [ho, Function.update_self]
    exact ⟨hterm, hjoiner, hvalue, hflag⟩
  · rw [Function.update_of_ne ho]
    exact ⟨rfl, rfl, rfl, rfl⟩

end Joins

theorem tryCollect_eq (s : State) (a o : ℕ) (k : Collecting) :
    ∃ p, s.tryCollect a o k = s.goto a p ∧ (∀ s', Ready s' p) ∧ p.view.stored = (k.view o).stored ∧
      p.view.joins = (k.view o).joins ∧ p.view.returns = (k.view o).returns := by
  unfold State.tryCollect
  split
  · exact ⟨_, rfl, fun _ => trivial, rfl, rfl, rfl⟩
  · exact ⟨_, rfl, fun _ => trivial, rfl, rfl, rfl⟩

namespace Joins

variable {s s' : State} {a : ℕ}

/-- A section that marks an object dead, and `try_collect_locked`. -/
theorem settle (h : Joins s) {o : ℕ} {t : RecompThread} {k : Collecting} (hended : s.place a ≠ .ended)
    (hstored : (k.view o).stored = true → (s.place a).view.stored = true)
    (hfinished : (s.place a).view.finished = false) (hjoins : (k.view o).joins = none)
    (hreturns : (k.view o).returns = none) (hterm : t.terminated = (s.obj o).terminated)
    (hjoiner : t.joiner = (s.obj o).joiner) (hvalue : t.retVal = (s.obj o).retVal)
    (hflag : t.detached = (s.obj o).detached) : Joins ((s.setObj o t).tryCollect a o k) := by
  obtain ⟨p, heq, hready, hps, hpj, hpr⟩ := tryCollect_eq (s.setObj o t) a o k
  rw [heq]
  refine h.write ⟨hended, by rw [hps]; exact hstored, by rw [hfinished]; nofun, ?_, ?_, hready s⟩ hterm
    hjoiner hvalue hflag
  · rw [hpj, hjoins]
    nofun
  · rw [hpr, hreturns]
    nofun

theorem collectUnlock (h : Joins s) {o : ℕ} {k : Collecting} (hp : s.place a = .collectUnlock o k) :
    Joins ((s.setObj o { s.obj o with lock := none }).afterCollect a o k) := by
  cases k with
  | exit => exact h.write (.of_view hp nofun rfl trivial) rfl rfl rfl rfl
  | join v => exact h.write (.of_view hp nofun rfl trivial) rfl rfl rfl rfl
  | detach => exact h.write (.of_view hp nofun rfl trivial) rfl rfl rfl rfl
  | create =>
      refine h.quiet (Function.update s.obj o { s.obj o with lock := none }) (fun o' => ?_)
        (.of_view hp nofun rfl trivial)
      grind

theorem waits (h : Joins s) {o : ℕ} (hs : run s a = some s')
    (hp : s.place a = .joinCheck o ∨ s.place a = .joinUnlock o ∨ s.place a = .joinWait o ∨
      s.place a = .joinSleep o ∨ s.place a = .joinLeave o ∨ s.place a = .joinRead o ∨
      ∃ v, s.place a = .joinHost o v) : Joins s' := by
  rcases hp with hp | hp | hp | hp | hp | hp | ⟨v, hp⟩
  · simp only [run, hp] at hs
    split at hs
    · split at hs
      · cases hs
        exact h.write (.of_view hp (by simp) rfl trivial) rfl rfl rfl rfl
      · rename_i hfree
        cases hs
        have hflag : (s.obj o).detached = false := by
          rw [← Bool.not_eq_true]
          exact fun hd => hfree (.inl hd)
        have hnone : (s.obj o).joiner = none := by
          by_contra hj
          exact hfree (.inr hj)
        refine h.enters (fun o' => ?_) (fun o' => ?_) hp hflag hnone
        · simp only [State.setObj]
          grind
        · simp only [State.setObj]
          grind
    · cases hs
  · simp only [run, hp] at hs
    cases hs
    exact h.write (.of_view hp (by simp) rfl trivial) rfl rfl rfl rfl
  · simp only [run, hp] at hs
    split at hs
    · split at hs
      · rename_i hterm
        cases hs
        exact h.write (.of_view hp (by simp) rfl hterm) rfl rfl rfl rfl
      · cases hs
        exact h.goto (.of_view hp (by simp) rfl trivial)
    · cases hs
  · simp only [run, hp] at hs
    cases hs
    exact h.goto (.of_view hp (by simp) rfl trivial)
  · have hready := h.ready a
    rw [hp] at hready
    simp only [run, hp] at hs
    cases hs
    exact h.write (.of_view hp (by simp) rfl hready) rfl rfl rfl rfl
  · have hready := h.ready a
    rw [hp] at hready
    simp only [run, hp] at hs
    cases hs
    exact h.write (.of_view hp (by simp) rfl ⟨hready, h.value o hready⟩) rfl rfl rfl rfl
  · have hready := h.ready a
    rw [hp] at hready
    simp only [run, hp] at hs
    split at hs
    · rename_i hended
      cases hs
      exact h.goto (.of_view hp (by simp) rfl ⟨hended, hready.2⟩)
    · cases hs

theorem run (h : Joins s) (hs : run s a = some s') : Joins s' := by
  cases hp : s.place a with
  | unborn | running | ended | createAlloc _ | createSpawn _ =>
      simp only [GuestThread.run, hp] at hs
      cases hs
  | starting =>
      simp only [GuestThread.run, hp] at hs
      split at hs
      · cases hs
        exact h.goto (.of_view hp (by simp) rfl trivial)
      · cases hs
  | exitMark =>
      simp only [GuestThread.run, hp] at hs
      split at hs
      · cases hs
        exact h.settle (by rw [hp]; simp) (by rw [hp]; exact id) (by rw [hp]; rfl) rfl rfl rfl rfl rfl rfl
      · cases hs
  | exitTerminate =>
      simp only [GuestThread.run, hp] at hs
      split at hs
      · cases hs
        exact h.terminates hp rfl rfl rfl rfl
      · cases hs
  | exitBroadcast =>
      simp only [GuestThread.run, hp] at hs
      cases hs
      exact h.goto (.of_view hp (by simp) rfl trivial)
  | exitUnlock =>
      simp only [GuestThread.run, hp] at hs
      cases hs
      exact h.write (.of_view hp (by simp) rfl trivial) rfl rfl rfl rfl
  | exitHost =>
      simp only [GuestThread.run, hp] at hs
      cases hs
      exact h.goto (.of_view hp (by simp) rfl trivial)
  | collectMove o k =>
      have hq : Still s a (.collectUnlock o k) :=
        ⟨by rw [hp]; simp, by rw [hp]; exact id, by rw [hp]; exact id, by rw [hp]; exact fun _ => id,
          by rw [hp]; exact fun _ => id, trivial⟩
      simp only [GuestThread.run, hp] at hs
      cases hs
      unfold State.collectMove
      split
      · exact h.quiet _ (fun _ => ⟨rfl, rfl, rfl, rfl⟩) hq
      · exact h.goto hq
  | collectUnlock o k =>
      simp only [GuestThread.run, hp] at hs
      cases hs
      exact h.collectUnlock hp
  | gather k =>
      simp only [GuestThread.run, hp] at hs
      cases hs
      exact h.quiet _ (fun _ => ⟨rfl, rfl, rfl, rfl⟩)
        ⟨by rw [hp]; simp, (by intros; contradiction), by rw [hp]; exact id, (by intros; contradiction), by rw [hp]; exact fun _ => id, trivial⟩
  | reclaim l k =>
      cases l with
      | nil =>
          simp only [GuestThread.run, hp] at hs
          cases hs
          cases k with
          | join o v => exact h.returned (by rw [hp]; rfl) (by rw [hp]; rfl)
          | detach => exact h.goto (.of_idle hp (by simp) rfl rfl rfl rfl trivial)
          | create detached => exact h.goto (.of_idle hp (by simp) rfl rfl rfl rfl trivial)
      | cons o l =>
          simp only [GuestThread.run, hp] at hs
          cases hs
          exact h.quiet _ (fun _ => ⟨rfl, rfl, rfl, rfl⟩)
            ⟨by rw [hp]; simp, (by intros; contradiction), by rw [hp]; exact id, (by intros; contradiction), by rw [hp]; exact fun _ => id, trivial⟩
  | joinCheck o => exact h.waits hs (.inl hp)
  | joinUnlock o => exact h.waits hs (.inr (.inl hp))
  | joinWait o => exact h.waits hs (.inr (.inr (.inl hp)))
  | joinSleep o => exact h.waits hs (.inr (.inr (.inr (.inl hp))))
  | joinLeave o => exact h.waits hs (.inr (.inr (.inr (.inr (.inl hp)))))
  | joinRead o => exact h.waits hs (.inr (.inr (.inr (.inr (.inr (.inl hp))))))
  | joinHost o v => exact h.waits hs (.inr (.inr (.inr (.inr (.inr (.inr ⟨v, hp⟩))))))
  | joinMark o v =>
      simp only [GuestThread.run, hp] at hs
      split at hs
      · cases hs
        obtain ⟨p, heq, hready, hps, hpj, hpr⟩ := tryCollect_eq (s.setObj o _) a o (.join v)
        rw [heq]
        exact h.marks hp rfl rfl rfl hpr hpj hps (hready s)
      · cases hs
  | detachCheck o =>
      simp only [GuestThread.run, hp] at hs
      split at hs
      · split at hs
        · cases hs
          exact h.write (.of_view hp (by simp) rfl trivial) rfl rfl rfl rfl
        · rename_i hfree
          cases hs
          have hnone : (s.obj o).joiner = none := by
            by_contra hj
            exact hfree (.inr hj)
          obtain ⟨p, heq, hready, hps, hpj, hpr⟩ := tryCollect_eq (s.setObj o _) a o .detach
          rw [heq]
          exact h.detaches hp rfl rfl rfl hnone hpr hpj hps (hready s)
      · cases hs
  | refuse o =>
      simp only [GuestThread.run, hp] at hs
      cases hs
      exact h.write (.of_view hp (by simp) rfl trivial) rfl rfl rfl rfl
  | createRegister o =>
      simp only [GuestThread.run, hp] at hs
      cases hs
      exact h.quiet _ (fun _ => ⟨rfl, rfl, rfl, rfl⟩) (.of_idle hp (by simp) rfl rfl rfl rfl trivial)
  | createDetach o =>
      simp only [GuestThread.run, hp] at hs
      cases hs
      exact h.goto (.of_view hp (by simp) rfl trivial)
  | createReady o =>
      simp only [GuestThread.run, hp] at hs
      cases hs
      exact h.write (.of_view hp (by simp) rfl trivial) rfl rfl rfl rfl
  | createFail o =>
      simp only [GuestThread.run, hp] at hs
      split at hs
      · cases hs
        exact h.settle (by rw [hp]; simp) (by intros; contradiction) (by rw [hp]; rfl) rfl rfl rfl rfl rfl rfl
      · cases hs

theorem look (h : Joins s) {found : Option ℕ} {p : ℕ → Place} (hp : s.place a = .running)
    (hview : ∀ o, (p o).view = {}) (hready : ∀ o, Ready s (p o)) (hs : look s a found p = some s') :
    Joins s' := by
  cases found with
  | none =>
      cases hs
      exact h
  | some o =>
      simp only [GuestThread.look] at hs
      split at hs
      · cases hs
        exact h.goto (.of_view hp (by simp) (hview o) (hready o))
      · cases hs

theorem exec (h : Joins s) {home : ℕ → Home} (hinv : Inv home s) {act : Act} (hs : exec s act = some s') :
    Joins s' := by
  cases act with
  | exit a status =>
      simp only [GuestThread.exec] at hs
      split at hs
      · rename_i hp
        split at hs
        · cases hs
          exact h.goto ⟨by rw [hp]; simp, (by intros; contradiction), fun _ => rfl, (by intros; contradiction), (by intros; contradiction), trivial⟩
        · cases hs
          exact h.exits hp
      · cases hs
  | join a found =>
      simp only [GuestThread.exec] at hs
      split at hs
      · rename_i hp
        split at hs
        · cases hs
          exact h
        · exact h.look (p := .joinCheck) hp (fun _ => rfl) (fun _ => trivial) hs
      · cases hs
  | detach a found =>
      simp only [GuestThread.exec] at hs
      split at hs
      · rename_i hp
        exact h.look (p := .detachCheck) hp (fun _ => rfl) (fun _ => trivial) hs
      · cases hs
  | create a detached =>
      simp only [GuestThread.exec] at hs
      split at hs
      · rename_i hp
        cases hs
        exact h.goto (.of_view hp (by simp) rfl trivial)
      · cases hs
  | alloc a outcome =>
      have hfresh := hinv.next s.next le_rfl
      have hfree : ∀ b, (s.place b).view.joins ≠ some s.next := by
        intro b hb
        have htarget : (s.place b).target = some s.next := by
          cases hp : s.place b with
          | joinUnlock o | joinWait o | joinSleep o | joinLeave o | joinRead o | joinHost o _ | joinMark o _ =>
              rw [hp] at hb
              exact hb
          | collectMove o k | collectUnlock o k =>
              rw [hp] at hb
              cases k <;> cases hb
          | _ =>
              rw [hp] at hb
              cases hb
        rcases hinv.target b s.next htarget with hl | hm
        · rw [hfresh.1] at hl
          cases hl
        · rw [hfresh.1] at hm
          cases hm
      simp only [GuestThread.exec] at hs
      split at hs
      · rename_i detached hp
        have hnew : (s.calloc detached).place a = .createAlloc detached := hp
        cases outcome with
        | noMemory =>
            cases hs
            exact h.goto (.of_view hp (by simp) rfl trivial)
        | noContext =>
            cases hs
            exact (h.calloc hfresh.2 hfree).quiet _ (fun _ => ⟨rfl, rfl, rfl, rfl⟩)
              (.of_view hnew (by simp) rfl trivial)
        | allocated =>
            cases hs
            exact (h.calloc hfresh.2 hfree).goto (.of_idle hnew (by simp) rfl rfl rfl rfl trivial)
      · cases hs
  | spawn a ok =>
      simp only [GuestThread.exec] at hs
      split at hs
      · rename_i o hp
        cases ok with
        | true =>
            rw [if_pos rfl] at hs
            cases hs
            have hborn := (hinv.spawning a o ((hinv.claim a o .spawning).1 (by rw [hp]; rfl))).2
            have hstart : Joins (s.goto o .starting) := h.goto (.of_idle hborn (by simp) rfl rfl rfl rfl trivial)
            have hne : a ≠ o := by
              rintro rfl
              rw [hp] at hborn
              cases hborn
            have hplace : (s.goto o .starting).place a = .createSpawn o := by
              rw [← hp]
              exact Function.update_of_ne hne ..
            exact hstart.goto (.of_idle hplace (by simp) rfl rfl rfl rfl trivial)
        | false =>
            rw [if_neg (by simp)] at hs
            cases hs
            exact h.goto (.of_view hp (by simp) rfl trivial)
      · cases hs
  | next a => exact h.run hs

end Joins

/-! ### runs -/

theorem inv_start : Inv (fun o => if o = 0 then .registered else .unborn) start := by
  have hplace : ∀ a, start.place a = if a = 0 then .running else .unborn := fun _ => rfl
  have hru : Place.running.view = {} := rfl
  have hun : Place.unborn.view = { working := false } := rfl
  have hrt : Place.running.target = none := rfl
  have hut : Place.unborn.target = none := rfl
  have hro : Place.unborn.usesOwn = false := rfl
  have hobj : ∀ o, (start.obj o).dead = false := by
    intro o
    show (if o = 0 then _ else _ : RecompThread).dead = false
    split
    · rfl
    · rfl
  constructor
  case threads => grind [start, Home.inThreads]
  case threadsNodup => exact List.nodup_singleton 0
  case gcList => grind [start]
  case gcNodup => exact List.nodup_nil
  case claim => grind
  case taken => grind
  case takenNodup => grind
  case released => grind [start]
  case target => grind
  case own => grind [Home.live]
  case next => grind [start]
  case working => grind
  case making => grind
  case spawning => grind
  case moving => grind
  case listed => grind
  case createFail => grind
  case failing => grind
  case failed => exact nofun

theorem joins_start : Joins start := by
  have hplace : ∀ a, start.place a = if a = 0 then .running else .unborn := fun _ => rfl
  have hru : Place.running.view = {} := rfl
  have hun : Place.unborn.view = { working := false } := rfl
  have hterm : ∀ o, (start.obj o).terminated = false := by
    intro o
    show (if o = 0 then _ else _ : RecompThread).terminated = false
    split
    · rfl
    · rfl
  constructor
  case stored => grind
  case terminated => grind
  case value => grind
  case joins => grind
  case attached => grind
  case ready =>
    intro a
    rw [hplace]
    split
    · trivial
    · trivial
  case returns => grind
  case fresh => grind
  case unique => grind
  case joined => exact nofun
  case nodup => exact List.nodup_nil

/-- **The invariants hold in every state of a run of careful steps.** -/
theorem inv_reachable {s : State} (h : Reachable (threadSystem.restrict Careful) s) :
    (∃ home, Inv home s) ∧ Joins s := by
  refine Reachable.invariant (P := fun s => (∃ home, Inv home s) ∧ Joins s) (fun s hs => ?_)
    (fun s act s' _ hi (hstep : Careful s act ∧ exec s act = some s') => ?_) h
  · rw [show s = start from hs]
    exact ⟨⟨_, inv_start⟩, joins_start⟩
  · obtain ⟨⟨home, hinv⟩, hjoins⟩ := hi
    refine ⟨hinv.exec hstep.1 (fun a o v hp => ?_) hstep.2, hjoins.exec hinv hstep.2⟩
    exact hjoins.attached a o (by rw [hp]; rfl)

theorem Inv.touches {home : ℕ → Home} {s s' : State} (h : Inv home s) {act : Act} {o : ℕ}
    (hs : GuestThread.exec s act = some s') (ho : GuestThread.touches s act o) : home o ≠ .freed := by
  have hlive : (home o).live = true → home o ≠ .freed := by
    intro hl heq
    rw [heq] at hl
    cases hl
  have huses : ∀ a, Uses s a o → home o ≠ .freed := by
    rintro a (htarget | ⟨rfl, hown⟩)
    · rcases h.target a o htarget with hl | hm
      · exact hlive hl
      · rw [hm]
        rintro ⟨⟩
    · exact hlive (h.own a hown)
  have hthreads : o ∈ s.threads → home o ≠ .freed := fun hmem => hlive (h.live_of_mem hmem)
  have hlisted : o ∈ s.gcList → home o ≠ .freed := by
    intro hmem
    rw [(h.gcList o).1 hmem]
    rintro ⟨⟩
  cases act with
  | exit a status =>
      simp only [GuestThread.exec] at hs
      split at hs
      · rename_i hp
        exact huses a (.inr ⟨ho.symm, by rw [hp]; rfl⟩)
      · cases hs
  | join a found | detach a found =>
      simp only [GuestThread.exec] at hs
      split at hs
      · rename_i hp
        rcases ho with rfl | hmem
        · exact huses o (.inr ⟨rfl, by rw [hp]; rfl⟩)
        · exact hthreads hmem
      · cases hs
  | create a detached =>
      simp only [GuestThread.exec] at hs
      split at hs
      · rename_i hp
        exact huses a (.inr ⟨ho.symm, by rw [hp]; rfl⟩)
      · cases hs
  | alloc a outcome =>
      simp only [GuestThread.exec] at hs
      split at hs
      · rename_i hp
        exact huses a (.inr ⟨ho.symm, by rw [hp]; rfl⟩)
      · cases hs
  | spawn a ok =>
      simp only [GuestThread.exec] at hs
      split at hs
      · rename_i hp
        rcases ho with rfl | htarget
        · exact huses o (.inr ⟨rfl, by rw [hp]; rfl⟩)
        · exact huses a (.inl htarget)
      · cases hs
  | next a =>
      rcases ho with huse | htaken | hwalk
      · exact huses a huse
      · rw [← Place.view_taken] at htaken
        rw [(h.taken a o).1 htaken]
        rintro ⟨⟩
      · revert hwalk
        split
        · rintro (hmem | hmem)
          · exact hthreads hmem
          · exact hlisted hmem
        · exact hthreads
        · exact hlisted
        · exact False.elim

/-- **Guest thread lifetime.**  In every state of a run of careful steps: no object was freed twice, and no
step touches a freed one; of the joins of a thread one returned 0, with the value the thread exited with and
after its end; a creation that failed has no registered object. -/
theorem guestThread_lifetime {s : State} (h : Reachable (threadSystem.restrict Careful) s) :
    (∀ o, s.released o ≤ 1) ∧
    (∀ act s' o, exec s act = some s' → touches s act o → s.released o = 0) ∧
    (s.joined.map Prod.fst).Nodup ∧
    (∀ o v, (o, v) ∈ s.joined → s.exited o = some v ∧ s.place o = .ended) ∧
    ∀ o ∈ s.failed, o ∉ s.threads := by
  obtain ⟨⟨home, hinv⟩, hjoins⟩ := inv_reachable h
  refine ⟨fun o => ?_, fun act s' o hs ho => ?_, hjoins.nodup, fun o v hv => (hjoins.joined o v hv).2,
    fun o ho hmem => ?_⟩
  · rw [hinv.released o]
    split
    · exact le_rfl
    · exact Nat.zero_le 1
  · rw [hinv.released o, if_neg (hinv.touches hs ho)]
  · have hlive := (hinv.threads o).1 hmem
    rcases hinv.failed o ho with hl | ⟨b, hb⟩ | hf
    · rw [hl] at hlive
      cases hlive
    · rw [hb] at hlive
      cases hlive
    · rw [hf] at hlive
      cases hlive

/-- The main thread creates a thread. -/
def createSteps (detached : Bool) : List Act :=
  [.create 0 detached, .next 0, .next 0, .alloc 0 .allocated, .next 0, .spawn 0 true, .next 0, .next 0]

/-- A thread ends with 7, the main thread joins it and frees its object. -/
def joinRun : List Act :=
  createSteps false ++ [.join 0 (some 1), .next 0, .next 0, .next 0, .next 1, .exit 1 7, .next 1, .next 1,
    .next 1, .next 1, .next 1, .next 1, .next 0, .next 0, .next 0, .next 0, .next 0, .next 0, .next 0,
    .next 0, .next 0, .next 0, .next 0]

theorem guestThread_lifetime_joinRun :
    ∃ s, execAll (guarded Careful exec) start joinRun = some s ∧ (1, 7) ∈ s.joined ∧
      s.released 1 = 1 ∧ s.exited 1 = some 7 ∧ s.place 1 = .ended := by
  obtain ⟨s, hs⟩ : ∃ s, execAll (guarded Careful exec) start joinRun = some s :=
    Option.isSome_iff_exists.1 (by decide)
  have hreach : Reachable (threadSystem.restrict Careful) s :=
    Reachable.guarded (fun _ _ _ hstep => hstep) joinRun (.init rfl) hs
  have hlast : (execAll (guarded Careful exec) start joinRun).map
      (fun s => (s.joined, s.released 1)) = some ([(1, 7)], 1) := by decide
  rw [hs] at hlast
  obtain ⟨hjoined, hreleased⟩ := Prod.mk.inj (Option.some.inj hlast)
  have hmem : (1, 7) ∈ s.joined := by
    rw [show s.joined = [(1, 7)] from hjoined]
    exact List.mem_singleton.2 rfl
  exact ⟨s, hs, hmem, hreleased, (guestThread_lifetime hreach).2.2.2.1 1 7 hmem⟩

/-- A detached thread publishes its end, and another creation frees its object. -/
def freedRun : List Act :=
  createSteps true ++ [.next 1, .exit 1 7, .next 1, .next 1, .next 1, .next 1, .create 0 false, .next 0,
    .next 0]

/-- `pthread_create` fails for a thread that is not detached. -/
def failedRun : List Act :=
  [.create 0 false, .next 0, .next 0, .alloc 0 .allocated, .next 0, .spawn 0 false, .next 0, .next 0]

/-- A thread that has published its end broadcasts on its object after it was freed, and a creation that
failed leaves its object registered. -/
theorem guestThread_uncareful :
    (∃ s s', Reachable threadSystem s ∧ s.place 1 = .exitBroadcast ∧ exec s (.next 1) = some s' ∧
      touches s (.next 1) 1 ∧ s.released 1 = 1) ∧
    ∃ s, Reachable threadSystem s ∧ 1 ∈ s.failed ∧ 1 ∈ s.threads := by
  constructor
  · obtain ⟨s, hs⟩ : ∃ s, execAll exec start freedRun = some s := Option.isSome_iff_exists.1 (by decide)
    have hreach : Reachable threadSystem s :=
      Reachable.execAll (fun _ _ _ hstep => hstep) freedRun (.init rfl) hs
    have hlast : (execAll exec start freedRun).map (fun s => (s.place 1, s.released 1)) =
        some (.exitBroadcast, 1) := by decide
    rw [hs] at hlast
    obtain ⟨hplace, hreleased⟩ := Prod.mk.inj (Option.some.inj hlast)
    have hp : s.place 1 = .exitBroadcast := hplace
    have hstep : exec s (.next 1) = some (s.goto 1 .exitUnlock) := by
      simp only [exec, run, hp]
    exact ⟨s, _, hreach, hp, hstep, .inl (.inr ⟨rfl, by rw [hp]; rfl⟩), hreleased⟩
  · obtain ⟨s, hs⟩ : ∃ s, execAll exec start failedRun = some s := Option.isSome_iff_exists.1 (by decide)
    have hreach : Reachable threadSystem s :=
      Reachable.execAll (fun _ _ _ hstep => hstep) failedRun (.init rfl) hs
    have hlast : (execAll exec start failedRun).map (fun s => (s.failed, s.threads)) =
        some ([1], [1, 0]) := by decide
    rw [hs] at hlast
    obtain ⟨hfailed, hthreads⟩ := Prod.mk.inj (Option.some.inj hlast)
    refine ⟨s, hreach, ?_, ?_⟩
    · rw [show s.failed = [1] from hfailed]
      exact List.mem_singleton.2 rfl
    · rw [show s.threads = [1, 0] from hthreads]
      exact List.mem_cons_self

end PS4Recomp.Runtime.GuestThread
