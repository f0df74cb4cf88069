import Mathlib.Data.Finset.Card
import PS4Recomp.Runtime.FiberLookup

/-!
# Look-ups read nothing that was freed

* `Lawful` — what the look-ups need of the fibers: a fiber that is taken is current on no worker, and stays
  taken;
* `Inv` — the look-ups as `Readers` of the workers and the fibers, and `g_workers`;
* `Inv.exec` — every step keeps it, `inv_reachable` — it holds in every run;
* `Safe`, **`safe_of_lawful`** — no look-up reads a freed object, and none is freed while a look-up runs
  that ran when the object was made unreachable.
-/

namespace PS4Recomp.Runtime.FiberLookup

open Library.Transition Library.Quiesce
open Runtime.Fiber (Endpoint)

variable {S A T L : Type*}

/-- What the steps of the fibers do, when they meet a condition, to those that are taken. -/
structure Lawful (M : Mode S A T) (Ok : S → A → Prop) (Taken : S → ℕ → Prop) : Prop where
  not_current : ∀ s h w, Reachable (M.system.restrict Ok) s → Taken s h → M.current s w ≠ some h
  taken_of_frees : ∀ s a h, Reachable (M.system.restrict Ok) s → M.frees s a = some h → Taken s h
  takes : ∀ s a s' h, Reachable (M.system.restrict Ok) s → Ok s a → M.exec s a = some s' →
    M.takes s a = some h → ¬Taken s h ∧ Taken s' h
  stays : ∀ s a s' h, Reachable (M.system.restrict Ok) s → Ok s a → M.exec s a = some s' →
    Taken s h → Taken s' h
  taken : ∀ s a s' h, Reachable (M.system.restrict Ok) s → Ok s a → M.exec s a = some s' →
    Taken s' h → Taken s h ∨ M.takes s a = some h

/-- The worker may be in the slot. -/
def Slot.isAt (p : Slot) (i : ℕ) : Bool :=
  match p with
  | .live (some j) | .clear j => i = j
  | _ => false

/-- The worker may be in a slot. -/
def Slot.findable : Slot → Bool
  | .live (some _) | .clear _ => true
  | _ => false

/-- `worker_destroy` has cleared the slot, or there was none. -/
def Slot.cleared : Slot → Bool
  | .quiesce | .free | .gone => true
  | _ => false

/-- No look-up that could have found the worker runs. -/
def Slot.drained : Slot → Bool
  | .free | .gone => true
  | _ => false

theorem Slot.findable_of_isAt {p : Slot} {i : ℕ} (h : p.isAt i = true) : p.findable = true := by
  cases p with
  | live j =>
      cases j with
      | none => cases h
      | some j => rfl
  | clear j => rfl
  | _ => cases h

/-- The look-ups as readers. -/
def State.readers (Taken : S → ℕ → Prop) (s : State S T L) : Readers L (Endpoint T) where
  active l := (s.look l).running = true
  holds l x := x ∈ (s.look l).holds
  out x :=
    match x with
    | .thread w => (s.slot w).findable = false
    | .fiber h => Taken s.base h
  early x l := s.early x l = true
  drained x :=
    match x with
    | .thread w => (s.slot w).drained = true
    | .fiber h => s.drained h = true

/-- The invariant of the look-ups. -/
structure Inv (M : Mode S A T) (Ok : S → A → Prop) (Taken : S → ℕ → Prop) (s : State S T L) : Prop where
  base : Reachable (M.system.restrict Ok) s.base
  readers : (s.readers Taken).Inv
  workers : ∀ i w, s.workers i = some w → (s.slot w).isAt i = true
  count : ∃ R : Finset L, (∀ l, l ∈ R ↔ (s.look l).running = true) ∧ s.lookups = R.card
  cleared : ∀ w l, s.early (.thread w) l = true → (s.slot w).cleared = true
  freedFiber : ∀ h, s.freed (.fiber h) = true → s.drained h = true
  freedWorker : ∀ w, s.freed (.thread w) = true → (s.slot w).drained = true

namespace Inv

variable {M : Mode S A T} {Ok : S → A → Prop} {Taken : S → ℕ → Prop} {s s' : State S T L} {l : L} {t : T}

theorem not_freed (h : Inv M Ok Taken s) {x : Endpoint T} (hx : x ∈ (s.look l).holds) : s.freed x = false := by
  cases hf : s.freed x with
  | false => rfl
  | true =>
      have hdrained : (s.readers Taken).drained x := by
        cases x with
        | thread w => exact h.freedWorker w hf
        | fiber y => exact h.freedFiber y hf
      exact absurd hx (h.readers.not_held hdrained)

theorem none_running (h : Inv M Ok Taken s) (hzero : s.lookups = 0) (l : L) : (s.look l).running = false := by
  obtain ⟨R, hmem, hcard⟩ := h.count
  rw [hzero] at hcard
  have hempty := Finset.card_eq_zero.1 hcard.symm
  cases hr : (s.look l).running with
  | false => rfl
  | true =>
      have hin := (hmem l).2 hr
      rw [hempty] at hin
      exact absurd hin (Finset.notMem_empty l)

theorem not_early (h : Inv M Ok Taken s) {q : Slot} (hp : s.slot t = q) (hq : q.cleared = false) (l : L) :
    s.early (.thread t) l = false := by
  cases he : s.early (.thread t) l with
  | false => rfl
  | true =>
      have hold := h.cleared t l he
      rw [hp, hq] at hold
      cases hold

variable [DecidableEq T]

/-- A worker moves, and leaves the reach of the look-ups only where none is left. -/
theorem readers_slot (h : Inv M Ok Taken s) {p q : Slot} (hp : s.slot t = q) (hlook : s'.look = s.look)
    (hearly : s'.early = s.early) (hdrained : s'.drained = s.drained) (hbase : s'.base = s.base)
    (hslot : s'.slot = Function.update s.slot t p) (hfind : p.findable = false → q.findable = false)
    (hstay : q.drained = true → p.findable = false)
    (hdrain : p.drained = true →
      q.drained = true ∨ p.findable = false ∧ ∀ l, s.early (.thread t) l = false) :
    (s'.readers Taken).Inv := by
  have hself : s'.slot t = p := by
    rw [hslot]
    exact Function.update_self ..
  have hother : ∀ w, w ≠ t → s'.slot w = s.slot w := by
    intro w hw
    rw [hslot]
    exact Function.update_of_ne hw ..
  have hact : ∀ l, (s'.readers Taken).active l ↔ (s.readers Taken).active l := by
    intro l
    show (s'.look l).running = true ↔ (s.look l).running = true
    rw [hlook]
  have hholds : ∀ l x, (s'.readers Taken).holds l x ↔ (s.readers Taken).holds l x := by
    intro l x
    show x ∈ (s'.look l).holds ↔ x ∈ (s.look l).holds
    rw [hlook]
  have hearlier : ∀ x l, (s'.readers Taken).early x l ↔ (s.readers Taken).early x l := by
    intro x l
    show s'.early x l = true ↔ s.early x l = true
    rw [hearly]
  refine h.readers.step ⟨fun l x hx => ?_, fun l x hx => .inl ((hholds l x).1 hx), fun l x hx _ => ?_,
    fun l x hout hin _ _ => ?_, fun l x hx => ?_, fun x hx => ?_, fun x hx => ?_⟩
  · exact (hact l).2 (h.readers.active_of_holds l x ((hholds l x).1 hx))
  · exact (hearlier x l).2 hx
  · exfalso
    apply hin
    cases x with
    | fiber y =>
        have hout' : Taken s'.base y := hout
        rw [hbase] at hout'
        exact hout'
    | thread w =>
        have hout' : (s'.slot w).findable = false := hout
        show (s.slot w).findable = false
        by_cases hw : w = t
        · rw [hw, hself] at hout'
          rw [hw, hp]
          exact hfind hout'
        · rw [hother w hw] at hout'
          exact hout'
  · exact ⟨(hact l).2 (h.readers.active_of_early l x ((hearlier x l).1 hx)), .inl ((hearlier x l).1 hx)⟩
  · cases x with
    | fiber y =>
        show Taken s'.base y
        rw [hbase]
        exact h.readers.out_of_drained _ hx
    | thread w =>
        show (s'.slot w).findable = false
        by_cases hw : w = t
        · have hx' : (s.slot w).drained = true := hx
          rw [hw, hp] at hx'
          rw [hw, hself]
          exact hstay hx'
        · rw [hother w hw]
          exact h.readers.out_of_drained (.thread w) hx
  · cases x with
    | fiber y =>
        have hx' : s'.drained y = true := hx
        rw [hdrained] at hx'
        exact .inl hx'
    | thread w =>
        have hx' : (s'.slot w).drained = true := hx
        by_cases hw : w = t
        · rw [hw, hself] at hx'
          rcases hdrain hx' with hold | ⟨hout, hnone⟩
          · refine .inl ?_
            show (s.slot w).drained = true
            rw [hw, hp]
            exact hold
          · refine .inr ⟨?_, fun l hl => ?_⟩
            · show (s'.slot w).findable = false
              rw [hw, hself]
              exact hout
            · have hl' : s'.early (.thread w) l = true := hl
              rw [hearly, hw, hnone l] at hl'
              cases hl'
        · rw [hother w hw] at hx'
          exact .inl hx'

/-- What holds of each slot still does when a thread takes a slot of which it holds if it did of the one before. -/
theorem slot_update {P : Slot → Bool} {p q : Slot} {w : T} (hp : s.slot t = q) (hkeep : P q = true → P p = true)
    (hw : P (s.slot w) = true) : P (Function.update s.slot t p w) = true := by
  by_cases hwt : w = t
  · rw [hwt, hp] at hw
    rw [hwt, Function.update_self]
    exact hkeep hw
  · rw [Function.update_of_ne hwt]
    exact hw

theorem setSlot (h : Inv M Ok Taken s) {p q : Slot} (hp : s.slot t = q) (hq : q.findable = false)
    (hcleared : q.cleared = true → p.cleared = true) (hfind : p.findable = false)
    (hstay : q.drained = true → p.drained = true)
    (hdrain : p.drained = true → q.drained = true ∨ ∀ l, s.early (.thread t) l = false) (nworkers : ℕ) :
    Inv M Ok Taken ({ s with nworkers }.setSlot t p) := by
  refine ⟨h.base, ?_, fun i w hw => ?_, h.count, fun w l hl => ?_, h.freedFiber, fun w hw => ?_⟩
  · exact h.readers_slot hp rfl rfl rfl rfl rfl (fun _ => hq) (fun _ => hfind)
      fun hd => (hdrain hd).imp id fun hnone => ⟨hfind, hnone⟩
  · refine slot_update (P := (Slot.isAt · i)) hp (fun hold => ?_) (h.workers i w hw)
    rw [Slot.findable_of_isAt hold] at hq
    cases hq
  · exact slot_update hp hcleared (h.cleared w l hl)
  · exact slot_update hp hstay (h.freedWorker w hw)

theorem publish (h : Inv M Ok Taken s) {i n : ℕ} (hp : s.slot t = .scan i n) :
    Inv M Ok Taken ({ s with workers := Function.update s.workers i (some t) }.setSlot t (.live (some i))) := by
  refine ⟨h.base, ?_, fun j w hw => ?_, h.count, fun w l hl => ?_, h.freedFiber, fun w hw => ?_⟩
  · exact h.readers_slot hp rfl rfl rfl rfl rfl nofun nofun nofun
  · show (Function.update s.slot t (.live (some i)) w).isAt j = true
    have hw' : Function.update s.workers i (some t) j = some w := hw
    by_cases hj : j = i
    · rw [hj, Function.update_self] at hw'
      cases hw'
      rw [Function.update_self, hj]
      exact decide_eq_true rfl
    · rw [Function.update_of_ne hj] at hw'
      exact slot_update (P := (Slot.isAt · j)) hp nofun (h.workers j w hw')
  · exact slot_update hp nofun (h.cleared w l hl)
  · exact slot_update hp nofun (h.freedWorker w hw)

theorem exitLive (h : Inv M Ok Taken s) {i : ℕ} (hp : s.slot t = .live (some i)) :
    Inv M Ok Taken (s.setSlot t (.clear i)) := by
  refine ⟨h.base, ?_, fun j w hw => ?_, h.count, fun w l hl => ?_, h.freedFiber, fun w hw => ?_⟩
  · exact h.readers_slot hp rfl rfl rfl rfl rfl nofun nofun nofun
  · exact slot_update (P := (Slot.isAt · j)) hp id (h.workers j w hw)
  · exact slot_update hp nofun (h.cleared w l hl)
  · exact slot_update hp nofun (h.freedWorker w hw)

theorem clear (h : Inv M Ok Taken s) {i : ℕ} (hp : s.slot t = .clear i) :
    Inv M Ok Taken
      (({ s with workers := Function.update s.workers i none }.takeOut (.thread t)).setSlot t .quiesce) := by
  have hnew : ∀ x l, Function.update s.early (.thread t) (fun l => (s.look l).running) x l = true →
      x = .thread t ∧ (s.look l).running = true ∨ x ≠ .thread t ∧ s.early x l = true := by
    intro x l hx
    by_cases hxt : x = .thread t
    · rw [hxt, Function.update_self] at hx
      exact .inl ⟨hxt, hx⟩
    · rw [Function.update_of_ne hxt] at hx
      exact .inr ⟨hxt, hx⟩
  refine ⟨h.base, h.readers.step ?_, fun j w hw => ?_, h.count, fun w l hl => ?_, h.freedFiber, fun w hw => ?_⟩
  · refine ⟨h.readers.active_of_holds, fun l x hx => .inl hx, fun l x hx hact => ?_,
      fun l x hout hin hheld _ => ?_, fun l x hx => ?_, fun x hx => ?_, fun x hx => ?_⟩
    · show Function.update s.early (.thread t) _ x l = true
      by_cases hxt : x = .thread t
      · rw [hxt, Function.update_self]
        exact hact
      · rw [Function.update_of_ne hxt]
        exact hx
    · show Function.update s.early (.thread t) _ x l = true
      have hxt : x = .thread t := by
        cases x with
        | fiber y => exact absurd hout hin
        | thread w =>
            by_cases hwt : w = t
            · rw [hwt]
            · have hout' : (Function.update s.slot t .quiesce w).findable = false := hout
              rw [Function.update_of_ne hwt] at hout'
              exact absurd hout' hin
      rw [hxt, Function.update_self]
      exact h.readers.active_of_holds l x hheld
    · rcases hnew x l hx with ⟨hxt, hrun⟩ | ⟨-, hold⟩
      · refine ⟨hrun, .inr fun hd => ?_⟩
        rw [hxt] at hd
        have hd' : (s.slot t).drained = true := hd
        rw [hp] at hd'
        cases hd'
      · exact ⟨h.readers.active_of_early l x hold, .inl hold⟩
    · cases x with
      | fiber y => exact h.readers.out_of_drained _ hx
      | thread w =>
          show (Function.update s.slot t .quiesce w).findable = false
          by_cases hwt : w = t
          · rw [hwt, Function.update_self]
            rfl
          · rw [Function.update_of_ne hwt]
            exact h.readers.out_of_drained (.thread w) hx
    · cases x with
      | fiber y => exact .inl hx
      | thread w =>
          have hx' : (Function.update s.slot t .quiesce w).drained = true := hx
          by_cases hwt : w = t
          · rw [hwt, Function.update_self] at hx'
            cases hx'
          · rw [Function.update_of_ne hwt] at hx'
            exact .inl hx'
  · show (Function.update s.slot t .quiesce w).isAt j = true
    have hw' : Function.update s.workers i none j = some w := hw
    have hj : j ≠ i := by
      rintro rfl
      rw [Function.update_self] at hw'
      cases hw'
    rw [Function.update_of_ne hj] at hw'
    exact slot_update (P := (Slot.isAt · j)) hp (fun hold => absurd (of_decide_eq_true hold) hj) (h.workers j w hw')
  · show (Function.update s.slot t .quiesce w).cleared = true
    by_cases hwt : w = t
    · rw [hwt, Function.update_self]
      rfl
    · rw [Function.update_of_ne hwt]
      rcases hnew _ l hl with ⟨heq, -⟩ | ⟨-, hold⟩
      · exact absurd (Endpoint.thread.inj heq) hwt
      · exact h.cleared w l hold
  · exact slot_update hp nofun (h.freedWorker w hw)

theorem free (h : Inv M Ok Taken s) (hp : s.slot t = .free) :
    Inv M Ok Taken ((s.free (.thread t)).setSlot t .gone) := by
  have hbase := h.setSlot (p := .gone) hp rfl (fun _ => rfl) rfl (fun _ => rfl) (fun _ => .inl rfl) s.nworkers
  refine ⟨hbase.base, hbase.readers, hbase.workers, hbase.count, hbase.cleared, fun y hy => ?_, fun w hw => ?_⟩
  · have hy' : Function.update s.freed (.thread t) true (.fiber y) = true := hy
    have hne : Endpoint.fiber y ≠ .thread t := nofun
    rw [Function.update_of_ne hne] at hy'
    exact h.freedFiber y hy'
  · by_cases hwt : w = t
    · show (Function.update s.slot t .gone w).drained = true
      rw [hwt, Function.update_self]
      rfl
    · have hw' : Function.update s.freed (.thread t) true (.thread w) = true := hw
      rw [Function.update_of_ne (fun heq => hwt (Endpoint.thread.inj heq))] at hw'
      exact hbase.freedWorker w hw'

/-- The next cut of `worker_publish` or `worker_destroy`. -/
theorem workerNext (h : Inv M Ok Taken s) (hs : workerNext s t = some s') : Inv M Ok Taken s' := by
  cases hp : s.slot t with
  | none | live i | gone =>
      simp only [FiberLookup.workerNext, hp] at hs
      cases hs
  | load =>
      simp only [FiberLookup.workerNext, hp] at hs
      cases hs
      exact h.setSlot hp rfl nofun rfl nofun (by nofun) s.nworkers
  | scan i n =>
      simp only [FiberLookup.workerNext, hp] at hs
      split at hs
      · split at hs
        · cases hs
          exact h.publish hp
        · cases hs
          exact h.setSlot hp rfl nofun rfl nofun (by nofun) s.nworkers
      · split at hs
        · cases hs
          exact h.setSlot hp rfl nofun rfl nofun (by nofun) s.nworkers
        · cases hs
          exact h.setSlot hp rfl nofun rfl nofun (by nofun) s.nworkers
  | grow n =>
      simp only [FiberLookup.workerNext, hp] at hs
      split at hs
      · cases hs
        exact h.setSlot hp rfl nofun rfl nofun (by nofun) (n + 1)
      · cases hs
        exact h.setSlot hp rfl nofun rfl nofun (by nofun) s.nworkers
  | clear i =>
      simp only [FiberLookup.workerNext, hp] at hs
      cases hs
      exact h.clear hp
  | quiesce =>
      simp only [FiberLookup.workerNext, hp] at hs
      split at hs
      · rename_i hzero
        cases hs
        refine h.setSlot hp rfl (fun _ => rfl) rfl nofun (fun _ => .inr fun l => ?_) s.nworkers
        cases he : s.early (.thread t) l with
        | false => rfl
        | true =>
            have hrun : (s.look l).running = true := h.readers.active_of_early l (.thread t) he
            rw [h.none_running hzero l] at hrun
            cases hrun
      · cases hs
  | free =>
      simp only [FiberLookup.workerNext, hp] at hs
      cases hs
      exact h.free hp

variable [DecidableEq L]

omit [DecidableEq T] in
theorem setLook (h : Inv M Ok Taken s) {p q : Look T} (hp : s.look l = q) (hq : q.running = true)
    (hrun : p.running = true) (hfinds : ∀ x ∈ p.holds, x ∈ q.holds ∨ ¬(s.readers Taken).out x) :
    Inv M Ok Taken (s.setLook l p) := by
  have hself : (s.setLook l p).look l = p := Function.update_self ..
  have hother : ∀ u, u ≠ l → (s.setLook l p).look u = s.look u := fun u hu => Function.update_of_ne hu ..
  have hrunning : ∀ u, ((s.setLook l p).look u).running = (s.look u).running := by
    intro u
    by_cases hul : u = l
    · rw [hul, hself, hp, hrun, hq]
    · rw [hother u hul]
  have hholds : ∀ u x, x ∈ ((s.setLook l p).look u).holds →
      x ∈ (s.look u).holds ∨ ¬(s.readers Taken).out x := by
    intro u x hx
    by_cases hul : u = l
    · rw [hul, hself] at hx
      rw [hul, hp]
      exact hfinds x hx
    · rw [hother u hul] at hx
      exact .inl hx
  refine ⟨h.base, h.readers.step ?_, h.workers, ?_, h.cleared, h.freedFiber, h.freedWorker⟩
  · refine ⟨fun u x hx => ?_, hholds, fun u x hu _ => hu, fun u x hout hin => absurd hout hin,
      fun u x hu => ⟨?_, .inl hu⟩, fun x hx => h.readers.out_of_drained x hx, fun x hx => .inl hx⟩
    · show ((s.setLook l p).look u).running = true
      by_cases hul : u = l
      · rw [hul, hself]
        exact hrun
      · have hx' : x ∈ ((s.setLook l p).look u).holds := hx
        rw [hother u hul] at hx' ⊢
        exact h.readers.active_of_holds u x hx'
    · show ((s.setLook l p).look u).running = true
      rw [hrunning]
      exact h.readers.active_of_early u x hu
  · obtain ⟨R, hmem, hcard⟩ := h.count
    refine ⟨R, fun u => ?_, hcard⟩
    rw [hrunning]
    exact hmem u

omit [DecidableEq T] in
theorem begin (h : Inv M Ok Taken s) (hp : s.look l = .out) (ctx : Endpoint T) :
    Inv M Ok Taken ({ s with lookups := s.lookups + 1 }.setLook l (.load ctx)) := by
  have hother : ∀ u, u ≠ l → Function.update s.look l (.load ctx) u = s.look u :=
    fun u hu => Function.update_of_ne hu ..
  have hrunning : ∀ u, (s.look u).running = true → (Function.update s.look l (.load ctx) u).running = true := by
    intro u hu
    by_cases hul : u = l
    · rw [hul, Function.update_self]
      rfl
    · rw [hother u hul]
      exact hu
  refine ⟨h.base, h.readers.step ?_, h.workers, ?_, h.cleared, h.freedFiber, h.freedWorker⟩
  · have hholds : ∀ u x, x ∈ (Function.update s.look l (.load ctx) u).holds → x ∈ (s.look u).holds := by
      intro u x hx
      by_cases hul : u = l
      · rw [hul, Function.update_self] at hx
        exact absurd hx List.not_mem_nil
      · rw [hother u hul] at hx
        exact hx
    exact ⟨fun u x hx => hrunning u (h.readers.active_of_holds u x (hholds u x hx)),
      fun u x hx => .inl (hholds u x hx), fun u x hu _ => hu, fun u x hout hin => absurd hout hin,
      fun u x hu => ⟨hrunning u (h.readers.active_of_early u x hu), .inl hu⟩,
      fun x hx => h.readers.out_of_drained x hx, fun x hx => .inl hx⟩
  · obtain ⟨R, hmem, hcard⟩ := h.count
    have hnot : l ∉ R := by
      intro hin
      have hr := (hmem l).1 hin
      rw [hp] at hr
      cases hr
    refine ⟨insert l R, fun u => ?_, ?_⟩
    · show u ∈ insert l R ↔ (Function.update s.look l (.load ctx) u).running = true
      rw [Finset.mem_insert]
      by_cases hul : u = l
      · rw [hul, Function.update_self]
        exact ⟨fun _ => rfl, fun _ => .inl rfl⟩
      · rw [hother u hul, hmem]
        exact ⟨fun hu => hu.resolve_left hul, .inr⟩
    · rw [Finset.card_insert_of_notMem hnot, ← hcard]
      rfl

omit [DecidableEq T] in
theorem leave (h : Inv M Ok Taken s) {found : Option (Endpoint T)} (hp : s.look l = .leave found) :
    Inv M Ok Taken ({ s with
      lookups := s.lookups - 1
      early := fun x u => s.early x u && u ≠ l }.setLook l .out) := by
  have hother : ∀ u, u ≠ l → Function.update s.look l .out u = s.look u :=
    fun u hu => Function.update_of_ne hu ..
  have hholds : ∀ u x, x ∈ (Function.update s.look l .out u).holds → u ≠ l ∧ x ∈ (s.look u).holds := by
    intro u x hx
    by_cases hul : u = l
    · rw [hul, Function.update_self] at hx
      exact absurd hx List.not_mem_nil
    · rw [hother u hul] at hx
      exact ⟨hul, hx⟩
  have hrunning : ∀ u, u ≠ l → (s.look u).running = true →
      (Function.update s.look l .out u).running = true := by
    intro u hul hu
    rw [hother u hul]
    exact hu
  have hearly : ∀ x u, (s.early x u && decide (u ≠ l)) = true ↔ s.early x u = true ∧ u ≠ l := by
    intro x u
    rw [Bool.and_eq_true, decide_eq_true_iff]
  refine ⟨h.base, h.readers.step ?_, h.workers, ?_, fun w u hu => h.cleared w u ((hearly _ u).1 hu).1,
    h.freedFiber, h.freedWorker⟩
  · refine ⟨fun u x hx => ?_, fun u x hx => .inl (hholds u x hx).2, fun u x hu hact => (hearly x u).2 ⟨hu, ?_⟩,
      fun u x hout hin => absurd hout hin, fun u x hu => ?_, fun x hx => h.readers.out_of_drained x hx,
      fun x hx => .inl hx⟩
    · obtain ⟨hul, hold⟩ := hholds u x hx
      exact hrunning u hul (h.readers.active_of_holds u x hold)
    · rintro rfl
      have hr : (Function.update s.look u .out u).running = true := hact
      rw [Function.update_self] at hr
      cases hr
    · obtain ⟨hu, hul⟩ := (hearly x u).1 hu
      exact ⟨hrunning u hul (h.readers.active_of_early u x hu), .inl hu⟩
  · obtain ⟨R, hmem, hcard⟩ := h.count
    have hin : l ∈ R := by
      rw [hmem, hp]
      rfl
    refine ⟨R.erase l, fun u => ?_, ?_⟩
    · show u ∈ R.erase l ↔ (Function.update s.look l .out u).running = true
      rw [Finset.mem_erase]
      by_cases hul : u = l
      · rw [hul, Function.update_self]
        exact ⟨fun hu => absurd rfl hu.1, nofun⟩
      · rw [hother u hul, hmem]
        exact ⟨And.right, fun hu => ⟨hul, hu⟩⟩
    · rw [Finset.card_erase_of_mem hin, ← hcard]
      rfl

/-- `ps4_fiber_endpoint_host_thread` makes its next access. -/
theorem lookNext (h : Inv M Ok Taken s) (hM : Lawful M Ok Taken)
    (hs : FiberLookup.lookNext M s l = some s') : Inv M Ok Taken s' := by
  cases hp : s.look l with
  | out =>
      simp only [FiberLookup.lookNext, hp] at hs
      cases hs
  | load ctx =>
      simp only [FiberLookup.lookNext, hp] at hs
      cases hs
      exact h.setLook hp rfl rfl nofun
  | slot ctx i n =>
      simp only [FiberLookup.lookNext, hp] at hs
      split at hs
      · split at hs
        · cases hs
          exact h.setLook hp rfl rfl nofun
        · rename_i w hw
          cases hs
          refine h.setLook hp rfl rfl fun x hx => .inr fun hout => ?_
          rw [List.mem_singleton.1 hx] at hout
          have hout' : (s.slot w).findable = false := hout
          rw [Slot.findable_of_isAt (h.workers i w hw)] at hout'
          cases hout'
      · cases hs
        exact h.setLook hp rfl rfl nofun
  | current ctx i n w =>
      simp only [FiberLookup.lookNext, hp] at hs
      cases hs
      refine h.setLook hp rfl rfl fun x hx => ?_
      cases hcur : M.current s.base w with
      | none =>
          rw [hcur] at hx
          exact .inl hx
      | some y =>
          rw [hcur] at hx
          rcases List.mem_cons.1 hx with rfl | hx
          · exact .inl (List.mem_singleton.2 rfl)
          · rw [List.mem_singleton.1 hx]
            exact .inr fun hout => hM.not_current _ _ w h.base hout hcur
  | context ctx i n w y =>
      simp only [FiberLookup.lookNext, hp] at hs
      split at hs
      · split at hs
        · cases hs
          exact h.setLook hp rfl rfl fun x hx => .inl hx
        · cases hs
          exact h.setLook hp rfl rfl nofun
      · split at hs
        · split at hs
          · cases hs
            exact h.setLook hp rfl rfl fun x hx => .inl hx
          · cases hs
            exact h.setLook hp rfl rfl fun x hx => .inl (List.mem_cons.2 (.inl (List.mem_singleton.1 hx)))
        · cases hs
          exact h.setLook hp rfl rfl fun x hx => .inl hx
  | fiber ctx i n w y =>
      simp only [FiberLookup.lookNext, hp] at hs
      split at hs
      · split at hs
        · cases hs
          exact h.setLook hp rfl rfl fun x hx => .inl hx
        · cases hs
          exact h.setLook hp rfl rfl fun x hx => .inl (List.mem_cons.2 (.inl (List.mem_singleton.1 hx)))
      · cases hs
        exact h.setLook hp rfl rfl nofun
  | started w y =>
      simp only [FiberLookup.lookNext, hp] at hs
      split at hs
      · cases hs
        exact h.setLook hp rfl rfl fun x hx => .inl (List.mem_cons.2 (.inr hx))
      · cases hs
        exact h.setLook hp rfl rfl fun x hx => .inl (List.mem_cons.2 (.inl (List.mem_singleton.1 hx)))
  | hostThread y | host w =>
      simp only [FiberLookup.lookNext, hp] at hs
      cases hs
      exact h.setLook hp rfl rfl nofun
  | leave found =>
      simp only [FiberLookup.lookNext, hp] at hs
      cases hs
      exact h.leave hp

omit [DecidableEq L] in
theorem baseStep_early (M : Mode S A T) (s : State S T L) (a : A) (base : S) :
    (∀ x, (∀ y, M.takes s.base a = some y → x ≠ .fiber y) →
      (FiberLookup.baseStep M s a base).early x = s.early x) ∧
    ∀ y, M.takes s.base a = some y →
      (FiberLookup.baseStep M s a base).early (.fiber y) = fun l => (s.look l).running := by
  unfold FiberLookup.baseStep
  cases htakes : M.takes s.base a with
  | none => exact ⟨fun _ _ => rfl, nofun⟩
  | some y =>
      refine ⟨fun x hx => Function.update_of_ne (hx y rfl) .., fun z hz => ?_⟩
      cases hz
      exact Function.update_self ..

omit [DecidableEq L] in
theorem baseStep_freed (M : Mode S A T) (s : State S T L) (a : A) (base : S) {x : Endpoint T}
    (hx : (FiberLookup.baseStep M s a base).freed x = true) :
    s.freed x = true ∨ ∃ y, M.frees s.base a = some y ∧ x = .fiber y := by
  unfold FiberLookup.baseStep at hx
  cases hfrees : M.frees s.base a with
  | none =>
      rw [hfrees] at hx
      exact .inl hx
  | some y =>
      by_cases hxy : x = .fiber y
      · exact .inr ⟨y, rfl, hxy⟩
      · rw [hfrees] at hx
        have hx' : Function.update s.freed (.fiber y) true x = true := hx
        rw [Function.update_of_ne hxy] at hx'
        exact .inl hx'

omit [DecidableEq L] in
theorem baseStep (h : Inv M Ok Taken s) (hM : Lawful M Ok Taken) {a : A} {base : S} (hok : Ok s.base a)
    (hs : M.exec s.base a = some base) (hfrees : ∀ y, M.frees s.base a = some y → s.drained y = true) :
    Inv M Ok Taken (FiberLookup.baseStep M s a base) := by
  obtain ⟨hold, hnew⟩ := baseStep_early M s a base
  have hfreed := fun x => baseStep_freed M s a base (x := x)
  have hearly : ∀ x l, (FiberLookup.baseStep M s a base).early x l = true →
      s.early x l = true ∨ (s.look l).running = true ∧ ¬(s.readers Taken).drained x := by
    intro x l hx
    by_cases htakes : ∃ y, M.takes s.base a = some y ∧ x = .fiber y
    · obtain ⟨y, hy, rfl⟩ := htakes
      rw [hnew y hy] at hx
      refine .inr ⟨hx, fun hd => ?_⟩
      exact (hM.takes _ a base y h.base hok hs hy).1 (h.readers.out_of_drained _ hd)
    · rw [hold x fun y hy hxy => htakes ⟨y, hy, hxy⟩] at hx
      exact .inl hx
  refine ⟨h.base.step ⟨hok, hs⟩, h.readers.step ?_, h.workers, h.count, fun w l hl => ?_, fun y hy => ?_,
    fun w hw => ?_⟩
  · refine ⟨h.readers.active_of_holds, fun l x hx => .inl hx, fun l x hx hact => ?_,
      fun l x hout hin hheld _ => ?_, fun l x hx => ?_, fun x hx => ?_, fun x hx => .inl hx⟩
    · show (FiberLookup.baseStep M s a base).early x l = true
      by_cases htakes : ∃ y, M.takes s.base a = some y ∧ x = .fiber y
      · obtain ⟨y, hy, rfl⟩ := htakes
        rw [hnew y hy]
        exact hact
      · rw [hold x fun y hy hxy => htakes ⟨y, hy, hxy⟩]
        exact hx
    · show (FiberLookup.baseStep M s a base).early x l = true
      cases x with
      | thread w => exact absurd hout hin
      | fiber y =>
          rcases hM.taken _ a base y h.base hok hs hout with hbefore | htakes
          · exact absurd hbefore hin
          · rw [hnew y htakes]
            exact h.readers.active_of_holds l _ hheld
    · rcases hearly x l hx with hbefore | ⟨hrun, hnot⟩
      · exact ⟨h.readers.active_of_early l x hbefore, .inl hbefore⟩
      · exact ⟨hrun, .inr hnot⟩
    · cases x with
      | thread w => exact h.readers.out_of_drained (.thread w) hx
      | fiber y => exact hM.stays _ a base y h.base hok hs (h.readers.out_of_drained (.fiber y) hx)
  · have hl' : (FiberLookup.baseStep M s a base).early (.thread w) l = true := hl
    rw [hold (.thread w) fun y _ => nofun] at hl'
    exact h.cleared w l hl'
  · rcases hfreed _ hy with hbefore | ⟨z, hz, heq⟩
    · exact h.freedFiber y hbefore
    · cases heq
      exact hfrees y hz
  · rcases hfreed _ hw with hbefore | ⟨z, -, heq⟩
    · exact h.freedWorker w hbefore
    · cases heq

omit [DecidableEq T] [DecidableEq L] in
theorem quiesce (h : Inv M Ok Taken s) (hM : Lawful M Ok Taken) {a : A} {y : ℕ}
    (hy : M.frees s.base a = some y) (hzero : s.lookups = 0) :
    Inv M Ok Taken { s with drained := Function.update s.drained y true } := by
  have hdrained : ∀ z, Function.update s.drained y true z = true → s.drained z = true ∨ z = y := by
    intro z hz
    by_cases hzy : z = y
    · exact .inr hzy
    · rw [Function.update_of_ne hzy] at hz
      exact .inl hz
  refine ⟨h.base, h.readers.step ?_, h.workers, h.count, h.cleared, fun z hz => ?_, h.freedWorker⟩
  · refine ⟨h.readers.active_of_holds, fun l x hx => .inl hx, fun l x hx _ => hx,
      fun l x hout hin => absurd hout hin, fun l x hx => ⟨h.readers.active_of_early l x hx, .inl hx⟩,
      fun x hx => h.readers.out_of_drained x hx, fun x hx => ?_⟩
    cases x with
    | thread w => exact .inl hx
    | fiber z =>
        rcases hdrained z hx with hold | rfl
        · exact .inl hold
        · refine .inr ⟨hM.taken_of_frees _ a z h.base hy, fun l hl => ?_⟩
          have hrun : (s.look l).running = true := h.readers.active_of_early l (.fiber z) hl
          rw [h.none_running hzero l] at hrun
          cases hrun
  · show Function.update s.drained y true z = true
    by_cases hzy : z = y
    · rw [hzy, Function.update_self]
    · rw [Function.update_of_ne hzy]
      exact h.freedFiber z hz

/-- **Every step keeps the invariant.** -/
theorem exec (h : Inv M Ok Taken s) (hM : Lawful M Ok Taken) {act : Act A T L} (hok : FibersOk Ok s act)
    (hs : exec M s act = some s') : Inv M Ok Taken s' := by
  cases act with
  | base a =>
      simp only [FiberLookup.exec] at hs
      split at hs
      · rename_i hguard
        obtain ⟨base, hbase, rfl⟩ := Option.map_eq_some_iff.1 hs
        refine h.baseStep hM hok hbase fun y hy => ?_
        have hdrained := (Bool.and_eq_true _ _ ▸ hguard).2
        rw [hy] at hdrained
        exact hdrained
      · cases hs
  | getWorker a =>
      simp only [FiberLookup.exec] at hs
      split at hs
      · cases hs
      · split at hs
        · rename_i t _ hguard
          cases hs
          have hp : s.slot t = .none := of_decide_eq_true (Bool.and_eq_true _ _ ▸ hguard).2
          exact h.setSlot hp rfl nofun rfl nofun (by nofun) s.nworkers
        · cases hs
  | quiesce a =>
      simp only [FiberLookup.exec] at hs
      split at hs
      · cases hs
      · split at hs
        · rename_i y hy hzero
          cases hs
          exact h.quiesce hM hy hzero
        · cases hs
  | worker t => exact h.workerNext hs
  | exit t =>
      simp only [FiberLookup.exec] at hs
      split at hs
      · split at hs
        · rename_i i hp
          cases hs
          exact h.exitLive hp
        · rename_i hp
          cases hs
          exact h.setSlot hp rfl (fun _ => rfl) rfl (fun _ => rfl) (fun _ => .inr (h.not_early hp rfl)) s.nworkers
        · cases hs
      · cases hs
  | lookup l ctx =>
      simp only [FiberLookup.exec] at hs
      split at hs
      · rename_i hp
        cases hs
        exact h.begin hp ctx
      · cases hs
  | read l => exact h.lookNext hM hs

end Inv

variable [DecidableEq T] [DecidableEq L]

/-- The invariant holds in every run whose steps of the fibers meet the condition. -/
theorem inv_reachable {M : Mode S A T} {Ok : S → A → Prop} {Taken : S → ℕ → Prop} (hM : Lawful M Ok Taken)
    {s : State S T L} (h : Reachable ((lookupSystem M L).restrict (FibersOk Ok)) s) : Inv M Ok Taken s := by
  refine Reachable.invariant (P := Inv M Ok Taken) (fun s hs => ?_)
    (fun s act s' _ hi (hstep : FibersOk Ok s act ∧ exec M s act = some s') => hi.exec hM hstep.1 hstep.2) h
  rw [show s = { base := M.start } from hs]
  refine ⟨.init rfl, ⟨nofun, nofun, nofun, fun x hx => ?_, nofun⟩, nofun, ⟨∅, fun l => ?_, rfl⟩, nofun, nofun, nofun⟩
  · cases x with
    | thread w => cases hx
    | fiber y => cases hx
  · exact ⟨fun hl => absurd hl (Finset.notMem_empty l), nofun⟩

/-- No look-up reads a freed object next, and an object is freed when no look-up has a pointer to it and none
runs that ran when it was made unreachable. -/
def Safe (M : Mode S A T) (s : State S T L) : Prop :=
  (∀ l x, (s.look l).reads = some x → s.freed x = false) ∧
    ∀ act s' x, exec M s act = some s' → s.freed x = false → s'.freed x = true →
      ∀ l, s.early x l = false ∧ x ∉ (s.look l).holds

omit [DecidableEq T] in
theorem Look.holds_of_reads {p : Look T} {x : Endpoint T} (h : p.reads = some x) : x ∈ p.holds := by
  cases p with
  | out | load ctx | slot ctx i n | leave found => cases h
  | current ctx i n w | host w =>
      cases h
      exact List.mem_singleton.2 rfl
  | context ctx i n w y =>
      cases h
      cases y with
      | none => exact List.mem_singleton.2 rfl
      | some y => exact List.mem_cons_self
  | fiber ctx i n w y | started w y =>
      cases h
      exact List.mem_cons_of_mem _ (List.mem_singleton.2 rfl)
  | hostThread y =>
      cases h
      exact List.mem_singleton.2 rfl

omit [DecidableEq T] [DecidableEq L] in
/-- No look-up that could have found what is drained runs. -/
theorem Inv.drained {M : Mode S A T} {Ok : S → A → Prop} {Taken : S → ℕ → Prop} {s : State S T L}
    (h : Inv M Ok Taken s) {x : Endpoint T} (hx : (s.readers Taken).drained x) (l : L) :
    s.early x l = false ∧ x ∉ (s.look l).holds := by
  refine ⟨?_, h.readers.not_held hx⟩
  cases he : s.early x l with
  | false => rfl
  | true => exact absurd he (h.readers.not_early l x hx)

theorem lookNext_freed {M : Mode S A T} {s s' : State S T L} {l : L} (hs : lookNext M s l = some s') :
    s'.freed = s.freed := by
  unfold lookNext at hs
  split at hs
  · cases hs
  · cases hs
    rfl
  · split at hs
    · split at hs
      · cases hs
        rfl
      · cases hs
        rfl
    · cases hs
      rfl
  · cases hs
    rfl
  · split at hs
    · split at hs
      · cases hs
        rfl
      · cases hs
        rfl
    · split at hs
      · split at hs
        · cases hs
          rfl
        · cases hs
          rfl
      · cases hs
        rfl
  · split at hs
    · split at hs
      · cases hs
        rfl
      · cases hs
        rfl
    · cases hs
      rfl
  · split at hs
    · cases hs
      rfl
    · cases hs
      rfl
  · cases hs
    rfl
  · cases hs
    rfl
  · cases hs
    rfl

theorem drained_of_freed {M : Mode S A T} {Taken : S → ℕ → Prop} {s s' : State S T L} {act : Act A T L}
    {x : Endpoint T} (hs : exec M s act = some s') (hx : s.freed x = false) (hx' : s'.freed x = true) :
    (s.readers Taken).drained x := by
  have hsame : s'.freed = s.freed → (s.readers Taken).drained x := by
    intro heq
    rw [heq, hx] at hx'
    cases hx'
  cases act with
  | base a =>
      simp only [exec] at hs
      split at hs
      · rename_i hguard
        obtain ⟨base, -, rfl⟩ := Option.map_eq_some_iff.1 hs
        rcases Inv.baseStep_freed M s a base hx' with hold | ⟨y, hy, rfl⟩
        · rw [hx] at hold
          cases hold
        · have hdrained := (Bool.and_eq_true _ _ ▸ hguard).2
          rw [hy] at hdrained
          exact hdrained
      · cases hs
  | getWorker a | quiesce a =>
      simp only [exec] at hs
      split at hs
      · cases hs
      · split at hs
        · cases hs
          exact hsame rfl
        · cases hs
  | worker t =>
      simp only [exec] at hs
      cases hp : s.slot t with
      | none | live i | gone =>
          simp only [workerNext, hp] at hs
          cases hs
      | load | clear i =>
          simp only [workerNext, hp] at hs
          cases hs
          exact hsame rfl
      | scan i n =>
          simp only [workerNext, hp] at hs
          split at hs
          · split at hs
            · cases hs
              exact hsame rfl
            · cases hs
              exact hsame rfl
          · split at hs
            · cases hs
              exact hsame rfl
            · cases hs
              exact hsame rfl
      | grow n =>
          simp only [workerNext, hp] at hs
          split at hs
          · cases hs
            exact hsame rfl
          · cases hs
            exact hsame rfl
      | quiesce =>
          simp only [workerNext, hp] at hs
          split at hs
          · cases hs
            exact hsame rfl
          · cases hs
      | free =>
          simp only [workerNext, hp] at hs
          cases hs
          have hx'' : Function.update s.freed (.thread t) true x = true := hx'
          have hxt : x = .thread t := by
            by_contra hne
            rw [Function.update_of_ne hne, hx] at hx''
            cases hx''
          rw [hxt]
          show (s.slot t).drained = true
          rw [hp]
          rfl
  | exit t =>
      simp only [exec] at hs
      split at hs
      · split at hs
        · cases hs
          exact hsame rfl
        · cases hs
          exact hsame rfl
        · cases hs
      · cases hs
  | lookup l ctx =>
      simp only [exec] at hs
      split at hs
      · cases hs
        exact hsame rfl
      · cases hs
  | read l =>
      simp only [exec] at hs
      exact hsame (lookNext_freed hs)

/-- **A mode whose fibers are lawful is safe.** -/
theorem safe_of_lawful {M : Mode S A T} {Ok : S → A → Prop} {Taken : S → ℕ → Prop} (hM : Lawful M Ok Taken)
    {s : State S T L} (h : Reachable ((lookupSystem M L).restrict (FibersOk Ok)) s) : Safe M s := by
  have hinv := inv_reachable hM h
  exact ⟨fun l x hx => hinv.not_freed (Look.holds_of_reads hx),
    fun act s' x hs hx hx' => hinv.drained (drained_of_freed hs hx hx')⟩

end PS4Recomp.Runtime.FiberLookup
