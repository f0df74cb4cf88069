import PS4Recomp.Gnm.CommandQueues

/-!
# When the command queues are kept

* `GfxQueue.Parked`, `GfxInv` — where the graphics queue is suspended it is at a wait, and the suspension is
  not older than the first stop there; `GfxInv.resume`, `.loop`, `.walk` — the step lemmas;
* `WaitQueue.Parked`, `CqInv` — the same for a compute queue;
* `PumpInv` — the queues that a resumption has still to look at are suspended since before its clock reading;
* **`commandQueues_kept`** — in every run whose stops meet the condition the queues are kept.
-/

namespace PS4Recomp.Gnm.CommandQueues

open Library.Transition Library.WaitHistory

theorem sub64_eq {a b : Nat} (hle : b ≤ a) (ha : a < 2 ^ 64) : sub64 a b = a - b := by
  rw [sub64, show a + 2 ^ 64 - b = (a - b) + 2 ^ 64 by omega, Nat.add_mod_right]
  exact Nat.mod_eq_of_lt (by omega)

/-- The time of a stop is not after the clock. -/
def StopsBefore (clock : Nat) (h : List (Event World Packet)) : Prop :=
  ∀ p t₀ l, waitedFor p h = some (t₀, l) → t₀ ≤ clock

theorem StopsBefore.stopped {clock : Nat} {h : List (Event World Packet)} (hb : StopsBefore clock h)
    (l : Bool) (p : Packet) : StopsBefore clock (.stopped clock l p :: h) := by
  intro p' t₀ l₀ hw
  by_cases hp : p = p'
  · subst hp
    obtain ⟨t₁, l₁, hw₁, hle, -⟩ := waitedFor_stopped p l (hb p)
    rw [hw] at hw₁
    cases hw₁
    exact hle
  · rw [waitedFor, if_neg hp] at hw
    cases hw

theorem StopsBefore.mono {clock clock' : Nat} {h : List (Event World Packet)} (hb : StopsBefore clock h)
    (hle : clock ≤ clock') : StopsBefore clock' h :=
  fun p t₀ l hw => Nat.le_trans (hb p t₀ l hw) hle

theorem stopsBefore_ran (clock : Nat) (w : World) (p : Packet) (h : List (Event World Packet)) :
    StopsBefore clock (.ran w p :: h) :=
  fun _ _ _ hw => nomatch hw

theorem stopsBefore_skipped (clock t : Nat) (p : Packet) (h : List (Event World Packet)) :
    StopsBefore clock (.skipped t p :: h) :=
  fun _ _ _ hw => nomatch hw

/-! ### The graphics queue -/

/-- What the holder of the lock does with the graphics queue. -/
inductive GfxMode
  | parked
  | ready
  | loop (force : Bool)
  | walk (force : Bool)

def Cp.gfxMode : Cp → GfxMode
  | .gfxReady _ => .ready
  | .gfxLoop force => .loop force
  | .gfxWalk force => .walk force
  | _ => .parked

/-- The queue is stopped at a wait, first not later than it counts as suspended; if every stop found a flip
label, it waits for one. -/
structure GfxQueue.Parked (c : Commands) (q : GfxQueue) : Prop where
  active : q.active = true
  since : ∃ p st' t₀ l, gfxWait c q.cur = some (p, st') ∧ waitedFor p q.history = some (t₀, l) ∧
    t₀ ≤ q.suspendedAt ∧ (l = true → q.flipWait = true)

def GfxPlace (c : Commands) (clock : Nat) (q : GfxQueue) : GfxMode → Prop
  | .parked => q.suspendedAt ≠ 0 → q.Parked c
  | .ready => q.suspendedAt ≠ 0 ∧ q.Parked c
  | .loop force => (q.suspendedAt ≠ 0 → q.Parked c) ∧
      (force = true → q.suspendedAt ≠ 0 ∧ q.limit < clock - q.suspendedAt)
  | .walk force => force = false ∧ q.active = true ∧
      (q.suspendedAt ≠ 0 → q.Parked c ∨ stoppedLast q.history = false)

structure GfxInv (c : Commands) (clock : Nat) (mode : GfxMode) (q : GfxQueue) : Prop where
  drains : Drains (gfxWalker c) (q.submitted.map GfxSubmit.job) q.history q.remaining
  full : FullWaits kGfxWaitLimit kFlipWaitLimit q.history
  le : q.suspendedAt ≤ clock
  before : StopsBefore clock q.history
  place : GfxPlace c clock q mode

namespace GfxInv

variable {c : Commands} {clock : Nat} {q : GfxQueue}

theorem mono {mode : GfxMode} {clock' : Nat} (h : GfxInv c clock mode q) (hle : clock ≤ clock') :
    GfxInv c clock' mode q where
  drains := h.drains
  full := h.full
  le := Nat.le_trans h.le hle
  before := h.before.mono hle
  place := by
    have hplace := h.place
    cases mode with
    | parked => exact hplace
    | ready => exact hplace
    | loop force =>
        refine ⟨hplace.1, fun hforce => ⟨(hplace.2 hforce).1, ?_⟩⟩
        have hlimit := (hplace.2 hforce).2
        omega
    | walk force => exact hplace

theorem remaining_active (hactive : q.active = true) :
    q.remaining = .buffers q.cur :: q.pending.map GfxSubmit.job := by
  rw [GfxQueue.remaining, if_pos hactive]
  rfl

theorem remaining_inactive (hactive : q.active = false) : q.remaining = q.pending.map GfxSubmit.job := by
  rw [GfxQueue.remaining, hactive]
  rfl

theorem drains_active {jobs : List GfxJob} (hactive : q.active = true)
    (hd : Drains (gfxWalker c) jobs q.history (.buffers q.cur :: q.pending.map GfxSubmit.job)) :
    Drains (gfxWalker c) jobs q.history q.remaining := by
  rw [remaining_active hactive]
  exact hd

theorem drains_inactive {jobs : List GfxJob} (hactive : q.active = false)
    (hd : Drains (gfxWalker c) jobs q.history (q.pending.map GfxSubmit.job)) :
    Drains (gfxWalker c) jobs q.history q.remaining := by
  rw [remaining_inactive hactive]
  exact hd

theorem submit (subs : List GfxSubmit) (h : GfxInv c clock .parked q) : GfxInv c clock (.loop false)
    { q with pending := q.pending ++ subs, submitted := q.submitted ++ subs } where
  drains := by
    have hd := h.drains.append (subs.map GfxSubmit.job)
    rw [← List.map_append] at hd
    have hrem : q.remaining ++ subs.map GfxSubmit.job =
        GfxQueue.remaining { q with pending := q.pending ++ subs, submitted := q.submitted ++ subs } := by
      simp only [GfxQueue.remaining, List.append_assoc, List.map_append]
    rwa [hrem] at hd
  full := h.full
  le := h.le
  before := h.before
  place := ⟨fun hsusp => ⟨(h.place hsusp).active, (h.place hsusp).since⟩, fun hforce => nomatch hforce⟩

theorem resume (ready : Bool) (hclock : clock < 2 ^ 64) (h : GfxInv c clock .ready q) :
    GfxInv c clock (q.resume clock ready).2.gfxMode (q.resume clock ready).1 := by
  obtain ⟨hsusp, hparked⟩ := h.place
  unfold GfxQueue.resume
  split
  · exact ⟨h.drains, h.full, h.le, h.before, fun _ => hparked⟩
  · rename_i hwait
    split
    · exact ⟨h.drains, h.full, Nat.zero_le _, h.before, fun hne => absurd rfl hne, fun hforce => nomatch hforce⟩
    · rename_i hready
      refine ⟨h.drains, h.full, h.le, h.before, fun _ => hparked, fun _ => ⟨hsusp, ?_⟩⟩
      rw [sub64_eq h.le hclock] at hwait
      by_contra hlimit
      exact hwait ⟨Bool.eq_false_iff.2 hready, Nat.not_lt.1 hlimit⟩

theorem loop (w : World) (force : Bool) (h : GfxInv c clock (.loop force) q) :
    GfxInv c clock (q.loop c w clock force).2.gfxMode (q.loop c w clock force).1 := by
  obtain ⟨hparked, hforce⟩ := h.place
  unfold GfxQueue.loop
  split
  · rename_i hinactive
    have hrunning : q.suspendedAt = 0 := by
      by_contra hsusp
      have hactive := (hparked hsusp).active
      rw [hinactive] at hactive
      cases hactive
    have hnoforce : force ≠ true := fun htrue => (hforce htrue).1 hrunning
    have hd := h.drains
    rw [remaining_inactive hinactive] at hd
    split
    · exact ⟨h.drains, h.full, h.le, h.before, hparked⟩
    · rename_i id rest hpending
      rw [hpending, List.map_cons] at hd
      have hshown : Drains (gfxWalker c) (q.submitted.map GfxSubmit.job)
          (.ran w (.present id) :: q.history) (rest.map GfxSubmit.job) := by
        refine .done (w := w) (j := .buffers {}) (.ran (w := w) hd rfl) ?_
        rfl
      exact ⟨drains_inactive hinactive hshown, h.full, h.le, stopsBefore_ran _ _ _ _,
        fun hne => absurd hrunning hne, fun htrue => absurd htrue hnoforce⟩
    · rename_i dcb ccb rest hpending
      rw [hpending] at hd
      exact ⟨hd, h.full, h.le, h.before, fun hne => absurd hrunning hne, fun htrue => absurd htrue hnoforce⟩
  · rename_i hactive
    rw [Bool.not_eq_false] at hactive
    have hd := h.drains
    rw [remaining_active hactive] at hd
    split
    · rename_i hskip
      obtain ⟨p, st', t₀, l, hwait, hsince, hle, hflip⟩ := (hparked hskip.2).since
      obtain ⟨-, rfl, f, fs, hframes, -, rfl⟩ := gfxWait_eq_some hwait
      have hfront : q.cur.front = f := by rw [GfxStream.front, hframes]; rfl
      have hjob : (gfxWalker c).wait (.buffers q.cur) = some (f.packet, .buffers (q.cur.skipWait c)) := by
        show (gfxWait c q.cur).map _ = _
        rw [hwait]
        rfl
      have hlimit := (hforce hskip.1).2
      rw [hfront]
      refine ⟨?_, ⟨⟨t₀, l, hsince, ?_⟩, h.full⟩, Nat.zero_le _, stopsBefore_skipped _ _ _ _, rfl, hactive,
        fun hne => absurd rfl hne⟩
      · exact drains_active hactive (.skipped clock hd hjob)
      · cases l with
        | true =>
            rw [GfxQueue.limit, hflip rfl, if_pos rfl] at hlimit
            rw [if_pos rfl]
            omega
        | false =>
            have hshort : kGfxWaitLimit ≤ q.limit := by
              unfold GfxQueue.limit
              split <;> decide
            rw [if_neg Bool.false_ne_true]
            omega
    · rename_i hskip
      have hnoforce : force = false := by
        cases force with
        | false => rfl
        | true => exact absurd ⟨rfl, (hforce rfl).1⟩ hskip
      exact ⟨h.drains, h.full, h.le, h.before, hnoforce, hactive, fun hne => .inl (hparked hne)⟩

theorem walk (w : World) (force : Bool) (h : GfxInv c clock (.walk force) q)
    (hok : (gfxWait c q.cur).isSome = true → waitRegMemReady c w .gfx q.cur.front = false →
      q.suspendedAt = 0 ∨ stoppedLast q.history = true) :
    GfxInv c clock (q.walk c w clock force).2.gfxMode (q.walk c w clock force).1 := by
  obtain ⟨hforce, hactive, hparked⟩ := h.place
  have hd := h.drains
  rw [remaining_active hactive] at hd
  have hturn : (gfxWalker c).next w (.buffers q.cur) = (gfxNext c w q.cur).map .buffers := rfl
  have hmoves : gfxNext c w q.cur ≠ .blocked → (∀ p st, gfxNext c w q.cur ≠ .ran p st) → ¬q.Parked c := by
    intro hblocked hran hparked
    obtain ⟨p, st', -, -, hwait, -⟩ := hparked.since
    rcases gfxNext_of_wait w hwait with hnext | hnext
    · exact hblocked hnext
    · exact hran p st' hnext
  unfold GfxQueue.walk
  split
  · rename_i hnext
    rw [hnext] at hturn
    refine ⟨?_, h.full, Nat.zero_le _, h.before, fun hne => absurd rfl hne, fun htrue => ?_⟩
    · exact .done hd hturn
    · rw [hforce] at htrue
      cases htrue
  · rename_i st hnext
    rw [hnext] at hturn hmoves
    refine ⟨?_, h.full, h.le, h.before, hforce, hactive, fun hne => ?_⟩
    · exact drains_active hactive (.quiet hd hturn)
    · rcases hparked hne with hp | hlast
      · exact absurd hp (hmoves nofun nofun)
      · exact .inr hlast
  · rename_i p st hnext
    rw [hnext] at hturn
    refine ⟨?_, h.full, h.le, stopsBefore_ran _ _ _ _, hforce, hactive, fun _ => .inr rfl⟩
    exact drains_active hactive (.ran hd hturn)
  · rename_i hnext
    obtain ⟨p, st', hwait⟩ := gfxWait_of_blocked hnext
    have hunmet := not_ready_of_blocked hnext
    obtain ⟨-, rfl, f, fs, hframes, -, rfl⟩ := gfxWait_eq_some hwait
    have hfront : q.cur.front = f := by rw [GfxStream.front, hframes]; rfl
    have hjob : (gfxWalker c).wait (.buffers q.cur) = some (f.packet, .buffers (q.cur.skipWait c)) := by
      show (gfxWait c q.cur).map _ = _
      rw [hwait]
      rfl
    rw [hnext] at hturn
    have hstopped := Drains.stopped clock (w.flipLabel (waitPollAddress c f)) hd hturn hjob
    rw [hwait, hfront] at hok
    rw [hfront] at hunmet ⊢
    dsimp only
    split
    · refine ⟨?_, h.full, Nat.le_refl _, h.before.stopped _ _, fun _ => ⟨hactive, ?_⟩⟩
      · exact drains_active hactive hstopped
      · obtain ⟨t₀, l, hsince, hle, hl⟩ :=
          waitedFor_stopped f.packet (w.flipLabel (waitPollAddress c f)) (h.before f.packet)
        exact ⟨f.packet, _, t₀, l, hwait, hsince, hle, hl⟩
    · rename_i hsusp
      -- it counts as suspended since an earlier stop, which was at this wait
      have hlast : stoppedLast q.history = true := (hok rfl hunmet).resolve_left hsusp
      have hold : q.Parked c := by
        rcases hparked hsusp with hp | hran
        · exact hp
        · rw [hlast] at hran
          cases hran
      obtain ⟨p₁, st₁, t₀, l, hwait₁, hsince, hle, hflip⟩ := hold.since
      rw [hwait] at hwait₁
      cases hwait₁
      refine ⟨?_, h.full, h.le, h.before.stopped _ _, fun _ => ⟨hactive, ?_⟩⟩
      · exact drains_active hactive hstopped
      · exact ⟨f.packet, _, t₀, _, hwait, waitedFor_again hsince, hle,
          fun hl => hflip (Bool.and_eq_true_iff.1 hl).1⟩

end GfxInv

/-! ### A compute queue -/

/-- What the holder of the lock does with a compute queue. -/
inductive CqMode
  | parked
  | start (force : Bool)
  | loop (now : Nat) (force : Bool)
  | walk (now : Nat) (skip : Bool)

def Cp.cqMode (slot : Nat) : Cp → CqMode
  | .cqStart k force _ => if k = slot then .start force else .parked
  | .cqLoop k now force _ => if k = slot then .loop now force else .parked
  | .cqWalk k now skip _ => if k = slot then .walk now skip else .parked
  | _ => .parked

/-- The queue is at a wait, and stopped there first at `t` or before, never at a flip label. -/
def WaitQueue.StoppedBy (c : Commands) (q : WaitQueue) (t : Nat) : Prop :=
  ∃ sub rest p sub' t₀, q.pending = sub :: rest ∧ computeWait c sub = some (p, sub') ∧
    waitedFor p q.history = some (t₀, false) ∧ t₀ ≤ t

/-- The queue is suspended if and only if it is forced on, and then over its limit. -/
def WaitQueue.Resumed (c : Commands) (clock : Nat) (q : WaitQueue) (force : Bool) : Prop :=
  (force = false → q.suspendedAt = 0) ∧
    (force = true → q.StoppedBy c q.suspendedAt ∧ kComputeWaitLimit < clock - q.suspendedAt)

def CqPlace (c : Commands) (clock : Nat) (q : WaitQueue) : CqMode → Prop
  | .parked => q.suspendedAt ≠ 0 → q.StoppedBy c q.suspendedAt
  | .start force => q.Resumed c clock force
  | .loop now force => 0 < now ∧ now ≤ clock ∧ q.Resumed c clock force
  | .walk now skip => 0 < now ∧ now ≤ clock ∧ q.suspendedAt = 0 ∧
      (skip = true → ∃ t, q.StoppedBy c t ∧ kComputeWaitLimit < clock - t)

structure CqInv (c : Commands) (clock : Nat) (mode : CqMode) (q : WaitQueue) : Prop where
  drains : Drains (computeWalker c) q.submitted q.history q.pending
  full : FullWaits kGfxWaitLimit kFlipWaitLimit q.history
  le : q.suspendedAt ≤ clock
  before : StopsBefore clock q.history
  place : CqPlace c clock q mode

theorem WaitQueue.Resumed.mono {c : Commands} {clock clock' : Nat} {q : WaitQueue} {force : Bool}
    (h : q.Resumed c clock force) (hle : clock ≤ clock') : q.Resumed c clock' force := by
  refine ⟨h.1, fun hforce => ⟨(h.2 hforce).1, ?_⟩⟩
  have hlimit := (h.2 hforce).2
  omega

@[simp] theorem Cp.cqMode_start (slot : Nat) (force : Bool) (ret : Option Nat) :
    (Cp.cqStart slot force ret).cqMode slot = .start force := if_pos rfl

@[simp] theorem Cp.cqMode_loop (slot now : Nat) (force : Bool) (ret : Option Nat) :
    (Cp.cqLoop slot now force ret).cqMode slot = .loop now force := if_pos rfl

@[simp] theorem Cp.cqMode_walk (slot now : Nat) (skip : Bool) (ret : Option Nat) :
    (Cp.cqWalk slot now skip ret).cqMode slot = .walk now skip := if_pos rfl

@[simp] theorem Cp.cqMode_back (slot k : Nat) (ret : Option Nat) : (Cp.back k ret).cqMode slot = .parked := by
  cases ret <;> rfl

namespace CqInv

variable {c : Commands} {clock : Nat} {q : WaitQueue}

theorem mono {mode : CqMode} {clock' : Nat} (h : CqInv c clock mode q) (hle : clock ≤ clock') :
    CqInv c clock' mode q where
  drains := h.drains
  full := h.full
  le := Nat.le_trans h.le hle
  before := h.before.mono hle
  place := by
    have hplace := h.place
    cases mode with
    | parked => exact hplace
    | start force => exact hplace.mono hle
    | loop now force => exact ⟨hplace.1, Nat.le_trans hplace.2.1 hle, hplace.2.2.mono hle⟩
    | walk now skip =>
        obtain ⟨hnow, hbefore, hrunning, hskip⟩ := hplace
        refine ⟨hnow, Nat.le_trans hbefore hle, hrunning, fun htrue => ?_⟩
        obtain ⟨t, hstopped, hlimit⟩ := hskip htrue
        exact ⟨t, hstopped, by omega⟩

theorem empty (c : Commands) (clock : Nat) : CqInv c clock .parked {} where
  drains := .start
  full := trivial
  le := Nat.zero_le _
  before := fun _ _ _ hw => nomatch hw
  place := fun hne => absurd rfl hne

/-- A new submission waits behind the others, or begins. -/
theorem submit (sub : ComputeSubmit) (slot : Nat) (h : CqInv c clock .parked q) :
    let q' : WaitQueue := { q with pending := q.pending ++ [sub], submitted := q.submitted ++ [sub] }
    CqInv c clock ((if q'.suspended then Cp.idle else Cp.cqStart slot false none).cqMode slot) q' := by
  intro q'
  have hstays : q'.suspendedAt ≠ 0 → q'.StoppedBy c q'.suspendedAt := by
    intro hne
    obtain ⟨first, rest, p, sub', t₀, hpending, hrest⟩ := h.place hne
    refine ⟨first, rest ++ [sub], p, sub', t₀, ?_, hrest⟩
    show q.pending ++ [sub] = _
    rw [hpending]
    rfl
  refine ⟨h.drains.append [sub], h.full, h.le, h.before, ?_⟩
  split
  · exact hstays
  · rename_i hsusp
    have hrunning : q'.suspendedAt = 0 := by
      by_contra hne
      refine hsusp ?_
      rw [WaitQueue.suspended, decide_eq_true_iff]
      exact ⟨hne, List.append_ne_nil_of_right_ne_nil _ (List.cons_ne_nil _ _)⟩
    rw [Cp.cqMode_start]
    exact ⟨fun _ => hrunning, fun htrue => nomatch htrue⟩

theorem resume (w : World) {now : Nat} (slot : Nat) (hclock : clock < 2 ^ 64) (hnow : now ≤ clock)
    (hle : q.suspendedAt ≤ now) (h : CqInv c clock .parked q) :
    CqInv c clock ((q.resume c w now slot).2.cqMode slot) (q.resume c w now slot).1 := by
  unfold WaitQueue.resume
  split
  · exact h
  · rename_i sub rest hpending
    split
    · exact h
    · rename_i hsusp
      rw [not_or, Bool.not_eq_false, WaitQueue.suspended, decide_eq_true_iff] at hsusp
      have hstopped := h.place hsusp.1.1
      dsimp only
      split
      · exact h
      · rename_i hgo
        split
        · rw [Cp.cqMode_start]
          exact ⟨h.drains, h.full, Nat.zero_le _, h.before, fun _ => rfl, fun htrue => nomatch htrue⟩
        · rename_i hready
          rw [Cp.cqMode_start]
          refine ⟨h.drains, h.full, h.le, h.before, fun hfalse => (nomatch hfalse), fun _ => ⟨hstopped, ?_⟩⟩
          have htimedOut : q.timedOut now kComputeWaitLimit = true := by
            by_contra hnot
            exact hgo ⟨Bool.eq_false_iff.2 hready, Bool.eq_false_iff.2 hnot⟩
          rw [WaitQueue.timedOut, decide_eq_true_iff, sub64_eq hle (Nat.lt_of_le_of_lt hnow hclock)] at htimedOut
          exact Nat.lt_of_lt_of_le htimedOut.2 (Nat.sub_le_sub_right hnow q.suspendedAt)

theorem start {slot : Nat} {force : Bool} {ret : Option Nat} (hclock : 0 < clock)
    (h : CqInv c clock ((Cp.cqStart slot force ret).cqMode slot) q) :
    CqInv c clock ((Cp.cqLoop slot clock force ret).cqMode slot) q := by
  rw [Cp.cqMode_start] at h
  rw [Cp.cqMode_loop]
  exact ⟨h.drains, h.full, h.le, h.before, hclock, Nat.le_refl _, h.place⟩

theorem loop {slot now : Nat} {force : Bool} {ret : Option Nat}
    (h : CqInv c clock ((Cp.cqLoop slot now force ret).cqMode slot) q) :
    CqInv c clock ((q.loop slot now force ret).2.cqMode slot) (q.loop slot now force ret).1 := by
  rw [Cp.cqMode_loop] at h
  obtain ⟨hnow, hbefore, hrunning, hforced⟩ := h.place
  unfold WaitQueue.loop
  split
  · rename_i hempty
    rw [Cp.cqMode_back]
    refine ⟨h.drains, h.full, h.le, h.before, fun hne => ?_⟩
    cases force with
    | false => exact absurd (hrunning rfl) hne
    | true => exact (hforced rfl).1
  · split
    · rename_i hskip
      obtain ⟨hstopped, hlimit⟩ := hforced hskip.1
      rw [Cp.cqMode_walk]
      exact ⟨h.drains, h.full, Nat.zero_le _, h.before, hnow, hbefore, rfl,
        fun _ => ⟨q.suspendedAt, hstopped, hlimit⟩⟩
    · rename_i hskip
      have hzero : q.suspendedAt = 0 := by
        cases force with
        | false => exact hrunning rfl
        | true =>
            by_contra hne
            exact hskip ⟨rfl, hne⟩
      rw [Cp.cqMode_walk]
      exact ⟨h.drains, h.full, h.le, h.before, hnow, hbefore, hzero, fun htrue => nomatch htrue⟩

theorem walk (w : World) {slot now : Nat} {skip : Bool} {ret : Option Nat}
    (h : CqInv c clock ((Cp.cqWalk slot now skip ret).cqMode slot) q)
    (hok : ∀ sub ∈ q.pending.take 1, skip = false → (computeWait c sub).isSome = true →
      waitRegMemReady c w .compute sub.front = false →
        clock = now ∧ w.flipLabel (waitPollAddress c sub.front) = false) :
    CqInv c clock ((q.walk c w clock slot now skip ret).2.cqMode slot)
      (q.walk c w clock slot now skip ret).1 := by
  rw [Cp.cqMode_walk] at h
  obtain ⟨hnow, hbefore, hrunning, hskipped⟩ := h.place
  have hd := h.drains
  cases skip with
  | true =>
      -- the span is at the wait that has timed out
      obtain ⟨t, ⟨sub, rest, p, sub', t₀, hpending, hwait, hsince, hle⟩, hlimit⟩ := hskipped rfl
      obtain ⟨f, fs, hsub, hat, hp, -⟩ := computeWait_eq_some hwait
      have hisWait : p.isWait c = true := by
        rw [hp]
        exact isWait_of_atWait hat
      unfold WaitQueue.walk
      rw [hpending] at hd ⊢
      dsimp only
      rw [computeNext_skip w hwait]
      dsimp only
      rw [if_pos ⟨rfl, hisWait⟩, Cp.cqMode_walk]
      refine ⟨.skipped clock hd hwait, ⟨⟨t₀, false, hsince, ?_⟩, h.full⟩, h.le, stopsBefore_skipped _ _ _ _,
        hnow, hbefore, hrunning, fun htrue => nomatch htrue⟩
      rw [if_neg Bool.false_ne_true]
      exact Nat.lt_of_lt_of_le hlimit (Nat.sub_le_sub_left hle clock)
  | false =>
      unfold WaitQueue.walk
      split
      · rw [Cp.cqMode_back]
        exact ⟨h.drains, h.full, h.le, h.before, fun hne => absurd hrunning hne⟩
      · rename_i sub rest hpending
        rw [hpending] at hd hok
        split
        · rename_i hnext
          rw [Cp.cqMode_loop]
          exact ⟨.done hd hnext, h.full, Nat.zero_le _, h.before, hnow, hbefore, fun _ => rfl,
            fun htrue => nomatch htrue⟩
        · rename_i sub' hnext
          rw [Cp.cqMode_walk]
          exact ⟨.quiet hd hnext, h.full, h.le, h.before, hnow, hbefore, hrunning, fun htrue => nomatch htrue⟩
        · rename_i p sub' hnext
          rw [if_neg (fun hand => nomatch hand.1), Cp.cqMode_walk]
          exact ⟨.ran hd hnext, h.full, h.le, stopsBefore_ran _ _ _ _, hnow, hbefore, hrunning,
            fun htrue => nomatch htrue⟩
        · rename_i hnext
          obtain ⟨p, sub', hwait⟩ := computeWait_of_blocked hnext
          obtain ⟨hclock, hflip⟩ := hok sub (List.mem_cons_self ..) rfl (by rw [hwait]; rfl)
            (not_ready_of_computeBlocked hnext)
          obtain ⟨f, fs, hsub, hat, hp, -⟩ := computeWait_eq_some hwait
          have hpacket : p = sub.front.packet := by
            rw [hp, hsub, ComputeSubmit.front, List.headD_cons]
          subst hpacket
          have hstopped := Drains.stopped clock false hd hnext hwait
          obtain ⟨t₀, l, hsince, hle, hl⟩ := waitedFor_stopped sub.front.packet false (h.before _)
          have hlong : l = false := Bool.eq_false_iff.2 fun htrue => nomatch hl htrue
          subst hlong
          dsimp only
          rw [hflip, if_pos hrunning, if_neg (Nat.pos_iff_ne_zero.1 hnow), Cp.cqMode_back]
          refine ⟨?_, h.full, hbefore, h.before.stopped _ _, fun _ => ?_⟩
          · show Drains _ _ _ q.pending
            rw [hpending]
            exact hstopped
          · exact ⟨sub, rest, sub.front.packet, sub', t₀, hpending, hwait, hsince, by rw [← hclock]; exact hle⟩

end CqInv

/-! ### The command processor -/

/-- The clock reading of a resumption of the compute queues, and the next queue it looks at. -/
def Cp.pumpAt : Cp → Option (Nat × Nat)
  | .pump now slot => some (now, slot)
  | .cqStart slot _ (some now) => some (now, slot + 1)
  | .cqLoop slot _ _ (some now) => some (now, slot + 1)
  | .cqWalk slot _ _ (some now) => some (now, slot + 1)
  | _ => none

/-- The queues that a resumption has still to look at are suspended since before its clock reading. -/
def PumpInv (clock : Nat) (cq : Nat → WaitQueue) (cp : Cp) : Prop :=
  ∀ now slot, cp.pumpAt = some (now, slot) → now ≤ clock ∧ ∀ k, slot ≤ k → (cq k).suspendedAt ≤ now

structure Inv (c : Commands) (s : State) : Prop where
  started : 0 < s.clock
  bound : s.clock < 2 ^ 64
  gfx : GfxInv c s.clock s.cp.gfxMode s.gfx
  cq : ∀ slot, CqInv c s.clock (s.cp.cqMode slot) (s.cq slot)
  pump : PumpInv s.clock s.cq s.cp

/-- Not between two packets of a graphics queue. -/
def Cp.isGfx : Cp → Bool
  | .gfxReady _ | .gfxLoop _ | .gfxWalk _ | .idle => true
  | _ => false

def Cp.isCq : Cp → Bool
  | .gfxReady _ | .gfxLoop _ | .gfxWalk _ => false
  | _ => true

theorem Cp.cqMode_of_isGfx {cp : Cp} (h : cp.isGfx = true) (slot : Nat) : cp.cqMode slot = .parked := by
  cases cp <;> first | rfl | cases h

theorem Cp.pumpAt_of_isGfx {cp : Cp} (h : cp.isGfx = true) : cp.pumpAt = none := by
  cases cp <;> first | rfl | cases h

theorem Cp.gfxMode_of_isCq {cp : Cp} (h : cp.isCq = true) : cp.gfxMode = .parked := by
  cases cp <;> first | rfl | cases h

/-- The places in the calls of a compute queue with the same return. -/
def Cp.ofSlot (slot : Nat) (ret : Option Nat) : Cp → Prop
  | .cqStart k _ r => k = slot ∧ r = ret
  | .cqLoop k _ _ r => k = slot ∧ r = ret
  | .cqWalk k _ _ r => k = slot ∧ r = ret
  | cp => cp = .back slot ret

theorem Cp.ofSlot_back (slot : Nat) (ret : Option Nat) : (Cp.back slot ret).ofSlot slot ret := by
  cases ret <;> rfl

theorem Cp.isCq_of_ofSlot {cp : Cp} {slot : Nat} {ret : Option Nat} (h : cp.ofSlot slot ret) :
    cp.isCq = true := by
  cases cp <;> first | rfl | (cases ret <;> cases h)

theorem Cp.cqMode_of_ofSlot {cp : Cp} {slot : Nat} {ret : Option Nat} (h : cp.ofSlot slot ret) {k : Nat}
    (hk : k ≠ slot) : cp.cqMode k = .parked := by
  cases cp with
  | cqStart j _ _ => exact if_neg fun hj => hk (hj.symm.trans h.1)
  | cqLoop j _ _ _ => exact if_neg fun hj => hk (hj.symm.trans h.1)
  | cqWalk j _ _ _ => exact if_neg fun hj => hk (hj.symm.trans h.1)
  | idle => rfl
  | gfxReady _ => rfl
  | gfxLoop _ => rfl
  | gfxWalk _ => rfl
  | pump _ _ => rfl

theorem Cp.pumpAt_of_ofSlot {cp : Cp} {slot : Nat} {ret : Option Nat} (h : cp.ofSlot slot ret) :
    cp.pumpAt = ret.map fun now => (now, slot + 1) := by
  cases cp with
  | cqStart j _ r => obtain ⟨rfl, rfl⟩ := h; cases r <;> rfl
  | cqLoop j _ _ r => obtain ⟨rfl, rfl⟩ := h; cases r <;> rfl
  | cqWalk j _ _ r => obtain ⟨rfl, rfl⟩ := h; cases r <;> rfl
  | idle => cases ret <;> first | rfl | cases h
  | gfxReady _ => cases ret <;> cases h
  | gfxLoop _ => cases ret <;> cases h
  | gfxWalk _ => cases ret <;> cases h
  | pump _ _ => cases ret <;> first | (cases h; rfl) | cases h

theorem GfxQueue.resume_isGfx (q : GfxQueue) (clock : Nat) (ready : Bool) :
    (q.resume clock ready).2.isGfx = true := by
  unfold GfxQueue.resume
  split
  · rfl
  · split <;> rfl

theorem GfxQueue.loop_isGfx (q : GfxQueue) (c : Commands) (w : World) (clock : Nat) (force : Bool) :
    (q.loop c w clock force).2.isGfx = true := by
  unfold GfxQueue.loop
  split
  · split <;> rfl
  · split <;> rfl

theorem GfxQueue.walk_isGfx (q : GfxQueue) (c : Commands) (w : World) (clock : Nat) (force : Bool) :
    (q.walk c w clock force).2.isGfx = true := by
  unfold GfxQueue.walk
  split
  · rfl
  · rfl
  · rfl
  · dsimp only
    split <;> rfl

theorem WaitQueue.resume_ofSlot (q : WaitQueue) (c : Commands) (w : World) (now slot : Nat) :
    (q.resume c w now slot).2.ofSlot slot (some now) := by
  unfold WaitQueue.resume
  split
  · rfl
  · split
    · rfl
    · dsimp only
      split
      · rfl
      · split <;> exact ⟨rfl, rfl⟩

theorem WaitQueue.loop_ofSlot (q : WaitQueue) (slot now : Nat) (force : Bool) (ret : Option Nat) :
    (q.loop slot now force ret).2.ofSlot slot ret := by
  unfold WaitQueue.loop
  split
  · exact Cp.ofSlot_back slot ret
  · split <;> exact ⟨rfl, rfl⟩

theorem WaitQueue.walk_ofSlot (q : WaitQueue) (c : Commands) (w : World) (clock slot now : Nat) (skip : Bool)
    (ret : Option Nat) : (q.walk c w clock slot now skip ret).2.ofSlot slot ret := by
  unfold WaitQueue.walk
  split
  · exact Cp.ofSlot_back slot ret
  · split
    · exact ⟨rfl, rfl⟩
    · exact ⟨rfl, rfl⟩
    · split <;> exact ⟨rfl, rfl⟩
    · dsimp only
      split <;> exact Cp.ofSlot_back slot ret

namespace Inv

variable {c : Commands} {s : State}

theorem withGfx (h : Inv c s) {r : GfxQueue × Cp} (hcp : r.2.isGfx = true) (hold : s.cp.isGfx = true)
    (hgfx : GfxInv c s.clock r.2.gfxMode r.1) : Inv c (s.withGfx r) where
  started := h.started
  bound := h.bound
  gfx := hgfx
  cq slot := by
    have hslot := h.cq slot
    rw [Cp.cqMode_of_isGfx hold] at hslot
    show CqInv c s.clock (r.2.cqMode slot) (s.cq slot)
    rwa [Cp.cqMode_of_isGfx hcp]
  pump now slot hpump := by
    rw [show (s.withGfx r).cp.pumpAt = none from Cp.pumpAt_of_isGfx hcp] at hpump
    cases hpump

/-- A compute queue takes a step, and the call that it is in stays the same. -/
theorem withCq (h : Inv c s) {slot : Nat} (ret : Option Nat) {r : WaitQueue × Cp}
    (hcp : r.2.ofSlot slot ret) (hgfx : s.cp.gfxMode = .parked)
    (hothers : ∀ k, k ≠ slot → s.cp.cqMode k = .parked)
    (hpump : ∀ now, ret = some now → now ≤ s.clock ∧ ∀ k, slot < k → (s.cq k).suspendedAt ≤ now)
    (hcq : CqInv c s.clock (r.2.cqMode slot) r.1) : Inv c (s.withCq slot r) where
  started := h.started
  bound := h.bound
  gfx := by
    have hold := h.gfx
    rw [hgfx] at hold
    show GfxInv c s.clock r.2.gfxMode s.gfx
    rwa [Cp.gfxMode_of_isCq (Cp.isCq_of_ofSlot hcp)]
  cq k := by
    show CqInv c s.clock (r.2.cqMode k) (Function.update s.cq slot r.1 k)
    by_cases hk : k = slot
    · subst hk
      rw [Function.update_self]
      exact hcq
    · have hold := h.cq k
      rw [hothers k hk] at hold
      rw [Function.update_of_ne hk, Cp.cqMode_of_ofSlot hcp hk]
      exact hold
  pump now k hat := by
    rw [show (s.withCq slot r).cp.pumpAt = _ from Cp.pumpAt_of_ofSlot hcp] at hat
    obtain ⟨now', hret, heq⟩ := Option.map_eq_some_iff.1 hat
    cases heq
    obtain ⟨hle, hbefore⟩ := hpump now hret
    refine ⟨hle, fun j hj => ?_⟩
    show (Function.update s.cq slot r.1 j).suspendedAt ≤ now
    rw [Function.update_of_ne (by omega)]
    exact hbefore j hj

theorem pump_of_ofSlot (h : Inv c s) (slot : Nat) (ret : Option Nat) (hcp : s.cp.ofSlot slot ret) (now : Nat)
    (hret : ret = some now) : now ≤ s.clock ∧ ∀ k, slot < k → (s.cq k).suspendedAt ≤ now := by
  refine h.pump now (slot + 1) ?_
  rw [Cp.pumpAt_of_ofSlot hcp, hret]
  rfl

theorem turn (h : Inv c s) (hok : CpStopOk c s s.cp) {s' : State} (hs : s.turn c = some s') : Inv c s' := by
  have hgfx := h.gfx
  have hcq := h.cq
  have hpump := h.pump
  have hplace := h.pump_of_ofSlot
  unfold State.turn at hs
  cases hcp : s.cp with
  | idle =>
      rw [hcp] at hs
      cases hs
  | gfxReady ready =>
      rw [hcp] at hs hgfx
      cases hs
      exact h.withGfx (GfxQueue.resume_isGfx ..) (by rw [hcp]; rfl) (hgfx.resume ready h.bound)
  | gfxLoop force =>
      rw [hcp] at hs hgfx
      cases hs
      exact h.withGfx (GfxQueue.loop_isGfx ..) (by rw [hcp]; rfl) (hgfx.loop s.world force)
  | gfxWalk force =>
      rw [hcp] at hs hgfx hok
      cases hs
      exact h.withGfx (GfxQueue.walk_isGfx ..) (by rw [hcp]; rfl) (hgfx.walk s.world force hok)
  | pump now slot =>
      rw [hcp] at hs hgfx hcq hpump
      obtain ⟨hle, hbefore⟩ := hpump now slot rfl
      dsimp only at hs
      split at hs
      · cases hs
        exact ⟨h.started, h.bound, hgfx, hcq, fun _ _ hat => nomatch hat⟩
      · cases hs
        refine h.withCq (some now) (WaitQueue.resume_ofSlot ..) (by rw [hcp]; rfl) (fun k _ => by rw [hcp]; rfl) ?_
          ((hcq slot).resume s.world slot h.bound hle (hbefore slot (Nat.le_refl _)))
        intro now' hnow
        cases hnow
        exact ⟨hle, fun k hk => hbefore k (Nat.le_of_lt hk)⟩
  | cqStart slot force ret =>
      have hof : s.cp.ofSlot slot ret := by rw [hcp]; exact ⟨rfl, rfl⟩
      rw [hcp] at hs hcq
      cases hs
      have heq : { s with cp := .cqLoop slot s.clock force ret } =
          s.withCq slot (s.cq slot, .cqLoop slot s.clock force ret) := by
        rw [State.withCq, Function.update_eq_self]
      rw [heq]
      exact h.withCq ret ⟨rfl, rfl⟩ (by rw [hcp]; rfl) (fun k hk => Cp.cqMode_of_ofSlot hof hk)
        (hplace slot ret hof) ((hcq slot).start h.started)
  | cqLoop slot now force ret =>
      have hof : s.cp.ofSlot slot ret := by rw [hcp]; exact ⟨rfl, rfl⟩
      rw [hcp] at hs hcq
      cases hs
      exact h.withCq ret (WaitQueue.loop_ofSlot ..) (by rw [hcp]; rfl) (fun k hk => Cp.cqMode_of_ofSlot hof hk)
        (hplace slot ret hof) (hcq slot).loop
  | cqWalk slot now skip ret =>
      have hof : s.cp.ofSlot slot ret := by rw [hcp]; exact ⟨rfl, rfl⟩
      rw [hcp] at hs hcq hok
      cases hs
      exact h.withCq ret (WaitQueue.walk_ofSlot ..) (by rw [hcp]; rfl) (fun k hk => Cp.cqMode_of_ofSlot hof hk)
        (hplace slot ret hof) ((hcq slot).walk s.world hok)

theorem present (h : Inv c s) (hidle : s.cp = .idle) (id : Nat) : Inv c (s.present id) := by
  have hgfx := h.gfx
  rw [hidle] at hgfx
  have hd := hgfx.drains.append [GfxJob.present id]
  have hsubmitted : s.gfx.submitted.map GfxSubmit.job ++ [GfxJob.present id] =
      (s.gfx.submitted ++ [GfxSubmit.present id]).map GfxSubmit.job := by
    rw [List.map_append]
    rfl
  rw [hsubmitted] at hd
  have hrest : GfxInv c s.clock s.cp.gfxMode (s.present id).gfx := by
    rw [hidle]
    unfold State.present
    dsimp only
    split
    · refine ⟨?_, hgfx.full, hgfx.le, hgfx.before, fun hne => ⟨(hgfx.place hne).active, (hgfx.place hne).since⟩⟩
      have hrem : GfxQueue.remaining { s.gfx with
          pending := s.gfx.pending ++ [GfxSubmit.present id]
          submitted := s.gfx.submitted ++ [GfxSubmit.present id] } =
          s.gfx.remaining ++ [GfxJob.present id] := by
        simp only [GfxQueue.remaining, List.append_assoc, List.map_append]
        rfl
      rw [hrem]
      exact hd
    · rename_i hempty
      rw [not_or, Bool.not_eq_true, not_not] at hempty
      have hnone : s.gfx.remaining = [] := by
        rw [GfxInv.remaining_inactive hempty.1, hempty.2]
        rfl
      rw [hnone] at hd
      have hshown : Drains (gfxWalker c) ((s.gfx.submitted ++ [GfxSubmit.present id]).map GfxSubmit.job)
          (.ran s.world (.present id) :: s.gfx.history) [] := by
        refine .done (w := s.world) (j := .buffers {}) (.ran (w := s.world) hd rfl) ?_
        rfl
      have hrunning : s.gfx.suspendedAt = 0 := by
        by_contra hne
        have hactive := (hgfx.place hne).active
        rw [hempty.1] at hactive
        cases hactive
      refine ⟨GfxInv.drains_inactive hempty.1 ?_, hgfx.full, hgfx.le, stopsBefore_ran _ _ _ _,
        fun hne => absurd hrunning hne⟩
      rw [show List.map GfxSubmit.job s.gfx.pending = [] by rw [hempty.2]; rfl]
      exact hshown
  have hparts : (s.present id).clock = s.clock ∧ (s.present id).cp = s.cp ∧ (s.present id).cq = s.cq := by
    unfold State.present
    dsimp only
    split <;> exact ⟨rfl, rfl, rfl⟩
  obtain ⟨hclock, hcp, hcq⟩ := hparts
  refine ⟨?_, ?_, ?_, ?_, ?_⟩
  · rw [hclock]
    exact h.started
  · rw [hclock]
    exact h.bound
  · rw [hclock, hcp]
    exact hrest
  · rw [hclock, hcp, hcq]
    exact h.cq
  · rw [hclock, hcp, hcq]
    exact h.pump

theorem exec (h : Inv c s) {a : Action} (hok : StopsOk c s a) {s' : State} (hs : s.exec c a = some s') :
    Inv c s' := by
  cases a with
  | turn => exact h.turn hok hs
  | world w elapsed =>
      rw [State.exec] at hs
      split at hs
      · rename_i hbound
        cases hs
        refine ⟨Nat.lt_of_lt_of_le h.started (Nat.le_add_right _ _), hbound, h.gfx.mono (Nat.le_add_right _ _),
          fun slot => (h.cq slot).mono (Nat.le_add_right _ _), fun now slot hat => ?_⟩
        obtain ⟨hle, hbefore⟩ := h.pump now slot hat
        exact ⟨Nat.le_trans hle (Nat.le_add_right _ _), hbefore⟩
      · cases hs
  | submitGfx subs =>
      rw [State.exec] at hs
      split at hs
      · rename_i hidle
        cases hs
        have hgfx := h.gfx
        rw [hidle] at hgfx
        exact h.withGfx (r := (_, .gfxLoop false)) rfl (by rw [hidle]; rfl) (hgfx.submit subs)
      · cases hs
  | present id =>
      rw [State.exec] at hs
      split at hs
      · rename_i hidle
        cases hs
        exact h.present hidle id
      · cases hs
  | submitCompute queueSlot words dw =>
      rw [State.exec] at hs
      split at hs
      · rename_i hidle
        cases hs
        have hcq := h.cq (queueSlot % kMaxComputeQueues)
        rw [hidle] at hcq
        unfold State.submitCompute
        refine h.withCq none ?_ (by rw [hidle]; rfl) (fun k _ => by rw [hidle]; rfl)
          (fun now hnow => nomatch hnow) (hcq.submit ⟨[⟨words, dw, 0⟩]⟩ _)
        dsimp only
        split
        · rfl
        · exact ⟨rfl, rfl⟩
      · cases hs
  | resetCompute queueSlot =>
      rw [State.exec] at hs
      split at hs
      · rename_i hidle
        cases hs
        exact h.withCq none rfl (by rw [hidle]; rfl) (fun k _ => by rw [hidle]; rfl)
          (fun now hnow => nomatch hnow) (CqInv.empty c s.clock)
      · cases hs
  | resumeGfx =>
      rw [State.exec] at hs
      split at hs
      · rename_i hidle
        cases hs
        have hgfx := h.gfx
        rw [hidle.1] at hgfx
        exact h.withGfx (r := (s.gfx, .gfxReady _)) rfl (by rw [hidle.1]; rfl)
          ⟨hgfx.drains, hgfx.full, hgfx.le, hgfx.before, hidle.2.2, hgfx.place hidle.2.2⟩
      · cases hs
  | resumeCompute =>
      rw [State.exec] at hs
      split at hs
      · rename_i hidle
        cases hs
        have hgfx := h.gfx
        have hcq := h.cq
        rw [hidle] at hgfx hcq
        refine ⟨h.started, h.bound, hgfx, hcq, fun now slot hat => ?_⟩
        cases hat
        exact ⟨Nat.le_refl _, fun k _ => (hcq k).le⟩
      · cases hs

end Inv

theorem inv_init {c : Commands} {s : State} (h : s.Init) : Inv c s := by
  obtain ⟨hstarted, hbound, hcp, hgfx, hcq⟩ := h
  refine ⟨hstarted, hbound, ?_, fun slot => ?_, fun now slot hat => ?_⟩
  · rw [hcp, hgfx]
    exact ⟨.start, trivial, Nat.zero_le _, fun _ _ _ hw => (nomatch hw), fun hne => absurd rfl hne⟩
  · rw [hcp, hcq]
    exact CqInv.empty c s.clock
  · rw [hcp] at hat
    cases hat

/-- **In every run whose stops meet the condition the command queues are kept.** -/
theorem commandQueues_kept {c : Commands} (hsuspend : c.suspend = true) {s : State}
    (h : Reachable ((queueSystem c).restrict (StopsOk c)) s) :
    QueueKept c .gfx (gfxWalker c) (s.gfx.submitted.map GfxSubmit.job) s.gfx.remaining s.gfx.history ∧
      ∀ slot, QueueKept c .compute (computeWalker c) (s.cq slot).submitted (s.cq slot).pending
        (s.cq slot).history := by
  have hinv : Inv c s := by
    refine h.invariant (P := Inv c) (fun s hs => inv_init hs) ?_
    intro s a s' _ hinv hs
    exact hinv.exec hs.1 hs.2
  refine ⟨⟨hinv.gfx.drains, fun w p hmem => ?_, hinv.gfx.full⟩, fun slot => ?_⟩
  · exact hinv.gfx.drains.ran_of_mem (gfxWalker_ran_met hsuspend) hmem
  · have hcq := hinv.cq slot
    exact ⟨hcq.drains, fun w p hmem => hcq.drains.ran_of_mem (computeWalker_ran_met hsuspend) hmem, hcq.full⟩

/-- A command buffer of two waits, each for the value 1: at `0x1000`, then at `0x2000`. -/
def twoWaits : Commands where
  word k := [0xC0053C00, 0x13, 0x1000, 0, 1, 0xffffffff, 10,
    0xC0053C00, 0x13, 0x2000, 0, 1, 0xffffffff, 10].getD k 0
  mapped _ _ := true
  suspend := true

/-- It is run on the graphics queue and on a compute queue; both first waits time out. -/
def timeOutRun : List Action :=
  [.submitGfx [.buffers (some (0, 14)) none], .turn, .turn, .turn, .submitCompute 3 0 14, .turn, .turn, .turn,
    .world {} 50000001, .resumeGfx, .turn, .turn, .turn, .resumeCompute, .turn, .turn, .turn, .turn, .turn, .turn,
    .turn]

theorem commandQueues_kept_timeOutRun : ∃ s : State,
    (s.gfx.cur.frames = [⟨0, 14, 7⟩] ∧ (s.cq 3).pending = [⟨[⟨0, 14, 7⟩]⟩] ∧ s.gfx.suspendedAt = 50000002) ∧
      QueueKept twoWaits .gfx (gfxWalker twoWaits) (s.gfx.submitted.map GfxSubmit.job) s.gfx.remaining
        s.gfx.history ∧
      ∀ slot, QueueKept twoWaits .compute (computeWalker twoWaits) (s.cq slot).submitted (s.cq slot).pending
        (s.cq slot).history := by
  have hlast : (execAll (guarded (StopsOk twoWaits) (State.exec twoWaits)) { world := {}, clock := 1 }
      timeOutRun).map (fun s => (s.gfx.cur.frames, (s.cq 3).pending, s.gfx.suspendedAt)) =
      some ([⟨0, 14, 7⟩], [⟨[⟨0, 14, 7⟩]⟩], 50000002) := by decide +kernel
  obtain ⟨s, hs, hview⟩ := Option.map_eq_some_iff.1 hlast
  obtain ⟨hframes, hrest⟩ := Prod.mk.inj hview
  obtain ⟨hpending, hsince⟩ := Prod.mk.inj hrest
  have hinit : State.Init { world := {}, clock := 1 } :=
    ⟨Nat.one_pos, by decide, rfl, rfl, rfl⟩
  have hreach : Reachable ((queueSystem twoWaits).restrict (StopsOk twoWaits)) s :=
    Reachable.guarded (fun _ _ _ hstep => hstep) timeOutRun (.init hinit) hs
  exact ⟨s, ⟨hframes, hpending, hsince⟩, commandQueues_kept rfl hreach⟩

/-- The first wait is met, and a new submission finds it so; the second is looked at 20 ms later. -/
def inheritRun : List Action :=
  [.submitGfx [.buffers (some (0, 14)) none], .turn, .turn, .turn,
    .world { memory := fun addr => some (if addr = 0x1000 then 1 else 0) } 40000000,
    .submitGfx [], .turn, .turn, .turn,
    .world { memory := fun addr => some (if addr = 0x1000 then 1 else 0) } 20000000, .resumeGfx, .turn, .turn]

/-- The times in a history. -/
def eventTime : Event World Packet → Option (Bool × Nat × Packet)
  | .ran _ _ => none
  | .stopped t _ p => some (false, t, p)
  | .skipped t p => some (true, t, p)

/-- **A wait inherits the clock of the one before it**, and times out after 20 ms. -/
theorem second_wait_inherits_clock : ∃ s, Reachable (queueSystem twoWaits) s ∧
    ¬FullWaits kGfxWaitLimit kFlipWaitLimit s.gfx.history := by
  have hlast : (execAll (State.exec twoWaits) { world := {}, clock := 1 } inheritRun).map
      (fun s => s.gfx.history.map eventTime) =
      some [some (true, 60000001, .de 7), some (false, 40000001, .de 7), none, some (false, 1, .de 0)] := by
    decide +kernel
  obtain ⟨s, hs, hview⟩ := Option.map_eq_some_iff.1 hlast
  have hinit : State.Init { world := {}, clock := 1 } :=
    ⟨Nat.one_pos, by decide, rfl, rfl, rfl⟩
  refine ⟨s, Reachable.execAll (fun _ _ _ hstep => hstep) inheritRun (.init hinit) hs, fun hfull => ?_⟩
  obtain ⟨skipped, rest₁, hhistory, hskipped, hrest₁⟩ := List.map_eq_cons_iff.1 hview
  obtain ⟨stopped, rest₂, rfl, hstopped, hrest₂⟩ := List.map_eq_cons_iff.1 hrest₁
  obtain ⟨ran, rest₃, rfl, hran, -⟩ := List.map_eq_cons_iff.1 hrest₂
  rw [hhistory] at hfull
  cases skipped with
  | ran _ _ => cases hskipped
  | stopped _ _ _ => cases hskipped
  | skipped t p =>
      cases hskipped
      cases stopped with
      | ran _ _ => cases hstopped
      | skipped _ _ => cases hstopped
      | stopped t' l p' =>
          cases hstopped
          cases ran with
          | stopped _ _ _ => cases hran
          | skipped _ _ => cases hran
          | ran w p =>
              obtain ⟨⟨t₀, long, hsince, hlimit⟩, -⟩ := hfull
              rw [waitedFor_first (waitedFor_ran _ _ _)] at hsince
              cases hsince
              revert hlimit
              cases l <;> decide

end PS4Recomp.Gnm.CommandQueues
