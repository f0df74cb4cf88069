import PS4Recomp.Library.Transition

/-!
# Objects in reused slots, and threads blocked on them

A table of slots holds one object after the other.  A thread that blocks remembers the slot, and looks
at the slot's record again when it wakes.

* `Slots` — the records, which object of its slot each is, and who is blocked on what;
  `Slots.Gone` — the object of a blocked thread was deleted;
* `Slots.Inv` — every blocked thread's object is still the one in its slot, and where that is deleted the
  record says so and the thread was woken; one lemma for each operation that keeps it;
* `TableKind` — what one kind of object does in its calls; `exec`, `TableKind.system` — the calls of any
  threads on a table of them, each access under a lock a step of its own;
* `TableKind.Drained` — a new object takes a slot only when nobody is blocked there;
* `TableKind.inv_reachable`, `TableKind.honest_reachable` — in runs of such steps the threads blocked on a
  deleted object return errors.
-/

namespace PS4Recomp.Library

open Transition

/-! ### slots -/

/-- A blocked thread: its slot, which object of the slot, what it waits for, and whether a wake-up has
reached it. -/
structure Blocked (W : Type*) where
  slot : ℕ
  object : ℕ
  request : W
  woken : Bool := false
  deriving DecidableEq

/-- The records of the slots.  `object` counts the objects of a slot and `deleted` marks its last one;
no code reads them. -/
structure Slots (O W T : Type*) where
  record : ℕ → O
  object : ℕ → ℕ := fun _ => 0
  deleted : ℕ → Bool := fun _ => false
  blocked : T → Option (Blocked W) := fun _ => none

namespace Slots

variable {O W T : Type*}

/-- The object the thread blocked on is deleted. -/
def Gone (s : Slots O W T) (b : Blocked W) : Prop :=
  b.object ≠ s.object b.slot ∨ s.deleted b.slot = true

/-- Nobody is blocked on an object of the slot. -/
def Drained (s : Slots O W T) (slot : ℕ) : Prop := ∀ t, ∀ b ∈ s.blocked t, b.slot ≠ slot

instance [Fintype T] (s : Slots O W T) (slot : ℕ) : Decidable (s.Drained slot) :=
  inferInstanceAs (Decidable (∀ t, ∀ b ∈ s.blocked t, b.slot ≠ slot))

/-- A record changed. -/
def write (s : Slots O W T) (slot : ℕ) (o : O) : Slots O W T :=
  { s with record := Function.update s.record slot o }

/-- A new object. -/
def create (s : Slots O W T) (slot : ℕ) (o : O) : Slots O W T :=
  { s with
    record := Function.update s.record slot o
    object := Function.update s.object slot (s.object slot + 1)
    deleted := Function.update s.deleted slot false }

/-- The object is deleted, and everybody blocked in the slot is woken. -/
def kill (s : Slots O W T) (slot : ℕ) (o : O) : Slots O W T :=
  { s with
    record := Function.update s.record slot o
    deleted := Function.update s.deleted slot true
    blocked := fun t => (s.blocked t).map fun b => if b.slot = slot then { b with woken := true } else b }

section Threads

variable [DecidableEq T]

/-- A thread blocks, or sleeps again. -/
def sleep (s : Slots O W T) (t : T) (b : Blocked W) : Slots O W T :=
  { s with blocked := Function.update s.blocked t (some b) }

/-- A wake-up reaches a thread. -/
def wake (s : Slots O W T) (t : T) : Slots O W T :=
  { s with
    blocked := Function.update s.blocked t ((s.blocked t).map fun b => { b with woken := true }) }

/-- A thread is blocked no more. -/
def leave (s : Slots O W T) (t : T) : Slots O W T :=
  { s with blocked := Function.update s.blocked t none }

end Threads

/-- A blocked thread's object is the one in its slot; a deleted object's record is not `alive`, and its
blocked threads are woken. -/
structure Inv (alive : O → Bool) (s : Slots O W T) : Prop where
  dead : ∀ i, s.deleted i = true → alive (s.record i) = false
  own : ∀ t b, s.blocked t = some b → b.object = s.object b.slot
  woken : ∀ t b, s.blocked t = some b → s.deleted b.slot = true → b.woken = true

variable {alive : O → Bool} {s : Slots O W T}

/-- The object of a blocked thread was deleted: the thread is woken, and the record says so. -/
theorem Inv.gone (h : Inv alive s) {t : T} {b : Blocked W} (hb : s.blocked t = some b)
    (hg : s.Gone b) : b.woken = true ∧ alive (s.record b.slot) = false := by
  rcases hg with hne | hdel
  · exact absurd (h.own t b hb) hne
  · exact ⟨h.woken t b hb hdel, h.dead b.slot hdel⟩

theorem Inv.write (h : Inv alive s) {i : ℕ} {o : O} (ho : alive (s.record i) = false → alive o = false) :
    Inv alive (s.write i o) := by
  refine ⟨fun j hj => ?_, h.own, h.woken⟩
  show alive (Function.update s.record i o j) = false
  by_cases hji : j = i
  · rw [hji, Function.update_self]
    exact ho (h.dead i (by rw [← hji]; exact hj))
  · rw [Function.update_of_ne hji]
    exact h.dead j hj

theorem Inv.create (h : Inv alive s) {i : ℕ} {o : O} (hd : s.Drained i) : Inv alive (s.create i o) := by
  refine ⟨fun j hj => ?_, fun t b hb => ?_, fun t b hb hdel => ?_⟩
  · have hj' : Function.update s.deleted i false j = true := hj
    show alive (Function.update s.record i o j) = false
    by_cases hji : j = i
    · rw [hji, Function.update_self] at hj'
      cases hj'
    · rw [Function.update_of_ne hji] at hj' ⊢
      exact h.dead j hj'
  · show b.object = Function.update s.object i _ b.slot
    rw [Function.update_of_ne (hd t b hb)]
    exact h.own t b hb
  · have hdel' : Function.update s.deleted i false b.slot = true := hdel
    rw [Function.update_of_ne (hd t b hb)] at hdel'
    exact h.woken t b hb hdel'

theorem Inv.kill (h : Inv alive s) {i : ℕ} {o : O} (ho : alive o = false) : Inv alive (s.kill i o) := by
  have hblocked : ∀ t b, (s.kill i o).blocked t = some b → ∃ b', s.blocked t = some b' ∧
      b = if b'.slot = i then { b' with woken := true } else b' := by
    intro t b hb
    obtain ⟨b', hb', heq⟩ := Option.map_eq_some_iff.1 hb
    exact ⟨b', hb', heq.symm⟩
  refine ⟨fun j hj => ?_, fun t b hb => ?_, fun t b hb hdel => ?_⟩
  · have hj' : Function.update s.deleted i true j = true := hj
    show alive (Function.update s.record i o j) = false
    by_cases hji : j = i
    · rw [hji, Function.update_self]
      exact ho
    · rw [Function.update_of_ne hji] at hj' ⊢
      exact h.dead j hj'
  · obtain ⟨b', hb', rfl⟩ := hblocked t b hb
    split
    · exact h.own t b' hb'
    · exact h.own t b' hb'
  · obtain ⟨b', hb', rfl⟩ := hblocked t b hb
    split
    · rfl
    · rename_i hslot
      rw [if_neg hslot] at hdel
      have hdel' : Function.update s.deleted i true b'.slot = true := hdel
      rw [Function.update_of_ne hslot] at hdel'
      exact h.woken t b' hb' hdel'

section Threads

variable [DecidableEq T] {t : T}

/-- A thread goes to sleep on the object in its slot, which lives. -/
theorem Inv.sleep (h : Inv alive s) {b : Blocked W} (hown : b.object = s.object b.slot)
    (halive : alive (s.record b.slot) = true) : Inv alive (s.sleep t b) := by
  refine ⟨h.dead, fun u b' hu => ?_, fun u b' hu hdel => ?_⟩
  · have hu' : Function.update s.blocked t (some b) u = some b' := hu
    by_cases hut : u = t
    · rw [hut, Function.update_self] at hu'
      cases hu'
      exact hown
    · rw [Function.update_of_ne hut] at hu'
      exact h.own u b' hu'
  · have hu' : Function.update s.blocked t (some b) u = some b' := hu
    by_cases hut : u = t
    · rw [hut, Function.update_self] at hu'
      cases hu'
      rw [h.dead b.slot hdel] at halive
      cases halive
    · rw [Function.update_of_ne hut] at hu'
      exact h.woken u b' hu' hdel

theorem Inv.wake (h : Inv alive s) : Inv alive (s.wake t) := by
  have hblocked : ∀ u b, (s.wake t).blocked u = some b → ∃ b', s.blocked u = some b' ∧
      b.object = b'.object ∧ b.slot = b'.slot ∧ (b'.woken = true → b.woken = true) := by
    intro u b hb
    have hb' : Function.update s.blocked t _ u = some b := hb
    by_cases hut : u = t
    · rw [hut, Function.update_self] at hb'
      obtain ⟨b', hs, rfl⟩ := Option.map_eq_some_iff.1 hb'
      exact ⟨b', by rw [hut]; exact hs, rfl, rfl, fun _ => rfl⟩
    · rw [Function.update_of_ne hut] at hb'
      exact ⟨b, hb', rfl, rfl, id⟩
  refine ⟨h.dead, fun u b hb => ?_, fun u b hb hdel => ?_⟩
  · obtain ⟨b', hb', hobj, hslot, -⟩ := hblocked u b hb
    rw [hobj, hslot]
    exact h.own u b' hb'
  · obtain ⟨b', hb', -, hslot, hwoken⟩ := hblocked u b hb
    rw [hslot] at hdel
    exact hwoken (h.woken u b' hb' hdel)

theorem Inv.leave (h : Inv alive s) : Inv alive (s.leave t) := by
  have hblocked : ∀ u b, (s.leave t).blocked u = some b → s.blocked u = some b := by
    intro u b hb
    have hb' : Function.update s.blocked t none u = some b := hb
    by_cases hut : u = t
    · rw [hut, Function.update_self] at hb'
      cases hb'
    · rw [Function.update_of_ne hut] at hb'
      exact hb'
  exact ⟨h.dead, fun u b hb => h.own u b (hblocked u b hb),
    fun u b hb => h.woken u b (hblocked u b hb)⟩

end Threads

end Slots

/-! ### tables -/

/-- What a kind of object does: `used` and `alive` are what the calls and the blocked threads look at,
`claim` and `init` make an object, `kill` and `release` end it, `enter` is the section of a call and
`resume` that of a thread that wakes; both may send the thread to sleep. -/
structure TableKind (O A Op W R : Type*) where
  size : ℕ
  empty : O
  used : O → Bool
  alive : O → Bool
  claim : O → O
  init : O → A → O
  kill : O → O
  release : O → O
  enter : O → Op → Option R × O
  resume : O → W → Bool → Option R × O
  sleeper : Op → Option W
  timed : W → Bool
  /-- The answers of the calls that stop before the object. -/
  createRefused : A → Option R
  opRefused : Op → Option R
  full : R
  missing : R
  done : R
  alive_claim : ∀ o, alive (claim o) = alive o
  alive_kill : ∀ o, alive (kill o) = false
  alive_release : ∀ o, alive (release o) = alive o
  alive_enter : ∀ o op, alive (enter o op).2 = alive o
  alive_resume : ∀ o w timedOut, alive (resume o w timedOut).2 = alive o
  enter_sleeps : ∀ o op, (enter o op).1 = none → alive o = true
  resume_sleeps : ∀ o w timedOut, (resume o w timedOut).1 = none → alive o = true

/-- Where a thread is inside a call. -/
inductive TablePlace (A Op : Type*) where
  | out
  | creating (slot : ℕ) (args : A) | opening (slot : ℕ) (op : Op)
  | deleting (slot : ℕ) | killed (slot : ℕ)
  deriving DecidableEq

/-- The slots, the places of the threads, and what the last step returned. -/
structure TableState (O A Op W R T : Type*) where
  slots : Slots O W T
  place : T → TablePlace A Op := fun _ => .out
  ret : Option R := none

/-- The steps.  `wake` is a signal, a broadcast or a wake-up without cause. -/
inductive TableAct (T A Op : Type*) where
  | create (t : T) (slot : Option ℕ) (args : A) | init (t : T)
  | call (t : T) (id : ℤ) (op : Op) | enter (t : T)
  | delete (t : T) (id : ℤ) | kill (t : T) | free (t : T)
  | wake (t : T) | resume (t : T) (timedOut : Bool)

namespace TableState

variable {O A Op W R T : Type*} [DecidableEq T]

/-- A thread moved. -/
def goto (s : TableState O A Op W R T) (t : T) (p : TablePlace A Op) : TableState O A Op W R T :=
  { s with place := Function.update s.place t p }

/-- A thread returned from its call. -/
def reply (s : TableState O A Op W R T) (t : T) (r : R) : TableState O A Op W R T :=
  { s.goto t .out with ret := some r }

end TableState

namespace TableKind

variable {O A Op W R T : Type*} (K : TableKind O A Op W R)

/-- The slot of an id whose object is in use and alive. -/
def get (s : Slots O W T) (id : ℤ) : Option ℕ :=
  if id ≤ 0 ∨ (K.size : ℤ) ≤ id then none
  else if K.used (s.record id.toNat) && K.alive (s.record id.toNat) then some id.toNat
  else none

/-- The first slot not in use, or none; slot 0 is never used. -/
def IsFirstFree (s : Slots O W T) : Option ℕ → Prop
  | some i => 0 < i ∧ i < K.size ∧ K.used (s.record i) = false ∧
      ∀ j < i, 0 < j → K.used (s.record j) = true
  | none => ∀ j < K.size, 0 < j → K.used (s.record j) = true

instance (s : Slots O W T) : ∀ slot, Decidable (K.IsFirstFree s slot)
  | some _ => inferInstanceAs (Decidable (_ ∧ _ ∧ _ ∧ _))
  | none => inferInstanceAs (Decidable (∀ j < K.size, _))

variable [DecidableEq T]

/-- A step; `none` where it is not possible. -/
def exec (s : TableState O A Op W R T) : TableAct T A Op → Option (TableState O A Op W R T)
  | .create t slot args =>
      match s.place t, s.slots.blocked t with
      | .out, none =>
          match K.createRefused args with
          | some r => some (s.reply t r)
          | none =>
              if K.IsFirstFree s.slots slot then
                match slot with
                | some i =>
                    some { s.goto t (.creating i args) with
                      slots := s.slots.write i (K.claim (s.slots.record i)) }
                | none => some (s.reply t K.full)
              else none
      | _, _ => none
  | .init t =>
      match s.place t with
      | .creating i args =>
          some { s.reply t K.done with
            slots := s.slots.create i (K.init (s.slots.record i) args) }
      | _ => none
  | .call t id op =>
      match s.place t, s.slots.blocked t with
      | .out, none =>
          match K.opRefused op with
          | some r => some (s.reply t r)
          | none =>
              match K.get s.slots id with
              | some i => some (s.goto t (.opening i op))
              | none => some (s.reply t K.missing)
      | _, _ => none
  | .enter t =>
      match s.place t with
      | .opening i op =>
          let (r, o) := K.enter (s.slots.record i) op
          match r, K.sleeper op with
          | some r, _ => some { s.reply t r with slots := s.slots.write i o }
          | none, some w =>
              some { s.goto t .out with
                slots := (s.slots.write i o).sleep t ⟨i, s.slots.object i, w, false⟩, ret := none }
          | none, none => none
      | _ => none
  | .delete t id =>
      match s.place t, s.slots.blocked t with
      | .out, none =>
          match K.get s.slots id with
          | some i => some (s.goto t (.deleting i))
          | none => some (s.reply t K.missing)
      | _, _ => none
  | .kill t =>
      match s.place t with
      | .deleting i =>
          some { s.goto t (.killed i) with slots := s.slots.kill i (K.kill (s.slots.record i)) }
      | _ => none
  | .free t =>
      match s.place t with
      | .killed i =>
          some { s.reply t K.done with
            slots := s.slots.write i (K.release (s.slots.record i)) }
      | _ => none
  | .wake t => some { s with slots := s.slots.wake t }
  | .resume t timedOut =>
      match s.slots.blocked t with
      | some b =>
          -- a thread runs again after a wake-up or after its time
          if b.woken || (timedOut && K.timed b.request) then
            let (r, o) := K.resume (s.slots.record b.slot) b.request timedOut
            match r with
            | some r => some { s.reply t r with slots := (s.slots.write b.slot o).leave t }
            | none =>
                some { s with
                  slots := (s.slots.write b.slot o).sleep t { b with woken := false }, ret := none }
          else none
      | none => none

/-- All interleavings, from a table of empty slots. -/
def system (T : Type*) [DecidableEq T] : System (TableState O A Op W R T) (TableAct T A Op) where
  init s := s = { slots := { record := fun _ => K.empty } }
  step s a s' := K.exec s a = some s'

omit [DecidableEq T] in
/-- An object is made only in a slot where nobody is blocked. -/
def Drained (s : TableState O A Op W R T) : TableAct T A Op → Prop
  | .init t =>
      match s.place t with
      | .creating i _ => s.slots.Drained i
      | _ => True
  | _ => True

instance [Fintype T] (s : TableState O A Op W R T) : ∀ a, Decidable (Drained s a)
  | .init t =>
      match h : s.place t with
      | .creating i _ => decidable_of_iff (s.slots.Drained i) (by simp only [Drained, h])
      | .out | .opening _ _ | .deleting _ | .killed _ => .isTrue (by simp only [Drained, h])
  | .create .. | .call .. | .enter _ | .delete .. | .kill _ | .free _ | .wake _ | .resume .. =>
      .isTrue trivial

variable {K} {s s' : TableState O A Op W R T}

/-- **Step.**  Where new objects take drained slots, every step keeps the invariant. -/
theorem inv_exec {a : TableAct T A Op} (h : s.slots.Inv K.alive) (hok : Drained s a)
    (hs : K.exec s a = some s') : s'.slots.Inv K.alive := by
  have hclaim : ∀ i, K.alive (s.slots.record i) = false →
      K.alive (K.claim (s.slots.record i)) = false := fun i hi => by rw [K.alive_claim]; exact hi
  have hrelease : ∀ i, K.alive (s.slots.record i) = false →
      K.alive (K.release (s.slots.record i)) = false := fun i hi => by rw [K.alive_release]; exact hi
  cases a with
  | create t slot args =>
      simp only [exec] at hs
      split at hs
      · split at hs
        · cases hs
          exact h
        · split at hs
          · split at hs
            · cases hs
              exact h.write (hclaim _)
            · cases hs
              exact h
          · cases hs
      · cases hs
  | init t =>
      simp only [exec] at hs
      split at hs
      · rename_i i args hplace
        cases hs
        simp only [Drained, hplace] at hok
        exact h.create hok
      · cases hs
  | call t id op =>
      simp only [exec] at hs
      split at hs
      · split at hs
        · cases hs
          exact h
        · split at hs
          · cases hs
            exact h
          · cases hs
            exact h
      · cases hs
  | enter t =>
      simp only [exec] at hs
      split at hs
      · rename_i i op hplace
        have hwrite : (s.slots.write i (K.enter (s.slots.record i) op).2).Inv K.alive :=
          h.write fun hi => by rw [K.alive_enter]; exact hi
        split at hs
        · cases hs
          exact hwrite
        · rename_i w hnone _
          cases hs
          refine hwrite.sleep rfl ?_
          show K.alive (Function.update s.slots.record i _ i) = true
          rw [Function.update_self, K.alive_enter]
          exact K.enter_sleeps _ op hnone
        · cases hs
      · cases hs
  | delete t id =>
      simp only [exec] at hs
      split at hs
      · split at hs
        · cases hs
          exact h
        · cases hs
          exact h
      · cases hs
  | kill t =>
      simp only [exec] at hs
      split at hs
      · cases hs
        exact h.kill (K.alive_kill _)
      · cases hs
  | free t =>
      simp only [exec] at hs
      split at hs
      · cases hs
        exact h.write (hrelease _)
      · cases hs
  | wake t =>
      cases hs
      exact h.wake
  | resume t timedOut =>
      simp only [exec] at hs
      split at hs
      · rename_i b hb
        have hwrite : (s.slots.write b.slot
            (K.resume (s.slots.record b.slot) b.request timedOut).2).Inv K.alive :=
          h.write fun hi => by rw [K.alive_resume]; exact hi
        split at hs
        · split at hs
          · cases hs
            exact hwrite.leave
          · rename_i hnone
            cases hs
            refine hwrite.sleep (h.own t b hb) ?_
            show K.alive (Function.update s.slots.record b.slot _ b.slot) = true
            rw [Function.update_self, K.alive_resume]
            exact K.resume_sleeps _ _ _ hnone
        · cases hs
      · cases hs

/-- **Runs.** -/
theorem inv_reachable (h : Reachable ((K.system T).restrict Drained) s) : s.slots.Inv K.alive := by
  refine Reachable.invariant (P := fun s => s.slots.Inv K.alive) (fun s hs => ?_)
    (fun s a s' _ hi (hs : Drained s a ∧ K.exec s a = some s') => inv_exec hi hs.1 hs.2) h
  rw [show s = _ from hs]
  exact ⟨fun _ hdel => (nomatch hdel), fun _ _ hb => (nomatch hb), fun _ _ hb => (nomatch hb)⟩

/-- A blocked thread whose object was deleted is woken, and returns an error when it runs; no object's
content changes. -/
def Honest (K : TableKind O A Op W R) {C : Type*} (content : O → C) (failed : R → Prop)
    (s : TableState O A Op W R T) : Prop :=
  ∀ t b, s.slots.blocked t = some b → s.slots.Gone b → b.woken = true ∧
    ∀ timedOut, ∃ s' r, K.exec s (.resume t timedOut) = some s' ∧ s'.ret = some r ∧ failed r ∧
      ∀ i, content (s'.slots.record i) = content (s.slots.record i)

/-- What an honest table answers to a thread whose object was deleted. -/
theorem Honest.failed {C : Type*} {content : O → C} {failed : R → Prop} (h : Honest K content failed s)
    {t : T} {b : Blocked W} (hb : s.slots.blocked t = some b) (hg : s.slots.Gone b) {timedOut : Bool}
    {r : R} (hr : (K.exec s (.resume t timedOut)).map (·.ret) = some (some r)) : failed r := by
  obtain ⟨s', r', hexec, hret, hfailed, -⟩ := (h t b hb hg).2 timedOut
  rw [hexec] at hr
  have heq : r' = r := Option.some.inj (hret.symm.trans (Option.some.inj hr))
  rw [← heq]
  exact hfailed

/-- In runs where new objects take drained slots nobody sees another object than the one it blocked
on. -/
theorem honest_reachable {C : Type*} {content : O → C} {failed : R → Prop}
    (hdead : ∀ o w timedOut, K.alive o = false → ∃ r o', K.resume o w timedOut = (some r, o') ∧
      failed r ∧ content o' = content o)
    (h : Reachable ((K.system T).restrict Drained) s) : Honest K content failed s := by
  intro t b hb hg
  obtain ⟨hwoken, halive⟩ := (inv_reachable h).gone hb hg
  refine ⟨hwoken, fun timedOut => ?_⟩
  obtain ⟨r, o', hresume, hfailed, hcontent⟩ := hdead _ b.request timedOut halive
  refine ⟨{ s.reply t r with slots := (s.slots.write b.slot o').leave t }, r, ?_, rfl, hfailed,
    fun i => ?_⟩
  · simp only [exec, hb, hwoken, Bool.true_or, if_true, hresume]
  · show content (Function.update s.slots.record b.slot o' i) = content (s.slots.record i)
    by_cases hi : i = b.slot
    · rw [hi, Function.update_self]
      exact hcontent
    · rw [Function.update_of_ne hi]

end TableKind

end PS4Recomp.Library
