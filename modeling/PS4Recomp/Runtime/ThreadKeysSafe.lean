import PS4Recomp.Runtime.FiberSafe
import PS4Recomp.Runtime.ThreadKeys

/-!
# Thread-specific keys: what every thread reads

The values of a thread are in the context its calls run with, and on the way between a thread and a fiber in
two or three contexts.  No other thread has any of these.

* `Holds` — the contexts that have a thread's values, `carry_holds` — a step copies them from one of these;
* `Inv` — the contexts and the callers' store agree;
* **`threadKeys_right`** — within the limits, every call answers what the callers rely on.
-/

namespace PS4Recomp.Runtime.ThreadKeys

open Library.Transition
open Runtime.Fiber (Endpoint Home)

variable {T : Type*}

/-- The thread's own context has its values again. -/
def released : Fiber.Place T → Bool
  | .enter _ _ _ _ _ | .current _ _ _ _ | .jump _ _ _ => true
  | .backCurrent _ _ | .backSuspend _ _ | .backRelease _ _ | .backJump _ _ => true
  | _ => false

/-- The fiber whose context has the values before the thread is on its stack. -/
def entered : Fiber.Place T → Option ℕ
  | .current _ h _ _ | .jump _ h _ => some h
  | _ => none

/-- The contexts that have the values of a thread. -/
inductive Holds (s : Fiber.State T) (t : T) : Endpoint T → Prop
  | stack : Holds s t (s.stack t)
  | released : released (s.place t) = true → Holds s t (.thread t)
  | entered {h : ℕ} : entered (s.place t) = some h → Holds s t (.fiber h)

section Holders

variable {s s' : Fiber.State T} {home : ℕ → Home T} {t u : T} {e : Endpoint T}

theorem Holds.thread_eq (hinv : Fiber.Inv home s) (h : Holds s u (.thread t)) : u = t := by
  generalize he : Endpoint.thread t = e at h
  cases h with
  | stack => exact ((hinv.grounds u).own t he.symm).symm
  | released _ => exact (Endpoint.thread.inj he).symm
  | entered _ => cases he

/-- A fiber whose context has the values of a thread belongs to it. -/
theorem Holds.fiber_owned (hinv : Fiber.Inv home s) {y : ℕ} (h : Holds s u (.fiber y)) :
    ∃ a r, (s.obj a).host = some y ∧ home a = .owned u r := by
  generalize he : Endpoint.fiber y = e at h
  cases h with
  | stack => exact ⟨_, _, (hinv.grounds u).hosted y he.symm, (hinv.grounds u).home y he.symm⟩
  | released _ => cases he
  | entered hp =>
      obtain rfl := Endpoint.fiber.inj he
      have hloc := hinv.places u
      cases hplace : s.place u with
      | current a h k w | jump a h k =>
          rw [hplace] at hp hloc
          obtain rfl := Option.some.inj hp
          exact ⟨a, _, hloc.2.1, hloc.1⟩
      | _ =>
          rw [hplace] at hp
          cases hp

/-- No other thread has the values in the context of a claimed fiber. -/
theorem Holds.claimed (hinv : Fiber.Inv home s) {a y : ℕ} {r : Fiber.Role} (hclaim : home a = .owned t r)
    (hhost : (s.obj a).host = some y) (h : Holds s u (.fiber y)) : u = t := by
  obtain ⟨b, q, hb, howned⟩ := h.fiber_owned hinv
  have hab : a = b := by rw [← hinv.objs.hostAddr a y hhost, hinv.objs.hostAddr b y hb]
  rw [← hab, hclaim] at howned
  exact (Home.owned.inj howned).1.symm

theorem Holds.not_next (hinv : Fiber.Inv home s) : ¬Holds s u (.fiber s.nextHost) := by
  intro h
  obtain ⟨a, r, ha, -⟩ := h.fiber_owned hinv
  exact absurd (hinv.objs.hostNext a _ ha) (Nat.lt_irrefl _)

/-- Two threads have their values in different contexts. -/
theorem Holds.separate (hinv : Fiber.Inv home s) (ht : Holds s t e) (hu : Holds s u e) : u = t := by
  cases e with
  | thread v => rw [ht.thread_eq hinv, hu.thread_eq hinv]
  | fiber y =>
      obtain ⟨a, r, ha, howned⟩ := ht.fiber_owned hinv
      exact hu.claimed hinv howned ha

/-- A thread that runs guest code has its values in one context. -/
theorem Holds.eq_stack (hp : s.place t = .guest) (h : Holds s t e) : e = s.stack t := by
  cases h with
  | stack => rfl
  | released hr =>
      rw [hp] at hr
      cases hr
  | entered hr =>
      rw [hp] at hr
      cases hr

/-- A move that leaves the stack and does not come closer to another. -/
theorem Holds.of_move {p q : Fiber.Place T} (h : Holds s' t e) (hp : s.place t = q) (hplace : s'.place t = p)
    (hstack : s'.stack t = s.stack t)
    (hreleased : ThreadKeys.released p = true → ThreadKeys.released q = true ∨ s.stack t = .thread t)
    (hentered : ∀ h, ThreadKeys.entered p = some h → ThreadKeys.entered q = some h) : Holds s t e := by
  cases h with
  | stack =>
      rw [hstack]
      exact .stack
  | released hr =>
      rw [hplace] at hr
      rcases hreleased hr with hq | hst
      · exact .released (hp ▸ hq)
      · exact hst ▸ .stack
  | entered hr =>
      rw [hplace] at hr
      exact .entered (hp ▸ hentered _ hr)

end Holders

section Steps

variable [DecidableEq T] {s s' : Fiber.State T} {home : ℕ → Home T} {t u : T} {e : Endpoint T}

/-- The host thread of a step. -/
def actor : Fiber.Act T → T
  | .fiberInitialize t _ _ | .run t _ _ _ _ | .switch t _ _ _ _ | .returnToThread t _ | .finalize t _
  | .next t _ => t

theorem goto_place (s : Fiber.State T) (t : T) (p : Fiber.Place T) : (s.goto t p).place t = p :=
  Function.update_self ..

theorem prepare_frame {a : ℕ} {k : Fiber.Call} {ok : Bool} (hs : Fiber.prepare s t a k ok = some s')
    (hu : u ≠ t) : s'.place u = s.place u ∧ s'.stack u = s.stack u := by
  unfold Fiber.prepare at hs
  split at hs
  · cases hs
    exact ⟨Function.update_of_ne hu .., rfl⟩
  · split at hs
    · obtain ⟨h, -, rfl⟩ := Option.map_eq_some_iff.1 hs
      unfold Fiber.State.launch
      split
      · exact ⟨Function.update_of_ne hu .., rfl⟩
      · exact ⟨Function.update_of_ne hu .., rfl⟩
    · cases hs
      exact ⟨Function.update_of_ne hu .., rfl⟩

theorem exec_frame {act : Fiber.Act T} (hs : Fiber.exec s act = some s') (hu : u ≠ actor act) :
    s'.place u = s.place u ∧ s'.stack u = s.stack u := by
  have hmove : ∀ {v : Fiber.State T} {p : Fiber.Place T}, u ≠ actor act →
      (v.goto (actor act) p).place u = v.place u := fun h => Function.update_of_ne h ..
  cases act with
  | next t ok =>
      simp only [Fiber.exec, Fiber.next] at hs
      split at hs
      case h_4 => exact prepare_frame hs hu
      all_goals
        repeat' split at hs
        all_goals try cases hs
        all_goals first
          | exact ⟨hmove hu, rfl⟩
          | exact ⟨hmove hu, Function.update_of_ne hu ..⟩
  | fiberInitialize t a c | run t a arg c d | switch t a arg c d | returnToThread t arg | finalize t a =>
      simp only [Fiber.exec] at hs
      repeat' split at hs
      all_goals cases hs
      all_goals first
        | exact ⟨rfl, rfl⟩
        | exact ⟨hmove hu, rfl⟩

/-- What a fiber that is about to leave its thread has on its stack. -/
theorem suspend_stack (hinv : Fiber.Inv home s) {a h g : ℕ} {k : Fiber.Call} (hp : s.place t = .suspend a h k)
    (hself : k.self = some g) : s.stack t = .fiber g ∧ (s.host g).worker = some t := by
  have hloc := hinv.places t
  rw [hp] at hloc
  have hst : s.stack t = .fiber g := by
    rw [hloc.2.2, Fiber.Call.endpoint, hself]
  exact ⟨hst, (hinv.grounds t).worker g hst⟩

/-- The contexts a step copies between, if any: the thread has its values in the second, and nobody else has
any in the first. -/
theorem carry_cases (hinv : Fiber.Inv home s) (keys : Endpoint T → TlsKeys) {act : Fiber.Act T}
    (hs : Fiber.exec s act = some s') :
    carry s keys act = keys ∨ ∃ e₁ e₂, carry s keys act = Function.update keys e₁ (keys e₂) ∧
      Holds s (actor act) e₂ ∧ ∀ u, Holds s u e₁ → u = actor act := by
  cases act with
  | fiberInitialize t a c | run t a arg c d | switch t a arg c d | finalize t a => exact .inl rfl
  | returnToThread t arg =>
      simp only [Fiber.exec] at hs
      split at hs
      · rename_i hp
        cases hself : s.tlFiberSelf t with
        | none =>
            left
            simp only [carry, hself]
        | some g =>
            have hst := hinv.stack_of_self hp hself
            have hw := (hinv.grounds t).worker g hst
            refine .inr ⟨.thread t, .fiber g, ?_, hst ▸ .stack, fun u hu => hu.thread_eq hinv⟩
            simp only [carry, hself, hw]
      · cases hs
  | next t ok =>
      have hloc := hinv.places t
      cases hp : s.place t with
      | suspend a h k =>
          cases hself : k.self with
          | none =>
              left
              simp only [carry, hp, hself]
          | some g =>
              obtain ⟨hst, hw⟩ := suspend_stack hinv hp hself
              refine .inr ⟨.thread t, .fiber g, ?_, hst ▸ .stack, fun u hu => hu.thread_eq hinv⟩
              simp only [carry, hp, hself, hw]
      | enter a h k w release =>
          rw [hp] at hloc
          obtain ⟨hclaim, hhost, -, rfl, -⟩ := hloc
          refine .inr ⟨.fiber h, .thread w, ?_, .released ?_, fun u hu => hu.claimed hinv hclaim hhost⟩
          · simp only [carry, hp]
          · show ThreadKeys.released (s.place w) = true
            rw [hp]
            rfl
      | initWrite a c =>
          refine .inr ⟨.fiber s.nextHost, s.stack t, ?_, .stack, fun u hu => absurd hu (Holds.not_next hinv)⟩
          simp only [carry, hp]
      | _ =>
          left
          simp only [carry, hp]

/-- A step leaves the values of the other threads where they are. -/
theorem carry_other (hinv : Fiber.Inv home s) (keys : Endpoint T → TlsKeys) {act : Fiber.Act T}
    (hs : Fiber.exec s act = some s') (hu : u ≠ actor act) (h : Holds s' u e) :
    Holds s u e ∧ carry s keys act e = keys e := by
  obtain ⟨hplace, hstack⟩ := exec_frame hs hu
  have hold : Holds s u e := by
    cases h with
    | stack => exact hstack ▸ .stack
    | released hr => exact .released (hplace ▸ hr)
    | entered hr => exact .entered (hplace ▸ hr)
  refine ⟨hold, ?_⟩
  rcases carry_cases hinv keys hs with hsame | ⟨e₁, e₂, hcopy, -, halone⟩
  · rw [hsame]
  · rw [hcopy]
    refine Function.update_of_ne (fun he => hu (halone u ?_)) ..
    exact he ▸ hold

theorem stay_holds {keys keys' : Endpoint T → TlsKeys} {p q : Fiber.Place T} (h : Holds s' t e) (hcarry : keys' = keys)
    (hp : s.place t = q) (hplace : s'.place t = p) (hstack : s'.stack t = s.stack t)
    (hreleased : released p = released q) (hentered : entered p = entered q) :
    ∃ e₀, Holds s t e₀ ∧ keys' e = keys e₀ :=
  ⟨e, h.of_move hp hplace hstack (fun hr => .inl (hreleased ▸ hr)) fun _ hy => hentered ▸ hy, by rw [hcarry]⟩

/-- A move on the same stack to a place where the values are on that stack. -/
theorem quiet_holds {keys keys' : Endpoint T → TlsKeys} {p : Fiber.Place T} (h : Holds s' t e) (hcarry : keys' = keys)
    (hplace : s'.place t = p) (hstack : s'.stack t = s.stack t) (hreleased : released p = false)
    (hentered : entered p = none) : ∃ e₀, Holds s t e₀ ∧ keys' e = keys e₀ := by
  refine ⟨e, h.of_move rfl hplace hstack (fun hr => ?_) (fun y hy => ?_), by rw [hcarry]⟩
  · rw [hreleased] at hr
    cases hr
  · rw [hentered] at hy
    cases hy

/-- `fiber_release_thread`: the thread has its values in its own context too. -/
theorem release_holds {keys : Endpoint T → TlsKeys} {g : ℕ} {p : Fiber.Place T} (h : Holds s' t e)
    (hst : s.stack t = .fiber g) (hstack : s'.stack t = s.stack t) (hplace : s'.place t = p)
    (hentered : entered p = none) :
    ∃ e₀, Holds s t e₀ ∧ Function.update keys (.thread t) (keys (.fiber g)) e = keys e₀ := by
  refine ⟨.fiber g, hst ▸ .stack, ?_⟩
  cases h with
  | stack =>
      rw [hstack, hst]
      exact Function.update_of_ne (by simp) ..
  | released _ => exact Function.update_self ..
  | entered hr =>
      rw [hplace, hentered] at hr
      cases hr

theorem prepare_holds (hinv : Fiber.Inv home s) {keys : Endpoint T → TlsKeys} {a : ℕ} {k : Fiber.Call} {ok : Bool}
    (hp : s.place t = .prepare a k) (hs : Fiber.prepare s t a k ok = some s') (h : Holds s' t e) :
    ∃ e₀, Holds s t e₀ ∧ keys e = keys e₀ := by
  have hloc := hinv.places t
  rw [hp] at hloc
  unfold Fiber.prepare at hs
  split at hs
  · cases hs
    exact quiet_holds h rfl (Function.update_self ..) rfl rfl rfl
  · split at hs
    · obtain ⟨y, -, rfl⟩ := Option.map_eq_some_iff.1 hs
      unfold Fiber.State.launch at h
      split at h
      · rename_i hself
        refine ⟨e, h.of_move hp (Function.update_self ..) rfl (fun _ => .inr ?_) (fun _ hy => ?_), rfl⟩
        · rw [hloc.2, Fiber.Call.endpoint, hself]
        · cases hy
      · exact quiet_holds h rfl (Function.update_self ..) rfl rfl rfl
    · cases hs
      exact quiet_holds h rfl (Function.update_self ..) rfl rfl rfl

/-- A step of a thread copies its values to every context where they are looked for next. -/
theorem next_holds (hinv : Fiber.Inv home s) (keys : Endpoint T → TlsKeys) {ok : Bool}
    (hs : Fiber.next s t ok = some s') (h : Holds s' t e) :
    ∃ e₀, Holds s t e₀ ∧ carry s keys (.next t ok) e = keys e₀ := by
  have hloc := hinv.places t
  cases hp : s.place t with
  | guest =>
      simp only [Fiber.next, hp] at hs
      cases hs
  | prepare a k =>
      simp only [Fiber.next, hp] at hs
      simp only [carry, hp]
      exact prepare_holds hinv hp hs h
  | suspend a y k =>
      rw [hp] at hloc
      simp only [Fiber.next, hp] at hs
      simp only [carry, hp]
      cases hself : k.self with
      | none =>
          rw [hself] at hs
          cases hs
      | some g =>
          obtain ⟨hst, hw⟩ := suspend_stack hinv hp hself
          simp only [hself, hw] at hs ⊢
          cases hs
          exact release_holds h hst rfl (Function.update_self ..) rfl
  | enter a y k w release =>
      rw [hp] at hloc
      obtain ⟨hclaim, hhost, -, rfl, -⟩ := hloc
      simp only [Fiber.next, hp] at hs
      simp only [carry, hp]
      cases hs
      have hrel : Holds s w (.thread w) := .released (by rw [hp]; rfl)
      cases h with
      | stack =>
          exact ⟨s.stack w, .stack, Function.update_of_ne (hinv.no_stack hhost (.inr ⟨w, hclaim⟩) w) ..⟩
      | released _ => exact ⟨.thread w, hrel, Function.update_of_ne (by simp) ..⟩
      | entered hr =>
          refine ⟨.thread w, hrel, ?_⟩
          rw [goto_place] at hr
          cases hr
          exact Function.update_self ..
  | current a y k w =>
      simp only [Fiber.next, hp] at hs
      simp only [carry, hp]
      cases hs
      exact stay_holds h rfl hp (goto_place ..) rfl rfl rfl
  | jump a y k =>
      -- the stack that is loaded is that of the fiber that was entered
      simp only [Fiber.next, hp] at hs
      simp only [carry, hp]
      cases hs
      cases h with
      | stack =>
          exact ⟨.fiber y, .entered (by rw [hp]; rfl), congrArg keys (Function.update_self ..)⟩
      | released hr | entered hr =>
          rw [goto_place] at hr
          cases hr
  | backJump g w =>
      rw [hp] at hloc
      obtain ⟨-, rfl, -⟩ := hloc
      simp only [Fiber.next, hp] at hs
      simp only [carry, hp]
      cases hs
      cases h with
      | stack =>
          exact ⟨.thread w, .released (by rw [hp]; rfl), congrArg keys (Function.update_self ..)⟩
      | released hr | entered hr =>
          rw [goto_place] at hr
          cases hr
  | backCurrent g w | backSuspend g w | backRelease g w =>
      simp only [Fiber.next, hp] at hs
      simp only [carry, hp]
      cases hs
      exact stay_holds h rfl hp (goto_place ..) rfl rfl rfl
  | initWrite a c =>
      simp only [Fiber.next, hp] at hs
      simp only [carry, hp]
      cases hs
      have hstay : Holds s t e := h.of_move rfl (goto_place ..) rfl (fun hr => by cases hr)
        fun _ he => by cases he
      refine ⟨e, hstay, Function.update_of_ne ?_ ..⟩
      rintro rfl
      exact Holds.not_next hinv hstay
  | valid a k | take a k | giveBack a | finish | finishIdle a | deliver | finValid a | finTake a | finFree a
  | finClear a | initIdle a =>
      simp only [Fiber.next, hp] at hs
      simp only [carry, hp]
      repeat' split at hs
      all_goals cases hs
      all_goals exact quiet_holds h rfl (goto_place ..) rfl rfl rfl

/-- **What a step copies.**  Where the values of a thread are after a step of `libSceFiber` they were copied
from where it had them before. -/
theorem carry_holds (hinv : Fiber.Inv home s) (keys : Endpoint T → TlsKeys) {act : Fiber.Act T}
    (hs : Fiber.exec s act = some s') (h : Holds s' u e) :
    ∃ e₀, Holds s u e₀ ∧ carry s keys act e = keys e₀ := by
  by_cases hu : u = actor act
  · cases act with
    | next t ok =>
        obtain rfl := hu
        exact next_holds hinv keys hs h
    | fiberInitialize t a c | run t a arg c d | switch t a arg c d | finalize t a =>
        obtain rfl := hu
        simp only [Fiber.exec] at hs
        repeat' split at hs
        all_goals cases hs
        all_goals first
          | exact ⟨e, h, rfl⟩
          | exact quiet_holds h rfl (goto_place ..) rfl rfl rfl
    | returnToThread t arg =>
        obtain rfl := hu
        simp only [Fiber.exec] at hs
        split at hs
        · rename_i hp
          cases hself : s.tlFiberSelf u with
          | none =>
              simp only [hself] at hs
              cases hs
              exact ⟨e, h, by simp only [carry, hself]⟩
          | some g =>
              have hst := hinv.stack_of_self hp hself
              have hw := (hinv.grounds u).worker g hst
              simp only [hself, hw] at hs
              cases hs
              simp only [carry, hself, hw]
              exact release_holds h hst rfl (goto_place ..) rfl
        · cases hs
  · obtain ⟨hold, hsame⟩ := carry_other hinv keys hs hu h
    exact ⟨e, hold, hsame⟩

end Steps

/-! ### the calls on keys -/

/-- The values a context has are those the callers set. -/
def Agrees (keys : TlsKeys) (value : BitVec 32 → BitVec 64) : Prop :=
  ∀ key : Fin 128, keys key = value (BitVec.ofNat 32 key)

/-- The contexts and the callers' store agree; numbers that were not handed out are not set, and a key that
exists was handed out. -/
structure Inv [DecidableEq T] (s : State T) : Prop where
  holds : ∀ t e, Holds s.fibers t e → Agrees (s.tlsKeys e) (s.store.value t)
  bounded : ∀ t (key : BitVec 32), 128 ≤ key.toNat → s.store.value t key = 0
  fresh : ∀ t (key : BitVec 32), s.nextKey.toNat ≤ key.toNat → s.store.value t key = 0
  live : ∀ key ∈ s.store.live, key.toNat < s.nextKey.toNat
  next : s.nextKey.toNat ≤ 128

section Calls

variable [DecidableEq T] {s s' : State T} {home : ℕ → Home T} {t : T}

theorem ofNat_toNat {key : BitVec 32} (h : key.toNat < 128) :
    BitVec.ofNat 32 ((⟨key.toNat, h⟩ : Fin 128) : ℕ) = key :=
  BitVec.ofNat_toNat ..

theorem Inv.fiber (h : Inv s) (hinv : Fiber.Inv home s.fibers) {act : Fiber.Act T} {fibers : Fiber.State T}
    (hs : Fiber.exec s.fibers act = some fibers) :
    Inv { s with fibers, tlsKeys := carry s.fibers s.tlsKeys act } := by
  refine ⟨fun t e he => ?_, h.bounded, h.fresh, h.live, h.next⟩
  obtain ⟨e₀, he₀, hcopy⟩ := carry_holds hinv s.tlsKeys hs he
  show Agrees (carry s.fibers s.tlsKeys act e) (s.store.value t)
  rw [hcopy]
  exact h.holds t e₀ he₀

theorem told_zero (s : State T) (store : KeyStore T) : s.told 0 store = { s with store } := if_pos rfl

theorem toNat_next (hlimit : s.nextKey.toNat < 128) : (s.nextKey + 1).toNat = s.nextKey.toNat + 1 := by
  rw [BitVec.toNat_add, Nat.mod_eq_of_lt]
  · rfl
  · show s.nextKey.toNat + 1 < 2 ^ 32
    omega

/-- The number handed out has no value yet, so that nothing has to be cleared. -/
theorem Inv.create_value (h : Inv s) (t : T) : (s.store.create s.nextKey).value t = s.store.value t := by
  funext key
  by_cases hkey : key = s.nextKey
  · subst hkey
    rw [h.fresh t _ le_rfl]
    exact Function.update_self ..
  · exact Function.update_of_ne hkey ..

theorem Inv.create (h : Inv s) (hlimit : s.nextKey.toNat < 128) (tlsDestructors : Fin 128 → BitVec 64) :
    Inv { s with nextKey := s.nextKey + 1, tlsDestructors, store := s.store.create s.nextKey } := by
  have hnext := toNat_next hlimit
  refine ⟨fun t e he => ?_, fun t key hkey => ?_, fun t key hkey => ?_, fun key hkey => ?_, ?_⟩
  · rw [h.create_value]
    exact h.holds t e he
  · rw [h.create_value]
    exact h.bounded t key hkey
  · change (s.nextKey + 1).toNat ≤ key.toNat at hkey
    rw [h.create_value]
    exact h.fresh t key (by omega)
  · show key.toNat < (s.nextKey + 1).toNat
    rcases List.mem_cons.1 hkey with rfl | hold
    · omega
    · have := h.live key hold
      omega
  · show (s.nextKey + 1).toNat ≤ 128
    omega

theorem Inv.keyCreate (h : Inv s) (hlimit : s.nextKey.toNat < 128) (destructorAddr : BitVec 64) :
    Inv ((keyCreate s destructorAddr).1.told 0 (s.store.create s.nextKey)) := by
  rw [told_zero]
  simp only [ThreadKeys.keyCreate, dif_pos hlimit]
  exact h.create hlimit _

/-- A key is deleted: its destructor is forgotten, the values stay. -/
theorem Inv.delete (h : Inv s) (key : BitVec 32) (tlsDestructors : Fin 128 → BitVec 64) :
    Inv { s with tlsDestructors, store := s.store.delete key } :=
  ⟨h.holds, h.bounded, h.fresh, fun _ hmem => h.live _ (List.mem_filter.1 hmem).1, h.next⟩

theorem Inv.keyDelete (h : Inv s) (rdi : BitVec 64) :
    Inv ((keyDelete s rdi).1.told (keyDelete s rdi).2 (s.store.delete (rdi.setWidth 32))) := by
  by_cases hkey : (rdi.setWidth 32).toNat < 128
  · simp only [ThreadKeys.keyDelete, dif_pos hkey, told_zero]
    exact h.delete _ _
  · simp only [ThreadKeys.keyDelete, dif_neg hkey, told_zero]
    exact h.delete _ s.tlsDestructors

theorem Inv.setKey (h : Inv s) (hinv : Fiber.Inv home s.fibers) (hp : s.fibers.place t = .guest) {key : BitVec 32}
    (hkey : key.toNat < 128) {v : BitVec 64} (hlimit : key.toNat < s.nextKey.toNat ∨ v = 0) :
    Inv { s.setKey (s.ctx t) ⟨key.toNat, hkey⟩ v with store := s.store.set t key v } := by
  have hvalue : ∀ u k, (s.store.set t key v).value u k = if u = t ∧ k = key then v else s.store.value u k := by
    intro u k
    by_cases hu : u = t
    · subst hu
      simp only [KeyStore.set, Function.update_self, Function.update_apply, true_and]
    · simp only [KeyStore.set, Function.update_of_ne hu, hu, false_and, if_false]
  refine ⟨fun u e he => ?_, fun u k hk => ?_, fun u k hk => ?_, h.live, h.next⟩
  · intro k
    rw [hvalue]
    by_cases hu : u = t
    · subst hu
      obtain rfl : e = s.ctx u := he.eq_stack hp
      show Function.update s.tlsKeys _ _ _ k = _
      rw [Function.update_self]
      by_cases hk : k = ⟨key.toNat, hkey⟩
      · rw [hk, Function.update_self, ofNat_toNat, if_pos ⟨rfl, rfl⟩]
      · rw [Function.update_of_ne hk, if_neg, h.holds u _ he]
        rintro ⟨-, rfl⟩
        refine hk (Fin.ext ?_)
        show (k : ℕ) = (BitVec.ofNat 32 k).toNat
        rw [BitVec.toNat_ofNat, Nat.mod_eq_of_lt (by omega)]
    · have he' : e ≠ s.ctx t := by
        rintro rfl
        exact hu (Holds.separate hinv .stack he)
      show Function.update s.tlsKeys _ _ _ k = _
      rw [Function.update_of_ne he', if_neg (fun hand => hu hand.1), h.holds u e he]
  · rw [hvalue]
    split
    · rename_i hand
      rw [hand.2] at hk
      omega
    · exact h.bounded u k hk
  · rw [hvalue]
    split
    · rename_i hand
      rcases hlimit with hlt | hzero
      · rw [hand.2] at hk
        exact absurd hk (not_le.2 hlt)
      · exact hzero
    · exact h.fresh u k hk

theorem Inv.setspecific (h : Inv s) (hinv : Fiber.Inv home s.fibers) (hp : s.fibers.place t = .guest)
    {rdi rsi : BitVec 64}
    (hlimit : (rdi.setWidth 32).toNat < s.nextKey.toNat ∨ 128 ≤ (rdi.setWidth 32).toNat ∨ rsi = 0) :
    Inv ((setspecific s t rdi rsi).1.told (setspecific s t rdi rsi).2 (s.store.set t (rdi.setWidth 32) rsi)) := by
  by_cases hkey : (rdi.setWidth 32).toNat < 128
  · simp only [ThreadKeys.setspecific, dif_pos hkey, told_zero]
    refine h.setKey hinv hp hkey ?_
    rcases hlimit with hlt | hlarge | hzero
    · exact .inl hlt
    · omega
    · exact .inr hzero
  · simp only [ThreadKeys.setspecific, dif_neg hkey, State.told, show ¬EINVAL = 0 by decide, if_false]
    exact h

/-- A thread that exits clears a value of its own, or a copy that nobody has. -/
theorem Inv.exitKey (h : Inv s) (hinv : Fiber.Inv home s.fibers) (hp : s.fibers.place t = .guest) (key : Fin 128) :
    Inv (if s.tlsKeys (.thread t) key ≠ 0 ∧ s.tlsDestructors key ≠ 0 ∧ s.ctx t = .thread t then
      { exitKey s t key with store := s.store.set t (BitVec.ofNat 32 key) 0 } else exitKey s t key) := by
  have hkey : (BitVec.ofNat 32 key).toNat < 128 := by
    rw [BitVec.toNat_ofNat, Nat.mod_eq_of_lt (by omega)]
    exact key.2
  have hfin : key = ⟨(BitVec.ofNat 32 key).toNat, hkey⟩ := by
    refine Fin.ext ?_
    show (key : ℕ) = (BitVec.ofNat 32 key).toNat
    rw [BitVec.toNat_ofNat, Nat.mod_eq_of_lt (by omega)]
  unfold ThreadKeys.exitKey
  by_cases hclear : s.tlsKeys (.thread t) key ≠ 0 ∧ s.tlsDestructors key ≠ 0
  · by_cases hst : s.ctx t = .thread t
    · rw [if_pos ⟨hclear.1, hclear.2, hst⟩, if_pos hclear]
      have hset := h.setKey hinv hp hkey (v := 0) (.inr rfl)
      rw [hst, ← hfin] at hset
      exact hset
    · rw [if_neg (fun hall => hst hall.2.2), if_pos hclear]
      refine ⟨fun u e he => ?_, h.bounded, h.fresh, h.live, h.next⟩
      have hne : e ≠ .thread t := by
        rintro rfl
        obtain rfl := Holds.thread_eq hinv he
        exact hst (Holds.eq_stack hp he).symm
      show Agrees (Function.update s.tlsKeys _ _ e) (s.store.value u)
      rw [Function.update_of_ne hne]
      exact h.holds u e he
  · rw [if_neg (fun hall => hclear ⟨hall.1, hall.2.1⟩), if_neg hclear]
    exact h

/-- Both invariants are kept by every step within the limits. -/
theorem inv_exec (h : Inv s) (hinv : Fiber.Inv home s.fibers) {act : Act T} (hok : WithinLimits s act)
    (hs : exec s act = some s') : (∃ home', Fiber.Inv home' s'.fibers) ∧ Inv s' := by
  cases act with
  | fiber act =>
      obtain ⟨fibers, hfibers, rfl⟩ := Option.map_eq_some_iff.1 hs
      exact ⟨hinv.exec hok hfibers, h.fiber hinv hfibers⟩
  | keyCreate t destructorAddr =>
      simp only [exec] at hs
      split at hs
      · cases hs
        refine ⟨⟨home, ?_⟩, h.keyCreate hok destructorAddr⟩
        simp only [keyCreate, dif_pos (show s.nextKey.toNat < 128 from hok), told_zero]
        exact hinv
      · cases hs
  | keyDelete t rdi =>
      simp only [exec] at hs
      split at hs
      · cases hs
        refine ⟨⟨home, ?_⟩, h.keyDelete rdi⟩
        by_cases hkey : (rdi.setWidth 32).toNat < 128
        · simp only [keyDelete, dif_pos hkey, told_zero]
          exact hinv
        · simp only [keyDelete, dif_neg hkey, told_zero]
          exact hinv
      · cases hs
  | setspecific t rdi rsi =>
      simp only [exec] at hs
      split at hs
      · rename_i hp
        cases hs
        refine ⟨⟨home, ?_⟩, h.setspecific hinv hp hok⟩
        by_cases hkey : (rdi.setWidth 32).toNat < 128
        · simp only [setspecific, dif_pos hkey, told_zero]
          exact hinv
        · simp only [setspecific, dif_neg hkey, State.told, show ¬EINVAL = 0 by decide, if_false]
          exact hinv
      · cases hs
  | getspecific t rdi =>
      simp only [exec] at hs
      split at hs
      · cases hs
        exact ⟨⟨home, hinv⟩, h⟩
      · cases hs
  | exitKey t key =>
      simp only [exec] at hs
      split at hs
      · rename_i hp
        have hexit := h.exitKey hinv hp key
        split at hs
        · rename_i hall
          cases hs
          rw [if_pos hall] at hexit
          refine ⟨⟨home, ?_⟩, hexit⟩
          simp only [exitKey, if_pos (And.intro hall.1 hall.2.1)]
          exact hinv
        · rename_i hall
          cases hs
          rw [if_neg hall] at hexit
          refine ⟨⟨home, ?_⟩, hexit⟩
          unfold exitKey
          split
          · exact hinv
          · exact hinv
      · cases hs

end Calls

variable [DecidableEq T]

theorem inv_reachable {s : State T} (h : Reachable ((keySystem T).restrict WithinLimits) s) :
    (∃ home, Fiber.Inv home s.fibers) ∧ Inv s := by
  refine Reachable.invariant (P := fun s => (∃ home, Fiber.Inv home s.fibers) ∧ Inv s) (fun s hs => ?_)
    (fun s act s' _ hi (hstep : WithinLimits s act ∧ exec s act = some s') => ?_) h
  · rw [show s = {} from hs]
    exact ⟨(Fiber.inv_reachable (.init rfl)).1, fun _ _ _ _ => rfl, fun _ _ _ => rfl, fun _ _ _ => rfl,
      fun _ hkey => absurd hkey List.not_mem_nil, show (1 : BitVec 32).toNat ≤ 128 by decide⟩
  · obtain ⟨⟨home, hinv⟩, hkeys⟩ := hi
    exact inv_exec hkeys hinv hstep.1 hstep.2

theorem Inv.right {s : State T} (h : Inv s) : Right s := by
  refine ⟨fun t rdi rsi _ hlive => ?_, fun t rdi hp => ?_, fun destructorAddr => ⟨rfl, fun hlive => ?_⟩⟩
  · have hlt := h.live _ hlive
    have hnext := h.next
    simp only [ThreadKeys.setspecific, dif_pos (show (rdi.setWidth 32).toNat < 128 by omega)]
  · by_cases hkey : (rdi.setWidth 32).toNat < 128
    · simp only [getspecific, dif_pos hkey]
      rw [h.holds t (s.ctx t) .stack, ofNat_toNat]
    · simp only [getspecific, dif_neg hkey]
      exact (h.bounded t _ (not_lt.1 hkey)).symm
  · exact absurd (h.live _ hlive) (Nat.lt_irrefl _)

/-- **Thread-specific keys.**  In every run in which keys are created while the counter is below the bound of
the arrays, no number is set that was not handed out, and fibers are initialized where none is in use: a key
that exists can be set on every thread, a thread reads what it set last since the key was created, whatever
fibers it ran meanwhile, and a new key is none that exists. -/
theorem threadKeys_right {s : State T} (h : Reachable ((keySystem T).restrict WithinLimits) s) : Right s :=
  (inv_reachable h).2.right

/-- A key is created and set by a thread, and a fiber that it runs reads it. -/
def fiberReadRun : List (Act Bool) :=
  [.keyCreate false 0, .setspecific false 1 7] ++
    (Fiber.initializeSteps false ++ Fiber.runSteps false 5).map .fiber

theorem threadKeys_right_fiberReadRun :
    ∃ s : State Bool, execAll (guarded WithinLimits exec) {} fiberReadRun = some s ∧
      s.ctx false = .fiber 0 ∧ getspecific s false 1 = s.store.value false 1 ∧ s.store.value false 1 = 7 := by
  obtain ⟨s, hs⟩ : ∃ s : State Bool, execAll (guarded WithinLimits exec) {} fiberReadRun = some s :=
    Option.isSome_iff_exists.1 (by decide)
  have hreach : Reachable ((keySystem Bool).restrict WithinLimits) s :=
    Reachable.guarded (fun _ _ _ hstep => hstep) fiberReadRun (.init rfl) hs
  have hlast : (execAll (guarded WithinLimits exec) ({} : State Bool) fiberReadRun).map
      (fun s => (s.ctx false, s.store.value false 1, s.fibers.place false)) = some (.fiber 0, 7, .guest) := by decide
  rw [hs] at hlast
  obtain ⟨hctx, hrest⟩ := Prod.mk.inj (Option.some.inj hlast)
  obtain ⟨hvalue, hplace⟩ := Prod.mk.inj hrest
  exact ⟨s, hs, hctx, (threadKeys_right hreach).get false 1 hplace, hvalue⟩

/-- The key that is created 128th cannot be set. -/
theorem threadKeys_exhausted :
    ∃ s : State Bool, Reachable (keySystem Bool) s ∧ ¬Right s := by
  obtain ⟨s, hs⟩ : ∃ s : State Bool, execAll exec {} (List.replicate 128 (.keyCreate false 0)) = some s :=
    Option.isSome_iff_exists.1 (by decide)
  have hreach : Reachable (keySystem Bool) s := Reachable.execAll (fun _ _ _ hstep => hstep) _ (.init rfl) hs
  have hlast : (execAll exec ({} : State Bool) (List.replicate 128 (.keyCreate false 0))).map
      (fun s => (s.fibers.place false, decide (128 ∈ s.store.live), (setspecific s false 128 1).2)) =
        some (.guest, true, EINVAL) := by decide
  rw [hs] at hlast
  obtain ⟨hplace, hrest⟩ := Prod.mk.inj (Option.some.inj hlast)
  obtain ⟨hlive, hrax⟩ := Prod.mk.inj hrest
  refine ⟨s, hreach, fun hright => ?_⟩
  have hzero := hright.set false 128 1 hplace (of_decide_eq_true hlive)
  rw [hrax] at hzero
  cases hzero

end PS4Recomp.Runtime.ThreadKeys
