import PS4Recomp.Runtime.GuestMutexInv

/-!
# Guest conditions: waiting is atomic

Runs of the threads of `GuestMutex`, at any values of the two counters.

* `Pc.depth`, `depth_next` — a thread inside `gm_cond_wait` carries the depth it read;
* `Pc.waiting` — released and not yet woken; a waiting thread that does not hold `lk` is asleep;
* **`cond_wait_atomic`** — both: the recursion levels come back, and no signal is lost between the
  release and the sleep.
-/

namespace PS4Recomp.Runtime

open Library.Transition

variable {Tid : Type*} [DecidableEq Tid] {cfg : Config} {T : Tid} {s s' : State Tid}

/-! ### the saved depth -/

/-- The depth a thread inside `gm_cond_wait` has saved and not yet restored. -/
def Pc.depth : Pc → Option (BitVec 32)
  | .cwLk _ d | .cwSetM _ d | .cwCount _ d | .cwStore _ d | .cwWaiters _ d | .cwSignal _ d
  | .cwWait _ d | .cwAsleep _ d | .cwWoken d _ | .cwAnnounce d _ | .cwCas d _ _ | .cwCvWait d _
  | .cwCvAsleep d _ | .cwCvWoken d _ | .cwTake d _ _ | .cwLeave d _ | .cwRestore d _ => some d
  | _ => none

/-- The end of `gm_cond_wait`, after the count is restored. -/
def Pc.waitDone (p : Pc) : Prop := ∃ r, p = .unlk .condWait r ∨ p = .ret .condWait r

theorem depth_wake (p : Pc) : (wake cfg p).depth = p.depth := by
  cases p <;> simp only [wake, code] <;> (try split_ifs) <;> rfl

/-- The depth is carried along to the place that restores the count, which the owner reaches. -/
theorem depth_next (cfg : Config) (p : Pc) {d : BitVec 32} (hd : p.depth = some d) :
    (code cfg p).All cfg (fun n => n.depth = some d) ∨
      (∃ r, code cfg p = .setCount d (.unlk .condWait r)) ∧ (place cfg p).owns = some true := by
  cases p <;> simp only [Pc.depth, reduceCtorEq, Option.some.injEq] at hd <;> subst hd <;>
    simp only [code] <;> (try split_ifs) <;> simp [Code.All, Pc.depth, place]

/-- Inside `gm_cond_wait` after the depth `d` is read: it is still saved, or the count is restored
and the thread is the owner. -/
def Waits (s : State Tid) (V : Tid) (d : BitVec 32) : Prop :=
  (s.pc V).depth = some d ∨ (s.pc V).waitDone ∧ s.owner = some V ∧ s.count = d

theorem waitDone_step (h : exec cfg T s s' (code cfg (s.pc T))) (hd : (s.pc T).waitDone)
    (hidle : s'.pc T ≠ .idle) :
    (s'.pc T).waitDone ∧ s'.owner = s.owner ∧ s'.count = s.count := by
  obtain ⟨r, hp | hp⟩ := hd
  · rw [hp] at h
    subst h
    exact ⟨⟨r, .inr (by simp)⟩, rfl, rfl⟩
  · rw [hp] at h
    subst h
    exact absurd (by simp) hidle

/-- **Step.** -/
theorem waits_step (hi : Inv cfg s) (h : exec cfg T s s' (code cfg (s.pc T))) {V : Tid}
    {d : BitVec 32} (hw : Waits s V d) (hidle : s'.pc V ≠ .idle) : Waits s' V d := by
  by_cases hV : V = T
  · subst hV
    rcases hw with hd | ⟨hdone, ho, hc⟩
    · rcases depth_next cfg (s.pc V) hd with hn | ⟨⟨r, hcode⟩, hown⟩
      · exact .inl (exec_pc_self h hn)
      · have ho := hi.owner V hown
        rw [hcode] at h
        subst h
        exact .inr ⟨⟨r, .inl (by simp)⟩, ho, rfl⟩
    · obtain ⟨hdone', ho', hc'⟩ := waitDone_step h hdone hidle
      exact .inr ⟨hdone', ho'.trans ho, hc'.trans hc⟩
  · rcases hw with hd | ⟨⟨r, hp⟩, ho, hc⟩
    · left
      rw [exec_attr_other depth_wake h hV]
      exact hd
    · obtain ⟨hframe, hcount⟩ := step_frame hi h hV
      have hstay : s'.pc V = s.pc V := by
        rcases exec_pc_other h hV with he | ⟨v, _, _, -, hs, -⟩
        · exact he
        · rcases hp with hp | hp <;> simp [hp, sleepsOn, code] at hs
      rw [Waits, hstay]
      exact .inr ⟨⟨r, hp⟩, hframe.2 ho, (hcount ho).trans hc⟩

/-! ### the wait and the signal -/

/-- Released in `gm_cond_wait` and not yet woken. -/
def Pc.waiting : Pc → Bool
  | .cwWaiters _ _ | .cwSignal _ _ | .cwWait _ _ | .cwAsleep _ _ => true
  | _ => false

/-- A waiting thread that does not hold `lk` is asleep on the condition. -/
theorem asleep_of_waiting (cfg : Config) (p : Pc) (h : p.waiting = true) (hl : (place cfg p).locked = false) :
    ∃ t d, p = .cwAsleep t d := by
  cases p with
  | cwAsleep t d => exact ⟨t, d, rfl⟩
  | _ => simp_all [Pc.waiting, place]

/-- Between the store of `cn->m` and the release. -/
def Pc.pastSetM : Pc → Bool
  | .cwCount _ _ | .cwStore _ _ => true
  | _ => false

theorem pastSetM_wake (p : Pc) : (wake cfg p).pastSetM = p.pastSetM := by
  cases p <;> simp only [wake, code] <;> (try split_ifs) <;> rfl

theorem pastSetM_next (cfg : Config) (p : Pc) : (∃ n, code cfg p = .setM n) ∨
    (code cfg p).All cfg fun n => n.pastSetM = true → p.pastSetM = true := by
  cases p with
  | idle =>
      refine .inr fun k b => ?_
      cases k <;> simp only [entry] <;> (try split_ifs) <;> simp [Pc.pastSetM]
  | _ =>
      simp only [code, leave]
      (try split_ifs) <;> simp [Code.All, Pc.pastSetM]

/-- The condition knows its mutex before a waiter releases it. -/
theorem reachable_condMutex (h : Reachable (syncSystem Tid cfg) s) :
    ∀ V, (s.pc V).pastSetM = true → s.condMutex = true := by
  refine h.invariant (P := fun s => ∀ V, (s.pc V).pastSetM = true → s.condMutex = true)
    (fun s hs V hV => ?_) fun s T s' _ hm hs V hV => ?_
  · rw [show s = initState from hs] at hV
    simp [initState, Pc.pastSetM] at hV
  · have hexec : exec cfg T s s' (code cfg (s.pc T)) := hs
    have hword := exec_condMutex hexec
    have hkeep : s.condMutex = true → s'.condMutex = true := by
      intro hset
      rw [hword, hset]
      cases code cfg (s.pc T) <;> rfl
    by_cases hVT : V = T
    · subst hVT
      rcases pastSetM_next cfg (s.pc V) with ⟨n, hn⟩ | hn
      · rw [hword, hn]
        rfl
      · exact hkeep (hm V (exec_pc_self hexec hn hV))
    · rw [exec_attr_other pastSetM_wake hexec hVT] at hV
      exact hkeep (hm V hV)

/-- Signalling without `lk`. -/
def Pc.signalsBare : Pc → Bool
  | .gsSignal _ locked => !locked
  | _ => false

theorem signalsBare_wake (p : Pc) : (wake cfg p).signalsBare = p.signalsBare := by
  cases p <;> simp only [wake, code] <;> (try split_ifs) <;> rfl

theorem signalsBare_next (cfg : Config) (p : Pc) : (∃ all, p = .gsRead all) ∨
    (code cfg p).All cfg fun n => n.signalsBare = false := by
  cases p with
  | idle =>
      refine .inr fun k b => ?_
      cases k <;> simp only [entry] <;> (try split_ifs) <;> simp [Pc.signalsBare]
  | gsRead all => exact .inl ⟨all, rfl⟩
  | _ =>
      simp only [code, leave]
      (try split_ifs) <;> simp [Code.All, Pc.signalsBare]

/-- **Step.**  In the atomic scheme nobody turns to a signal without `lk` once the condition knows
its mutex. -/
theorem signalsBare_step (ha : cfg.legacy = false) (h : exec cfg T s s' (code cfg (s.pc T)))
    (hm : s.condMutex = true) {V : Tid} (hV : (s.pc V).signalsBare = false) :
    s'.condMutex = true ∧ (s'.pc V).signalsBare = false := by
  constructor
  · rw [exec_condMutex h, hm]
    cases code cfg (s.pc T) <;> rfl
  · by_cases hVT : V = T
    · subst hVT
      rcases signalsBare_next cfg (s.pc V) with ⟨all, hp⟩ | hn
      · have hcode : code cfg (s.pc V) = .readM (.gsSignal all false) (.gsLk all) := by
          rw [hp]
          simp [code, ha]
        rw [hcode] at h
        subst h
        simp [hm, Pc.signalsBare]
      · exact exec_pc_self h hn
    · rw [exec_attr_other signalsBare_wake h hVT]
      exact hV

/-- A thread that becomes the owner does so by an exchange of the owner word, or by a store of it
under `lk`; it is not about to signal then. -/
theorem acquires (h : exec cfg T s s' (code cfg (s.pc T))) (hne : s.owner ≠ some T)
    (ho : s'.owner = some T) :
    (∃ won lost, code cfg (s.pc T) = .casOwner won lost ∧ s'.pc T = won) ∨
      ∃ n, code cfg (s.pc T) = .setOwner n := by
  have hword := exec_owner h
  rw [ho] at hword
  cases hcode : code cfg (s.pc T) with
  | casOwner won lost =>
      left
      refine ⟨won, lost, rfl, ?_⟩
      rw [hcode] at h hword
      subst h
      have hnone : s.owner = none := by
        by_contra hn
        simp only [Code.ownerAfter, if_neg hn] at hword
        exact hne hword.symm
      simp [hnone]
  | setOwner n => exact .inr ⟨n, rfl⟩
  | clearOwner n =>
      rw [hcode] at hword
      cases hword
  | _ =>
      rw [hcode] at hword
      exact absurd hword.symm hne

/-! ### runs -/

section Run

variable (r : Run (syncSystem Tid cfg))

theorem run_exec {k : ℕ} (hk : k < r.len) :
    exec cfg (r.label k) (r.state k) (r.state (k + 1)) (code cfg ((r.state k).pc (r.label k))) :=
  r.step k hk

/-- From the read of the depth to the return of `gm_cond_wait`. -/
theorem run_waits {W : Tid} {i j : ℕ} {t : Bool} (hij : i < j) (hj : j ≤ r.len)
    (hlabel : r.label i = W) (hread : (r.state i).pc W = .cwDepth t)
    (hin : ∀ k, i < k → k ≤ j → (r.state k).pc W ≠ .idle) :
    Waits (r.state j) W (r.state i).count := by
  have hstart : Waits (r.state (i + 1)) W (r.state i).count := by
    have hexec := run_exec r (k := i) (by omega)
    rw [hlabel, hread] at hexec
    rw [show r.state (i + 1) = _ from hexec]
    exact .inl (by simp [Pc.depth])
  refine r.stays (P := fun s => Waits s W (r.state i).count) hij hstart fun k hik hkj hw => ?_
  have hinv := reachable_inv (r.reachable k (by omega))
  exact waits_step hinv (run_exec r (by omega)) hw (hin (k + 1) (by omega) (by omega))

/-- A waiting thread that is asleep stays asleep as long as it waits. -/
theorem run_asleep {W : Tid} {j l : ℕ} (hjl : j ≤ l) (hl : l ≤ r.len)
    (hstart : ∃ t d, (r.state j).pc W = .cwAsleep t d)
    (hwait : ∀ k, j ≤ k → k ≤ l → ((r.state k).pc W).waiting = true) :
    ∃ t d, (r.state l).pc W = .cwAsleep t d := by
  refine r.stays (P := fun s => ∃ t d, s.pc W = .cwAsleep t d) hjl hstart fun k hjk hkl hs => ?_
  obtain ⟨t, d, hp⟩ := hs
  have hexec := run_exec r (k := k) (by omega)
  have hw := hwait (k + 1) (by omega) (by omega)
  by_cases hW : W = r.label k
  · have hn : (((r.state (k + 1)).pc W).waiting = false) := by
      rw [← hW, hp] at hexec
      exact exec_pc_self (P := fun n => n.waiting = false) hexec fun out => by cases out <;> rfl
    rw [hn] at hw
    cases hw
  · rcases exec_pc_other hexec hW with he | ⟨_, _, _, -, -, he⟩
    · exact ⟨t, d, he.trans hp⟩
    · rw [he, hp] at hw
      simp [wake, code, Pc.waiting] at hw

/-- **No signal before the sleep.**  `W` releases the mutex at `i` and still waits at `l`; `T`
takes the mutex at `j`, after the release, and signals at `l`.  Then `W` is asleep at `l`. -/
theorem run_signal_asleep {W T : Tid} {i j l : ℕ} (hij : i < j) (hjl : j < l) (hl : l < r.len)
    (hrelease : r.label i = W ∧ ∃ t d, (r.state i).pc W = .cwStore t d)
    (hacquire : r.label j = T ∧ (r.state j).owner ≠ some T ∧ (r.state (j + 1)).owner = some T)
    (hsignal : r.label l = T ∧ ∃ all locked, (r.state l).pc T = .gsSignal all locked)
    (hwait : ∀ k, i < k → k ≤ l → ((r.state k).pc W).waiting = true) :
    ∃ t d, (r.state l).pc W = .cwAsleep t d := by
  obtain ⟨hjT, hne, hown⟩ := hacquire
  obtain ⟨-, t₀, d₀, hstore⟩ := hrelease
  have hunlocked : ∀ k, i < k → k ≤ l → (r.state k).lk = some T → T ≠ W →
      ∃ t d, (r.state k).pc W = .cwAsleep t d := by
    intro k hik hkl hlk hTW
    have hinv := reachable_inv (r.reachable k (by omega))
    apply asleep_of_waiting cfg _ (hwait k hik hkl)
    by_contra hW
    have hlkW := (hinv.locked W).1 (by simpa [State.at] using hW)
    rw [hlk] at hlkW
    exact hTW (Option.some.inj hlkW)
  have hTW : T ≠ W := by
    rintro rfl
    obtain ⟨_, all, locked, hp⟩ := hsignal
    have hw := hwait l (by omega) le_rfl
    rw [hp] at hw
    simp [Pc.waiting] at hw
  have hinvj := reachable_inv (r.reachable j (by omega))
  have hexecj := run_exec r (k := j) (by omega)
  rw [hjT] at hexecj
  have hscheme := scheme_of_code _ (hinvj.scheme T)
  rcases acquires hexecj hne hown with ⟨won, lost, hcode, hwon⟩ | ⟨n, hcode⟩
  · -- the atomic scheme: the signal is made under `lk`
    have ha : cfg.legacy = false := (hscheme false (by rw [hcode]; rfl)).symm
    have hset : (r.state (i + 1)).condMutex = true := by
      have hi := reachable_condMutex (r.reachable i (by omega)) W (by rw [hstore]; rfl)
      rw [exec_condMutex (run_exec r (k := i) (by omega)), hi]
      generalize code cfg _ = c
      cases c <;> rfl
    have hsetj : (r.state (j + 1)).condMutex = true := by
      refine r.stays (P := fun s => s.condMutex = true) (by omega) hset fun k _ hk hs => ?_
      rw [exec_condMutex (run_exec r (k := k) (by omega)), hs]
      generalize code cfg _ = c
      cases c <;> rfl
    have hbarej : ((r.state (j + 1)).pc T).signalsBare = false := by
      rcases signalsBare_next cfg ((r.state j).pc T) with ⟨all, hp⟩ | hn
      · rw [hp] at hcode
        simp [code, ha] at hcode
      · exact exec_pc_self hexecj hn
    obtain ⟨-, hbare⟩ := r.stays
      (P := fun s => s.condMutex = true ∧ (s.pc T).signalsBare = false) (by omega : j + 1 ≤ l)
      ⟨hsetj, hbarej⟩ fun k _ hk hs =>
        signalsBare_step ha (run_exec r (k := k) (by omega)) hs.1 hs.2
    obtain ⟨-, all, locked, hp⟩ := hsignal
    have hinvl := reachable_inv (r.reachable l (by omega))
    have hlocked : locked = true := by
      rw [hp] at hbare
      simpa [Pc.signalsBare] using hbare
    have hlk := (hinvl.locked T).1 (by rw [State.at, hp]; exact hlocked)
    exact hunlocked l (by omega) le_rfl hlk hTW
  · -- the legacy scheme: the mutex is taken under `lk`
    have hlk := (hinvj.locked T).1 (locked_of_underLk cfg _ (by rw [hcode]; rfl))
    have hj := hunlocked j hij (by omega) hlk hTW
    exact run_asleep r (by omega) (by omega) hj fun k hjk hkl => hwait k (by omega) hkl

open Classical in
/-- A signal wakes a sleeper if there is one, a broadcast all of them. -/
theorem signal_wakes {v : CondVar} {all : Bool} {next : Pc}
    (h : exec cfg T s s' (.signal v all next)) (hT : sleepsOn cfg v (s.pc T) = false) :
    (all = true → ∀ V, sleepsOn cfg v (s.pc V) = true → s'.pc V = wake cfg (s.pc V)) ∧
      ((∃ V, sleepsOn cfg v (s.pc V) = true) →
        ∃ V, sleepsOn cfg v (s.pc V) = true ∧ s'.pc V = wake cfg (s.pc V)) := by
  obtain ⟨W, hW, hall, hne, rfl⟩ := h
  have hwoken : ∀ V, V ∈ W → ((s.wakeAll cfg W).goto T next).pc V = wake cfg (s.pc V) := by
    intro V hV
    have hVT : V ≠ T := by
      rintro rfl
      rw [hW V hV] at hT
      cases hT
    simp [State.wakeAll, hVT, hV]
  refine ⟨fun ha V hV => hwoken V (hall ha V hV), fun hex => ?_⟩
  obtain ⟨V, hV⟩ := hne hex
  exact ⟨V, hW V hV, hwoken V hV⟩

end Run

end PS4Recomp.Runtime
