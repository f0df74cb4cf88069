import PS4Recomp.Library.Transition

/-!
# The records of `setjmp`

`recomp_runtime.c`: a thread keeps at most 64 records.  `setjmp` writes over the record of its
environment or adds one at the end, where a full array loses its first; `longjmp` searches from the end
and cuts the array off at the record it finds.

* `GuestJmpRecord`, `saveJmpRecord`, `nonlocalJump` — the array and the two operations, with their lemmas;
* `JmpState`, `JmpAct`, `exec`, `jmpSystem` — one thread: frames that nest, and jumps to environments whose
  setting frame is active; a jump that finds no record aborts, so it is no step;
* `spent` — since its last `setjmp` the environment was jumped to, stood behind the target of a jump, or
  was pushed out;
* **`longjmp_latest_iff`** — a jump finds the record of the last `setjmp` exactly when its environment is
  not spent.

The value a jump returns is left out.
-/

namespace PS4Recomp.Runtime.JmpRecords

open Library Library.Transition

/-- `RECOMP_MAX_JMP_RECORDS`. -/
def recompMaxJmpRecords : ℕ := 64

structure GuestJmpRecord where
  env : BitVec 64
  hostSp : BitVec 64 := 0
  hostX30 : BitVec 64 := 0
  hostX29 : BitVec 64 := 0
  guestRsp : BitVec 64 := 0
  guestRbp : BitVec 64 := 0
  guestRbx : BitVec 64 := 0
  guestR12 : BitVec 64 := 0
  guestR13 : BitVec 64 := 0
  guestR14 : BitVec 64 := 0
  guestR15 : BitVec 64 := 0
  guestRip : BitVec 64 := 0
  deriving DecidableEq

/-! ### the array -/

/-- The loop of `recomp_save_jmp_record`: the first record of the environment is written over. -/
def overwrite (rec : GuestJmpRecord) : List GuestJmpRecord → Option (List GuestJmpRecord)
  | [] => none
  | r :: rs => if r.env = rec.env then some (rec :: rs) else (overwrite rec rs).map (r :: ·)

/-- The records `recomp_save_jmp_record` moves out of the array. -/
def pushedOut (records : List GuestJmpRecord) (rec : GuestJmpRecord) : List GuestJmpRecord :=
  if (overwrite rec records).isNone ∧ recompMaxJmpRecords ≤ records.length then records.take 1 else []

/-- `recomp_save_jmp_record`. -/
def saveJmpRecord (records : List GuestJmpRecord) (rec : GuestJmpRecord) : List GuestJmpRecord :=
  match overwrite rec records with
  | some records' => records'
  | none =>
      if records.length < recompMaxJmpRecords then records ++ [rec] else records.drop 1 ++ [rec]

/-- The search of `shim_guest_nonlocal_jump`, from the end: the record it finds, and the records before
it, which are those it keeps. -/
def nonlocalJump (env : BitVec 64) : List GuestJmpRecord → Option (GuestJmpRecord × List GuestJmpRecord)
  | [] => none
  | r :: rs =>
      match nonlocalJump env rs with
      | some (target, kept) => some (target, r :: kept)
      | none => if r.env = env then some (r, []) else none

theorem overwrite_some {rec : GuestJmpRecord} {records records' : List GuestJmpRecord}
    (h : overwrite rec records = some records') :
    ∃ l₁ r l₂, records = l₁ ++ r :: l₂ ∧ r.env = rec.env ∧ records' = l₁ ++ rec :: l₂ := by
  induction records generalizing records' with
  | nil => cases h
  | cons r rs ih =>
      rw [overwrite] at h
      split at h
      · rename_i henv
        cases h
        exact ⟨[], r, rs, rfl, henv, rfl⟩
      · obtain ⟨rs', hrs, rfl⟩ := Option.map_eq_some_iff.1 h
        obtain ⟨l₁, x, l₂, rfl, hx, rfl⟩ := ih hrs
        exact ⟨r :: l₁, x, l₂, rfl, hx, rfl⟩

theorem overwrite_none {rec : GuestJmpRecord} {records : List GuestJmpRecord}
    (h : overwrite rec records = none) : ∀ r ∈ records, r.env ≠ rec.env := by
  induction records with
  | nil => exact fun _ hr => (nomatch hr)
  | cons r rs ih =>
      rw [overwrite] at h
      split at h
      · cases h
      · rename_i henv
        intro x hx
        rcases List.mem_cons.1 hx with rfl | hx
        · exact henv
        · exact ih (Option.map_eq_none_iff.1 h) x hx

/-- **Search.**  The record found, and what is cut off behind it. -/
theorem nonlocalJump_some {env : BitVec 64} {records kept : List GuestJmpRecord}
    {target : GuestJmpRecord} (h : nonlocalJump env records = some (target, kept)) :
    target.env = env ∧ ∃ rest, records = kept ++ target :: rest := by
  induction records generalizing kept target with
  | nil => cases h
  | cons r rs ih =>
      rw [nonlocalJump] at h
      split at h
      · rename_i t k hrs
        cases h
        obtain ⟨henv, rest, rfl⟩ := ih hrs
        exact ⟨henv, rest, rfl⟩
      · split at h
        · rename_i henv
          cases h
          exact ⟨henv, rs, rfl⟩
        · cases h

theorem nonlocalJump_none {env : BitVec 64} {records : List GuestJmpRecord}
    (h : nonlocalJump env records = none) : ∀ r ∈ records, r.env ≠ env := by
  induction records with
  | nil => exact fun _ hr => (nomatch hr)
  | cons r rs ih =>
      rw [nonlocalJump] at h
      split at h
      · cases h
      · rename_i hrs
        split at h
        · cases h
        · rename_i henv
          intro x hx
          rcases List.mem_cons.1 hx with rfl | hx
          · exact henv
          · exact ih hrs x hx

/-- Every environment has one record. -/
def Unique (records : List GuestJmpRecord) : Prop := (records.map (·.env)).Nodup

/-- **Save.**  The new record is there, and the records of other environments stay but for those pushed
out. -/
theorem mem_saveJmpRecord {records : List GuestJmpRecord} (h : Unique records) (rec x : GuestJmpRecord) :
    x ∈ saveJmpRecord records rec ↔
      x = rec ∨ x ∈ records ∧ x.env ≠ rec.env ∧ x ∉ pushedOut records rec := by
  cases how : overwrite rec records with
  | some records' =>
      have hsave : saveJmpRecord records rec = records' := by rw [saveJmpRecord, how]
      have hout : pushedOut records rec = [] := if_neg fun e => by
        have hnone := e.1
        rw [how] at hnone
        cases hnone
      rw [hsave, hout]
      obtain ⟨l₁, r, l₂, rfl, hr, rfl⟩ := overwrite_some how
      unfold Unique at h
      rw [List.map_append, List.map_cons, List.nodup_middle, List.nodup_cons, hr, ← List.map_append] at h
      have hne : ∀ y ∈ l₁ ++ l₂, y.env ≠ rec.env := fun y hy e =>
        h.1 (List.mem_map.2 ⟨y, hy, e⟩)
      constructor
      · intro hx
        rw [List.mem_append, List.mem_cons] at hx
        rcases hx with hx | rfl | hx
        · exact .inr ⟨List.mem_append_left _ hx, hne x (List.mem_append_left _ hx), by simp⟩
        · exact .inl rfl
        · exact .inr ⟨List.mem_append_right _ (List.mem_cons_of_mem _ hx),
            hne x (List.mem_append_right _ hx), by simp⟩
      · rintro (rfl | ⟨hx, hxe, -⟩)
        · exact List.mem_append_right _ List.mem_cons_self
        · rw [List.mem_append, List.mem_cons] at hx ⊢
          rcases hx with hx | rfl | hx
          · exact .inl hx
          · exact absurd hr hxe
          · exact .inr (.inr hx)
  | none =>
      have hne := overwrite_none how
      by_cases hfull : recompMaxJmpRecords ≤ records.length
      · have hsave : saveJmpRecord records rec = records.drop 1 ++ [rec] := by
          rw [saveJmpRecord, how]
          exact if_neg (by omega)
        have hout : pushedOut records rec = records.take 1 := if_pos ⟨by rw [how]; rfl, hfull⟩
        rw [hsave, hout, List.mem_append, List.mem_singleton]
        have hsplit : records.take 1 ++ records.drop 1 = records := List.take_append_drop 1 records
        unfold Unique at h
        rw [← hsplit, List.map_append] at h
        have hapart := (List.nodup_append.1 h).2.2
        constructor
        · rintro (hx | rfl)
          · refine .inr ⟨List.mem_of_mem_drop hx, hne x (List.mem_of_mem_drop hx), fun hx' => ?_⟩
            exact hapart _ (List.mem_map_of_mem hx') _ (List.mem_map_of_mem hx) rfl
          · exact .inl rfl
        · rintro (rfl | ⟨hx, -, hnot⟩)
          · exact .inr rfl
          · rw [← hsplit, List.mem_append] at hx
            exact .inl (hx.resolve_left hnot)
      · have hsave : saveJmpRecord records rec = records ++ [rec] := by
          rw [saveJmpRecord, how]
          exact if_pos (by omega)
        have hout : pushedOut records rec = [] := if_neg fun e => hfull e.2
        rw [hsave, hout, List.mem_append, List.mem_singleton]
        constructor
        · rintro (hx | rfl)
          · exact .inr ⟨hx, hne x hx, by simp⟩
          · exact .inl rfl
        · rintro (rfl | ⟨hx, -, -⟩)
          · exact .inr rfl
          · exact .inl hx

theorem unique_saveJmpRecord {records : List GuestJmpRecord} (h : Unique records)
    (rec : GuestJmpRecord) : Unique (saveJmpRecord records rec) := by
  unfold saveJmpRecord
  cases how : overwrite rec records with
  | some records' =>
      obtain ⟨l₁, r, l₂, rfl, hr, rfl⟩ := overwrite_some how
      unfold Unique at h ⊢
      rw [List.map_append, List.map_cons, hr] at h
      rw [List.map_append, List.map_cons]
      exact h
  | none =>
      have hne := overwrite_none how
      have hsnoc : ∀ l : List GuestJmpRecord, l.Sublist records → Unique (l ++ [rec]) := by
        intro l hl
        unfold Unique
        rw [List.map_append, List.nodup_append]
        refine ⟨List.Nodup.sublist (hl.map _) h, List.nodup_singleton _, fun a ha b hb e => ?_⟩
        obtain ⟨x, hx, rfl⟩ := List.mem_map.1 ha
        rw [List.map_singleton, List.mem_singleton] at hb
        exact hne x (hl.mem hx) (e.trans hb)
      dsimp only
      split
      · exact hsnoc records (List.Sublist.refl _)
      · exact hsnoc _ (List.drop_sublist 1 records)

/-! ### one thread -/

/-- The array and the record of the last jump, and beside them what no code keeps: the active frames,
innermost first, the last `setjmp` of each environment with its frame, and the spent environments. -/
structure JmpState where
  records : List GuestJmpRecord := []
  restored : Option GuestJmpRecord := none
  frames : List ℕ := [0]
  nextFrame : ℕ := 1
  latest : BitVec 64 → Option (GuestJmpRecord × ℕ) := fun _ => none
  spent : BitVec 64 → Bool := fun _ => false

inductive JmpAct where
  | call | ret | setjmp (rec : GuestJmpRecord) | longjmp (env : BitVec 64)

/-- A step; `none` where it is not possible, and where a jump aborts. -/
def exec (s : JmpState) : JmpAct → Option JmpState
  | .call => some { s with frames := s.nextFrame :: s.frames, nextFrame := s.nextFrame + 1 }
  | .ret =>
      match s.frames with
      | _ :: f :: fs => some { s with frames := f :: fs }
      | _ => none
  | .setjmp rec =>
      match s.frames with
      | [] => none
      | f :: _ =>
          some { s with
            records := saveJmpRecord s.records rec
            latest := Function.update s.latest rec.env (some (rec, f))
            spent := fun env => env != rec.env &&
              (s.spent env || (pushedOut s.records rec).any (·.env == env)) }
  | .longjmp env =>
      match s.latest env with
      | some (_, f) =>
          if f ∈ s.frames then
            match nonlocalJump env s.records with
            | some (target, kept) =>
                some { s with
                  records := kept, restored := some target
                  frames := s.frames.dropWhile (· != f)
                  spent := fun e => s.spent e || (s.records.drop kept.length).any (·.env == e) }
            | none => none
          else none
      | none => none

/-- The runs of one thread. -/
def jmpSystem : System JmpState JmpAct where
  init s := s = {}
  step s a s' := exec s a = some s'

/-! ### the invariant -/

/-- The array holds the last record of every environment that is not spent, and no other. -/
structure JmpInv (s : JmpState) : Prop where
  unique : Unique s.records
  known : ∀ x ∈ s.records, ∃ f, s.latest x.env = some (x, f)
  kept : ∀ env r f, s.latest env = some (r, f) → r.env = env ∧ (r ∈ s.records ↔ s.spent env = false)

variable {s s' : JmpState}

theorem JmpInv.setjmp (h : JmpInv s) (rec : GuestJmpRecord) (f : ℕ) :
    JmpInv { s with
      records := saveJmpRecord s.records rec
      latest := Function.update s.latest rec.env (some (rec, f))
      spent := fun env => env != rec.env &&
        (s.spent env || (pushedOut s.records rec).any (·.env == env)) } := by
  refine ⟨unique_saveJmpRecord h.unique rec, fun x hx => ?_, fun env r g hr => ?_⟩
  · show ∃ g, Function.update s.latest rec.env (some (rec, f)) x.env = some (x, g)
    rcases (mem_saveJmpRecord h.unique rec x).1 hx with rfl | ⟨hx, hne, -⟩
    · exact ⟨f, Function.update_self ..⟩
    · rw [Function.update_of_ne hne]
      exact h.known x hx
  · have hr' : Function.update s.latest rec.env (some (rec, f)) env = some (r, g) := hr
    show r.env = env ∧ (r ∈ saveJmpRecord s.records rec ↔ (env != rec.env &&
      (s.spent env || (pushedOut s.records rec).any (·.env == env))) = false)
    rw [mem_saveJmpRecord h.unique rec r]
    by_cases henv : env = rec.env
    · subst henv
      rw [Function.update_self] at hr'
      cases hr'
      simp
    · rw [Function.update_of_ne henv] at hr'
      obtain ⟨hre, hkept⟩ := h.kept env r g hr'
      have hrec : r ≠ rec := fun e => henv (by rw [← hre, e])
      refine ⟨hre, ?_⟩
      rw [hre, hkept]
      -- a pushed-out record of the environment is this one
      have hout : r ∈ pushedOut s.records rec ↔ (pushedOut s.records rec).any (·.env == env) = true := by
        rw [List.any_eq_true]
        constructor
        · exact fun hmem => ⟨r, hmem, by rw [hre]; exact beq_self_eq_true env⟩
        · rintro ⟨x, hx, hxe⟩
          have hxmem : x ∈ s.records := by
            unfold pushedOut at hx
            split at hx
            · exact List.mem_of_mem_take hx
            · cases hx
          obtain ⟨g', hg'⟩ := h.known x hxmem
          rw [beq_iff_eq.1 hxe, hr'] at hg'
          cases hg'
          exact hx
      rw [hout, Bool.and_eq_false_iff, Bool.or_eq_false_iff, bne_eq_false_iff_eq, Bool.not_eq_true]
      constructor
      · rintro (e | ⟨hspent, -, hany⟩)
        · exact absurd e hrec
        · exact .inr ⟨hspent, hany⟩
      · rintro (e | ⟨hspent, hany⟩)
        · exact absurd e henv
        · exact .inr ⟨hspent, henv, hany⟩

theorem JmpInv.longjmp (h : JmpInv s) {env : BitVec 64} {target : GuestJmpRecord}
    {kept : List GuestJmpRecord} (hj : nonlocalJump env s.records = some (target, kept))
    (frames : List ℕ) : JmpInv { s with
      records := kept, restored := some target, frames := frames
      spent := fun e => s.spent e || (s.records.drop kept.length).any (·.env == e) } := by
  obtain ⟨-, rest, hsplit⟩ := nonlocalJump_some hj
  have hdrop : s.records.drop kept.length = target :: rest := by
    rw [hsplit, List.drop_left]
  have hsub : kept.Sublist s.records := by
    rw [hsplit]
    exact List.sublist_append_left _ _
  refine ⟨h.unique.sublist (hsub.map _), fun x hx => h.known x (hsub.mem hx), fun e r f hr => ?_⟩
  obtain ⟨hre, hkept⟩ := h.kept e r f hr
  refine ⟨hre, ?_⟩
  show r ∈ kept ↔ (s.spent e || (s.records.drop kept.length).any (·.env == e)) = false
  rw [hdrop, Bool.or_eq_false_iff, ← hkept]
  have hunique := h.unique
  unfold Unique at hunique
  rw [hsplit, List.map_append] at hunique
  have hapart := (List.nodup_append.1 hunique).2.2
  constructor
  · intro hmem
    refine ⟨hsub.mem hmem, ?_⟩
    rw [List.any_eq_false]
    intro x hx hxe
    exact hapart _ (List.mem_map_of_mem hmem) _ (List.mem_map_of_mem hx)
      (hre.trans (beq_iff_eq.1 hxe).symm)
  · rintro ⟨hmem, hany⟩
    rw [hsplit, List.mem_append] at hmem
    refine hmem.resolve_right fun hcut => ?_
    rw [List.any_eq_false] at hany
    exact hany r hcut (beq_iff_eq.2 hre)

/-- **Step.** -/
theorem inv_exec {a : JmpAct} (h : JmpInv s) (hs : exec s a = some s') : JmpInv s' := by
  cases a with
  | call =>
      cases hs
      exact ⟨h.unique, h.known, h.kept⟩
  | ret =>
      simp only [exec] at hs
      split at hs
      · cases hs
        exact ⟨h.unique, h.known, h.kept⟩
      · cases hs
  | setjmp rec =>
      simp only [exec] at hs
      split at hs
      · cases hs
      · cases hs
        exact h.setjmp rec _
  | longjmp env =>
      simp only [exec] at hs
      split at hs
      · split at hs
        · split at hs
          · rename_i hj
            cases hs
            exact h.longjmp hj _
          · cases hs
        · cases hs
      · cases hs

/-- **Runs.** -/
theorem inv_reachable (h : Reachable jmpSystem s) : JmpInv s := by
  refine Reachable.invariant (P := JmpInv) (fun s hs => ?_)
    (fun _ _ _ _ hi hs => inv_exec hi hs) h
  rw [show s = _ from hs]
  exact ⟨List.nodup_nil, fun _ hx => (nomatch hx), fun _ _ _ hr => (nomatch hr)⟩

/-- **Jumps.**  In every reachable state, a jump to an environment whose setting frame is active finds
the record of its last `setjmp` exactly when the environment is not spent. -/
theorem longjmp_latest_iff (h : Reachable jmpSystem s) {env : BitVec 64} {r : GuestJmpRecord} {f : ℕ}
    (hr : s.latest env = some (r, f)) (hf : f ∈ s.frames) :
    (∃ s', exec s (.longjmp env) = some s' ∧ s'.restored = some r) ↔ s.spent env = false := by
  have hinv := inv_reachable h
  obtain ⟨hre, hkept⟩ := hinv.kept env r f hr
  rw [← hkept]
  cases hj : nonlocalJump env s.records with
  | none =>
      refine ⟨fun ⟨s', hs, _⟩ => ?_, fun hmem => absurd hre (nonlocalJump_none hj r hmem)⟩
      simp only [exec, hr, if_pos hf, hj] at hs
      cases hs
  | some found =>
      obtain ⟨target, kept⟩ := found
      obtain ⟨henv, rest, hsplit⟩ := nonlocalJump_some hj
      have hmem : target ∈ s.records := by
        rw [hsplit]
        exact List.mem_append_right _ List.mem_cons_self
      -- the record found is the last one of its environment
      obtain ⟨g, hg⟩ := hinv.known target hmem
      rw [henv, hr] at hg
      cases hg
      have hexec : exec s (.longjmp env) = some { s with
          records := kept, restored := some r, frames := s.frames.dropWhile (· != f)
          spent := fun e => s.spent e || (s.records.drop kept.length).any (·.env == e) } := by
        simp only [exec, hr, if_pos hf, hj]
      exact ⟨fun _ => hmem, fun _ => ⟨_, hexec, rfl⟩⟩

/-! ### runs -/

/-- Two frames set an environment each, and the inner one jumps out. -/
def jumpOut : List JmpAct := [.setjmp { env := 1 }, .call, .setjmp { env := 2 }]

theorem longjmp_latest_jumpOut : ∃ s, execAll exec {} jumpOut = some s ∧
    ∃ s', exec s (.longjmp 1) = some s' ∧ s'.restored = some { env := 1 } := by
  obtain ⟨s, hs⟩ : ∃ s, execAll exec {} jumpOut = some s := Option.isSome_iff_exists.1 (by decide)
  have hreach : Reachable jmpSystem s :=
    Reachable.execAll (fun _ _ _ hstep => hstep) jumpOut (.init rfl) hs
  have hfields : (execAll exec {} jumpOut).map (fun s => (s.latest 1, s.frames, s.spent 1)) =
      some (some ({ env := 1 }, 0), [1, 0], false) := by decide
  rw [hs] at hfields
  obtain ⟨hlatest, hrest⟩ := Prod.mk.inj (Option.some.inj hfields)
  obtain ⟨hframes, hspent⟩ := Prod.mk.inj hrest
  have hactive : 0 ∈ s.frames := by rw [hframes]; decide
  exact ⟨s, hs, (longjmp_latest_iff hreach hlatest hactive).2 hspent⟩

/-- An environment is set once and jumped to. -/
def jumpOnce : List JmpAct := [.setjmp { env := 1 }, .longjmp 1]

/-- The first jump drops the record it uses, so a second jump finds none. -/
theorem longjmp_twice_aborts :
    ¬ ∀ s, Reachable jmpSystem s → ∀ env r f, s.latest env = some (r, f) → f ∈ s.frames →
      ∃ s', exec s (.longjmp env) = some s' ∧ s'.restored = some r := by
  intro hall
  obtain ⟨s, hs⟩ : ∃ s, execAll exec {} jumpOnce = some s := Option.isSome_iff_exists.1 (by decide)
  have hreach : Reachable jmpSystem s :=
    Reachable.execAll (fun _ _ _ hstep => hstep) jumpOnce (.init rfl) hs
  have hfields : (execAll exec {} jumpOnce).map
      (fun s => (s.latest 1, s.frames, (exec s (.longjmp 1)).isSome)) =
      some (some ({ env := 1 }, 0), [0], false) := by decide
  rw [hs] at hfields
  obtain ⟨hlatest, hrest⟩ := Prod.mk.inj (Option.some.inj hfields)
  obtain ⟨hframes, hnone⟩ := Prod.mk.inj hrest
  obtain ⟨s', hexec, -⟩ := hall s hreach 1 _ 0 hlatest (by rw [hframes]; decide)
  rw [hexec] at hnone
  cases hnone

end PS4Recomp.Runtime.JmpRecords
