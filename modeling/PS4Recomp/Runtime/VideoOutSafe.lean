import Mathlib.Data.List.Perm.Basic
import PS4Recomp.Runtime.VideoOut

/-!
# When labels and counters are kept

* `SlotInv` — a slot in use against the flips of its handle; one lemma for each thing that happens to a slot
  (`opened`, `registered`, `unregistered`, `flipLabels`, `accept`, `reached`, `finished`);
* `Inv` — the handles in use are different and older than the next one, and `SlotInv` holds of each;
* `Inv.exec` — the step lemma;
* **`flips_kept`** — in every run whose steps meet the condition labels and counters are kept.
-/

namespace PS4Recomp.Runtime.VideoOut

open Library.Transition

/-! ### A slot -/

/-- What holds of a flip of the handle in slot `i`: its lock is the label of its buffer, it is not of a later
registration than the last, and a GPU flip of a buffer has a lock. -/
structure Flip.Known (i : Slot) (v : VideoOutHandle) (f : Flip) : Prop where
  handle : f.pf.handle = v.handle
  lock : ∀ j k, f.pf.lock = some (j, k) → j = i ∧ f.gpu = true ∧ f.pf.bufferIndex = some k
  registration : ∀ k, f.pf.bufferIndex = some k → f.registration ≤ v.registration k
  locked : ∀ k, f.gpu = true → f.pf.bufferIndex = some k → v.labels.isSome = true ∧ f.pf.lock = some (i, k)

/-- The label of a buffer says whether it is locked. -/
def LabelOk (fs : List Flip) (v : VideoOutHandle) (k : Nat) (ls : Nat → Nat) : Prop :=
  (Locked fs v k → ls k = 1) ∧ (¬Locked fs v k → ls k = 0)

theorem LabelOk.congr {fs fs' : List Flip} {v v' : VideoOutHandle} {k : Nat} {ls ls' : Nat → Nat}
    (h : LabelOk fs v k ls) (hlocked : Locked fs' v' k ↔ Locked fs v k) (hls : ls' k = ls k) :
    LabelOk fs' v' k ls' := by
  rw [LabelOk, hlocked, hls]
  exact h

theorem labelOk_of_not_locked {fs : List Flip} {v : VideoOutHandle} {k : Nat} {ls : Nat → Nat}
    (hlocked : ¬Locked fs v k) (hls : ls k = 0) : LabelOk fs v k ls :=
  ⟨fun h => absurd h hlocked, fun _ => hls⟩

/-- A slot in use, against the flips in flight of its handle. -/
structure SlotInv (i : Slot) (v : VideoOutHandle) (fs : List Flip) : Prop where
  pending : v.flipStatus.numFlipPending = fs.length
  gpuPending : v.flipStatus.numGpuFlipPending = fs.length
  prev : v.prevIndex = v.last.bind fun f => f.pf.bufferIndex
  known : ∀ f, f ∈ fs ∨ v.last = some f → f.Known i v
  label : ∀ k, v.bufferSet k ≠ none → ∀ ls, v.labels = some ls → LabelOk fs v k ls

theorem flipLabels_parts (v : VideoOutHandle) (ctx alloc : Bool) :
    (v.flipLabels ctx alloc).inUse = v.inUse ∧ (v.flipLabels ctx alloc).handle = v.handle := by
  unfold VideoOutHandle.flipLabels
  split
  · exact ⟨rfl, rfl⟩
  · split <;> exact ⟨rfl, rfl⟩

theorem accept_parts (v : VideoOutHandle) (i : Slot) (index : Option Nat) (flipArg : Int)
    (gpuFlip ctx alloc : Bool) :
    (v.accept i index flipArg gpuFlip ctx alloc).1.inUse = v.inUse ∧
      (v.accept i index flipArg gpuFlip ctx alloc).1.handle = v.handle ∧
      (v.accept i index flipArg gpuFlip ctx alloc).2.pf.handle = v.handle := by
  unfold VideoOutHandle.accept
  dsimp only
  split
  · have hparts := flipLabels_parts v ctx alloc
    exact ⟨hparts.1, hparts.2, hparts.2⟩
  · exact ⟨rfl, rfl, rfl⟩

theorem finished_parts (v : VideoOutHandle) (f : Flip) :
    (v.finished f).inUse = v.inUse ∧ (v.finished f).handle = v.handle := by
  unfold VideoOutHandle.finished VideoOutHandle.setLabel
  cases v.prevIndex <;> exact ⟨rfl, rfl⟩

namespace SlotInv

variable {i : Slot} {v : VideoOutHandle} {fs : List Flip}

theorem perm {fs' : List Flip} (h : SlotInv i v fs) (hperm : fs.Perm fs') : SlotInv i v fs' where
  pending := h.pending.trans hperm.length_eq
  gpuPending := h.gpuPending.trans hperm.length_eq
  prev := h.prev
  known f hf := h.known f (by rwa [hperm.mem_iff])
  label k hk ls hls := by
    refine (h.label k hk ls hls).congr ?_ rfl
    unfold Locked
    simp only [hperm.mem_iff]

theorem opened (i : Slot) (v : VideoOutHandle) (handle : Int) : SlotInv i (v.opened handle) [] where
  pending := rfl
  gpuPending := rfl
  prev := rfl
  known f hf := by
    rcases hf with hf | hf
    · cases hf
    · cases hf
  label k hk := absurd rfl hk

/-- A flip that is known locks a buffer only where the labels exist. -/
theorem not_locked_of_no_labels (h : SlotInv i v fs) (hnone : v.labels = none) (k : Nat) : ¬Locked fs v k := by
  have hno : ∀ f, f ∈ fs ∨ v.last = some f → ¬f.Locks v k := by
    intro f hf hlocks
    have hsome := ((h.known f hf).locked k hlocks.2.1 hlocks.2.2.1).1
    rw [hnone] at hsome
    cases hsome
  rintro (⟨f, hf, hlocks⟩ | ⟨f, hf, hlocks⟩)
  · exact hno f (.inl hf) hlocks
  · exact hno f (.inr hf) hlocks

theorem flipLabels (ctx alloc : Bool) (h : SlotInv i v fs) : SlotInv i (v.flipLabels ctx alloc) fs := by
  unfold VideoOutHandle.flipLabels
  split
  · exact h
  · rename_i hnone
    split
    · refine ⟨h.pending, h.gpuPending, h.prev, fun f hf => ?_, fun k hk ls hls => ?_⟩
      · have hf := h.known f hf
        exact ⟨hf.handle, hf.lock, hf.registration, fun k hgpu hk => ⟨rfl, (hf.locked k hgpu hk).2⟩⟩
      · cases hls
        exact labelOk_of_not_locked (h.not_locked_of_no_labels hnone k) rfl
    · exact h

theorem unregistered (set : Nat) (h : SlotInv i v fs) : SlotInv i (v.unregistered set) fs where
  pending := h.pending
  gpuPending := h.gpuPending
  prev := h.prev
  known f hf := by
    have hf := h.known f hf
    exact ⟨hf.handle, hf.lock, hf.registration, hf.locked⟩
  label k hk ls hls := by
    refine h.label k ?_ ls hls
    intro hnone
    refine hk ?_
    show (if v.bufferSet k = some set then none else v.bufferSet k) = none
    rw [hnone]
    exact if_neg nofun

/-- A buffer that is registered anew is not locked: the flips in flight mean the one before it. -/
theorem registered (start count set : Nat) (bufferArray : Nat → Nat) (h : SlotInv i v fs) :
    SlotInv i (v.registered start count set bufferArray) fs where
  pending := h.pending
  gpuPending := h.gpuPending
  prev := h.prev
  known f hf := by
    have hf := h.known f hf
    refine ⟨hf.handle, hf.lock, fun k hk => ?_, fun k hgpu hk => ⟨?_, (hf.locked k hgpu hk).2⟩⟩
    · have hle := hf.registration k hk
      show f.registration ≤ if start ≤ k ∧ k < start + count then v.registration k + 1 else v.registration k
      split <;> omega
    · show (v.labels.map _).isSome = true
      rw [Option.isSome_map]
      exact (hf.locked k hgpu hk).1
  label k hk ls hls := by
    obtain ⟨old, hold, rfl⟩ := Option.map_eq_some_iff.1 hls
    by_cases hin : start ≤ k ∧ k < start + count
    · refine labelOk_of_not_locked ?_ (if_pos hin)
      have hno : ∀ f, f ∈ fs ∨ v.last = some f → ¬f.Locks (v.registered start count set bufferArray) k := by
        intro f hf hlocks
        have hle := (h.known f hf).registration k hlocks.2.2.1
        have hreg : f.registration =
          if start ≤ k ∧ k < start + count then v.registration k + 1 else v.registration k := hlocks.2.2.2.1
        rw [if_pos hin] at hreg
        omega
      rintro (⟨f, hf, hlocks⟩ | ⟨f, hf, hlocks⟩)
      · exact hno f (.inl hf) hlocks
      · exact hno f (.inr hf) hlocks
    · have hset : v.bufferSet k ≠ none := by
        intro hnone
        refine hk ?_
        show (if start ≤ k ∧ k < start + count then some set else v.bufferSet k) = none
        rw [if_neg hin]
        exact hnone
      refine (h.label k hset old hold).congr ?_ (if_neg hin)
      have hlocks : ∀ f : Flip, f.Locks (v.registered start count set bufferArray) k ↔ f.Locks v k := by
        intro f
        have hreg : (v.registered start count set bufferArray).registration k = v.registration k := if_neg hin
        unfold Flip.Locks
        rw [hreg]
        rfl
      unfold Locked
      simp only [hlocks]
      rfl

/-- A flip is accepted; the command processor has not reached it. -/
theorem accept (index : Option Nat) (flipArg : Int) (gpuFlip ctx alloc : Bool) (h : SlotInv i v fs)
    (halloc : gpuFlip = true → index.isSome = true → v.labels.isSome = true ∨ (ctx && alloc) = true) :
    SlotInv i (v.accept i index flipArg gpuFlip ctx alloc).1
      ((v.accept i index flipArg gpuFlip ctx alloc).2 :: fs) := by
  let u := if gpuFlip && index.isSome then v.flipLabels ctx alloc else v
  have hu : SlotInv i u fs := by
    show SlotInv i (if gpuFlip && index.isSome then v.flipLabels ctx alloc else v) fs
    split
    · exact h.flipLabels ctx alloc
    · exact h
  have hlabels : gpuFlip = true → index.isSome = true → u.labels.isSome = true := by
    intro hgpu hindex
    show (if gpuFlip && index.isSome then v.flipLabels ctx alloc else v).labels.isSome = true
    rw [hgpu, hindex, Bool.and_self, if_pos rfl]
    unfold VideoOutHandle.flipLabels
    split
    · rename_i hsome
      rw [hsome]
      rfl
    · rename_i hnone
      rcases halloc hgpu hindex with hsome | hctx
      · rw [hnone] at hsome
        cases hsome
      · rw [if_pos hctx]
        rfl
  have hnew : Flip.Known i u (v.accept i index flipArg gpuFlip ctx alloc).2 := by
    refine ⟨rfl, fun j k hlock => ?_, fun k hk => ?_, fun k hgpu hk => ?_⟩
    · have hlock : (if gpuFlip && u.labels.isSome then index.map fun k => (i, k) else none) = some (j, k) := hlock
      split at hlock
      · rename_i hgpu
        obtain ⟨k', hindex, heq⟩ := Option.map_eq_some_iff.1 hlock
        cases heq
        exact ⟨rfl, (Bool.and_eq_true_iff.1 hgpu).1, hindex⟩
      · cases hlock
    · have hindex : index = some k := hk
      show (index.map u.registration).getD 0 ≤ u.registration k
      rw [hindex]
      exact Nat.le_refl _
    · have hgpu : gpuFlip = true := hgpu
      have hindex : index = some k := hk
      have hsome := hlabels hgpu (by rw [hindex]; rfl)
      refine ⟨hsome, ?_⟩
      show (if gpuFlip && u.labels.isSome then index.map fun k => (i, k) else none) = some (i, k)
      rw [hgpu, hsome, hindex]
      rfl
  refine ⟨congrArg (· + 1) hu.pending, congrArg (· + 1) hu.gpuPending, hu.prev, fun f hf => ?_,
    fun k hk ls hls => ?_⟩
  · have hknown : f.Known i u := by
      rcases hf with hf | hf
      · rcases List.mem_cons.1 hf with rfl | hf
        · exact hnew
        · exact hu.known f (.inl hf)
      · exact hu.known f (.inr hf)
    exact ⟨hknown.handle, hknown.lock, hknown.registration, hknown.locked⟩
  · refine (hu.label k hk ls hls).congr ?_ rfl
    constructor
    · rintro (⟨f, hf, hlocks⟩ | hlast)
      · rcases List.mem_cons.1 hf with rfl | hf
        · cases hlocks.2.2.2.2
        · exact .inl ⟨f, hf, hlocks⟩
      · exact .inr hlast
    · rintro (⟨f, hf, hlocks⟩ | hlast)
      · exact .inl ⟨f, List.mem_cons_of_mem _ hf, hlocks⟩
      · exact .inr hlast

/-- The command processor reaches a flip without a label: no buffer is locked. -/
theorem reached_no_lock {f : Flip} (h : SlotInv i v (f :: fs)) (hnone : f.pf.lock = none) :
    SlotInv i v ({ f with reached := true } :: fs) where
  pending := h.pending
  gpuPending := h.gpuPending
  prev := h.prev
  known g hg := by
    rcases hg with hg | hg
    · rcases List.mem_cons.1 hg with rfl | hg
      · have hf := h.known f (.inl (List.mem_cons_self ..))
        exact ⟨hf.handle, hf.lock, hf.registration, hf.locked⟩
      · exact h.known g (.inl (List.mem_cons_of_mem _ hg))
    · exact h.known g (.inr hg)
  label k hk ls hls := by
    refine (h.label k hk ls hls).congr ?_ rfl
    have hf := h.known f (.inl (List.mem_cons_self ..))
    have hno : ∀ reached, ¬Flip.Locks { f with reached } v k := by
      intro reached hlocks
      have hlock := (hf.locked k hlocks.2.1 hlocks.2.2.1).2
      rw [hnone] at hlock
      cases hlock
    unfold Locked
    simp only [List.mem_cons, exists_eq_or_imp, hno true, hno f.reached, false_or]

/-- The command processor reaches a flip with a label: its buffer is locked. -/
theorem reached {f : Flip} {j : Slot} {k : Nat} (h : SlotInv i v (f :: fs)) (hlock : f.pf.lock = some (j, k))
    (hreg : v.bufferSet k ≠ none → v.registration k = f.registration) :
    SlotInv i (v.setLabel k 1) ({ f with reached := true } :: fs) := by
  have hf := h.known f (.inl (List.mem_cons_self ..))
  obtain ⟨-, hgpu, hindex⟩ := hf.lock j k hlock
  refine ⟨h.pending, h.gpuPending, h.prev, fun g hg => ?_, fun k' hk' ls hls => ?_⟩
  · have hknown : g.Known i v := by
      rcases hg with hg | hg
      · rcases List.mem_cons.1 hg with rfl | hg
        · exact ⟨hf.handle, hf.lock, hf.registration, hf.locked⟩
        · exact h.known g (.inl (List.mem_cons_of_mem _ hg))
      · exact h.known g (.inr hg)
    refine ⟨hknown.handle, hknown.lock, hknown.registration, fun k hgpu hk => ⟨?_, (hknown.locked k hgpu hk).2⟩⟩
    show (v.labels.map _).isSome = true
    rw [Option.isSome_map]
    exact (hknown.locked k hgpu hk).1
  · obtain ⟨old, hold, rfl⟩ := Option.map_eq_some_iff.1 hls
    by_cases hk : k' = k
    · subst hk
      have hlocks : Flip.Locks { f with reached := true } v k' :=
        ⟨hf.handle, hgpu, hindex, (hreg hk').symm, rfl⟩
      exact ⟨fun _ => Function.update_self .., fun hno => absurd (.inl ⟨_, List.mem_cons_self .., hlocks⟩) hno⟩
    · refine (h.label k' hk' old hold).congr ?_ (Function.update_of_ne hk ..)
      have hno : ∀ reached, ¬Flip.Locks { f with reached } v k' := by
        intro reached hlocks
        have heq := hlocks.2.2.1
        rw [show Flip.pf { f with reached } = f.pf from rfl, hindex] at heq
        cases heq
        exact hk rfl
      show Locked _ v k' ↔ _
      unfold Locked
      simp only [List.mem_cons, exists_eq_or_imp, hno true, hno f.reached, false_or]

/-- A flip completes: the buffer flipped before it is not locked any more. -/
theorem finished {f : Flip} (h : SlotInv i v (f :: fs)) (hreached : f.reached = true)
    (hprev : ∀ k, v.prevIndex = some k → v.bufferSet k ≠ none → ∀ g ∈ f :: fs, ¬g.Locks v k) :
    SlotInv i (v.finished f) fs := by
  have hparts : (v.finished f).handle = v.handle ∧ (v.finished f).registration = v.registration ∧
      (v.finished f).bufferSet = v.bufferSet ∧ (v.finished f).flipStatus.numFlipPending =
        v.flipStatus.numFlipPending - 1 ∧ (v.finished f).flipStatus.numGpuFlipPending =
        v.flipStatus.numGpuFlipPending - 1 ∧ (v.finished f).labels.isSome = v.labels.isSome := by
    unfold VideoOutHandle.finished VideoOutHandle.setLabel
    cases v.prevIndex with
    | none => exact ⟨rfl, rfl, rfl, rfl, rfl, rfl⟩
    | some k => exact ⟨rfl, rfl, rfl, rfl, rfl, Option.isSome_map⟩
  obtain ⟨hhandle, hreg, hset, hpending, hgpuPending, hlabels⟩ := hparts
  have hlocks : ∀ (g : Flip) k, g.Locks (v.finished f) k ↔ g.Locks v k := by
    intro g k
    unfold Flip.Locks
    rw [hhandle, hreg]
  refine ⟨?_, ?_, rfl, fun g hg => ?_, fun k hk ls hls => ?_⟩
  · rw [hpending, h.pending, List.length_cons, Nat.add_sub_cancel]
  · rw [hgpuPending, h.gpuPending, List.length_cons, Nat.add_sub_cancel]
  · have hknown : g.Known i v := by
      rcases hg with hg | hg
      · exact h.known g (.inl (List.mem_cons_of_mem _ hg))
      · cases hg
        exact h.known f (.inl (List.mem_cons_self ..))
    refine ⟨hknown.handle.trans hhandle.symm, hknown.lock, ?_, ?_⟩
    · rw [hreg]
      exact hknown.registration
    · rw [hlabels]
      exact hknown.locked
  · rw [hset] at hk
    have hlocked : Locked fs (v.finished f) k ↔ ∃ g ∈ f :: fs, g.Locks v k := by
      constructor
      · rintro (⟨g, hg, hl⟩ | ⟨g, hg, hl⟩)
        · exact ⟨g, List.mem_cons_of_mem _ hg, (hlocks g k).1 hl⟩
        · cases hg
          exact ⟨f, List.mem_cons_self .., (hlocks f k).1 hl⟩
      · rintro ⟨g, hg, hl⟩
        rcases List.mem_cons.1 hg with rfl | hg
        · exact .inr ⟨g, rfl, (hlocks g k).2 hl⟩
        · exact .inl ⟨g, hg, (hlocks g k).2 hl⟩
    by_cases hp : v.prevIndex = some k
    · refine labelOk_of_not_locked ?_ ?_
      · rw [hlocked]
        rintro ⟨g, hg, hl⟩
        exact hprev k hp hk g hg hl
      · have hls : v.labels.map (fun ls => Function.update ls k 0) = some ls := by
          rw [← hls, VideoOutHandle.finished, hp]
          rfl
        obtain ⟨old, -, rfl⟩ := Option.map_eq_some_iff.1 hls
        exact Function.update_self ..
    · have hold : ∃ old, v.labels = some old ∧ ls k = old k := by
        unfold VideoOutHandle.finished at hls
        cases hprevIndex : v.prevIndex with
        | none =>
            rw [hprevIndex] at hls
            exact ⟨ls, hls, rfl⟩
        | some k' =>
            rw [hprevIndex] at hls hp
            obtain ⟨old, hold, rfl⟩ := Option.map_eq_some_iff.1 hls
            refine ⟨old, hold, Function.update_of_ne ?_ ..⟩
            rintro rfl
            exact hp rfl
      obtain ⟨old, hold, heq⟩ := hold
      refine (h.label k hk old hold).congr ?_ heq
      rw [hlocked]
      constructor
      · exact fun hin => .inl hin
      · rintro (hin | ⟨g, hlast, hl⟩)
        · exact hin
        · -- the flip that completed before this one was of another buffer
          refine absurd ?_ hp
          rw [h.prev, hlast]
          exact hl.2.2.1

end SlotInv

/-! ### The table -/

theorem findVideoHandle_eq_some {s : VideoOut} {handle : Int} {i : Slot}
    (h : s.findVideoHandle handle = some i) : 0 < handle ∧ s.Open i ∧ (s.slots i).handle = handle := by
  unfold VideoOut.findVideoHandle at h
  split at h
  · cases h
  · rename_i hpos
    have hfound := List.find?_some h
    rw [Bool.and_eq_true, decide_eq_true_iff] at hfound
    exact ⟨by omega, hfound.1, hfound.2⟩

theorem findVideoHandle_eq_none {s : VideoOut} {handle : Int} (h : s.findVideoHandle handle = none)
    (hpos : 0 < handle) (i : Slot) (hopen : s.Open i) : (s.slots i).handle ≠ handle := by
  unfold VideoOut.findVideoHandle at h
  rw [if_neg (by omega), List.find?_eq_none] at h
  intro heq
  refine h i (List.mem_finRange i) ?_
  rw [Bool.and_eq_true, decide_eq_true_iff]
  exact ⟨hopen, heq⟩

/-- The flips in flight of a handle. -/
def VideoOut.flipsOf (s : VideoOut) (handle : Int) : List Flip := s.inFlight.filter (Flip.isOf handle)

structure Inv (s : VideoOut) : Prop where
  handles : ∀ i, s.Open i → 0 < (s.slots i).handle ∧ (s.slots i).handle < s.nextVideoHandle
  unique : ∀ i j, s.Open i → s.Open j → (s.slots i).handle = (s.slots j).handle → i = j
  flights : ∀ f ∈ s.inFlight, 0 < f.pf.handle ∧ f.pf.handle < s.nextVideoHandle
  next : 0 < s.nextVideoHandle
  slot : ∀ i, s.Open i → SlotInv i (s.slots i) (s.flipsOf (s.slots i).handle)

namespace Inv

variable {s : VideoOut}

theorem find_open (h : Inv s) {i : Slot} (hopen : s.Open i) :
    s.findVideoHandle (s.slots i).handle = some i := by
  cases hfind : s.findVideoHandle (s.slots i).handle with
  | none => exact absurd rfl (findVideoHandle_eq_none hfind (h.handles i hopen).1 i hopen)
  | some j =>
      obtain ⟨-, hj, heq⟩ := findVideoHandle_eq_some hfind
      exact congrArg some (h.unique j i hj hopen heq)

/-- A slot in use changes, and the flips of its handle; those of the others stay. -/
theorem update (h : Inv s) {i : Slot} (hopen : s.Open i) {v : VideoOutHandle} {fs : List Flip}
    (huse : v.inUse = true) (hhandle : v.handle = (s.slots i).handle)
    (hslot : SlotInv i v (fs.filter (Flip.isOf (s.slots i).handle)))
    (hothers : ∀ handle, handle ≠ (s.slots i).handle → (s.flipsOf handle).Perm (fs.filter (Flip.isOf handle)))
    (hflights : ∀ f ∈ fs, 0 < f.pf.handle ∧ f.pf.handle < s.nextVideoHandle) :
    Inv { s.setSlot i v with inFlight := fs } := by
  have hself : ({ s.setSlot i v with inFlight := fs } : VideoOut).slots i = v := Function.update_self ..
  have hne : ∀ j, j ≠ i → ({ s.setSlot i v with inFlight := fs } : VideoOut).slots j = s.slots j :=
    fun j hj => Function.update_of_ne hj ..
  have hview : ∀ j, ((({ s.setSlot i v with inFlight := fs } : VideoOut).slots j).inUse = true → s.Open j) ∧
      (({ s.setSlot i v with inFlight := fs } : VideoOut).slots j).handle = (s.slots j).handle := by
    intro j
    by_cases hj : j = i
    · subst hj
      rw [hself]
      exact ⟨fun _ => hopen, hhandle⟩
    · rw [hne j hj]
      exact ⟨fun hj => hj, rfl⟩
  refine ⟨fun j hj => ?_, fun j k hj hk heq => ?_, hflights, h.next, fun j hj => ?_⟩
  · rw [(hview j).2]
    exact h.handles j ((hview j).1 hj)
  · rw [(hview j).2, (hview k).2] at heq
    exact h.unique j k ((hview j).1 hj) ((hview k).1 hk) heq
  · rw [(hview j).2]
    by_cases hji : j = i
    · subst hji
      rw [hself]
      exact hslot
    · rw [hne j hji]
      have hjopen := (hview j).1 hj
      have hdiff : (s.slots j).handle ≠ (s.slots i).handle := fun heq => hji (h.unique j i hjopen hopen heq)
      exact (h.slot j hjopen).perm (hothers _ hdiff)

theorem setSlot (h : Inv s) {i : Slot} (hopen : s.Open i) {v : VideoOutHandle} (huse : v.inUse = true)
    (hhandle : v.handle = (s.slots i).handle) (hslot : SlotInv i v (s.flipsOf (s.slots i).handle)) :
    Inv (s.setSlot i v) :=
  h.update hopen huse hhandle (show SlotInv i v (s.inFlight.filter _) from hslot) (fun _ _ => .refl _) h.flights

theorem setUnused (h : Inv s) {i : Slot} (hunused : (s.slots i).inUse = false) {v : VideoOutHandle}
    (huse : v.inUse = false) : Inv (s.setSlot i v) := by
  have hview : ∀ j, (s.setSlot i v).Open j → s.Open j ∧ (s.setSlot i v).slots j = s.slots j := by
    intro j hj
    by_cases hji : j = i
    · subst hji
      have huse' : ((s.setSlot j v).slots j).inUse = true := hj
      rw [show (s.setSlot j v).slots j = v from Function.update_self .., huse] at huse'
      cases huse'
    · have heq : (s.setSlot i v).slots j = s.slots j := Function.update_of_ne hji ..
      have huse' : ((s.setSlot i v).slots j).inUse = true := hj
      rw [heq] at huse'
      exact ⟨huse', heq⟩
  refine ⟨fun j hj => ?_, fun j k hj hk heq => ?_, h.flights, h.next, fun j hj => ?_⟩
  · rw [(hview j hj).2]
    exact h.handles j (hview j hj).1
  · rw [(hview j hj).2, (hview k hk).2] at heq
    exact h.unique j k (hview j hj).1 (hview k hk).1 heq
  · rw [(hview j hj).2]
    exact h.slot j (hview j hj).1

theorem close (h : Inv s) (handle : Int) : Inv (s.sceVideoOutClose handle).1 := by
  unfold VideoOut.sceVideoOutClose
  split
  · exact h
  · rename_i i _
    have hview : ∀ j, (s.setSlot i { s.slots i with inUse := false }).Open j →
        s.Open j ∧ (s.setSlot i { s.slots i with inUse := false }).slots j = s.slots j := by
      intro j hj
      have huse : ((s.setSlot i { s.slots i with inUse := false }).slots j).inUse = true := hj
      by_cases hji : j = i
      · subst hji
        rw [show (s.setSlot j { s.slots j with inUse := false }).slots j = { s.slots j with inUse := false } from
          Function.update_self ..] at huse
        cases huse
      · have heq : (s.setSlot i { s.slots i with inUse := false }).slots j = s.slots j :=
          Function.update_of_ne hji ..
        rw [heq] at huse
        exact ⟨huse, heq⟩
    refine ⟨fun j hj => ?_, fun j k hj hk heq => ?_, h.flights, h.next, fun j hj => ?_⟩
    · rw [(hview j hj).2]
      exact h.handles j (hview j hj).1
    · rw [(hview j hj).2, (hview k hk).2] at heq
      exact h.unique j k (hview j hj).1 (hview k hk).1 heq
    · rw [(hview j hj).2]
      exact h.slot j (hview j hj).1

/-- A handle is opened in a slot that is not in use: no flip has its number. -/
theorem openHandle (h : Inv s) : Inv s.sceVideoOutOpen.1 := by
  unfold VideoOut.sceVideoOutOpen
  split
  · exact h
  · rename_i i hfind
    have hunused : (s.slots i).inUse = false := by
      have hfound := List.find?_some hfind
      rwa [Bool.not_eq_true'] at hfound
    let s' : VideoOut :=
      { s.setSlot i ((s.slots i).opened s.nextVideoHandle) with nextVideoHandle := s.nextVideoHandle + 1 }
    have hself : s'.slots i = (s.slots i).opened s.nextVideoHandle := Function.update_self ..
    have hother : ∀ j, j ≠ i → s'.slots j = s.slots j := fun j hj => Function.update_of_ne hj ..
    have hold : ∀ j, j ≠ i → s'.Open j → s.Open j := by
      intro j hj hopen
      have huse : (s'.slots j).inUse = true := hopen
      rwa [hother j hj] at huse
    have hnone : s.flipsOf s.nextVideoHandle = [] := by
      rw [VideoOut.flipsOf, List.filter_eq_nil_iff]
      intro f hf
      have hlt := (h.flights f hf).2
      rw [Flip.isOf, decide_eq_true_iff]
      omega
    show Inv s'
    refine ⟨fun j hj => ?_, fun j k hj hk heq => ?_, fun f hf => ?_, ?_, fun j hj => ?_⟩
    · by_cases hji : j = i
      · subst hji
        rw [hself]
        exact ⟨h.next, Int.lt_succ _⟩
      · have hlt := h.handles j (hold j hji hj)
        rw [hother j hji]
        exact ⟨hlt.1, Int.lt_trans hlt.2 (Int.lt_succ _)⟩
    · by_cases hji : j = i
      · by_cases hki : k = i
        · exact hji.trans hki.symm
        · subst hji
          rw [hself, hother k hki] at heq
          have hlt := (h.handles k (hold k hki hk)).2
          rw [← heq] at hlt
          exact absurd hlt (Int.lt_irrefl _)
      · by_cases hki : k = i
        · subst hki
          rw [hself, hother j hji] at heq
          have hlt := (h.handles j (hold j hji hj)).2
          rw [heq] at hlt
          exact absurd hlt (Int.lt_irrefl _)
        · rw [hother j hji, hother k hki] at heq
          exact h.unique j k (hold j hji hj) (hold k hki hk) heq
    · have hlt := h.flights f hf
      exact ⟨hlt.1, Int.lt_trans hlt.2 (Int.lt_succ _)⟩
    · exact Int.lt_trans h.next (Int.lt_succ _)
    · by_cases hji : j = i
      · subst hji
        rw [hself]
        show SlotInv j _ (s.flipsOf s.nextVideoHandle)
        rw [hnone]
        exact .opened j _ _
      · rw [hother j hji]
        exact h.slot j (hold j hji hj)

theorem register (h : Inv s) (handle startIndex : Int) (bufferArray : Option (Nat → Nat)) (bufferCount : Int)
    (attr : Option BufferAttribute) :
    Inv (s.sceVideoOutRegisterBuffers handle startIndex bufferArray bufferCount attr).1 := by
  unfold VideoOut.sceVideoOutRegisterBuffers
  split
  · split
    · exact h
    · rename_i i hfind
      obtain ⟨-, hopen, -⟩ := findVideoHandle_eq_some hfind
      split
      · exact h
      · exact h.setSlot hopen hopen rfl ((h.slot i hopen).registered _ _ _ _)
  · exact h

theorem unregister (h : Inv s) (handle setIndex : Int) : Inv (s.sceVideoOutUnregisterBuffers handle setIndex).1 := by
  unfold VideoOut.sceVideoOutUnregisterBuffers
  split
  · exact h
  · rename_i i hfind
    obtain ⟨-, hopen, -⟩ := findVideoHandle_eq_some hfind
    split
    · exact h
    · exact h.setSlot hopen hopen rfl ((h.slot i hopen).unregistered _)

theorem labelAddress (h : Inv s) (handle : Int) (labelAddr ctx alloc : Bool) :
    Inv (s.sceVideoOutGetBufferLabelAddress handle labelAddr ctx alloc).1 := by
  unfold VideoOut.sceVideoOutGetBufferLabelAddress
  split
  · exact h
  · split
    · exact h
    · rename_i i hfind
      obtain ⟨-, hopen, -⟩ := findVideoHandle_eq_some hfind
      obtain ⟨huse, hhandle⟩ := flipLabels_parts (s.slots i) ctx alloc
      exact h.setSlot hopen (huse.trans hopen) hhandle ((h.slot i hopen).flipLabels ctx alloc)

theorem submitFlip (h : Inv s) (handle bufferIndex flipArg : Int) (gpuFlip ctx alloc : Bool)
    (hok : FlipOk s (.submitFlip handle bufferIndex flipArg gpuFlip ctx alloc)) :
    Inv (s.ps4_videoout_submit_flip handle bufferIndex flipArg gpuFlip ctx alloc).1 := by
  unfold VideoOut.ps4_videoout_submit_flip
  split
  · exact h
  · rename_i i hfind
    obtain ⟨hpos, hopen, hhandle⟩ := findVideoHandle_eq_some hfind
    split
    · exact h
    · dsimp only
      generalize hindex : (if 0 ≤ bufferIndex then some bufferIndex.toNat else none) = index
      have halloc : gpuFlip = true → index.isSome = true →
          (s.slots i).labels.isSome = true ∨ (ctx && alloc) = true := by
        intro hgpu hsome
        refine hok hgpu ?_ i hfind
        rintro rfl
        rw [if_neg (by decide)] at hindex
        rw [← hindex] at hsome
        cases hsome
      obtain ⟨huse, hsame, hflip⟩ := accept_parts (s.slots i) i index flipArg gpuFlip ctx alloc
      have hslot := (h.slot i hopen).accept index flipArg gpuFlip ctx alloc halloc
      refine h.update hopen (huse.trans hopen) hsame ?_ (fun handle' hne => ?_) (fun f hf => ?_)
      · refine hslot.perm ?_
        rw [List.filter_append, List.filter_cons, if_pos (by rw [Flip.isOf, hflip, decide_eq_true rfl])]
        exact (List.perm_append_singleton _ _).symm
      · rw [List.filter_append, List.filter_cons, if_neg, List.filter_nil, List.append_nil]
        · exact .refl _
        · rw [Flip.isOf, hflip, decide_eq_true_iff]
          exact fun heq => hne heq.symm
      · rcases List.mem_append.1 hf with hf | hf
        · exact h.flights f hf
        · rw [List.mem_singleton.1 hf, hflip]
          exact h.handles i hopen

theorem flight_perm {n : Nat} {f : Flip} (hf : s.inFlight[n]? = some f) :
    s.inFlight.Perm (f :: s.inFlight.eraseIdx n) ∧
      ∀ g, (s.inFlight.set n g).Perm (g :: s.inFlight.eraseIdx n) := by
  obtain ⟨hn, rfl⟩ := List.getElem?_eq_some_iff.1 hf
  exact ⟨(List.getElem_cons_eraseIdx_perm hn).symm, fun g => List.set_perm_cons_eraseIdx hn g⟩

/-- The flips of a handle that a flip in flight is not of. -/
theorem flipsOf_perm {n : Nat} {f : Flip} (hf : s.inFlight[n]? = some f) (handle : Int) :
    (f.pf.handle ≠ handle → (s.flipsOf handle).Perm ((s.inFlight.eraseIdx n).filter (Flip.isOf handle))) ∧
      (f.pf.handle = handle →
        (s.flipsOf handle).Perm (f :: (s.inFlight.eraseIdx n).filter (Flip.isOf handle))) := by
  have hperm := (flight_perm hf).1.filter (Flip.isOf handle)
  rw [List.filter_cons] at hperm
  constructor
  · intro hne
    rwa [if_neg (by rw [Flip.isOf, decide_eq_true_iff]; exact hne)] at hperm
  · intro heq
    rwa [if_pos (by rw [Flip.isOf, decide_eq_true_iff]; exact heq)] at hperm

theorem reach (h : Inv s) {n : Nat} (hok : FlipOk s (.reach n)) {s' : VideoOut} (hs : s.reach n = some s') :
    Inv s' := by
  obtain ⟨f, hf, rfl⟩ := Option.map_eq_some_iff.1 hs
  have hmem : f ∈ s.inFlight := List.mem_of_getElem? hf
  have hfilter : ∀ handle, ((s.inFlight.set n { f with reached := true }).filter (Flip.isOf handle)).Perm
      (({ f with reached := true } :: s.inFlight.eraseIdx n).filter (Flip.isOf handle)) :=
    fun handle => ((flight_perm hf).2 _).filter _
  have hflights : ∀ g ∈ s.inFlight.set n { f with reached := true },
      0 < g.pf.handle ∧ g.pf.handle < s.nextVideoHandle := by
    intro g hg
    rcases List.mem_or_eq_of_mem_set hg with hg | rfl
    · exact h.flights g hg
    · exact h.flights f hmem
  -- the flips of the other handles stay
  have hothers : ∀ handle, f.pf.handle ≠ handle → (s.flipsOf handle).Perm
      ((s.inFlight.set n { f with reached := true }).filter (Flip.isOf handle)) := by
    intro handle hne
    refine ((flipsOf_perm hf handle).1 hne).trans ((hfilter handle).trans ?_).symm
    rw [List.filter_cons, if_neg (by rw [Flip.isOf, decide_eq_true_iff]; exact hne)]
  have hmine : ∀ i, s.Open i → (s.slots i).handle = f.pf.handle → ∀ v, v.inUse = true →
      v.handle = (s.slots i).handle →
      SlotInv i v ({ f with reached := true } ::
        (s.inFlight.eraseIdx n).filter (Flip.isOf (s.slots i).handle)) →
      Inv { s.setSlot i v with inFlight := s.inFlight.set n { f with reached := true } } := by
    intro i hopen heq v huse hhandle hslot
    refine h.update hopen huse hhandle (hslot.perm ?_) (fun handle hne => ?_) hflights
    · refine ((hfilter _).trans ?_).symm
      rw [List.filter_cons, if_pos (by rw [Flip.isOf, decide_eq_true_iff]; exact heq.symm)]
    · exact hothers handle fun hsame => hne (hsame.symm.trans heq.symm)
  have hstays : ∀ i, s.Open i → (s.slots i).handle ≠ f.pf.handle → (s.flipsOf (s.slots i).handle).Perm
      ((s.inFlight.set n { f with reached := true }).filter (Flip.isOf (s.slots i).handle)) :=
    fun i _ hne => hothers _ hne.symm
  cases hfind : s.findVideoHandle f.pf.handle with
  | none =>
      -- the handle is closed, so the slot of its label is not in use
      have hclosed := findVideoHandle_eq_none hfind (h.flights f hmem).1
      have hbase : Inv { s with inFlight := s.inFlight.set n { f with reached := true } } :=
        ⟨h.handles, h.unique, hflights, h.next,
          fun i hopen => (h.slot i hopen).perm (hstays i hopen (hclosed i hopen))⟩
      unfold VideoOut.lock_flip_label
      split
      · rename_i j k hlock
        have hunused : (s.slots j).inUse = false := by
          by_contra huse
          rw [Bool.not_eq_false] at huse
          exact hclosed j huse (hok f hf (j, k) hlock huse).1
        exact hbase.setUnused hunused (v := (s.slots j).setLabel k 1) hunused
      · exact hbase
  | some i =>
      obtain ⟨-, hopen, heq⟩ := findVideoHandle_eq_some hfind
      have hslot := (h.slot i hopen).perm ((flipsOf_perm hf _).2 heq.symm)
      unfold VideoOut.lock_flip_label
      split
      · rename_i j k hlock
        obtain ⟨rfl, -, -⟩ := (hslot.known f (.inl (List.mem_cons_self ..))).lock j k hlock
        exact hmine j hopen heq _ hopen rfl (hslot.reached hlock (hok f hf (j, k) hlock hopen).2)
      · rename_i hlock
        have hsame := hmine i hopen heq (s.slots i) hopen rfl (hslot.reached_no_lock hlock)
        rwa [VideoOut.setSlot, Function.update_eq_self] at hsame

theorem complete (h : Inv s) {n : Nat} (hok : FlipOk s (.complete n)) {s' : VideoOut}
    (hs : s.complete n = some s') : Inv s' := by
  unfold VideoOut.complete at hs
  split at hs
  · rename_i f hf
    have hmem : f ∈ s.inFlight := List.mem_of_getElem? hf
    split at hs
    · rename_i hreached
      cases hs
      have hflights : ∀ g ∈ s.inFlight.eraseIdx n, 0 < g.pf.handle ∧ g.pf.handle < s.nextVideoHandle :=
        fun g hg => h.flights g (List.mem_of_mem_eraseIdx hg)
      unfold VideoOut.finish_flip
      split
      · rename_i i hfind
        obtain ⟨-, hopen, heq⟩ := findVideoHandle_eq_some hfind
        have hperm := (flipsOf_perm hf (s.slots i).handle).2 heq.symm
        have hslot := (h.slot i hopen).perm hperm
        obtain ⟨huse, hhandle⟩ := finished_parts (s.slots i) f
        refine h.update hopen (huse.trans hopen) hhandle (hslot.finished hreached ?_) (fun handle hne => ?_)
          hflights
        · intro k hprev hset g hg
          refine hok f hf i hfind k hprev hset g ?_
          exact (List.mem_filter.1 (hperm.mem_iff.2 hg)).1
        · exact (flipsOf_perm hf handle).1 fun hsame => hne (hsame.symm.trans heq.symm)
      · rename_i hfind
        have hclosed := findVideoHandle_eq_none hfind (h.flights f hmem).1
        exact ⟨h.handles, h.unique, hflights, h.next, fun i hopen =>
          (h.slot i hopen).perm ((flipsOf_perm hf _).1 (hclosed i hopen).symm)⟩
    · cases hs
  · cases hs

theorem exec (h : Inv s) {a : Call} (hok : FlipOk s a) {s' : VideoOut} (hs : s.exec a = some s') : Inv s' := by
  cases a with
  | openHandle => cases hs; exact h.openHandle
  | close handle => cases hs; exact h.close handle
  | register handle startIndex bufferArray bufferCount attr => cases hs; exact h.register ..
  | unregister handle setIndex => cases hs; exact h.unregister ..
  | labelAddress handle labelAddr ctx alloc => cases hs; exact h.labelAddress ..
  | submitFlip handle bufferIndex flipArg gpuFlip ctx alloc => cases hs; exact h.submitFlip _ _ _ _ _ _ hok
  | reach n => exact h.reach hok hs
  | complete n => exact h.complete hok hs

/-- A step of a closed handle's flip changes no slot in use. -/
theorem closed (h : Inv s) {a : Call} (hclosed : OfClosed s a) (hok : FlipOk s a) {s' : VideoOut}
    (hs : s.exec a = some s') {i : Slot} (hopen : s.Open i) : s'.slots i = s.slots i := by
  cases a with
  | openHandle => cases hclosed
  | close _ => cases hclosed
  | register _ _ _ _ _ => cases hclosed
  | unregister _ _ => cases hclosed
  | labelAddress _ _ _ _ => cases hclosed
  | submitFlip _ _ _ _ _ _ => cases hclosed
  | reach n =>
      obtain ⟨f, hf, rfl⟩ := Option.map_eq_some_iff.1 hs
      have hfind := hclosed f hf
      show (s.lock_flip_label f.pf).slots i = s.slots i
      unfold VideoOut.lock_flip_label
      split
      · rename_i j k hlock
        refine Function.update_of_ne ?_ ..
        rintro rfl
        exact findVideoHandle_eq_none hfind (h.flights f (List.mem_of_getElem? hf)).1 i hopen
          (hok f hf (i, k) hlock hopen).1
      · rfl
  | complete n =>
      have hs : s.complete n = some s' := hs
      unfold VideoOut.complete at hs
      split at hs
      · rename_i f hf
        split at hs
        · cases hs
          show (s.finish_flip f).slots i = s.slots i
          rw [VideoOut.finish_flip, hclosed f hf]
        · cases hs
      · cases hs

end Inv

theorem inv_init : Inv {} where
  handles i hopen := nomatch hopen
  unique i j hopen := nomatch hopen
  flights f hf := nomatch hf
  next := by decide
  slot i hopen := nomatch hopen

/-- The flips that count for a lock are those of the handle. -/
theorem locked_flipsOf (s : VideoOut) (v : VideoOutHandle) (k : Nat) :
    Locked (s.flipsOf v.handle) v k ↔ Locked s.inFlight v k := by
  unfold Locked
  refine or_congr ?_ Iff.rfl
  constructor
  · rintro ⟨f, hf, hlocks⟩
    exact ⟨f, (List.mem_filter.1 hf).1, hlocks⟩
  · rintro ⟨f, hf, hlocks⟩
    exact ⟨f, List.mem_filter.2 ⟨hf, decide_eq_true hlocks.1⟩, hlocks⟩

/-- The flips of a handle are all GPU flips if and only if they are as many. -/
theorem countP_gpu (handle : Int) (fs : List Flip) :
    fs.countP (Flip.isOf handle) = fs.countP (Flip.isGpuOf handle) ↔
      ∀ f ∈ fs, f.pf.handle = handle → f.gpu = true := by
  have hgpu : fs.countP (Flip.isGpuOf handle) = (fs.filter (Flip.isOf handle)).countP fun f => f.gpu := by
    rw [List.countP_filter]
    refine List.countP_congr fun f _ => ?_
    rw [Flip.isGpuOf, Bool.and_comm]
  rw [List.countP_eq_length_filter, hgpu, eq_comm, List.countP_eq_length]
  constructor
  · intro h f hf heq
    exact h f (List.mem_filter.2 ⟨hf, decide_eq_true heq⟩)
  · intro h f hf
    obtain ⟨hf, heq⟩ := List.mem_filter.1 hf
    exact h f hf (of_decide_eq_true heq)

theorem kept_of_inv {s : VideoOut} (h : Inv s) : FlipsKept s where
  pending i hopen := by
    rw [VideoOut.sceVideoOutIsFlipPending, h.find_open hopen]
    show (s.slots i).flipStatus.numFlipPending = _
    rw [(h.slot i hopen).pending, VideoOut.flipsOf, List.countP_eq_length_filter]
  gpuPending i hopen status hstatus := by
    rw [VideoOut.sceVideoOutGetFlipStatus, h.find_open hopen] at hstatus
    cases hstatus
    rw [(h.slot i hopen).gpuPending, VideoOut.flipsOf, ← List.countP_eq_length_filter]
    exact countP_gpu _ _
  label i hopen k hset ls hls := by
    have hlabel := (h.slot i hopen).label k hset ls hls
    rwa [LabelOk, locked_flipsOf] at hlabel
  closed a s' hclosed hok hs i hopen := h.closed hclosed hok hs hopen

/-- **In every run whose steps meet the condition labels and counters are kept.** -/
theorem flips_kept {s : VideoOut} (h : Reachable (videoSystem.restrict FlipOk) s) : FlipsKept s := by
  refine kept_of_inv (h.invariant (P := Inv) ?_ ?_)
  · intro s hs
    rw [show s = {} from hs]
    exact inv_init
  · intro s a s' _ hinv hs
    exact hinv.exec hs.1 hs.2

/-- Two buffers, each flipped from the GPU stream, and a blank frame between them. -/
def twoBuffersRun : List Call :=
  [.openHandle, .register 1 0 (some fun k => 0x1000 + k) 2 (some {}), .submitFlip 1 0 7 true true true,
    .submitFlip 1 (-1) 8 false true true, .reach 0, .reach 1, .complete 1, .complete 0,
    .submitFlip 1 1 9 true true true, .reach 0]

theorem flips_kept_twoBuffersRun : ∃ s : VideoOut,
    (s.sceVideoOutIsFlipPending 1 = 1 ∧ ((s.slots 0).labels.map fun ls => (ls 0, ls 1)) = some (1, 1)) ∧
      FlipsKept s := by
  have hlast : (execAll (guarded FlipOk VideoOut.exec) {} twoBuffersRun).map
      (fun s => (s.sceVideoOutIsFlipPending 1, (s.slots 0).labels.map fun ls => (ls 0, ls 1))) =
      some (1, some (1, 1)) := by decide +kernel
  obtain ⟨s, hs, hview⟩ := Option.map_eq_some_iff.1 hlast
  have hreach : Reachable (videoSystem.restrict FlipOk) s :=
    Reachable.guarded (fun _ _ _ hstep => hstep) twoBuffersRun (.init rfl) hs
  exact ⟨s, Prod.mk.inj hview, flips_kept hreach⟩

/-- A buffer is flipped twice; the second flip is reached before the first one's successor completes. -/
def flippedTwiceRun : List Call :=
  [.openHandle, .register 1 0 (some fun k => 0x1000 + k) 2 (some {}), .submitFlip 1 0 7 true true true,
    .submitFlip 1 0 8 true true true, .reach 0, .complete 0, .reach 0, .complete 0]

/-- **A buffer flipped twice is not locked** after its second flip has completed. -/
theorem flipped_twice_unlocked : ∃ s, Reachable videoSystem s ∧ ¬FlipsKept s := by
  have hlast : (execAll VideoOut.exec {} flippedTwiceRun).map (fun s => (((s.slots 0).inUse,
      (s.slots 0).bufferSet 0, (s.slots 0).labels.map fun ls => ls 0), ((s.slots 0).last.map fun f =>
        decide (f.Locks (s.slots 0) 0)))) = some ((true, some 0, some 0), some true) := by decide +kernel
  obtain ⟨s, hs, hview⟩ := Option.map_eq_some_iff.1 hlast
  refine ⟨s, Reachable.execAll (fun _ _ _ hstep => hstep) flippedTwiceRun (.init rfl) hs, fun h => ?_⟩
  obtain ⟨hslot, hlast⟩ := Prod.mk.inj hview
  obtain ⟨huse, hslot⟩ := Prod.mk.inj hslot
  obtain ⟨hset, hlabels⟩ := Prod.mk.inj hslot
  obtain ⟨ls, hls, hzero⟩ := Option.map_eq_some_iff.1 hlabels
  obtain ⟨f, hf, hlocks⟩ := Option.map_eq_some_iff.1 hlast
  have hone := (h.label 0 huse 0 (by rw [hset]; exact nofun) ls hls).1 (.inr ⟨f, hf, of_decide_eq_true hlocks⟩)
  rw [hzero] at hone
  cases hone

end PS4Recomp.Runtime.VideoOut
