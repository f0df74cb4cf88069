import PS4Recomp.Disasm.JumpTable
import PS4Recomp.Disasm.BlockPartition
import PS4Recomp.Library.Worklist

/-!
# The worklist ends

The three loops of `disasmBranchFollowing` feed one another: a run queues targets, an accepted table
queues more, and a run may note another table.

* `work` — the addresses of the image never queued, and with the queue what the worklist can still
  pop;
* `work_enqueueBlock`, `work_decodeRun` — queueing an address moves it from one part to the other,
  so nothing but a pop changes the sum;
* `decodeRun_some`, `drainQueue_some`, `rounds_some` — a run ends before the end of the image, each
  pop lowers the sum, and a round that leaves a table behind has popped a run;
* `decodeRun_succ`, `drainQueue_succ`, `rounds_succ` — more fuel changes no result;
* **`walk_terminates`** — every walk ends, within a number of steps linear in the image.

The searches in the predecessor blocks are part of `resolveJumpTable`; `findTableAddr`, `findCount`
and `findCap` are structural on their 256 levels, and a level goes through a finite queue.
-/

namespace PS4Recomp.Disasm

open X86 Library

variable {d : Disassembler} {entryAddr fnEnd : Addr}

/-! ### what is left to pop -/

/-- The addresses of the image. -/
def Disassembler.imageAddrs (d : Disassembler) : Finset Addr :=
  (Finset.range d.image.length).image (BitVec.ofNat 64)

theorem mem_imageAddrs {a : Addr} : a ∈ d.imageAddrs ↔ a.toNat < d.image.length := by
  have himage := d.image_length
  simp only [Disassembler.imageAddrs, Finset.mem_image, Finset.mem_range]
  constructor
  · rintro ⟨n, hn, rfl⟩
    rw [BitVec.toNat_ofNat]
    omega
  · intro ha
    exact ⟨a.toNat, ha, by rw [BitVec.ofNat_toNat, BitVec.setWidth_eq]⟩

theorem card_imageAddrs (d : Disassembler) : d.imageAddrs.card ≤ d.image.length := by
  calc d.imageAddrs.card ≤ (Finset.range d.image.length).card := Finset.card_image_le
    _ = d.image.length := Finset.card_range _

theorem inCode_mem {pendingData : List (Addr × Addr)} {a : Addr} (h : d.inCode pendingData a = true) :
    a ∈ d.imageAddrs := by
  simp only [Disassembler.inCode, Bool.and_eq_true, decide_eq_true_eq] at h
  exact mem_imageAddrs.2 h.1.1

/-- What the worklist can still pop: the queue, and what may yet be queued. -/
def Disassembler.work (d : Disassembler) (w : Walk) : ℕ :=
  (Worklist.unvisited d.imageAddrs w.visited).card + w.queue.length

theorem work_congr {w w' : Walk} (hv : w'.visited = w.visited) (hq : w'.queue = w.queue) :
    d.work w' = d.work w := by
  simp only [Disassembler.work, hv, hq]

theorem work_enqueueBlock (w : Walk) (target : Addr) :
    d.work (d.enqueueBlock w target) = d.work w := by
  unfold Disassembler.enqueueBlock
  split
  · rfl
  · rename_i h
    have hcode : d.inCode w.pendingData target = true := by
      rw [not_or, Bool.not_eq_false] at h
      exact h.2
    simp only
    split
    · exact work_congr rfl rfl
    · rename_i hv
      have hcard := Worklist.card_unvisited_update (inCode_mem hcode) (Bool.eq_false_iff.2 hv)
      simp only [Disassembler.work, List.length_append, List.length_singleton]
      omega

theorem work_edge (entryAddr fnEnd blockStart : Addr) (w : Walk) (target : Addr) :
    d.work (d.edge entryAddr fnEnd blockStart w target) = d.work w := by
  unfold Disassembler.edge
  simp only
  split
  · rw [work_enqueueBlock]
    exact work_congr rfl rfl
  · split
    · exact work_congr rfl rfl
    · exact work_congr rfl rfl

theorem work_foldl_edge (entryAddr fnEnd blockStart : Addr) (targets : List Addr) : ∀ w : Walk,
    d.work (targets.foldl (d.edge entryAddr fnEnd blockStart) w) = d.work w := by
  induction targets with
  | nil => exact fun _ => rfl
  | cons t ts ih =>
      intro w
      rw [List.foldl_cons, ih, work_edge]

theorem work_indirectJump (blockStart : Addr) (cur : List Instruction) (pc : Addr) (w : Walk) :
    d.work (d.indirectJump entryAddr fnEnd blockStart cur pc w) = d.work w := by
  unfold Disassembler.indirectJump
  simp only
  split
  · exact work_congr rfl rfl
  · split
    · exact work_congr rfl rfl
    · split
      · exact work_congr rfl rfl
      · rw [work_foldl_edge]
        exact work_congr rfl rfl

theorem work_transfer (blockStart : Addr) (cur : List Instruction) (i : Instruction) (w : Walk) :
    d.work (d.transfer entryAddr fnEnd blockStart cur i w) = d.work w := by
  unfold Disassembler.transfer
  simp only
  split
  · split
    · exact work_edge entryAddr fnEnd blockStart w _
    · exact work_indirectJump blockStart cur _ w
  · rfl
  · rfl
  · split
    · exact work_congr rfl rfl
    · rfl
  · split
    · split
      · exact work_congr rfl rfl
      · rfl
    · rfl
  · split
    · split
      · split
        · rw [work_edge, work_edge]
        · rw [work_edge]
      · split
        · rw [work_edge]
        · rfl
    · rfl

theorem work_decodeRun (blockStart : Addr) : ∀ fuel pc cur (w w' : Walk),
    d.decodeRun entryAddr fnEnd blockStart fuel pc cur w = some w' → d.work w' = d.work w := by
  intro fuel
  induction fuel with
  | zero => intro pc cur w w' h; cases h
  | succ fuel ih =>
      intro pc cur w w' h
      simp only [Disassembler.decodeRun] at h
      split at h
      · cases h
        exact work_congr rfl rfl
      · split at h
        · cases h
          exact work_congr rfl rfl
        · rename_i inst hdec
          split at h
          · cases h
            exact work_congr rfl rfl
          · have htr : d.work (d.transfer entryAddr fnEnd blockStart
                (cur ++ [{ address := pc, inst }]) { address := pc, inst }
                (w.record { address := pc, inst })) = d.work w := by
              rw [work_transfer]
              exact work_congr rfl rfl
            split at h
            · cases h
              exact (work_congr rfl rfl).trans htr
            · split at h
              · split at h
                · cases h
                  exact (work_congr rfl rfl).trans ((work_edge entryAddr fnEnd blockStart _ _).trans htr)
                · cases h
                  exact (work_congr rfl rfl).trans htr
              · split at h
                · cases h
                  exact (work_congr rfl rfl).trans htr
                · rw [ih _ _ _ _ h, htr]

/-! ### the tables that wait -/

theorem weak_edge (entryAddr fnEnd blockStart : Addr) (w : Walk) (target : Addr) :
    (d.edge entryAddr fnEnd blockStart w target).weak = w.weak := by
  unfold Disassembler.edge Disassembler.enqueueBlock
  simp only
  split
  · split
    · rfl
    · split
      · rfl
      · rfl
  · split
    · rfl
    · rfl

theorem weak_foldl_edge (entryAddr fnEnd blockStart : Addr) (targets : List Addr) : ∀ w : Walk,
    (targets.foldl (d.edge entryAddr fnEnd blockStart) w).weak = w.weak := by
  induction targets with
  | nil => exact fun _ => rfl
  | cons t ts ih =>
      intro w
      rw [List.foldl_cons, ih, weak_edge]

/-- An accepted table queues its targets; no table waits for it. -/
theorem acceptWeak_kept (entryAddr fnEnd : Addr) (w : Walk) (s : WeakSwitch) :
    d.work (d.acceptWeak entryAddr fnEnd w s) = d.work w ∧
      (d.acceptWeak entryAddr fnEnd w s).weak = w.weak := by
  unfold Disassembler.acceptWeak
  simp only
  split
  · exact ⟨rfl, rfl⟩
  · rw [work_foldl_edge, weak_foldl_edge]
    exact ⟨work_congr rfl rfl, rfl⟩

theorem foldl_acceptWeak_kept (entryAddr fnEnd : Addr) (ss : List WeakSwitch) : ∀ w : Walk,
    d.work (ss.foldl (d.acceptWeak entryAddr fnEnd) w) = d.work w ∧
      (ss.foldl (d.acceptWeak entryAddr fnEnd) w).weak = w.weak := by
  induction ss with
  | nil => exact fun _ => ⟨rfl, rfl⟩
  | cons s ss ih =>
      intro w
      obtain ⟨hwork, hweak⟩ := ih (d.acceptWeak entryAddr fnEnd w s)
      obtain ⟨hwork', hweak'⟩ := acceptWeak_kept (d := d) entryAddr fnEnd w s
      rw [List.foldl_cons]
      exact ⟨hwork.trans hwork', hweak.trans hweak'⟩

/-! ### enough fuel -/

theorem decodeRun_some (d : Disassembler) (entryAddr fnEnd blockStart : Addr) : ∀ fuel (pc : Addr) cur (w : Walk),
    d.image.length - pc.toNat < fuel →
    ∃ w', d.decodeRun entryAddr fnEnd blockStart fuel pc cur w = some w' := by
  intro fuel
  induction fuel with
  | zero => intro pc cur w h; omega
  | succ fuel ih =>
      intro pc cur w h
      simp only [Disassembler.decodeRun]
      split
      · exact ⟨_, rfl⟩
      · split
        · exact ⟨_, rfl⟩
        · rename_i inst hdec
          split
          · exact ⟨_, rfl⟩
          · split
            · exact ⟨_, rfl⟩
            · split
              · split
                · exact ⟨_, rfl⟩
                · exact ⟨_, rfl⟩
              · split
                · exact ⟨_, rfl⟩
                · have hlen := decodeAt_len hdec
                  have hnext := nextPC_toNat hdec
                  apply ih
                  omega

/-- Each pop lowers the work, so the queue is emptied; an empty queue stays as it is. -/
theorem drainQueue_some (d : Disassembler) (entryAddr fnEnd : Addr) : ∀ fuel (w : Walk), d.image.length + d.work w + 1 < fuel →
    ∃ w', d.drainQueue entryAddr fnEnd fuel w = some w' ∧ d.work w' ≤ d.work w ∧
      (w.queue = [] → w' = w) ∧ (w.queue ≠ [] → w'.capped = false → d.work w' < d.work w) := by
  intro fuel
  induction fuel with
  | zero => intro w h; omega
  | succ fuel ih =>
      intro w h
      simp only [Disassembler.drainQueue]
      split
      · rename_i hq
        exact ⟨w, rfl, le_refl _, fun _ => rfl, fun hne => absurd hq hne⟩
      · rename_i blockStart queue hq
        have hpop : d.work { w with queue } + 1 = d.work w := by
          simp only [Disassembler.work, hq, List.length_cons]
          omega
        split
        · refine ⟨_, rfl, le_of_eq (work_congr rfl rfl), fun h' => ?_, fun _ h' => absurd h' (by simp)⟩
          rw [hq] at h'
          cases h'
        · obtain ⟨w₁, hrun⟩ := decodeRun_some d entryAddr fnEnd
            blockStart fuel blockStart [] { w with queue } (by omega)
          have hwork := work_decodeRun _ _ _ _ _ _ hrun
          obtain ⟨w₂, hdrain, hle, -⟩ := ih w₁ (by omega)
          refine ⟨w₂, ?_, by omega, fun h' => ?_, fun _ _ => by omega⟩
          · rw [hrun]
            exact hdrain
          · rw [hq] at h'
            cases h'

/-- A round that leaves a table behind has popped a run. -/
theorem rounds_some : ∀ fuel (w : Walk), w.weak = [] → d.image.length + d.work w + 2 < fuel →
    ∃ w', d.rounds entryAddr fnEnd fuel w = some w' := by
  intro fuel
  induction fuel with
  | zero => intro w _ h; omega
  | succ fuel ih =>
      intro w hweak h
      obtain ⟨w₁, hdrain, -, hempty, hpop⟩ :=
        drainQueue_some d entryAddr fnEnd fuel w (by omega)
      simp only [Disassembler.rounds, hdrain, Option.bind_eq_bind, Option.bind_some]
      split
      · exact ⟨w₁, rfl⟩
      · rename_i hgo
        simp only [Bool.or_eq_true, not_or, Bool.not_eq_true] at hgo
        obtain ⟨hcapped, hsome⟩ := hgo
        have hq : w.queue ≠ [] := by
          intro hq
          rw [hempty hq, hweak] at hsome
          cases hsome
        have hlt := hpop hq hcapped
        obtain ⟨hwork, hnone⟩ :=
          foldl_acceptWeak_kept (d := d) entryAddr fnEnd w₁.weak { w₁ with weak := [] }
        have hsame : d.work { w₁ with weak := [] } = d.work w₁ := work_congr rfl rfl
        apply ih
        · exact hnone
        · omega

/-! ### more fuel -/

theorem decodeRun_succ (blockStart : Addr) : ∀ fuel pc cur (w w' : Walk),
    d.decodeRun entryAddr fnEnd blockStart fuel pc cur w = some w' →
    d.decodeRun entryAddr fnEnd blockStart (fuel + 1) pc cur w = some w' := by
  intro fuel
  induction fuel with
  | zero => intro pc cur w w' h; cases h
  | succ fuel ih =>
      intro pc cur w w' h
      rw [Disassembler.decodeRun] at h ⊢
      simp only at h ⊢
      by_cases hpc : ¬ (pc.toNat < fnEnd.toNat ∧ d.inCode w.pendingData pc = true)
      · rw [if_pos hpc] at h ⊢
        exact h
      · rw [if_neg hpc] at h ⊢
        cases hdec : d.decodeAt pc with
        | none => simpa only [hdec] using h
        | some inst =>
            simp only [hdec] at h ⊢
            split at h
            · rename_i hpriv
              rw [if_pos hpriv]
              exact h
            · rename_i hpriv
              rw [if_neg hpriv]
              split at h
              · rename_i hends
                rw [if_pos hends]
                exact h
              · rename_i hends
                rw [if_neg hends]
                split at h
                · rename_i hbig
                  rw [if_pos hbig]
                  exact h
                · rename_i hbig
                  rw [if_neg hbig]
                  split at h
                  · rename_i hcap
                    rw [if_pos hcap]
                    exact h
                  · rename_i hcap
                    rw [if_neg hcap]
                    exact ih _ _ _ _ h

theorem drainQueue_succ : ∀ fuel (w w' : Walk), d.drainQueue entryAddr fnEnd fuel w = some w' →
    d.drainQueue entryAddr fnEnd (fuel + 1) w = some w' := by
  intro fuel
  induction fuel with
  | zero => intro w w' h; cases h
  | succ fuel ih =>
      intro w w' h
      rw [Disassembler.drainQueue] at h ⊢
      cases hq : w.queue with
      | nil => simpa only [hq] using h
      | cons blockStart queue =>
          simp only [hq] at h ⊢
          split at h
          · rename_i hcap
            rw [if_pos hcap]
            exact h
          · rename_i hcap
            obtain ⟨w₁, hrun, hrest⟩ := Option.bind_eq_some_iff.1 h
            rw [if_neg hcap]
            exact Option.bind_eq_some_iff.2 ⟨w₁, decodeRun_succ _ _ _ _ _ _ hrun, ih _ _ hrest⟩

theorem rounds_succ : ∀ fuel (w w' : Walk), d.rounds entryAddr fnEnd fuel w = some w' →
    d.rounds entryAddr fnEnd (fuel + 1) w = some w' := by
  intro fuel
  induction fuel with
  | zero => intro w w' h; cases h
  | succ fuel ih =>
      intro w w' h
      rw [Disassembler.rounds] at h ⊢
      obtain ⟨w₁, hdrain, hrest⟩ := Option.bind_eq_some_iff.1 h
      refine Option.bind_eq_some_iff.2 ⟨w₁, drainQueue_succ _ _ _ hdrain, ?_⟩
      split at hrest
      · rename_i hend
        rw [if_pos hend]
        exact hrest
      · rename_i hend
        rw [if_neg hend]
        exact ih _ _ hrest

theorem walk_mono {fuel fuel' : ℕ} {w : Walk} (hle : fuel ≤ fuel')
    (h : d.walk fuel entryAddr = some w) : d.walk fuel' entryAddr = some w := by
  induction hle with
  | refl => exact h
  | step _ ih => exact rounds_succ _ _ _ ih

/-! ### the walk -/

/-- The fuel that every walk over an image can do with. -/
def Disassembler.walkFuel (d : Disassembler) : ℕ := 2 * d.image.length + 4

theorem work_start_le (entryAddr : Addr) : d.work (Walk.start entryAddr) ≤ d.image.length + 1 := by
  have hle : (Worklist.unvisited d.imageAddrs (Walk.start entryAddr).visited).card ≤
      d.imageAddrs.card := Finset.card_filter_le _ _
  exact Nat.add_le_add_right (hle.trans (card_imageAddrs d)) 1

theorem walk_some (d : Disassembler) (entryAddr : Addr) :
    ∃ w, d.walk d.walkFuel entryAddr = some w := by
  have hwork := work_start_le (d := d) entryAddr
  apply rounds_some
  · rfl
  · unfold Disassembler.walkFuel
    omega

/-- **Branch following ends.**  Whatever the image, its code, the extents of the functions and the
answers of the jump-table resolver, the queue, the rounds and the runs end: from a fuel linear in
the image on, the walk has one result, and so has the disassembly. -/
theorem walk_terminates (d : Disassembler) (entryAddr : Addr) :
    ∃ w, ∀ fuel, 2 * d.image.length + 4 ≤ fuel → d.walk fuel entryAddr = some w ∧
      d.disasmBranchFollowing fuel entryAddr = d.disasmBranchFollowing d.walkFuel entryAddr := by
  obtain ⟨w, hw⟩ := walk_some d entryAddr
  refine ⟨w, fun fuel hfuel => ?_⟩
  have hmore := walk_mono hfuel hw
  refine ⟨hmore, ?_⟩
  unfold Disassembler.disasmBranchFollowing
  rw [hmore, hw]

end PS4Recomp.Disasm
