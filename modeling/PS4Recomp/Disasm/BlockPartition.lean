import PS4Recomp.Disasm.BranchFollowing

/-!
# The blocks of branch-following disassembly

* `WalkInv` — what holds of the worklist at every step: the decoded instructions are those of the
  image, and each is a queued target or follows a decoded instruction that control can fall out of;
* `walkInv_decodeRun`, `walkInv_walk` — one run keeps it, so the finished walk has it;
* `follows_of_not_leader` — in address order, an instruction that starts no block is the next one
  of the instruction before it, which does not end a run;
* `buildBlocks_eq` — the block loop cuts the sorted instructions with `List.splitBy`;
* **`branchFollowing_partition`** — the blocks partition the decoded instructions.
-/

namespace PS4Recomp.Disasm

open X86

variable {d : Disassembler} {entryAddr fnEnd : Addr}

/-! ### decoding -/

theorem decodeAt_len {pc : Addr} {inst : Inst} (h : d.decodeAt pc = some inst) :
    0 < inst.len ∧ pc.toNat + inst.len ≤ d.image.length := by
  have hkey : ∀ i : Inst, d.decode (d.image.drop pc.toNat) = some i → i.len ≠ 0 →
      0 < i.len ∧ pc.toNat + i.len ≤ d.image.length := by
    intro i hi hne
    have hle := d.decode_len _ _ hi
    rw [List.length_drop] at hle
    omega
  unfold Disassembler.decodeAt at h
  split at h
  · rename_i i hi
    split at h
    · cases h
    · rename_i hne
      split at h
      · cases h
        exact hkey i hi hne
      · cases h
        exact hkey _ hi hne
  · cases h

/-- The end of a decoded instruction does not wrap around. -/
theorem nextPC_toNat {pc : Addr} {inst : Inst} (h : d.decodeAt pc = some inst) :
    ({ address := pc, inst } : Instruction).nextPC.toNat = pc.toNat + inst.len := by
  have hlen := decodeAt_len h
  have himage := d.image_length
  simp only [Instruction.nextPC, BitVec.toNat_add, BitVec.toNat_ofNat]
  omega

/-! ### the worklist -/

/-- The instruction before `a` in its stream is decoded, and control can fall out of it. -/
def Follows (d : Disassembler) (w : Walk) (a : Addr) : Prop :=
  ∃ y i, w.insts y = some i ∧ i.nextPC = a ∧ d.endsRun i = false

/-- The invariant of the worklist. -/
structure WalkInv (d : Disassembler) (w : Walk) : Prop where
  decoded : ∀ a i, w.insts a = some i →
    ∃ inst, d.decodeAt a = some inst ∧ i = { address := a, inst }
  keys : ∀ a, a ∈ w.addrs ↔ (w.insts a).isSome
  nodup : w.addrs.Nodup
  reached : ∀ a, (w.insts a).isSome → w.jumpTargets a = true ∨ Follows d w a
  queued : ∀ a ∈ w.queue, w.jumpTargets a = true

/-- Steps that decode nothing: they add targets and queue them. -/
structure Grows (w w' : Walk) : Prop where
  insts : w'.insts = w.insts
  addrs : w'.addrs = w.addrs
  jumpTargets : ∀ a, w.jumpTargets a = true → w'.jumpTargets a = true
  queue : ∀ a ∈ w'.queue, a ∈ w.queue ∨ w'.jumpTargets a = true

theorem Grows.refl (w : Walk) : Grows w w := ⟨rfl, rfl, fun _ h => h, fun _ h => .inl h⟩

theorem Grows.trans {w₁ w₂ w₃ : Walk} (h : Grows w₁ w₂) (h' : Grows w₂ w₃) : Grows w₁ w₃ where
  insts := h'.insts.trans h.insts
  addrs := h'.addrs.trans h.addrs
  jumpTargets a ha := h'.jumpTargets a (h.jumpTargets a ha)
  queue a ha := by
    rcases h'.queue a ha with ha | ha
    · exact (h.queue a ha).imp id (h'.jumpTargets a)
    · exact .inr ha

theorem WalkInv.grows {w w' : Walk} (hw : WalkInv d w) (h : Grows w w') : WalkInv d w' where
  decoded := by rw [h.insts]; exact hw.decoded
  keys := by rw [h.insts, h.addrs]; exact hw.keys
  nodup := by rw [h.addrs]; exact hw.nodup
  reached a ha := by
    unfold Follows
    rw [h.insts] at ha ⊢
    exact (hw.reached a ha).imp (h.jumpTargets a) id
  queued a ha := (h.queue a ha).elim (fun hq => h.jumpTargets a (hw.queued a hq)) id

theorem grows_enqueueBlock (w : Walk) (target : Addr) : Grows w (d.enqueueBlock w target) := by
  have hmono : ∀ a, w.jumpTargets a = true →
      Function.update w.jumpTargets target true a = true := by
    intro a ha
    by_cases hat : a = target
    · rw [hat, Function.update_self]
    · rw [Function.update_of_ne hat]
      exact ha
  unfold Disassembler.enqueueBlock
  split
  · exact Grows.refl w
  · simp only
    split
    · exact ⟨rfl, rfl, hmono, fun a ha => .inl ha⟩
    · refine ⟨rfl, rfl, hmono, fun a ha => ?_⟩
      rcases List.mem_append.1 ha with ha | ha
      · exact .inl ha
      · rw [List.mem_singleton.1 ha]
        exact .inr (Function.update_self ..)

theorem grows_edge (d : Disassembler) (entryAddr fnEnd : Addr) (blockStart : Addr) (w : Walk) (target : Addr) :
    Grows w (d.edge entryAddr fnEnd blockStart w target) := by
  have hpreds : ∀ p, Grows w { w with blockPreds := p } := fun p =>
    ⟨rfl, rfl, fun _ h => h, fun _ h => .inl h⟩
  unfold Disassembler.edge
  simp only
  split
  · exact (hpreds _).trans (grows_enqueueBlock _ _)
  · split
    · exact ⟨rfl, rfl, fun _ h => h, fun _ h => .inl h⟩
    · exact hpreds _

theorem grows_foldl_edge (blockStart : Addr) (targets : List Addr) : ∀ w : Walk,
    Grows w (targets.foldl (d.edge entryAddr fnEnd blockStart) w) := by
  induction targets with
  | nil => exact Grows.refl
  | cons t ts ih => exact fun w => (grows_edge d entryAddr fnEnd blockStart w t).trans (ih _)

theorem grows_indirectJump (blockStart : Addr) (cur : List Instruction) (pc : Addr) (w : Walk) :
    Grows w (d.indirectJump entryAddr fnEnd blockStart cur pc w) := by
  have hsame : ∀ w' : Walk, w'.insts = w.insts → w'.addrs = w.addrs →
      w'.jumpTargets = w.jumpTargets → w'.queue = w.queue → Grows w w' := fun w' h1 h2 h3 h4 =>
    ⟨h1, h2, by rw [h3]; exact fun _ h => h, by rw [h4]; exact fun _ h => .inl h⟩
  unfold Disassembler.indirectJump
  simp only
  split
  · exact hsame _ rfl rfl rfl rfl
  · split
    · exact hsame _ rfl rfl rfl rfl
    · split
      · exact hsame _ rfl rfl rfl rfl
      · refine Grows.trans ?_ (grows_foldl_edge blockStart _ _)
        exact hsame _ rfl rfl rfl rfl

theorem grows_transfer (d : Disassembler) (entryAddr fnEnd : Addr) (blockStart : Addr) (cur : List Instruction) (i : Instruction) (w : Walk) :
    Grows w (d.transfer entryAddr fnEnd blockStart cur i w) := by
  have hcalls : ∀ c, Grows w { w with discoveredCalls := c } := fun c =>
    ⟨rfl, rfl, fun _ h => h, fun _ h => .inl h⟩
  unfold Disassembler.transfer
  simp only
  split
  · split
    · exact grows_edge d entryAddr fnEnd blockStart w _
    · exact grows_indirectJump blockStart cur _ w
  · exact Grows.refl w
  · exact Grows.refl w
  · split
    · exact hcalls _
    · exact Grows.refl w
  · split
    · split
      · exact hcalls _
      · exact Grows.refl w
    · exact Grows.refl w
  · split
    · split
      · have htarget := grows_edge d entryAddr fnEnd blockStart w
        split
        · exact (htarget _).trans (grows_edge d entryAddr fnEnd blockStart _ _)
        · exact htarget _
      · split
        · exact grows_edge d entryAddr fnEnd blockStart w _
        · exact Grows.refl w
    · exact Grows.refl w

theorem grows_acceptWeak (w : Walk) (s : WeakSwitch) :
    Grows w (d.acceptWeak entryAddr fnEnd w s) := by
  unfold Disassembler.acceptWeak
  simp only
  split
  · exact Grows.refl w
  · refine Grows.trans ?_ (grows_foldl_edge s.start _ _)
    exact ⟨rfl, rfl, fun _ h => h, fun _ h => .inl h⟩

/-- Recording a decoded instruction that control reaches. -/
theorem walkInv_record {w : Walk} (hw : WalkInv d w) {pc : Addr} {inst : Inst}
    (hdec : d.decodeAt pc = some inst) (hpc : w.jumpTargets pc = true ∨ Follows d w pc) :
    WalkInv d (w.record { address := pc, inst }) ∧
      ∀ a, Follows d w a → Follows d (w.record { address := pc, inst }) a := by
  have hfollows : ∀ a, Follows d w a → Follows d (w.record { address := pc, inst }) a := by
    rintro a ⟨y, i, hi, hnext, hends⟩
    refine ⟨y, i, ?_, hnext, hends⟩
    by_cases hy : y = pc
    · -- the same bytes decode to the same instruction
      subst hy
      obtain ⟨inst', hdec', rfl⟩ := hw.decoded y i hi
      rw [hdec] at hdec'
      cases hdec'
      simp [Walk.record]
    · simpa [Walk.record, hy] using hi
  refine ⟨?_, hfollows⟩
  constructor
  · intro a i hi
    by_cases ha : a = pc
    · subst ha
      simp only [Walk.record, Function.update_self, Option.some.injEq] at hi
      exact ⟨inst, hdec, hi.symm⟩
    · simp only [Walk.record, Function.update_of_ne ha] at hi
      exact hw.decoded a i hi
  · intro a
    by_cases ha : a = pc
    · subst ha
      simp only [Walk.record, Function.update_self, Option.isSome_some, iff_true]
      split
      · rename_i hs
        exact (hw.keys a).2 hs
      · simp
    · simp only [Walk.record, Function.update_of_ne ha]
      rw [← hw.keys a]
      split
      · rfl
      · simp [ha]
  · simp only [Walk.record]
    split
    · exact hw.nodup
    · rename_i hs
      rw [← hw.keys] at hs
      exact hw.nodup.append (List.nodup_singleton _) (by simpa using hs)
  · intro a ha
    by_cases hap : a = pc
    · subst hap
      exact hpc.imp id (hfollows a)
    · simp only [Walk.record, Function.update_of_ne hap] at ha
      exact (hw.reached a ha).imp id (hfollows a)
  · exact hw.queued

theorem walkInv_blockInsts {w : Walk} (hw : WalkInv d w) (b : Addr → List Instruction) (c : Bool) :
    WalkInv d { w with blockInsts := b, capped := c } :=
  ⟨hw.decoded, hw.keys, hw.nodup, hw.reached, hw.queued⟩

/-- **Step.**  One run keeps the invariant, when control reaches its start. -/
theorem walkInv_decodeRun (blockStart : Addr) : ∀ fuel pc cur (w w' : Walk), WalkInv d w →
    (w.jumpTargets pc = true ∨ Follows d w pc) →
    d.decodeRun entryAddr fnEnd blockStart fuel pc cur w = some w' → WalkInv d w' := by
  intro fuel
  induction fuel with
  | zero => intro pc cur w w' _ _ h; cases h
  | succ fuel ih =>
      intro pc cur w w' hw hpc h
      simp only [Disassembler.decodeRun] at h
      split at h
      · cases h
        exact walkInv_blockInsts hw _ _
      · split at h
        · cases h
          exact walkInv_blockInsts hw _ _
        · rename_i inst hdec
          split at h
          · cases h
            exact walkInv_blockInsts hw _ _
          · obtain ⟨hrec, -⟩ := walkInv_record hw hdec hpc
            have hgrow := grows_transfer d entryAddr fnEnd blockStart
              (cur ++ [{ address := pc, inst }]) { address := pc, inst }
              (w.record { address := pc, inst })
            have htr := hrec.grows hgrow
            split at h
            · cases h
              exact walkInv_blockInsts htr _ _
            · rename_i hends
              split at h
              · split at h
                · cases h
                  exact walkInv_blockInsts (htr.grows (grows_edge d entryAddr fnEnd blockStart _ _)) _ _
                · cases h
                  exact walkInv_blockInsts htr _ _
              · split at h
                · cases h
                  exact walkInv_blockInsts htr _ _
                · refine ih _ _ _ _ htr (.inr ⟨pc, { address := pc, inst }, ?_, rfl, ?_⟩) h
                  · rw [hgrow.insts]
                    simp [Walk.record]
                  · simpa using hends

theorem walkInv_drainQueue : ∀ fuel (w w' : Walk), WalkInv d w →
    d.drainQueue entryAddr fnEnd fuel w = some w' → WalkInv d w' := by
  intro fuel
  induction fuel with
  | zero => intro w w' _ h; cases h
  | succ fuel ih =>
      intro w w' hw h
      simp only [Disassembler.drainQueue] at h
      split at h
      · cases h
        exact hw
      · rename_i b queue hq
        split at h
        · cases h
          exact ⟨hw.decoded, hw.keys, hw.nodup, hw.reached, hw.queued⟩
        · obtain ⟨w₁, hrun, hrest⟩ := Option.bind_eq_some_iff.1 h
          have hstart : WalkInv d { w with queue } :=
            ⟨hw.decoded, hw.keys, hw.nodup, hw.reached, fun a ha =>
              hw.queued a (by rw [hq]; exact List.mem_cons_of_mem b ha)⟩
          have hb : w.jumpTargets b = true := hw.queued b (by rw [hq]; exact List.mem_cons_self)
          exact ih _ _ (walkInv_decodeRun b _ _ _ _ _ hstart (.inl hb) hrun) hrest

theorem walkInv_rounds : ∀ fuel (w w' : Walk), WalkInv d w →
    d.rounds entryAddr fnEnd fuel w = some w' → WalkInv d w' := by
  intro fuel
  induction fuel with
  | zero => intro w w' _ h; cases h
  | succ fuel ih =>
      intro w w' hw h
      simp only [Disassembler.rounds] at h
      obtain ⟨w₁, hdrain, hrest⟩ := Option.bind_eq_some_iff.1 h
      have hw₁ := walkInv_drainQueue _ _ _ hw hdrain
      split at hrest
      · cases hrest
        exact hw₁
      · refine ih _ _ ?_ hrest
        have hfold : ∀ (ss : List WeakSwitch) (w : Walk), WalkInv d w →
            WalkInv d (ss.foldl (d.acceptWeak entryAddr fnEnd) w) := by
          intro ss
          induction ss with
          | nil => exact fun w hw => hw
          | cons s ss ih => exact fun w hw => ih _ (hw.grows (grows_acceptWeak w s))
        exact hfold _ _ ⟨hw₁.decoded, hw₁.keys, hw₁.nodup, hw₁.reached, hw₁.queued⟩

/-- **Runs.**  A finished walk has the invariant. -/
theorem walkInv_walk {fuel : ℕ} {w : Walk} (h : d.walk fuel entryAddr = some w) : WalkInv d w := by
  refine walkInv_rounds fuel _ w ?_ h
  exact ⟨by simp [Walk.start], by simp [Walk.start], by simp [Walk.start], by simp [Walk.start],
    by simp [Walk.start]⟩

/-! ### address order -/

theorem WalkInv.nextPC {w : Walk} (hw : WalkInv d w) {a : Addr} {i : Instruction}
    (h : w.insts a = some i) : i.address = a ∧ a.toNat < i.nextPC.toNat := by
  obtain ⟨inst, hdec, rfl⟩ := hw.decoded a i h
  have hnext := nextPC_toNat hdec
  have hpos := (decodeAt_len hdec).1
  exact ⟨rfl, by omega⟩

theorem mem_sortedInsts {w : Walk} (hw : WalkInv d w) {i : Instruction} :
    i ∈ w.sortedInsts ↔ w.insts i.address = some i := by
  rw [Walk.sortedInsts, List.mem_filterMap]
  constructor
  · rintro ⟨a, -, hi⟩
    rw [(hw.nextPC hi).1]
    exact hi
  · intro hi
    refine ⟨i.address, ?_, hi⟩
    rw [sortAddrs, List.mem_insertionSort, hw.keys, hi]
    rfl

instance : Std.Total (fun a b : Addr => a.toNat ≤ b.toNat) := ⟨fun _ _ => Nat.le_total _ _⟩

instance : IsTrans Addr (fun a b : Addr => a.toNat ≤ b.toNat) := ⟨fun _ _ _ => Nat.le_trans⟩

/-- The sorted instructions have strictly rising addresses. -/
theorem sortedInsts_pairwise {w : Walk} (hw : WalkInv d w) :
    w.sortedInsts.Pairwise fun i j => i.address.toNat < j.address.toNat := by
  have hsorted : (sortAddrs w.addrs).Pairwise fun a b => a.toNat ≤ b.toNat :=
    List.pairwise_insertionSort _ _
  have hnodup : (sortAddrs w.addrs).Nodup := (List.perm_insertionSort _ _).nodup_iff.2 hw.nodup
  rw [Walk.sortedInsts, List.pairwise_filterMap]
  refine (hsorted.and hnodup).imp fun {a b} hab i hi j hj => ?_
  rw [(hw.nextPC hi).1, (hw.nextPC hj).1]
  have hne : a.toNat ≠ b.toNat := fun e => hab.2 (BitVec.eq_of_toNat_eq e)
  omega

/-! ### leaders -/

theorem seamLeaders_mono (w : Walk) : ∀ (is : List Instruction) (leaders : Addr → Bool) (a : Addr),
    leaders a = true → seamLeaders w is leaders a = true := by
  have hup : ∀ (leaders : Addr → Bool) (a b : Addr), leaders a = true →
      Function.update leaders b true a = true := by
    intro leaders a b h
    by_cases hab : a = b
    · rw [hab, Function.update_self]
    · rw [Function.update_of_ne hab]
      exact h
  intro is
  induction is with
  | nil => exact fun _ _ h => h
  | cons i is ih =>
      intro leaders a h
      cases is with
      | nil => exact h
      | cons j is =>
          simp only [seamLeaders]
          split
          · exact ih _ a h
          · apply ih
            split
            · exact hup _ _ _ (hup _ _ _ h)
            · exact hup _ _ _ h

/-- At a seam both sides start a block: the instruction after it, and the end of the one before. -/
theorem seamLeaders_seam (w : Walk) (i j : Instruction) (post : List Instruction)
    (hseam : j.address ≠ i.nextPC) : ∀ (pre : List Instruction) (leaders : Addr → Bool),
    seamLeaders w (pre ++ i :: j :: post) leaders j.address = true ∧
      ((w.insts i.nextPC).isSome →
        seamLeaders w (pre ++ i :: j :: post) leaders i.nextPC = true) := by
  intro pre
  induction pre with
  | nil =>
      intro leaders
      simp only [List.nil_append, seamLeaders, if_neg hseam]
      constructor
      · apply seamLeaders_mono
        split
        · by_cases he : j.address = i.nextPC
          · exact absurd he hseam
          · rw [Function.update_of_ne he, Function.update_self]
        · rw [Function.update_self]
      · intro hdec
        apply seamLeaders_mono
        rw [if_pos hdec, Function.update_self]
  | cons p pre ih =>
      intro leaders
      cases pre with
      | nil =>
          rw [List.nil_append] at ih
          rw [List.cons_append, List.nil_append, seamLeaders]
          split
          · exact ih leaders
          · exact ih _
      | cons q pre =>
          simp only [List.cons_append, seamLeaders] at ih ⊢
          split
          · exact ih leaders
          · exact ih _

theorem leadersOf_seam (w : Walk) (entryAddr : Addr) {pre post : List Instruction}
    {i j : Instruction} (hL : w.sortedInsts = pre ++ i :: j :: post)
    (hseam : j.address ≠ i.nextPC) : leadersOf w entryAddr j.address = true ∧
      ((w.insts i.nextPC).isSome → leadersOf w entryAddr i.nextPC = true) := by
  unfold leadersOf
  rw [hL]
  exact seamLeaders_seam w i j post hseam pre _

theorem leadersOf_jumpTarget (w : Walk) (entryAddr : Addr) {a : Addr}
    (ht : w.jumpTargets a = true) (hdec : (w.insts a).isSome) : leadersOf w entryAddr a = true := by
  apply seamLeaders_mono
  rw [ht, hdec]
  simp

/-- **Inside a block.**  In address order, an instruction that is no leader is the next one of the
instruction before it, and that one does not end a run. -/
theorem follows_of_not_leader (entryAddr : Addr) {w : Walk} (hw : WalkInv d w) {pre post : List Instruction}
    {i j : Instruction} (hL : w.sortedInsts = pre ++ i :: j :: post)
    (hj : leadersOf w entryAddr j.address = false) :
    j.address = i.nextPC ∧ d.endsRun i = false := by
  have hnext : j.address = i.nextPC := by
    by_contra hseam
    rw [(leadersOf_seam w entryAddr hL hseam).1] at hj
    cases hj
  refine ⟨hnext, ?_⟩
  have hpair := sortedInsts_pairwise hw
  have hmem : ∀ k, k ∈ w.sortedInsts ↔ w.insts k.address = some k := fun k => mem_sortedInsts hw
  have hjdec : w.insts j.address = some j := (hmem j).1 (by rw [hL]; simp)
  rcases hw.reached j.address (by rw [hjdec]; rfl) with ht | ⟨y, k, hk, hky, hends⟩
  · rw [leadersOf_jumpTarget w entryAddr ht (by rw [hjdec]; rfl)] at hj
    cases hj
  · obtain ⟨hkaddr, hlt⟩ := hw.nextPC hk
    have hkL : k ∈ w.sortedInsts := (hmem k).2 (by rw [hkaddr]; exact hk)
    rw [hL, List.pairwise_append, List.pairwise_cons, List.pairwise_cons] at hpair
    obtain ⟨-, ⟨hi, hj', -⟩, hpre⟩ := hpair
    rw [hL, List.mem_append, List.mem_cons, List.mem_cons] at hkL
    rw [hky] at hlt
    rcases hkL with hkp | rfl | rfl | hkp
    · -- `k` lies before `i`, so its end is not the next address and starts a block
      exfalso
      obtain ⟨pre₁, pre₂, rfl⟩ := List.append_of_mem hkp
      obtain ⟨m, rest, hm⟩ : ∃ m rest, pre₂ ++ i :: j :: post = m :: rest := by
        cases pre₂ with
        | nil => exact ⟨i, _, rfl⟩
        | cons m pre₂ => exact ⟨m, _, rfl⟩
      have hmi : m.address.toNat ≤ i.address.toNat := by
        cases pre₂ with
        | nil =>
            simp only [List.nil_append, List.cons.injEq] at hm
            rw [hm.1]
        | cons m' pre₂ =>
            simp only [List.cons_append, List.cons.injEq] at hm
            have := hpre m (by rw [← hm.1]; simp) i (by simp)
            omega
      have hij := hi j (by simp)
      have hne : m.address ≠ k.nextPC := by
        rw [hky]
        intro e
        rw [e] at hmi
        omega
      have hL' : w.sortedInsts = pre₁ ++ k :: m :: rest := by
        rw [hL, ← hm]
        simp
      have hlead := (leadersOf_seam w entryAddr hL' hne).2 (by rw [hky, hjdec]; rfl)
      rw [hky, hj] at hlead
      cases hlead
    · exact hends
    · rw [hkaddr] at hlt
      omega
    · have hjk := hj' k hkp
      rw [hkaddr] at hjk
      omega

/-- The decoded address after an instruction starts a block, or is the next one in address order. -/
theorem leader_or_next (entryAddr : Addr) {w : Walk} (hw : WalkInv d w) {pre post : List Instruction}
    {i : Instruction} (hL : w.sortedInsts = pre ++ i :: post)
    (hdec : (w.insts i.nextPC).isSome) :
    leadersOf w entryAddr i.nextPC = true ∨ ∃ j post', post = j :: post' ∧ j.address = i.nextPC := by
  obtain ⟨k, hk⟩ := Option.isSome_iff_exists.1 hdec
  have hkaddr := (hw.nextPC hk).1
  have hi : w.insts i.address = some i := (mem_sortedInsts hw).1 (by rw [hL]; simp)
  have hlt := (hw.nextPC hi).2
  have hkL : k ∈ w.sortedInsts := (mem_sortedInsts hw).2 (by rw [hkaddr]; exact hk)
  have hpair := sortedInsts_pairwise hw
  cases post with
  | nil =>
      exfalso
      rw [hL, List.pairwise_append] at hpair
      rw [hL, List.mem_append, List.mem_singleton] at hkL
      rw [← hkaddr] at hlt
      rcases hkL with hkp | rfl
      · have := hpair.2.2 k hkp i (by simp)
        omega
      · omega
  | cons j post =>
      by_cases hj : j.address = i.nextPC
      · exact .inr ⟨j, post, rfl, hj⟩
      · exact .inl ((leadersOf_seam w entryAddr hL hj).2 hdec)

/-! ### blocks -/

/-- Two instructions in address order share a block when the second is no leader. -/
def sameBlock (leaders : Addr → Bool) (_ j : Instruction) : Bool := !leaders j.address

/-- The address of the first instruction. -/
def startOf (g : List Instruction) : Addr := (g.head?.map (·.address)).getD 0

/-- A block that is still open. -/
def openBlock (g : List Instruction) : BasicBlock := { startAddr := startOf g, endAddr := 0, insts := g }

/-- A finished block. -/
def blockOf (g : List Instruction) : BasicBlock := BasicBlock.close (openBlock g)

@[simp] theorem blockOf_insts (g : List Instruction) : (blockOf g).insts = g := by
  unfold blockOf BasicBlock.close
  split <;> rfl

@[simp] theorem blockOf_startAddr (g : List Instruction) : (blockOf g).startAddr = startOf g := by
  unfold blockOf BasicBlock.close
  split <;> rfl

theorem blockOf_endAddr {g : List Instruction} {last : Instruction} (h : g.getLast? = some last) :
    (blockOf g).endAddr = last.nextPC := by
  simp [blockOf, BasicBlock.close, openBlock, h]

/-- **The block loop** with an open block: what is left is cut at the leaders. -/
theorem buildBlocks_open (leaders : Addr → Bool) : ∀ (is g : List Instruction)
    (blocks : Addr → Option BasicBlock), g ≠ [] →
    (g.IsChain fun x y => sameBlock leaders x y = true) →
    buildBlocks leaders is (some (openBlock g)) blocks =
      ((g ++ is).splitBy (sameBlock leaders)).foldl (fun m g => putBlock m (some (openBlock g)))
        blocks := by
  intro is
  induction is with
  | nil =>
      intro g blocks hne hchain
      rw [List.append_nil, List.splitBy_of_isChain hne hchain]
      rfl
  | cons i is ih =>
      intro g blocks hne hchain
      have hfresh : ({ startAddr := i.address, endAddr := 0, insts := [i] } : BasicBlock) =
          openBlock [i] := rfl
      simp only [buildBlocks]
      split
      · rename_i hi
        have hcut : ∀ x ∈ g.getLast?, sameBlock leaders x i = false := fun _ _ => by
          simp [sameBlock, hi]
        rw [hfresh, ih [i] _ (by simp) (by simp), List.splitBy_append_cons is hcut,
          List.splitBy_of_isChain hne hchain]
        rfl
      · rename_i hi
        have hgrow : ({ openBlock g with insts := (openBlock g).insts ++ [i] } : BasicBlock) =
            openBlock (g ++ [i]) := by
          obtain ⟨x, g', rfl⟩ := List.exists_cons_of_ne_nil hne
          rfl
        have hchain' : (g ++ [i]).IsChain fun x y => sameBlock leaders x y = true := by
          rw [List.isChain_append]
          refine ⟨hchain, by simp, fun x _ y hy => ?_⟩
          have hyi : y = i := by simpa using hy.symm
          rw [hyi]
          simpa [sameBlock] using hi
        rw [hgrow, ih (g ++ [i]) _ (by simp) hchain', List.append_assoc]
        rfl

/-- **The block loop** cuts the instructions at the leaders. -/
theorem buildBlocks_eq (leaders : Addr → Bool) (is : List Instruction)
    (blocks : Addr → Option BasicBlock) :
    buildBlocks leaders is none blocks =
      (is.splitBy (sameBlock leaders)).foldl (fun m g => putBlock m (some (openBlock g))) blocks := by
  cases is with
  | nil => rfl
  | cons i is =>
      have hfresh := buildBlocks_open leaders is [i] blocks (by simp) (by simp)
      simp only [buildBlocks]
      split
      · exact hfresh
      · exact hfresh

/-- What a map of blocks holds after groups with different starts were put into it. -/
theorem foldl_putBlock {gs : List (List Instruction)} :
    ∀ (blocks : Addr → Option BasicBlock), [] ∉ gs →
    (gs.Pairwise fun g g' => startOf g ≠ startOf g') → ∀ s b,
    gs.foldl (fun m g => putBlock m (some (openBlock g))) blocks s = some b ↔
      (∃ g ∈ gs, startOf g = s ∧ b = blockOf g) ∨
        (∀ g ∈ gs, startOf g ≠ s) ∧ blocks s = some b := by
  induction gs with
  | nil => intro blocks _ _ s b; simp
  | cons g gs ih =>
      intro blocks hne hpair s b
      rw [List.mem_cons, not_or] at hne
      obtain ⟨hhead, htail⟩ := List.pairwise_cons.1 hpair
      have hput : putBlock blocks (some (openBlock g)) =
          Function.update blocks (startOf g) (some (blockOf g)) := by
        show (if g = [] then blocks else Function.update blocks (startOf g) _) = _
        rw [if_neg (fun e => hne.1 e.symm)]
        rfl
      rw [List.foldl_cons, ih _ hne.2 htail, hput]
      by_cases hs : s = startOf g
      · subst hs
        have hnone : ¬ ∃ g' ∈ gs, startOf g' = startOf g ∧ b = blockOf g' := by
          rintro ⟨g', hg', he, -⟩
          exact hhead g' hg' he.symm
        have hall : ∀ g' ∈ gs, startOf g' ≠ startOf g := fun g' hg' he => hhead g' hg' he.symm
        rw [Function.update_self]
        simp only [hnone, false_or, Option.some.injEq]
        constructor
        · rintro ⟨-, rfl⟩
          exact .inl ⟨g, List.mem_cons_self, rfl, rfl⟩
        · rintro (⟨g', hg', he, rfl⟩ | ⟨hno, -⟩)
          · rcases List.mem_cons.1 hg' with rfl | hg'
            · exact ⟨hall, rfl⟩
            · exact absurd he (hall g' hg')
          · exact absurd rfl (hno g List.mem_cons_self)
      · rw [Function.update_of_ne hs]
        constructor
        · rintro (⟨g', hg', he⟩ | ⟨hno, hb⟩)
          · exact .inl ⟨g', List.mem_cons_of_mem g hg', he⟩
          · refine .inr ⟨fun g' hg' => ?_, hb⟩
            rcases List.mem_cons.1 hg' with rfl | hg'
            · exact fun he => hs he.symm
            · exact hno g' hg'
        · rintro (⟨g', hg', he, hb⟩ | ⟨hno, hb⟩)
          · rcases List.mem_cons.1 hg' with rfl | hg'
            · exact absurd he.symm hs
            · exact .inl ⟨g', hg', he, hb⟩
          · exact .inr ⟨fun g' hg' => hno g' (List.mem_cons_of_mem g hg'), hb⟩

/-- The groups of the sorted instructions. -/
def Walk.groups (w : Walk) (entryAddr : Addr) : List (List Instruction) :=
  w.sortedInsts.splitBy (sameBlock (leadersOf w entryAddr))

theorem startOf_cons (i : Instruction) (g : List Instruction) : startOf (i :: g) = i.address := rfl

/-- Later groups of a list with rising addresses have larger addresses. -/
theorem splitBy_pairwise {is : List Instruction}
    (h : is.Pairwise fun i j => i.address.toNat < j.address.toNat) (leaders : Addr → Bool) :
    (is.splitBy (sameBlock leaders)).Pairwise fun g g' =>
      ∀ i ∈ g, ∀ j ∈ g', i.address.toNat < j.address.toNat := by
  rw [← List.flatten_splitBy (sameBlock leaders) is, List.pairwise_flatten] at h
  exact h.2

/-- The blocks of a list with rising addresses are its groups. -/
theorem buildBlocks_iff {is : List Instruction}
    (h : is.Pairwise fun i j => i.address.toNat < j.address.toNat) (leaders : Addr → Bool)
    (s : Addr) (b : BasicBlock) :
    buildBlocks leaders is none (fun _ => none) s = some b ↔
      ∃ g ∈ is.splitBy (sameBlock leaders), startOf g = s ∧ b = blockOf g := by
  have hne : [] ∉ is.splitBy (sameBlock leaders) := List.nil_notMem_splitBy _ _
  have hstarts : (is.splitBy (sameBlock leaders)).Pairwise fun g g' => startOf g ≠ startOf g' := by
    refine (splitBy_pairwise h leaders).imp_of_mem fun {g g'} hg hg' hlt => ?_
    obtain ⟨i, is, rfl⟩ := List.exists_cons_of_ne_nil (fun e => hne (e ▸ hg))
    obtain ⟨j, js, rfl⟩ := List.exists_cons_of_ne_nil (fun e => hne (e ▸ hg'))
    have hij := hlt i (by simp) j (by simp)
    rw [startOf_cons, startOf_cons]
    intro e
    rw [e] at hij
    omega
  rw [buildBlocks_eq]
  have hfold := foldl_putBlock (fun _ => none) hne hstarts s b
  simpa using hfold

theorem splitBy_of_leader {is : List Instruction} {leaders : Addr → Bool} {i : Instruction}
    (hi : i ∈ is) (hlead : leaders i.address = true) :
    ∃ g ∈ is.splitBy (sameBlock leaders), startOf g = i.address := by
  rw [← List.flatten_splitBy (sameBlock leaders) is] at hi
  obtain ⟨g, hg, hig⟩ := List.mem_flatten.1 hi
  obtain ⟨pre, post, hs⟩ := List.append_of_mem hig
  refine ⟨g, hg, ?_⟩
  rcases List.eq_nil_or_concat pre with rfl | ⟨pre, k, rfl⟩
  · rw [hs]
    rfl
  · -- an instruction with one before it in its group is no leader
    exfalso
    have hchain := List.isChain_of_mem_splitBy hg
    have hk := List.isChain_iff_forall_rel_of_append_cons_cons.1 hchain
      (show g = pre ++ k :: i :: post by rw [hs]; simp)
    simp [sameBlock, hlead] at hk

theorem groups_pairwise {w : Walk} (hw : WalkInv d w) (entryAddr : Addr) :
    (w.groups entryAddr).Pairwise fun g g' => ∀ i ∈ g, ∀ j ∈ g', i.address.toNat < j.address.toNat :=
  splitBy_pairwise (sortedInsts_pairwise hw) _

theorem blocks_iff {w : Walk} (hw : WalkInv d w) (entryAddr s : Addr) (b : BasicBlock) :
    w.blocks entryAddr s = some b ↔ ∃ g ∈ w.groups entryAddr, startOf g = s ∧ b = blockOf g :=
  buildBlocks_iff (sortedInsts_pairwise hw) _ s b

/-! ### the flag passes only mark -/

/-- An instruction without its marks. -/
def unmarked (i : Instruction) : Instruction := { address := i.address, inst := i.inst }

/-- A block without the marks of its instructions. -/
def plain (b : BasicBlock) : BasicBlock := { b with insts := b.insts.map unmarked }

theorem plain_of_sameCode {b b' : BasicBlock} (h : SameCode b b') : plain b' = plain b := by
  obtain ⟨hs, he, hi⟩ := h
  have hi' : b'.insts.map unmarked = b.insts.map unmarked := by
    have h2 := congrArg (List.map unmarked) hi
    rw [List.map_map, List.map_map] at h2
    exact h2
  show BasicBlock.mk b'.startAddr b'.endAddr _ = BasicBlock.mk b.startAddr b.endAddr _
  rw [hs, he, hi']

theorem map_plain_of_sameBlocks {m m' : Addr → Option BasicBlock} (h : SameBlocks m m')
    (a : Addr) : (m' a).map plain = (m a).map plain := by
  have ha := h a
  generalize m a = o at ha
  generalize m' a = o' at ha
  cases ha with
  | some hb => exact congrArg some (plain_of_sameCode hb)
  | none => rfl

theorem markSkip_unmarked (is : List Instruction) :
    (markSkip is).1.map unmarked = is.map unmarked := by
  induction is with
  | nil => rfl
  | cons i is ih =>
      simp only [markSkip, List.map_cons, ih]
      split <;> rfl

theorem map_plain_marked (fn : Function) (isFunc : Option (Addr → Bool)) (s : Addr) :
    ((withCarryMarks (analyzeBlockFlagLiveness fn) isFunc).blocks s).map plain =
      (fn.blocks s).map plain := by
  have hskip : ((analyzeBlockFlagLiveness fn).blocks s).map plain = (fn.blocks s).map plain := by
    show (((fn.blocks s).map _).map plain) = _
    rw [Option.map_map]
    congr 1
    funext b
    show BasicBlock.mk b.startAddr b.endAddr ((markSkip b.insts).1.map unmarked) = _
    rw [markSkip_unmarked]
    rfl
  exact (map_plain_of_sameBlocks (carryBlocks_same _ _) s).trans hskip

/-- The blocks of the result are those of the walk, but for marks. -/
theorem map_plain_disasm {fuel : ℕ} {w : Walk} {fn : Function} {calls : List Addr}
    (hw : d.walk fuel entryAddr = some w)
    (h : d.disasmBranchFollowing fuel entryAddr = some (fn, calls)) (s : Addr) :
    (fn.blocks s).map plain = (w.blocks entryAddr s).map plain := by
  unfold Disassembler.disasmBranchFollowing at h
  rw [hw] at h
  simp only [Option.bind_eq_bind, Option.bind_some] at h
  split at h
  · cases h
  · split at h
    · cases h
      rfl
    · cases h
      exact map_plain_marked _ _ s

theorem unmarked_decoded {w : Walk} (hw : WalkInv d w) {i : Instruction}
    (hi : i ∈ w.sortedInsts) : unmarked i = i := by
  obtain ⟨inst, -, heq⟩ := hw.decoded _ i ((mem_sortedInsts hw).1 hi)
  rw [heq]
  rfl

/-! ### groups -/

theorem groups_flatten (w : Walk) (entryAddr : Addr) :
    (w.groups entryAddr).flatten = w.sortedInsts := List.flatten_splitBy _ _

theorem mem_of_mem_group {w : Walk} {g : List Instruction} (hg : g ∈ w.groups entryAddr)
    {i : Instruction} (hi : i ∈ g) : i ∈ w.sortedInsts := by
  rw [← groups_flatten w entryAddr]
  exact List.mem_flatten.2 ⟨g, hg, hi⟩

theorem exists_group {w : Walk} {i : Instruction} (entryAddr : Addr) (hi : i ∈ w.sortedInsts) :
    ∃ g ∈ w.groups entryAddr, i ∈ g := by
  rw [← groups_flatten w entryAddr] at hi
  exact List.mem_flatten.1 hi

theorem group_ne_nil {w : Walk} {g : List Instruction} (hg : g ∈ w.groups entryAddr) : g ≠ [] :=
  List.ne_nil_of_mem_splitBy hg

theorem group_next {w : Walk} (hw : WalkInv d w) {g pre post : List Instruction}
    {i j : Instruction} (hg : g ∈ w.groups entryAddr) (hs : g = pre ++ i :: j :: post) :
    j.address = i.nextPC ∧ d.endsRun i = false := by
  have hchain := List.isChain_of_mem_splitBy hg
  have hj := List.isChain_iff_forall_rel_of_append_cons_cons.1 hchain hs
  obtain ⟨gs₁, gs₂, hgs⟩ := List.append_of_mem hg
  have hL : w.sortedInsts = (gs₁.flatten ++ pre) ++ i :: j :: (post ++ gs₂.flatten) := by
    rw [← groups_flatten w entryAddr, hgs, hs]
    simp
  refine follows_of_not_leader entryAddr hw hL ?_
  simpa [sameBlock] using hj

theorem group_of_leader {w : Walk} (hw : WalkInv d w) {a : Addr} (hdec : (w.insts a).isSome)
    (hlead : leadersOf w entryAddr a = true) : ∃ g ∈ w.groups entryAddr, startOf g = a := by
  obtain ⟨i, hi⟩ := Option.isSome_iff_exists.1 hdec
  have hia := (hw.nextPC hi).1
  have hmem : i ∈ w.sortedInsts := (mem_sortedInsts hw).2 (hia.symm ▸ hi)
  rw [← hia] at hlead
  obtain ⟨g, hg, hstart⟩ := splitBy_of_leader hmem hlead
  exact ⟨g, hg, hstart.trans hia⟩

theorem group_falls {w : Walk} (hw : WalkInv d w) {g : List Instruction} {i : Instruction}
    (hg : g ∈ w.groups entryAddr) (hi : g.getLast? = some i) (hdec : (w.insts i.nextPC).isSome) :
    ∃ g' ∈ w.groups entryAddr, startOf g' = i.nextPC := by
  obtain ⟨pre, hs⟩ := List.getLast?_eq_some_iff.1 hi
  obtain ⟨gs₁, gs₂, hgs⟩ := List.append_of_mem hg
  have hL : w.sortedInsts = (gs₁.flatten ++ pre) ++ i :: gs₂.flatten := by
    rw [← groups_flatten w entryAddr, hgs, hs]
    simp
  rcases leader_or_next entryAddr hw hL hdec with hlead | ⟨j, rest, hj, hjaddr⟩
  · exact group_of_leader hw hdec hlead
  · cases gs₂ with
    | nil => cases hj
    | cons g' gs₂ =>
        have hg' : g' ∈ w.groups entryAddr := by
          rw [hgs]
          simp
        obtain ⟨k, g', rfl⟩ := List.exists_cons_of_ne_nil (group_ne_nil hg')
        rw [List.flatten_cons, List.cons_append, List.cons.injEq] at hj
        exact ⟨_, hg', (startOf_cons k g').trans (hj.1 ▸ hjaddr)⟩

theorem group_unique {w : Walk} (hw : WalkInv d w) {g g' : List Instruction}
    (hg : g ∈ w.groups entryAddr) (hg' : g' ∈ w.groups entryAddr) {a : Addr}
    (ha : a ∈ g.map (·.address)) (ha' : a ∈ g'.map (·.address)) : g = g' := by
  obtain ⟨i, hi, rfl⟩ := List.mem_map.1 ha
  obtain ⟨j, hj, hji⟩ := List.mem_map.1 ha'
  by_contra hne
  have hdisjoint : (w.groups entryAddr).Pairwise fun g g' =>
      ∀ i ∈ g, ∀ j ∈ g', i.address ≠ j.address :=
    (groups_pairwise hw entryAddr).imp fun {g g'} h i hi j hj e => by
      have hlt := h i hi j hj
      rw [e] at hlt
      omega
  have : Std.Symm fun g g' : List Instruction => ∀ i ∈ g, ∀ j ∈ g', i.address ≠ j.address :=
    ⟨fun g g' h i hi j hj e => h j hj i hi e.symm⟩
  exact hdisjoint.forall hg hg' hne i hi j hj hji.symm

theorem startOf_mem {g : List Instruction} (h : g ≠ []) : startOf g ∈ g.map (·.address) := by
  obtain ⟨i, g, rfl⟩ := List.exists_cons_of_ne_nil h
  exact List.mem_map_of_mem List.mem_cons_self

/-! ### the partition -/

/-- The blocks of a function partition the instructions decoded for it. -/
structure Partition (d : Disassembler) (w : Walk) (blocks : Addr → Option BasicBlock) : Prop where
  /-- A block is found under the address of its first instruction. -/
  start : ∀ s b, blocks s = some b → b.startAddr = s ∧ (b.insts.head?.map (·.address)) = some s
  /-- A block holds decoded instructions. -/
  decoded : ∀ s b, blocks s = some b → ∀ i ∈ b.insts, w.insts i.address = some (unmarked i)
  /-- A decoded address belongs to exactly one block. -/
  cover : ∀ a, (w.insts a).isSome → ∃! s, ∃ b, blocks s = some b ∧ a ∈ b.insts.map (·.address)
  /-- Each instruction starts where the one before ends. -/
  chain : ∀ s b, blocks s = some b → b.insts.IsChain fun i j => j.address = i.nextPC
  /-- Only the last instruction is a jump, a return, a trap or a call that does not return. -/
  ends : ∀ s b, blocks s = some b → ∀ pre i j post, b.insts = pre ++ i :: j :: post →
    d.endsRun i = false
  /-- A block ends where its last instruction ends. -/
  endAddr : ∀ s b, blocks s = some b → ∃ i, b.insts.getLast? = some i ∧ b.endAddr = i.nextPC
  /-- Where a block can fall through into decoded code, a block starts. -/
  falls : ∀ s b, blocks s = some b → (w.insts b.endAddr).isSome → (blocks b.endAddr).isSome

/-- **Partition.**  Whatever order the worklist took, the blocks of the result partition the
instructions it decoded. -/
theorem branchFollowing_partition {fuel : ℕ} {w : Walk} {fn : Function} {calls : List Addr}
    (hw : d.walk fuel entryAddr = some w)
    (h : d.disasmBranchFollowing fuel entryAddr = some (fn, calls)) : Partition d w fn.blocks := by
  have hinv := walkInv_walk hw
  have hplain := map_plain_disasm hw h
  have hgroup : ∀ s b, fn.blocks s = some b → ∃ g ∈ w.groups entryAddr, startOf g = s ∧
      b.insts.map unmarked = g ∧ b.startAddr = s ∧ b.endAddr = (blockOf g).endAddr := by
    intro s b hb
    have hs := hplain s
    rw [hb, Option.map_some] at hs
    obtain ⟨b₀, hb₀, hpl⟩ := Option.map_eq_some_iff.1 hs.symm
    obtain ⟨g, hg, hstart, rfl⟩ := (blocks_iff hinv entryAddr s b₀).1 hb₀
    have hmap : g.map unmarked = g := by
      conv_rhs => rw [← List.map_id g]
      exact List.map_congr_left fun i hi => unmarked_decoded hinv (mem_of_mem_group hg hi)
    simp only [plain, BasicBlock.mk.injEq, blockOf_insts, blockOf_startAddr, hmap] at hpl
    exact ⟨g, hg, hstart, hpl.2.2.symm, hpl.1.symm.trans hstart, hpl.2.1.symm⟩
  have hblock : ∀ g ∈ w.groups entryAddr, ∃ b, fn.blocks (startOf g) = some b ∧
      b.insts.map unmarked = g := by
    intro g hg
    have hs := hplain (startOf g)
    rw [(blocks_iff hinv entryAddr (startOf g) (blockOf g)).2 ⟨g, hg, rfl, rfl⟩,
      Option.map_some] at hs
    obtain ⟨b, hb, -⟩ := Option.map_eq_some_iff.1 hs
    obtain ⟨g', hg', hstart, hmap, -⟩ := hgroup _ b hb
    have hmem := startOf_mem (group_ne_nil hg')
    rw [hstart] at hmem
    exact ⟨b, hb, hmap.trans (group_unique hinv hg' hg hmem (startOf_mem (group_ne_nil hg)))⟩
  have haddr : ∀ (b : BasicBlock) g, b.insts.map unmarked = g →
      g.map (·.address) = b.insts.map (·.address) := by
    rintro b g rfl
    rw [List.map_map]
    rfl
  have hnext : ∀ s b, fn.blocks s = some b → ∀ pre i j post, b.insts = pre ++ i :: j :: post →
      j.address = i.nextPC ∧ d.endsRun i = false := by
    intro s b hb pre i j post hs
    obtain ⟨g, hg, -, hmap, -⟩ := hgroup s b hb
    have hg' : g = pre.map unmarked ++ unmarked i :: unmarked j :: post.map unmarked := by
      rw [← hmap, hs]
      simp
    exact group_next (i := unmarked i) (j := unmarked j) hinv hg hg'
  constructor
  case start =>
    intro s b hb
    obtain ⟨g, hg, hstart, hmap, hsa, -⟩ := hgroup s b hb
    refine ⟨hsa, ?_⟩
    obtain ⟨i, is, hi⟩ := List.exists_cons_of_ne_nil (group_ne_nil hg)
    obtain ⟨j, js, hj, rfl, rfl⟩ := List.map_eq_cons_iff.1 (hmap.trans hi)
    rw [hj, ← hstart, hi]
    rfl
  case decoded =>
    intro s b hb i hi
    obtain ⟨g, hg, -, hmap, -⟩ := hgroup s b hb
    have hig : unmarked i ∈ g := hmap ▸ List.mem_map_of_mem hi
    exact (mem_sortedInsts hinv).1 (mem_of_mem_group hg hig)
  case cover =>
    intro a ha
    obtain ⟨i, hi⟩ := Option.isSome_iff_exists.1 ha
    have hia := (hinv.nextPC hi).1
    obtain ⟨g, hg, hig⟩ := exists_group entryAddr ((mem_sortedInsts hinv).2 (hia.symm ▸ hi))
    have hag : a ∈ g.map (·.address) := List.mem_map.2 ⟨i, hig, hia⟩
    obtain ⟨b, hb, hmap⟩ := hblock g hg
    refine ⟨startOf g, ⟨b, hb, (haddr b g hmap) ▸ hag⟩, ?_⟩
    rintro s ⟨b', hb', hab'⟩
    obtain ⟨g', hg', hstart, hmap', -⟩ := hgroup s b' hb'
    rw [← haddr b' g' hmap'] at hab'
    rw [← hstart, group_unique hinv hg' hg hab' hag]
  case chain =>
    intro s b hb
    exact List.isChain_iff_forall_rel_of_append_cons_cons.2 fun i j pre post hs =>
      (hnext s b hb pre i j post hs).1
  case ends => exact fun s b hb pre i j post hs => (hnext s b hb pre i j post hs).2
  case endAddr =>
    intro s b hb
    obtain ⟨g, hg, -, hmap, -, hea⟩ := hgroup s b hb
    have hne : b.insts ≠ [] := fun e => group_ne_nil hg (by rw [← hmap, e]; rfl)
    refine ⟨_, List.getLast?_eq_some_getLast hne, ?_⟩
    have hlast : g.getLast? = some (unmarked (b.insts.getLast hne)) := by
      rw [← hmap, List.getLast?_map, List.getLast?_eq_some_getLast hne]
      rfl
    rw [hea, blockOf_endAddr hlast]
    rfl
  case falls =>
    intro s b hb hdec
    obtain ⟨g, hg, -, hmap, -, hea⟩ := hgroup s b hb
    obtain ⟨i, hi⟩ : ∃ i, g.getLast? = some i :=
      ⟨_, List.getLast?_eq_some_getLast (group_ne_nil hg)⟩
    rw [hea, blockOf_endAddr hi] at hdec ⊢
    obtain ⟨g', hg', hstart⟩ := group_falls hinv hg hi hdec
    obtain ⟨b', hb', -⟩ := hblock g' hg'
    rw [← hstart, hb']
    rfl

/-! ### two overlapping streams -/

/-- The image of `overlap_test.go`: a branch into the immediate of `mov eax, 0xc0ff2211`. -/
def overlapImage : List (BitVec 8) :=
  List.replicate 0x40 0 ++ [0x85, 0xff, 0x74, 0x03, 0xb8, 0x11, 0x22, 0xff, 0xc0, 0xc3] ++
    List.replicate 0xb6 0

/-- The decodings of its bytes. -/
def overlapDecode : List (BitVec 8) → Option Inst
  | 0x85 :: 0xff :: _ => some { op := .test, len := 2, args := [.reg (.l .rdi), .reg (.l .rdi)] }
  | 0x74 :: rel :: _ => some { op := .jcc .e, len := 2, args := [.rel (rel.signExtend 32)] }
  | 0xb8 :: b₀ :: b₁ :: b₂ :: b₃ :: _ =>
      some { op := .mov, len := 5
             args := [.reg (.l .rax), .imm ((b₃ ++ b₂ ++ b₁ ++ b₀).signExtend 64)] }
  | 0xff :: 0xc0 :: _ => some { op := .inc, len := 2, args := [.reg (.l .rax)] }
  | 0xc3 :: _ => some { op := .ret, len := 1 }
  | _ => none

/-- The disassembler of the test. -/
def overlapDisassembler : Disassembler where
  image := overlapImage
  decode := overlapDecode
  exec _ := true
  isNoReturn _ := false
  seedable _ := false
  inUnwindScope _ := false
  functionEnd _ := 0x100
  skipFlagLiveness := false
  resolveJumpTable _ _ _ _ _ := (none, [])
  image_length := by
    simp only [overlapImage, List.length_append, List.length_replicate, List.length_cons]
    decide
  decode_len bytes inst h := by
    unfold overlapDecode at h
    split at h
    all_goals first
      | (cases h; simp only [List.length_cons]; omega)
      | cases h

theorem branchFollowing_partition_overlap :
    ∃ w fn calls, overlapDisassembler.disasmBranchFollowing 20 0x40 = some (fn, calls) ∧
      fn.blockOrder = [0x40, 0x44, 0x47, 0x49] ∧ Partition overlapDisassembler w fn.blocks := by
  obtain ⟨w, hw⟩ : ∃ w, overlapDisassembler.walk 20 0x40 = some w :=
    Option.isSome_iff_exists.1 (by decide +kernel)
  obtain ⟨r, hr⟩ : ∃ r, overlapDisassembler.disasmBranchFollowing 20 0x40 = some r :=
    Option.isSome_iff_exists.1 (by decide +kernel)
  refine ⟨w, r.1, r.2, hr, ?_, branchFollowing_partition hw hr⟩
  have horder : (overlapDisassembler.disasmBranchFollowing 20 0x40).map (·.1.blockOrder) =
      some [0x40, 0x44, 0x47, 0x49] := by decide +kernel
  rw [hr] at horder
  exact Option.some.inj horder

end PS4Recomp.Disasm
