import PS4Recomp.Disasm.FlagLiveness
import PS4Recomp.Library.DeadState
import PS4Recomp.X86.FlagEffects

/-!
# A mark `SkipFlags` is sound

The flags of a marked instruction are dead: nothing reads them before the block defines them all.

* `flagsRead_of_not_reads`, `flagsDefined_of_definesAll` — the two classifications of the pass
  against the x86 table;
* `FlagMachine` — a processor that reads and defines flags as the table says;
* `markSkip_redefined` — the code after a marked instruction defines every flag before it reads one;
* **`skipFlags_sound`** — whatever flags a marked instruction leaves, the rest of the block runs the
  same.
-/

namespace PS4Recomp.Disasm

open X86 Library

theorem flagsRead_of_not_reads {inst : Inst} (h : readsAnyFlag inst = false) : flagsRead inst = ∅ := by
  obtain ⟨prefixes, op, opcode, addrSize, dataSize, memBytes, len, args⟩ := inst
  cases op
  all_goals first
    | rfl
    | cases h
    | (refine if_pos ?_
       simpa [readsAnyFlag, knownCarryOverflowEffect, flagNeutral, Op.nameV, Op.nameF] using h)

theorem flagsDefined_of_definesAll {inst : Inst} (h : definesAllFlags inst = true) :
    flagsDefined inst = Set.univ := by
  obtain ⟨prefixes, op, opcode, addrSize, dataSize, memBytes, len, args⟩ := inst
  cases op
  all_goals first
    | rfl
    | cases h
    | exact if_pos h

/-- A processor whose instructions read and define the arithmetic flags of the x86 table.  `S` is the
rest of its state; what an instruction leaves in a flag that it makes undefined may depend on it. -/
structure FlagMachine (S : Type) extends DeadState.Machine Inst ArithFlag Bool S where
  reads_eq : reads = flagsRead
  defines_eq : defines = flagsDefined

/-! ### the marks of a block -/

/-- No instruction is marked yet. -/
def Unmarked (is : List Instruction) : Prop := ∀ i ∈ is, i.skipFlags = false

theorem markSkip_inst (is : List Instruction) : (markSkip is).1.map (·.inst) = is.map (·.inst) := by
  induction is with
  | nil => rfl
  | cons i is ih =>
      rw [markSkip, List.map_cons, List.map_cons, ih]
      split
      · rfl
      · rfl

/-- Code that defines every flag before it reads one. -/
def FlagsRedefined (is : List Instruction) : Prop :=
  ∃ mid d rest, is = mid ++ d :: rest ∧ (∀ i ∈ mid, flagsRead i.inst = ∅) ∧ flagsRead d.inst = ∅ ∧
    flagsDefined d.inst = Set.univ

/-- The flags are not live before code that defines them all first. -/
theorem redefined_of_not_live {is : List Instruction} (h : (markSkip is).2 = false) :
    FlagsRedefined is := by
  induction is with
  | nil => cases h
  | cons i is ih =>
      cases hreads : readsAnyFlag i.inst with
      | true =>
          simp [markSkip, hreads] at h
      | false =>
          have hno := flagsRead_of_not_reads hreads
          cases hdef : definesAllFlags i.inst with
          | true => exact ⟨[], i, is, rfl, by simp, hno, flagsDefined_of_definesAll hdef⟩
          | false =>
              have hlive : (markSkip is).2 = false := by simpa [markSkip, hreads, hdef] using h
              obtain ⟨mid, d, rest, rfl, hmid, hd⟩ := ih hlive
              refine ⟨i :: mid, d, rest, rfl, ?_, hd⟩
              intro j hj
              rcases List.mem_cons.1 hj with rfl | hj
              · exact hno
              · exact hmid j hj

theorem markSkip_split {is pre post : List Instruction} {i : Instruction} (hnew : Unmarked is)
    (hs : (markSkip is).1 = pre ++ i :: post) :
    ∃ rest, post = (markSkip rest).1 ∧
      (i.skipFlags = true → definesAllFlags i.inst = true ∧ (markSkip rest).2 = false) := by
  induction is generalizing pre with
  | nil => simp [markSkip] at hs
  | cons j is ih =>
      rw [markSkip] at hs
      cases pre with
      | nil =>
          obtain ⟨hi, hpost⟩ := List.cons.inj hs
          refine ⟨is, hpost.symm, fun hmark => ?_⟩
          have hj := hnew j (by simp)
          rw [← hi] at hmark ⊢
          split at hmark
          · rename_i hcond
            rw [if_pos hcond]
            simpa using hcond
          · rw [hj] at hmark
            cases hmark
      | cons p pre =>
          obtain ⟨-, hrest⟩ := List.cons.inj hs
          exact ih (fun k hk => hnew k (by simp [hk])) hrest

theorem flagsRedefined_congr {is js : List Instruction} (h : is.map (·.inst) = js.map (·.inst))
    (hr : FlagsRedefined is) : FlagsRedefined js := by
  obtain ⟨mid, d, rest, rfl, hmid, hd⟩ := hr
  rw [List.map_append, List.map_cons] at h
  obtain ⟨mid', js', rfl, hmid', hjs⟩ := List.map_eq_append_iff.1 h.symm
  obtain ⟨d', rest', rfl, hd', -⟩ := List.map_eq_cons_iff.1 hjs
  refine ⟨mid', d', rest', rfl, ?_, ?_⟩
  · intro i hi
    obtain ⟨j, hj, hji⟩ := List.mem_map.1 (hmid' ▸ List.mem_map_of_mem hi)
    rw [← hji]
    exact hmid j hj
  · rw [hd']
    exact hd

/-- **The flags of a marked instruction are dead.** -/
theorem markSkip_redefined {is pre post : List Instruction} {i : Instruction} (hnew : Unmarked is)
    (hs : (markSkip is).1 = pre ++ i :: post) (hmark : i.skipFlags = true) : FlagsRedefined post := by
  obtain ⟨rest, rfl, hlive⟩ := markSkip_split hnew hs
  exact flagsRedefined_congr (markSkip_inst rest).symm (redefined_of_not_live (hlive hmark).2)

/-- **`SkipFlags` is sound.**  The code after a marked instruction defines every flag before it reads
one and before its block ends.  So whatever flags the instruction leaves, each later instruction finds
the same registers and memory and the same flags that it reads, and the block ends in the same
state. -/
theorem skipFlags_sound {S : Type} (M : FlagMachine S) {fn : Function}
    (hnew : ∀ a b, fn.blocks a = some b → Unmarked b.insts) {a : Addr} {b : BasicBlock}
    (hb : (analyzeBlockFlagLiveness fn).blocks a = some b) {pre post : List Instruction}
    {i : Instruction} (hs : b.insts = pre ++ i :: post) (hmark : i.skipFlags = true) :
    FlagsRedefined post ∧ ∀ (f g : ArithFlag → Bool) (s : S),
      M.run (post.map (·.inst)) (f, s) = M.run (post.map (·.inst)) (g, s) ∧
      ∀ mid j rest, post = mid ++ j :: rest →
        (M.run (mid.map (·.inst)) (f, s)).2 = (M.run (mid.map (·.inst)) (g, s)).2 ∧
        ∀ k ∈ flagsRead j.inst,
          (M.run (mid.map (·.inst)) (f, s)).1 k = (M.run (mid.map (·.inst)) (g, s)).1 k := by
  obtain ⟨b₀, hb₀, rfl⟩ := Option.map_eq_some_iff.1 hb
  have hdead := markSkip_redefined (hnew a b₀ hb₀) hs hmark
  have hmachine : M.Redefined (post.map (·.inst)) := by
    obtain ⟨mid, d, rest, rfl, hmid, hread, hdef⟩ := hdead
    refine ⟨mid.map (·.inst), d.inst, rest.map (·.inst), by simp, ?_, ?_, ?_⟩
    · intro i hi
      obtain ⟨j, hj, rfl⟩ := List.mem_map.1 hi
      rw [M.reads_eq]
      exact hmid j hj
    · rw [M.reads_eq]
      exact hread
    · rw [M.defines_eq]
      exact hdef
  refine ⟨hdead, fun f g s => ⟨DeadState.run_eq_of_redefined hmachine f g s, ?_⟩⟩
  rintro mid j rest rfl
  have hsplit : (mid ++ j :: rest).map (·.inst) = mid.map (·.inst) ++ j.inst :: rest.map (·.inst) := by
    simp
  have hagree := DeadState.before_agrees hmachine hsplit f g s
  rw [M.reads_eq] at hagree
  exact hagree

open Classical in
/-- A processor that clears the flags it defines and has nothing else. -/
noncomputable def clearing : FlagMachine Unit where
  step i x := (fun k => if k ∈ flagsDefined i then false else x.1 k, ())
  reads := flagsRead
  defines := flagsDefined
  step_rest _ _ _ _ _ := rfl
  step_cell i f g s k _ h := by
    by_cases hk : k ∈ flagsDefined i
    · simp [hk]
    · simpa [hk] using h.resolve_left hk
  reads_eq := rfl
  defines_eq := rfl

/-- `add eax, ecx; cmp eax, ecx; je` in one block. -/
def addThenCmp : Function where
  entryAddr := 0x400000
  endAddr := 0x400006
  blocks a :=
    if a = 0x400000 then
      some
        { startAddr := 0x400000, endAddr := 0x400006
          insts :=
            [{ address := 0x400000, inst := { op := .add, len := 2, args := [.reg (.l .rax), .reg (.l .rcx)] } },
             { address := 0x400002, inst := { op := .cmp, len := 2, args := [.reg (.l .rax), .reg (.l .rcx)] } },
             { address := 0x400004, inst := { op := .jcc .e, len := 2, args := [.rel 0] } }] }
    else none
  blockOrder := [0x400000]
  jumpTables _ := []
  mem_blockOrder a := by
    by_cases h : a = 0x400000 <;> simp [h]
  nodup_blockOrder := by simp

theorem addThenCmp_unmarked : ∀ a b, addThenCmp.blocks a = some b → Unmarked b.insts := by
  intro a b hb i hi
  unfold addThenCmp at hb
  dsimp only at hb
  split at hb
  · obtain rfl := Option.some.inj hb
    simp only [List.mem_cons, List.not_mem_nil, or_false] at hi
    rcases hi with rfl | rfl | rfl <;> rfl
  · cases hb

/-- The flags of the `ADD` are dead. -/
theorem skipFlags_sound_add :
    FlagsRedefined ((markSkip (((addThenCmp.blocks 0x400000).map (·.insts)).getD [])).1.drop 1) ∧
      ∀ (f g : ArithFlag → Bool) (s : Unit),
        clearing.run (((markSkip (((addThenCmp.blocks 0x400000).map (·.insts)).getD [])).1.drop 1).map
          (·.inst)) (f, s) =
        clearing.run (((markSkip (((addThenCmp.blocks 0x400000).map (·.insts)).getD [])).1.drop 1).map
          (·.inst)) (g, s) :=
  have h := skipFlags_sound clearing addThenCmp_unmarked (a := 0x400000) rfl
    (show _ = [] ++ _ :: _ from rfl) rfl
  ⟨h.1, fun f g s => (h.2 f g s).1⟩

end PS4Recomp.Disasm
