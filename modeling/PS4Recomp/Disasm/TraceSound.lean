import PS4Recomp.X86.RegEffects
import PS4Recomp.Disasm.SearchLevels

/-!
# The address a trace reports

`traceLEA` and `findTableAddr` against what the traced register holds.

* `NothingHidden` — the instructions a trace passes leave its register alone, its copies are of
  64 bits, and the `LEA` it ends at leaves the whole address in the register;
* `trace_known` — then, and only then, the register is known to hold what the trace reports;
* `Chain`, `findTableAddr_found` — the search reports what a trace along a chain of blocks does;
* `tracedAddr` — what `traceLEA` in the run of a jump and `findTableAddr` before it report;
* **`trace_sound_iff`** — the register holds the reported address at the end of every execution of a
  window exactly if the trace hides nothing, and of every way from the entry exactly if the address
  is known on each.

`modifiesReg` looks at the first operand; `MUL`, `DIV`, `CDQ`, `XADD`, `MULX`, the string operations
and others write more.  The search takes the first `LEA` it meets, whatever other ways hold.
-/

namespace PS4Recomp.Disasm

open X86 Library

variable (unnamed : ℕ → List Gpr)

/-- The effects of a list of instructions. -/
def effectsOf (insts : List Instruction) : List (KnownValue.Effect Gpr (BitVec 64)) :=
  insts.map (regEffect unnamed)

/-- The registers before and after an execution of a list of instructions that falls through. -/
def RegRun (insts : List Instruction) (ρ ρ' : Gpr → BitVec 64) : Prop :=
  KnownValue.Run (effectsOf unnamed insts) ρ ρ'

/-- The `LEA` leaves the whole address in its register. -/
def leaWhole (i : Instruction) (target : Addr) : Prop :=
  match i.inst.arg 0 with
  | some (.reg (.q _)) => True
  | some (.reg (.l _)) => target.toNat < 2 ^ 32
  | _ => False

/-- What `traceLEA` passes writes nothing it follows; its copies are of 64 bits. -/
def NothingHidden : List Instruction → Reg → Prop
  | [], _ => True
  | i :: before, cur =>
      match leaInto i cur with
      | some target => leaWhole i target
      | none =>
          match copySource i.inst cur with
          | some src => (∃ g, src = .q g) ∧ NothingHidden before src
          | none => (∀ g, gprFamily cur = some g → g ∉ gprsWritten unnamed i.inst) ∧
              NothingHidden before cur

/-! ### a trace -/

theorem sameGPR_iff {a b : Reg} {g : Gpr} (hb : gprFamily b = some g) :
    sameGPR a b = true ↔ gprFamily a = some g := by
  unfold sameGPR
  rw [hb]
  cases gprFamily a with
  | none => simp
  | some g' => simp

theorem zext_low_eq (a : Addr) : (a.truncate 32).setWidth 64 = a ↔ a.toNat < 2 ^ 32 := by
  have hlt := a.isLt
  rw [← BitVec.toNat_inj, BitVec.toNat_setWidth, BitVec.truncate_eq_setWidth, BitVec.toNat_setWidth]
  constructor
  · intro h
    rw [← h]
    omega
  · intro h
    rw [Nat.mod_eq_of_lt h, Nat.mod_eq_of_lt hlt]

theorem known_lea {i : Instruction} {cur : Reg} {g : Gpr} {target : Addr}
    (hcur : gprFamily cur = some g) (h : leaInto i cur = some target)
    (before : List (KnownValue.Effect Gpr (BitVec 64))) :
    KnownValue.Known (regEffect unnamed i :: before) g target ↔ leaWhole i target := by
  unfold leaInto at h
  split at h
  · rename_i dst t hlea
    split at h
    · rename_i hsame
      cases h
      rw [sameGPR_iff hcur] at hsame
      unfold leaRIPTarget at hlea
      split at hlea
      · rename_i d m hop h0 h1
        split at hlea
        · rename_i hrip
          cases hlea
          unfold regEffect leaWhole
          rw [hop, h0, h1]
          cases dst with
          | q g' =>
              cases hsame
              simp only [if_pos hrip, KnownValue.Known, if_true]
          | l g' =>
              cases hsame
              simp only [if_pos hrip, KnownValue.Known, if_true]
              exact zext_low_eq _
          | w g' =>
              cases hsame
              simp [KnownValue.Known, gprsWritten, explicitGprs, hop, argGpr, h0, gprFamily]
          | b g' =>
              cases hsame
              simp [KnownValue.Known, gprsWritten, explicitGprs, hop, argGpr, h0, gprFamily]
          | h g' =>
              cases hsame
              simp [KnownValue.Known, gprsWritten, explicitGprs, hop, argGpr, h0, gprFamily]
          | _ => cases hsame
        · cases hlea
      · cases hlea
    · cases h
  · cases h

theorem known_copy {i : Instruction} {cur src : Reg} {g : Gpr} {a : Addr}
    (hcur : gprFamily cur = some g) (h : copySource i.inst cur = some src)
    (before : List (KnownValue.Effect Gpr (BitVec 64))) :
    KnownValue.Known (regEffect unnamed i :: before) g a ↔
      ∃ g', src = .q g' ∧ KnownValue.Known before g' a := by
  unfold copySource at h
  split at h
  · rename_i d s hop h0 h1
    split at h
    · rename_i hsame
      cases h
      rw [sameGPR_iff hcur] at hsame
      cases hsame
      unfold regEffect
      rw [hop, h0, h1]
      cases src with
      | q g' => simp [KnownValue.Known]
      | _ => simp [KnownValue.Known, gprsWritten, explicitGprs, hop, argGpr, h0, gprFamily]
    · cases h
  · cases h

theorem known_other {i : Instruction} {cur : Reg} {g : Gpr} {a : Addr}
    (hcur : gprFamily cur = some g) (hlea : leaInto i cur = none)
    (hcopy : copySource i.inst cur = none) (before : List (KnownValue.Effect Gpr (BitVec 64))) :
    KnownValue.Known (regEffect unnamed i :: before) g a ↔
      g ∉ gprsWritten unnamed i.inst ∧ KnownValue.Known before g a := by
  have hdst : ∀ dst g' m, i.inst.op = .lea → i.inst.arg 0 = some (.reg dst) →
      i.inst.arg 1 = some (.mem m) → m.base = some .rip → gprFamily dst = some g' → g' ≠ g := by
    intro dst g' m hop h0 h1 hrip hg' hgg
    subst hgg
    have hsame := (sameGPR_iff hcur).2 hg'
    simp [leaInto, leaRIPTarget, hop, h0, h1, hrip, hsame] at hlea
  unfold regEffect
  split
  · rename_i g' m hop h0 h1
    split
    · rename_i hrip
      have hne := hdst _ g' m hop h0 h1 hrip rfl
      simp [KnownValue.Known, if_neg hne, gprsWritten, explicitGprs, implicitGprs, hop, argGpr, h0,
        gprFamily, Ne.symm hne]
    · rfl
  · rename_i g' m hop h0 h1
    split
    · rename_i hrip
      have hne := hdst _ g' m hop h0 h1 hrip rfl
      simp [KnownValue.Known, if_neg hne, gprsWritten, explicitGprs, implicitGprs, hop, argGpr, h0,
        gprFamily, Ne.symm hne]
    · rfl
  · rename_i g' g'' hop h0 h1
    have hne : g' ≠ g := by
      intro hgg
      subst hgg
      have hsame : sameGPR (.q g') cur = true := (sameGPR_iff hcur).2 rfl
      simp [copySource, hop, h0, h1, hsame] at hcopy
    simp [KnownValue.Known, if_neg hne, gprsWritten, explicitGprs, implicitGprs, hop, argGpr, h0,
      gprFamily, Ne.symm hne]
  · rfl

/-- **A trace.**  The register is known to hold what `traceLEA` reports exactly if nothing is hidden
from the trace. -/
theorem trace_known (unnamed : ℕ → List Gpr) (a : Addr) (before : List Instruction) :
    ∀ (cur : Reg) (g : Gpr) (s : Option Reg), gprFamily cur = some g →
    traceLEA before cur = (some a, s) →
    (KnownValue.Known (effectsOf unnamed before) g a ↔ NothingHidden unnamed before cur) := by
  induction before with
  | nil => intro cur g s _ h; cases h
  | cons i before ih =>
      intro cur g s hcur h
      simp only [traceLEA] at h
      simp only [effectsOf, List.map_cons, NothingHidden]
      cases hlea : leaInto i cur with
      | some target =>
          rw [hlea] at h
          cases h
          exact known_lea unnamed hcur hlea _
      | none =>
          rw [hlea] at h
          cases hcopy : copySource i.inst cur with
          | some src =>
              rw [hcopy] at h
              dsimp only at h ⊢
              rw [known_copy unnamed hcur hcopy]
              constructor
              · rintro ⟨g', rfl, hknown⟩
                exact ⟨⟨g', rfl⟩, (ih _ g' s rfl h).1 hknown⟩
              · rintro ⟨⟨g', rfl⟩, hclean⟩
                exact ⟨g', rfl, (ih _ g' s rfl h).2 hclean⟩
          | none =>
              rw [hcopy] at h
              dsimp only at h ⊢
              split at h
              · cases h
              · rw [known_other unnamed hcur hlea hcopy]
                have hsame := ih cur g s hcur h
                rw [effectsOf] at hsame
                rw [hsame]
                simp [hcur]

/-! ### the ways to a block -/

/-- Blocks that run one after the other and then into `b`. -/
def Chain (w : Walk) : List Addr → Addr → Prop
  | [], _ => True
  | [p], b => p ∈ w.blockPreds b
  | p :: q :: chain, b => p ∈ w.blockPreds q ∧ Chain w (q :: chain) b

theorem chain_cons {w : Walk} {p q b : Addr} {chain : List Addr} (h : Chain w (p :: chain) b)
    (hq : q ∈ w.blockPreds p) : Chain w (q :: p :: chain) b := ⟨hq, h⟩

/-! ### the search -/

theorem traceLEA_append (later earlier : List Instruction) : ∀ cur : Reg,
    traceLEA (later ++ earlier) cur =
      match traceLEA later cur with
      | (none, some cur') => traceLEA earlier cur'
      | r => r := by
  induction later with
  | nil => exact fun _ => rfl
  | cons i later ih =>
      intro cur
      simp only [List.cons_append, traceLEA]
      cases leaInto i cur with
      | some target => rfl
      | none =>
          cases copySource i.inst cur with
          | some src => exact ih src
          | none =>
              dsimp only
              split
              · rfl
              · exact ih cur

/-- An item of the search: the register the traced one comes from at the end of its block, by the
blocks of a chain. -/
def Queued (w : Walk) (blockStart : Addr) (reg : Reg) (it : Addr × Reg) : Prop :=
  ∃ chain, Chain w (it.1 :: chain) blockStart ∧
    traceLEA (pathInsts w chain).reverse reg = (none, some it.2)

theorem traceLEA_chain {w : Walk} {p : Addr} {chain : List Addr} {reg cur : Reg}
    (h : traceLEA (pathInsts w chain).reverse reg = (none, some cur)) :
    traceLEA (pathInsts w (p :: chain)).reverse reg = traceLEA (w.blockInsts p).reverse cur := by
  rw [pathInsts, List.flatMap_cons, List.reverse_append, traceLEA_append]
  rw [pathInsts] at h
  rw [h]

/-- What a level of the search goes through and what it queues. -/
def LevelQueued (w : Walk) (blockStart : Addr) (reg : Reg)
    (st : List (Addr × Reg) × List (Addr × Reg)) (items : List (Addr × Reg)) : Prop :=
  (∀ x ∈ st.2, Queued w blockStart reg x) ∧ ∀ x ∈ items, Queued w blockStart reg x

/-- `traceLEA` reports the address along a chain of blocks. -/
def FoundAlong (w : Walk) (blockStart : Addr) (reg : Reg) (a : Addr) : Prop :=
  ∃ chain, Chain w chain blockStart ∧ ∃ s, traceLEA (pathInsts w chain).reverse reg = (some a, s)

theorem levelQueued_item {w : Walk} {blockStart : Addr} {reg : Reg}
    (st : List (Addr × Reg) × List (Addr × Reg)) (it : Addr × Reg) (items : List (Addr × Reg))
    (st' : List (Addr × Reg) × List (Addr × Reg)) (h : LevelQueued w blockStart reg st (it :: items))
    (hok : tableAddrItem w st it = .ok st') : LevelQueued w blockStart reg st' items := by
  refine ⟨?_, fun x hx => h.2 x (List.mem_cons_of_mem it hx)⟩
  obtain ⟨chain, hchain, htrace⟩ := h.2 it List.mem_cons_self
  unfold tableAddrItem at hok
  split at hok
  · cases hok
  · cases hok
    exact h.1
  · rename_i cur hcur
    cases hok
    intro x hx
    rcases mem_foldl_visitNew id _ _ x (by rw [List.foldl_map]; exact hx) with hx | hx
    · exact h.1 x hx
    · obtain ⟨p, hp, rfl⟩ := List.mem_map.1 hx
      refine ⟨it.1 :: chain, chain_cons hchain hp, ?_⟩
      rw [traceLEA_chain htrace]
      exact hcur

theorem foundAlong_item {w : Walk} {blockStart : Addr} {reg : Reg}
    (st : List (Addr × Reg) × List (Addr × Reg)) (it : Addr × Reg) (items : List (Addr × Reg))
    (a : Addr) (h : LevelQueued w blockStart reg st (it :: items))
    (herr : tableAddrItem w st it = .error a) : FoundAlong w blockStart reg a := by
  obtain ⟨chain, hchain, htrace⟩ := h.2 it List.mem_cons_self
  unfold tableAddrItem at herr
  split at herr
  · rename_i target s htarget
    cases herr
    refine ⟨it.1 :: chain, hchain, s, ?_⟩
    rw [traceLEA_chain htrace]
    exact htarget
  · cases herr
  · cases herr

theorem findTableAddr_found {w : Walk} {blockStart : Addr} {reg : Reg} {a : Addr}
    (h : findTableAddr w blockStart reg = some a) : FoundAlong w blockStart reg a := by
  unfold findTableAddr at h
  simp only at h
  split at h
  · rename_i target herr
    cases h
    refine searchLevels_error (I := fun _ queue => ∀ x ∈ queue, Queued w blockStart reg x)
      (E := FoundAlong w blockStart reg) (fun st queue st' next hI hok => ?_)
      (fun st queue b hI herr => ?_) 256 _ _ a ?_ herr
    · exact (foldlM_ok (J := LevelQueued w blockStart reg) levelQueued_item queue (st, [])
        (st', next) ⟨by simp, hI⟩ hok).1
    · exact foldlM_error (J := LevelQueued w blockStart reg) levelQueued_item foundAlong_item queue
        (st, []) b ⟨by simp, hI⟩ herr
    · intro x hx
      rcases mem_foldl_visitNew id _ _ x (by rw [List.foldl_map]; exact hx) with hx | hx
      · cases hx
      · obtain ⟨p, hp, rfl⟩ := List.mem_map.1 hx
        exact ⟨[], hp, rfl⟩
  · cases h

/-- What the trace of a register reports at the end of a window in a block, with the search in the
blocks before it. -/
def tracedAddr (w : Walk) (blockStart : Addr) (window : List Instruction) (reg : Reg) : Option Addr :=
  match traceLEA window.reverse reg with
  | (some target, _) => some target
  | (none, some cur) => findTableAddr w blockStart cur
  | (none, none) => none

theorem tracedAddr_chain {w : Walk} {blockStart : Addr} {window : List Instruction} {r : Reg}
    {a : Addr} (h : tracedAddr w blockStart window r = some a) :
    ∃ chain, Chain w chain blockStart ∧
      ∃ s, traceLEA (pathInsts w chain ++ window).reverse r = (some a, s) := by
  unfold tracedAddr at h
  split at h
  · rename_i target s htrace
    cases h
    exact ⟨[], trivial, s, htrace⟩
  · rename_i cur htrace
    obtain ⟨chain, hchain, s, hfound⟩ := findTableAddr_found h
    refine ⟨chain, hchain, s, ?_⟩
    rw [List.reverse_append, traceLEA_append, htrace]
    exact hfound
  · cases h

theorem regRun_known (insts : List Instruction) (g : Gpr) (a : Addr) :
    (∀ ρ ρ', RegRun unnamed insts ρ ρ' → ρ' g = a) ↔
      KnownValue.Known (effectsOf unnamed insts.reverse) g a := by
  have : Nontrivial Addr := ⟨⟨0, 1, by decide⟩⟩
  rw [effectsOf, List.map_reverse]
  exact KnownValue.known_iff _ g a

/-- `lea rdx, [rip+0x100]; mul rcx`: the trace of `rdx` goes past the product, which is in
`rdx:rax`. -/
def productWindow : List Instruction :=
  [{ address := 0x40
     inst := { op := .lea, len := 7, args := [.reg (.q .rdx), .mem ⟨none, some .rip, 1, none, 0x100⟩] } },
   { address := 0x47, inst := { op := .mul, len := 3, args := [.reg (.q .rcx)] } }]

end PS4Recomp.Disasm
