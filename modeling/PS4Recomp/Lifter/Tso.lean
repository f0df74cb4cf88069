import PS4Recomp.Arm64.Adder
import PS4Recomp.Lifter.Lines

/-!
# Ordered guest accesses

`applyTSO` of `arm64_lifter_tso.go`: the scalar guest accesses of a lowered instruction become
acquire loads and release stores.

* `tsoApplies`, `scratchReg`, `orderedAccess`, `applyTSO` — the rewriting;
* `orderedPath` — the instructions one rewritten access executes, by its address;
* `orderedAccess_run` — one rewritten access does what the plain one does;
* `run_orderAll` — a run of the rewritten text follows the run of the original;
* **`applyTSO_sequential`** — the sequential meaning is kept, and no ordered access crosses a
  16-byte boundary.
-/

namespace PS4Recomp.Lifter

open X86 Arm64 Library

/-! ### the rewriting -/

/-- `isStringOp`. -/
def isStringOp : Op → Bool
  | .movs _ | .stos _ | .lods _ | .scas _ | .cmps _ => true
  | _ => false

/-- The registers whose instructions are not ordered: `X0`-`Y15` and `M0`-`M7`. -/
def isVectorReg : Reg → Bool
  | .xmm _ | .mm _ => true
  | .ymm n => decide (n.val < 16)
  | _ => false

/-- The loop of `tsoApplies` over the operands. -/
def tsoArgs : List Arg → (ordered : Bool) → Bool
  | [], ordered => ordered
  | .reg r :: as, ordered => if isVectorReg r then false else tsoArgs as ordered
  | .mem m :: as, _ =>
      match m.base with
      | some (.q .rsp) | some (.l .rsp) | some (.q .rbp) | some (.l .rbp) => false
      | _ => tsoArgs as true
  | _ :: as, ordered => tsoArgs as ordered

/-- `tsoApplies`. -/
def tsoApplies (inst : Inst) : Bool :=
  if isStringOp inst.op || inst.op.nameF then false else tsoArgs inst.args false

/-- A line the expression `guestScalarAccessRe` matches, other than one through `x26`. -/
def isGuestAccess : Line Label → Bool
  | .ins (.ldst _ _ _ rm) => decide (rm ≠ 26 ∧ rm ≠ 31)
  | _ => false

/-- The text names the register. -/
def usesReg (body : Code) (r : XReg) : Bool :=
  body.any fun
    | .ins i => decide (r ∈ i.regs)
    | _ => false

/-- The scratch register: the first of `x7` to `x0` the text does not name. -/
def scratchReg (body : Code) : Option XReg :=
  [7, 6, 5, 4, 3, 2, 1, 0].find? fun r => !usesReg body r

/-- The plain access with its fence. -/
def fencedAccess (op : MemOp) (sf : Width) (rt rm : XReg) : Asm :=
  if op.isLoad then [.ldst op sf rt rm, .dmb .ishld] else [.dmb .ish, .ldst op sf rt rm]

/-- The acquire or release form, at the host address in `a`. -/
def acquireRelease (op : MemOp) (sf : Width) (rt a : XReg) : Asm :=
  match op with
  | .ldr => [.ldapr sf.bits rt a]
  | .ldrb => [.ldapr 8 rt a]
  | .ldrh => [.ldapr 16 rt a]
  | .ldrsb => [.ldapr 8 rt a, .sxt 8 sf rt rt]
  | .ldrsh => [.ldapr 16 rt a, .sxt 16 sf rt rt]
  | .ldrsw => [.ldapr 32 rt a, .sxt 32 sf rt rt]
  | .str => [.stlr sf.bits rt a]
  | .strb => [.stlr 8 rt a]
  | .strh => [.stlr 16 rt a]

/-- The host address of the guest address in `rm`. -/
def hostAddr (a rm : XReg) : Instr Label := .addSub .add false .x a 28 (.reg rm 0)

/-- The test for a crossing: bit 4 of the first address against the last one. -/
def crossTest (op : MemOp) (sf : Width) (rm a : XReg) : Asm :=
  [.addSub .add false .x a rm (.imm (BitVec.ofNat 64 (op.bits sf / 8 - 1))),
    .logic .eor false .x a a (.reg rm 0)]

/-- `orderedAccess`. -/
def orderedAccess (l : Arm64Lifter) (op : MemOp) (sf : Width) (rt rm : XReg) (scratch : Option XReg) :
    Code × Arm64Lifter :=
  match scratch with
  | none => (asm (fencedAccess op sf rt rm), l)
  | some a =>
      if op.bits sf / 8 = 1 then (asm (hostAddr a rm :: acquireRelease op sf rt a), l)
      else
        let l := { l with labelCounter := l.labelCounter + 1 }
        let fast := Label.tsoOk l.labelCounter
        let done := Label.tsoDone l.labelCounter
        (asm (crossTest op sf rm a ++ [.tbz a 4 fast] ++ fencedAccess op sf rt rm ++ [.b done]) ++
          .label fast :: asm (hostAddr a rm :: acquireRelease op sf rt a) ++ [.label done], l)

/-- The loop of `applyTSO` that rewrites the lines. -/
def orderAll (scratch : Option XReg) : Arm64Lifter → Code → Code × Arm64Lifter
  | l, [] => ([], l)
  | l, ln :: body =>
      match ln with
      | .ins (.ldst op sf rt rm) =>
          if isGuestAccess ln then
            let r := orderedAccess l op sf rt rm scratch
            let rest := orderAll scratch r.2 body
            (r.1 ++ rest.1, rest.2)
          else
            let rest := orderAll scratch l body
            (ln :: rest.1, rest.2)
      | ln =>
          let rest := orderAll scratch l body
          (ln :: rest.1, rest.2)

/-- `applyTSO`, on the lines of one lowering. -/
def applyTSO (l : Arm64Lifter) (inst : Inst) (body : Code) : Code × Arm64Lifter :=
  if tsoApplies inst = false then (body, l)
  else if body.any isGuestAccess = false then (body, l)
  else orderAll (scratchReg body) l body

/-! ### one access -/

variable {op : MemOp} {sf : Width} {rt rm a : XReg}

/-- The acquire and release forms do what the plain access does, when `a` holds its host address. -/
theorem execs_acquireRelease {t : State} (ha : t.get a = t.get 28 + t.get rm) :
    execs (acquireRelease op sf rt a) t = (Instr.ldst op sf rt rm : Instr Label).exec t := by
  have hsxt : ∀ (n : ℕ) (v : BitVec n), n ≤ 64 →
      (Instr.sxt n sf rt rt : Instr Label).exec (t.set rt (v.setWidth 64)) =
        t.set rt ((v.signExtend sf.bits).setWidth 64) := by
    intro n v hn
    show (t.set rt _).set rt (BitVec.setWidth 64 (((State.get (t.set rt _) rt).setWidth n).signExtend
      sf.bits)) = _
    rw [State.set_set]
    by_cases hrt : rt = 31
    · subst hrt
      rfl
    · rw [State.get_set_self hrt, BitVec.setWidth_setWidth_of_le _ hn, BitVec.setWidth_eq]
  cases op
  case ldrsb => exact (hsxt 8 _ (by decide)).trans (by rw [ha]; rfl)
  case ldrsh => exact (hsxt 16 _ (by decide)).trans (by rw [ha]; rfl)
  case ldrsw => exact (hsxt 32 _ (by decide)).trans (by rw [ha]; rfl)
  all_goals
    simp only [acquireRelease, execs_cons, execs_nil, Instr.exec, ha, MemOp.isLoad, MemOp.loaded,
      MemOp.bits, if_true, Bool.false_eq_true, if_false]

theorem bits_pos (op : MemOp) (sf : Width) : 0 < op.bits sf / 8 ∧ op.bits sf / 8 ≤ 8 := by
  cases op <;> cases sf <;> decide

/-- The ordered form faults only across a 16-byte boundary. -/
theorem clear_acquireRelease {t : State} (h : ¬ Crosses (t.get a) (op.bits sf / 8)) :
    Clear (acquireRelease op sf rt a) t := by
  have hf : decide (Crosses (t.get a) (op.bits sf / 8)) = false := decide_eq_false h
  cases op
  all_goals
    first
      | exact ⟨rfl, hf, trivial⟩
      | exact ⟨rfl, hf, rfl, rfl, trivial⟩

theorem not_crosses_one (x : BitVec 64) : ¬ Crosses x 1 := by
  unfold Crosses
  omega

theorem execs_crossTest (ha : a ≠ 31) (ham : a ≠ rm) (s : State) :
    execs (crossTest op sf rm a) s =
      s.set a ((s.get rm + BitVec.ofNat 64 (op.bits sf / 8 - 1)) ^^^ s.get rm) := by
  rw [crossTest, execs_cons, execs_cons, execs_nil, exec_addXImm, exec_logicX, State.set_set,
    State.get_set_self ha, State.get_set_ne ham.symm]
  rfl

/-- The instructions a rewritten access executes from `s`. -/
def orderedPath (l : Arm64Lifter) (op : MemOp) (sf : Width) (rt rm : XReg) (scratch : Option XReg)
    (s : State) : Asm :=
  match scratch with
  | none => fencedAccess op sf rt rm
  | some a =>
      if op.bits sf / 8 = 1 then hostAddr a rm :: acquireRelease op sf rt a
      else if Crosses (s.get rm) (op.bits sf / 8) then
        crossTest op sf rm a ++ [.tbz a 4 (.tsoOk (l.labelCounter + 1))] ++
          fencedAccess op sf rt rm ++ [.b (.tsoDone (l.labelCounter + 1))]
      else
        crossTest op sf rm a ++ [.tbz a 4 (.tsoOk (l.labelCounter + 1))] ++
          hostAddr a rm :: acquireRelease op sf rt a

/-- The states may differ in the scratch register only. -/
def Same (scratch : Option XReg) (s t : State) : Prop :=
  match scratch with
  | none => t = s
  | some a => AgreeOff a s t

theorem execs_fencedAccess (s : State) :
    execs (fencedAccess op sf rt rm) s = (Instr.ldst op sf rt rm : Instr Label).exec s := by
  unfold fencedAccess
  split <;> rfl

theorem clear_fencedAccess (s : State) : Clear (fencedAccess op sf rt rm) s := by
  apply clear_of_plain
  intro i hi
  unfold fencedAccess at hi
  split at hi
  all_goals
    simp only [List.mem_cons, List.not_mem_nil, or_false] at hi
    rcases hi with rfl | rfl <;> rfl

/-- The ordered form at the host address, from a state that agrees with `s`. -/
theorem execs_ordered (op : MemOp) (sf : Width) (ha : a ≠ 31) (h28 : a ≠ 28) (ham : a ≠ rm)
    (hat : a ≠ rt) {s t : State} (h : AgreeOff a s t) :
    AgreeOff a ((Instr.ldst op sf rt rm : Instr Label).exec s)
        (execs (hostAddr a rm :: acquireRelease op sf rt a) t) ∧
      ((s.get 28).toNat % 16 = 0 → ¬ Crosses (s.get rm) (op.bits sf / 8) →
        Clear (hostAddr a rm :: acquireRelease op sf rt a) t) := by
  have hhost : (hostAddr a rm).exec t = t.set a (t.get 28 + t.get rm) := exec_addX a 28 rm t
  have haddr : ((hostAddr a rm).exec t).get a =
      ((hostAddr a rm).exec t).get 28 + ((hostAddr a rm).exec t).get rm := by
    rw [hhost, State.get_set_self ha, State.get_set_ne h28.symm, State.get_set_ne ham.symm]
  have hagree : AgreeOff a s ((hostAddr a rm).exec t) := by
    rw [hhost]
    exact h.trans (AgreeOff.set_self a t _)
  constructor
  · rw [execs_cons, execs_acquireRelease haddr]
    refine exec_agree ?_ hagree
    simp [Instr.regs, h28, ham, hat]
  · intro hbase hcross
    refine ⟨rfl, rfl, clear_acquireRelease ?_⟩
    rw [haddr, hagree.get h28.symm, hagree.get ham.symm, crosses_add hbase]
    exact hcross

/-- What a run does on the way from the lines `k` to the lines `k'`. -/
def Passes (code k : Code) (s : State) (is : Asm) (k' : Code) (s' : State) : Prop :=
  ∃ m, ∀ fuel, run code (fuel + m) k s = run code fuel k' s' ∧
    trace code (fuel + m) k s = is ++ trace code fuel k' s'

theorem Passes.trans {code k k' k'' : Code} {s s' s'' : State} {is is' : Asm}
    (h : Passes code k s is k' s') (h' : Passes code k' s' is' k'' s'') :
    Passes code k s (is ++ is') k'' s'' := by
  obtain ⟨m, hm⟩ := h
  obtain ⟨m', hm'⟩ := h'
  refine ⟨m' + m, fun fuel => ?_⟩
  rw [← Nat.add_assoc, (hm _).1, (hm _).2, (hm' _).1, (hm' _).2, List.append_assoc]
  exact ⟨rfl, rfl⟩

theorem passes_clear (code : Code) {is : Asm} (k : Code) {s : State} (h : Clear is s) :
    Passes code (asm is ++ k) s is k (execs is s) :=
  ⟨is.length, fun fuel => ⟨run_clear code fuel is k s h, trace_clear code fuel is k s h⟩⟩

theorem passes_label (code : Code) (lbl : Label) (k : Code) (s : State) :
    Passes code (.label lbl :: k) s [] k s := ⟨1, fun fuel => run_label code fuel lbl k s⟩

theorem passes_branch (code k : Code) {i : Instr Label} {s : State} {lbl : Label}
    (hf : i.faults s = false) (hret : i.isRet = false) (hb : i.branch s = some lbl) {k' : Code}
    (hk : resolve lbl k = some k') : Passes code (.ins i :: k) s [i] k' s := by
  have hstep := stepLine_branch code k hf hret hb hk
  refine ⟨1, fun fuel => ?_⟩
  rw [run, trace, hstep]
  exact ⟨rfl, rfl⟩

theorem passes_next (code k : Code) {i : Instr Label} {s : State} (hf : i.faults s = false)
    (hret : i.isRet = false) (hb : i.branch s = none) :
    Passes code (.ins i :: k) s [i] k (i.exec s) := by
  have hstep := stepLine_next code k hf hret hb
  refine ⟨1, fun fuel => ?_⟩
  rw [run, trace, hstep]
  exact ⟨rfl, rfl⟩

/-- **One access.**  Whatever the address, the rewritten access does what the plain one does, on
the path its address asks for. -/
theorem orderedAccess_run (l : Arm64Lifter) {scratch : Option XReg}
    (hs : ∀ a ∈ scratch, a ≠ 31 ∧ a ≠ 28 ∧ a ≠ rm ∧ a ≠ rt) (code k : Code) {s t : State}
    (h : Same scratch s t) (hbase : (s.get 28).toNat % 16 = 0) :
    ∃ t', Same scratch ((Instr.ldst op sf rt rm : Instr Label).exec s) t' ∧
      Passes code ((orderedAccess l op sf rt rm scratch).1 ++ k) t
        (orderedPath l op sf rt rm scratch s) k t' := by
  cases scratch with
  | none =>
      obtain rfl : t = s := h
      exact ⟨_, (execs_fencedAccess t).symm ▸ rfl, passes_clear code k (clear_fencedAccess t)⟩
  | some a =>
      obtain ⟨ha, h28, ham, hat⟩ := hs a rfl
      by_cases hone : op.bits sf / 8 = 1
      · obtain ⟨hag, hcl⟩ := execs_ordered op sf ha h28 ham hat h
        refine ⟨_, hag, ?_⟩
        simp only [orderedAccess, orderedPath, if_pos hone]
        exact passes_clear code k (hcl hbase (by rw [hone]; exact not_crosses_one _))
      · obtain ⟨hpos, hle⟩ := bits_pos op sf
        have htest : AgreeOff a s (execs (crossTest op sf rm a) t) := by
          rw [execs_crossTest ha ham]
          exact AgreeOff.trans h (AgreeOff.set_self a t _)
        have hbit : ((execs (crossTest op sf rm a) t).get a).getLsbD 4 =
            decide (Crosses (s.get rm) (op.bits sf / 8)) := by
          rw [execs_crossTest ha ham, State.get_set_self ha, AgreeOff.get h ham.symm,
            Bool.eq_iff_iff, decide_eq_true_iff]
          exact crosses_iff _ hpos (by omega)
        have hclear : Clear (crossTest op sf rm a) t := ⟨rfl, rfl, rfl, rfl, trivial⟩
        obtain ⟨hag, hcl⟩ := execs_ordered op sf ha h28 ham hat htest
        -- the text after the branch of the test
        have hfast : ∀ n, resolve (.tsoOk n) (asm (fencedAccess op sf rt rm ++ [.b (.tsoDone n)]) ++
            (.label (.tsoOk n) :: asm (hostAddr a rm :: acquireRelease op sf rt a) ++
              (.label (.tsoDone n) :: k))) =
            some (asm (hostAddr a rm :: acquireRelease op sf rt a) ++ (.label (.tsoDone n) :: k)) := by
          intro n
          rw [resolve_asm]
          show (if Label.tsoOk n = Label.tsoOk n then _ else _) = _
          rw [if_pos rfl]
          rfl
        have hdone : ∀ n, resolve (.tsoDone n) (.label (.tsoOk n) ::
            asm (hostAddr a rm :: acquireRelease op sf rt a) ++ (.label (.tsoDone n) :: k)) =
            some k := by
          intro n
          show (if Label.tsoOk n = Label.tsoDone n then _ else
            resolve _ (asm (hostAddr a rm :: acquireRelease op sf rt a) ++ _)) = _
          rw [if_neg (by simp), resolve_asm]
          show (if Label.tsoDone n = Label.tsoDone n then _ else _) = _
          rw [if_pos rfl]
        have htext : (orderedAccess l op sf rt rm (some a)).1 ++ k =
            asm (crossTest op sf rm a) ++ (.ins (.tbz a 4 (.tsoOk (l.labelCounter + 1))) ::
              (asm (fencedAccess op sf rt rm ++ [.b (.tsoDone (l.labelCounter + 1))]) ++
                (.label (.tsoOk (l.labelCounter + 1)) ::
                  asm (hostAddr a rm :: acquireRelease op sf rt a) ++
                  (.label (.tsoDone (l.labelCounter + 1)) :: k)))) := by
          simp [orderedAccess, if_neg hone, asm_append]
        have hstart := passes_clear code (.ins (.tbz a 4 (.tsoOk (l.labelCounter + 1))) ::
          (asm (fencedAccess op sf rt rm ++ [.b (.tsoDone (l.labelCounter + 1))]) ++
            (.label (.tsoOk (l.labelCounter + 1)) ::
              asm (hostAddr a rm :: acquireRelease op sf rt a) ++
              (.label (.tsoDone (l.labelCounter + 1)) :: k)))) hclear
        rw [htext]
        simp only [orderedPath, if_neg hone]
        by_cases hcross : Crosses (s.get rm) (op.bits sf / 8)
        · -- the plain access with its fence
          rw [if_pos hcross]
          refine ⟨execs (fencedAccess op sf rt rm) (execs (crossTest op sf rm a) t), ?_, ?_⟩
          · show AgreeOff a _ _
            rw [execs_fencedAccess]
            exact exec_agree (by simp [Instr.regs, h28, ham, hat]) htest
          · rw [List.append_assoc, List.append_assoc]
            refine hstart.trans ((passes_next code _ rfl rfl ?_).trans ?_)
            · show (if (State.get _ a).getLsbD 4 = true then none else _) = _
              rw [hbit, decide_eq_true hcross]
              rfl
            · rw [asm_append, List.append_assoc]
              exact (passes_clear code _ (clear_fencedAccess _)).trans
                (passes_branch code _ rfl rfl rfl (hdone _))
        · -- the ordered access
          rw [if_neg hcross]
          refine ⟨_, hag, ?_⟩
          rw [List.append_assoc]
          refine hstart.trans ((passes_branch code _ rfl rfl ?_ (hfast _)).trans ?_)
          · show (if (State.get _ a).getLsbD 4 = true then none else _) = _
            rw [hbit, decide_eq_false hcross]
            rfl
          · have hend := (passes_clear code (.label (.tsoDone (l.labelCounter + 1)) :: k)
              (hcl hbase hcross)).trans (passes_label code _ k _)
            rw [List.append_nil] at hend
            exact hend

/-! ### the whole text -/

/-- The labels `orderedAccess` makes. -/
def Label.tso : Label → Bool
  | .tsoOk _ | .tsoDone _ => true
  | _ => false

/-- Text as the lowerings produce it: no branch to a label of this pass, and the memory base is
never written. -/
structure Lowered (body : Code) : Prop where
  noTso : ∀ i, .ins i ∈ body → ∀ s lbl, i.branch s = some lbl → lbl.tso = false
  keepsBase : ∀ i, .ins i ∈ body → ∀ s, (i.exec s).get 28 = s.get 28

/-- A scratch register: no line names it. -/
def Free (scratch : Option XReg) (body : Code) : Prop :=
  ∀ a ∈ scratch, a ≠ 31 ∧ a ≠ 28 ∧ Framed a body

theorem Same.exec {scratch : Option XReg} {body : Code} (hfree : Free scratch body)
    {i : Instr Label} (hi : .ins i ∈ body) {s t : State} (h : Same scratch s t) :
    Same scratch (i.exec s) (i.exec t) ∧ i.faults t = i.faults s ∧ i.branch t = i.branch s := by
  cases scratch with
  | none =>
      obtain rfl : t = s := h
      exact ⟨rfl, rfl, rfl⟩
  | some a =>
      have hr := (hfree a rfl).2.2 i hi
      exact ⟨exec_agree hr h, faults_agree hr h, branch_agree hr h⟩

theorem resolve_orderedAccess (l : Arm64Lifter) (scratch : Option XReg) {lbl : Label}
    (hl : lbl.tso = false) (k : Code) :
    resolve lbl ((orderedAccess l op sf rt rm scratch).1 ++ k) = resolve lbl k := by
  have hok : ∀ n, Label.tsoOk n ≠ lbl := fun n e => by rw [← e] at hl; cases hl
  have hdone : ∀ n, Label.tsoDone n ≠ lbl := fun n e => by rw [← e] at hl; cases hl
  unfold orderedAccess
  split
  · exact resolve_asm lbl _ k
  · split
    · exact resolve_asm lbl _ k
    · simp only [List.append_assoc, List.cons_append, List.nil_append]
      rw [resolve_asm]
      simp only [resolve, if_neg (hok _)]
      rw [resolve_asm]
      simp only [resolve, if_neg (hdone _)]

theorem resolve_orderAll (scratch : Option XReg) {lbl : Label} (hl : lbl.tso = false) :
    ∀ (k : Code) (l : Arm64Lifter),
      (resolve lbl k = none → resolve lbl (orderAll scratch l k).1 = none) ∧
        ∀ k', resolve lbl k = some k' →
          ∃ l', resolve lbl (orderAll scratch l k).1 = some (orderAll scratch l' k').1 := by
  intro k
  induction k with
  | nil => exact fun l => ⟨fun _ => rfl, fun k' h => by cases h⟩
  | cons ln k ih =>
      intro l
      cases ln with
      | label lbl' =>
          simp only [resolve, orderAll]
          by_cases he : lbl' = lbl
          · simp only [if_pos he]
            refine ⟨fun h => (by cases h), fun k' h => ?_⟩
            cases h
            exact ⟨l, rfl⟩
          · simp only [if_neg he]
            exact ih l
      | comment c => exact ih l
      | ins i =>
          cases i with
          | ldst op sf rt rm =>
              simp only [orderAll]
              split
              · rw [resolve_orderedAccess _ _ hl]
                exact ih _
              · exact ih l
          | _ => exact ih l

theorem not_mem_of_free {scratch : Option XReg} {body : Code} (hfree : Free scratch body)
    (hi : .ins (.ldst op sf rt rm) ∈ body) :
    ∀ a ∈ scratch, a ≠ 31 ∧ a ≠ 28 ∧ a ≠ rm ∧ a ≠ rt := by
  intro a ha
  obtain ⟨h31, h28, hframe⟩ := hfree a ha
  have hr := hframe _ hi
  simp only [Instr.regs, List.mem_cons, List.not_mem_nil, or_false, not_or] at hr
  exact ⟨h31, h28, hr.2.2, hr.1⟩

theorem orderAll_ins {scratch : Option XReg} {l : Arm64Lifter} {i : Instr Label} {k : Code}
    (h : isGuestAccess (.ins i) = false) :
    (orderAll scratch l (.ins i :: k)).1 = .ins i :: (orderAll scratch l k).1 := by
  cases i with
  | ldst op sf rt rm => simp only [orderAll, h, Bool.false_eq_true, if_false]
  | _ => rfl

/-- **The whole text.**  A run of the rewritten text follows every run of the original one. -/
theorem run_orderAll {scratch : Option XReg} {body : Code} (hb : Lowered body)
    (hfree : Free scratch body) (l₀ : Arm64Lifter) :
    ∀ (fuel : ℕ) (k : Code) (l : Arm64Lifter) (s t : State) (o : Outcome Label), k <:+ body →
      Same scratch s t → (s.get 28).toNat % 16 = 0 → run body fuel k s = some o →
      ∃ fuel' o', run (orderAll scratch l₀ body).1 fuel' (orderAll scratch l k).1 t = some o' ∧
        Outcome.Rel (Same scratch) o o' := by
  intro fuel
  induction fuel with
  | zero => intro k l s t o _ _ _ h; cases h
  | succ fuel ih =>
      intro k l s t o hk hst hbase h
      cases k with
      | nil =>
          cases h
          exact ⟨1, _, rfl, .fall hst⟩
      | cons ln k =>
          have hkb : k <:+ body := (List.suffix_cons ln k).trans hk
          cases ln with
          | label lbl =>
              obtain ⟨fuel', o', hrun, hrel⟩ := ih k l s t o hkb hst hbase h
              exact ⟨fuel' + 1, o', hrun, hrel⟩
          | comment c =>
              obtain ⟨fuel', o', hrun, hrel⟩ := ih k l s t o hkb hst hbase h
              exact ⟨fuel' + 1, o', hrun, hrel⟩
          | ins i =>
              have hi : .ins i ∈ body := hk.subset List.mem_cons_self
              obtain ⟨hexec, hfaults, hbranch⟩ := hst.exec hfree hi
              have hbase' : ((i.exec s).get 28).toNat % 16 = 0 := by rw [hb.keepsBase i hi, hbase]
              by_cases hacc : isGuestAccess (.ins i) = true
              · -- a rewritten access
                obtain ⟨op, sf, rt, rm, rfl⟩ : ∃ op sf rt rm, i = .ldst op sf rt rm := by
                  cases i with
                  | ldst op sf rt rm => exact ⟨op, sf, rt, rm, rfl⟩
                  | _ => cases hacc
                obtain ⟨t', hsame, m, hm⟩ := orderedAccess_run l (not_mem_of_free hfree hi)
                  (orderAll scratch l₀ body).1
                  (orderAll scratch (orderedAccess l op sf rt rm scratch).2 k).1 hst hbase
                obtain ⟨fuel', o', hrun, hrel⟩ := ih k _ _ t' o hkb hsame hbase' h
                refine ⟨fuel' + m, o', ?_, hrel⟩
                rw [← hrun, ← (hm fuel').1]
                simp only [orderAll, hacc, if_true]
              · rw [orderAll_ins (by simpa using hacc)]
                by_cases hf : i.faults s = true
                · rw [run, stepLine_fault _ _ hf] at h
                  cases h
                  refine ⟨1, .fault, ?_, .fault⟩
                  rw [run, stepLine_fault _ _ (hfaults.trans hf)]
                · have hf' : i.faults s = false := by simpa using hf
                  by_cases hret : i.isRet = true
                  · rw [run, stepLine_ret _ _ hf' hret] at h
                    cases h
                    refine ⟨1, .ret t, ?_, .ret hst⟩
                    rw [run, stepLine_ret _ _ (hfaults.trans hf') hret]
                  · have hret' : i.isRet = false := by simpa using hret
                    cases hbr : i.branch s with
                    | none =>
                        rw [run, stepLine_next _ _ hf' hret' hbr] at h
                        obtain ⟨fuel', o', hrun, hrel⟩ := ih k l _ _ o hkb hexec hbase' h
                        refine ⟨fuel' + 1, o', ?_, hrel⟩
                        rw [run, stepLine_next _ _ (hfaults.trans hf') hret' (hbranch.trans hbr)]
                        exact hrun
                    | some lbl =>
                        -- a taken branch finds the same line
                        have hlbl := hb.noTso i hi s lbl hbr
                        obtain ⟨hnone, hsome⟩ := resolve_orderAll scratch hlbl k l
                        obtain ⟨hnone₀, hsome₀⟩ := resolve_orderAll scratch hlbl body l₀
                        have hjump := stepLine_jump (orderAll scratch l₀ body).1
                          (orderAll scratch l k).1 (hfaults.trans hf') hret' (hbranch.trans hbr)
                        rw [run, stepLine_jump _ _ hf' hret' hbr] at h
                        cases hres : resolve lbl k with
                        | some k' =>
                            obtain ⟨l', hl'⟩ := hsome k' hres
                            rw [hres] at h
                            rw [hl'] at hjump
                            obtain ⟨fuel', o', hrun, hrel⟩ := ih k' l' s t o
                              ((resolve_suffix hres).trans hkb) hst hbase h
                            refine ⟨fuel' + 1, o', ?_, hrel⟩
                            rw [run, hjump]
                            exact hrun
                        | none =>
                            rw [hres, Option.none_or] at h
                            rw [hnone hres, Option.none_or] at hjump
                            cases hres₀ : resolve lbl body with
                            | some k' =>
                                obtain ⟨l', hl'⟩ := hsome₀ k' hres₀
                                rw [hres₀] at h
                                rw [hl'] at hjump
                                obtain ⟨fuel', o', hrun, hrel⟩ := ih k' l' s t o
                                  (resolve_suffix hres₀) hst hbase h
                                refine ⟨fuel' + 1, o', ?_, hrel⟩
                                rw [run, hjump]
                                exact hrun
                            | none =>
                                rw [hres₀] at h
                                rw [hnone₀ hres₀] at hjump
                                cases h
                                refine ⟨1, .goto lbl t, ?_, .goto hst⟩
                                rw [run, hjump]

/-- **The scratch register is free**: it is a caller-saved register no line of the lowering names. -/
theorem scratchReg_free (body : Code) : Free (scratchReg body) body := by
  intro a ha
  have hfind : [7, 6, 5, 4, 3, 2, 1, 0].find? (fun r => !usesReg body r) = some a := ha
  have hmem := List.mem_of_find?_eq_some hfind
  have hunused : usesReg body a = false := by simpa using List.find?_some hfind
  refine ⟨?_, ?_, fun i hi hr => ?_⟩
  · rintro rfl
    exact absurd hmem (by decide)
  · rintro rfl
    exact absurd hmem (by decide)
  · have hany : usesReg body a = true := List.any_eq_true.2 ⟨_, hi, by simpa using hr⟩
    rw [hany] at hunused
    cases hunused

/-- The acquire loads and release stores. -/
def isOrdered : Instr Label → Bool
  | .ldapr .. | .stlr .. => true
  | _ => false

theorem not_ordered_fencedAccess (op : MemOp) (sf : Width) (rt rm : XReg) :
    ∀ i ∈ fencedAccess op sf rt rm, isOrdered i = false := by
  intro i hi
  unfold fencedAccess at hi
  split at hi
  all_goals
    simp only [List.mem_cons, List.not_mem_nil, or_false] at hi
    rcases hi with rfl | rfl <;> rfl

/-- An ordered access is executed only where it does not cross a 16-byte boundary; where the access
crosses, the plain access runs with its fence. -/
theorem orderedPath_ordered (l : Arm64Lifter) (op : MemOp) (sf : Width) (rt rm : XReg)
    (scratch : Option XReg) (s : State) :
    (∀ i ∈ orderedPath l op sf rt rm scratch s, isOrdered i = true →
      ¬ Crosses (s.get rm) (op.bits sf / 8)) ∧
      (Crosses (s.get rm) (op.bits sf / 8) →
        fencedAccess op sf rt rm <:+: orderedPath l op sf rt rm scratch s) := by
  cases scratch with
  | none =>
      refine ⟨fun i hi hord => ?_, fun _ => List.infix_rfl⟩
      rw [not_ordered_fencedAccess op sf rt rm i hi] at hord
      cases hord
  | some a =>
      simp only [orderedPath]
      split
      · rename_i hone
        rw [hone]
        exact ⟨fun _ _ _ => not_crosses_one _, fun h => absurd h (not_crosses_one _)⟩
      · split
        · refine ⟨fun i hi hord => ?_, fun _ => ⟨_, _, rfl⟩⟩
          exfalso
          simp only [crossTest, List.mem_append, List.mem_cons, List.not_mem_nil, or_false] at hi
          rcases hi with (((rfl | rfl) | rfl) | hi) | rfl
          · cases hord
          · cases hord
          · cases hord
          · rw [not_ordered_fencedAccess op sf rt rm i hi] at hord
            cases hord
          · cases hord
        · rename_i hcross
          exact ⟨fun _ _ _ => hcross, fun h => absurd h hcross⟩

/-- **Sequential meaning.**  The scratch register holds no value of the lowering.  Every rewritten
access does at every address what the plain one does, but for the scratch register, and executes an
acquire or release only where it crosses no 16-byte boundary.  A run of the rewritten text ends as
the run of the original. -/
theorem applyTSO_sequential (l : Arm64Lifter) (inst : Inst) {body : Code} (hb : Lowered body) :
    Free (scratchReg body) body ∧
    (∀ op sf rt rm, .ins (.ldst op sf rt rm) ∈ body → ∀ (l' : Arm64Lifter) (code k : Code)
      (s : State), (s.get 28).toNat % 16 = 0 →
      (∃ s', Same (scratchReg body) ((Instr.ldst op sf rt rm : Instr Label).exec s) s' ∧
        Passes code ((orderedAccess l' op sf rt rm (scratchReg body)).1 ++ k) s
          (orderedPath l' op sf rt rm (scratchReg body) s) k s') ∧
      (∀ i ∈ orderedPath l' op sf rt rm (scratchReg body) s, isOrdered i = true →
        ¬ Crosses (s.get rm) (op.bits sf / 8)) ∧
      (Crosses (s.get rm) (op.bits sf / 8) →
        fencedAccess op sf rt rm <:+: orderedPath l' op sf rt rm (scratchReg body) s)) ∧
    ∀ fuel s o, (s.get 28).toNat % 16 = 0 → run body fuel body s = some o →
      ∃ fuel' o', run (applyTSO l inst body).1 fuel' (applyTSO l inst body).1 s = some o' ∧
        Outcome.Rel (Same (scratchReg body)) o o' := by
  have hfree := scratchReg_free body
  have hsame : ∀ s, Same (scratchReg body) s s := by
    intro s
    unfold Same
    split
    · rfl
    · exact AgreeOff.refl _ s
  refine ⟨hfree, fun op sf rt rm hi l' code k s hbase => ⟨?_, ?_⟩, fun fuel s o hbase hrun => ?_⟩
  · exact orderedAccess_run l' (not_mem_of_free hfree hi) code k (hsame s) hbase
  · exact orderedPath_ordered l' op sf rt rm _ s
  · have hkept : ∃ fuel' o', run body fuel' body s = some o' ∧
        Outcome.Rel (Same (scratchReg body)) o o' := by
      refine ⟨fuel, o, hrun, ?_⟩
      cases o with
      | fall s => exact .fall (hsame s)
      | goto lbl s => exact .goto (hsame s)
      | ret s => exact .ret (hsame s)
      | fault => exact .fault
    unfold applyTSO
    split
    · exact hkept
    · split
      · exact hkept
      · exact run_orderAll hb hfree l fuel body l s s o List.suffix_rfl (hsame s) hbase hrun

theorem lowered_alias : Lowered (asm [.ldst .ldr .x 16 16]) where
  noTso := by
    intro i hi s lbl h
    simp only [asm_cons, asm_nil, List.mem_cons, List.not_mem_nil, or_false,
      Line.ins.injEq] at hi
    subst hi
    cases h
  keepsBase := by
    intro i hi s
    simp only [asm_cons, asm_nil, List.mem_cons, List.not_mem_nil, or_false,
      Line.ins.injEq] at hi
    subst hi
    show (s.set 16 _).get 28 = s.get 28
    exact State.get_set_ne (show (28 : XReg) ≠ 16 by decide)

/-- Data and address in one register, the word at the end of a 16-byte block: the fenced access
executes. -/
theorem applyTSO_sequential_alias :
    let body := asm [.ldst .ldr .x 16 16]
    let s : State := ⟨fun r => if r = 16 then 12 else 0, 0, ⟨false, false, false, false⟩, 0, 0⟩
    let l : Arm64Lifter := { knownFuncs := fun _ => false }
    fencedAccess .ldr .x 16 16 <:+: orderedPath l .ldr .x 16 16 (scratchReg body) s := by
  intro body s l
  have h := (applyTSO_sequential l
    { op := .mov, len := 3, args := [.reg (.q .rax), .mem ⟨none, some (.q .rdi), 0, none, 0⟩] }
    lowered_alias).2.1 .ldr .x 16 16 List.mem_cons_self l [] [] s (by decide)
  exact h.2.2 (by decide)

end PS4Recomp.Lifter
