import PS4Recomp.Disasm.WalkTerminates
import PS4Recomp.Disasm.BranchTargets

/-!
# The reachable functions

`WalkReachable` of `cfg.go`: the functions are disassembled one by one, each is handed to `visit`,
and the calls and tail calls it shows are queued.

* `enqueueFuncs`, `reachLoop`, `walkReachable` — the queue, its loop and the whole;
* `functionAt`, `calleesOf` — the function at an address, and what it makes the walk queue;
* `disasmFunction_fuel` — a function has one disassembly from a fuel linear in the image on;
* `reachLoop_eq` — the loop visits what a run of the worklist pops, up to the first failed visit;
* **`walkReachable_closure`** — the walk ends, takes no function twice, and its functions are those
  that the entries in code lead to, in whatever order these are listed.

Ranges noted as data are forgotten when the next function is begun; `pendingData` are those left
from a walk before this one.  An entry that is no code, or does not decode, is skipped.
-/

namespace PS4Recomp.Disasm

open X86 Library

variable (d : SizedDisassembler) {σ ε : Type}

/-- What a walk leaves: the addresses it disassembled and the functions it handed to `visit`, in
order, and what the visits came to. -/
structure Reached (σ ε : Type) where
  seen : List Addr
  fns : List Function
  outcome : Except ε σ

/-- `if !visited[addr] && d.inCode(addr)`, over a list. -/
def SizedDisassembler.enqueueFuncs (pendingData : List (Addr × Addr)) (addrs : List Addr)
    (st : List Addr × (Addr → Bool)) : List Addr × (Addr → Bool) :=
  addrs.foldl (fun st addr =>
    if !st.2 addr && d.inCode pendingData addr then
      (st.1 ++ [addr], Function.update st.2 addr true)
    else st) st

/-- The loop over the queue.  `visit` keeps what it needs in a state, and may fail. -/
def SizedDisassembler.reachLoop (visit : σ → Function → Except ε σ) (fuel : ℕ) :
    ℕ → List Addr × (Addr → Bool) → σ → Option (Reached σ ε)
  | 0, _, _ => none
  | n + 1, (queue, visited), s =>
      match queue with
      | [] => some ⟨[], [], .ok s⟩
      | curr :: queue =>
          match d.disasmFunction curr fuel with
          | none =>
              (SizedDisassembler.reachLoop visit fuel n (queue, visited) s).map fun r =>
                { r with seen := curr :: r.seen }
          | some out =>
              match visit s out.fn with
              | .error e => some ⟨[curr], [out.fn], .error e⟩
              | .ok s =>
                  (SizedDisassembler.reachLoop visit fuel n
                    (d.enqueueFuncs out.pendingData out.discoveredCalls (queue, visited)) s).map fun r =>
                    { r with seen := curr :: r.seen, fns := out.fn :: r.fns }

/-- `WalkReachable`. -/
def SizedDisassembler.walkReachable (visit : σ → Function → Except ε σ) (fuel : ℕ)
    (pendingData : List (Addr × Addr)) (entryAddrs : List Addr) (s : σ) : Option (Reached σ ε) :=
  d.reachLoop visit fuel fuel (d.enqueueFuncs pendingData entryAddrs ([], fun _ => false)) s

/-- `ReachableFunc`: a function and the number of its instructions. -/
def reachableFunc (fn : Function) : Addr × ℕ :=
  (fn.entryAddr, ((fn.blockOrder.filterMap fn.blocks).map fun b => b.insts.length).sum)

/-- The `visit` of `DiscoverReachable`. -/
def indexFunc (out : List (Addr × ℕ)) (fn : Function) : Except Empty (List (Addr × ℕ)) :=
  .ok (out ++ [reachableFunc fn])

/-! ### the disassembly of a function -/

theorem sweep_some (d : SizedDisassembler) (fnEnd : Addr) : ∀ fuel (pc : Addr),
    d.image.length - pc.toNat < fuel → ∃ insts, d.sweep fnEnd fuel pc = some insts := by
  intro fuel
  induction fuel with
  | zero => intro pc h; omega
  | succ fuel ih =>
      intro pc h
      simp only [SizedDisassembler.sweep]
      split
      · exact ⟨[], rfl⟩
      · rename_i hpc
        have hcode := (not_not.1 hpc).2
        have hnext := sweptInst_nextPC hcode
        have hlt := mem_imageAddrs.1 (inCode_mem hcode)
        obtain ⟨rest, hrest⟩ := ih (d.sweptInst pc).nextPC (by omega)
        rw [hrest]
        exact ⟨_, rfl⟩

theorem sweep_succ (d : SizedDisassembler) (fnEnd : Addr) : ∀ fuel (pc : Addr) (insts : List Instruction),
    d.sweep fnEnd fuel pc = some insts → d.sweep fnEnd (fuel + 1) pc = some insts := by
  intro fuel
  induction fuel with
  | zero => intro pc insts h; cases h
  | succ fuel ih =>
      intro pc insts h
      rw [SizedDisassembler.sweep] at h ⊢
      split at h
      · rename_i hpc
        rw [if_pos hpc]
        exact h
      · rename_i hpc
        rw [if_neg hpc]
        obtain ⟨rest, hrest, he⟩ := Option.bind_eq_some_iff.1 h
        exact Option.bind_eq_some_iff.2 ⟨rest, ih _ _ hrest, he⟩

theorem sweep_fuel (d : SizedDisassembler) (fnEnd pc : Addr) {fuel : ℕ}
    (hfuel : d.walkFuel ≤ fuel) : d.sweep fnEnd fuel pc = d.sweep fnEnd d.walkFuel pc := by
  obtain ⟨insts, hinsts⟩ := sweep_some d fnEnd d.walkFuel pc (by unfold Disassembler.walkFuel; omega)
  rw [hinsts]
  induction hfuel with
  | refl => exact hinsts
  | step _ ih => exact sweep_succ d fnEnd _ _ _ ih

theorem disasmFunction_fuel (d : SizedDisassembler) (addr : Addr) {fuel : ℕ}
    (hfuel : d.walkFuel ≤ fuel) : d.disasmFunction addr fuel = d.disasmFunction addr d.walkFuel := by
  unfold SizedDisassembler.disasmFunction
  cases d.linearEnd addr with
  | some fnEnd =>
      dsimp only
      unfold SizedDisassembler.disasmLinearFunction
      rw [sweep_fuel d fnEnd addr hfuel]
  | none =>
      obtain ⟨w, hw⟩ := walk_some d.toDisassembler addr
      have hmore := walk_mono hfuel hw
      dsimp only
      unfold Disassembler.disasmBranchFollowing
      rw [hmore, hw]

theorem disasmFunction_entryAddr {d : SizedDisassembler} {addr : Addr} {fuel : ℕ} {out : Disassembled}
    (h : d.disasmFunction addr fuel = some out) : out.fn.entryAddr = addr := by
  unfold SizedDisassembler.disasmFunction at h
  split at h
  · rename_i fnEnd _
    obtain ⟨insts, -, he⟩ := Option.bind_eq_some_iff.1 h
    split at he
    · cases he
    · simp only at he
      split at he
      · cases he
        rfl
      · cases he
        rfl
  · obtain ⟨w, -, hrest⟩ := Option.bind_eq_some_iff.1 h
    obtain ⟨r, hr, he⟩ := Option.bind_eq_some_iff.1 hrest
    cases he
    obtain ⟨w', -, he⟩ := Option.bind_eq_some_iff.1 hr
    split at he
    · cases he
    · simp only at he
      split at he
      · cases he
        rfl
      · cases he
        rfl

/-- What the disassembly of an address gives, with the fuel it takes. -/
def SizedDisassembler.functionAt (addr : Addr) : Option Disassembled := d.disasmFunction addr d.walkFuel

/-- The functions an address makes the walk queue: the calls and tail calls found in code. -/
def SizedDisassembler.calleesOf (addr : Addr) : List Addr :=
  match d.functionAt addr with
  | some out => out.discoveredCalls.filter (d.inCode out.pendingData)
  | none => []

/-! ### the loop against a run of the worklist -/

theorem enqueueFuncs_eq (pendingData : List (Addr × Addr)) (addrs : List Addr) : ∀ st,
    d.enqueueFuncs pendingData addrs st =
      Worklist.pushAll (addrs.filter (d.inCode pendingData)) st := by
  induction addrs with
  | nil => exact fun _ => rfl
  | cons addr addrs ih =>
      intro st
      have hstep : d.enqueueFuncs pendingData (addr :: addrs) st =
          d.enqueueFuncs pendingData addrs (if !st.2 addr && d.inCode pendingData addr then
            (st.1 ++ [addr], Function.update st.2 addr true) else st) := rfl
      rw [hstep, ih]
      by_cases hcode : d.inCode pendingData addr = true
      · rw [List.filter_cons_of_pos hcode, Worklist.pushAll_cons, Worklist.push, hcode, Bool.and_true]
        cases st.2 addr <;> rfl
      · rw [List.filter_cons_of_neg hcode, Bool.eq_false_iff.2 hcode, Bool.and_false]
        rfl

/-- The visits of a list of addresses, up to the first that fails. -/
def SizedDisassembler.visitAll (visit : σ → Function → Except ε σ) : List Addr → σ → Reached σ ε
  | [], s => ⟨[], [], .ok s⟩
  | addr :: addrs, s =>
      match d.functionAt addr with
      | none =>
          let r := SizedDisassembler.visitAll visit addrs s
          { r with seen := addr :: r.seen }
      | some out =>
          match visit s out.fn with
          | .error e => ⟨[addr], [out.fn], .error e⟩
          | .ok s =>
              let r := SizedDisassembler.visitAll visit addrs s
              { r with seen := addr :: r.seen, fns := out.fn :: r.fns }

theorem reachLoop_eq (visit : σ → Function → Except ε σ) {fuel : ℕ} (hfuel : d.walkFuel ≤ fuel) :
    ∀ n (st : List Addr × (Addr → Bool)) (s : σ) (l : List Addr),
    Worklist.run d.calleesOf n st = some l →
    d.reachLoop visit fuel n st s = some (d.visitAll visit l s) := by
  intro n
  induction n with
  | zero => intro st s l h; cases h
  | succ n ih =>
      intro st s l h
      obtain ⟨queue, visited⟩ := st
      cases queue with
      | nil =>
          cases h
          rfl
      | cons curr queue =>
          simp only [Worklist.run, Option.map_eq_some_iff] at h
          obtain ⟨l', hl', rfl⟩ := h
          simp only [SizedDisassembler.reachLoop, disasmFunction_fuel d curr hfuel]
          simp only [SizedDisassembler.visitAll, SizedDisassembler.functionAt]
          cases hout : d.disasmFunction curr d.walkFuel with
          | none =>
              have hnext : d.calleesOf curr = [] := by
                rw [SizedDisassembler.calleesOf, SizedDisassembler.functionAt, hout]
              rw [hnext, Worklist.pushAll_nil] at hl'
              simp only [ih _ s _ hl', Option.map_some]
          | some out =>
              have hnext : d.calleesOf curr = out.discoveredCalls.filter (d.inCode out.pendingData) := by
                rw [SizedDisassembler.calleesOf, SizedDisassembler.functionAt, hout]
              dsimp only
              cases hvisit : visit s out.fn with
              | error e => rfl
              | ok s' =>
                  rw [hnext, ← enqueueFuncs_eq] at hl'
                  simp only [ih _ s' _ hl', Option.map_some]

/-! ### the visits -/

theorem visitAll_seen (visit : σ → Function → Except ε σ) (addrs : List Addr) : ∀ s : σ,
    (d.visitAll visit addrs s).seen <+: addrs := by
  induction addrs with
  | nil => exact fun _ => List.prefix_refl _
  | cons addr addrs ih =>
      intro s
      simp only [SizedDisassembler.visitAll]
      cases d.functionAt addr with
      | none => exact List.prefix_cons_inj _ |>.2 (ih s)
      | some out =>
          dsimp only
          cases visit s out.fn with
          | error e => exact ⟨addrs, rfl⟩
          | ok s' => exact List.prefix_cons_inj _ |>.2 (ih s')

theorem visitAll_fns (visit : σ → Function → Except ε σ) (addrs : List Addr) : ∀ s : σ,
    (d.visitAll visit addrs s).fns =
      (d.visitAll visit addrs s).seen.filterMap fun a => (d.functionAt a).map (·.fn) := by
  induction addrs with
  | nil => exact fun _ => rfl
  | cons addr addrs ih =>
      intro s
      simp only [SizedDisassembler.visitAll]
      cases hout : d.functionAt addr with
      | none =>
          simp only [List.filterMap_cons, hout, Option.map_none]
          exact ih s
      | some out =>
          dsimp only
          cases visit s out.fn with
          | error e => simp only [List.filterMap_cons, hout, Option.map_some, List.filterMap_nil]
          | ok s' =>
              simp only [List.filterMap_cons, hout, Option.map_some]
              rw [ih s']

/-- Where no visit fails, the walk takes every address, and its state is that of all the visits. -/
theorem visitAll_ok (visit : σ → Function → Except ε σ) (addrs : List Addr) : ∀ s s' : σ,
    (d.visitAll visit addrs s).outcome = .ok s' →
    (d.visitAll visit addrs s).seen = addrs ∧ (d.visitAll visit addrs s).fns.foldlM visit s = .ok s' := by
  induction addrs with
  | nil => exact fun s s' h => ⟨rfl, h⟩
  | cons addr addrs ih =>
      intro s s' h
      simp only [SizedDisassembler.visitAll] at h ⊢
      cases hout : d.functionAt addr with
      | none =>
          rw [hout] at h
          obtain ⟨hseen, hfold⟩ := ih s s' h
          exact ⟨congrArg (addr :: ·) hseen, hfold⟩
      | some out =>
          rw [hout] at h
          dsimp only at h ⊢
          cases hvisit : visit s out.fn with
          | error e =>
              rw [hvisit] at h
              cases h
          | ok s₁ =>
              rw [hvisit] at h
              obtain ⟨hseen, hfold⟩ := ih s₁ s' h
              refine ⟨congrArg (addr :: ·) hseen, ?_⟩
              simp only [List.foldlM_cons, hvisit]
              exact hfold

theorem map_entryAddr (addrs : List Addr) :
    (addrs.filterMap fun a => (d.functionAt a).map (·.fn)).map (·.entryAddr) =
      addrs.filter fun a => (d.functionAt a).isSome := by
  induction addrs with
  | nil => rfl
  | cons addr addrs ih =>
      cases hout : d.functionAt addr with
      | none =>
          simp only [List.filterMap_cons, List.filter_cons, hout, Option.map_none, ih]
          rfl
      | some out =>
          simp only [List.filterMap_cons, List.filter_cons, hout, Option.map_some, List.map_cons, ih,
            disasmFunction_entryAddr hout]
          rfl

/-! ### the walk -/

/-- The addresses of a finished walk: those that the entries in code lead to.  Its functions are
theirs, where they decode. -/
structure Closed (pendingData : List (Addr × Addr)) (entryAddrs : List Addr) (r : Reached σ ε) :
    Prop where
  entries : ∀ e ∈ entryAddrs, d.inCode pendingData e = true → e ∈ r.seen
  callees : ∀ a ∈ r.seen, ∀ t ∈ d.calleesOf a, t ∈ r.seen
  least : ∀ a ∈ r.seen, Worklist.Reach d.calleesOf (entryAddrs.filter (d.inCode pendingData)) a
  functions : ∀ fn, fn ∈ r.fns ↔ ∃ a ∈ r.seen, ∃ out, d.functionAt a = some out ∧ out.fn = fn

theorem calleesOf_mem {a b : Addr} (h : b ∈ d.calleesOf a) : b ∈ d.imageAddrs := by
  unfold SizedDisassembler.calleesOf at h
  split at h
  · exact inCode_mem (List.mem_filter.1 h).2
  · cases h

theorem walkReachable_eq (visit : σ → Function → Except ε σ) (pendingData : List (Addr × Addr))
    (entryAddrs : List Addr) (s : σ) :
    ∃ l : List Addr, l.Nodup ∧
      (∀ a, a ∈ l ↔ Worklist.Reach d.calleesOf (entryAddrs.filter (d.inCode pendingData)) a) ∧
      ∀ fuel, d.walkFuel ≤ fuel →
        d.walkReachable visit fuel pendingData entryAddrs s = some (d.visitAll visit l s) := by
  have hcard := card_imageAddrs d.toDisassembler
  have hlt : d.imageAddrs.card < d.walkFuel := by
    unfold Disassembler.walkFuel
    omega
  obtain ⟨l, hl⟩ := Worklist.run_start_isSome
    (fun e he => inCode_mem (List.mem_filter.1 he).2 :
      ∀ e ∈ entryAddrs.filter (d.inCode pendingData), e ∈ d.imageAddrs)
    (fun a b hb => calleesOf_mem d hb) hlt
  refine ⟨l, Worklist.run_nodup hl, Worklist.mem_run_iff hl, fun fuel hfuel => ?_⟩
  rw [SizedDisassembler.walkReachable, enqueueFuncs_eq]
  exact reachLoop_eq d visit hfuel fuel _ s l (Worklist.run_mono hfuel hl)

theorem closed_visitAll (visit : σ → Function → Except ε σ) {pendingData : List (Addr × Addr)}
    {entryAddrs l : List Addr} {s s' : σ}
    (hl : ∀ a, a ∈ l ↔ Worklist.Reach d.calleesOf (entryAddrs.filter (d.inCode pendingData)) a)
    (hok : (d.visitAll visit l s).outcome = .ok s') :
    Closed d pendingData entryAddrs (d.visitAll visit l s) := by
  obtain ⟨hseen, -⟩ := visitAll_ok d visit l s s' hok
  constructor
  · intro e he hcode
    rw [hseen, hl]
    exact ⟨e, List.mem_filter.2 ⟨he, hcode⟩, .refl⟩
  · intro a ha t ht
    rw [hseen, hl] at ha ⊢
    exact ha.step ht
  · intro a ha
    rw [hseen, hl] at ha
    exact ha
  · intro fn
    rw [visitAll_fns, List.mem_filterMap]
    simp only [Option.map_eq_some_iff]

theorem reach_congr {pendingData : List (Addr × Addr)} {entryAddrs entryAddrs' : List Addr}
    (h : ∀ a, a ∈ entryAddrs' ↔ a ∈ entryAddrs) (a : Addr) :
    Worklist.Reach d.calleesOf (entryAddrs'.filter (d.inCode pendingData)) a ↔
      Worklist.Reach d.calleesOf (entryAddrs.filter (d.inCode pendingData)) a := by
  simp only [Worklist.Reach, List.mem_filter, h]

/-- **Reachable functions.**  A walk ends, takes no address and visits no function twice; unless a
visit fails, it takes what the entries in code lead to and visits the functions found there, the
same ones for every list of the same entries. -/
theorem walkReachable_closure (visit : σ → Function → Except ε σ) (pendingData : List (Addr × Addr))
    (entryAddrs : List Addr) (s : σ) :
    ∃ r, (∀ fuel, 2 * d.image.length + 4 ≤ fuel →
        d.walkReachable visit fuel pendingData entryAddrs s = some r) ∧
      r.seen.Nodup ∧ (r.fns.map (·.entryAddr)).Nodup ∧
      ∀ s', r.outcome = .ok s' → Closed d pendingData entryAddrs r ∧
        ∀ entryAddrs', (∀ a, a ∈ entryAddrs' ↔ a ∈ entryAddrs) →
          ∃ r', (∀ fuel, 2 * d.image.length + 4 ≤ fuel →
              d.walkReachable visit fuel pendingData entryAddrs' s = some r') ∧
            ∀ s'', r'.outcome = .ok s'' → ∀ fn, fn ∈ r'.fns ↔ fn ∈ r.fns := by
  obtain ⟨l, hnodup, hl, hrun⟩ := walkReachable_eq d visit pendingData entryAddrs s
  have hseen : (d.visitAll visit l s).seen.Nodup :=
    hnodup.sublist (visitAll_seen d visit l s).sublist
  refine ⟨d.visitAll visit l s, hrun, hseen, ?_, fun s' hok => ?_⟩
  · rw [visitAll_fns, map_entryAddr]
    exact hseen.filter _
  · have hclosed := closed_visitAll d visit hl hok
    refine ⟨hclosed, fun entryAddrs' hsame => ?_⟩
    obtain ⟨l', -, hl', hrun'⟩ := walkReachable_eq d visit pendingData entryAddrs' s
    refine ⟨d.visitAll visit l' s, hrun', fun s'' hok' fn => ?_⟩
    have hclosed' := closed_visitAll d visit hl' hok'
    rw [hclosed.functions, hclosed'.functions, (visitAll_ok d visit l s s' hok).1,
      (visitAll_ok d visit l' s s'' hok').1]
    simp only [hl, hl', reach_congr d hsame]

/-- An entry that is no code is skipped. -/
theorem walkReachable_skips_entry :
    ¬ ∀ (d : SizedDisassembler) (fuel : ℕ) (entryAddrs : List Addr) (r : Reached (List (Addr × ℕ)) Empty),
      d.walkReachable indexFunc fuel [] entryAddrs [] = some r →
        ∀ e ∈ entryAddrs, ∃ fn ∈ r.fns, fn.entryAddr = e := by
  intro h
  have hcode : (overlapSized 0).inCode [] 0x1000 = false := by decide +kernel
  have hrun : (overlapSized 0).walkReachable indexFunc 20 [] [0x1000] [] =
      some ⟨[], [], .ok []⟩ := by
    simp only [SizedDisassembler.walkReachable, SizedDisassembler.enqueueFuncs, List.foldl_cons,
      List.foldl_nil, hcode, Bool.and_false]
    rfl
  obtain ⟨fn, hfn, -⟩ := h (overlapSized 0) 20 [0x1000] _ hrun 0x1000 (by simp)
  cases hfn

end PS4Recomp.Disasm
