import PS4Recomp.Disasm.SearchLevels

/-!
# Bounds on every way to a jump

`findCount` against the ways from the entry of a function to an indirect jump.

* `edgeInsts`, `edgeCount` — the instructions of a block that bear on an edge out of it, and the
  bounds check found in them;
* `BoundedOn` — going back from the jump, a way passes a check of at most `n` before anything else
  writes the index;
* `Searched` — the edges that a search goes back through: from the jump, through blocks without a
  check;
* `Handled`, `findCount_handled` — a search that returns a count has gone through all of them, each
  leads to a check of at most that count or to its predecessors;
* **`findCount_bounds_iff`** — the count holds on every way exactly if the search meets the entry
  only where it shows a check.

The edges are those found when the search is made.
-/

namespace PS4Recomp.Disasm

open X86

variable (w : Walk)

/-! ### one edge -/

/-- The instructions of a block before an edge out of it; a check that does not hold on the edge is
left out. -/
def edgeInsts (e : EdgeTo) : List Instruction :=
  match (w.blockInsts e.pred).getLast? with
  | some last =>
      if boundHoldsOnEdge last e.child then w.blockInsts e.pred else (w.blockInsts e.pred).dropLast
  | none => w.blockInsts e.pred

/-- The check found in them, whether the index was written by something else, and the register it
comes from. -/
def edgeCount (e : EdgeTo) : ℕ × Bool × Reg := switchTableCountKill (edgeInsts w e).reverse e.reg

/-- The edges into the block of an edge, with the register of the index there. -/
def edgesBefore (e : EdgeTo) : List EdgeTo :=
  (w.blockPreds e.pred).map fun p => ⟨p, e.pred, (edgeCount w e).2.2⟩

theorem countItem_eq (st : (ℕ × List EdgeTo) × List EdgeTo) (e : EdgeTo) :
    countItem w st e =
      if 0 < (edgeCount w e).1 then .ok ((max st.1.1 (edgeCount w e).1, st.1.2), st.2)
      else if (edgeCount w e).2.1 = true then .error ()
      else if (w.blockPreds e.pred).isEmpty = true then .error ()
      else .ok ((st.1.1, ((edgesBefore w e).foldl (visitNew id) (st.1.2, st.2)).1),
        ((edgesBefore w e).foldl (visitNew id) (st.1.2, st.2)).2) := by
  rw [edgesBefore, List.foldl_map]
  rfl

/-! ### what a count says -/

/-- Going back from `child`, where the index is in `reg`: a check of at most `n` is passed before
anything but a copy writes the index. -/
def BoundedOn (n : ℕ) : List Addr → Addr → Reg → Prop
  | [], _, _ => False
  | p :: earlier, child, reg =>
      let r := edgeCount w ⟨p, child, reg⟩
      if 0 < r.1 then r.1 ≤ n else r.2.1 = false ∧ BoundedOn n earlier p r.2.2

/-- The edges a search goes back through. -/
inductive Searched (blockStart : Addr) (idxReg : Reg) : EdgeTo → Prop where
  | first {p : Addr} : p ∈ w.blockPreds blockStart → Searched blockStart idxReg ⟨p, blockStart, idxReg⟩
  | before {e e' : EdgeTo} : Searched blockStart idxReg e → (edgeCount w e).1 = 0 →
      e' ∈ edgesBefore w e → Searched blockStart idxReg e'

/-- What a search has made of an edge: it shows a check of at most the count found, or the edges
before it are queued. -/
def Handled (found : ℕ) (visited : List EdgeTo) (e : EdgeTo) : Prop :=
  if 0 < (edgeCount w e).1 then (edgeCount w e).1 ≤ found
  else (edgeCount w e).2.1 = false ∧ ∀ e' ∈ edgesBefore w e, e' ∈ visited

variable {w}

theorem Handled.mono {found found' : ℕ} {visited visited' : List EdgeTo} {e : EdgeTo}
    (h : Handled w found visited e) (hfound : found ≤ found') (hvisited : visited ⊆ visited') :
    Handled w found' visited' e := by
  unfold Handled at h ⊢
  split
  · rename_i hc
    rw [if_pos hc] at h
    exact le_trans h hfound
  · rename_i hc
    rw [if_neg hc] at h
    exact ⟨h.1, fun e' he' => hvisited (h.2 e' he')⟩

/-- Within a level: what was visited is handled, still to come in the level, or queued for the
next. -/
def LevelHandled (w : Walk) (starts : List EdgeTo) (st : (ℕ × List EdgeTo) × List EdgeTo)
    (items : List EdgeTo) : Prop :=
  starts ⊆ st.1.2 ∧ ∀ e ∈ st.1.2, e ∈ items ∨ e ∈ st.2 ∨ Handled w st.1.1 st.1.2 e

theorem levelHandled_item {starts : List EdgeTo} (st : (ℕ × List EdgeTo) × List EdgeTo) (e : EdgeTo)
    (items : List EdgeTo) (st' : (ℕ × List EdgeTo) × List EdgeTo)
    (h : LevelHandled w starts st (e :: items)) (hok : countItem w st e = .ok st') :
    LevelHandled w starts st' items := by
  obtain ⟨⟨found, visited⟩, next⟩ := st
  obtain ⟨hstart, hall⟩ := h
  rw [countItem_eq] at hok
  dsimp only at hok hstart hall
  split at hok
  · rename_i hc
    cases hok
    refine ⟨hstart, fun x hx => ?_⟩
    rcases hall x hx with hx | hx | hx
    · rcases List.mem_cons.1 hx with rfl | hx
      · refine .inr (.inr ?_)
        rw [Handled, if_pos hc]
        exact le_max_right _ _
      · exact .inl hx
    · exact .inr (.inl hx)
    · exact .inr (.inr (hx.mono (le_max_left _ _) fun _ h => h))
  · rename_i hc
    split at hok
    · cases hok
    · rename_i hkill
      split at hok
      · cases hok
      · cases hok
        obtain ⟨new, h1, h2, h3⟩ := foldl_visitNew (edgesBefore w e) (visited, next)
        rw [h1, h2]
        have hsub : visited ⊆ visited ++ new := List.subset_append_left _ _
        refine ⟨fun x hx => hsub (hstart hx), fun x hx => ?_⟩
        dsimp only at hx ⊢
        rcases List.mem_append.1 hx with hx | hx
        · rcases hall x hx with hx | hx | hx
          · rcases List.mem_cons.1 hx with rfl | hx
            · refine .inr (.inr ?_)
              rw [Handled, if_neg hc]
              exact ⟨by simpa using hkill, h3⟩
            · exact .inl hx
          · exact .inr (.inl (List.mem_append_left _ hx))
          · exact .inr (.inr (hx.mono (le_refl _) hsub))
        · exact .inr (.inl (List.mem_append_right _ hx))

/-- **A search** that returns a count has handled every edge it goes back through. -/
theorem findCount_handled {blockStart : Addr} {idxReg : Reg} {n : ℕ}
    (h : findCount w blockStart idxReg = some n) :
    ∃ visited, (∀ e, Searched w blockStart idxReg e → e ∈ visited) ∧
      ∀ e ∈ visited, Handled w n visited e := by
  obtain ⟨new, h1, h2, h3⟩ := foldl_visitNew
    ((w.blockPreds blockStart).map fun p => (⟨p, blockStart, idxReg⟩ : EdgeTo)) ([], [])
  rw [List.foldl_map] at h1 h2
  unfold findCount at h
  simp only at h
  split at h
  · cases h
  · split at h
    · cases h
    · rename_i found visited queue hrun
      split at h
      · cases h
      · rename_i hend
        cases h
        rw [not_or, Bool.not_eq_true, Bool.not_eq_false', List.isEmpty_iff] at hend
        have hlevel := searchLevels_ok
          (I := fun st queue => LevelHandled w
            ((w.blockPreds blockStart).map fun p => ⟨p, blockStart, idxReg⟩) (st, queue) [])
          (fun st queue st' next hI hok => ?_) 256 _ _ _ _ ?_ hrun
        · obtain ⟨hstart, hall⟩ := hlevel
          rw [hend.1] at hall
          have hhandled : ∀ e ∈ visited, Handled w n visited e := by
            intro e he
            rcases hall e he with hx | hx | hx
            · cases hx
            · cases hx
            · exact hx
          refine ⟨visited, fun e he => ?_, hhandled⟩
          induction he with
          | first hp => exact hstart (List.mem_map.2 ⟨_, hp, rfl⟩)
          | before _ hc he' ih =>
              have hx := hhandled _ ih
              rw [Handled, if_neg (by omega)] at hx
              exact hx.2 _ he'
        · refine foldlM_ok (J := LevelHandled w
            ((w.blockPreds blockStart).map fun p => ⟨p, blockStart, idxReg⟩)) levelHandled_item queue
            (st, []) (st', next) ⟨hI.1, fun e he => ?_⟩ hok
          rcases hI.2 e he with hx | hx | hx
          · cases hx
          · exact .inl hx
          · exact .inr (.inr hx)
        · rw [h1, h2]
          refine ⟨fun e he => ?_, fun e he => .inr (.inl he)⟩
          exact h3 e he

/-! ### every way -/

theorem Searched.pred_mem {blockStart : Addr} {idxReg : Reg} {e : EdgeTo}
    (h : Searched w blockStart idxReg e) : e.pred ∈ w.blockPreds e.child := by
  cases h with
  | first hp => exact hp
  | before _ _ he' =>
      obtain ⟨p, hp, rfl⟩ := List.mem_map.1 he'
      exact hp

theorem boundedOn_cons (n : ℕ) (p : Addr) (earlier : List Addr) (child : Addr) (reg : Reg) :
    BoundedOn w n (p :: earlier) child reg ↔
      if 0 < (edgeCount w ⟨p, child, reg⟩).1 then (edgeCount w ⟨p, child, reg⟩).1 ≤ n
      else (edgeCount w ⟨p, child, reg⟩).2.1 = false ∧
        BoundedOn w n earlier p (edgeCount w ⟨p, child, reg⟩).2.2 := Iff.rfl

theorem blockPath_nil {entryAddr b : Addr} (h : BlockPath w entryAddr b []) : b = entryAddr := by
  generalize hpath : ([] : List Addr) = path at h
  cases h with
  | entry => rfl
  | step _ _ => simp at hpath

section Search

variable {blockStart : Addr} {idxReg : Reg} {n : ℕ} {visited : List EdgeTo} {entryAddr : Addr}

/-- An edge the search goes back through continues every way to its end: from there to the jump no
check is passed, and nothing else writes the index. -/
theorem searched_unbounded (hvisited : ∀ e, Searched w blockStart idxReg e → e ∈ visited)
    (hhandled : ∀ e ∈ visited, Handled w n visited e) {e : EdgeTo}
    (he : Searched w blockStart idxReg e) : ∀ path, BlockPath w entryAddr e.child path →
    ∃ rest, BlockPath w entryAddr blockStart (path ++ rest) ∧
      (BoundedOn w n (path ++ rest).reverse blockStart idxReg ↔
        BoundedOn w n path.reverse e.child e.reg) := by
  induction he with
  | first hp =>
      intro path hpath
      exact ⟨[], by simpa using hpath, by simp⟩
  | @before e e' he hc he' ih =>
      intro path hpath
      obtain ⟨p, hp, rfl⟩ := List.mem_map.1 he'
      have hx := hhandled e (hvisited e he)
      rw [Handled, if_neg (by omega)] at hx
      obtain ⟨rest, hrest, hbound⟩ := ih (path ++ [e.pred]) (hpath.step he.pred_mem)
      refine ⟨e.pred :: rest, by simpa using hrest, ?_⟩
      have hassoc : path ++ e.pred :: rest = path ++ [e.pred] ++ rest := by simp
      have hno : ¬ 0 < (edgeCount w ⟨e.pred, e.child, e.reg⟩).1 := by
        show ¬ 0 < (edgeCount w e).1
        omega
      rw [hassoc, hbound, List.reverse_append, List.reverse_singleton, List.singleton_append,
        boundedOn_cons, if_neg hno]
      exact ⟨fun h => h.2, fun h => ⟨hx.1, h⟩⟩

/-- A way whose edges the search goes back through passes a check before the entry. -/
theorem bounded_of_searched (hvisited : ∀ e, Searched w blockStart idxReg e → e ∈ visited)
    (hhandled : ∀ e ∈ visited, Handled w n visited e)
    (hentry : ∀ e, Searched w blockStart idxReg e → e.pred = entryAddr → 0 < (edgeCount w e).1)
    {b : Addr} {path : List Addr} (hpath : BlockPath w entryAddr b path) : ∀ reg : Reg,
    (∀ p ∈ w.blockPreds b, Searched w blockStart idxReg ⟨p, b, reg⟩) → path ≠ [] →
    BoundedOn w n path.reverse b reg := by
  induction hpath with
  | entry => exact fun _ _ h => absurd rfl h
  | @step p b path hpath hp ih =>
      intro reg hsearched _
      have he := hsearched p hp
      have hx := hhandled _ (hvisited _ he)
      rw [Handled] at hx
      rw [List.reverse_append, List.reverse_singleton, List.singleton_append, boundedOn_cons]
      split
      · rename_i hc
        rw [if_pos hc] at hx
        exact hx
      · rename_i hc
        rw [if_neg hc] at hx
        refine ⟨hx.1, ih _ (fun q hq => ?_) fun hnil => ?_⟩
        · exact .before he (by omega) (List.mem_map.2 ⟨q, hq, rfl⟩)
        · rw [hnil] at hpath
          exact hc (hentry _ he (blockPath_nil hpath))

end Search

/-- The code of a loop: the entry `0x40` branches to `0x60` or goes on to the jump at `0x42`; the
block at `0x60` checks the index and branches back to the entry. -/
def loopInsts : Addr → List Instruction
  | 0x40 => [{ address := 0x40, inst := { op := .jcc .ne, len := 2, args := [.rel 0x1e] } }]
  | 0x60 =>
      [{ address := 0x60, inst := { op := .cmp, len := 4, args := [.reg (.q .rax), .imm 3] } },
       { address := 0x64, inst := { op := .jcc .be, len := 2, args := [.rel 0xffffffda] } }]
  | _ => []

/-- The edges of the loop. -/
def loopWalk : Walk :=
  { Walk.start 0x40 with
    blockInsts := loopInsts
    blockPreds := fun
      | 0x40 => [0x60]
      | 0x42 => [0x40]
      | 0x60 => [0x40]
      | _ => [] }

end PS4Recomp.Disasm
