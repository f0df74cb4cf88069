import PS4Recomp.Gnm.PendingWrites

/-!
# The pending writes answer like a scan

* `Core` — the entries, their index and the live and open lists against the latest writes; `Listed` — the
  buckets and the wide list hold the live entries; `Stamped` — no stamp is ahead;
* `Core.note`, `Core.commit`, `Core.prune`, `Core.compact` — one lemma for each call;
* `best_foldl`, `best_visit` — what a query has found after some candidates;
* **`overlaps_answers`** — the step from the invariant to the answer;
* **`pendingWrites_scan`** — in every run each query is answered as by a scan.
-/

namespace PS4Recomp.Gnm.PendingWrites

open Library.Transition GnmPendingWrites

attribute [local irreducible] covers65 firstBucket lastBucket

/-! ### Changing entries -/

def entryAt (es : List Entry) (i : Nat) : Entry := es.getD i {}

theorem entryAt_modify (es : List Entry) (i j : Nat) (f : Entry → Entry) (hj : j < es.length) :
    entryAt (es.modify i f) j = if i = j then f (entryAt es j) else entryAt es j := by
  rw [entryAt, entryAt, List.getD_eq_getElem?_getD, List.getD_eq_getElem?_getD, List.getElem?_modify,
    List.getElem?_eq_getElem hj]
  split
  · rfl
  · rfl

/-- The entries of a list of numbers, changed one after the other. -/
theorem foldl_modify {f : Entry → Entry} (hf : ∀ e, f (f e) = f e) (is : List Nat) :
    ∀ es : List Entry, (is.foldl (fun es i => es.modify i f) es).length = es.length ∧
      ∀ j < es.length, entryAt (is.foldl (fun es i => es.modify i f) es) j =
        if j ∈ is then f (entryAt es j) else entryAt es j := by
  induction is with
  | nil => exact fun es => ⟨rfl, fun j _ => (if_neg (List.not_mem_nil)).symm⟩
  | cons i is ih =>
    intro es
    have hlen : (es.modify i f).length = es.length := List.length_modify ..
    obtain ⟨ihlen, ihentry⟩ := ih (es.modify i f)
    refine ⟨ihlen.trans hlen, ?_⟩
    intro j hj
    rw [List.foldl_cons, ihentry j (by omega), entryAt_modify es i j f hj]
    by_cases hij : i = j
    · subst hij
      rw [if_pos rfl, if_pos List.mem_cons_self, hf, ite_self]
    · rw [if_neg hij]
      have hiff : j ∈ i :: is ↔ j ∈ is := by
        rw [List.mem_cons]
        exact or_iff_right (Ne.symm hij)
      by_cases hmem : j ∈ is
      · rw [if_pos hmem, if_pos (hiff.2 hmem)]
      · rw [if_neg hmem, if_neg (fun h => hmem (hiff.1 h))]

/-! ### The invariant -/

/-- The write that an entry keeps. -/
def writeOf (e : Entry) : Write := ⟨e.epoch, e.tgt, if e.seq = kOpen then none else some e.seq⟩

/-- The live entries are the pending latest writes, each once. -/
structure Core (es : List Entry) (idx : Key → Option Nat) (live : List Nat) (openList : Target → List Nat)
    (w : Writes) : Prop where
  idx_entry : ∀ i < es.length, idx (entryAt es i).key = some i
  entry_idx : ∀ k i, idx k = some i → i < es.length ∧ (entryAt es i).key = k
  nodup : live.Nodup
  mem_live : ∀ i, i ∈ live ↔ i < es.length ∧ (entryAt es i).live = true
  latest : ∀ i ∈ live, w.latest (entryAt es i).key = some (writeOf (entryAt es i)) ∧
    w.Pending (writeOf (entryAt es i))
  pending : ∀ k x, w.latest k = some x → w.Pending x → ∃ i ∈ live, (entryAt es i).key = k
  opens : ∀ i < es.length, (entryAt es i).seq = kOpen →
    (entryAt es i).live = true ∧ i ∈ openList (entryAt es i).tgt
  bounds : ∀ i < es.length, 0 < (entryAt es i).size ∧ (entryAt es i).addr + (entryAt es i).size < 2 ^ 64

/-- The buckets and the wide list hold some entries. -/
structure Listed (es : List Entry) (is : List Nat) (buckets : Nat → List Nat) (wide : List Nat) : Prop where
  wide : ∀ i, i ∈ wide ↔ i ∈ is ∧ covers65 (entryAt es i).addr (entryAt es i).size = true
  buckets : ∀ p i, i ∈ buckets p ↔ i ∈ is ∧ covers65 (entryAt es i).addr (entryAt es i).size = false ∧
    firstBucket (entryAt es i).addr ≤ p ∧ p ≤ lastBucket (entryAt es i).addr (entryAt es i).size

def Stamped (stamp : Nat → Nat) (gen : Nat) : Prop := gen < 2 ^ 32 ∧ ∀ i, stamp i ≤ gen

structure Inv (g : GnmPendingWrites) (w : Writes) : Prop where
  core : Core g.entries g.idx g.live g.openList w
  listed : Listed g.entries g.live g.buckets g.wide
  stamped : Stamped g.stamp g.gen
  done : g.done = w.done

/-! ### Buckets -/

theorem addToBuckets_wide {g : GnmPendingWrites} {i : Nat}
    (h : covers65 (entryAt g.entries i).addr (entryAt g.entries i).size = true) :
    g.addToBuckets i = { g with wide := g.wide ++ [i] } :=
  if_pos h

theorem addToBuckets_narrow {g : GnmPendingWrites} {i : Nat}
    (h : covers65 (entryAt g.entries i).addr (entryAt g.entries i).size = false) :
    g.addToBuckets i = { g with
      buckets := fun p =>
        if firstBucket (entryAt g.entries i).addr ≤ p ∧
            p ≤ lastBucket (entryAt g.entries i).addr (entryAt g.entries i).size
        then g.buckets p ++ [i] else g.buckets p } :=
  if_neg (ne_true_of_eq_false h)

theorem Listed.add {g : GnmPendingWrites} {is : List Nat} (h : Listed g.entries is g.buckets g.wide) (i : Nat) :
    ∃ buckets wide, g.addToBuckets i = { g with buckets, wide } ∧
      Listed g.entries (is ++ [i]) buckets wide := by
  cases hcovers : covers65 (entryAt g.entries i).addr (entryAt g.entries i).size with
  | true =>
    refine ⟨g.buckets, g.wide ++ [i], addToBuckets_wide hcovers, fun j => ?_, fun p j => ?_⟩
    · rw [List.mem_append, List.mem_append, List.mem_singleton, h.wide]
      constructor
      · rintro (⟨hj, hc⟩ | rfl)
        · exact ⟨.inl hj, hc⟩
        · exact ⟨.inr rfl, hcovers⟩
      · rintro ⟨hj | rfl, hc⟩
        · exact .inl ⟨hj, hc⟩
        · exact .inr rfl
    · rw [List.mem_append, List.mem_singleton, h.buckets]
      constructor
      · rintro ⟨hj, hrest⟩
        exact ⟨.inl hj, hrest⟩
      · rintro ⟨hj | rfl, hc, hrest⟩
        · exact ⟨hj, hc, hrest⟩
        · exact absurd (hcovers.symm.trans hc) (by decide)
  | false =>
    refine ⟨_, g.wide, addToBuckets_narrow hcovers, fun j => ?_, fun p j => ?_⟩
    · rw [List.mem_append, List.mem_singleton, h.wide]
      constructor
      · rintro ⟨hj, hc⟩
        exact ⟨.inl hj, hc⟩
      · rintro ⟨hj | rfl, hc⟩
        · exact ⟨hj, hc⟩
        · exact absurd (hc.symm.trans hcovers) (by decide)
    · rw [List.mem_append, List.mem_singleton]
      split
      · next hin =>
        rw [List.mem_append, List.mem_singleton, h.buckets]
        constructor
        · rintro (⟨hj, hrest⟩ | rfl)
          · exact ⟨.inl hj, hrest⟩
          · exact ⟨.inr rfl, hcovers, hin⟩
        · rintro ⟨hj | rfl, hrest⟩
          · exact .inl ⟨hj, hrest⟩
          · exact .inr rfl
      · next hout =>
        rw [h.buckets]
        constructor
        · rintro ⟨hj, hrest⟩
          exact ⟨.inl hj, hrest⟩
        · rintro ⟨hj | rfl, hc, hrest⟩
          · exact ⟨hj, hc, hrest⟩
          · exact absurd hrest hout

theorem foldl_addToBuckets (is : List Nat) : ∀ (g : GnmPendingWrites) (before : List Nat),
    Listed g.entries before g.buckets g.wide →
    ∃ buckets wide, is.foldl addToBuckets g = { g with buckets, wide } ∧
      Listed g.entries (before ++ is) buckets wide := by
  induction is with
  | nil =>
    intro g before h
    exact ⟨g.buckets, g.wide, rfl, by rw [List.append_nil]; exact h⟩
  | cons i is ih =>
    intro g before h
    obtain ⟨b, wd, heq, hadd⟩ := h.add i
    obtain ⟨buckets, wide, hfold, hlisted⟩ := ih { g with buckets := b, wide := wd } (before ++ [i]) hadd
    refine ⟨buckets, wide, ?_, ?_⟩
    · rw [List.foldl_cons, heq]
      exact hfold
    · rw [List.append_assoc] at hlisted
      exact hlisted

theorem rebuildBuckets_listed (g : GnmPendingWrites) :
    ∃ buckets wide, g.rebuildBuckets = { g with buckets, wide } ∧ Listed g.entries g.live buckets wide := by
  have hempty : Listed g.entries [] (fun _ => []) [] :=
    ⟨fun i => iff_of_false List.not_mem_nil fun h => List.not_mem_nil h.1,
      fun p i => iff_of_false List.not_mem_nil fun h => List.not_mem_nil h.1⟩
  exact foldl_addToBuckets g.live { g with buckets := fun _ => [], wide := [] } [] hempty

/-- The lists stay right where the entries keep their ranges. -/
theorem Listed.congr {es es' : List Entry} {is : List Nat} {buckets : Nat → List Nat} {wide : List Nat}
    (h : Listed es is buckets wide) (hkey : ∀ i ∈ is, (entryAt es' i).key = (entryAt es i).key) :
    Listed es' is buckets wide := by
  have hsame : ∀ i ∈ is, (entryAt es' i).addr = (entryAt es i).addr ∧
      (entryAt es' i).size = (entryAt es i).size := fun i hi => Prod.mk.inj (hkey i hi)
  refine ⟨fun i => ?_, fun p i => ?_⟩
  · rw [h.wide]
    refine and_congr_right fun hi => ?_
    rw [(hsame i hi).1, (hsame i hi).2]
  · rw [h.buckets]
    refine and_congr_right fun hi => ?_
    rw [(hsame i hi).1, (hsame i hi).2]

/-! ### Notes -/

section Core

variable {es : List Entry} {idx : Key → Option Nat} {live : List Nat} {openList : Target → List Nat}
  {w : Writes}

theorem Core.key_ne (h : Core es idx live openList w) {i j : Nat} (hi : i < es.length) (hj : j < es.length)
    (hne : i ≠ j) : (entryAt es i).key ≠ (entryAt es j).key := by
  intro heq
  have hidx := h.idx_entry i hi
  rw [heq, h.idx_entry j hj] at hidx
  exact hne (Option.some.inj hidx).symm

theorem entryAt_append_lt (e : Entry) {j : Nat} (hj : j < es.length) : entryAt (es ++ [e]) j = entryAt es j := by
  rw [entryAt, entryAt, List.getD_append _ _ _ _ hj]

theorem entryAt_append_self (es : List Entry) (e : Entry) : entryAt (es ++ [e]) es.length = e := by
  rw [entryAt, List.getD_append_right _ _ _ _ (Nat.le_refl _), Nat.sub_self]
  rfl

theorem lt_length_concat {e : Entry} {j : Nat} (hj : j < (es ++ [e]).length) : j < es.length ∨ j = es.length := by
  rw [List.length_append, List.length_singleton] at hj
  omega

def newEntry (addr size epoch : Nat) : Entry := { addr, size, epoch }

theorem Core.add (h : Core es idx live openList w) {addr size epoch : Nat} (hnew : idx (addr, size) = none)
    (hsize : 0 < size) (hbound : addr + size < 2 ^ 64) :
    Core (es ++ [newEntry addr size epoch]) (Function.update idx (addr, size) (some es.length)) live openList w := by
  have hold : ∀ {j}, j < es.length → entryAt (es ++ [newEntry addr size epoch]) j = entryAt es j :=
    fun hj => entryAt_append_lt _ hj
  have hself := entryAt_append_self es (newEntry addr size epoch)
  have hlive : ∀ {j}, j ∈ live → j < es.length := fun hj => ((h.mem_live _).1 hj).1
  refine ⟨?_, ?_, h.nodup, ?_, ?_, ?_, ?_, ?_⟩
  · intro j hj
    rcases lt_length_concat hj with hlt | rfl
    · have hne : (entryAt es j).key ≠ (addr, size) := by
        intro heq
        have hidx := h.idx_entry j hlt
        rw [heq, hnew] at hidx
        cases hidx
      rw [hold hlt, Function.update_of_ne hne, h.idx_entry j hlt]
    · rw [hself]
      exact Function.update_self ..
  · intro k j hk
    rw [List.length_append, List.length_singleton]
    by_cases heq : k = (addr, size)
    · subst heq
      rw [Function.update_self] at hk
      cases hk
      exact ⟨Nat.lt_succ_self _, by rw [hself]; rfl⟩
    · rw [Function.update_of_ne heq] at hk
      obtain ⟨hlt, hkey⟩ := h.entry_idx k j hk
      exact ⟨Nat.lt_succ_of_lt hlt, by rw [hold hlt]; exact hkey⟩
  · intro j
    rw [h.mem_live, List.length_append, List.length_singleton]
    constructor
    · rintro ⟨hlt, hj⟩
      exact ⟨Nat.lt_succ_of_lt hlt, by rw [hold hlt]; exact hj⟩
    · rintro ⟨hlt, hj⟩
      rcases Nat.lt_succ_iff_lt_or_eq.1 hlt with hlt | rfl
      · exact ⟨hlt, by rw [hold hlt] at hj; exact hj⟩
      · rw [hself] at hj
        cases hj
  · intro j hj
    rw [hold (hlive hj)]
    exact h.latest j hj
  · intro k x hk hx
    obtain ⟨j, hj, hkey⟩ := h.pending k x hk hx
    exact ⟨j, hj, by rw [hold (hlive hj)]; exact hkey⟩
  · intro j hj hseq
    rcases lt_length_concat hj with hlt | rfl
    · rw [hold hlt] at hseq ⊢
      exact h.opens j hlt hseq
    · rw [hself] at hseq
      cases hseq
  · intro j hj
    rcases lt_length_concat hj with hlt | rfl
    · rw [hold hlt]
      exact h.bounds j hlt
    · rw [hself]
      exact ⟨hsize, hbound⟩

/-- The entry that a write is noted in. -/
def noteEntry (epoch : Nat) (tgt : Target) (e : Entry) : Entry :=
  { e with epoch, seq := kOpen, tgt, live := true }

theorem Core.note (h : Core es idx live openList w) {addr size i : Nat} (epoch : Nat) (tgt : Target)
    (hsize : size ≠ 0) (hi : i < es.length) (hkey : (entryAt es i).key = (addr, size)) :
    Core (es.modify i (noteEntry epoch tgt)) idx
      (if (entryAt es i).live = false then live ++ [i] else live)
      (if (entryAt es i).seq ≠ kOpen ∨ (entryAt es i).tgt ≠ tgt
        then Function.update openList tgt (openList tgt ++ [i]) else openList)
      (w.note addr size epoch tgt) := by
  have hlen : (es.modify i (noteEntry epoch tgt)).length = es.length := List.length_modify ..
  have hself : entryAt (es.modify i (noteEntry epoch tgt)) i = noteEntry epoch tgt (entryAt es i) := by
    rw [entryAt_modify es i i _ hi, if_pos rfl]
  have hother : ∀ {j}, j < es.length → j ≠ i →
      entryAt (es.modify i (noteEntry epoch tgt)) j = entryAt es j := by
    intro j hj hne
    rw [entryAt_modify es i j _ hj, if_neg (Ne.symm hne)]
  have hkeys : ∀ {j}, j < es.length →
      (entryAt (es.modify i (noteEntry epoch tgt)) j).key = (entryAt es j).key := by
    intro j hj
    by_cases hji : j = i
    · subst hji
      rw [hself]
      rfl
    · rw [hother hj hji]
  have hw : w.note addr size epoch tgt =
      { w with latest := Function.update w.latest (addr, size) (some ⟨epoch, tgt, none⟩), lastEpoch := epoch } :=
    if_neg hsize
  have hmem : ∀ j, (j ∈ if (entryAt es i).live = false then live ++ [i] else live) ↔ j ∈ live ∨ j = i := by
    intro j
    split
    · rw [List.mem_append, List.mem_singleton]
    · next hlive =>
      rw [Bool.not_eq_false] at hlive
      refine ⟨.inl, ?_⟩
      rintro (hj | rfl)
      · exact hj
      · exact (h.mem_live _).2 ⟨hi, hlive⟩
  rw [hw]
  refine ⟨?_, ?_, ?_, ?_, ?_, ?_, ?_, ?_⟩
  · intro j hj
    rw [hlen] at hj
    rw [hkeys hj]
    exact h.idx_entry j hj
  · intro k j hk
    obtain ⟨hlt, hj⟩ := h.entry_idx k j hk
    exact ⟨hlen ▸ hlt, by rw [hkeys hlt]; exact hj⟩
  · split
    · next hdead =>
      have hnot : i ∉ live := by
        intro hin
        have hlive := ((h.mem_live i).1 hin).2
        rw [hdead] at hlive
        cases hlive
      exact List.nodup_append.2 ⟨h.nodup, List.nodup_singleton i, fun a ha b hb hab =>
        hnot (List.mem_singleton.1 hb ▸ hab ▸ ha)⟩
    · exact h.nodup
  · intro j
    rw [hmem, h.mem_live, hlen]
    by_cases hji : j = i
    · subst hji
      rw [hself]
      exact iff_of_true (.inr rfl) ⟨hi, rfl⟩
    · rw [or_iff_left hji]
      refine and_congr_right fun hlt => ?_
      rw [hother hlt hji]
  · intro j hj
    rw [hmem] at hj
    by_cases hji : j = i
    · subst hji
      rw [hself]
      refine ⟨?_, nofun⟩
      show Function.update w.latest (addr, size) _ (entryAt es j).key = _
      rw [hkey, Function.update_self]
      rfl
    · have hlive := hj.resolve_right hji
      have hlt := ((h.mem_live j).1 hlive).1
      have hne : (entryAt es j).key ≠ (addr, size) := hkey ▸ h.key_ne hlt hi hji
      rw [hother hlt hji]
      refine ⟨?_, (h.latest j hlive).2⟩
      show Function.update w.latest (addr, size) _ (entryAt es j).key = _
      rw [Function.update_of_ne hne]
      exact (h.latest j hlive).1
  · intro k x hk hx
    by_cases heq : k = (addr, size)
    · exact ⟨i, (hmem i).2 (.inr rfl), by rw [hkeys hi, hkey, heq]⟩
    · change Function.update w.latest (addr, size) _ k = _ at hk
      rw [Function.update_of_ne heq] at hk
      obtain ⟨j, hj, hjk⟩ := h.pending k x hk hx
      exact ⟨j, (hmem j).2 (.inl hj), by rw [hkeys ((h.mem_live j).1 hj).1]; exact hjk⟩
  · intro j hj hseq
    rw [hlen] at hj
    by_cases hji : j = i
    · subst hji
      rw [hself]
      refine ⟨rfl, ?_⟩
      show j ∈ (if _ then _ else _ : Target → List Nat) tgt
      split
      · rw [Function.update_self]
        exact List.mem_append_right _ (List.mem_singleton_self j)
      · next hsame =>
        obtain ⟨hseq, htgt⟩ := not_or.1 hsame
        rw [not_not] at hseq htgt
        rw [← htgt]
        exact (h.opens j hi hseq).2
    · rw [hother hj hji] at hseq ⊢
      obtain ⟨hlive, hopen⟩ := h.opens j hj hseq
      refine ⟨hlive, ?_⟩
      split
      · by_cases htgt : (entryAt es j).tgt = tgt
        · rw [htgt, Function.update_self]
          exact List.mem_append_left _ (htgt ▸ hopen)
        · rw [Function.update_of_ne htgt]
          exact hopen
      · exact hopen
  · intro j hj
    rw [hlen] at hj
    have hk := hkeys hj
    obtain ⟨haddr, hsz⟩ := Prod.mk.inj hk
    rw [haddr, hsz]
    exact h.bounds j hj

/-! ### Commits -/

theorem commitEntry_key (seq : Nat) (tgt : Target) (e : Entry) : (commitEntry seq tgt e).key = e.key := by
  unfold commitEntry
  split
  · rfl
  · rfl

theorem commitEntry_live (seq : Nat) (tgt : Target) (e : Entry) : (commitEntry seq tgt e).live = e.live := by
  unfold commitEntry
  split
  · rfl
  · rfl

theorem commitEntry_idem {seq : Nat} (hseq : seq ≠ kOpen) (tgt : Target) (e : Entry) :
    commitEntry seq tgt (commitEntry seq tgt e) = commitEntry seq tgt e := by
  by_cases h : e.seq = kOpen ∧ e.tgt = tgt
  · have hcommit : commitEntry seq tgt e = { e with seq } := if_pos h
    rw [hcommit]
    exact if_neg fun h' => hseq h'.1
  · have hcommit : commitEntry seq tgt e = e := if_neg h
    rw [hcommit, hcommit]

theorem writeOf_commitEntry {seq : Nat} (hseq : seq ≠ kOpen) (tgt : Target) (e : Entry) :
    writeOf (commitEntry seq tgt e) = Writes.commitWrite seq tgt (writeOf e) := by
  by_cases h : e.seq = kOpen ∧ e.tgt = tgt
  · have hnone : (writeOf e).seq = none := if_pos h.1
    rw [commitEntry, if_pos h, Writes.commitWrite, if_pos ⟨hnone, h.2⟩]
    show Write.mk _ _ (if seq = kOpen then none else some seq) = _
    rw [if_neg hseq]
    rfl
  · have hsome : ¬((writeOf e).seq = none ∧ (writeOf e).tgt = tgt) := by
      rintro ⟨hnone, htgt⟩
      refine h ⟨?_, htgt⟩
      by_contra hne
      have heq : (writeOf e).seq = some e.seq := if_neg hne
      rw [heq] at hnone
      cases hnone
    rw [commitEntry, if_neg h, Writes.commitWrite, if_neg hsome]

theorem pending_commitWrite {seq : Nat} {tgt : Target} (hdone : w.done < seq) (x : Write) :
    (w.commit seq tgt).Pending (Writes.commitWrite seq tgt x) ↔ w.Pending x := by
  by_cases h : x.seq = none ∧ x.tgt = tgt
  · rw [Writes.commitWrite, if_pos h]
    refine iff_of_true ?_ ?_
    · intro n hn
      cases hn
      exact hdone
    · intro n hn
      rw [h.1] at hn
      cases hn
  · rw [Writes.commitWrite, if_neg h]
    exact Iff.rfl

theorem Core.commit (h : Core es idx live openList w) {seq : Nat} {tgt : Target} (hseq : seq ≠ kOpen)
    (hdone : w.done < seq) :
    Core ((openList tgt).foldl (fun es i => es.modify i (commitEntry seq tgt)) es) idx live
      (Function.update openList tgt []) (w.commit seq tgt) := by
  obtain ⟨hlen, hat⟩ := foldl_modify (commitEntry_idem hseq tgt) (openList tgt) es
  -- what is not in the open list is not open for the target
  have hentry : ∀ {j}, j < es.length →
      entryAt ((openList tgt).foldl (fun es i => es.modify i (commitEntry seq tgt)) es) j =
        commitEntry seq tgt (entryAt es j) := by
    intro j hj
    rw [hat j hj]
    split
    · rfl
    · next hnot =>
      refine (if_neg ?_).symm
      rintro ⟨hopen, rfl⟩
      exact hnot (h.opens j hj hopen).2
  have hlive : ∀ {j}, j ∈ live → j < es.length := fun hj => ((h.mem_live _).1 hj).1
  refine ⟨?_, ?_, h.nodup, ?_, ?_, ?_, ?_, ?_⟩
  · intro j hj
    rw [hlen] at hj
    rw [hentry hj, commitEntry_key]
    exact h.idx_entry j hj
  · intro k j hk
    obtain ⟨hlt, hkey⟩ := h.entry_idx k j hk
    exact ⟨hlen ▸ hlt, by rw [hentry hlt, commitEntry_key]; exact hkey⟩
  · intro j
    rw [h.mem_live, hlen]
    refine and_congr_right fun hlt => ?_
    rw [hentry hlt, commitEntry_live]
  · intro j hj
    obtain ⟨hlatest, hpending⟩ := h.latest j hj
    rw [hentry (hlive hj), commitEntry_key, writeOf_commitEntry hseq]
    refine ⟨?_, (pending_commitWrite hdone _).2 hpending⟩
    show (w.latest _).map _ = _
    rw [hlatest]
    rfl
  · intro k x hk hx
    obtain ⟨y, hy, rfl⟩ := Option.map_eq_some_iff.1 hk
    obtain ⟨j, hj, hkey⟩ := h.pending k y hy ((pending_commitWrite hdone y).1 hx)
    exact ⟨j, hj, by rw [hentry (hlive hj), commitEntry_key]; exact hkey⟩
  · intro j hj hopen
    rw [hlen] at hj
    rw [hentry hj] at hopen ⊢
    by_cases hc : (entryAt es j).seq = kOpen ∧ (entryAt es j).tgt = tgt
    · rw [commitEntry, if_pos hc] at hopen
      exact absurd hopen hseq
    · rw [commitEntry, if_neg hc] at hopen ⊢
      obtain ⟨hl, hmem⟩ := h.opens j hj hopen
      exact ⟨hl, by rw [Function.update_of_ne fun ht => hc ⟨hopen, ht⟩]; exact hmem⟩
  · intro j hj
    rw [hlen] at hj
    rw [hentry hj]
    obtain ⟨haddr, hsize⟩ := Prod.mk.inj (commitEntry_key seq tgt (entryAt es j))
    rw [haddr, hsize]
    exact h.bounds j hj

/-! ### Pruning -/

/-- The latest write of an entry completed. -/
def done (es : List Entry) (n : Nat) (i : Nat) : Bool := (entryAt es i).seq ≠ kOpen ∧ (entryAt es i).seq ≤ n

theorem pending_prune {n : Nat} (hn : w.done < n) (e : Entry) :
    (w.prune n).Pending (writeOf e) ↔ ¬(e.seq ≠ kOpen ∧ e.seq ≤ n) := by
  have hmax : (w.prune n).done = n := Nat.max_eq_right (Nat.le_of_lt hn)
  by_cases hopen : e.seq = kOpen
  · have hnone : (writeOf e).seq = none := if_pos hopen
    refine iff_of_true ?_ fun h => h.1 hopen
    intro m hm
    rw [hnone] at hm
    cases hm
  · have hsome : (writeOf e).seq = some e.seq := if_neg hopen
    constructor
    · intro hpending hcompleted
      have hlt := hpending _ hsome
      rw [hmax] at hlt
      exact Nat.not_lt.2 hcompleted.2 hlt
    · intro hnot m hm
      rw [hsome] at hm
      cases hm
      rw [hmax]
      exact Nat.lt_of_not_le fun hle => hnot ⟨hopen, hle⟩

theorem Core.prune (h : Core es idx live openList w) {n : Nat} (hn : w.done < n) :
    Core ((live.filter (done es n)).foldl (fun es i => es.modify i fun e => { e with live := false }) es) idx
      (live.filter fun i => !done es n i) openList (w.prune n) := by
  obtain ⟨hlen, hat⟩ := foldl_modify (f := fun e => { e with live := false }) (fun _ => rfl)
    (live.filter (done es n)) es
  generalize (live.filter (done es n)).foldl (fun es i => es.modify i fun e => { e with live := false }) es =
    es' at hlen hat ⊢
  have hkept : ∀ {j}, j ∈ (live.filter fun i => !done es n i) ↔ j ∈ live ∧ done es n j = false := by
    intro j
    rw [List.mem_filter, Bool.not_eq_true']
  have hgone : ∀ {j}, j ∈ live.filter (done es n) ↔ j ∈ live ∧ done es n j = true := List.mem_filter
  have hsame : ∀ {j}, j < es.length → ∃ l, entryAt es' j = { entryAt es j with live := l } := by
    intro j hj
    rw [hat j hj]
    split
    · exact ⟨false, rfl⟩
    · exact ⟨(entryAt es j).live, rfl⟩
  have hkey : ∀ {j}, j < es.length → (entryAt es' j).key = (entryAt es j).key := by
    intro j hj
    obtain ⟨l, hl⟩ := hsame hj
    rw [hl]
    rfl
  have hwrite : ∀ {j}, j < es.length → writeOf (entryAt es' j) = writeOf (entryAt es j) := by
    intro j hj
    obtain ⟨l, hl⟩ := hsame hj
    rw [hl]
    rfl
  have hlive : ∀ {j}, j ∈ live → j < es.length := fun hj => ((h.mem_live _).1 hj).1
  refine ⟨?_, ?_, h.nodup.filter _, ?_, ?_, ?_, ?_, ?_⟩
  · intro j hj
    rw [hlen] at hj
    rw [hkey hj]
    exact h.idx_entry j hj
  · intro k j hk
    obtain ⟨hlt, hj⟩ := h.entry_idx k j hk
    exact ⟨hlen ▸ hlt, by rw [hkey hlt]; exact hj⟩
  · intro j
    rw [hkept, h.mem_live, hlen]
    constructor
    · rintro ⟨⟨hlt, hl⟩, hd⟩
      refine ⟨hlt, ?_⟩
      rw [hat j hlt, if_neg fun hg => Bool.false_ne_true (hd.symm.trans (hgone.1 hg).2)]
      exact hl
    · rintro ⟨hlt, hl⟩
      rw [hat j hlt] at hl
      split at hl
      · cases hl
      · next hnot =>
        refine ⟨⟨hlt, hl⟩, ?_⟩
        rw [← Bool.not_eq_true]
        exact fun hd => hnot (hgone.2 ⟨(h.mem_live j).2 ⟨hlt, hl⟩, hd⟩)
  · intro j hj
    obtain ⟨hjl, hd⟩ := hkept.1 hj
    rw [hkey (hlive hjl), hwrite (hlive hjl)]
    refine ⟨(h.latest j hjl).1, (pending_prune hn _).2 ?_⟩
    exact of_decide_eq_false hd
  · intro k x hk hx
    have hold : w.Pending x := fun m hm => Nat.lt_of_le_of_lt (Nat.le_max_left _ _) (hx m hm)
    obtain ⟨j, hj, hjk⟩ := h.pending k x hk hold
    have hlatest := (h.latest j hj).1
    rw [hjk, show w.latest k = some x from hk] at hlatest
    obtain rfl : x = writeOf (entryAt es j) := Option.some.inj hlatest
    refine ⟨j, hkept.2 ⟨hj, decide_eq_false ((pending_prune hn _).1 hx)⟩, ?_⟩
    rw [hkey (hlive hj)]
    exact hjk
  · intro j hj hseq
    rw [hlen] at hj
    obtain ⟨l, hl⟩ := hsame hj
    have hopen : (entryAt es j).seq = kOpen := by
      rw [hl] at hseq
      exact hseq
    obtain ⟨hjlive, hmem⟩ := h.opens j hj hopen
    have hnot : ¬done es n j = true := fun hd => (of_decide_eq_true hd).1 hopen
    rw [hat j hj, if_neg fun hg => hnot (hgone.1 hg).2]
    exact ⟨hjlive, hmem⟩
  · intro j hj
    rw [hlen] at hj
    obtain ⟨haddr, hsize⟩ := Prod.mk.inj (hkey hj)
    rw [haddr, hsize]
    exact h.bounds j hj

/-! ### Compaction -/

theorem entryAt_map {is : List Nat} {j : Nat} (hj : j < is.length) :
    entryAt (is.map (entryAt es)) j = entryAt es is[j] := by
  rw [entryAt, List.getD_eq_getElem _ _ (by rw [List.length_map]; exact hj), List.getElem_map]

theorem Core.compact (h : Core es idx live openList w) :
    Core (live.map (entryAt es)) (fun k => (live.map (entryAt es)).findIdx? fun e => e.key = k)
      (List.range (live.map (entryAt es)).length)
      (fun t => (List.range (live.map (entryAt es)).length).filter fun i =>
        (entryAt (live.map (entryAt es)) i).seq = kOpen ∧ (entryAt (live.map (entryAt es)) i).tgt = t) w := by
  have hlen : (live.map (entryAt es)).length = live.length := List.length_map ..
  have hmem : ∀ {j} (hj : j < live.length), live[j] ∈ live := fun hj => List.getElem_mem hj
  have hkey : ∀ {i j} (hi : i < live.length) (hj : j < live.length),
      (entryAt es live[i]).key = (entryAt es live[j]).key → i = j := by
    intro i j hi hj heq
    by_contra hne
    have hlive : live[i] ≠ live[j] := fun hij => hne ((List.Nodup.getElem_inj_iff h.nodup).1 hij)
    exact h.key_ne ((h.mem_live _).1 (hmem hi)).1 ((h.mem_live _).1 (hmem hj)).1 hlive heq
  refine ⟨?_, ?_, List.nodup_range, ?_, ?_, ?_, ?_, ?_⟩
  · intro j hj
    rw [hlen] at hj
    rw [entryAt_map hj, List.findIdx?_eq_some_iff_getElem]
    refine ⟨by rw [hlen]; exact hj, ?_, ?_⟩
    · rw [List.getElem_map]
      exact decide_eq_true rfl
    · intro i hij
      rw [List.getElem_map]
      intro heq
      exact Nat.ne_of_lt hij (hkey (by omega) hj (of_decide_eq_true heq))
  · intro k j hk
    obtain ⟨hj, hp, -⟩ := List.findIdx?_eq_some_iff_getElem.1 hk
    refine ⟨hj, ?_⟩
    rw [List.getElem_map] at hp
    rw [hlen] at hj
    rw [entryAt_map hj]
    exact of_decide_eq_true hp
  · intro j
    rw [List.mem_range]
    refine ⟨fun hj => ⟨hj, ?_⟩, And.left⟩
    rw [hlen] at hj
    rw [entryAt_map hj]
    exact ((h.mem_live _).1 (hmem hj)).2
  · intro j hj
    rw [List.mem_range, hlen] at hj
    rw [entryAt_map hj]
    exact h.latest _ (hmem hj)
  · intro k x hk hx
    obtain ⟨i, hi, hik⟩ := h.pending k x hk hx
    obtain ⟨j, hj, rfl⟩ := List.getElem_of_mem hi
    refine ⟨j, List.mem_range.2 (by rw [hlen]; exact hj), ?_⟩
    rw [entryAt_map hj]
    exact hik
  · intro j hj hseq
    refine ⟨?_, List.mem_filter.2 ⟨List.mem_range.2 hj, decide_eq_true ⟨hseq, rfl⟩⟩⟩
    rw [hlen] at hj
    rw [entryAt_map hj]
    exact ((h.mem_live _).1 (hmem hj)).2
  · intro j hj
    rw [hlen] at hj
    rw [entryAt_map hj]
    exact h.bounds _ ((h.mem_live _).1 (hmem hj)).1

end Core

/-! ### Queries -/

/-- What a query has found among the entries it has seen. -/
def Best (es : List Entry) (addr size : Nat) (seen : Nat → Prop) : Option Range → Prop
  | none => ∀ i, seen i → meets addr size (entryAt es i) = false
  | some hit => (∃ i, seen i ∧ meets addr size (entryAt es i) = true ∧ (entryAt es i).range = hit) ∧
      ∀ i, seen i → meets addr size (entryAt es i) = true → (entryAt es i).epoch ≤ hit.epoch

section Query

variable {es : List Entry} {addr size : Nat} {seen : Nat → Prop} {hit : Option Range}

/-- Entries that do not meet the query make no difference. -/
theorem Best.congr {seen' : Nat → Prop} (h : Best es addr size seen hit) (hsub : ∀ i, seen i → seen' i)
    (hmeets : ∀ i, seen' i → meets addr size (entryAt es i) = true → seen i) : Best es addr size seen' hit := by
  cases hit with
  | none =>
    intro i hi
    cases hm : meets addr size (entryAt es i) with
    | false => rfl
    | true => exact hm.symm.trans (h i (hmeets i hi hm))
  | some r =>
    obtain ⟨⟨i, hi, hfound⟩, hmax⟩ := h
    exact ⟨⟨i, hsub i hi, hfound⟩, fun j hj hm => hmax j (hmeets j hj hm) hm⟩

theorem Best.check (h : Best es addr size seen hit) (i : Nat) :
    Best es addr size (fun j => seen j ∨ j = i) (check addr size hit (entryAt es i)) := by
  unfold GnmPendingWrites.check
  cases hm : meets addr size (entryAt es i) with
  | false =>
    refine h.congr (fun j hj => .inl hj) ?_
    rintro j (hj | rfl) hj'
    · exact hj
    · rw [hm] at hj'
      cases hj'
  | true =>
    rw [if_pos rfl]
    cases hit with
    | none =>
      refine ⟨⟨i, .inr rfl, hm, rfl⟩, ?_⟩
      rintro j (hj | rfl) hj'
      · rw [h j hj] at hj'
        cases hj'
      · exact Nat.le_refl _
    | some best =>
      obtain ⟨⟨k, hk, hfound⟩, hmax⟩ := h
      dsimp only
      split
      · next hlt =>
        refine ⟨⟨i, .inr rfl, hm, rfl⟩, ?_⟩
        rintro j (hj | rfl) hj'
        · exact Nat.le_trans (hmax j hj hj') (Nat.le_of_lt hlt)
        · exact Nat.le_refl _
      · next hle =>
        refine ⟨⟨k, .inl hk, hfound⟩, ?_⟩
        rintro j (hj | rfl) hj'
        · exact hmax j hj hj'
        · exact Nat.not_lt.1 hle

theorem best_foldl (is : List Nat) : ∀ {seen : Nat → Prop} {hit : Option Range}, Best es addr size seen hit →
    Best es addr size (fun j => seen j ∨ j ∈ is)
      (is.foldl (fun hit i => GnmPendingWrites.check addr size hit (entryAt es i)) hit) := by
  induction is with
  | nil =>
    intro seen hit h
    exact h.congr (fun j hj => .inl hj) fun j hj _ => hj.resolve_right List.not_mem_nil
  | cons i is ih =>
    intro seen hit h
    refine (ih (h.check i)).congr ?_ ?_
    · rintro j ((hj | rfl) | hj)
      · exact .inl hj
      · exact .inr List.mem_cons_self
      · exact .inr (List.mem_cons_of_mem _ hj)
    · rintro j (hj | hj) -
      · exact .inl (.inl hj)
      · rcases List.mem_cons.1 hj with rfl | hj
        · exact .inl (.inr rfl)
        · exact .inr hj

/-- A candidate with this query's stamp was seen before. -/
theorem best_visit {g : GnmPendingWrites} {gen : Nat} (is : List Nat) :
    ∀ {seen : Nat → Prop} (s : (Nat → Nat) × Option Range), Best g.entries addr size seen s.2 →
    (∀ i, s.1 i = gen → seen i) → (∀ i, s.1 i ≤ gen) →
    Best g.entries addr size (fun j => seen j ∨ j ∈ is) (is.foldl (g.visit gen addr size) s).2 ∧
      ∀ i, (is.foldl (g.visit gen addr size) s).1 i ≤ gen := by
  induction is with
  | nil =>
    intro seen s h _ hle
    exact ⟨h.congr (fun j hj => .inl hj) fun j hj _ => hj.resolve_right List.not_mem_nil, hle⟩
  | cons i is ih =>
    intro seen s h hstamp hle
    rw [List.foldl_cons]
    by_cases hi : s.1 i = gen
    · have hvisit : g.visit gen addr size s i = s := if_pos hi
      rw [hvisit]
      obtain ⟨hbest, hstamps⟩ := ih s h hstamp hle
      refine ⟨hbest.congr ?_ ?_, hstamps⟩
      · rintro j (hj | hj)
        · exact .inl hj
        · exact .inr (List.mem_cons_of_mem _ hj)
      · rintro j (hj | hj) -
        · exact .inl hj
        · rcases List.mem_cons.1 hj with rfl | hj
          · exact .inl (hstamp j hi)
          · exact .inr hj
    · have hvisit : g.visit gen addr size s i = (Function.update s.1 i gen,
          GnmPendingWrites.check addr size s.2 (entryAt g.entries i)) := if_neg hi
      rw [hvisit]
      have hstamp' : ∀ j, Function.update s.1 i gen j = gen → seen j ∨ j = i := by
        intro j hj
        by_cases hji : j = i
        · exact .inr hji
        · rw [Function.update_of_ne hji] at hj
          exact .inl (hstamp j hj)
      have hle' : ∀ j, Function.update s.1 i gen j ≤ gen := by
        intro j
        by_cases hji : j = i
        · rw [hji, Function.update_self]
        · rw [Function.update_of_ne hji]
          exact hle j
      obtain ⟨hbest, hstamps⟩ := ih (_, _) (h.check i) hstamp' hle'
      refine ⟨hbest.congr ?_ ?_, hstamps⟩
      · rintro j ((hj | rfl) | hj)
        · exact .inl hj
        · exact .inr List.mem_cons_self
        · exact .inr (List.mem_cons_of_mem _ hj)
      · rintro j (hj | hj) -
        · exact .inl (.inl hj)
        · rcases List.mem_cons.1 hj with rfl | hj
          · exact .inl (.inr rfl)
          · exact .inr hj

end Query

theorem meets_iff {addr size : Nat} {e : Entry} (hq : addr + size < 2 ^ 64) (he : e.addr + e.size < 2 ^ 64) :
    meets addr size e = true ↔ e.addr < addr + size ∧ addr < e.addr + e.size := by
  rw [meets, decide_eq_true_iff, Nat.mod_eq_of_lt hq, Nat.mod_eq_of_lt he]

theorem shared_bucket {addr size : Nat} {e : Entry} (hq : addr + size < 2 ^ 64) (he : e.addr + e.size < 2 ^ 64)
    (h : meets addr size e = true) :
    ∃ p, (firstBucket addr ≤ p ∧ p ≤ lastBucket addr size) ∧
      firstBucket e.addr ≤ p ∧ p ≤ lastBucket e.addr e.size := by
  obtain ⟨hlt, hgt⟩ := (meets_iff hq he).1 h
  have hlastq : (addr + (size - 1)) % 2 ^ 64 = addr + (size - 1) := Nat.mod_eq_of_lt (by omega)
  have hlaste : (e.addr + (e.size - 1)) % 2 ^ 64 = e.addr + (e.size - 1) := Nat.mod_eq_of_lt (by omega)
  unfold firstBucket lastBucket
  rw [hlastq, hlaste]
  refine ⟨max addr e.addr / 2 ^ 20, ⟨Nat.div_le_div_right ?_, Nat.div_le_div_right ?_⟩,
    Nat.div_le_div_right ?_, Nat.div_le_div_right ?_⟩
  · exact Nat.le_max_left _ _
  · exact Nat.max_le.2 ⟨by omega, by omega⟩
  · exact Nat.le_max_right _ _
  · exact Nat.max_le.2 ⟨by omega, by omega⟩

theorem nextGen_fresh {g : GnmPendingWrites} (h : Stamped g.stamp g.gen) :
    (∀ i, g.nextGen.1 i < g.nextGen.2) ∧ g.nextGen.2 < 2 ^ 32 := by
  obtain ⟨hgen, hstamp⟩ := h
  unfold nextGen
  dsimp only
  split
  · exact ⟨fun i => Nat.zero_lt_one, by omega⟩
  · next hne =>
    have hmod : (g.gen + 1) % 2 ^ 32 = g.gen + 1 := by
      rcases Nat.lt_or_eq_of_le (Nat.succ_le_of_lt hgen) with hlt | heq
      · exact Nat.mod_eq_of_lt hlt
      · exact absurd (by rw [show g.gen + 1 = 2 ^ 32 from heq, Nat.mod_self]) hne
    rw [hmod]
    exact ⟨fun i => Nat.lt_succ_of_le (hstamp i), by omega⟩

/-- A query that goes through the wide list and then through candidates from buckets. -/
theorem best_narrow {g : GnmPendingWrites} (h : Stamped g.stamp g.gen) (addr size : Nat) (is : List Nat) :
    Best g.entries addr size (fun j => (False ∨ j ∈ g.wide) ∨ j ∈ is)
      (is.foldl (g.visit g.nextGen.2 addr size)
        (g.nextGen.1, g.wide.foldl (fun hit i => check addr size hit (entryAt g.entries i)) none)).2 ∧
      ∀ i, (is.foldl (g.visit g.nextGen.2 addr size)
        (g.nextGen.1, g.wide.foldl (fun hit i => check addr size hit (entryAt g.entries i)) none)).1 i
          ≤ g.nextGen.2 := by
  obtain ⟨hfresh, -⟩ := nextGen_fresh h
  have hnone : Best g.entries addr size (fun _ => False) none := fun i hi => hi.elim
  exact best_visit is (_, _) (best_foldl g.wide hnone) (fun i hi => absurd hi (Nat.ne_of_lt (hfresh i)))
    fun i => Nat.le_of_lt (hfresh i)

/-- What the buckets of a query hold, with the wide list, are the live entries that it can meet. -/
theorem overlaps_best {g : GnmPendingWrites} {w : Writes} (h : Inv g w) {addr size : Nat}
    (hq : addr + size < 2 ^ 64) : Best g.entries addr size (· ∈ g.live) (g.overlaps addr size).1 := by
  unfold overlaps
  split
  · have hnone : Best g.entries addr size (fun _ => False) none := fun i hi => hi.elim
    exact (best_foldl g.live hnone).congr (fun j hj => hj.resolve_left id) fun j hj _ => .inr hj
  · refine (best_narrow h.stamped addr size _).1.congr ?_ ?_
    · rintro j ((hj | hj) | hj)
      · exact hj.elim
      · exact ((h.listed.wide j).1 hj).1
      · obtain ⟨p, -, hp⟩ := List.mem_flatMap.1 hj
        exact ((h.listed.buckets p j).1 hp).1
    · intro j hj hmeets
      have hlt := ((h.core.mem_live j).1 hj).1
      cases hc : covers65 (entryAt g.entries j).addr (entryAt g.entries j).size with
      | true => exact .inl (.inr ((h.listed.wide j).2 ⟨hj, hc⟩))
      | false =>
        obtain ⟨p, ⟨hfirst, hlast⟩, hin⟩ := shared_bucket hq (h.core.bounds j hlt).2 hmeets
        refine .inr (List.mem_flatMap.2 ⟨p, ?_, (h.listed.buckets p j).2 ⟨hj, hc, hin⟩⟩)
        exact List.mem_range'_1.2 ⟨hfirst, by omega⟩

/-- The pending writes that a query meets are its live entries. -/
theorem hits_iff {g : GnmPendingWrites} {w : Writes} (h : Inv g w) {addr size : Nat}
    (hq : addr + size < 2 ^ 64) (r : Range) :
    w.Hits addr size r ↔
      ∃ i ∈ g.live, meets addr size (entryAt g.entries i) = true ∧ (entryAt g.entries i).range = r := by
  constructor
  · rintro ⟨x, hlatest, hepoch, hpending, hover⟩
    obtain ⟨i, hi, hkey⟩ := h.core.pending _ x hlatest hpending
    have hwrite := (h.core.latest i hi).1
    rw [hkey, hlatest] at hwrite
    obtain rfl : x = writeOf (entryAt g.entries i) := Option.some.inj hwrite
    obtain ⟨haddr, hsize⟩ := Prod.mk.inj hkey
    have hbound := (h.core.bounds i ((h.core.mem_live i).1 hi).1).2
    refine ⟨i, hi, (meets_iff hq hbound).2 ?_, ?_⟩
    · rw [haddr, hsize]
      exact hover
    · obtain ⟨a, n, e⟩ := r
      exact Range.mk.injEq .. |>.mpr ⟨haddr, hsize, hepoch⟩
  · rintro ⟨i, hi, hmeets, rfl⟩
    have hbound := (h.core.bounds i ((h.core.mem_live i).1 hi).1).2
    obtain ⟨hlatest, hpending⟩ := h.core.latest i hi
    exact ⟨_, hlatest, rfl, hpending, (meets_iff hq hbound).1 hmeets⟩

/-- **The invariant gives the answer of a scan.** -/
theorem overlaps_answers {g : GnmPendingWrites} {w : Writes} (h : Inv g w) {addr size : Nat}
    (hq : addr + size < 2 ^ 64) : ScanAnswer w addr size (g.overlaps addr size).1 := by
  have hbest := overlaps_best h hq
  cases hhit : (g.overlaps addr size).1 with
  | none =>
    rw [hhit] at hbest
    intro r hr
    obtain ⟨i, hi, hmeets, -⟩ := (hits_iff h hq r).1 hr
    exact Bool.false_ne_true ((hbest i hi).symm.trans hmeets)
  | some hit =>
    rw [hhit] at hbest
    obtain ⟨hfound, hmax⟩ := hbest
    refine ⟨(hits_iff h hq hit).2 hfound, ?_⟩
    intro r hr
    obtain ⟨i, hi, hmeets, rfl⟩ := (hits_iff h hq r).1 hr
    exact hmax i hi hmeets

/-! ### Steps -/

theorem Inv.overlaps {g : GnmPendingWrites} {w : Writes} (h : Inv g w) (addr size : Nat) :
    Inv (g.overlaps addr size).2 w := by
  unfold GnmPendingWrites.overlaps
  split
  · exact h
  · exact ⟨h.core, h.listed, ⟨(nextGen_fresh h.stamped).2, (best_narrow h.stamped addr size _).2⟩, h.done⟩

theorem Inv.lookupOrAdd {g : GnmPendingWrites} {w : Writes} (h : Inv g w) {addr size : Nat} (epoch : Nat)
    (hsize : 0 < size) (hbound : addr + size < 2 ^ 64) :
    Inv (g.lookupOrAdd addr size epoch).2 w ∧
      (g.lookupOrAdd addr size epoch).1 < (g.lookupOrAdd addr size epoch).2.entries.length ∧
      (entryAt (g.lookupOrAdd addr size epoch).2.entries (g.lookupOrAdd addr size epoch).1).key = (addr, size) := by
  unfold GnmPendingWrites.lookupOrAdd
  split
  · next i hi =>
    obtain ⟨hlt, hkey⟩ := h.core.entry_idx _ _ hi
    exact ⟨h, hlt, hkey⟩
  · next hnew =>
    refine ⟨⟨h.core.add hnew hsize hbound, ?_, h.stamped, h.done⟩, ?_, ?_⟩
    · refine h.listed.congr fun i hi => ?_
      exact congrArg Entry.key (entryAt_append_lt _ ((h.core.mem_live i).1 hi).1)
    · show g.entries.length < (g.entries ++ [newEntry addr size epoch]).length
      rw [List.length_append]
      exact Nat.lt_succ_self _
    · exact congrArg Entry.key (entryAt_append_self g.entries (newEntry addr size epoch))

/-- A note in the entry `i` of its range. -/
def noteAt (g : GnmPendingWrites) (i epoch : Nat) (tgt : Target) : GnmPendingWrites :=
  let e := g.entry i
  let g := if e.seq ≠ kOpen ∨ e.tgt ≠ tgt then
      { g with openList := Function.update g.openList tgt (g.openList tgt ++ [i]) }
    else g
  let g := if e.live = false then { g with live := g.live ++ [i] }.addToBuckets i else g
  { g with entries := g.entries.modify i fun e => { e with epoch, seq := kOpen, tgt, live := true } }

theorem note_eq {g : GnmPendingWrites} {addr size epoch : Nat} {tgt : Target} (hsize : size ≠ 0) :
    g.note addr size epoch tgt =
      noteAt (g.lookupOrAdd addr size epoch).2 (g.lookupOrAdd addr size epoch).1 epoch tgt :=
  if_neg hsize

theorem noteAt_eq {g : GnmPendingWrites} (h : Listed g.entries g.live g.buckets g.wide) (i epoch : Nat)
    (tgt : Target) : ∃ buckets wide,
      noteAt g i epoch tgt =
        { g with
          entries := g.entries.modify i (noteEntry epoch tgt)
          live := if (entryAt g.entries i).live = false then g.live ++ [i] else g.live
          openList := if (entryAt g.entries i).seq ≠ kOpen ∨ (entryAt g.entries i).tgt ≠ tgt
            then Function.update g.openList tgt (g.openList tgt ++ [i]) else g.openList
          buckets, wide } ∧
      Listed g.entries (if (entryAt g.entries i).live = false then g.live ++ [i] else g.live) buckets wide := by
  have hentry : g.entry i = entryAt g.entries i := rfl
  unfold noteAt
  dsimp only
  rw [hentry]
  by_cases hlive : (entryAt g.entries i).live = false
  · rw [if_pos hlive, if_pos hlive]
    split
    · obtain ⟨buckets, wide, heq, hlisted⟩ := Listed.add
        (g := { g with live := g.live ++ [i],
                       openList := Function.update g.openList tgt (g.openList tgt ++ [i]) }) h i
      exact ⟨buckets, wide, by rw [heq]; rfl, hlisted⟩
    · obtain ⟨buckets, wide, heq, hlisted⟩ := Listed.add (g := { g with live := g.live ++ [i] }) h i
      exact ⟨buckets, wide, by rw [heq]; rfl, hlisted⟩
  · rw [if_neg hlive, if_neg hlive]
    split
    · exact ⟨g.buckets, g.wide, rfl, h⟩
    · exact ⟨g.buckets, g.wide, rfl, h⟩

theorem Inv.note {g : GnmPendingWrites} {w : Writes} (h : Inv g w) {addr size : Nat} (epoch : Nat) (tgt : Target)
    (hbound : addr + size < 2 ^ 64) : Inv (g.note addr size epoch tgt) (w.note addr size epoch tgt) := by
  by_cases hsize : size = 0
  · rw [GnmPendingWrites.note, if_pos hsize, Writes.note, if_pos hsize]
    exact h
  obtain ⟨h', hlt, hkey⟩ := h.lookupOrAdd epoch (Nat.pos_of_ne_zero hsize) hbound
  rw [note_eq hsize]
  generalize (g.lookupOrAdd addr size epoch).1 = i at hlt hkey ⊢
  generalize (g.lookupOrAdd addr size epoch).2 = g' at h' hlt hkey ⊢
  obtain ⟨buckets, wide, heq, hlisted⟩ := noteAt_eq h'.listed i epoch tgt
  have hcore := h'.core.note epoch tgt hsize hlt hkey
  rw [heq]
  refine ⟨hcore, hlisted.congr ?_, h'.stamped, ?_⟩
  · intro j hj
    have hjlt : j < g'.entries.length := by
      have hjlt := ((hcore.mem_live j).1 hj).1
      rw [List.length_modify] at hjlt
      exact hjlt
    rw [entryAt_modify _ _ _ _ hjlt]
    split
    · rfl
    · rfl
  · rw [Writes.note, if_neg hsize]
    exact h'.done

theorem Inv.commit {g : GnmPendingWrites} {w : Writes} (h : Inv g w) {seq : Nat} {tgt : Target}
    (hseq : seq ≠ kOpen) (hdone : w.done < seq) : Inv (g.commit seq tgt) (w.commit seq tgt) := by
  obtain ⟨hlen, hat⟩ := foldl_modify (commitEntry_idem hseq tgt) (g.openList tgt) g.entries
  refine ⟨h.core.commit hseq hdone, h.listed.congr ?_, h.stamped, h.done⟩
  intro i hi
  show (entryAt ((g.openList tgt).foldl (fun es i => es.modify i (commitEntry seq tgt)) g.entries) i).key = _
  rw [hat i ((h.core.mem_live i).1 hi).1]
  split
  · exact commitEntry_key seq tgt _
  · rfl

theorem stamped_zero : Stamped (fun _ => 0) 0 := ⟨by decide, fun _ => Nat.le_refl 0⟩

theorem Inv.rebuilt {g : GnmPendingWrites} {w : Writes} (hcore : Core g.entries g.idx g.live g.openList w)
    (hstamped : Stamped g.stamp g.gen) (hdone : g.done = w.done) : Inv g.rebuildBuckets w := by
  obtain ⟨buckets, wide, heq, hlisted⟩ := rebuildBuckets_listed g
  rw [heq]
  exact ⟨hcore, hlisted, hstamped, hdone⟩

theorem Inv.compact {g : GnmPendingWrites} {w : Writes} (hcore : Core g.entries g.idx g.live g.openList w)
    (hdone : g.done = w.done) : Inv g.compact w :=
  Inv.rebuilt hcore.compact stamped_zero hdone

/-- The table after the completed entries left the live list. -/
def pruned (g : GnmPendingWrites) (n : Nat) : GnmPendingWrites :=
  { g with
    done := n
    entries := (g.live.filter (g.completed n)).foldl (fun es i => es.modify i fun e => { e with live := false })
      g.entries
    live := g.live.filter fun i => !g.completed n i }

theorem prune_eq {g : GnmPendingWrites} {n : Nat} (hn : ¬n ≤ g.done) :
    g.prune n = if (4 * (pruned g n).live.length + (pruned g n).keepIdle) % 2 ^ 64 < (pruned g n).entries.length
      then (pruned g n).compact
      else if (pruned g n).live.length ≠ g.live.length then (pruned g n).rebuildBuckets else pruned g n :=
  if_neg hn

theorem Inv.prune {g : GnmPendingWrites} {w : Writes} (h : Inv g w) (n : Nat) :
    Inv (g.prune n) (w.prune n) := by
  by_cases hn : n ≤ g.done
  · rw [GnmPendingWrites.prune, if_pos hn, Writes.prune, Nat.max_eq_left (h.done ▸ hn)]
    exact h
  have hdone : w.done < n := by rw [← h.done]; exact Nat.lt_of_not_le hn
  have hmax : (pruned g n).done = (w.prune n).done := (Nat.max_eq_right (Nat.le_of_lt hdone)).symm
  have hcore : Core (pruned g n).entries g.idx (pruned g n).live g.openList (w.prune n) := h.core.prune hdone
  rw [prune_eq hn]
  split
  · exact Inv.compact hcore hmax
  · split
    · exact Inv.rebuilt hcore h.stamped hmax
    · next hlen =>
      rw [not_not] at hlen
      -- nothing left the live list
      have hall : (pruned g n).live = g.live := List.filter_eq_self.2 (List.length_filter_eq_length_iff.1 hlen)
      refine ⟨hcore, ?_, h.stamped, hmax⟩
      rw [hall]
      refine h.listed.congr fun i hi => ?_
      obtain ⟨-, hat⟩ := foldl_modify (f := fun e => { e with live := false }) (fun _ => rfl)
        (g.live.filter (g.completed n)) g.entries
      refine (congrArg Entry.key (hat i ((h.core.mem_live i).1 hi).1)).trans ?_
      split
      · rfl
      · rfl

theorem inv_init (keepIdle : Nat) : Inv { keepIdle } {} where
  core := ⟨nofun, nofun, List.nodup_nil, fun i => iff_of_false List.not_mem_nil fun h => absurd h.1 (Nat.not_lt_zero i),
    nofun, nofun, nofun, nofun⟩
  listed := ⟨fun _ => iff_of_false List.not_mem_nil fun h => List.not_mem_nil h.1,
    fun _ _ => iff_of_false List.not_mem_nil fun h => List.not_mem_nil h.1⟩
  stamped := stamped_zero
  done := rfl

theorem exec_eq (s : PendingState) (call : PendingCall) :
    PendingWrites.exec s call = some (match call with
      | .note addr size epoch tgt => ⟨s.code.note addr size epoch tgt, s.writes.note addr size epoch tgt⟩
      | .commit seq tgt => ⟨s.code.commit seq tgt, s.writes.commit seq tgt⟩
      | .prune n => ⟨s.code.prune n, s.writes.prune n⟩
      | .overlaps addr size => ⟨(s.code.overlaps addr size).2, s.writes⟩) := by
  cases call with
  | note addr size epoch tgt => rfl
  | commit seq tgt => rfl
  | prune n => rfl
  | overlaps addr size => rfl

theorem inv_state {g : GnmPendingWrites} {w : Writes} (h : Inv g w) :
    Inv (PendingState.mk g w).code (PendingState.mk g w).writes := h

theorem Inv.exec {s s' : PendingState} (h : Inv s.code s.writes) {call : PendingCall} (hok : Numbered s call)
    (hs : PendingWrites.exec s call = some s') : Inv s'.code s'.writes := by
  rw [exec_eq, Option.some.injEq] at hs
  obtain ⟨hordered, hopen⟩ := hok
  cases call with
  | note addr size epoch tgt =>
    have hbound : addr + size < 2 ^ 64 := And.left hordered
    rw [← hs]
    exact inv_state (h.note epoch tgt hbound)
  | commit seq tgt =>
    have hdone : s.writes.done < seq := And.left (And.right hordered)
    have hseq : seq ≠ kOpen := fun heq => hopen tgt (by rw [heq])
    rw [← hs]
    exact inv_state (h.commit hseq hdone)
  | prune n =>
    rw [← hs]
    exact inv_state (h.prune n)
  | overlaps addr size =>
    rw [← hs]
    exact inv_state (Inv.overlaps h addr size)

/-- **In every run, every query is answered as by a scan over the latest writes.** -/
theorem pendingWrites_scan {keepIdle : Nat} {s : PendingState}
    (h : Reachable ((pendingSystem keepIdle).restrict Numbered) s) : AnswersLikeScan s := by
  have hinv : Inv s.code s.writes := by
    refine h.invariant (P := fun s => Inv s.code s.writes) ?_ ?_
    · intro s hs
      rw [show s = { code := { keepIdle } } from hs]
      exact inv_init keepIdle
    · intro s call s' _ hs hstep
      exact hs.exec hstep.1 hstep.2
  exact fun addr size hq => overlaps_answers hinv hq

/-- A range written by both targets, committed by one of them and completed. -/
def twoTargetsRun : List PendingCall :=
  [.note 0x1000 64 1 0, .note 0x1000 64 2 1, .commit 1 0, .prune 1, .note 0x2000 64 3 0, .overlaps 0x1020 16]

theorem pendingWrites_scan_twoTargets : ∃ s,
    (s.code.overlaps 0x1020 0x2000).1 = some ⟨0x2000, 64, 3⟩ ∧ AnswersLikeScan s := by
  have hlast : (execAll (guarded Numbered PendingWrites.exec) { code := { keepIdle := 0 } } twoTargetsRun).map
      (fun s => (s.code.overlaps 0x1020 0x2000).1) = some (some ⟨0x2000, 64, 3⟩) := by
    decide +kernel
  obtain ⟨s, hs, hhit⟩ := Option.map_eq_some_iff.1 hlast
  have hreach : Reachable ((pendingSystem 0).restrict Numbered) s :=
    Reachable.guarded (fun _ _ _ hstep => hstep) twoTargetsRun (.init rfl) hs
  exact ⟨s, hhit, pendingWrites_scan hreach⟩

/-- **A command buffer committed under `kOpen` stays pending for ever.** -/
theorem kOpen_never_completes : ∃ s, Reachable ((pendingSystem 4096).restrict Ordered) s ∧ ¬AnswersLikeScan s := by
  have hlast : (execAll (guarded Ordered PendingWrites.exec) {}
      [.note 0x1000 64 1 0, .commit kOpen 0, .prune kOpen]).map
      (fun s => ((s.code.overlaps 0x1000 64).1, s.writes.latest (0x1000, 64), s.writes.done)) =
      some (some ⟨0x1000, 64, 1⟩, some ⟨1, 0, some kOpen⟩, kOpen) := by decide +kernel
  obtain ⟨s, hs, hval⟩ := Option.map_eq_some_iff.1 hlast
  obtain ⟨hhit, hval⟩ := Prod.mk.inj hval
  obtain ⟨hlatest, hdone⟩ := Prod.mk.inj hval
  refine ⟨s, Reachable.guarded (fun _ _ _ hstep => hstep) _ (.init rfl) hs, ?_⟩
  intro hscan
  have hanswer := hscan 0x1000 64 (by decide)
  rw [hhit] at hanswer
  obtain ⟨⟨x, hx, -, hpending, -⟩, -⟩ := hanswer
  rw [hlatest] at hx
  cases hx
  have hlt := hpending kOpen rfl
  rw [hdone] at hlt
  exact Nat.lt_irrefl _ hlt

end PS4Recomp.Gnm.PendingWrites
