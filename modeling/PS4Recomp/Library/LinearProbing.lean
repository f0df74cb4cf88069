import Mathlib

/-!
# Hash tables with linear probing

A table of `n` cells, each free or with a key and a value.  A key is looked for from its home cell upwards,
around the end, until it or a free cell is found.

* `probe` — the first cell that stops the search, `probe_eq_some` — which one that is;
* `Probed` — no free cell stands between the home of a key and its cell, and a key has one cell;
* `Has` — the content of a table, `find_has`, `find_free` — the search finds it;
* `Probed.insert`, `has_insert` — what is written where the search stopped replaces or is added;
* `used`, `exists_free` — the number of cells that are not free, and that one is left;
* `rehash`, `rehash_spec` — the cells of another table placed in a new one.
-/

namespace PS4Recomp.Library.LinearProbing

variable {K V : Type*} {n : ℕ}

/-! ### searches -/

/-- The first cell from `i` upwards that stops the search, looking at `fuel` cells. -/
def probe (n : ℕ) (stop : ℕ → Bool) : ℕ → ℕ → Option ℕ
  | 0, _ => none
  | fuel + 1, i => if stop i then some i else probe n stop fuel ((i + 1) % n)

theorem add_succ_mod (i c : ℕ) : ((i + 1) % n + c) % n = (i + (c + 1)) % n := by
  rw [Nat.mod_add_mod]
  congr 1
  omega

theorem probe_eq_some {stop : ℕ → Bool} {fuel i j : ℕ} (hi : i < n) :
    probe n stop fuel i = some j ↔
      ∃ d < fuel, j = (i + d) % n ∧ stop j = true ∧ ∀ c < d, stop ((i + c) % n) = false := by
  have hpos : 0 < n := by omega
  induction fuel generalizing i with
  | zero => simp [probe]
  | succ fuel ih =>
      rw [probe]
      split
      · rename_i hstop
        constructor
        · rintro ⟨rfl⟩
          exact ⟨0, Nat.succ_pos _, (Nat.mod_eq_of_lt hi).symm, hstop, fun c hc => absurd hc (Nat.not_lt_zero c)⟩
        · rintro ⟨d, -, rfl, -, hbefore⟩
          obtain rfl | hd := Nat.eq_zero_or_pos d
          · rw [Nat.add_zero, Nat.mod_eq_of_lt hi]
          · have hfirst := hbefore 0 hd
            rw [Nat.add_zero, Nat.mod_eq_of_lt hi, hstop] at hfirst
            cases hfirst
      · rename_i hstop
        refine (ih (Nat.mod_lt (i + 1) hpos)).trans ?_
        constructor
        · rintro ⟨d, hd, rfl, hj, hbefore⟩
          refine ⟨d + 1, Nat.succ_lt_succ hd, add_succ_mod i d, hj, fun c hc => ?_⟩
          cases c with
          | zero =>
              rw [Nat.add_zero, Nat.mod_eq_of_lt hi]
              exact Bool.eq_false_of_not_eq_true hstop
          | succ c =>
              rw [← add_succ_mod]
              exact hbefore c (Nat.lt_of_succ_lt_succ hc)
        · rintro ⟨d, hd, rfl, hj, hbefore⟩
          cases d with
          | zero =>
              rw [Nat.add_zero, Nat.mod_eq_of_lt hi] at hj
              exact absurd hj hstop
          | succ d =>
              refine ⟨d, Nat.lt_of_succ_lt_succ hd, (add_succ_mod i d).symm, hj, fun c hc => ?_⟩
              rw [add_succ_mod]
              exact hbefore (c + 1) (Nat.succ_lt_succ hc)

theorem exists_distance {i j : ℕ} (hi : i < n) (hj : j < n) : ∃ d < n, j = (i + d) % n := by
  by_cases hij : i ≤ j
  · refine ⟨j - i, by omega, ?_⟩
    rw [show i + (j - i) = j by omega, Nat.mod_eq_of_lt hj]
  · refine ⟨n - i + j, by omega, ?_⟩
    rw [show i + (n - i + j) = j + n by omega, Nat.add_mod_right, Nat.mod_eq_of_lt hj]

/-- A search that looks at all cells ends where one of them stops it. -/
theorem probe_isSome {stop : ℕ → Bool} {i j : ℕ} (hi : i < n) (hj : j < n) (hstop : stop j = true) :
    ∃ r, probe n stop n i = some r := by
  obtain ⟨d, hd, rfl⟩ := exists_distance hi hj
  have hex : ∃ d, d < n ∧ stop ((i + d) % n) = true := ⟨d, hd, hstop⟩
  classical
  obtain ⟨hlt, hfirst⟩ := Nat.find_spec hex
  refine ⟨_, (probe_eq_some hi).2 ⟨Nat.find hex, hlt, rfl, hfirst, fun c hc => ?_⟩⟩
  have hno := Nat.find_min hex hc
  exact Bool.eq_false_of_not_eq_true fun hyes => hno ⟨by omega, hyes⟩

theorem probe_lt {stop : ℕ → Bool} {fuel i j : ℕ} (hi : i < n) (h : probe n stop fuel i = some j) :
    j < n ∧ stop j = true := by
  obtain ⟨d, -, rfl, hstop, -⟩ := (probe_eq_some hi).1 h
  exact ⟨Nat.mod_lt _ (by omega), hstop⟩

theorem probe_congr {stop stop' : ℕ → Bool} {fuel i : ℕ} (hi : i < n) (h : ∀ j < n, stop j = stop' j) :
    probe n stop fuel i = probe n stop' fuel i := by
  induction fuel generalizing i with
  | zero => rfl
  | succ fuel ih =>
      rw [probe, probe, h i hi, ih (Nat.mod_lt _ (by omega))]

/-! ### tables -/

/-- The cells of a table: a key and a value, or free. -/
abbrev Cells (K V : Type*) := ℕ → Option (K × V)

/-- Every key is reached from its home, and has one cell. -/
structure Probed (n : ℕ) (home : K → ℕ) (t : Cells K V) : Prop where
  reach : ∀ j < n, ∀ k v, t j = some (k, v) →
    ∃ d < n, j = (home k + d) % n ∧ ∀ c < d, t ((home k + c) % n) ≠ none
  unique : ∀ i < n, ∀ j < n, ∀ k v w, t i = some (k, v) → t j = some (k, w) → i = j

/-- The table has the value at the key. -/
def Has (n : ℕ) (t : Cells K V) (k : K) (v : V) : Prop := ∃ j < n, t j = some (k, v)

variable {home : K → ℕ} {t : Cells K V} {k : K} {v : V} {j : ℕ}

theorem Probed.has_unique (h : Probed n home t) {w : V} (hv : Has n t k v) (hw : Has n t k w) : v = w := by
  obtain ⟨i, hi, hti⟩ := hv
  obtain ⟨j, hj, htj⟩ := hw
  obtain rfl := h.unique i hi j hj k v w hti htj
  rw [hti] at htj
  exact (Prod.mk.inj (Option.some.inj htj)).2

theorem Probed.empty (n : ℕ) (home : K → ℕ) : Probed n home (fun _ => none : Cells K V) :=
  ⟨nofun, nofun⟩

theorem not_has_empty (n : ℕ) (k : K) (v : V) : ¬Has n (fun _ => none) k v := by
  rintro ⟨j, -, h⟩
  cases h

variable [DecidableEq K]

/-- A search for a key stops at the key and at a free cell. -/
def stops (t : Cells K V) (k : K) (i : ℕ) : Bool :=
  match t i with
  | none => true
  | some (k', _) => k' = k

def find (n : ℕ) (home : K → ℕ) (t : Cells K V) (k : K) : Option ℕ :=
  probe n (stops t k) n (home k)

theorem stops_of_none (h : t j = none) : stops t k j = true := by
  rw [stops, h]

theorem stops_of_key (h : t j = some (k, v)) : stops t k j = true := by
  rw [stops, h]
  exact decide_eq_true rfl

theorem stops_cases (h : stops t k j = true) : t j = none ∨ ∃ v, t j = some (k, v) := by
  unfold stops at h
  cases hcell : t j with
  | none => exact .inl rfl
  | some cell =>
      obtain ⟨k', v⟩ := cell
      rw [hcell] at h
      exact .inr ⟨v, by rw [of_decide_eq_true h]⟩

theorem find_has (hn : home k < n) (h : Probed n home t) (hk : Has n t k v) :
    ∃ j, find n home t k = some j ∧ t j = some (k, v) := by
  obtain ⟨j, hj, hcell⟩ := hk
  obtain ⟨d, hd, hjd, hbefore⟩ := h.reach j hj k v hcell
  have hfound := stops_of_key hcell
  obtain ⟨r, hr⟩ := probe_isSome hn hj hfound
  obtain ⟨e, he, rfl, hstop, hnot⟩ := (probe_eq_some hn).1 hr
  refine ⟨_, hr, ?_⟩
  have hlt : (home k + e) % n < n := Nat.mod_lt _ (by omega)
  rcases stops_cases hstop with hfree | ⟨w, hw⟩
  · -- a free cell would stand before the key
    have hed : ¬e < d := fun hlt => hbefore e hlt hfree
    have hde : ¬d < e := fun hlt => by
      have hno := hnot d hlt
      rw [← hjd, stops_of_key hcell] at hno
      cases hno
    obtain rfl : e = d := by omega
    rw [← hjd, hcell] at hfree
    cases hfree
  · rw [hw, h.has_unique ⟨_, hlt, hw⟩ ⟨j, hj, hcell⟩]

/-- The search for a key that the table has not stops at a free cell. -/
theorem find_free (hn : home k < n) (hk : ∀ v, ¬Has n t k v) (hfree : ∃ j < n, t j = none) :
    ∃ j, find n home t k = some j ∧ t j = none := by
  obtain ⟨j, hj, hnone⟩ := hfree
  have hopen : stops t k j = true := stops_of_none hnone
  obtain ⟨r, hr⟩ := probe_isSome hn hj hopen
  obtain ⟨hlt, hstop⟩ := probe_lt hn hr
  refine ⟨r, hr, ?_⟩
  rcases stops_cases hstop with hnone | ⟨v, hv⟩
  · exact hnone
  · exact absurd ⟨r, hlt, hv⟩ (hk v)

theorem find_isSome (hn : home k < n) (hfree : ∃ j < n, t j = none) : ∃ j, find n home t k = some j := by
  obtain ⟨j, hj, hnone⟩ := hfree
  exact probe_isSome hn hj (stops_of_none hnone)

/-! ### insertion -/

theorem Probed.insert (hn : home k < n) (h : Probed n home t) (hj : find n home t k = some j) (v : V) :
    Probed n home (Function.update t j (some (k, v))) := by
  obtain ⟨d, hd, hjd, hstop, hnot⟩ := (probe_eq_some hn).1 hj
  have hlt : j < n := (probe_lt hn hj).1
  have hfull : ∀ i, t i ≠ none → Function.update t j (some (k, v)) i ≠ none := by
    intro i hi
    by_cases hij : i = j
    · rw [hij, Function.update_self]
      exact Option.some_ne_none _
    · rw [Function.update_of_ne hij]
      exact hi
  have hkey : ∀ i < n, ∀ w, t i = some (k, w) → i = j := by
    intro i hi w hw
    obtain ⟨i', hfind, hcell⟩ := find_has hn h ⟨i, hi, hw⟩
    rw [hj] at hfind
    obtain rfl := Option.some.inj hfind
    exact h.unique i hi j hlt k w w hw hcell
  constructor
  · intro i hi k' w hw
    by_cases hij : i = j
    · rw [hij, Function.update_self] at hw
      obtain ⟨rfl, -⟩ := Prod.mk.inj (Option.some.inj hw)
      refine ⟨d, hd, hij.trans hjd, fun c hc => hfull _ fun hnone => ?_⟩
      have hno := hnot c hc
      rw [stops_of_none hnone] at hno
      cases hno
    · rw [Function.update_of_ne hij] at hw
      obtain ⟨e, he, hie, hbefore⟩ := h.reach i hi k' w hw
      exact ⟨e, he, hie, fun c hc => hfull _ (hbefore c hc)⟩
  · intro i hi i' hi' k' w w' hw hw'
    by_cases hij : i = j
    · rw [hij, Function.update_self] at hw
      obtain ⟨rfl, -⟩ := Prod.mk.inj (Option.some.inj hw)
      by_cases hij' : i' = j
      · rw [hij, hij']
      · rw [Function.update_of_ne hij'] at hw'
        exact absurd (hkey i' hi' w' hw') hij'
    · rw [Function.update_of_ne hij] at hw
      by_cases hij' : i' = j
      · rw [hij', Function.update_self] at hw'
        obtain ⟨rfl, -⟩ := Prod.mk.inj (Option.some.inj hw')
        exact absurd (hkey i hi w hw) hij
      · rw [Function.update_of_ne hij'] at hw'
        exact h.unique i hi i' hi' k' w w' hw hw'

/-- The content after a value was written where the search stopped. -/
theorem has_insert (hn : home k < n) (h : Probed n home t) (hj : find n home t k = some j) (v : V) (k' : K)
    (w : V) :
    Has n (Function.update t j (some (k, v))) k' w ↔ if k' = k then w = v else Has n t k' w := by
  have hlt := (probe_lt hn hj).1
  have hself : Has n (Function.update t j (some (k, v))) k v := ⟨j, hlt, Function.update_self ..⟩
  split
  · rename_i hk
    subst hk
    exact ⟨fun hw => (h.insert hn hj v).has_unique hw hself, fun hw => hw ▸ hself⟩
  · rename_i hk
    constructor
    · rintro ⟨i, hi, hw⟩
      by_cases hij : i = j
      · rw [hij, Function.update_self] at hw
        exact absurd (Prod.mk.inj (Option.some.inj hw)).1.symm hk
      · rw [Function.update_of_ne hij] at hw
        exact ⟨i, hi, hw⟩
    · rintro ⟨i, hi, hw⟩
      have hij : i ≠ j := by
        rintro rfl
        rcases stops_cases (probe_lt hn hj).2 with hnone | ⟨w', hw'⟩
        · rw [hw] at hnone
          cases hnone
        · rw [hw] at hw'
          exact hk (Prod.mk.inj (Option.some.inj hw')).1
      refine ⟨i, hi, ?_⟩
      rw [Function.update_of_ne hij]
      exact hw

omit [DecidableEq K] in
/-- The number of cells that are not free. -/
def used (n : ℕ) (t : Cells K V) : ℕ := ((Finset.range n).filter fun i => (t i).isSome).card

omit [DecidableEq K] in
theorem used_empty (n : ℕ) : used n (fun _ => none : Cells K V) = 0 := by
  simp [used]

omit [DecidableEq K] in
theorem exists_free (h : used n t < n) : ∃ j < n, t j = none := by
  by_contra hno
  refine absurd h (not_lt.2 ?_)
  rw [used, Finset.filter_true_of_mem, Finset.card_range]
  intro i hi
  refine Option.isSome_iff_ne_none.2 fun hnone => hno ⟨i, Finset.mem_range.1 hi, hnone⟩

omit [DecidableEq K] in
theorem not_has_of_used (h : used n t = 0) (k : K) (v : V) : ¬Has n t k v := by
  rintro ⟨j, hj, hcell⟩
  rw [used, Finset.card_eq_zero, Finset.filter_eq_empty_iff] at h
  refine h (Finset.mem_range.2 hj) ?_
  rw [hcell]
  rfl

omit [DecidableEq K] in
theorem used_write (hj : j < n) (x : K × V) :
    used n (Function.update t j (some x)) = if t j = none then used n t + 1 else used n t := by
  have hset : ((Finset.range n).filter fun i => (Function.update t j (some x) i).isSome) =
      insert j ((Finset.range n).filter fun i => (t i).isSome) := by
    ext i
    simp only [Finset.mem_filter, Finset.mem_range, Finset.mem_insert]
    by_cases hij : i = j
    · simp [hij, hj]
    · simp [hij]
  rw [used, hset]
  split
  · rename_i hnone
    rw [Finset.card_insert_of_notMem, used]
    simp [hnone]
  · rename_i hsome
    rw [Finset.insert_eq_of_mem, used]
    simp [hj, Option.isSome_iff_ne_none, hsome]

/-! ### a larger table -/

omit [DecidableEq K] in
/-- A key placed in the first free cell. -/
def place (n : ℕ) (home : K → ℕ) (t : Cells K V) (x : K × V) : Option (Cells K V) :=
  (probe n (fun i => (t i).isNone) n (home x.1)).map fun j => Function.update t j (some x)

/-- A search for a key that the table has not looks for a free cell. -/
theorem find_eq_place (hn : home k < n) (hk : ∀ v, ¬Has n t k v) :
    find n home t k = probe n (fun i => (t i).isNone) n (home k) := by
  refine probe_congr hn fun j hj => ?_
  cases hcell : t j with
  | none => exact stops_of_none hcell
  | some cell =>
      obtain ⟨k', v⟩ := cell
      rw [stops, hcell]
      refine decide_eq_false ?_
      rintro rfl
      exact hk v ⟨j, hj, hcell⟩

omit [DecidableEq K] in
/-- The cells of another table, placed one after the other. -/
def rehash (n : ℕ) (home : K → ℕ) : List (Option (K × V)) → Cells K V → Option (Cells K V)
  | [], t => some t
  | none :: cells, t => rehash n home cells t
  | some x :: cells, t => (place n home t x).bind (rehash n home cells)

/-- **Rehashing.**  Cells with different keys that the table has not, no more than fit: they are added. -/
theorem rehash_spec (hn : ∀ k, home k < n) (cells : List (Option (K × V)))
    (hnodup : (cells.filterMap id).Pairwise fun x y => x.1 ≠ y.1) {t : Cells K V} (h : Probed n home t)
    (hnew : ∀ x, some x ∈ cells → ∀ v, ¬Has n t x.1 v) (hroom : used n t + (cells.filterMap id).length < n) :
    ∃ t', rehash n home cells t = some t' ∧ Probed n home t' ∧
      used n t' = used n t + (cells.filterMap id).length ∧
      ∀ k v, Has n t' k v ↔ Has n t k v ∨ some (k, v) ∈ cells := by
  induction cells generalizing t with
  | nil => exact ⟨t, rfl, h, rfl, fun k v => ⟨.inl, fun hor => hor.resolve_right List.not_mem_nil⟩⟩
  | cons cell cells ih =>
      cases cell with
      | none =>
          obtain ⟨t', ht', hprobed, hused, hhas⟩ :=
            ih hnodup h (fun x hx => hnew x (List.mem_cons_of_mem _ hx)) hroom
          refine ⟨t', ht', hprobed, hused, fun k v => (hhas k v).trans ?_⟩
          simp
      | some x =>
          obtain ⟨k, v⟩ := x
          obtain ⟨hfirst, hrest⟩ := List.pairwise_cons.1 hnodup
          have hlen : used n t + ((cells.filterMap id).length + 1) < n := hroom
          have hk : ∀ w, ¬Has n t k w := hnew (k, v) List.mem_cons_self
          obtain ⟨j, hj, hfree⟩ := find_free (hn k) hk (exists_free (by omega))
          have hlt := (probe_lt (hn k) hj).1
          have hwrite : used n (Function.update t j (some (k, v))) = used n t + 1 := by
            rw [used_write hlt, if_pos hfree]
          have hother : ∀ x, some x ∈ cells → x.1 ≠ k := fun x hx =>
            (hfirst x (List.mem_filterMap.2 ⟨some x, hx, rfl⟩)).symm
          obtain ⟨t', ht', hprobed, hused, hhas⟩ := ih hrest (h.insert (hn k) hj v)
            (fun x hx w hw => by
              rw [has_insert (hn k) h hj, if_neg (hother x hx)] at hw
              exact hnew x (List.mem_cons_of_mem _ hx) w hw)
            (by rw [hwrite]; omega)
          refine ⟨t', ?_, hprobed, ?_, fun k' v' => (hhas k' v').trans ?_⟩
          · rw [rehash, place, ← find_eq_place (hn k) hk, hj]
            exact ht'
          · rw [hused, hwrite]
            show used n t + 1 + _ = used n t + (_ + 1)
            omega
          · rw [has_insert (hn k) h hj, List.mem_cons, Option.some.injEq, Prod.mk.injEq]
            by_cases hkk : k' = k
            · subst hkk
              rw [if_pos rfl]
              have hno := hk v'
              tauto
            · rw [if_neg hkk]
              tauto

section Cells

omit [DecidableEq K]

theorem mem_cells (n : ℕ) (t : Cells K V) (k : K) (v : V) : some (k, v) ∈ (List.range n).map t ↔ Has n t k v := by
  simp only [List.mem_map, List.mem_range, Has]

theorem length_cells (n : ℕ) (t : Cells K V) : (((List.range n).map t).filterMap id).length = used n t := by
  have hcount : ∀ l : List (Option (K × V)), (l.filterMap id).length = l.countP Option.isSome := by
    intro l
    induction l with
    | nil => rfl
    | cons x l ih =>
        cases x with
        | none => exact ih
        | some x =>
            rw [List.countP_cons_of_pos rfl, ← ih]
            rfl
  rw [hcount, List.countP_map, List.countP_eq_length_filter]
  show _ = Multiset.card (Multiset.filter _ (List.range n : Multiset ℕ))
  rw [Multiset.filter_coe, Multiset.coe_card]
  congr 2
  funext i
  exact (Bool.decide_coe _).symm

theorem cells_pairwise (h : Probed n home t) :
    (((List.range n).map t).filterMap id).Pairwise fun x y => x.1 ≠ y.1 := by
  rw [List.pairwise_filterMap, List.pairwise_map]
  refine List.Pairwise.imp_of_mem ?_ (List.pairwise_lt_range (n := n))
  rintro i j hi hj hij ⟨k, v⟩ hv ⟨k', w⟩ hw rfl
  refine absurd (h.unique i (List.mem_range.1 hi) j (List.mem_range.1 hj) k v w ?_ ?_) (Nat.ne_of_lt hij)
  · exact hv
  · exact hw

end Cells

end PS4Recomp.Library.LinearProbing
