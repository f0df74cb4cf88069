import Mathlib

/-!
# Ring buffers

An array of `N` slots with a first slot, a free slot after the last, and a count.

* `window` — the values of `count` slots from a first slot on;
* `RingBuffer`, `RingBuffer.WF` — the buffer, and the agreement of its three numbers;
* `RingBuffer.push`, `RingBuffer.pop`, `RingBuffer.drain` — at the end, and from the start;
* `RingBuffer.firstMatch`, `RingBuffer.set` — a value in the middle; `replaceFirst` — in a list;
* `RingBuffer.compact` — a pass that keeps some values and moves them to the front, in place.

Each operation has its lemma about the list of the ring's contents.
-/

namespace PS4Recomp.Library

variable {α : Type*}

/-! ### windows -/

/-- The values of `count` slots from `head` on. -/
def window (N : ℕ) (buf : ℕ → α) (head : ℕ) : ℕ → List α
  | 0 => []
  | count + 1 => window N buf head count ++ [buf ((head + count) % N)]

variable {N : ℕ} {buf buf' : ℕ → α} {head count : ℕ}

theorem slot_inj {i j : ℕ} (hi : i < N) (hj : j < N) (h : (head + i) % N = (head + j) % N) : i = j := by
  have hmod : i ≡ j [MOD N] := Nat.ModEq.add_left_cancel' head h
  rw [← Nat.mod_eq_of_lt hi, ← Nat.mod_eq_of_lt hj]
  exact hmod

@[simp] theorem length_window : ∀ count, (window N buf head count).length = count := by
  intro count
  induction count with
  | zero => rfl
  | succ count ih =>
      rw [window, List.length_append, ih]
      rfl

theorem window_congr :
    ∀ count, (∀ i < count, buf ((head + i) % N) = buf' ((head + i) % N)) →
      window N buf head count = window N buf' head count := by
  intro count
  induction count with
  | zero => exact fun _ => rfl
  | succ count ih =>
      intro h
      rw [window, window, ih fun i hi => h i (by omega), h count (by omega)]

theorem getElem?_window : ∀ count, ∀ i < count,
    (window N buf head count)[i]? = some (buf ((head + i) % N)) := by
  intro count
  induction count with
  | zero => exact fun i hi => absurd hi (Nat.not_lt_zero i)
  | succ count ih =>
      intro i hi
      by_cases hlast : i = count
      · subst hlast
        rw [window, List.getElem?_append_right (by rw [length_window]), length_window, Nat.sub_self]
        rfl
      · rw [window, List.getElem?_append_left (by rw [length_window]; omega), ih i (by omega)]

theorem window_update {w : ℕ} {v : α} (hw : count ≤ w) (hN : w < N) :
    window N (Function.update buf ((head + w) % N) v) head count = window N buf head count := by
  refine window_congr count fun i hi => ?_
  rw [Function.update_of_ne]
  intro e
  have hiw := slot_inj (by omega) hN e
  omega

theorem window_cons : ∀ count, window N buf head (count + 1) =
    buf (head % N) :: window N buf ((head + 1) % N) count := by
  intro count
  induction count with
  | zero => rfl
  | succ count ih =>
      have hslot : (head + (count + 1)) % N = ((head + 1) % N + count) % N := by
        rw [Nat.mod_add_mod]
        congr 1
        omega
      rw [window, ih, window, hslot]
      rfl

theorem window_split (buf : ℕ → α) (head : ℕ) {i : ℕ} (hN : count ≤ N) (hi : i < count) :
    ∃ l₁ l₂, l₁.length = i ∧ window N buf head count = l₁ ++ buf ((head + i) % N) :: l₂ ∧
      ∀ v, window N (Function.update buf ((head + i) % N) v) head count = l₁ ++ v :: l₂ := by
  induction count with
  | zero => omega
  | succ count ih =>
      by_cases hlast : i = count
      · subst hlast
        refine ⟨window N buf head i, [], length_window i, rfl, fun v => ?_⟩
        rw [window, window_update (le_refl i) (by omega), Function.update_self]
      · obtain ⟨l₁, l₂, hlen, hwin, hset⟩ := ih (by omega) (by omega)
        refine ⟨l₁, l₂ ++ [buf ((head + count) % N)], hlen, ?_, fun v => ?_⟩
        · rw [window, hwin, List.append_assoc, List.cons_append]
        · have hne : (head + count) % N ≠ (head + i) % N := by
            intro e
            have := slot_inj (by omega) (by omega) e
            omega
          rw [window, hset, Function.update_of_ne hne, List.append_assoc, List.cons_append]

/-! ### lists -/

/-- The first value that meets `p` is replaced by its image, if there is one. -/
def replaceFirst (p : α → Bool) (f : α → α) : List α → Option (List α)
  | [] => none
  | a :: l => if p a then some (f a :: l) else (replaceFirst p f l).map (a :: ·)

theorem replaceFirst_none {p : α → Bool} {f : α → α} :
    ∀ l : List α, (∀ a ∈ l, p a = false) → replaceFirst p f l = none := by
  intro l
  induction l with
  | nil => exact fun _ => rfl
  | cons a l ih =>
      intro h
      rw [replaceFirst, h a List.mem_cons_self, if_neg (by decide),
        ih fun b hb => h b (List.mem_cons_of_mem a hb)]
      rfl

theorem replaceFirst_some {p : α → Bool} {f : α → α} {a : α} {l₂ : List α} (ha : p a = true) :
    ∀ l₁ : List α, (∀ b ∈ l₁, p b = false) →
      replaceFirst p f (l₁ ++ a :: l₂) = some (l₁ ++ f a :: l₂) := by
  intro l₁
  induction l₁ with
  | nil =>
      intro _
      exact if_pos ha
  | cons b l₁ ih =>
      intro h
      rw [List.cons_append, replaceFirst, h b List.mem_cons_self, if_neg (by decide),
        ih fun c hc => h c (List.mem_cons_of_mem b hc)]
      rfl

/-! ### the ring -/

/-- The slots, the first one, the one after the last, and how many there are. -/
structure RingBuffer (α : Type*) where
  buf : ℕ → α
  head : ℕ
  tail : ℕ
  count : ℕ

namespace RingBuffer

/-- The contents, the oldest first. -/
def contents (N : ℕ) (r : RingBuffer α) : List α := window N r.buf r.head r.count

/-- The three numbers agree. -/
structure WF (N : ℕ) (r : RingBuffer α) : Prop where
  head : r.head < N
  count : r.count ≤ N
  tail : r.tail = (r.head + r.count) % N

/-- A value at the end. -/
def push (N : ℕ) (r : RingBuffer α) (a : α) : RingBuffer α :=
  { buf := Function.update r.buf r.tail a, head := r.head, tail := (r.tail + 1) % N,
    count := r.count + 1 }

/-- Without the first value. -/
def pop (N : ℕ) (r : RingBuffer α) : RingBuffer α :=
  { r with head := (r.head + 1) % N, count := r.count - 1 }

/-- At most `n` values from the start. -/
def drain (N : ℕ) : ℕ → RingBuffer α → List α × RingBuffer α
  | 0, r => ([], r)
  | n + 1, r =>
      if 0 < r.count then
        let (out, r') := drain N n (r.pop N)
        (r.buf r.head :: out, r')
      else ([], r)

/-- The first place whose value meets `p`. -/
def firstMatch (N : ℕ) (r : RingBuffer α) (p : α → Bool) : Option ℕ :=
  (List.range r.count).find? fun i => p (r.buf ((r.head + i) % N))

/-- A value written at a place. -/
def set (N : ℕ) (r : RingBuffer α) (i : ℕ) (a : α) : RingBuffer α :=
  { r with buf := Function.update r.buf ((r.head + i) % N) a }

/-- The pass over the first places: the slots, and how many values are kept so far. -/
def compactTo (N : ℕ) (r : RingBuffer α) (drop : α → Bool) : ℕ → (ℕ → α) × ℕ
  | 0 => (r.buf, 0)
  | i + 1 =>
      let (buf, write) := compactTo N r drop i
      let v := buf ((r.head + i) % N)
      if drop v then (buf, write)
      else (if write ≠ i then Function.update buf ((r.head + write) % N) v else buf, write + 1)

/-- Without the values that meet `drop`. -/
def compact (N : ℕ) (r : RingBuffer α) (drop : α → Bool) : RingBuffer α :=
  let (buf, write) := compactTo N r drop r.count
  { buf, head := r.head, tail := (r.head + write) % N, count := write }

variable {r : RingBuffer α}

@[simp] theorem length_contents : (r.contents N).length = r.count := length_window r.count

theorem WF.push (h : WF N r) (hroom : r.count < N) (a : α) : WF N (r.push N a) := by
  refine ⟨h.head, hroom, ?_⟩
  show (r.tail + 1) % N = (r.head + (r.count + 1)) % N
  rw [h.tail, Nat.mod_add_mod, Nat.add_assoc]

/-- **Push.** -/
theorem contents_push (h : WF N r) (hroom : r.count < N) (a : α) :
    (r.push N a).contents N = r.contents N ++ [a] := by
  have hbuf : (r.push N a).buf = Function.update r.buf ((r.head + r.count) % N) a := by
    rw [← h.tail]
    rfl
  show window N (r.push N a).buf r.head (r.count + 1) = _
  rw [hbuf, window, window_update (le_refl _) hroom, Function.update_self]
  rfl

theorem WF.pop (h : WF N r) (hcount : 0 < r.count) : WF N (r.pop N) := by
  refine ⟨Nat.mod_lt _ (by have := h.head; omega), ?_, ?_⟩
  · show r.count - 1 ≤ N
    have := h.count
    omega
  · show r.tail = ((r.head + 1) % N + (r.count - 1)) % N
    rw [h.tail, Nat.mod_add_mod]
    congr 1
    omega

/-- **Pop.** -/
theorem contents_pop (h : WF N r) (hcount : 0 < r.count) :
    r.contents N = r.buf r.head :: (r.pop N).contents N := by
  obtain ⟨c, hc⟩ : ∃ c, r.count = c + 1 := ⟨r.count - 1, by omega⟩
  show window N r.buf r.head r.count = r.buf r.head :: window N r.buf ((r.head + 1) % N) (r.count - 1)
  rw [hc, window_cons, Nat.mod_eq_of_lt h.head]
  rfl

/-- **Drain.**  What comes out, then what stays, is what was there; at most `n` values come out, and
nothing stays behind fewer. -/
theorem drain_spec : ∀ (n : ℕ) {r : RingBuffer α}, WF N r →
    WF N (drain N n r).2 ∧ r.contents N = (drain N n r).1 ++ (drain N n r).2.contents N ∧
      (drain N n r).1.length = min n r.count := by
  intro n
  induction n with
  | zero => exact fun h => ⟨h, rfl, (Nat.zero_min _).symm⟩
  | succ n ih =>
      intro r h
      unfold drain
      split
      · rename_i hcount
        obtain ⟨hwf, hcont, hlen⟩ := ih (h.pop hcount)
        refine ⟨hwf, ?_, ?_⟩
        · rw [contents_pop h hcount, hcont]
          rfl
        · show (drain N n (r.pop N)).1.length + 1 = _
          rw [hlen]
          show min n (r.count - 1) + 1 = _
          omega
      · refine ⟨h, rfl, ?_⟩
        show 0 = _
        omega

theorem WF.set (h : WF N r) (i : ℕ) (a : α) : WF N (r.set N i a) := ⟨h.head, h.count, h.tail⟩

/-- **First match.**  A write to the first place that meets `p`. -/
theorem firstMatch_some {p : α → Bool} {i : ℕ} (h : WF N r) (hi : r.firstMatch N p = some i) :
    ∃ l₁ l₂, r.contents N = l₁ ++ r.buf ((r.head + i) % N) :: l₂ ∧
      p (r.buf ((r.head + i) % N)) = true ∧ ∀ a, (r.set N i a).contents N = l₁ ++ a :: l₂ := by
  have hp := List.find?_some hi
  have hlt := List.mem_range.1 (List.mem_of_find?_eq_some hi)
  obtain ⟨l₁, l₂, -, hwin, hset⟩ := window_split r.buf r.head h.count hlt
  exact ⟨l₁, l₂, hwin, hp, hset⟩

theorem firstMatch_none {p : α → Bool} (hi : r.firstMatch N p = none) :
    ∀ a ∈ r.contents N, p a = false := by
  have hall : ∀ i < r.count, p (r.buf ((r.head + i) % N)) = false := fun i hlt => by
    have := List.find?_eq_none.1 hi i (List.mem_range.2 hlt)
    simpa using this
  have hwin : ∀ c ≤ r.count, ∀ a ∈ window N r.buf r.head c, p a = false := by
    intro c
    induction c with
    | zero => exact fun _ a ha => (nomatch ha)
    | succ c ih =>
        intro hc a ha
        rcases List.mem_append.1 ha with ha | ha
        · exact ih (by omega) a ha
        · rw [List.mem_singleton.1 ha]
          exact hall c hc
  exact hwin r.count (le_refl _)

/-- **First match.**  On the contents it is `replaceFirst`. -/
theorem replaceFirst_contents {p : α → Bool} (f : α → α) {i : ℕ} (h : WF N r)
    (hi : r.firstMatch N p = some i) :
    replaceFirst p f (r.contents N) =
      some ((r.set N i (f (r.buf ((r.head + i) % N)))).contents N) := by
  obtain ⟨hp, hlt, hbefore⟩ := List.find?_range_eq_some.1 hi
  have hi' := List.mem_range.1 hlt
  obtain ⟨l₁, l₂, hlen, hwin, hset⟩ := window_split r.buf r.head h.count hi'
  have hfirst : ∀ b ∈ l₁, p b = false := by
    intro b hb
    obtain ⟨j, hj, rfl⟩ := List.mem_iff_getElem.1 hb
    have hget : (window N r.buf r.head r.count)[j]? = some (r.buf ((r.head + j) % N)) :=
      getElem?_window r.count j (by omega)
    rw [hwin, List.getElem?_append_left hj, List.getElem?_eq_getElem hj, Option.some.injEq] at hget
    rw [hget]
    simpa using hbefore j (by omega)
  have hcont : r.contents N = l₁ ++ r.buf ((r.head + i) % N) :: l₂ := hwin
  rw [hcont, replaceFirst_some hp l₁ hfirst]
  exact congrArg some (hset _).symm

/-- The pass so far: the kept values are at the front, the places ahead are untouched. -/
theorem compactTo_spec (drop : α → Bool) : ∀ i ≤ N,
    (r.compactTo N drop i).2 ≤ i ∧
      window N (r.compactTo N drop i).1 r.head (r.compactTo N drop i).2 =
        (window N r.buf r.head i).filter (fun a => !drop a) ∧
      ∀ j, i ≤ j → j < N → (r.compactTo N drop i).1 ((r.head + j) % N) = r.buf ((r.head + j) % N) := by
  intro i
  induction i with
  | zero => exact fun _ => ⟨le_refl 0, rfl, fun _ _ _ => rfl⟩
  | succ i ih =>
      intro hi
      obtain ⟨hle, hwin, hahead⟩ := ih (by omega)
      rw [compactTo]
      revert hle hwin hahead
      generalize r.compactTo N drop i = done
      obtain ⟨buf, write⟩ := done
      intro hle hwin hahead
      have hv : buf ((r.head + i) % N) = r.buf ((r.head + i) % N) := hahead i (le_refl i) (by omega)
      dsimp only at hle hwin hahead hv ⊢
      rw [hv, window, List.filter_append]
      by_cases hdrop : drop (r.buf ((r.head + i) % N)) = true
      · rw [if_pos hdrop]
        refine ⟨by show write ≤ i + 1; omega, ?_, fun j hj hN => hahead j (by omega) hN⟩
        rw [hwin, List.filter_cons_of_neg (by simp [hdrop])]
        simp
      · rw [if_neg hdrop, List.filter_cons_of_pos (by simp [hdrop]), List.filter_nil]
        refine ⟨by show write + 1 ≤ i + 1; omega, ?_, fun j hj hN => ?_⟩
        · by_cases hw : write = i
          · rw [if_neg (by simpa using hw)]
            show window N buf r.head write ++ [buf ((r.head + write) % N)] = _
            rw [hwin, hw, hv]
          · rw [if_pos hw]
            show window N (Function.update buf _ _) r.head write ++ [Function.update buf _ _ _] = _
            rw [window_update (le_refl write) (by omega), hwin, Function.update_self]
        · by_cases hw : write = i
          · rw [if_neg (by simpa using hw)]
            exact hahead j (by omega) hN
          · rw [if_pos hw]
            show Function.update buf _ _ _ = _
            rw [Function.update_of_ne]
            · exact hahead j (by omega) hN
            · intro e
              have := slot_inj hN (by omega) e
              omega

/-- **Compact.** -/
theorem compact_spec (h : WF N r) (drop : α → Bool) : WF N (r.compact N drop) ∧
    (r.compact N drop).contents N = (r.contents N).filter fun a => !drop a := by
  obtain ⟨hle, hwin, -⟩ := compactTo_spec (r := r) drop r.count h.count
  exact ⟨⟨h.head, hle.trans h.count, rfl⟩, hwin⟩

end RingBuffer

end PS4Recomp.Library
