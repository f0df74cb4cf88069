import Mathlib

/-!
# Three-level tables with levels made on demand

A table of pointers to tables of pointers to tables of values, indexed by three parts of a key.  A level
that is not there yet is allocated, zeroed, at an address of its own.

* `RadixTable`, `RadixTable.WF` — the arrays by address; pointers lead to allocated arrays, and no two
  places hold one pointer;
* `RadixTable.insert` — a store, which fails where an allocation does;
* `RadixTable.slot`, `RadixTable.find` — the place of a key, and its value;
* `slot_inj` — keys do not share places.
-/

namespace PS4Recomp.Library

/-- The first level, the arrays of the second and third by address, and the next addresses. -/
structure RadixTable (I F : Type*) where
  l1 : I → Option ℕ := fun _ => none
  l2 : ℕ → I → Option ℕ := fun _ _ => none
  l3 : ℕ → I → Option F := fun _ _ => none
  next2 : ℕ := 0
  next3 : ℕ := 0

namespace RadixTable

variable {I F : Type*}

/-- The place of a key: an array of the third level, and its index. -/
def slot (t : RadixTable I F) (i j k : I) : Option (ℕ × I) :=
  (t.l1 i).bind fun p => (t.l2 p j).map fun q => (q, k)

/-- The value of a key. -/
def find (t : RadixTable I F) (i j k : I) : Option F :=
  (t.l1 i).bind fun p => (t.l2 p j).bind fun q => t.l3 q k

variable [DecidableEq I]

/-- The array of the second level, made if need be. -/
def open2 (t : RadixTable I F) (i : I) (ok : Bool) : Option (ℕ × RadixTable I F) :=
  match t.l1 i with
  | some p => some (p, t)
  | none =>
      if ok then
        some (t.next2, { t with
          l1 := Function.update t.l1 i (some t.next2)
          l2 := Function.update t.l2 t.next2 fun _ => none
          next2 := t.next2 + 1 })
      else none

/-- The array of the third level, made if need be. -/
def open3 (t : RadixTable I F) (p : ℕ) (j : I) (ok : Bool) : Option (ℕ × RadixTable I F) :=
  match t.l2 p j with
  | some q => some (q, t)
  | none =>
      if ok then
        some (t.next3, { t with
          l2 := Function.update t.l2 p (Function.update (t.l2 p) j (some t.next3))
          l3 := Function.update t.l3 t.next3 fun _ => none
          next3 := t.next3 + 1 })
      else none

/-- A store in an array of the third level. -/
def store (t : RadixTable I F) (q : ℕ) (k : I) (v : Option F) : RadixTable I F :=
  { t with l3 := Function.update t.l3 q (Function.update (t.l3 q) k v) }

/-- A value for a key. -/
def insert (t : RadixTable I F) (i j k : I) (v : Option F) (ok2 ok3 : Bool) :
    Option (RadixTable I F) :=
  (t.open2 i ok2).bind fun (p, t) => (t.open3 p j ok3).map fun (q, t) => t.store q k v

/-- Pointers lead to allocated arrays, each from one place. -/
structure WF (t : RadixTable I F) : Prop where
  lt2 : ∀ i p, t.l1 i = some p → p < t.next2
  inj2 : ∀ i i' p, t.l1 i = some p → t.l1 i' = some p → i = i'
  lt3 : ∀ p j q, t.l2 p j = some q → q < t.next3
  inj3 : ∀ p p' j j' q, t.l2 p j = some q → t.l2 p' j' = some q → p = p' ∧ j = j'

omit [DecidableEq I] in
theorem wf_empty : WF ({} : RadixTable I F) :=
  ⟨fun _ _ h => (nomatch h), fun _ _ _ h => (nomatch h), fun _ _ _ h => (nomatch h),
    fun _ _ _ _ _ h => (nomatch h)⟩

variable {t t' : RadixTable I F} {i j k : I} {p q : ℕ} {ok : Bool}

/-- **Second level.**  The array is there now, and no value changed. -/
theorem open2_spec (h : WF t) (ho : t.open2 i ok = some (p, t')) :
    WF t' ∧ t'.l1 i = some p ∧ ∀ i' j' k', t'.find i' j' k' = t.find i' j' k' := by
  unfold open2 at ho
  split at ho
  · rename_i hp
    cases ho
    exact ⟨h, hp, fun _ _ _ => rfl⟩
  · rename_i hnone
    split at ho
    · cases ho
      refine ⟨⟨fun i' p hi => ?_, fun i' i'' p hi hi' => ?_, fun p j q hj => ?_,
        fun p p' j j' q hj hj' => ?_⟩, Function.update_self .., fun i' j' k' => ?_⟩
      · show p < t.next2 + 1
        have hi' : Function.update t.l1 i (some t.next2) i' = some p := hi
        by_cases hii : i' = i
        · rw [hii, Function.update_self] at hi'
          cases hi'
          omega
        · rw [Function.update_of_ne hii] at hi'
          have := h.lt2 i' p hi'
          omega
      · have h1 : Function.update t.l1 i (some t.next2) i' = some p := hi
        have h2 : Function.update t.l1 i (some t.next2) i'' = some p := hi'
        by_cases hii : i' = i
        · by_cases hii' : i'' = i
          · rw [hii, hii']
          · rw [hii, Function.update_self] at h1
            rw [Function.update_of_ne hii'] at h2
            cases h1
            have := h.lt2 i'' _ h2
            omega
        · rw [Function.update_of_ne hii] at h1
          by_cases hii' : i'' = i
          · rw [hii', Function.update_self] at h2
            cases h2
            have := h.lt2 i' _ h1
            omega
          · rw [Function.update_of_ne hii'] at h2
            exact h.inj2 i' i'' p h1 h2
      · have hj' : Function.update t.l2 t.next2 (fun _ => none) p j = some q := hj
        by_cases hp : p = t.next2
        · rw [hp, Function.update_self] at hj'
          cases hj'
        · rw [Function.update_of_ne hp] at hj'
          exact h.lt3 p j q hj'
      · have h1 : Function.update t.l2 t.next2 (fun _ => none) p j = some q := hj
        have h2 : Function.update t.l2 t.next2 (fun _ => none) p' j' = some q := hj'
        by_cases hp : p = t.next2
        · rw [hp, Function.update_self] at h1
          cases h1
        · by_cases hp' : p' = t.next2
          · rw [hp', Function.update_self] at h2
            cases h2
          · rw [Function.update_of_ne hp] at h1
            rw [Function.update_of_ne hp'] at h2
            exact h.inj3 p p' j j' q h1 h2
      · show (Function.update t.l1 i (some t.next2) i').bind (fun p =>
          (Function.update t.l2 t.next2 (fun _ => none) p j').bind fun q => t.l3 q k') = _
        by_cases hii : i' = i
        · rw [hii, Function.update_self, find, hnone]
          show (Function.update t.l2 t.next2 (fun _ => none) t.next2 j').bind _ = none
          rw [Function.update_self]
          rfl
        · rw [Function.update_of_ne hii, find]
          cases hi : t.l1 i' with
          | none => rfl
          | some p =>
              have hp : p ≠ t.next2 := by
                have := h.lt2 i' p hi
                omega
              show (Function.update t.l2 t.next2 (fun _ => none) p j').bind _ = _
              rw [Function.update_of_ne hp]
              rfl
    · cases ho

/-- **Third level.**  The array is there now, the first level is the same, and no value changed. -/
theorem open3_spec (h : WF t) (ho : t.open3 p j ok = some (q, t')) :
    WF t' ∧ t'.l1 = t.l1 ∧ t'.l2 p j = some q ∧ ∀ i' j' k', t'.find i' j' k' = t.find i' j' k' := by
  unfold open3 at ho
  split at ho
  · rename_i hq
    cases ho
    exact ⟨h, rfl, hq, fun _ _ _ => rfl⟩
  · rename_i hnone
    split at ho
    · cases ho
      -- the second level after the new pointer
      have hl2 : ∀ p' j', Function.update t.l2 p (Function.update (t.l2 p) j (some t.next3)) p' j' =
          if p' = p ∧ j' = j then some t.next3 else t.l2 p' j' := by
        intro p' j'
        by_cases hp : p' = p
        · rw [hp, Function.update_self]
          by_cases hj : j' = j
          · rw [hj, Function.update_self, if_pos ⟨rfl, rfl⟩]
          · rw [Function.update_of_ne hj, if_neg fun e => hj e.2]
        · rw [Function.update_of_ne hp, if_neg fun e => hp e.1]
      refine ⟨⟨h.lt2, h.inj2, fun p' j' q hj => ?_, fun p' p'' j' j'' q hj hj' => ?_⟩, rfl, ?_,
        fun i' j' k' => ?_⟩
      · show q < t.next3 + 1
        have hq := (hl2 p' j').symm.trans hj
        split at hq
        · cases hq
          omega
        · have := h.lt3 p' j' q hq
          omega
      · have h1 := (hl2 p' j').symm.trans hj
        have h2 := (hl2 p'' j'').symm.trans hj'
        split at h1
        · rename_i he
          split at h2
          · rename_i he'
            exact ⟨he.1.trans he'.1.symm, he.2.trans he'.2.symm⟩
          · cases h1
            have := h.lt3 _ _ _ h2
            omega
        · split at h2
          · cases h2
            have := h.lt3 _ _ _ h1
            omega
          · exact h.inj3 p' p'' j' j'' q h1 h2
      · exact (hl2 p j).trans (if_pos ⟨rfl, rfl⟩)
      · unfold find
        cases hi : t.l1 i' with
        | none => rfl
        | some p' =>
            show (Function.update t.l2 p (Function.update (t.l2 p) j (some t.next3)) p' j').bind
              (fun q => Function.update t.l3 t.next3 (fun _ => none) q k') = (t.l2 p' j').bind _
            rw [hl2]
            split
            · rename_i he
              rw [he.1, he.2, hnone]
              show Function.update t.l3 t.next3 (fun _ => none) t.next3 k' = none
              rw [Function.update_self]
            · cases hq : t.l2 p' j' with
              | none => rfl
              | some q =>
                  have hne : q ≠ t.next3 := by
                    have := h.lt3 p' j' q hq
                    omega
                  show Function.update t.l3 t.next3 (fun _ => none) q k' = t.l3 q k'
                  rw [Function.update_of_ne hne]
    · cases ho

omit [DecidableEq I] in
theorem slot_inj (h : WF t) {i' j' k' : I} {a : ℕ × I} (h1 : t.slot i j k = some a)
    (h2 : t.slot i' j' k' = some a) : i = i' ∧ j = j' ∧ k = k' := by
  obtain ⟨p, hp, hpk⟩ := Option.bind_eq_some_iff.1 h1
  obtain ⟨p', hp', hpk'⟩ := Option.bind_eq_some_iff.1 h2
  obtain ⟨q, hq, rfl⟩ := Option.map_eq_some_iff.1 hpk
  obtain ⟨q', hq', heq⟩ := Option.map_eq_some_iff.1 hpk'
  obtain ⟨rfl, rfl⟩ := Prod.mk.inj heq
  obtain ⟨rfl, rfl⟩ := h.inj3 p p' j j' q' hq hq'
  exact ⟨h.inj2 i i' p hp hp', rfl, rfl⟩

/-- **Insert.**  The table stays well formed; the key has the new value and no other key's value
changes. -/
theorem insert_spec {v : Option F} {ok2 ok3 : Bool} (h : WF t)
    (hi : t.insert i j k v ok2 ok3 = some t') :
    WF t' ∧ t'.find i j k = v ∧
      ∀ i' j' k', ¬ (i' = i ∧ j' = j ∧ k' = k) → t'.find i' j' k' = t.find i' j' k' := by
  obtain ⟨⟨p, t₁⟩, h₁, hi⟩ := Option.bind_eq_some_iff.1 hi
  obtain ⟨⟨q, t₂⟩, h₂, rfl⟩ := Option.map_eq_some_iff.1 hi
  obtain ⟨hwf₁, hp, hfind₁⟩ := open2_spec h h₁
  obtain ⟨hwf₂, hl1, hq, hfind₂⟩ := open3_spec hwf₁ h₂
  have hp₂ : t₂.l1 i = some p := by rw [hl1]; exact hp
  refine ⟨⟨hwf₂.lt2, hwf₂.inj2, hwf₂.lt3, hwf₂.inj3⟩, ?_, fun i' j' k' hne => ?_⟩
  · show (t₂.l1 i).bind (fun p => (t₂.l2 p j).bind fun q' => (t₂.store q k v).l3 q' k) = v
    rw [hp₂]
    show (t₂.l2 p j).bind _ = v
    rw [hq]
    show Function.update t₂.l3 q (Function.update (t₂.l3 q) k v) q k = v
    rw [Function.update_self, Function.update_self]
  · rw [← hfind₁, ← hfind₂]
    unfold find
    show (t₂.l1 i').bind (fun p => (t₂.l2 p j').bind fun q' => (t₂.store q k v).l3 q' k') = _
    cases hi' : t₂.l1 i' with
    | none => rfl
    | some p' =>
        show (t₂.l2 p' j').bind _ = (t₂.l2 p' j').bind _
        cases hj' : t₂.l2 p' j' with
        | none => rfl
        | some q' =>
            show Function.update t₂.l3 q (Function.update (t₂.l3 q) k v) q' k' = t₂.l3 q' k'
            by_cases hqq : q' = q
            · -- one array, so the first two parts agree and the third differs
              rw [hqq] at hj' ⊢
              obtain ⟨hpp, hjj⟩ := hwf₂.inj3 p' p j' j q hj' hq
              rw [hpp] at hi'
              have hii := hwf₂.inj2 i' i p hi' hp₂
              have hkk : k' ≠ k := fun e => hne ⟨hii, hjj, e⟩
              rw [Function.update_self, Function.update_of_ne hkk]
            · rw [Function.update_of_ne hqq]

end RadixTable

end PS4Recomp.Library
