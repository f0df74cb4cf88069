import PS4Recomp.Library.Bytes

/-!
# Words written into a byte string

* `putWords` — a list of words written one after the other, `get_putWords` — a byte that none of them
  covers stays;
* `word_putWords` — a word that no other one overlaps is read back, `word_putWords_all` — one word
  written at several places is read back at each;
* `putWords_congr` — strings that differ only where words are written become equal.
-/

namespace PS4Recomp.Library

namespace Bytes

/-- Words written one after the other. -/
def putWords (img : Bytes) (ws : List (ℕ × BitVec 64)) : Bytes :=
  ws.foldl (fun img w => img.putWord w.1 w.2) img

@[simp] theorem putWords_nil (img : Bytes) : img.putWords [] = img := rfl

@[simp] theorem putWords_cons (img : Bytes) (w : ℕ × BitVec 64) (ws : List (ℕ × BitVec 64)) :
    img.putWords (w :: ws) = (img.putWord w.1 w.2).putWords ws := rfl

theorem putWords_append (img : Bytes) (ws ws' : List (ℕ × BitVec 64)) :
    img.putWords (ws ++ ws') = (img.putWords ws).putWords ws' := List.foldl_append

@[simp] theorem length_putWords (img : Bytes) (ws : List (ℕ × BitVec 64)) :
    (img.putWords ws).length = img.length := by
  induction ws generalizing img with
  | nil => rfl
  | cons w ws ih => rw [putWords_cons, ih, length_putWord]

theorem get_putWords (img : Bytes) {ws : List (ℕ × BitVec 64)} {i : ℕ}
    (h : ∀ w ∈ ws, i < w.1 ∨ w.1 + 8 ≤ i) : (img.putWords ws).get i = img.get i := by
  induction ws generalizing img with
  | nil => rfl
  | cons w ws ih =>
      rw [putWords_cons, ih _ fun w hw => h w (List.mem_cons_of_mem _ hw),
        get_putWord_of_disjoint _ _ (h w List.mem_cons_self)]

/-- A word that the ones after it do not overlap is read back. -/
theorem word_putWords (img : Bytes) {pre post : List (ℕ × BitVec 64)} {w : ℕ × BitVec 64}
    (hw : w.1 + 8 ≤ img.length) (h : ∀ w' ∈ post, w'.1 + 8 ≤ w.1 ∨ w.1 + 8 ≤ w'.1) :
    (img.putWords (pre ++ w :: post)).word w.1 = w.2 := by
  rw [putWords_append, putWords_cons]
  have hstay : ∀ k < 8, (((img.putWords pre).putWord w.1 w.2).putWords post).get (w.1 + k) =
      ((img.putWords pre).putWord w.1 w.2).get (w.1 + k) := by
    intro k hk
    refine get_putWords _ fun w' hw' => ?_
    rcases h w' hw' with hlo | hhi
    · exact .inr (by omega)
    · exact .inl (by omega)
  rw [word, word64_congr hstay]
  exact word_putWord _ _ (by rw [length_putWords]; exact hw)

/-- One word written at several places, none overlapping another in part, is read back at each. -/
theorem word_putWords_all (img : Bytes) {ws : List (ℕ × BitVec 64)} {v : BitVec 64}
    (hvalue : ∀ w ∈ ws, w.2 = v)
    (hapart : ∀ w ∈ ws, ∀ w' ∈ ws, w.1 = w'.1 ∨ w.1 + 8 ≤ w'.1 ∨ w'.1 + 8 ≤ w.1)
    {w : ℕ × BitVec 64} (hw : w ∈ ws) (hin : w.1 + 8 ≤ img.length) :
    (img.putWords ws).word w.1 = v := by
  induction ws using List.reverseRecOn with
  | nil => cases hw
  | append_singleton ws last ih =>
      have hlast : last ∈ ws ++ [last] := List.mem_append_right _ (List.mem_singleton.2 rfl)
      have hput : img.putWords (ws ++ [last]) = (img.putWords ws).putWord last.1 v := by
        rw [putWords_append, putWords_cons, putWords_nil, hvalue last hlast]
      rw [hput]
      rcases hapart w hw last hlast with heq | hdisj
      · rw [heq]
        exact word_putWord _ _ (by rw [length_putWords, ← heq]; exact hin)
      · rw [word_putWord_of_disjoint _ _ hdisj]
        rcases List.mem_append.1 hw with hpre | hsame
        · exact ih (fun w hw => hvalue w (List.mem_append_left _ hw))
            (fun w hw w' hw' => hapart w (List.mem_append_left _ hw) w' (List.mem_append_left _ hw')) hpre
        · rw [List.mem_singleton.1 hsame] at hdisj
          omega

/-- A written word covers the same bytes of two strings. -/
theorem get_putWord_congr {a b : Bytes} (hlen : a.length = b.length) {off i : ℕ} (v : BitVec 64)
    (h : off ≤ i ∧ i < off + 8 ∨ a.get i = b.get i) :
    (a.putWord off v).get i = (b.putWord off v).get i := by
  rw [putWord, putWord, get_put, get_put, hlen, length_toLE]
  by_cases hin : off ≤ i ∧ i < off + 8 ∧ i < b.length
  · rw [if_pos hin, if_pos hin]
  · rw [if_neg hin, if_neg hin]
    rcases h with h | h
    · have hi : b.length ≤ i := by omega
      rw [get_of_le hi, get_of_le (hlen ▸ hi)]
    · exact h

/-- Strings that differ only where words are written become equal. -/
theorem putWords_congr {a b : Bytes} {ws : List (ℕ × BitVec 64)} (hlen : a.length = b.length)
    (h : ∀ i, (∃ w ∈ ws, w.1 ≤ i ∧ i < w.1 + 8) ∨ a.get i = b.get i) :
    a.putWords ws = b.putWords ws := by
  induction ws generalizing a b with
  | nil =>
      refine ext_get hlen fun i => ?_
      rcases h i with ⟨w, hw, -⟩ | heq
      · cases hw
      · exact heq
  | cons w ws ih =>
      refine ih (by rw [length_putWord, length_putWord, hlen]) fun i => ?_
      rcases h i with ⟨w', hw', hi⟩ | heq
      · rcases List.mem_cons.1 hw' with rfl | hw'
        · exact .inr (get_putWord_congr hlen _ (.inl hi))
        · exact .inl ⟨w', hw', hi⟩
      · exact .inr (get_putWord_congr hlen _ (.inr heq))

end Bytes

end PS4Recomp.Library
