import PS4Recomp.Library.Bytes

/-!
# Copies laid over a byte string

Byte strings copied into one, one after the other; where two overlap, the later one covers the earlier.

* `Patch`, `Patch.stop`, `Patch.Has`, `Patch.byte` — a copy, its end, the indices it covers and the byte
  it puts there;
* `overlay` — the copies made in order, `get_overlay_of_not_has` — an index outside all of them;
* `get_overlay` — a byte is one that a copy puts there;
* `Agree`, **`overlay_kept`** — copies are all there at the end exactly when they agree wherever two of
  them overlap, and with those that follow.
-/

namespace PS4Recomp.Library

/-- A byte string to be copied to an index. -/
structure Patch where
  off : ℕ
  bytes : Bytes
  deriving DecidableEq

namespace Patch

/-- The index behind the copy. -/
def stop (w : Patch) : ℕ := w.off + w.bytes.length

/-- The indices that the copy covers. -/
def Has (w : Patch) (i : ℕ) : Prop := w.off ≤ i ∧ i < w.stop

/-- The byte of the copy at an index. -/
def byte (w : Patch) (i : ℕ) : BitVec 8 := w.bytes.get (i - w.off)

end Patch

/-- The copies made in order. -/
def overlay (img : Bytes) (ws : List Patch) : Bytes := ws.foldl (fun img w => img.put w.off w.bytes) img

variable {img : Bytes} {ws : List Patch} {w w' : Patch} {i : ℕ}

theorem overlay_append (img : Bytes) (ws ws' : List Patch) :
    overlay img (ws ++ ws') = overlay (overlay img ws) ws' := List.foldl_append

theorem overlay_snoc (img : Bytes) (ws : List Patch) (w : Patch) :
    overlay img (ws ++ [w]) = (overlay img ws).put w.off w.bytes := overlay_append ..

@[simp] theorem length_overlay (img : Bytes) (ws : List Patch) : (overlay img ws).length = img.length := by
  induction ws using List.reverseRecOn with
  | nil => rfl
  | append_singleton ws w ih => rw [overlay_snoc, Bytes.length_put, ih]

theorem get_put_of_has (h : w.Has i) (hi : i < img.length) : (img.put w.off w.bytes).get i = w.byte i := by
  rw [Bytes.get_put, if_pos ⟨h.1, h.2, hi⟩, Patch.byte]

theorem get_put_of_not_has (h : ¬ w.Has i) : (img.put w.off w.bytes).get i = img.get i := by
  rw [Bytes.get_put, if_neg fun hc => h ⟨hc.1, hc.2.1⟩]

theorem get_overlay_of_not_has (h : ∀ w ∈ ws, ¬ w.Has i) : (overlay img ws).get i = img.get i := by
  induction ws using List.reverseRecOn with
  | nil => rfl
  | append_singleton ws w ih =>
      rw [overlay_snoc, get_put_of_not_has (h w (by simp)), ih fun w hw => h w (List.mem_append_left _ hw)]

/-- A byte that is covered is one that a copy puts there. -/
theorem get_overlay (hw : w ∈ ws) (h : w.Has i) (hi : i < img.length) :
    ∃ w' ∈ ws, w'.Has i ∧ (overlay img ws).get i = w'.byte i := by
  induction ws using List.reverseRecOn with
  | nil => cases hw
  | append_singleton ws last ih =>
      rw [overlay_snoc]
      by_cases hlast : last.Has i
      · exact ⟨last, by simp, hlast, get_put_of_has hlast (by rwa [length_overlay])⟩
      · rcases List.mem_append.1 hw with hpre | hsame
        · obtain ⟨w', hw', hhas, heq⟩ := ih hpre
          exact ⟨w', List.mem_append_left _ hw', hhas, by rw [get_put_of_not_has hlast, heq]⟩
        · rw [List.mem_singleton.1 hsame] at h
          exact absurd h hlast

/-- Two copies put the same bytes where both of them are. -/
def Patch.Agree (w w' : Patch) : Prop := ∀ i, w.Has i → w'.Has i → w.byte i = w'.byte i

/-- **Overlays.**  Copies followed by others that agree among themselves are all there at the end
exactly when any two of them agree, and each agrees with those that follow. -/
theorem overlay_kept {fs : List Patch} (hin : ∀ w ∈ ws, w.stop ≤ img.length)
    (hafter : ∀ f ∈ fs, f.stop ≤ img.length) (hfs : ∀ f ∈ fs, ∀ f' ∈ fs, f.Agree f') :
    (∀ w ∈ ws, ∀ i, w.Has i → (overlay (overlay img ws) fs).get i = w.byte i) ↔
      (∀ w ∈ ws, ∀ w' ∈ ws, w.Agree w') ∧ ∀ w ∈ ws, ∀ f ∈ fs, w.Agree f := by
  constructor
  · intro h
    refine ⟨fun w hw w' hw' i hi hi' => ?_, fun w hw f hf i hi hi' => ?_⟩
    · rw [← h w hw i hi, ← h w' hw' i hi']
    · have hlt : i < (overlay img ws).length := by
        rw [length_overlay]
        exact Nat.lt_of_lt_of_le hi'.2 (hafter f hf)
      obtain ⟨f', hf', hhas, heq⟩ := get_overlay hf hi' hlt
      rw [← h w hw i hi, heq, hfs f' hf' f hf i hhas hi']
  · intro h w hw i hi
    have hlt : i < img.length := Nat.lt_of_lt_of_le hi.2 (hin w hw)
    by_cases hcover : ∃ f ∈ fs, f.Has i
    · obtain ⟨f, hf, hhas⟩ := hcover
      have hlt' : i < (overlay img ws).length := by rwa [length_overlay]
      obtain ⟨f', hf', hhas', heq⟩ := get_overlay hf hhas hlt'
      rw [heq, h.2 w hw f' hf' i hi hhas']
    · rw [get_overlay_of_not_has fun f hf hhas => hcover ⟨f, hf, hhas⟩]
      obtain ⟨w', hw', hhas, heq⟩ := get_overlay hw hi hlt
      rw [heq, h.1 w hw w' hw' i hi hhas]

end PS4Recomp.Library
