import Mathlib

/-!
# Lists delivered in pages

A list goes out in pages, each as much of what is left as fits the room of a call.

* `takeFitting` — the items that fit, one after the other; `takeFitting_eq_nil` — none only if none is left;
* `Pages` — pages that make up the list, and what is left: no item twice, none left out, and an empty page only
  when all was delivered; `Pages.next` — one page more, `Pages.complete` — enough pages deliver all.
-/

namespace PS4Recomp.Library.Paging

variable {α : Type*} (size : α → ℕ)

/-- The items from the front that fit into `room`. -/
def takeFitting (room : ℕ) : List α → List α
  | [] => []
  | x :: xs => if room < size x then [] else x :: takeFitting (room - size x) xs

variable {size}

theorem takeFitting_isPrefix (room : ℕ) (xs : List α) : takeFitting size room xs <+: xs := by
  induction xs generalizing room with
  | nil => exact List.prefix_refl []
  | cons x xs ih =>
      rw [takeFitting]
      split
      · exact List.nil_prefix
      · exact List.cons_prefix_cons.2 ⟨rfl, ih (room - size x)⟩

theorem takeFitting_size (room : ℕ) (xs : List α) : ((takeFitting size room xs).map size).sum ≤ room := by
  induction xs generalizing room with
  | nil => exact Nat.zero_le room
  | cons x xs ih =>
      rw [takeFitting]
      split
      · exact Nat.zero_le room
      · rename_i hfits
        have hrest := ih (room - size x)
        rw [List.map_cons, List.sum_cons]
        omega

theorem takeFitting_eq_nil {room : ℕ} {xs : List α} (hfits : ∀ x ∈ xs, size x ≤ room)
    (h : takeFitting size room xs = []) : xs = [] := by
  cases xs with
  | nil => rfl
  | cons x xs =>
      have hx := hfits x List.mem_cons_self
      rw [takeFitting, if_neg (by omega)] at h
      cases h

/-- Pages of a list, and what is left of it. -/
structure Pages (all : List α) (pages : List (List α)) (rest : List α) : Prop where
  whole : pages.flatten ++ rest = all
  last : ∀ before after, pages = before ++ [] :: after → before.flatten = all

theorem Pages.start (all : List α) : Pages all [] all where
  whole := rfl
  last before after h := by cases before <;> cases h

/-- **One page more.** -/
theorem Pages.next {all rest : List α} {pages : List (List α)} (h : Pages all pages rest) {room : ℕ}
    (hfits : ∀ x ∈ rest, size x ≤ room) :
    Pages all (pages ++ [takeFitting size room rest]) (rest.drop (takeFitting size room rest).length) where
  whole := by
    have hsplit : takeFitting size room rest ++ rest.drop (takeFitting size room rest).length = rest := by
      conv_rhs => rw [← List.take_append_drop (takeFitting size room rest).length rest]
      rw [← (List.prefix_iff_eq_take.1 (takeFitting_isPrefix room rest))]
    rw [List.flatten_append, List.flatten_singleton, List.append_assoc, hsplit]
    exact h.whole
  last before after heq := by
    rcases List.eq_nil_or_concat after with rfl | ⟨after, page, rfl⟩
    · -- the new page is the empty one
      obtain ⟨rfl, hpage⟩ := List.append_inj' heq rfl
      have hnil := takeFitting_eq_nil hfits (List.singleton_inj.1 hpage)
      have hwhole := h.whole
      rwa [hnil, List.append_nil] at hwhole
    · rw [List.concat_eq_append, ← List.cons_append, ← List.append_assoc] at heq
      exact h.last before after (List.append_inj' heq rfl).1

theorem length_le_flatten {pages : List (List α)} (h : [] ∉ pages) : pages.length ≤ pages.flatten.length := by
  induction pages with
  | nil => exact Nat.le_refl _
  | cons page pages ih =>
      have hpage : page ≠ [] := fun hnil => h (hnil ▸ List.mem_cons_self)
      have hpos := List.length_pos_iff.2 hpage
      have hrest := ih fun hmem => h (List.mem_cons_of_mem page hmem)
      rw [List.flatten_cons, List.length_append, List.length_cons]
      omega

/-- **As many pages as there are items deliver all of them.** -/
theorem Pages.complete {all rest : List α} {pages : List (List α)} (h : Pages all pages rest)
    (hlen : all.length ≤ pages.length) : rest = [] := by
  by_cases hempty : [] ∈ pages
  · obtain ⟨before, after, rfl⟩ := List.append_of_mem hempty
    have hbefore := h.last before after rfl
    have hwhole := congrArg List.length h.whole
    rw [List.flatten_append, ← hbefore] at hwhole
    simp only [List.length_append] at hwhole
    exact List.length_eq_zero_iff.1 (by omega)
  · have hpages := length_le_flatten hempty
    have hwhole := congrArg List.length h.whole
    rw [List.length_append] at hwhole
    exact List.length_eq_zero_iff.1 (by omega)

end PS4Recomp.Library.Paging
