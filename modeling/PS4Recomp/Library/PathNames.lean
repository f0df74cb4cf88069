import Mathlib.Data.List.Flatten
import Mathlib.Data.List.Infix

/-!
# Paths and their names

A path is a list in which a separator stands between names.  Its tokens go onto a stack: some are skipped,
some take the last name off, the others are names.

* `push`, `pushWithin` — one token, without a limit and with room for `n` names;
* `foldl_pushWithin` — the limit does nothing as long as the stack stays within it;
* `tokens` — the pieces of a path that are not empty; `tokens_dropWhile` — separators in front add none;
* `below` — names behind a path; `append_sep_inj` — the last name of a path is unique.
-/

namespace PS4Recomp.Library.PathNames

variable {α τ : Type*}

/-! ### The stack of names -/

section Stack

variable (skip up : τ → Prop) [DecidablePred skip] [DecidablePred up]

def push (stack : List τ) (t : τ) : List τ :=
  if skip t then stack
  else if up t then stack.dropLast
  else stack ++ [t]

/-- With room for `n` names. -/
def pushWithin (n : ℕ) (stack : List τ) (t : τ) : List τ :=
  if skip t then stack
  else if up t then stack.dropLast
  else if stack.length < n then stack ++ [t]
  else stack

variable {skip up}

theorem pushWithin_eq {n : ℕ} {stack : List τ} {t : τ} (h : (push skip up stack t).length ≤ n) :
    pushWithin skip up n stack t = push skip up stack t := by
  unfold push at h ⊢
  unfold pushWithin
  split
  · rfl
  · split
    · rfl
    · rename_i hskip hup
      rw [if_neg hskip, if_neg hup, List.length_append, List.length_singleton] at h
      rw [if_pos (by omega)]

/-- **While the stack stays within the limit, the limit does nothing.** -/
theorem foldl_pushWithin {n : ℕ} (ts : List τ) (stack : List τ)
    (h : ∀ start, start <+: ts → (start.foldl (push skip up) stack).length ≤ n) :
    ts.foldl (pushWithin skip up n) stack = ts.foldl (push skip up) stack := by
  induction ts generalizing stack with
  | nil => rfl
  | cons t ts ih =>
      have hone : (push skip up stack t).length ≤ n := h [t] (List.prefix_append [t] ts)
      rw [List.foldl_cons, List.foldl_cons, pushWithin_eq hone]
      apply ih
      intro start hstart
      exact h (t :: start) (List.cons_prefix_cons.2 ⟨rfl, hstart⟩)

theorem mem_push {stack : List τ} {t x : τ} (h : x ∈ push skip up stack t) :
    x ∈ stack ∨ x = t ∧ ¬skip t ∧ ¬up t := by
  unfold push at h
  split at h
  · exact .inl h
  · split at h
    · exact .inl (List.dropLast_subset stack h)
    · rename_i hskip hup
      rcases List.mem_append.1 h with hmem | hmem
      · exact .inl hmem
      · exact .inr ⟨List.mem_singleton.1 hmem, hskip, hup⟩

theorem mem_foldl_push (ts : List τ) (stack : List τ) {x : τ} (h : x ∈ ts.foldl (push skip up) stack) :
    x ∈ stack ∨ x ∈ ts ∧ ¬skip x ∧ ¬up x := by
  induction ts generalizing stack with
  | nil => exact .inl h
  | cons t ts ih =>
      rcases ih _ h with hpush | ⟨hmem, hname⟩
      · rcases mem_push hpush with hstack | ⟨rfl, hname⟩
        · exact .inl hstack
        · exact .inr ⟨List.mem_cons_self, hname⟩
      · exact .inr ⟨List.mem_cons_of_mem t hmem, hname⟩

end Stack

/-! ### Tokens -/

section Tokens

variable [DecidableEq α] (sep : α)

def tokens (s : List α) : List (List α) := (s.splitOn sep).filter (· ≠ [])

variable {sep}

theorem not_mem_splitOn (s : List α) : ∀ t ∈ s.splitOn sep, sep ∉ t := by
  induction s with
  | nil => simp
  | cons c s ih =>
      rw [List.splitOn_cons_eq_if_modifyHead]
      split
      · intro t ht
        rcases List.mem_cons.1 ht with rfl | ht
        · exact List.not_mem_nil
        · exact ih t ht
      · rename_i hne
        obtain ⟨head, tail, hsplit⟩ := List.exists_cons_of_ne_nil (List.splitOn_ne_nil sep s)
        rw [hsplit] at ih ⊢
        intro t ht
        rcases List.mem_cons.1 ht with rfl | ht
        · intro hmem
          rcases List.mem_cons.1 hmem with rfl | hmem
          · exact hne (beq_self_eq_true _)
          · exact ih head List.mem_cons_self hmem
        · exact ih t (List.mem_cons_of_mem head ht)

theorem mem_tokens {s t : List α} (h : t ∈ tokens sep s) : t ≠ [] ∧ sep ∉ t := by
  obtain ⟨hmem, hne⟩ := List.mem_filter.1 h
  exact ⟨of_decide_eq_true hne, not_mem_splitOn s t hmem⟩

theorem tokens_cons_sep (s : List α) : tokens sep (sep :: s) = tokens sep s := by
  rw [tokens, List.splitOn_cons_eq_if_modifyHead, if_pos (beq_self_eq_true sep)]
  rfl

theorem tokens_dropWhile (s : List α) : tokens sep (s.dropWhile (· = sep)) = tokens sep s := by
  induction s with
  | nil => rfl
  | cons c s ih =>
      by_cases hc : c = sep
      · rw [List.dropWhile_cons, if_pos (decide_eq_true hc), ih, hc, tokens_cons_sep]
      · rw [List.dropWhile_cons, if_neg (fun h => hc (of_decide_eq_true h))]

end Tokens

/-! ### Names behind a path -/

section Below

variable (sep : α)

def below (base : List α) (names : List (List α)) : List α := base ++ names.flatMap (sep :: ·)

variable {sep}

theorem below_nil (base : List α) : below sep base [] = base := List.append_nil base

theorem below_cons (base name : List α) (names : List (List α)) :
    below sep base (name :: names) = below sep (base ++ sep :: name) names := by
  rw [below, below, List.flatMap_cons, List.append_assoc]

theorem below_append (base : List α) (front back : List (List α)) :
    below sep base (front ++ back) = below sep (below sep base front) back := by
  rw [below, below, below, List.flatMap_append, List.append_assoc]

theorem below_concat (base name : List α) (names : List (List α)) :
    below sep base (names ++ [name]) = below sep base names ++ sep :: name := by
  rw [below_append, below_cons, below_nil]

theorem prefix_below (base : List α) (names : List (List α)) : base <+: below sep base names :=
  List.prefix_append base _

/-- Every name and the separator in front of it make the path longer. -/
theorem length_below {names : List (List α)} (hnames : ∀ name ∈ names, name ≠ []) (base : List α) :
    base.length + 2 * names.length ≤ (below sep base names).length := by
  induction names generalizing base with
  | nil => rw [below_nil, List.length_nil]; omega
  | cons name names ih =>
      have hname := List.length_pos_iff.2 (hnames name List.mem_cons_self)
      have hrest := ih (fun n hn => hnames n (List.mem_cons_of_mem name hn)) (base ++ sep :: name)
      rw [List.length_append, List.length_cons] at hrest
      rw [below_cons, List.length_cons]
      omega

/-- **The last name of a path is unique.** -/
theorem append_sep_inj {p q a b : List α} (h : p ++ sep :: a = q ++ sep :: b) (ha : sep ∉ a) (hb : sep ∉ b) :
    p = q ∧ a = b := by
  rcases List.append_eq_append_iff.1 h with ⟨mid, rfl, hmid⟩ | ⟨mid, rfl, hmid⟩
  · cases mid with
    | nil => exact ⟨(List.append_nil p).symm, (List.cons.inj hmid).2⟩
    | cons c mid =>
        refine absurd ?_ ha
        rw [(List.cons.inj hmid).2]
        exact List.mem_append_right mid List.mem_cons_self
  · cases mid with
    | nil => exact ⟨List.append_nil q, (List.cons.inj hmid).2.symm⟩
    | cons c mid =>
        refine absurd ?_ hb
        rw [(List.cons.inj hmid).2]
        exact List.mem_append_right mid List.mem_cons_self

end Below

end PS4Recomp.Library.PathNames
