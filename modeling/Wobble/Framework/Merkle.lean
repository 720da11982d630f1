import Mathlib

namespace Merkle

variable {α : Type}

/-- A level of odd length repeats its last node. -/
def pad (level : List α) : List α :=
  if level.length % 2 = 1 then level ++ level.getLast?.toList else level

/-- Consecutive complete pairs; a single node left over is dropped. -/
def pairs : List α → List (α × α)
  | a :: b :: rest => (a, b) :: pairs rest
  | _ => []

/-- The level above: one node for each pair of the padded level. -/
def above (node : α → α → α) (level : List α) : List α :=
  (pairs (pad level)).map fun p => node p.1 p.2

/-- Goes up one level at a time until at most one node is left. As many rounds as there are
nodes are always enough. -/
def reduce (node : α → α → α) : Nat → List α → List α
  | 0, level => level
  | rounds + 1, level =>
    if 1 < level.length then reduce node rounds (above node level) else level

/-- Every pair a reduction combines. -/
def combined (node : α → α → α) : Nat → List α → List (α × α)
  | 0, _ => []
  | rounds + 1, level =>
    if 1 < level.length then pairs (pad level) ++ combined node rounds (above node level) else []

theorem pad_length (level : List α) : (pad level).length = 2 * ((level.length + 1) / 2) := by
  unfold pad
  split_ifs with h
  · have hn : level ≠ [] := by rintro rfl; simp at h
    rw [List.length_append, List.getLast?_eq_some_getLast hn, Option.toList_some,
      List.length_singleton]
    omega
  · omega

theorem pairs_length (level : List α) : (pairs level).length = level.length / 2 := by
  fun_induction pairs level with
  | case1 a b rest ih => simp only [List.length_cons, ih]; omega
  | case2 level h =>
    rcases level with _ | ⟨a, _ | ⟨b, rest⟩⟩
    · simp
    · simp
    · exact absurd rfl (h a b rest)

theorem above_length (node : α → α → α) (level : List α) :
    (above node level).length = (level.length + 1) / 2 := by
  rw [above, List.length_map, pairs_length, pad_length]
  omega

theorem reduce_length (node : α → α → α) (rounds : Nat) (level : List α)
    (hn : level ≠ []) (hr : level.length ≤ rounds) : (reduce node rounds level).length = 1 := by
  induction rounds generalizing level with
  | zero => exact absurd (List.eq_nil_of_length_eq_zero (by omega)) hn
  | succ rounds ih =>
    have hp := List.length_pos_of_ne_nil hn
    rw [reduce]
    split_ifs with hl
    · have ha := above_length node level
      exact ih _ (List.ne_nil_of_length_pos (by omega)) (by omega)
    · omega

theorem pad_inj (xs ys : List α) (hl : xs.length = ys.length) (h : pad xs = pad ys) :
    xs = ys := by
  unfold pad at h
  rw [hl] at h
  split_ifs at h
  · exact (List.append_inj h hl).1
  · exact h

/-- Lists of one even length that agree pair by pair are equal. -/
theorem eq_of_pairs_eq (xs ys : List α) (hl : xs.length = ys.length)
    (he : xs.length % 2 = 0) (h : pairs xs = pairs ys) : xs = ys := by
  fun_induction pairs xs generalizing ys with
  | case1 a b rest ih =>
    rcases ys with _ | ⟨c, _ | ⟨d, ys⟩⟩
    · simp at hl
    · simp at hl
    · simp only [pairs, List.cons.injEq, Prod.mk.injEq] at h
      obtain ⟨⟨rfl, rfl⟩, ht⟩ := h
      rw [ih ys (by simpa using hl) (by simp only [List.length_cons] at he; omega) ht]
  | case2 xs hx =>
    rcases xs with _ | ⟨a, _ | ⟨b, rest⟩⟩
    · exact (List.eq_nil_of_length_eq_zero (by simpa using hl.symm)).symm
    · simp at he
    · exact absurd rfl (hx a b rest)

theorem map_inj_of_length (f : α × α → α) (ps qs : List (α × α)) (hl : ps.length = qs.length)
    (hf : ∀ p ∈ ps, ∀ q ∈ qs, f p = f q → p = q) (h : ps.map f = qs.map f) : ps = qs := by
  induction ps generalizing qs with
  | nil => exact (List.eq_nil_of_length_eq_zero (by simpa using hl.symm)).symm
  | cons p ps ih =>
    cases qs with
    | nil => simp at hl
    | cons q qs =>
      simp only [List.map_cons, List.cons.injEq] at h
      have hp := hf p (by simp) q (by simp) h.1
      have ht := ih qs (by simpa using hl)
        (fun p hp q hq => hf p (by simp [hp]) q (by simp [hq])) h.2
      rw [hp, ht]

/-- Levels of one length with one reduction are equal, unless two different combined pairs
give the same node. -/
theorem reduce_inj (node : α → α → α) (rounds : Nat) (xs ys : List α)
    (hl : xs.length = ys.length)
    (hc : ∀ p ∈ combined node rounds xs, ∀ q ∈ combined node rounds ys,
      node p.1 p.2 = node q.1 q.2 → p = q)
    (h : reduce node rounds xs = reduce node rounds ys) : xs = ys := by
  induction rounds generalizing xs ys with
  | zero => exact h
  | succ rounds ih =>
    rw [reduce, reduce, hl] at h
    rw [combined, combined, hl] at hc
    split_ifs at h hc with hx
    · have ha : above node xs = above node ys :=
        ih _ _ (by rw [above_length, above_length, hl])
          (fun p hp q hq => hc p (by simp [hp]) q (by simp [hq])) h
      have hpl : (pad xs).length = (pad ys).length := by rw [pad_length, pad_length, hl]
      have hp : pairs (pad xs) = pairs (pad ys) :=
        map_inj_of_length _ _ _ (by rw [pairs_length, pairs_length, hpl])
          (fun p hp q hq => hc p (by simp [hp]) q (by simp [hq])) ha
      exact pad_inj xs ys hl (eq_of_pairs_eq _ _ hpl (by rw [pad_length]; omega) hp)
    · exact h

end Merkle
