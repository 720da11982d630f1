import Mathlib

namespace GrowingTree

/-- How the entries of an index are read as the nodes of a weighted tree. -/
structure View (E H : Type) where
  key : E → H
  height : E → Nat
  work : E → Nat
  parent : E → Option H

variable {E H : Type} (v : View E H)

/-- `child` hangs below `p`: one level down, with more accumulated work. -/
structure View.Below (p child : E) : Prop where
  parent : v.parent child = some (v.key p)
  height : v.height child = v.height p + 1
  work : v.work p < v.work child

/-- The insertion orders of a single tree: a root first, then one fresh child at a time. -/
inductive Grown : List E → Prop where
  | empty : Grown []
  | root (e : E) (hp : v.parent e = none) (hh : v.height e = 0) : Grown [e]
  | child {log : List E} {p : E} (e : E) (hg : Grown log) (hp : p ∈ log)
      (hk : ∀ e' ∈ log, v.key e' ≠ v.key e) (hb : v.Below p e) : Grown (log ++ [e])

/-- Follows parent pointers from a key; `none` when the steps run out first. -/
def walkUp (get : H → Option E) : Nat → Option H → Option (List E)
  | _, none => some []
  | 0, some _ => none
  | steps + 1, some h =>
    match get h with
    | none => some []
    | some e => (walkUp get steps (v.parent e)).map fun above => e :: above

section Path

/-- The entries from the root down to a key. -/
inductive Path (get : H → Option E) : Option H → List E → Prop where
  | nil : Path get none []
  | snoc {h : H} {e : E} {es : List E} (he : get h = some e) (hes : Path get (v.parent e) es) :
      Path get (some h) (es ++ [e])

variable {v} {get get' : H → Option E}

theorem Path.unique {start : Option H} {es es' : List E} (h : Path v get start es)
    (h' : Path v get start es') : es = es' := by
  induction h generalizing es' with
  | nil =>
    cases h'
    rfl
  | snoc he hes ih =>
    cases h' with
    | snoc he' hes' =>
      obtain rfl := Option.some.inj (he.symm.trans he')
      rw [ih hes']

theorem Path.mono {start : Option H} {es : List E} (hp : Path v get start es)
    (hsub : ∀ h e, get h = some e → get' h = some e) : Path v get' start es := by
  induction hp with
  | nil => exact .nil
  | snoc he hes ih => exact .snoc (hsub _ _ he) ih

theorem Path.walkUp {start : Option H} {es : List E} (hp : Path v get start es) (steps : Nat)
    (hs : es.length ≤ steps) : walkUp v get steps start = some es.reverse := by
  induction hp generalizing steps with
  | nil => cases steps <;> rfl
  | snoc he hes ih =>
    rw [List.length_append, List.length_singleton] at hs
    obtain ⟨steps, rfl⟩ := Nat.exists_eq_add_one_of_ne_zero (by omega : steps ≠ 0)
    rw [GrowingTree.walkUp, he, List.reverse_append]
    simp only [ih steps (by omega), Option.map_some]
    rfl

theorem Path.getLast? {start : Option H} {es : List E} (hp : Path v get start es) :
    es.getLast? = start.bind get := by
  cases hp with
  | nil => rfl
  | snoc he hes => simp [he]

/-- Work grows along a path when it grows from a parent to its child. -/
theorem Path.work_increasing {start : Option H} {es : List E} (hp : Path v get start es)
    (hwork : ∀ h e, get h = some e → ∀ p, (v.parent e).bind get = some p → v.work p < v.work e) :
    es.Pairwise fun a b => v.work a < v.work b := by
  refine List.IsChain.pairwise ?_
  induction hp with
  | nil => exact .nil
  | snoc he hes ih =>
    refine List.isChain_append.mpr ⟨ih, .singleton _, fun p hlast e' hhead => ?_⟩
    rw [hes.getLast?] at hlast
    obtain rfl : _ = e' := by simpa using hhead
    exact hwork _ _ he p hlast

theorem Path.upTo {start : Option H} {es before after : List E} {e : E}
    (hp : Path v get start es) (hkey : ∀ h e, get h = some e → v.key e = h)
    (hes : es = before ++ e :: after) : Path v get (some (v.key e)) (before ++ [e]) := by
  induction hp generalizing after with
  | nil => simp at hes
  | @snoc h last rest hget hrest ih =>
    rcases List.eq_nil_or_concat after with rfl | ⟨after, x, rfl⟩
    · obtain ⟨rfl, hlast⟩ := List.append_inj' hes rfl
      obtain rfl : last = e := by simpa using hlast
      rw [hkey h last hget]
      exact .snoc hget hrest
    · rw [List.concat_eq_append, ← List.cons_append, ← List.append_assoc] at hes
      exact ih (List.append_inj' hes rfl).1

end Path

/-- `argmax` picks the first of the maximal elements. -/
theorem argmax_split (f : E → Nat) (l : List E) (m : E) (hm : l.argmax f = some m) :
    ∃ before after, l = before ++ m :: after ∧ (∀ a ∈ before, f a < f m) ∧
      ∀ a ∈ after, f a ≤ f m := by
  classical
  obtain ⟨hmem, hmax, hfirst⟩ := List.argmax_eq_some_iff.mp hm
  obtain ⟨before, after, rfl, hnot⟩ := List.eq_append_cons_of_mem hmem
  refine ⟨before, after, rfl, ?_, fun a ha => hmax a (by simp [ha])⟩
  intro a ha
  by_contra hle
  have hidx := hfirst a (by simp [ha]) (not_lt.mp hle)
  have hlt := List.idxOf_lt_length_of_mem ha
  rw [List.idxOf_append_of_notMem hnot, List.idxOf_append_of_mem ha] at hidx
  omega

theorem argmax_perm (f : E → Nat) (l l' : List E) (hperm : l.Perm l') :
    (l.argmax f).map f = (l'.argmax f).map f := by
  cases hm : l.argmax f with
  | none =>
    rw [List.argmax_eq_none] at hm
    rw [hm, List.nil_perm] at hperm
    rw [hperm]
    rfl
  | some m =>
    cases hm' : l'.argmax f with
    | none =>
      rw [List.argmax_eq_none] at hm'
      rw [hm', List.perm_nil] at hperm
      rw [hperm] at hm
      cases hm
    | some m' =>
      have hle := List.le_of_mem_argmax (hperm.mem_iff.mp (List.argmax_mem hm)) hm'
      have hge := List.le_of_mem_argmax (hperm.mem_iff.mpr (List.argmax_mem hm')) hm
      exact congrArg some (le_antisymm hle hge)

/-- In a sorted list that is the least of them. -/
theorem argmax_le_of_sorted {κ : Type} [LinearOrder κ] (key : E → κ) (f : E → Nat) (l : List E)
    (m a : E) (hs : l.Pairwise fun x y => key x ≤ key y) (hm : l.argmax f = some m) (ha : a ∈ l)
    (hf : f a = f m) : key m ≤ key a := by
  obtain ⟨before, after, rfl, hlt, -⟩ := argmax_split f l m hm
  rw [List.pairwise_append, List.pairwise_cons] at hs
  rcases List.mem_append.mp ha with hbefore | hafter
  · exact absurd hf (hlt a hbefore).ne
  · rcases List.mem_cons.mp hafter with rfl | hafter
    · exact le_refl _
    · exact hs.2.1.1 a hafter

namespace Grown

variable {v} {log : List E}

theorem keys_nodup (hg : Grown v log) : (log.map v.key).Nodup := by
  induction hg with
  | empty => simp
  | root e => simp
  | child e _ _ hk _ ih =>
    rw [List.map_append, List.nodup_append]
    refine ⟨ih, by simp, ?_⟩
    intro a ha b hb
    obtain ⟨e', he', rfl⟩ := List.mem_map.mp ha
    obtain rfl : b = v.key e := by simpa using hb
    exact hk e' he'

theorem key_inj (hg : Grown v log) (e e' : E) (he : e ∈ log) (he' : e' ∈ log)
    (h : v.key e = v.key e') : e = e' :=
  List.inj_on_of_nodup_map hg.keys_nodup he he' h

/-- The first entry is the only one without a parent, and the only one at height 0. -/
theorem head_root (hg : Grown v log) (hn : log ≠ []) :
    ∃ r, log.head? = some r ∧ v.parent r = none ∧ v.height r = 0 ∧
      ∀ e ∈ log, e ≠ r → ∃ p ∈ log, v.Below p e := by
  induction hg with
  | empty => exact absurd rfl hn
  | root e hp hh => exact ⟨e, rfl, hp, hh, fun e' he' hne => absurd (by simpa using he') hne⟩
  | @child log p e hg hp hk hb ih =>
    have hl : log ≠ [] := List.ne_nil_of_mem hp
    obtain ⟨r, hr, hpar, hht, hrest⟩ := ih hl
    refine ⟨r, by simp [List.head?_append, hr], hpar, hht, ?_⟩
    intro e' he' hne
    rcases List.mem_append.mp he' with h | h
    · obtain ⟨q, hq, hqb⟩ := hrest e' h hne
      exact ⟨q, by simp [hq], hqb⟩
    · obtain rfl : e' = e := by simpa using h
      exact ⟨p, by simp [hp], hb⟩

theorem below_of_parent (hg : Grown v log) (e : E) (he : e ∈ log) (h : H)
    (hp : v.parent e = some h) : ∃ p ∈ log, v.key p = h ∧ v.Below p e := by
  obtain ⟨r, -, hpar, -, hrest⟩ := hg.head_root (List.ne_nil_of_mem he)
  have hne : e ≠ r := by rintro rfl; simp [hpar] at hp
  obtain ⟨p, hpm, hb⟩ := hrest e he hne
  exact ⟨p, hpm, Option.some.inj (hb.parent.symm.trans hp), hb⟩

theorem parent_none_iff (hg : Grown v log) (e : E) (he : e ∈ log) :
    v.parent e = none ↔ log.head? = some e := by
  obtain ⟨r, hr, hpar, -, hrest⟩ := hg.head_root (List.ne_nil_of_mem he)
  constructor
  · intro hp
    by_contra hne
    have hne' : e ≠ r := by rintro rfl; exact hne hr
    obtain ⟨p, -, hb⟩ := hrest e he hne'
    exact absurd hb.parent (by simp [hp])
  · intro hh
    obtain rfl : r = e := Option.some.inj (hr.symm.trans hh)
    exact hpar

theorem height_eq_zero (hg : Grown v log) (e : E) (he : e ∈ log) (hp : v.parent e = none) :
    v.height e = 0 := by
  obtain ⟨r, hr, -, hh, -⟩ := hg.head_root (List.ne_nil_of_mem he)
  obtain rfl : r = e := Option.some.inj (hr.symm.trans ((hg.parent_none_iff e he).mp hp))
  exact hh

theorem height_lt_length (hg : Grown v log) (e : E) (he : e ∈ log) :
    v.height e < log.length := by
  induction hg generalizing e with
  | empty => simp at he
  | root r _ hh =>
    obtain rfl : e = r := by simpa using he
    simp [hh]
  | @child log p r _ hp _ hb ih =>
    rw [List.length_append]
    rcases List.mem_append.mp he with h | h
    · have := ih e h
      omega
    · obtain rfl : e = r := by simpa using h
      have := ih p hp
      have := hb.height
      simp only [List.length_singleton]
      omega

/-- An entry of maximal work has no child. -/
theorem no_child_of_max (hg : Grown v log) (m : E) (hm : m ∈ log)
    (hmax : ∀ e ∈ log, v.work e ≤ v.work m) (e : E) (he : e ∈ log) :
    v.parent e ≠ some (v.key m) := by
  intro hp
  obtain ⟨p, hpm, hk, hb⟩ := hg.below_of_parent e he _ hp
  obtain rfl := hg.key_inj p m hpm hm hk
  have hw := hb.work
  have hle := hmax e he
  omega

/-- From any entry the walk comes to the root after exactly `height` parent pointers. -/
theorem walkUp_heights (hg : Grown v log) (get : H → Option E)
    (hget : ∀ e ∈ log, get (v.key e) = some e) (n : Nat) (e : E) (he : e ∈ log)
    (hn : v.height e = n) (steps : Nat) (hs : n < steps) :
    ∃ above, walkUp v get steps (some (v.key e)) = some above ∧
      above.map v.height = (List.range (n + 1)).reverse ∧ (∀ a ∈ above, a ∈ log) ∧
      above.head? = some e ∧ ∀ a, above.getLast? = some a → v.parent a = none := by
  induction n generalizing e steps with
  | zero =>
    obtain ⟨steps, rfl⟩ := Nat.exists_eq_add_one_of_ne_zero (by omega : steps ≠ 0)
    have hp : v.parent e = none := by
      cases hp : v.parent e with
      | none => rfl
      | some h =>
        obtain ⟨p, -, -, hb⟩ := hg.below_of_parent e he h hp
        have := hb.height
        omega
    exact ⟨[e], by simp [walkUp, hget e he, hp], by simp [hn], by simpa using he, rfl,
      by simpa using hp⟩
  | succ n ih =>
    obtain ⟨steps, rfl⟩ := Nat.exists_eq_add_one_of_ne_zero (by omega : steps ≠ 0)
    cases hp : v.parent e with
    | none =>
      have := hg.height_eq_zero e he hp
      omega
    | some h =>
      obtain ⟨p, hpm, rfl, hb⟩ := hg.below_of_parent e he h hp
      have hph := hb.height
      obtain ⟨above, hw, hh, hm, hhd, hlast⟩ := ih p hpm (by omega) steps (by omega)
      have hne : above ≠ [] := by rintro rfl; simp at hhd
      refine ⟨e :: above, by simp [walkUp, hget e he, hp, hw], ?_, ?_, rfl, ?_⟩
      · rw [List.map_cons, hh, hn, List.range_succ (n := n + 1), List.reverse_append]
        rfl
      · intro a ha
        rcases List.mem_cons.mp ha with rfl | ha
        · exact he
        · exact hm a ha
      · rw [List.getLast?_cons_of_ne_nil hne]
        exact hlast

/-- Every entry has its path from the root, one entry for each level. -/
theorem exists_path (hg : Grown v log) (get : H → Option E)
    (hget : ∀ e ∈ log, get (v.key e) = some e) (n : Nat) (e : E) (he : e ∈ log)
    (hn : v.height e = n) :
    ∃ es, Path v get (some (v.key e)) es ∧ es.length = n + 1 ∧ ∀ a ∈ es, a ∈ log := by
  induction n generalizing e with
  | zero =>
    have hp : v.parent e = none := by
      cases hp : v.parent e with
      | none => rfl
      | some h =>
        obtain ⟨p, -, -, hb⟩ := hg.below_of_parent e he h hp
        have hh := hb.height
        omega
    have hpath : Path v get (some (v.key e)) ([] ++ [e]) := .snoc (hget e he) (hp ▸ .nil)
    exact ⟨[e], hpath, rfl, by simpa using he⟩
  | succ n ih =>
    cases hp : v.parent e with
    | none =>
      have hh := hg.height_eq_zero e he hp
      omega
    | some h =>
      obtain ⟨p, hpm, rfl, hb⟩ := hg.below_of_parent e he h hp
      have hh := hb.height
      obtain ⟨es, hes, hlen, hmem⟩ := ih p hpm (by omega)
      refine ⟨es ++ [e], .snoc (hget e he) (hp ▸ hes), by simp [hlen], ?_⟩
      intro a ha
      rcases List.mem_append.mp ha with ha | ha
      · exact hmem a ha
      · obtain rfl : a = e := by simpa using ha
        exact he

/-- What the last insertion needed: a new key, and the parent already there unless the tree was
empty. -/
theorem concat_inv {e : E} (hg : Grown v (log ++ [e])) :
    Grown v log ∧ (∀ e' ∈ log, v.key e' ≠ v.key e) ∧ (v.parent e = none → log = []) ∧
      ∀ h, v.parent e = some h → ∃ p ∈ log, v.key p = h := by
  generalize horder : log ++ [e] = order at hg
  cases hg with
  | empty => simp at horder
  | root r hp hh =>
    have hlen := congrArg List.length horder
    obtain rfl : log = [] := by simpa using hlen
    obtain rfl : e = r := by simpa using horder
    exact ⟨.empty, by simp, fun _ => rfl, by simp [hp]⟩
  | @child log' p c hg hp hk hb =>
    obtain ⟨rfl, hlast⟩ := List.append_inj' horder rfl
    obtain rfl : e = c := by simpa using hlast
    refine ⟨hg, hk, by simp [hb.parent], ?_⟩
    intro h hpar
    exact ⟨p, hp, Option.some.inj (hb.parent.symm.trans hpar)⟩

/-- Entries of the tree can be inserted in any order that has each parent before its children. -/
theorem of_parents_first (hg : Grown v log) (order : List E) (hsub : ∀ e ∈ order, e ∈ log)
    (hnodup : (order.map v.key).Nodup)
    (hfirst : ∀ before e after, order = before ++ e :: after →
      (v.parent e = none → before = []) ∧
        ∀ h, v.parent e = some h → ∃ p ∈ before, v.key p = h) : Grown v order := by
  induction order using List.reverseRecOn with
  | nil => exact .empty
  | append_singleton init e ih =>
    rw [List.map_append, List.nodup_append] at hnodup
    have hinit : Grown v init := by
      refine ih (fun e' he' => hsub e' (List.mem_append_left _ he')) hnodup.1 ?_
      intro before e' after heq
      exact hfirst before e' (after ++ [e]) (by rw [heq, List.append_assoc, List.cons_append])
    have he : e ∈ log := hsub e (by simp)
    obtain ⟨hroot, hchild⟩ := hfirst init e [] rfl
    cases hp : v.parent e with
    | none =>
      rw [hroot hp]
      exact .root e hp (hg.height_eq_zero e he hp)
    | some h =>
      obtain ⟨p, hpm, hk⟩ := hchild h hp
      obtain ⟨p', hpm', hk', hb⟩ := hg.below_of_parent e he h hp
      obtain rfl := hg.key_inj p p' (hsub p (List.mem_append_left _ hpm)) hpm' (hk.trans hk'.symm)
      refine .child e hinit hpm ?_ hb
      intro e' he'
      exact hnodup.2.2 _ (List.mem_map_of_mem he') _ (List.mem_singleton_self _)

/-- Parents before children is enough: the only entry without a parent then comes first. -/
theorem of_linear_order (hg : Grown v log) (order : List E) (hsub : ∀ e ∈ order, e ∈ log)
    (hnodup : (order.map v.key).Nodup)
    (hfirst : ∀ before e after, order = before ++ e :: after →
      ∀ h, v.parent e = some h → ∃ p ∈ before, v.key p = h) : Grown v order := by
  refine hg.of_parents_first order hsub hnodup ?_
  intro before e after horder
  refine ⟨fun hp => ?_, hfirst before e after horder⟩
  cases before with
  | nil => rfl
  | cons r rest =>
    have hroot : v.parent r = none := by
      cases hr : v.parent r with
      | none => rfl
      | some h =>
        obtain ⟨p, hpm, -⟩ := hfirst [] r (rest ++ e :: after) horder h hr
        cases hpm
    have hhead := (hg.parent_none_iff r (hsub r (by simp [horder]))).mp hroot
    have hhead' := (hg.parent_none_iff e (hsub e (by simp [horder]))).mp hp
    obtain rfl : r = e := Option.some.inj (hhead.symm.trans hhead')
    simp [horder] at hnodup

/-- By height is such an order. -/
theorem of_sorted (hg : Grown v log) (order : List E) (hperm : order.Perm log)
    (hsorted : order.Pairwise fun a b => v.height a ≤ v.height b) : Grown v order := by
  have hnodup : (order.map v.key).Nodup := (hperm.map v.key).nodup_iff.mpr hg.keys_nodup
  refine hg.of_parents_first order (fun e he => hperm.mem_iff.mp he) hnodup ?_
  intro before e after heq
  rw [heq, List.pairwise_append, List.pairwise_cons] at hsorted
  rw [heq, List.map_append, List.nodup_append] at hnodup
  have he : e ∈ log := hperm.mem_iff.mp (by simp [heq])
  constructor
  · intro hp
    refine List.eq_nil_iff_forall_not_mem.mpr fun a ha => ?_
    have hle := hsorted.2.2 a ha e List.mem_cons_self
    rw [hg.height_eq_zero e he hp] at hle
    have hal : a ∈ log := hperm.mem_iff.mp (by simp [heq, ha])
    -- nothing but the root is at height 0
    have hpa : v.parent a = none := by
      cases hpa : v.parent a with
      | none => rfl
      | some h =>
        obtain ⟨p, -, -, hb⟩ := hg.below_of_parent a hal h hpa
        have hh := hb.height
        omega
    obtain rfl : a = e := Option.some.inj
      (((hg.parent_none_iff a hal).mp hpa).symm.trans ((hg.parent_none_iff e he).mp hp))
    exact hnodup.2.2 _ (List.mem_map_of_mem ha) _ (List.mem_map_of_mem List.mem_cons_self) rfl
  · intro h hp
    obtain ⟨p, hpm, hk, hb⟩ := hg.below_of_parent e he h hp
    have hh := hb.height
    have hmem : p ∈ before ++ e :: after := heq ▸ hperm.mem_iff.mpr hpm
    rcases List.mem_append.mp hmem with hbefore | hafter
    · exact ⟨p, hbefore, hk⟩
    · rcases List.mem_cons.mp hafter with rfl | hafter
      · omega
      · have hle := hsorted.2.1.1 p hafter
        omega

end Grown

end GrowingTree
