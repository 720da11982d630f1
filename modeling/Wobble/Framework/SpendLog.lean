import Wobble.Framework.HashMap

open Rust

namespace SpendLog

/-- One atomic update of a store: some keys go, some come in. -/
structure Entry (K V : Type) where
  spends : List K
  creates : List (K × V)

variable {K V : Type}

def spent (entries : List (Entry K V)) : List K := entries.flatMap Entry.spends

def created (entries : List (Entry K V)) : List (K × V) := entries.flatMap Entry.creates

variable [DecidableEq K]

def apply (m : HashMap K V) (entry : Entry K V) : HashMap K V :=
  (m.removeAll entry.spends).insertAll entry.creates

def applyAll (m : HashMap K V) (entries : List (Entry K V)) : HashMap K V :=
  entries.foldl apply m

/-- An entry spends each key once, and only keys that are there. -/
def Spendable (m : HashMap K V) (entry : Entry K V) : Prop :=
  entry.spends.Nodup ∧ ∀ k ∈ entry.spends, ∃ v, m.get k = some v

/-- Each entry is spendable where it is applied. -/
def Applicable : HashMap K V → List (Entry K V) → Prop
  | _, [] => True
  | m, entry :: rest => Spendable m entry ∧ Applicable (apply m entry) rest

theorem applicable_append (m : HashMap K V) (es fs : List (Entry K V)) :
    Applicable m (es ++ fs) ↔ Applicable m es ∧ Applicable (applyAll m es) fs := by
  induction es generalizing m with
  | nil => simp [Applicable, applyAll]
  | cons entry es ih =>
    rw [List.cons_append, Applicable, Applicable, ih, and_assoc]
    rfl

theorem applyAll_append (m : HashMap K V) (es fs : List (Entry K V)) :
    applyAll m (es ++ fs) = applyAll (applyAll m es) fs :=
  List.foldl_append

/-- Where no key is created twice, the store holds what was created and not spent. -/
structure Accounts (entries : List (Entry K V)) : Prop where
  once : (spent entries).Nodup
  earlier : ∀ k ∈ spent entries, k ∈ (created entries).map Prod.fst
  held : ∀ k v, (applyAll HashMap.new entries).get k = some v ↔
    (k, v) ∈ created entries ∧ k ∉ spent entries

theorem get_apply (m : HashMap K V) (entry : Entry K V) (hn : (entry.creates.map Prod.fst).Nodup)
    (k : K) (v : V) :
    (apply m entry).get k = some v ↔ (k, v) ∈ entry.creates ∨
      (k ∉ entry.creates.map Prod.fst ∧ k ∉ entry.spends ∧ m.get k = some v) := by
  rw [apply, HashMap.get_insertAll_iff _ _ hn, HashMap.get_removeAll]
  by_cases hs : k ∈ entry.spends <;> simp [hs]

theorem accounts (entries : List (Entry K V)) (ha : Applicable HashMap.new entries)
    (hn : ((created entries).map Prod.fst).Nodup) : Accounts entries := by
  induction entries using List.reverseRecOn with
  | nil => exact ⟨List.nodup_nil, by simp [spent], by simp [applyAll, created]⟩
  | append_singleton es e ih =>
    have hcreated : created (es ++ [e]) = created es ++ e.creates := by simp [created]
    have hspent : spent (es ++ [e]) = spent es ++ e.spends := by simp [spent]
    rw [applicable_append] at ha
    obtain ⟨haes, ⟨hnodup, hheld⟩, -⟩ := ha
    rw [hcreated, List.map_append, List.nodup_append] at hn
    obtain ⟨hnes, hne, hdisj⟩ := hn
    obtain ⟨honce, hearlier, hget⟩ := ih haes hnes
    -- what is spent now was created before and not spent since
    have hnow : ∀ k ∈ e.spends, k ∈ (created es).map Prod.fst ∧ k ∉ spent es := by
      intro k hk
      obtain ⟨v, hv⟩ := hheld k hk
      obtain ⟨hc, hs⟩ := (hget k v).mp hv
      exact ⟨List.mem_map_of_mem hc, hs⟩
    have hfresh : ∀ k ∈ e.creates.map Prod.fst, k ∉ spent es ∧ k ∉ e.spends := by
      intro k hk
      have hnot : k ∉ (created es).map Prod.fst := fun h => hdisj k h k hk rfl
      exact ⟨fun h => hnot (hearlier k h), fun h => hnot (hnow k h).1⟩
    constructor
    · rw [hspent, List.nodup_append]
      refine ⟨honce, hnodup, ?_⟩
      intro k hk k' hk' he
      exact (hnow k' hk').2 (he ▸ hk)
    · intro k hk
      rw [hcreated, List.map_append, List.mem_append]
      rw [hspent, List.mem_append] at hk
      rcases hk with hk | hk
      · exact .inl (hearlier k hk)
      · exact .inl (hnow k hk).1
    · intro k v
      rw [applyAll_append, hcreated, hspent, List.mem_append, List.mem_append, not_or]
      change (apply (applyAll HashMap.new es) e).get k = some v ↔ _
      rw [get_apply _ e hne, hget]
      constructor
      · intro h
        rcases h with h | ⟨-, hs, hc, hs'⟩
        · exact ⟨.inr h, hfresh k (List.mem_map_of_mem h)⟩
        · exact ⟨.inl hc, hs', hs⟩
      · intro h
        obtain ⟨hc, hs', hs⟩ := h
        rcases hc with hc | hc
        · have hold : k ∈ (created es).map Prod.fst := List.mem_map_of_mem hc
          exact .inr ⟨fun h => hdisj k hold k h rfl, hs, hc, hs'⟩
        · exact .inl hc

/-- What is held is worth what was created less what was spent. -/
theorem Accounts.total {entries : List (Entry K V)} (h : Accounts entries)
    (hn : ((created entries).map Prod.fst).Nodup) (f : V → Nat) (value : K → Nat)
    (hvalue : ∀ p ∈ created entries, value p.1 = f p.2) :
    (applyAll HashMap.new entries).total f + ((spent entries).map value).sum =
      ((created entries).map fun p => f p.2).sum := by
  set kept := (created entries).filter fun p => !decide (p.1 ∈ spent entries) with hkept
  set gone := (created entries).filter fun p => decide (p.1 ∈ spent entries) with hgone
  have hnk : (kept.map Prod.fst).Nodup := hn.sublist (List.filter_sublist.map _)
  have hng : (gone.map Prod.fst).Nodup := hn.sublist (List.filter_sublist.map _)
  have hheld : applyAll HashMap.new entries = HashMap.new.insertAll kept := by
    refine HashMap.ext _ _ fun k => Option.ext fun v => ?_
    rw [h.held, HashMap.get_new_insertAll_iff _ hnk, hkept, List.mem_filter]
    simp
  have hspent : (gone.map Prod.fst).Perm (spent entries) := by
    refine (List.perm_ext_iff_of_nodup hng h.once).mpr fun k => ?_
    constructor
    · intro hk
      obtain ⟨p, hp, rfl⟩ := List.mem_map.mp hk
      exact of_decide_eq_true (List.mem_filter.mp hp).2
    · intro hk
      obtain ⟨p, hp, rfl⟩ := List.mem_map.mp (h.earlier k hk)
      exact List.mem_map_of_mem (List.mem_filter.mpr ⟨hp, decide_eq_true hk⟩)
  have htotal := HashMap.total_insertAll f HashMap.new kept hnk
  have hvalues : ((gone.map Prod.fst).map value).sum = (gone.map fun p => f p.2).sum := by
    rw [List.map_map]
    exact congrArg List.sum
      (List.map_congr_left fun p hp => hvalue p (List.mem_of_mem_filter hp))
  have hall := ((List.filter_append_perm (fun p => decide (p.1 ∈ spent entries))
    (created entries)).map fun p => f p.2).sum_eq
  rw [← (hspent.map value).sum_eq, hvalues, hheld, ← hall, List.map_append, List.sum_append,
    ← hkept, ← hgone]
  simp only [HashMap.get_new, Option.elim_none, List.map_const', List.sum_replicate,
    smul_zero, HashMap.total_new] at htotal
  omega

/-- What an entry spends was created by the entries before it. -/
theorem created_before (before after : List (Entry K V)) (entry : Entry K V)
    (ha : Applicable HashMap.new (before ++ entry :: after))
    (hn : ((created (before ++ entry :: after)).map Prod.fst).Nodup) (k : K)
    (hk : k ∈ entry.spends) : ∃ v, (k, v) ∈ created before := by
  rw [applicable_append] at ha
  obtain ⟨habefore, ⟨-, hheld⟩, -⟩ := ha
  have hsplit : created (before ++ entry :: after) =
      created before ++ created (entry :: after) := by simp [created]
  rw [hsplit, List.map_append] at hn
  obtain ⟨v, hv⟩ := hheld k hk
  exact ⟨v, (((accounts before habefore hn.of_append_left).held k v).mp hv).1⟩

end SpendLog
