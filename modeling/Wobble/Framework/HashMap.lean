import Wobble.Framework.Rust

namespace Rust

/-- `HashMap<K, V>` up to its unspecified iteration order: two maps with the same lookups
are equal. -/
def HashMap (K V : Type) : Type := Finmap fun _ : K => V

namespace HashMap

variable {K V : Type} [DecidableEq K]

instance [DecidableEq V] : DecidableEq (HashMap K V) :=
  inferInstanceAs (DecidableEq (Finmap fun _ : K => V))

def new : HashMap K V := (∅ : Finmap fun _ : K => V)

def get (m : HashMap K V) (k : K) : Option V := Finmap.lookup k m

def insert (m : HashMap K V) (k : K) (v : V) : HashMap K V := Finmap.insert k v m

def remove (m : HashMap K V) (k : K) : HashMap K V := Finmap.erase k m

def containsKey (m : HashMap K V) (k : K) : Bool := (m.get k).isSome

/-- `entry(k).or_insert(v)`: the value already stored wins. -/
def orInsert (m : HashMap K V) (k : K) (v : V) : HashMap K V :=
  if m.containsKey k then m else m.insert k v

def keys (m : HashMap K V) : Finset K := Finmap.keys m

def len (m : HashMap K V) : Nat := m.keys.card

def isEmpty (m : HashMap K V) : Bool := m.len == 0

def removeAll (m : HashMap K V) (ks : List K) : HashMap K V := ks.foldl remove m

def insertAll (m : HashMap K V) (kvs : List (K × V)) : HashMap K V :=
  kvs.foldl (fun m kv => m.insert kv.1 kv.2) m

theorem ext (m m' : HashMap K V) (h : ∀ k, m.get k = m'.get k) : m = m' :=
  Finmap.ext_lookup h

@[simp] theorem get_new (k : K) : (new : HashMap K V).get k = none :=
  Finmap.lookup_empty k

@[simp] theorem get_insert (m : HashMap K V) (k k' : K) (v : V) :
    (m.insert k v).get k' = if k' = k then some v else m.get k' := by
  split_ifs with h
  · subst h
    exact Finmap.lookup_insert m
  · exact Finmap.lookup_insert_of_ne m h

@[simp] theorem get_remove (m : HashMap K V) (k k' : K) :
    (m.remove k).get k' = if k' = k then none else m.get k' := by
  split_ifs with h
  · subst h
    exact Finmap.lookup_erase k' m
  · exact Finmap.lookup_erase_ne h

theorem insert_of_get (m : HashMap K V) (k : K) (v : V) (h : m.get k = some v) :
    m.insert k v = m := by
  refine ext _ _ fun k' => ?_
  rw [get_insert]
  split_ifs with hk
  · rw [hk, h]
  · rfl

theorem insert_eq_self_iff (m : HashMap K V) (k : K) (v : V) :
    m.insert k v = m ↔ m.get k = some v := by
  refine ⟨fun h => ?_, m.insert_of_get k v⟩
  rw [← h, get_insert, if_pos rfl]

theorem orInsert_of_get (m : HashMap K V) (k : K) (v w : V) (h : m.get k = some w) :
    m.orInsert k v = m := by
  simp [orInsert, containsKey, h]

theorem orInsert_of_get_none (m : HashMap K V) (k : K) (v : V) (h : m.get k = none) :
    m.orInsert k v = m.insert k v := by
  simp [orInsert, containsKey, h]

/-- `entry(key(v)).or_insert(v)` for one value after the other. -/
def collect (key : V → K) (m : HashMap K V) (values : List V) : HashMap K V :=
  values.foldl (fun m v => m.orInsert (key v) v) m

/-- Where the key of a value determines it, no value is lost. -/
theorem get_collect (key : V → K) (all values : List V) (m : HashMap K V)
    (hinj : ∀ a ∈ all, ∀ b ∈ all, key a = key b → a = b)
    (hm : ∀ k v, m.get k = some v → v ∈ all ∧ key v = k) (hv : ∀ v ∈ values, v ∈ all)
    (k : K) (v : V) :
    (m.collect key values).get k = some v ↔ m.get k = some v ∨ v ∈ values ∧ key v = k := by
  induction values generalizing m with
  | nil => simp [collect]
  | cons w rest ih =>
    obtain ⟨hw, hrest⟩ := List.forall_mem_cons.mp hv
    have hstep : ∀ k v, (m.orInsert (key w) w).get k = some v ↔
        m.get k = some v ∨ v = w ∧ key w = k := by
      intro k v
      cases hold : m.get (key w) with
      | none =>
        rw [orInsert_of_get_none m _ _ hold, get_insert]
        by_cases hk : k = key w
        · subst hk
          simp [hold, eq_comm]
        · simp [hk, Ne.symm hk]
      | some old =>
        obtain ⟨hmem, hkey⟩ := hm _ _ hold
        obtain rfl : old = w := hinj old hmem w hw hkey
        rw [orInsert_of_get m _ _ old hold]
        constructor
        · exact Or.inl
        · intro h
          rcases h with h | ⟨rfl, rfl⟩
          · exact h
          · exact hold
    have hnext : ∀ k v, (m.orInsert (key w) w).get k = some v → v ∈ all ∧ key v = k := by
      intro k v h
      rcases (hstep k v).mp h with h | ⟨rfl, rfl⟩
      · exact hm k v h
      · exact ⟨hw, rfl⟩
    have hih := ih (m.orInsert (key w) w) hnext hrest
    change ((m.orInsert (key w) w).collect key rest).get k = some v ↔ _
    rw [hih, hstep, List.mem_cons]
    constructor
    · intro h
      rcases h with (h | ⟨rfl, h⟩) | ⟨h, hk⟩
      · exact .inl h
      · exact .inr ⟨.inl rfl, h⟩
      · exact .inr ⟨.inr h, hk⟩
    · intro h
      rcases h with h | ⟨rfl | h, hk⟩
      · exact .inl (.inl h)
      · exact .inl (.inr ⟨rfl, hk⟩)
      · exact .inr ⟨h, hk⟩

@[simp] theorem containsKey_eq_true (m : HashMap K V) (k : K) :
    m.containsKey k = true ↔ ∃ v, m.get k = some v := Option.isSome_iff_exists

@[simp] theorem containsKey_eq_false (m : HashMap K V) (k : K) :
    m.containsKey k = false ↔ m.get k = none := by
  simp [containsKey]

theorem mem_keys (m : HashMap K V) (k : K) : k ∈ m.keys ↔ ∃ v, m.get k = some v :=
  Finmap.mem_keys.trans Finmap.mem_iff

theorem keys_insert (m : HashMap K V) (k : K) (v : V) :
    (m.insert k v).keys = Insert.insert k m.keys := by
  ext k'
  simp only [mem_keys, get_insert, Finset.mem_insert]
  split_ifs with h <;> simp [h]

theorem keys_remove (m : HashMap K V) (k : K) : (m.remove k).keys = m.keys.erase k := by
  ext k'
  simp only [mem_keys, get_remove, Finset.mem_erase]
  split_ifs with h <;> simp [h]

theorem keys_new : (new : HashMap K V).keys = ∅ := by
  ext k
  simp [mem_keys]

@[simp] theorem len_new : (new : HashMap K V).len = 0 := by
  rw [len, keys_new, Finset.card_empty]

theorem len_insert_of_get_none (m : HashMap K V) (k : K) (v : V) (h : m.get k = none) :
    (m.insert k v).len = m.len + 1 := by
  unfold len
  rw [keys_insert, Finset.card_insert_of_notMem]
  simp [mem_keys, h]

theorem len_remove_of_get (m : HashMap K V) (k : K) (v : V) (h : m.get k = some v) :
    (m.remove k).len + 1 = m.len := by
  unfold len
  rw [keys_remove, Finset.card_erase_add_one]
  exact (mem_keys m k).mpr ⟨v, h⟩

theorem eq_new_of_sub (m : HashMap K V) (h : ∀ k v, m.get k = some v → new.get k = some v) :
    m = new := by
  refine ext _ _ fun k => ?_
  cases hget : m.get k with
  | none => rw [get_new]
  | some v => exact (h k v hget).symm

theorem len_le_of_sub (m m' : HashMap K V) (h : ∀ k v, m'.get k = some v → m.get k = some v) :
    m'.len ≤ m.len := by
  apply Finset.card_le_card
  intro k hk
  obtain ⟨v, hv⟩ := (mem_keys m' k).mp hk
  exact (mem_keys m k).mpr ⟨v, h k v hv⟩

theorem len_removeAll (m : HashMap K V) (ks : List K) (hn : ks.Nodup)
    (h : ∀ k ∈ ks, ∃ v, m.get k = some v) : (m.removeAll ks).len + ks.length = m.len := by
  induction ks generalizing m with
  | nil => rfl
  | cons k ks ih =>
    obtain ⟨hk, hn⟩ := List.nodup_cons.mp hn
    obtain ⟨v, hv⟩ := h k List.mem_cons_self
    have hrest := ih (m.remove k) hn (by
      intro k' hk'
      obtain ⟨v', hv'⟩ := h k' (List.mem_cons_of_mem k hk')
      have hne : k' ≠ k := fun he => hk (he ▸ hk')
      exact ⟨v', by rw [get_remove, if_neg hne, hv']⟩)
    have hlen := len_remove_of_get m k v hv
    change ((m.remove k).removeAll ks).len + (ks.length + 1) = m.len
    omega

theorem isEmpty_iff (m : HashMap K V) : m.isEmpty = true ↔ ∀ k, m.get k = none := by
  simp only [isEmpty, len, beq_iff_eq, Finset.card_eq_zero, Finset.eq_empty_iff_forall_notMem,
    mem_keys, not_exists, Option.eq_none_iff_forall_not_mem, Option.mem_def]

theorem get_removeAll (m : HashMap K V) (ks : List K) (k : K) :
    (m.removeAll ks).get k = if k ∈ ks then none else m.get k := by
  induction ks generalizing m with
  | nil => simp [removeAll]
  | cons k' ks ih =>
    change ((m.remove k').removeAll ks).get k = _
    rw [ih, get_remove]
    by_cases hk : k = k' <;> by_cases hm : k ∈ ks <;> simp [hk, hm]

theorem get_insertAll_of_notMem (m : HashMap K V) (kvs : List (K × V)) (k : K)
    (h : k ∉ kvs.map Prod.fst) : (m.insertAll kvs).get k = m.get k := by
  induction kvs generalizing m with
  | nil => rfl
  | cons kv kvs ih =>
    have hn : k ≠ kv.1 ∧ k ∉ kvs.map Prod.fst := by simpa [not_or] using h
    change ((m.insert kv.1 kv.2).insertAll kvs).get k = _
    rw [ih _ hn.2, get_insert, if_neg hn.1]

theorem get_insertAll_of_mem (m : HashMap K V) (kvs : List (K × V)) (k : K) (v : V)
    (hn : (kvs.map Prod.fst).Nodup) (h : (k, v) ∈ kvs) : (m.insertAll kvs).get k = some v := by
  induction kvs generalizing m with
  | nil => simp at h
  | cons kv kvs ih =>
    have hn' := List.nodup_cons.mp hn
    change ((m.insert kv.1 kv.2).insertAll kvs).get k = _
    rcases List.mem_cons.mp h with rfl | h
    · rw [get_insertAll_of_notMem _ _ _ hn'.1, get_insert, if_pos rfl]
    · exact ih _ hn'.2 h

theorem get_insertAll_cases (m : HashMap K V) (kvs : List (K × V)) (k : K) :
    (m.insertAll kvs).get k = m.get k ∨ ∃ v, (k, v) ∈ kvs ∧ (m.insertAll kvs).get k = some v := by
  induction kvs generalizing m with
  | nil => exact .inl rfl
  | cons kv kvs ih =>
    change ((m.insert kv.1 kv.2).insertAll kvs).get k = _ ∨
      ∃ v, _ ∧ ((m.insert kv.1 kv.2).insertAll kvs).get k = some v
    rcases ih (m.insert kv.1 kv.2) with h | ⟨v, hv, h⟩
    · rw [get_insert] at h
      by_cases hk : k = kv.1
      · rw [if_pos hk] at h
        exact .inr ⟨kv.2, by rw [hk]; exact List.mem_cons_self, h⟩
      · rw [if_neg hk] at h
        exact .inl h
    · exact .inr ⟨v, List.mem_cons_of_mem _ hv, h⟩

/-- Entries with distinct keys make the map that holds just them. -/
theorem insertAll_eq_of_mem_iff (m : HashMap K V) (kvs : List (K × V))
    (hn : (kvs.map Prod.fst).Nodup) (hmem : ∀ k v, (k, v) ∈ kvs ↔ m.get k = some v) :
    new.insertAll kvs = m := by
  refine ext _ _ fun k => ?_
  cases hk : m.get k with
  | some v => exact get_insertAll_of_mem _ kvs k v hn ((hmem k v).mpr hk)
  | none =>
    refine (get_insertAll_of_notMem _ kvs k fun hin => ?_).trans (get_new k)
    obtain ⟨⟨k', v⟩, hkv, rfl⟩ := List.mem_map.mp hin
    rw [(hmem k' v).mp hkv] at hk
    cases hk

theorem get_insertAll_iff (m : HashMap K V) (kvs : List (K × V)) (hn : (kvs.map Prod.fst).Nodup)
    (k : K) (v : V) :
    (m.insertAll kvs).get k = some v ↔
      (k, v) ∈ kvs ∨ k ∉ kvs.map Prod.fst ∧ m.get k = some v := by
  by_cases hk : k ∈ kvs.map Prod.fst
  · obtain ⟨⟨_, w⟩, hw, rfl⟩ := List.mem_map.mp hk
    rw [get_insertAll_of_mem _ _ _ w hn hw, Option.some.injEq]
    constructor
    · intro he
      exact .inl (he ▸ hw)
    · intro h
      rcases h with h | ⟨hnot, -⟩
      · exact congrArg Prod.snd (List.inj_on_of_nodup_map hn hw h rfl)
      · exact absurd hk hnot
  · have hnot : (k, v) ∉ kvs := fun h => hk (List.mem_map_of_mem h)
    rw [get_insertAll_of_notMem _ _ _ hk, or_iff_right hnot, and_iff_right hk]

theorem get_new_insertAll_iff (kvs : List (K × V)) (hn : (kvs.map Prod.fst).Nodup) (k : K)
    (v : V) : (new.insertAll kvs).get k = some v ↔ (k, v) ∈ kvs := by
  simp [get_insertAll_iff _ kvs hn]

/-- The order of entries with distinct keys does not matter. -/
theorem insertAll_perm (kvs kvs' : List (K × V)) (hp : kvs.Perm kvs')
    (hn : (kvs.map Prod.fst).Nodup) : new.insertAll kvs = new.insertAll kvs' := by
  have hn' : (kvs'.map Prod.fst).Nodup := (hp.map Prod.fst).nodup_iff.mp hn
  refine ext _ _ fun k => Option.ext fun v => ?_
  rw [get_new_insertAll_iff kvs hn, get_new_insertAll_iff kvs' hn', hp.mem_iff]

section Total

variable (f : V → Nat)

/-- The sum of `f` over the stored values, as an unbounded natural. -/
def total (m : HashMap K V) : Nat := ∑ k ∈ m.keys, (m.get k).elim 0 f

@[simp] theorem total_new : (new : HashMap K V).total f = 0 := by
  rw [total, keys_new, Finset.sum_empty]

theorem total_remove (m : HashMap K V) (k : K) (v : V) (h : m.get k = some v) :
    (m.remove k).total f + f v = m.total f := by
  have hk : k ∈ m.keys := (mem_keys m k).mpr ⟨v, h⟩
  have hs : (m.remove k).total f = ∑ k' ∈ m.keys.erase k, (m.get k').elim 0 f := by
    rw [total, keys_remove]
    refine Finset.sum_congr rfl fun k' hk' => ?_
    rw [get_remove, if_neg (Finset.ne_of_mem_erase hk')]
  rw [hs, total, ← Finset.sum_erase_add _ _ hk, h, Option.elim_some]

theorem total_insert_of_get_none (m : HashMap K V) (k : K) (v : V) (h : m.get k = none) :
    (m.insert k v).total f = m.total f + f v := by
  have hk : (m.insert k v).get k = some v := by simp
  have hm : (m.insert k v).remove k = m := by
    refine ext _ _ fun k' => ?_
    by_cases he : k' = k <;> simp [he, h]
  rw [← total_remove f _ k v hk, hm]

/-- An insertion adds the new value and takes out the one it replaces. -/
theorem total_insert (m : HashMap K V) (k : K) (v : V) :
    (m.insert k v).total f + (m.get k).elim 0 f = m.total f + f v := by
  cases hk : m.get k with
  | none => exact total_insert_of_get_none f m k v hk
  | some w =>
    have hr : (m.remove k).insert k v = m.insert k v := by
      refine ext _ _ fun k' => ?_
      by_cases he : k' = k <;> simp [he]
    have hi := total_insert_of_get_none f (m.remove k) k v (by simp)
    have ho := total_remove f m k w hk
    rw [hr] at hi
    rw [Option.elim_some]
    omega

theorem total_insertAll (m : HashMap K V) (kvs : List (K × V)) (hn : (kvs.map Prod.fst).Nodup) :
    (m.insertAll kvs).total f + (kvs.map fun kv => (m.get kv.1).elim 0 f).sum =
      m.total f + (kvs.map fun kv => f kv.2).sum := by
  induction kvs generalizing m with
  | nil => rfl
  | cons kv kvs ih =>
    obtain ⟨hk, hn⟩ := List.nodup_cons.mp hn
    have hi := total_insert f m kv.1 kv.2
    have ht := ih (m.insert kv.1 kv.2) hn
    have hm : (kvs.map fun kv' => ((m.insert kv.1 kv.2).get kv'.1).elim 0 f) =
        kvs.map fun kv' => (m.get kv'.1).elim 0 f :=
      List.map_congr_left fun kv' hkv' => by
        have hne : kv'.1 ≠ kv.1 := fun he => hk (he ▸ List.mem_map_of_mem hkv')
        rw [get_insert, if_neg hne]
    rw [hm] at ht
    change ((m.insert kv.1 kv.2).insertAll kvs).total f + _ = _
    simp only [List.map_cons, List.sum_cons]
    omega

theorem total_insert_le (m : HashMap K V) (k : K) (v : V) :
    (m.insert k v).total f ≤ m.total f + f v :=
  (Nat.le_add_right _ _).trans (total_insert f m k v).le

theorem total_insertAll_le (m : HashMap K V) (kvs : List (K × V)) :
    (m.insertAll kvs).total f ≤ m.total f + (kvs.map fun kv => f kv.2).sum := by
  induction kvs generalizing m with
  | nil => simp [insertAll]
  | cons kv kvs ih =>
    have hi := total_insert_le f m kv.1 kv.2
    have ht := ih (m.insert kv.1 kv.2)
    change ((m.insert kv.1 kv.2).insertAll kvs).total f ≤ _
    simp only [List.map_cons, List.sum_cons]
    omega

/-- Removing distinct stored keys takes exactly their values out of the total. -/
theorem total_removeAll (m : HashMap K V) (ks : List K) (hn : ks.Nodup)
    (hs : ∀ k ∈ ks, ∃ v, m.get k = some v) :
    (m.removeAll ks).total f + (ks.map fun k => (m.get k).elim 0 f).sum = m.total f := by
  induction ks generalizing m with
  | nil => simp [removeAll]
  | cons k ks ih =>
    obtain ⟨hk, hn⟩ := List.nodup_cons.mp hn
    obtain ⟨v, hv⟩ := hs k (by simp)
    have hne : ∀ k' ∈ ks, (m.remove k).get k' = m.get k' := by
      intro k' hk'
      have hd : k' ≠ k := fun he => hk (he ▸ hk')
      rw [get_remove, if_neg hd]
    have ht := ih (m.remove k) hn fun k' hk' => by
      rw [hne k' hk']
      exact hs k' (by simp [hk'])
    have hm : (ks.map fun k' => ((m.remove k).get k').elim 0 f) =
        ks.map fun k' => (m.get k').elim 0 f :=
      List.map_congr_left fun k' hk' => by rw [hne k' hk']
    have hr := total_remove f m k v hv
    rw [hm] at ht
    change ((m.remove k).removeAll ks).total f + _ = _
    simp only [List.map_cons, List.sum_cons, hv, Option.elim_some]
    omega

theorem sum_distinct_le_total (m : HashMap K V) (ks : List K) (hn : ks.Nodup)
    (hs : ∀ k ∈ ks, ∃ v, m.get k = some v) :
    (ks.map fun k => (m.get k).elim 0 f).sum ≤ m.total f := by
  have h := total_removeAll f m ks hn hs
  omega

end Total

section Iteration

variable [LinearOrder K]

/-- The members in ascending order, by a structural sort that evaluates on closed sets. -/
def sortedKeys (s : Finset K) : List K :=
  Quot.liftOn s.val (fun l => l.insertionSort (· ≤ ·)) fun a b h => by
    have hp := (List.perm_insertionSort (· ≤ ·) a).trans
      (h.trans (List.perm_insertionSort (· ≤ ·) b).symm)
    exact hp.eq_of_sortedLE (List.pairwise_insertionSort _ a).sortedLE
      (List.pairwise_insertionSort _ b).sortedLE

omit [DecidableEq K] in
theorem sortedKeys_eq_sort (s : Finset K) : sortedKeys s = s.sort (· ≤ ·) := by
  have hp : (sortedKeys s : Multiset K) = s.val := by
    obtain ⟨⟨l⟩, hl⟩ := s
    exact Multiset.coe_eq_coe.mpr (List.perm_insertionSort _ l)
  have hs : (sortedKeys s).SortedLE := by
    obtain ⟨⟨l⟩, hl⟩ := s
    exact (List.pairwise_insertionSort _ l).sortedLE
  have he : (sortedKeys s).Perm (s.sort (· ≤ ·)) :=
    Multiset.coe_eq_coe.mp (hp.trans (Finset.sort_eq s _).symm)
  exact he.eq_of_sortedLE hs (Finset.pairwise_sort s _).sortedLE

/-- `HashMap` leaves its iteration order open. Here it is by ascending keys. -/
def iter (m : HashMap K V) : List (K × V) :=
  (sortedKeys m.keys).filterMap fun k => (m.get k).map (Prod.mk k)

theorem mem_iter (m : HashMap K V) (k : K) (v : V) : (k, v) ∈ m.iter ↔ m.get k = some v := by
  simp only [iter, sortedKeys_eq_sort, List.mem_filterMap, Finset.mem_sort, mem_keys,
    Option.map_eq_some_iff, Prod.mk.injEq]
  constructor
  · rintro ⟨k', _, v', hv, rfl, rfl⟩
    exact hv
  · intro hv
    exact ⟨k, ⟨v, hv⟩, v, hv, rfl, rfl⟩

/-- What holds of all entries can be checked along the iteration. -/
theorem forall_get_iff (m : HashMap K V) {P : K → V → Prop} :
    (∀ k v, m.get k = some v → P k v) ↔ ∀ entry ∈ m.iter, P entry.1 entry.2 := by
  constructor
  · intro h entry hentry
    exact h entry.1 entry.2 ((mem_iter m _ _).mp hentry)
  · intro h k v hv
    exact h (k, v) ((mem_iter m _ _).mpr hv)

theorem iter_keys (m : HashMap K V) : m.iter.map Prod.fst = m.keys.sort (· ≤ ·) := by
  have hf : ∀ l : List K, (∀ k ∈ l, ∃ v, m.get k = some v) →
      (l.filterMap fun k => (m.get k).map (Prod.mk k)).map Prod.fst = l := by
    intro l
    induction l with
    | nil => intro _; rfl
    | cons k l ih =>
      intro hl
      obtain ⟨v, hv⟩ := hl k (by simp)
      simp [hv, ih fun k' hk' => hl k' (by simp [hk'])]
  rw [iter, sortedKeys_eq_sort]
  exact hf _ fun k hk => (mem_keys m k).mp ((Finset.mem_sort _).mp hk)

theorem iter_keys_nodup (m : HashMap K V) : (m.iter.map Prod.fst).Nodup := by
  rw [iter_keys]
  exact Finset.sort_nodup _ _

theorem mem_iter_keys (m : HashMap K V) (k : K) :
    k ∈ m.iter.map Prod.fst ↔ ∃ v, m.get k = some v := by
  rw [iter_keys, Finset.mem_sort, mem_keys]

theorem iter_length (m : HashMap K V) : m.iter.length = m.len := by
  have hkeys : (m.iter.map Prod.fst).length = m.len := by
    rw [iter_keys, Finset.length_sort]
    rfl
  rwa [List.length_map] at hkeys

theorem iter_key_inj (m : HashMap K V) (a b : K × V) (ha : a ∈ m.iter) (hb : b ∈ m.iter)
    (h : a.1 = b.1) : a = b :=
  List.inj_on_of_nodup_map (iter_keys_nodup m) ha hb h

theorem iter_nodup (m : HashMap K V) : m.iter.Nodup := List.Nodup.of_map _ (iter_keys_nodup m)

theorem total_eq_iter (f : V → Nat) (m : HashMap K V) :
    m.total f = (m.iter.map fun kv => f kv.2).sum := by
  have hm : new.insertAll m.iter = m := by
    refine ext _ _ fun k => Option.ext fun v => ?_
    rw [get_new_insertAll_iff _ (iter_keys_nodup m), mem_iter]
  have htotal := total_insertAll f new m.iter (iter_keys_nodup m)
  rw [hm] at htotal
  simpa using htotal

theorem iter_insertAll_perm (kvs : List (K × V)) (hn : (kvs.map Prod.fst).Nodup) :
    (new.insertAll kvs).iter.Perm kvs := by
  refine (List.perm_ext_iff_of_nodup (iter_nodup _) (List.Nodup.of_map _ hn)).mpr fun kv => ?_
  rw [mem_iter]
  constructor
  · intro hget
    rcases get_insertAll_cases new kvs kv.1 with h | ⟨v, hv, h⟩
    · rw [hget, get_new] at h
      cases h
    · rw [hget] at h
      obtain rfl := Option.some.inj h
      exact hv
  · intro hkv
    exact get_insertAll_of_mem _ kvs kv.1 kv.2 hn hkv

/-- Keeps the elements a test accepts; the test may panic. -/
def filterRes {ε α : Type} (p : α → Res ε Bool) : List α → Res ε (List α)
  | [] => .ok []
  | a :: l => do
    let keep ← p a
    let rest ← filterRes p l
    return if keep then a :: rest else rest

omit [DecidableEq K] [LinearOrder K] in
theorem filterRes_eq {ε α : Type} (p : α → Res ε Bool) (q : α → Bool) (l : List α)
    (h : ∀ a ∈ l, p a = .ok (q a)) : filterRes p l = .ok (l.filter q) := by
  induction l with
  | nil => rfl
  | cons a l ih =>
    rw [filterRes, h a (by simp), ih fun b hb => h b (by simp [hb])]
    cases hq : q a <;> simp [hq]

def retain {ε : Type} (m : HashMap K V) (p : K → V → Res ε Bool) : Res ε (HashMap K V) := do
  let kept ← filterRes (fun kv => p kv.1 kv.2) m.iter
  return new.insertAll kept

theorem retain_spec {ε : Type} (m : HashMap K V) (p : K → V → Res ε Bool) (q : K → V → Bool)
    (h : ∀ k v, m.get k = some v → p k v = .ok (q k v)) :
    ∃ m', m.retain p = .ok m' ∧ ∀ k, m'.get k = (m.get k).filter (q k) := by
  have hk := filterRes_eq (fun kv : K × V => p kv.1 kv.2) (fun kv => q kv.1 kv.2) m.iter
    fun kv hkv => h kv.1 kv.2 ((mem_iter m kv.1 kv.2).mp hkv)
  refine ⟨new.insertAll (m.iter.filter fun kv => q kv.1 kv.2),
    by simp only [retain, hk, Res.ok_bind, Res.pure_eq_ok], fun k => ?_⟩
  have hn : ((m.iter.filter fun kv => q kv.1 kv.2).map Prod.fst).Nodup :=
    (iter_keys_nodup m).sublist (List.filter_sublist.map _)
  cases hv : m.get k with
  | none =>
    refine (get_insertAll_of_notMem _ _ _ fun hm => ?_).trans (get_new k)
    obtain ⟨kv, hkv, rfl⟩ := List.mem_map.mp hm
    have hs := (mem_iter m kv.1 kv.2).mp (List.mem_of_mem_filter hkv)
    rw [hv] at hs
    exact absurd hs (by simp)
  | some v =>
    by_cases hq : q k v = true
    · rw [Option.filter_some_pos hq]
      exact get_insertAll_of_mem _ _ _ _ hn
        (List.mem_filter.mpr ⟨(mem_iter m k v).mpr hv, hq⟩)
    · rw [Option.filter_some_neg (Bool.eq_false_of_not_eq_true hq)]
      refine (get_insertAll_of_notMem _ _ _ fun hm => ?_).trans (get_new k)
      obtain ⟨kv, hkv, rfl⟩ := List.mem_map.mp hm
      obtain ⟨hi, hq'⟩ := List.mem_filter.mp hkv
      have hs := (mem_iter m kv.1 kv.2).mp hi
      rw [hv] at hs
      obtain rfl := Option.some.inj hs
      exact hq hq'

end Iteration

end HashMap

end Rust
