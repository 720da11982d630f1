import Wobble.Framework.HashMap

namespace Sql

open Rust

section Keyed

variable {K R ε : Type} [DecidableEq K]

/-- `INSERT`: fails with the given error when the primary key is taken. -/
def insert (e : ε) (table : HashMap K R) (key : K) (row : R) : Res ε (HashMap K R) :=
  if table.containsKey key then .error (.err e) else .ok (table.insert key row)

/-- One `INSERT` after the other. -/
def insertAll (e : ε) : HashMap K R → List (K × R) → Res ε (HashMap K R)
  | table, [] => .ok table
  | table, (key, row) :: rest => do
    let table ← insert e table key row
    insertAll e table rest

/-- Rows with distinct keys, none of them taken, all go in. -/
theorem insertAll_eq (e : ε) (table : HashMap K R) (rows : List (K × R))
    (hn : (rows.map Prod.fst).Nodup) (hfree : ∀ key ∈ rows.map Prod.fst, table.get key = none) :
    insertAll e table rows = .ok (table.insertAll rows) := by
  induction rows generalizing table with
  | nil => rfl
  | cons row rest ih =>
    obtain ⟨key, value⟩ := row
    obtain ⟨hkey, hn⟩ := List.nodup_cons.mp hn
    have hno : table.containsKey key = false :=
      (HashMap.containsKey_eq_false _ _).mpr (hfree key List.mem_cons_self)
    have hrest := ih (table.insert key value) hn (by
      intro k hk
      have hne : k ≠ key := fun he => hkey (he ▸ hk)
      rw [HashMap.get_insert, if_neg hne]
      exact hfree k (List.mem_cons_of_mem _ hk))
    rw [insertAll, insert, hno, if_neg Bool.false_ne_true, Res.ok_bind, hrest]
    rfl

end Keyed

section RoundTrip

variable {K R K' R' ε ε' : Type} [DecidableEq K] [LinearOrder K] [DecidableEq K'] [LinearOrder K']

/-- A map written row by row into an empty table is read back as it was, if distinct entries
get distinct keys and each row decodes to its entry. -/
theorem load_saved (e : ε) (m : HashMap K R) (enc : K × R → K' × R')
    (dec : K' × R' → Res ε' (K × R))
    (hkey : ∀ a b, (enc a).1 = (enc b).1 → a.1 = b.1)
    (hdec : ∀ a ∈ m.iter, dec (enc a) = .ok a) :
    insertAll e HashMap.new (m.iter.map enc) = .ok (HashMap.new.insertAll (m.iter.map enc)) ∧
      ∃ entries, Res.mapAll dec (HashMap.new.insertAll (m.iter.map enc)).iter = .ok entries ∧
        HashMap.new.insertAll entries = m := by
  have hnodup : ((m.iter.map enc).map Prod.fst).Nodup := by
    rw [List.map_map]
    exact (HashMap.iter_nodup m).map_on fun a ha b hb hab =>
      HashMap.iter_key_inj m a b ha hb (hkey a b hab)
  refine ⟨insertAll_eq e _ _ hnodup fun _ _ => HashMap.get_new _, ?_⟩
  have hperm := HashMap.iter_insertAll_perm (m.iter.map enc) hnodup
  have hall : ∀ row ∈ (HashMap.new.insertAll (m.iter.map enc)).iter,
      ∃ a, dec row = .ok a ∧ (dec row).toOption = some a := by
    intro row hrow
    obtain ⟨a, ha, rfl⟩ := List.mem_map.mp (hperm.mem_iff.mp hrow)
    exact ⟨a, hdec a ha, by rw [hdec a ha]; rfl⟩
  refine ⟨_, Res.mapAll_eq_filterMap dec (fun row => (dec row).toOption) _ hall, ?_⟩
  have hread : ((HashMap.new.insertAll (m.iter.map enc)).iter.filterMap
      fun row => (dec row).toOption).Perm m.iter := by
    refine (hperm.filterMap _).trans (List.Perm.of_eq ?_)
    rw [List.filterMap_map]
    refine (List.filterMap_congr fun a ha => ?_).trans List.filterMap_some
    rw [Function.comp_apply, hdec a ha]
    rfl
  refine HashMap.insertAll_eq_of_mem_iff m _ ?_ fun k r => ?_
  · exact (hread.map Prod.fst).nodup_iff.mpr (HashMap.iter_keys_nodup m)
  · rw [hread.mem_iff, HashMap.mem_iter]

/-- The rows of a map: what the table holds under a key. -/
theorem get_rows (m : HashMap K R) (enc : K × R → K' × R')
    (hkey : ∀ a b, (enc a).1 = (enc b).1 → a.1 = b.1) (k' : K') (r' : R') :
    (HashMap.new.insertAll (m.iter.map enc)).get k' = some r' ↔
      ∃ k r, m.get k = some r ∧ enc (k, r) = (k', r') := by
  have hnodup : ((m.iter.map enc).map Prod.fst).Nodup := by
    rw [List.map_map]
    exact (HashMap.iter_nodup m).map_on fun a ha b hb hab =>
      HashMap.iter_key_inj m a b ha hb (hkey a b hab)
  have hperm := HashMap.iter_insertAll_perm (m.iter.map enc) hnodup
  rw [← HashMap.mem_iter, hperm.mem_iff, List.mem_map]
  simp only [Prod.exists, HashMap.mem_iter]

/-- An upsert of the row of `k` keeps the table in step with an insertion into the map. -/
theorem rows_insert (m : HashMap K R) (enc : K × R → K' × R')
    (hkey : ∀ a b, (enc a).1 = (enc b).1 ↔ a.1 = b.1) (k : K) (r : R) :
    (HashMap.new.insertAll (m.iter.map enc)).insert (enc (k, r)).1 (enc (k, r)).2 =
      HashMap.new.insertAll ((m.insert k r).iter.map enc) := by
  have hinj := fun a b => (hkey a b).mp
  refine HashMap.ext _ _ fun k' => Option.ext fun r' => ?_
  rw [get_rows _ enc hinj, HashMap.get_insert]
  by_cases hk : k' = (enc (k, r)).1
  · rw [if_pos hk, hk, Option.some.injEq]
    constructor
    · intro hr
      exact ⟨k, r, by rw [HashMap.get_insert, if_pos rfl], Prod.ext rfl hr⟩
    · intro h
      obtain ⟨k₁, r₁, hget, henc⟩ := h
      have hfst := congrArg Prod.fst henc
      obtain rfl : k₁ = k := hinj (k₁, r₁) (k, r) hfst
      rw [HashMap.get_insert, if_pos rfl] at hget
      rw [Option.some.inj hget]
      exact congrArg Prod.snd henc
  · rw [if_neg hk, get_rows m enc hinj]
    refine exists_congr fun k₁ => exists_congr fun r₁ => and_congr_left fun henc => ?_
    have hne : k₁ ≠ k := by
      intro he
      exact hk ((congrArg Prod.fst henc).symm.trans ((hkey (k₁, r₁) (k, r)).mpr he))
    rw [HashMap.get_insert, if_neg hne]

/-- Deleting the rows of some keys keeps it in step with their removal from the map. -/
theorem rows_removeAll (m : HashMap K R) (enc : K × R → K' × R') (key : K → K')
    (hk : ∀ a, (enc a).1 = key a.1) (hinj : Function.Injective key) (ks : List K) :
    (HashMap.new.insertAll (m.iter.map enc)).removeAll (ks.map key) =
      HashMap.new.insertAll ((m.removeAll ks).iter.map enc) := by
  have hkey : ∀ a b, (enc a).1 = (enc b).1 → a.1 = b.1 := by
    intro a b hab
    rw [hk, hk] at hab
    exact hinj hab
  refine HashMap.ext _ _ fun k' => Option.ext fun r' => ?_
  rw [get_rows _ enc hkey, HashMap.get_removeAll]
  by_cases hmem : k' ∈ ks.map key
  · rw [if_pos hmem]
    obtain ⟨k, hks, rfl⟩ := List.mem_map.mp hmem
    simp only [reduceCtorEq, false_iff]
    intro h
    obtain ⟨k₁, r₁, hget, henc⟩ := h
    obtain rfl : k₁ = k := hinj ((hk (k₁, r₁)).symm.trans (congrArg Prod.fst henc))
    rw [HashMap.get_removeAll, if_pos hks] at hget
    cases hget
  · rw [if_neg hmem, get_rows m enc hkey]
    refine exists_congr fun k₁ => exists_congr fun r₁ => and_congr_left fun henc => ?_
    have hnot : k₁ ∉ ks := by
      intro hks
      exact hmem (List.mem_map.mpr ⟨k₁, hks, (hk (k₁, r₁)).symm.trans (congrArg Prod.fst henc)⟩)
    rw [HashMap.get_removeAll, if_neg hnot]

/-- A table with its rows encoded. -/
def writeTable (encode : R → R') (table : HashMap K R) : HashMap K R' :=
  HashMap.new.insertAll (table.iter.map fun row => (row.1, encode row.2))

/-- A table with its rows decoded, up to the first that cannot be. -/
def readTable (decode : R' → Res ε R) (table : HashMap K R') : Res ε (HashMap K R) := do
  let rows ← Res.mapAll (fun row => do
    let value ← decode row.2
    return (row.1, value)) table.iter
  return HashMap.new.insertAll rows

theorem readTable_writeTable (encode : R → R') (decode : R' → Res ε R)
    (h : ∀ row, decode (encode row) = .ok row) (table : HashMap K R) :
    readTable decode (writeTable encode table) = .ok table := by
  obtain ⟨rows, hrows, htable⟩ := (load_saved () table (fun row => (row.1, encode row.2))
    (fun row => do
      let value ← decode row.2
      return (row.1, value))
    (fun _ _ hkey => hkey) (fun row _ => by dsimp only; rw [h]; rfl)).2
  rw [readTable, writeTable, hrows, Res.ok_bind, htable]
  rfl

end RoundTrip

section Sorted

variable {R κ : Type} [LinearOrder κ]

/-- `ORDER BY` and `sort_by_key`. -/
def orderBy (key : R → κ) (rows : List R) : List R :=
  rows.insertionSort fun a b => key a ≤ key b

theorem orderBy_perm (key : R → κ) (rows : List R) : (orderBy key rows).Perm rows :=
  List.perm_insertionSort _ rows

theorem orderBy_sorted (key : R → κ) (rows : List R) :
    (orderBy key rows).Pairwise fun a b => key a ≤ key b := by
  have htotal : Std.Total fun a b : R => key a ≤ key b := ⟨fun a b => le_total (key a) (key b)⟩
  have htrans : IsTrans R fun a b => key a ≤ key b := ⟨fun _ _ _ => le_trans⟩
  exact List.pairwise_insertionSort _ rows

/-- Rows with different keys have one sorted order. -/
theorem orderBy_eq (key : R → κ) (rows sorted : List R) (hperm : sorted.Perm rows)
    (hsorted : sorted.Pairwise fun a b => key a ≤ key b)
    (hinj : ∀ a ∈ rows, ∀ b ∈ rows, key a = key b → a = b) : orderBy key rows = sorted := by
  have hp : (orderBy key rows).Perm sorted := (orderBy_perm key rows).trans hperm.symm
  refine hp.eq_of_pairwise ?_ (orderBy_sorted key rows) hsorted
  intro a b ha hb hab hba
  exact hinj a ((orderBy_perm key rows).mem_iff.mp ha) b (hperm.mem_iff.mp hb) (le_antisymm hab hba)

end Sorted

end Sql
