import Wobble.Store.Holds

namespace Wobble

open Rust

namespace SqliteStore

/-- The pending rows of some ids deleted from a table of rows. -/
theorem transactionRows_filter (items kept : List IndexedTransaction) (gone : List Txid)
    (hn : (items.map IndexedTransaction.txid).Nodup)
    (hnk : (kept.map IndexedTransaction.txid).Nodup)
    (hkept : ∀ item, item ∈ kept ↔
      item ∈ items ∧ ¬ (item.txid ∈ gone ∧ item.status = .mempool))
    (table : HashMap Text TransactionRow)
    (htable : ∀ t, table.get t =
      ((HashMap.new.insertAll (items.map transactionRow)).get t).filter fun row =>
        !(decide (t ∈ gone.map Txid.text) && decide (row.status = .mempool))) :
    table = HashMap.new.insertAll (kept.map transactionRow) := by
  refine HashMap.ext _ _ fun t => Option.ext fun row => ?_
  rw [htable, Option.filter_eq_some_iff, get_transactionRows items hn, get_transactionRows kept hnk]
  have htest : ∀ item : IndexedTransaction, transactionRow item = (t, row) →
      ((!(decide (t ∈ gone.map Txid.text) && decide (row.status = .mempool))) = true ↔
        ¬ (item.txid ∈ gone ∧ item.status = .mempool)) := by
    intro item hrow
    obtain ⟨rfl, rfl⟩ := Prod.mk.inj hrow
    simp only [List.mem_map_of_injective Txid.text_injective, Bool.not_eq_true',
      Bool.and_eq_false_iff, decide_eq_false_iff_not, not_and_or]
  constructor
  · intro h
    obtain ⟨⟨item, hi, hrow⟩, htrue⟩ := h
    exact ⟨item, (hkept item).mpr ⟨hi, (htest item hrow).mp htrue⟩, hrow⟩
  · intro h
    obtain ⟨item, hi, hrow⟩ := h
    obtain ⟨hi, hnot⟩ := (hkept item).mp hi
    exact ⟨⟨item, hi, hrow⟩, (htest item hrow).mpr hnot⟩

/-- Rows upserted into a table of rows that has them already or has none under their ids. -/
theorem transactionRows_insertAll (items added all : List IndexedTransaction)
    (hn : (items.map IndexedTransaction.txid).Nodup)
    (hna : (added.map IndexedTransaction.txid).Nodup)
    (hall : (all.map IndexedTransaction.txid).Nodup)
    (hmem : ∀ item, item ∈ all ↔ item ∈ items ∨ item ∈ added) :
    (HashMap.new.insertAll (items.map transactionRow)).insertAll (added.map transactionRow) =
      HashMap.new.insertAll (all.map transactionRow) := by
  refine HashMap.ext _ _ fun t => Option.ext fun row => ?_
  rw [HashMap.get_insertAll_iff _ _ (transactionRow_keys_nodup added hna),
    get_transactionRows items hn, get_transactionRows all hall, List.mem_map]
  constructor
  · intro h
    rcases h with ⟨item, hi, hrow⟩ | ⟨-, item, hi, hrow⟩
    · exact ⟨item, (hmem item).mpr (.inr hi), hrow⟩
    · exact ⟨item, (hmem item).mpr (.inl hi), hrow⟩
  · intro h
    obtain ⟨item, hi, hrow⟩ := h
    by_cases hadded : item ∈ added
    · exact .inl ⟨item, hadded, hrow⟩
    refine .inr ⟨?_, item, ((hmem item).mp hi).resolve_right hadded, hrow⟩
    intro ht
    obtain ⟨⟨t', row'⟩, hrow', rfl⟩ := List.mem_map.mp ht
    obtain ⟨other, ho, hother⟩ := List.mem_map.mp hrow'
    have hid : other.txid = item.txid := by
      refine Txid.text_injective ?_
      exact (congrArg Prod.fst hother).trans (congrArg Prod.fst hrow).symm
    obtain rfl : other = item :=
      List.inj_on_of_nodup_map hall ((hmem other).mpr (.inr ho)) hi hid
    exact hadded ho

theorem edgeRows_filter (edges : List TransactionKeyEdge) (gone : List Txid) :
    ((edges.map edgeRow).filter fun row => !decide (row.txid ∈ gone.map Txid.text)) =
      (edges.filter fun edge => !decide (edge.txid ∈ gone)).map edgeRow := by
  rw [List.filter_map]
  congr 1
  refine List.filter_congr fun edge _ => ?_
  rw [Bool.eq_iff_iff]
  simp only [Function.comp_apply, edgeRow, Bool.not_eq_true', decide_eq_false_iff_not,
    List.mem_map_of_injective Txid.text_injective]

variable [Crypto]

theorem filter_indexEdges_of_notMem (before txs : List Transaction) (gone : List Txid)
    (h : ∀ txid ∈ txs.map Transaction.id, txid ∉ gone) :
    ((indexEdges before txs).filter fun edge => !decide (edge.txid ∈ gone)) =
      indexEdges before txs := by
  rw [List.filter_eq_self]
  intro edge he
  simpa using h _ (txid_of_indexEdges before txs edge he)

theorem filter_indexEdges_of_mem (before txs : List Transaction) (gone : List Txid)
    (h : ∀ txid ∈ txs.map Transaction.id, txid ∈ gone) :
    ((indexEdges before txs).filter fun edge => !decide (edge.txid ∈ gone)) = [] := by
  rw [List.filter_eq_nil_iff]
  intro edge he
  simpa using h _ (txid_of_indexEdges before txs edge he)

omit [Crypto] in
/-- Without the stale ids and without those of the block, what is left are the rows of the new
pool. -/
theorem pool_removeAll (pool pool' : Mempool) (persisted ids : List Txid)
    (hp : ∀ txid, txid ∈ persisted ↔ ∃ tx, pool.get txid = some tx)
    (hsub : ∀ txid tx, pool'.get txid = some tx → pool.get txid = some tx)
    (hids : ∀ txid ∈ ids, pool'.get txid = none) :
    (pool.removeAll (stale pool' persisted)).removeAll ids = pool' := by
  have hstale : ∀ txid, txid ∈ stale pool' persisted ↔
      (∃ tx, pool.get txid = some tx) ∧ pool'.get txid = none := by
    intro txid
    rw [stale, List.mem_filter, hp, Bool.not_eq_true', HashMap.containsKey_eq_false]
  refine HashMap.ext _ _ fun txid => ?_
  rw [HashMap.get_removeAll, HashMap.get_removeAll]
  cases hget : pool'.get txid with
  | some tx =>
    have hn : txid ∉ ids := by
      intro hi
      rw [hids txid hi] at hget
      cases hget
    have hs : txid ∉ stale pool' persisted := by
      intro hs
      rw [((hstale txid).mp hs).2] at hget
      cases hget
    rw [if_neg hn, if_neg hs, hsub txid tx hget]
  | none =>
    by_cases hold : ∃ tx, pool.get txid = some tx
    · rw [if_pos ((hstale txid).mpr ⟨hold, hget⟩), ite_self]
    · have hnone : pool.get txid = none := by
        cases h : pool.get txid with
        | none => rfl
        | some tx => exact absurd ⟨tx, h⟩ hold
      rw [hnone, ite_self, ite_self]

omit [Crypto] in
theorem mempoolRows_removeAll (pool : Mempool) (gone : List Txid) :
    (HashMap.new.insertAll (pool.iter.map mempoolRow)).removeAll (gone.map Txid.text) =
      HashMap.new.insertAll ((pool.removeAll gone).iter.map mempoolRow) :=
  Sql.rows_removeAll pool mempoolRow Txid.text (fun _ => rfl) Txid.text_injective gone

end SqliteStore

end Wobble
