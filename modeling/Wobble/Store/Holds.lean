import Wobble.Store.CommitSpec

namespace Wobble

open Rust

namespace SqliteStore

def blockRow (entry : BlockHash × Block) : Text × Block := (entry.1.text, entry.2)

def chainEntryRow (entry : BlockHash × ChainIndexEntry) : Text × ChainEntryRow :=
  (entry.1.text, entryRow entry.2)

/-- The tables of a saved state, each as the rows of a map of the state. -/
def snapshot (s : NodeState) (items : List IndexedTransaction)
    (edges : List TransactionKeyEdge) : SqliteStore where
  blocks := HashMap.new.insertAll (s.blocks.iter.map blockRow)
  chainEntries := HashMap.new.insertAll (s.chain.entries.iter.map chainEntryRow)
  activeUtxos := HashMap.new.insertAll (s.activeUtxos.iter.map utxoRow)
  mempoolTransactions := HashMap.new.insertAll (s.mempool.iter.map mempoolRow)
  peers := HashMap.new
  transactions := HashMap.new.insertAll (items.map transactionRow)
  transactionKeys := edges.map edgeRow
  metadata := saveBestTip HashMap.new s.chain.bestTip

theorem blockRow_key (a b : BlockHash × Block) : (blockRow a).1 = (blockRow b).1 ↔ a.1 = b.1 :=
  BlockHash.text_injective.eq_iff

theorem chainEntryRow_key (a b : BlockHash × ChainIndexEntry) :
    (chainEntryRow a).1 = (chainEntryRow b).1 ↔ a.1 = b.1 :=
  BlockHash.text_injective.eq_iff

section Rows

variable [Crypto] {s : NodeState}

theorem byHeight_entryRows (hs : s.Sound) :
    HashMap.new.insertAll (s.byHeight.map fun e => (e.blockHash.text, entryRow e)) =
      HashMap.new.insertAll (s.chain.entries.iter.map chainEntryRow) := by
  refine HashMap.insertAll_perm _ _ ?_ ?_
  · have hrows : s.chain.entries.iter.map chainEntryRow =
        (s.chain.entries.iter.map Prod.snd).map fun e => (e.blockHash.text, entryRow e) := by
      rw [List.map_map]
      refine List.map_congr_left fun entry he => ?_
      rw [Function.comp_apply, hs.key entry.1 entry.2 ((HashMap.mem_iter _ _ _).mp he)]
      rfl
    rw [hrows]
    exact (Sql.orderBy_perm _ _).map _
  · have hkeys : (s.byHeight.map fun e => (e.blockHash.text, entryRow e)).map Prod.fst =
        (s.byHeight.map ChainIndexEntry.blockHash).map BlockHash.text := by
      rw [List.map_map, List.map_map]
      rfl
    rw [hkeys]
    exact hs.byHeight_hashes_nodup.map BlockHash.text_injective

theorem byHeight_blockRows (hs : s.Sound) :
    HashMap.new.insertAll (s.byHeight.filterMap fun e =>
        (s.blocks.get e.blockHash).map (Prod.mk e.blockHash.text)) =
      HashMap.new.insertAll (s.blocks.iter.map blockRow) := by
  refine HashMap.ext _ _ fun t => Option.ext fun b => ?_
  rw [Sql.get_rows s.blocks blockRow fun a b => (blockRow_key a b).mp]
  constructor
  · intro hget
    rcases HashMap.get_insertAll_cases HashMap.new (s.byHeight.filterMap fun e =>
      (s.blocks.get e.blockHash).map (Prod.mk e.blockHash.text)) t with hold | ⟨b', hmem, hnew⟩
    · rw [hget, HashMap.get_new] at hold
      cases hold
    · obtain rfl : b' = b := Option.some.inj (hnew.symm.trans hget)
      obtain ⟨e, -, he⟩ := List.mem_filterMap.mp hmem
      obtain ⟨block, hb, henc⟩ := Option.map_eq_some_iff.mp he
      exact ⟨e.blockHash, block, hb, henc⟩
  · intro hex
    obtain ⟨h, block, hb, henc⟩ := hex
    obtain ⟨rfl, rfl⟩ := Prod.mk.inj henc
    obtain ⟨e, he⟩ := (hs.stored h).mp ⟨_, hb⟩
    obtain ⟨hmem, rfl⟩ := (hs.mem_byHeight h e).mp he
    exact (get_savedBlocks s s.byHeight HashMap.new hs.byHeight_block e.blockHash
      (.inl (List.mem_map_of_mem hmem))).trans hb

theorem saveNodeState_snapshot (hs : s.Sound) (store : SqliteStore)
    (items : List IndexedTransaction) (edges : List TransactionKeyEdge)
    (hbuilt : buildTransactionIndex s = some (.ok (items, edges) : Res SqliteStoreError _))
    (hnodup : (items.map IndexedTransaction.txid).Nodup) :
    store.saveNodeState s = some (.ok (snapshot s items edges)) := by
  rw [saveNodeState_eq hs store items edges hbuilt hnodup, byHeight_entryRows hs,
    byHeight_blockRows hs]
  rfl

end Rows

/-- The same rows in every table but that of the peers; `transaction_keys` has no key, so there
the order is left open. -/
structure SameTables (store store' : SqliteStore) : Prop where
  blocks : store.blocks = store'.blocks
  chainEntries : store.chainEntries = store'.chainEntries
  activeUtxos : store.activeUtxos = store'.activeUtxos
  mempoolTransactions : store.mempoolTransactions = store'.mempoolTransactions
  transactions : store.transactions = store'.transactions
  transactionKeys : store.transactionKeys.Perm store'.transactionKeys
  metadata : store.metadata = store'.metadata

/-- The database holds what `save_node_state` writes for the state. -/
def Holds [Crypto] (store : SqliteStore) (s : NodeState) : Prop :=
  ∃ saved, new.saveNodeState s = some (.ok saved) ∧ store.SameTables saved

theorem holds_iff [Crypto] {s : NodeState} (hs : s.Sound) (store : SqliteStore)
    (items : List IndexedTransaction) (edges : List TransactionKeyEdge)
    (hbuilt : buildTransactionIndex s = some (.ok (items, edges) : Res SqliteStoreError _))
    (hnodup : (items.map IndexedTransaction.txid).Nodup) :
    store.Holds s ↔ store.SameTables (snapshot s items edges) := by
  rw [Holds, saveNodeState_snapshot hs new items edges hbuilt hnodup]
  constructor
  · intro h
    obtain ⟨saved, heq, hsame⟩ := h
    obtain rfl := Except.ok.inj (Option.some.inj heq)
    exact hsame
  · intro h
    exact ⟨_, rfl, h⟩

theorem Holds.readable [Crypto] {s : NodeState} (hs : s.Sound) {store : SqliteStore}
    (h : store.Holds s) : store.Readable := by
  obtain ⟨items, edges, hbuilt, hnodup⟩ := hs.buildTransactionIndex_ok (ε := SqliteStoreError)
  have hsame := (holds_iff hs store items edges hbuilt hnodup).mp h
  constructor
  · intro t tx ht
    rw [hsame.mempoolTransactions] at ht
    obtain ⟨txid, tx', -, henc⟩ := (Sql.get_rows s.mempool mempoolRow
      (fun a b h => Txid.text_injective h) t tx).mp ht
    exact ⟨txid, (congrArg Prod.fst henc).symm⟩
  · intro t row ht
    rw [hsame.transactions] at ht
    obtain ⟨item, -, hrow⟩ := (get_transactionRows items hnodup t row).mp ht
    exact readable_row item t row hrow

end SqliteStore

/-- What a full save into an empty database leaves. -/
def savedStore [Crypto] (s : NodeState) : SqliteStore :=
  ((SqliteStore.new.saveNodeState s).bind Except.toOption).getD .new

theorem savedStore_holds [Crypto] {s : NodeState} (hs : s.Sound) : (savedStore s).Holds s := by
  obtain ⟨store, hsave, -⟩ := SqliteStore.saveNodeState_saved hs .new
  have heq : savedStore s = store := by
    rw [savedStore, hsave]
    rfl
  rw [heq]
  exact ⟨store, hsave, ⟨rfl, rfl, rfl, rfl, rfl, .refl _, rfl⟩⟩

end Wobble
