import Wobble.Store.TransactionIndex

namespace Wobble

open Rust

def Mempool.fromPersisted (transactions : List (Txid × Transaction)) : Mempool :=
  HashMap.new.insertAll transactions

/-- The order of `sort_by_key(|entry| (entry.height, entry.block_hash.to_string()))`. -/
def ChainIndexEntry.sortKey (entry : ChainIndexEntry) : Nat ×ₗ Text :=
  toLex (entry.height, entry.blockHash.text)

section Comparison

variable {K V : Type} [DecidableEq K] [LinearOrder K] [DecidableEq V]

/-- The common body of `utxo_sets_match` and `mempools_match`. -/
def mapsMatch (left right : HashMap K V) : Bool :=
  left.len == right.len && left.iter.all fun entry => right.get entry.1 == some entry.2

theorem mapsMatch_self (m : HashMap K V) : mapsMatch m m = true := by
  simp only [mapsMatch, beq_self_eq_true, Bool.true_and, List.all_eq_true, beq_iff_eq]
  intro entry he
  exact (HashMap.mem_iter m entry.1 entry.2).mp he

/-- As many entries and all of them the same: the maps are equal. -/
theorem mapsMatch_eq (left right : HashMap K V) (h : mapsMatch left right = true) :
    left = right := by
  simp only [mapsMatch, Bool.and_eq_true, beq_iff_eq, List.all_eq_true] at h
  obtain ⟨hlen, hall⟩ := h
  have hsub : ∀ k v, left.get k = some v → right.get k = some v := fun k v hk =>
    hall (k, v) ((HashMap.mem_iter left k v).mpr hk)
  have hkeys : left.keys = right.keys := by
    refine Finset.eq_of_subset_of_card_le (fun k hk => ?_) hlen.ge
    obtain ⟨v, hv⟩ := (HashMap.mem_keys left k).mp hk
    exact (HashMap.mem_keys right k).mpr ⟨v, hsub k v hv⟩
  refine HashMap.ext _ _ fun k => ?_
  cases hk : left.get k with
  | some v => rw [hsub k v hk]
  | none =>
    cases hr : right.get k with
    | none => rfl
    | some v =>
      have hmem : k ∈ left.keys := hkeys ▸ (HashMap.mem_keys right k).mpr ⟨v, hr⟩
      obtain ⟨w, hw⟩ := (HashMap.mem_keys left k).mp hmem
      rw [hk] at hw
      cases hw

end Comparison

def utxoSetsMatch (left right : UtxoSet) : Bool := mapsMatch left right

def mempoolsMatch (left right : Mempool) : Bool := mapsMatch left right

namespace SqliteStore

def new : SqliteStore where
  blocks := HashMap.new
  chainEntries := HashMap.new
  activeUtxos := HashMap.new
  mempoolTransactions := HashMap.new
  peers := HashMap.new
  transactions := HashMap.new
  transactionKeys := []
  metadata := HashMap.new

/-- The `DELETE`s of `save_node_state`, which leave no row in any table. -/
def clear (store : SqliteStore) : SqliteStore :=
  { store with
    blocks := HashMap.new
    chainEntries := HashMap.new
    activeUtxos := HashMap.new
    mempoolTransactions := HashMap.new
    peers := HashMap.new
    transactions := HashMap.new
    transactionKeys := []
    metadata := HashMap.new }

def entryRow (entry : ChainIndexEntry) : ChainEntryRow :=
  ⟨entry.height, entry.cumulativeWork, entry.parent.map BlockHash.text⟩

def utxoRow (entry : OutPoint × Utxo) : UtxoKey × UtxoRow :=
  (⟨entry.1.txid.text, entry.1.vout⟩, ⟨entry.2.output.value, entry.2.output.lockingData,
    entry.2.createdAtHeight, entry.2.isCoinbase⟩)

def mempoolRow (entry : Txid × Transaction) : Text × Transaction := (entry.1.text, entry.2)

def transactionRow (indexed : IndexedTransaction) : Text × TransactionRow :=
  (indexed.txid.text, ⟨indexed.transaction, indexed.blockHash.map BlockHash.text,
    indexed.blockHeight, indexed.positionInBlock, indexed.status, indexed.firstSeenAt,
    indexed.lastUpdatedAt⟩)

def edgeRow (edge : TransactionKeyEdge) : TransactionKeyRow :=
  ⟨edge.txid.text, edge.keyRole, edge.keyData, edge.value, edge.vout⟩

/-- The rows of `blocks` and `chain_entries`, entry by entry. -/
def saveEntries (state : NodeState) :
    List ChainIndexEntry → SqliteStore → Res SqliteStoreError SqliteStore
  | [], store => .ok store
  | entry :: rest, store => do
    let block ← Res.okOr (.missingBlockForEntry entry.blockHash)
      (state.blocks.get entry.blockHash)
    saveEntries state rest
      { store with
        blocks := store.blocks.insert entry.blockHash.text block
        chainEntries := store.chainEntries.insert entry.blockHash.text (entryRow entry) }

/-- `save_node_state` up to the transaction index. -/
def saveState (store : SqliteStore) (state : NodeState) : Res SqliteStoreError SqliteStore := do
  let entries := Sql.orderBy ChainIndexEntry.sortKey (state.chain.entries.iter.map Prod.snd)
  let store ← saveEntries state entries store.clear
  let activeUtxos ←
    Sql.insertAll .sqlite store.activeUtxos (state.activeUtxos.iter.map utxoRow)
  let mempoolTransactions ←
    Sql.insertAll .sqlite store.mempoolTransactions (state.mempool.iter.map mempoolRow)
  return { store with activeUtxos := activeUtxos, mempoolTransactions := mempoolTransactions }

def saveBestTip (metadata : HashMap Text Text) : Option BlockHash → HashMap Text Text
  | none => metadata
  | some bestTip => metadata.insert bestTipKey bestTip.text

/-- The rest of `save_node_state`. -/
def saveIndex (store : SqliteStore) (bestTip : Option BlockHash)
    (transactions : List IndexedTransaction) (edges : List TransactionKeyEdge) :
    Res SqliteStoreError SqliteStore := do
  let rows ← Sql.insertAll .sqlite store.transactions (transactions.map transactionRow)
  return { store with
    transactions := rows
    transactionKeys := store.transactionKeys ++ edges.map edgeRow
    metadata := saveBestTip store.metadata bestTip }

/-- The database after the transaction commits; an error rolls it back. `none` when the walk
along the best chain does not end. -/
def saveNodeState [Crypto] (store : SqliteStore) (state : NodeState) :
    Option (Res SqliteStoreError SqliteStore) :=
  match store.saveState state with
  | .error e => some (.error e)
  | .ok store => (buildTransactionIndex state).map fun built => do
    let (transactions, edges) ← built
    store.saveIndex state.chain.bestTip transactions edges

/-- The join of `chain_entries` with `blocks`, by height and then by hash. -/
def loadBlocksInHeightOrder (store : SqliteStore) : Res SqliteStoreError (List Block) :=
  Res.mapAll (fun row => do
      let blockHash ← parseBlockHash row.1
      Res.okOr (.missingBlockForEntry blockHash) (store.blocks.get row.1))
    (Sql.orderBy (fun row => toLex (row.2.height, row.1)) store.chainEntries.iter)

def loadBestTip (store : SqliteStore) : Res SqliteStoreError (Option BlockHash) :=
  match store.metadata.get bestTipKey with
  | none => .ok none
  | some value => do
    let hash ← parseBlockHash value
    return some hash

def readUtxo (row : UtxoKey × UtxoRow) : Res SqliteStoreError (OutPoint × Utxo) := do
  let txid ← parseTxid row.1.txid
  let outpoint : OutPoint := ⟨txid, row.1.vout⟩
  return (outpoint, ⟨outpoint, ⟨row.2.value, row.2.lockingData⟩, row.2.createdAtHeight,
    row.2.isCoinbase⟩)

def loadActiveUtxos (store : SqliteStore) : Res SqliteStoreError UtxoSet := do
  let utxos ← Res.mapAll readUtxo store.activeUtxos.iter
  return HashMap.new.insertAll utxos

variable [Crypto]

def readPending (row : Text × Transaction) : Res SqliteStoreError (Txid × Transaction) := do
  let parsedTxid ← parseTxid row.1
  let txid ← row.2.txid
  if txid ≠ parsedTxid then .error (.err (.invalidHashHex row.1)) else .ok (parsedTxid, row.2)

def loadMempool (store : SqliteStore) : Res SqliteStoreError Mempool := do
  let transactions ← Res.mapAll readPending store.mempoolTransactions.iter
  return Mempool.fromPersisted transactions

/-- The comparison of the rebuilt state with what was persisted. -/
def checkRebuilt (state : NodeState) (bestTip : Option BlockHash) (utxos : UtxoSet)
    (mempool : Mempool) : Res SqliteStoreError NodeState :=
  if state.chain.bestTip ≠ bestTip then
    .error (.err (.rebuiltBestTipMismatch state.chain.bestTip bestTip))
  else if !utxoSetsMatch state.activeUtxos utxos then .error (.err .rebuiltUtxoMismatch)
  else if !mempoolsMatch state.mempool mempool then .error (.err .rebuiltMempoolMismatch)
  else .ok state

def loadNodeState (store : SqliteStore) : Res SqliteStoreError NodeState := do
  let blocks ← store.loadBlocksInHeightOrder
  let mempool ← store.loadMempool
  let persistedBestTip ← store.loadBestTip
  let persistedUtxos ← store.loadActiveUtxos
  let persistedMempool ← store.loadMempool
  let state ← (NodeState.fromPersisted blocks mempool).mapErr SqliteStoreError.nodeState
  checkRebuilt state persistedBestTip persistedUtxos persistedMempool

end SqliteStore

end Wobble
