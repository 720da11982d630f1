import Wobble.Store.Snapshot

namespace Wobble

open Rust

/-- One SQLite transaction with the reads that precede it: the database it commits, or an
error that leaves the database as it was. -/
abbrev Commit := SqliteStore → Res SqliteStoreError SqliteStore

namespace SqliteStore

/-- Transactions one after the other, up to the first that fails. -/
def commitAll : List Commit → SqliteStore → SqliteStore × Res SqliteStoreError Unit
  | [], store => (store, .ok ())
  | commit :: rest, store =>
    match commit store with
    | .error e => (store, .error e)
    | .ok store => commitAll rest store

def saveBlockRecord (block : Block) (entry : ChainIndexEntry) (bestTip : Option BlockHash) :
    Commit := fun store =>
  .ok { store with
    blocks := store.blocks.insert entry.blockHash.text block
    chainEntries := store.chainEntries.insert entry.blockHash.text (entryRow entry)
    metadata := match bestTip with
      | some bestTip => store.metadata.insert bestTipKey bestTip.text
      | none => store.metadata.remove bestTipKey }

def saveActiveUtxos (utxos : UtxoSet) : Commit := fun store => do
  let rows ← Sql.insertAll .sqlite HashMap.new (utxos.iter.map utxoRow)
  return { store with activeUtxos := rows }

def saveMempool (mempool : Mempool) : Commit := fun store => do
  let rows ← Sql.insertAll .sqlite HashMap.new (mempool.iter.map mempoolRow)
  return { store with mempoolTransactions := rows }

def saveTransactionIndex (transactions : List IndexedTransaction)
    (edges : List TransactionKeyEdge) : Commit := fun store => do
  let rows ← Sql.insertAll .sqlite HashMap.new (transactions.map transactionRow)
  return { store with transactions := rows, transactionKeys := edges.map edgeRow }

def savePeer (peer : StoredPeer) : Commit := fun store =>
  .ok { store with peers := store.peers.insert peer.addr peer }

def loadPeer (store : SqliteStore) (addr : Text) : Option StoredPeer := store.peers.get addr

def deleteMempoolTransactionRow (store : SqliteStore) (txid : Txid) : SqliteStore :=
  { store with mempoolTransactions := store.mempoolTransactions.remove txid.text }

def upsertIndexedTransactionRow (store : SqliteStore) (indexed : IndexedTransaction) :
    SqliteStore :=
  { store with transactions :=
      store.transactions.insert (transactionRow indexed).1 (transactionRow indexed).2 }

def deleteTransactionKeyRows (store : SqliteStore) (txid : Txid) : SqliteStore :=
  { store with transactionKeys := store.transactionKeys.filter fun row => row.txid != txid.text }

def insertTransactionKeyRow (store : SqliteStore) (edge : TransactionKeyEdge) : SqliteStore :=
  { store with transactionKeys := store.transactionKeys ++ [edgeRow edge] }

/-- `DELETE FROM transactions WHERE txid = ?1 AND status = 'mempool'`. -/
def deletePendingTransactionRow (store : SqliteStore) (txid : Txid) : SqliteStore :=
  match store.transactions.get txid.text with
  | some row =>
    if row.status = .mempool then
      { store with transactions := store.transactions.remove txid.text }
    else store
  | none => store

/-- An output of a transaction the index knows. -/
def loadOutput (store : SqliteStore) (outpoint : OutPoint) : Option TxOut :=
  (store.transactions.get outpoint.txid.text).bind fun row =>
    row.transaction.outputs[outpoint.vout.toNat]?

def loadPersistedMempoolTxids (store : SqliteStore) : Res SqliteStoreError (List Txid) :=
  Res.mapAll (fun row => parseTxid row.1) store.mempoolTransactions.iter

/-- A row that cannot be read is reported as a conversion failure of the database layer. -/
def loadIndexedTransaction (store : SqliteStore) (txid : Txid) :
    Res SqliteStoreError (Option IndexedTransaction) :=
  match store.transactions.get txid.text with
  | none => .ok none
  | some row => do
    let txid ← (parseTxid txid.text).mapErr fun _ => .sqlite
    let blockHash ← match row.blockHash with
      | none => .ok none
      | some value => do
        let hash ← (parseBlockHash value).mapErr fun _ => .sqlite
        .ok (some hash)
    return some ⟨txid, row.transaction, blockHash, row.blockHeight, row.positionInBlock,
      row.status, row.firstSeenAt, row.lastUpdatedAt⟩

/-- `first_seen_at` stays with a transaction whose row is replaced. -/
def mergeConfirmedTransactionMetadata (store : SqliteStore) (indexed : IndexedTransaction) :
    Res SqliteStoreError IndexedTransaction := do
  let existing ← store.loadIndexedTransaction indexed.txid
  match existing with
  | some existing => return { indexed with firstSeenAt := existing.firstSeenAt }
  | none => return indexed

/-- `none` when the walk along the best chain does not end. -/
def bestChainContains (state : NodeState) (blockHash : BlockHash) : Option Bool :=
  state.chain.bestChainEntries.map fun entries =>
    entries.any fun entry => entry.blockHash == blockHash

variable [Crypto]

def buildTransactionKeyEdgesForPersistedContext {ε : Type} (store : SqliteStore)
    (transaction : Transaction) : Res ε (List TransactionKeyEdge) :=
  keyEdges store.loadOutput transaction

def saveMempoolTransaction (transaction : Transaction) : Commit := fun store => do
  let txid ← transaction.txid
  let indexed : IndexedTransaction :=
    ⟨txid, transaction, none, none, none, .mempool, none, none⟩
  let edges ← store.buildTransactionKeyEdgesForPersistedContext transaction
  let store := { store with
    mempoolTransactions := store.mempoolTransactions.insert txid.text transaction }
  let store := (store.upsertIndexedTransactionRow indexed).deleteTransactionKeyRows txid
  return edges.foldl insertTransactionKeyRow store

/-- Rows of transactions that have left the pool. -/
def deleteStaleMempoolTransactions (mempool : Mempool) : Commit := fun store => do
  let persisted ← store.loadPersistedMempoolTxids
  return persisted.foldl (fun store txid =>
    if mempool.containsKey txid then store else
      ((store.deleteMempoolTransactionRow txid).deletePendingTransactionRow
        txid).deleteTransactionKeyRows txid) store

/-- Outputs of the same block first, those of the index second. -/
def appendTransactionKeyEdgesWithFallback {ε : Type} (store : SqliteStore)
    (transaction : Transaction) (knownOutputs : HashMap OutPoint TxOut) :
    Res ε (List TransactionKeyEdge) :=
  keyEdges (fun outpoint => match knownOutputs.get outpoint with
    | some output => some output
    | none => store.loadOutput outpoint) transaction

/-- The loop of `build_confirmed_block_index`. -/
def confirmedFrom {ε : Type} (store : SqliteStore) (blockHash : BlockHash) (blockHeight : Nat) :
    Nat → List Transaction → HashMap OutPoint TxOut →
      Res ε (List IndexedTransaction × List TransactionKeyEdge)
  | _, [], _ => .ok ([], [])
  | position, transaction :: rest, knownOutputs => do
    let txid ← transaction.txid
    let edges ← store.appendTransactionKeyEdgesWithFallback transaction knownOutputs
    let knownOutputs ← rememberOutputs transaction knownOutputs
    let (transactions, more) ←
      confirmedFrom store blockHash blockHeight (position + 1) rest knownOutputs
    return (⟨txid, transaction, some blockHash, some blockHeight, some (UInt32.ofNat position),
      .confirmed, none, none⟩ :: transactions, edges ++ more)

def buildConfirmedBlockIndex {ε : Type} (store : SqliteStore) (block : Block)
    (blockHash : BlockHash) (blockHeight : Nat) :
    Res ε (List IndexedTransaction × List TransactionKeyEdge) :=
  store.confirmedFrom blockHash blockHeight 0 block.transactions HashMap.new

def saveConfirmedBlockTransactions (block : Block) (entry : ChainIndexEntry) : Commit :=
  fun store => do
    let (transactions, edges) ←
      store.buildConfirmedBlockIndex block entry.blockHash entry.height
    let merged ← Res.mapAll store.mergeConfirmedTransactionMetadata transactions
    let store := merged.foldl (fun store indexed =>
      ((store.deleteMempoolTransactionRow indexed.txid).upsertIndexedTransactionRow
        indexed).deleteTransactionKeyRows indexed.txid) store
    return edges.foldl insertTransactionKeyRow store

/-- The transactions `save_accepted_block` commits. `none` when the walk along the best chain
does not end. -/
def saveAcceptedBlock (state : NodeState) (blockHash : BlockHash) : Option (List Commit) :=
  match state.blocks.get blockHash, state.chain.get blockHash with
  | some block, some entry =>
    (bestChainContains state blockHash).map fun onBestChain =>
      saveBlockRecord block entry state.chain.bestTip ::
        if !onBestChain then [] else
          [saveActiveUtxos state.activeUtxos, deleteStaleMempoolTransactions state.mempool,
            saveConfirmedBlockTransactions block entry]
  | _, _ => some [fun _ => .error (.err (.missingBlockForEntry blockHash))]

/-- The transactions `save_mempool_state` commits, after it has built the index. -/
def saveMempoolState (state : NodeState) : Option (List Commit) :=
  (buildTransactionIndex state).map fun built =>
    [fun store => do
      let _ ← built
      saveMempool state.mempool store,
    fun store => do
      let (transactions, edges) ← built
      saveTransactionIndex transactions edges store]

end SqliteStore

end Wobble
