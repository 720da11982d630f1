import Wobble.Framework.Table
import Wobble.Node.NodeState

namespace Wobble

open Rust Codec

/-- A `TEXT` value as its UTF-8 bytes, which is how SQLite compares it. -/
structure Text where
  utf8 : Bytes
  deriving DecidableEq

theorem Text.utf8_injective : Function.Injective Text.utf8 := by
  intro a b h
  cases a
  cases b
  exact congrArg Text.mk h

instance : LinearOrder Text :=
  LinearOrder.lift' (fun text => order text.utf8) (order_injective.comp Text.utf8_injective)

def BlockHash.text (hash : BlockHash) : Text := ⟨hash.toString⟩

def Txid.text (txid : Txid) : Text := ⟨txid.toString⟩

theorem BlockHash.text_injective : Function.Injective BlockHash.text := fun _ _ h =>
  BlockHash.toString_injective (congrArg Text.utf8 h)

theorem Txid.text_injective : Function.Injective Txid.text := fun _ _ h =>
  Txid.toString_injective (congrArg Text.utf8 h)

/-- Without `Encode` and `Decode`, which do not occur under `BlobCodec.Lossless`. -/
inductive SqliteStoreError where
  | sqlite
  | nodeState (e : NodeStateError)
  | invalidHashLength (len : Nat)
  | invalidHashHex (value : Text)
  | missingBlockForEntry (hash : BlockHash)
  | rebuiltBestTipMismatch (rebuilt persisted : Option BlockHash)
  | rebuiltUtxoMismatch
  | rebuiltMempoolMismatch
  deriving DecidableEq

/-- The common body of `parse_block_hash` and `parse_txid`. -/
def parseHash (value : Text) : Res SqliteStoreError Bytes32 := do
  let bytes ← Res.okOr (.invalidHashHex value) (Hex.decode value.utf8)
  if h : bytes.length = 32 then .ok ⟨bytes, h⟩
  else .error (.err (.invalidHashLength bytes.length))

def parseBlockHash (value : Text) : Res SqliteStoreError BlockHash := do
  let array ← parseHash value
  return ⟨array⟩

def parseTxid (value : Text) : Res SqliteStoreError Txid := do
  let array ← parseHash value
  return ⟨array⟩

theorem parseHash_render (bytes : Bytes32) :
    parseHash ⟨Hex.render bytes.toList⟩ = .ok bytes := by
  rw [parseHash, Hex.decode_render, Res.okOr_some, Res.ok_bind, dif_pos bytes.toList_length]
  rfl

theorem parseBlockHash_text (hash : BlockHash) : parseBlockHash hash.text = .ok hash := by
  rw [parseBlockHash, BlockHash.text, BlockHash.toString, parseHash_render]
  rfl

theorem parseTxid_text (txid : Txid) : parseTxid txid.text = .ok txid := by
  rw [parseTxid, Txid.text, Txid.toString, parseHash_render]
  rfl

structure ChainEntryRow where
  height : Nat
  cumulativeWork : Nat
  parentHash : Option Text
  deriving DecidableEq

/-- The primary key of `active_utxos`. -/
structure UtxoKey where
  txid : Text
  vout : UInt32
  deriving DecidableEq

def UtxoKey.sortKey (key : UtxoKey) : List Nat ×ₗ Nat :=
  toLex (order key.txid.utf8, key.vout.toNat)

theorem UtxoKey.sortKey_injective : Function.Injective UtxoKey.sortKey := by
  intro k l h
  obtain ⟨a, v⟩ := k
  obtain ⟨b, w⟩ := l
  simp only [UtxoKey.sortKey, toLex_inj, Prod.mk.injEq] at h
  rw [Text.utf8_injective (order_injective h.1), UInt32.toNat_inj.mp h.2]

instance : LinearOrder UtxoKey :=
  LinearOrder.lift' UtxoKey.sortKey UtxoKey.sortKey_injective

structure UtxoRow where
  value : UInt64
  lockingData : Bytes
  createdAtHeight : Nat
  isCoinbase : Bool
  deriving DecidableEq

inductive IndexedTransactionStatus where
  | mempool
  | confirmed
  deriving DecidableEq

inductive TransactionKeyRole where
  | input
  | output
  deriving DecidableEq

structure TransactionRow where
  transaction : Transaction
  blockHash : Option Text
  blockHeight : Option Nat
  positionInBlock : Option UInt32
  status : IndexedTransactionStatus
  firstSeenAt : Option Text
  lastUpdatedAt : Option Text
  deriving DecidableEq

structure TransactionKeyRow where
  txid : Text
  keyRole : TransactionKeyRole
  keyData : Bytes
  value : Option UInt64
  vout : Option UInt32
  deriving DecidableEq

inductive PeerSource where
  | seed
  | hello
  | peerExchange
  | manual
  deriving DecidableEq

structure StoredPeer where
  addr : Text
  nodeName : Option Text
  source : PeerSource
  advertisedTipHash : Option BlockHash
  advertisedHeight : Option Nat
  lastHelloAt : Option Text
  lastSeenAt : Option Text
  lastConnectAt : Option Text
  lastSuccessAt : Option Text
  lastError : Option Text
  connections : UInt32
  failedConnections : UInt32
  behaviorScore : Int
  bannedUntil : Option Text
  deriving DecidableEq

/-- The tables of the database, each under its primary key. A blob column has the block or the
transaction that is read from it. -/
structure SqliteStore where
  blocks : HashMap Text Block
  chainEntries : HashMap Text ChainEntryRow
  activeUtxos : HashMap UtxoKey UtxoRow
  mempoolTransactions : HashMap Text Transaction
  peers : HashMap Text StoredPeer
  transactions : HashMap Text TransactionRow
  transactionKeys : List TransactionKeyRow
  metadata : HashMap Text Text
  deriving DecidableEq

/-- The key `'best_tip'` of the metadata table. -/
def bestTipKey : Text := ⟨[98, 101, 115, 116, 95, 116, 105, 112]⟩

/-- A row of `transactions` with its blob. -/
structure TransactionBlobRow where
  transactionBytes : Bytes
  blockHash : Option Text
  blockHeight : Option Nat
  positionInBlock : Option UInt32
  status : IndexedTransactionStatus
  firstSeenAt : Option Text
  lastUpdatedAt : Option Text

/-- How blocks and transactions are written to blob columns and read from them. -/
structure BlobCodec (ε : Type) where
  encodeBlock : Block → Bytes
  decodeBlock : Bytes → Res ε Block
  encodeTransaction : Transaction → Bytes
  decodeTransaction : Bytes → Res ε Transaction

namespace BlobCodec

variable {ε : Type} (codec : BlobCodec ε)

/-- The assumption behind the tables of values: what is written is read back. -/
structure Lossless : Prop where
  block : ∀ block, codec.decodeBlock (codec.encodeBlock block) = .ok block
  transaction : ∀ tx, codec.decodeTransaction (codec.encodeTransaction tx) = .ok tx

def encodeRow (row : TransactionRow) : TransactionBlobRow :=
  ⟨codec.encodeTransaction row.transaction, row.blockHash, row.blockHeight, row.positionInBlock,
    row.status, row.firstSeenAt, row.lastUpdatedAt⟩

def decodeRow (row : TransactionBlobRow) : Res ε TransactionRow := do
  let transaction ← codec.decodeTransaction row.transactionBytes
  return ⟨transaction, row.blockHash, row.blockHeight, row.positionInBlock, row.status,
    row.firstSeenAt, row.lastUpdatedAt⟩

variable {codec} in
theorem Lossless.row (h : codec.Lossless) (row : TransactionRow) :
    codec.decodeRow (codec.encodeRow row) = .ok row := by
  rw [decodeRow, encodeRow, h.transaction]
  rfl

end BlobCodec

/-- A database whose blobs are lossless reads as the tables of values it was written from. -/
theorem SqliteStore.blobs_read {ε : Type} (codec : BlobCodec ε) (h : codec.Lossless)
    (store : SqliteStore) :
    Sql.readTable codec.decodeBlock (Sql.writeTable codec.encodeBlock store.blocks) =
        .ok store.blocks ∧
      Sql.readTable codec.decodeTransaction
        (Sql.writeTable codec.encodeTransaction store.mempoolTransactions) =
          .ok store.mempoolTransactions ∧
      Sql.readTable codec.decodeRow (Sql.writeTable codec.encodeRow store.transactions) =
        .ok store.transactions :=
  ⟨Sql.readTable_writeTable _ _ h.block store.blocks,
    Sql.readTable_writeTable _ _ h.transaction store.mempoolTransactions,
    Sql.readTable_writeTable _ _ h.row store.transactions⟩

end Wobble
