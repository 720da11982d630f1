import Wobble.Framework.Interaction
import Wobble.Server.Wire

namespace Wobble

open Rust

/-- `unix:`. -/
def timestampMark : Bytes := [117, 110, 105, 120, 58]

def formatTimestampString (seconds : Nat) : Text :=
  ⟨timestampMark ++ (Nat.toDigits 10 seconds).map fun digit => UInt8.ofNat digit.toNat⟩

/-- The digits of `u64::from_str`, most significant first. -/
def parseDigits : Nat → Bytes → Option Nat
  | value, [] => if value < 2^64 then some value else none
  | value, digit :: rest =>
    if 48 ≤ digit ∧ digit ≤ 57 then parseDigits (10 * value + (digit.toNat - 48)) rest else none

/-- `u64::from_str`: a sign `+` is allowed, an empty text is not. -/
def parseU64 : Bytes → Option Nat
  | [] => none
  | 43 :: digit :: rest => parseDigits 0 (digit :: rest)
  | digits => parseDigits 0 digits

def parseTimestampString (value : Text) : Option Nat :=
  if value.utf8.take 5 = timestampMark then parseU64 (value.utf8.drop 5) else none

/-- `saturating_add(1)` on a counter of a peer record. -/
def saturatingIncrement (count : UInt32) : UInt32 :=
  if count.toNat + 1 < 2^32 then count + 1 else count

inductive PeerSyncState where
  | idle
  | syncing
  deriving DecidableEq

/-- A live outbound connection, known by the moment it was opened. -/
structure PeerSession where
  opened : Nat
  deriving DecidableEq

structure RuntimePeer where
  endpoint : PeerEndpoint
  stored : StoredPeer
  session : Option PeerSession
  lastTipSyncHint : Option TipSummary
  syncState : PeerSyncState
  deriving DecidableEq

inductive MinerCommand where
  | submit (generation : UInt64) (candidate : Block)
  | cancel (generation : UInt64)
  deriving DecidableEq

/-- The controlling side of the mining worker, with every command sent to it. -/
structure Miner where
  generation : UInt64
  sent : List MinerCommand
  deriving DecidableEq

namespace Miner

def submit (miner : Miner) (candidate : Block) : Miner :=
  let generation := miner.generation + 1
  ⟨generation, miner.sent ++ [.submit generation candidate]⟩

def cancel (miner : Miner) : Miner :=
  let generation := miner.generation + 1
  ⟨generation, miner.sent ++ [.cancel generation]⟩

end Miner

structure Server [Crypto] where
  config : NodeConfig
  state : NodeState
  peers : HashMap Text RuntimePeer
  connectedPeers : HashMap Text Unit
  sqliteStore : Option SqliteStore
  bootstrapSync : Bool
  mining : Option MiningConfig
  miner : Option Miner

def newRuntimePeer (endpoint : PeerEndpoint) (stored : StoredPeer) : RuntimePeer :=
  ⟨endpoint, stored, none, none, .idle⟩

structure ServerOptions [Crypto] where
  config : NodeConfig
  state : NodeState
  peers : List PeerEndpoint
  /-- The database, once opened. -/
  sqliteStore : Option SqliteStore
  bootstrapSync : Bool
  mining : Option MiningConfig

def ServerOptions.new [Crypto] (config : NodeConfig) (state : NodeState) : ServerOptions :=
  ⟨config, state, [], none, false, none⟩

/-- A server before it is started. -/
def Server.new [Crypto] (options : ServerOptions) : Server where
  config := options.config
  state := options.state
  peers := HashMap.new.insertAll (options.peers.map fun peer =>
    (peer.addr, newRuntimePeer peer (StoredPeer.fromEndpoint peer .seed)))
  connectedPeers := HashMap.new
  sqliteStore := options.sqliteStore
  bootstrapSync := options.bootstrapSync
  mining := options.mining
  miner := none

/-- What the server does on the network, in order. A block that is asked for on a second session,
after the first attempt has failed, is noted once. -/
inductive Effect where
  | requestBlock (peer : PeerEndpoint) (hash : BlockHash)
  | relay (message : WireMessage) (origin : Option PeerAddr)
  | announce (addr : Text) (message : WireMessage)
  deriving DecidableEq

/-- The server, the number of answers the world has given, and what has been done. -/
structure Live [Crypto] where
  server : Server
  clock : Nat
  trace : List Effect

/-- Nothing has happened yet. -/
def Live.start [Crypto] (server : Server) : Live := ⟨server, 0, []⟩

/-- Everything outside the event loop. Answers may depend on the moment they are given. -/
structure World where
  currentUnixSeconds : Nat → Nat
  diskFails : Nat → Bool
  connect : Nat → Text → HelloMessage → Except ClientError HelloMessage
  requestTip : Nat → PeerSession → Text → Except RequestError TipSummary
  requestBlock : Nat → PeerSession → Text → BlockHash → Except RequestError (Option Block)
  announce : Nat → PeerSession → Text → WireMessage → Except IoError Unit
  /-- `format!("\x7berr:?\x7d")`. -/
  debug : SyncError → Text
  /-- The order in which `HashMap::values` lists the peers. -/
  peerOrder : Nat → List PeerEndpoint → List PeerEndpoint
  peerOrder_perm : ∀ time peers, (peerOrder time peers).Perm peers
  /-- How many rounds of a sync walk are followed before it counts as not returning. -/
  rounds : Nat

variable [Crypto]

abbrev ServerIo (ε α : Type) : Type := Io World Live ε α

namespace Server

variable {ε α : Type}

/-- One answer of the world. -/
def observe (f : World → Nat → α) : ServerIo ε α := do
  let answer ← Io.ask fun world live => f world live.clock
  Io.modify fun live => { live with clock := live.clock + 1 }
  return answer

def emit (effect : Effect) : ServerIo ε Unit :=
  Io.modify fun live => { live with trace := live.trace ++ [effect] }

def self : ServerIo ε Server := do
  let live ← Io.read
  return live.server

def update (f : Server → Server) : ServerIo ε Unit :=
  Io.modify fun live => { live with server := f live.server }

/-- A call on the node state. -/
def onState (f : NodeState → NodeState × Res ε α) : ServerIo ε α := do
  let server ← self
  let (state, result) := f server.state
  update fun server => { server with state := state }
  Io.lift result

def nowTimestampString : ServerIo ε Text := do
  let seconds ← observe World.currentUnixSeconds
  return formatTimestampString seconds

/-- One transaction of the database, if there is one; the disk may fail it. -/
def commit (transaction : Commit) : ServerIo SqliteStoreError Unit := do
  let server ← self
  match server.sqliteStore with
  | none => return ()
  | some store =>
    let failed ← observe World.diskFails
    if failed then Io.fail .sqlite else
    match transaction store with
    | .error e => Io.lift (.error e)
    | .ok store => update fun server => { server with sqliteStore := some store }

/-- The transactions of a save, in order and up to the first that fails. Nothing is done
without a database. -/
def persist (plan : Option (List Commit)) : ServerIo SqliteStoreError Unit := do
  let server ← self
  match server.sqliteStore with
  | none => return ()
  | some _ =>
    let commits ← Io.await (plan.map .ok)
    Io.forEach commit commits

end Server

def mempoolTxids (mempool : Mempool) : Finset Txid := mempool.keys

def minedBlockHash (replies : List WireMessage) : Option BlockHash :=
  replies.findSome? fun reply => match reply with
    | .minedBlock result => some result.blockHash
    | _ => none

def savedBlockHash (message : WireMessage) : Option BlockHash :=
  match message with
  | .announceBlock block => some block.header.blockHash
  | _ => none

/-- Whether the block extends the previous best tip. -/
def extendsPreviousTip (previousBestTip parent : Option BlockHash) : Bool :=
  match previousBestTip, parent with
  | none, none => true
  | some previous, some parent => parent == previous
  | _, _ => false

def blockSaveRequiresMempoolIndexRefresh {ε : Type} (state : NodeState) (blockHash : BlockHash)
    (previousBestTip : Option BlockHash) (previousMempoolTxids : Finset Txid) : Res ε Bool :=
  match state.chain.get blockHash with
  | none => .ok true
  | some entry =>
    if state.chain.bestTip ≠ some blockHash then .ok false
    else if !extendsPreviousTip previousBestTip entry.parent then .ok true
    else match state.getBlock blockHash with
      | none => .ok true
      | some block => do
        let removedTxids := previousMempoolTxids \ mempoolTxids state.mempool
        let includedTxids ← Res.mapAll Transaction.txid (block.transactions.drop 1)
        return decide (removedTxids ≠ includedTxids.toFinset)

/-- The transactions `save_accepted_block_state` commits. -/
def saveAcceptedBlockState (state : NodeState) (blockHash : BlockHash)
    (previousBestTip : Option BlockHash) (previousMempoolTxids : Finset Txid) :
    Option (List Commit) :=
  (SqliteStore.saveAcceptedBlock state blockHash).bind fun commits =>
    match blockSaveRequiresMempoolIndexRefresh state blockHash previousBestTip
      previousMempoolTxids with
    | .ok true => (SqliteStore.saveMempoolState state).map (commits ++ ·)
    | .ok false => some commits
    | .error e => some (commits ++ [fun _ => .error e])

/-- The transactions `save_sqlite` commits. -/
def saveSqlite (state : NodeState) (message : WireMessage) (requestBlockHash : Option BlockHash)
    (previousBestTip : Option BlockHash) (previousMempoolTxids : Finset Txid)
    (replies : List WireMessage) : Option (List Commit) :=
  match message with
  | .announceTx transaction => some [SqliteStore.saveMempoolTransaction transaction]
  | _ =>
    match requestBlockHash.or (minedBlockHash replies) with
    | none => some [SqliteStore.saveActiveUtxos state.activeUtxos,
        SqliteStore.saveMempool state.mempool]
    | some blockHash =>
      match blockSaveRequiresMempoolIndexRefresh state blockHash previousBestTip
        previousMempoolTxids with
      | .ok true => saveAcceptedBlockState state blockHash previousBestTip previousMempoolTxids
      | .ok false => SqliteStore.saveAcceptedBlock state blockHash
      | .error e => some [fun _ => .error e]

end Wobble
