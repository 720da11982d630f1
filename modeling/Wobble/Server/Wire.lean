import Wobble.Node.Candidate
import Wobble.Store.Incremental

namespace Wobble

open Rust

deriving instance DecidableEq for MinePendingRequest

def protocolVersion : UInt32 := 1

structure TipSummary where
  tip : Option BlockHash
  height : Option Nat
  deriving DecidableEq

structure HelloMessage where
  network : Text
  version : UInt32
  nodeName : Option Text
  advertisedAddr : Option Text
  tip : Option BlockHash
  height : Option Nat
  deriving DecidableEq

structure MinedBlock where
  blockHash : BlockHash
  deriving DecidableEq

inductive WireMessage where
  | hello (message : HelloMessage)
  | getTip
  | tip (summary : TipSummary)
  | announceTip (summary : TipSummary)
  | announceTx (transaction : Transaction)
  | announceBlock (block : Block)
  | getBlock (blockHash : BlockHash)
  | block (block : Option Block)
  | minePending (request : MinePendingRequest)
  | minedBlock (result : MinedBlock)
  deriving DecidableEq

/-- The identity and listener settings a node sends or compares. -/
structure NodeConfig where
  listenAddr : Text
  network : Text
  nodeName : Option Text
  advertisedAddr : Option Text
  deriving DecidableEq

structure PeerEndpoint where
  addr : Text
  nodeName : Option Text
  deriving DecidableEq

/-- Who a stream belongs to, as its `hello` said. -/
structure PeerAddr where
  advertisedAddr : Option Text
  nodeName : Option Text
  deriving DecidableEq

inductive PeerError where
  | networkMismatch (ours theirs : Text)
  | unsupportedVersion (version : UInt32)
  | transactionRejected (e : NodeStateError)
  | blockRejected (e : NodeStateError)
  | invalidMinerPublicKey
  | miningRejected (e : NodeStateError)
  deriving DecidableEq

/-- What the operating system reports. -/
structure IoError where
  text : Text
  deriving DecidableEq

inductive ClientError where
  | connect (e : IoError)
  | sendHello (e : IoError)
  | receiveHello (e : IoError)
  | unexpectedHandshake (message : WireMessage)
  deriving DecidableEq

inductive RequestError where
  | handshake (e : ClientError)
  | send (e : IoError)
  | receive (e : IoError)
  | unexpectedResponse (message : WireMessage)
  deriving DecidableEq

inductive SyncError where
  | handshake (e : ClientError)
  | request (e : RequestError)
  | missingRemoteBlock (hash : BlockHash)
  | acceptBlock (e : NodeStateError)
  | sqlitePersist (e : SqliteStoreError)
  deriving DecidableEq

inductive ServerError where
  | peer (e : PeerError)
  | sqlitePersist (e : SqliteStoreError)
  | sync (e : SyncError)
  deriving DecidableEq

inductive AdminRequest where
  | getStatus
  | getBalance (publicKey : Bytes)
  | bootstrap (publicKey : Bytes) (blocks : UInt32)
  | submitTransaction (transaction : Transaction)
  deriving DecidableEq

structure StatusSummary where
  tip : Option BlockHash
  height : Option Nat
  branchCount : Nat
  mempoolSize : Nat
  peerCount : Nat
  miningEnabled : Bool
  deriving DecidableEq

structure BalanceSummary where
  amount : UInt64
  deriving DecidableEq

structure BootstrapSummary where
  blocksMined : UInt32
  lastBlockHash : Option BlockHash
  deriving DecidableEq

/-- The text of an error response: a fixed one, or the debug form of an error. -/
inductive AdminMessage where
  | invalidPublicKey
  | debug (e : ServerError)
  deriving DecidableEq

inductive AdminResponse where
  | status (summary : StatusSummary)
  | balance (summary : BalanceSummary)
  | bootstrapped (summary : BootstrapSummary)
  | submitted (txid : Txid)
  | error (message : AdminMessage)
  deriving DecidableEq

def StoredPeer.fromEndpoint (endpoint : PeerEndpoint) (source : PeerSource) : StoredPeer where
  addr := endpoint.addr
  nodeName := endpoint.nodeName
  source := source
  advertisedTipHash := none
  advertisedHeight := none
  lastHelloAt := none
  lastSeenAt := none
  lastConnectAt := none
  lastSuccessAt := none
  lastError := none
  connections := 0
  failedConnections := 0
  behaviorScore := 100
  bannedUntil := none

def StoredPeer.endpoint (peer : StoredPeer) : PeerEndpoint := ⟨peer.addr, peer.nodeName⟩

def NodeState.tipSummary (state : NodeState) : TipSummary :=
  match state.chain.bestTip with
  | none => ⟨none, none⟩
  | some bestTip => ⟨some bestTip, (state.chain.get bestTip).map ChainIndexEntry.height⟩

def NodeState.getBlock (state : NodeState) (hash : BlockHash) : Option Block :=
  state.blocks.get hash

def localHello (config : NodeConfig) (state : NodeState) : HelloMessage :=
  let tip := state.tipSummary
  ⟨config.network, protocolVersion, config.nodeName,
    config.advertisedAddr.or (some config.listenAddr), tip.tip, tip.height⟩

section Protocol

variable [Crypto]

/-- `peer::handle_message` on an announced transaction, as the server's own handler has it too:
one that is already pending is not an error. -/
def NodeState.announceTx (state : NodeState) (transaction : Transaction) :
    NodeState × Res PeerError (List WireMessage) :=
  match state.submitTransaction transaction with
  | (state, .ok _) => (state, .ok [])
  | (state, .error (.err (.mempool (.duplicateTransaction _)))) => (state, .ok [])
  | (state, .error (.err e)) => (state, .error (.err (.transactionRejected e)))
  | (state, .error (.panic m)) => (state, .error (.panic m))

/-- `peer::handle_message` on an announced block. -/
def NodeState.announceBlock (state : NodeState) (block : Block) :
    NodeState × Res PeerError (List WireMessage) :=
  match state.acceptBlock block with
  | (state, .ok ()) => (state, .ok [])
  | (state, .error (.err e)) => (state, .error (.err (.blockRejected e)))
  | (state, .error (.panic m)) => (state, .error (.panic m))

/-- `peer::handle_message` on a mining request; `none` when the nonce search does not end. -/
def NodeState.minePending [Profile] (state : NodeState) (request : MinePendingRequest) :
    Option (NodeState × Res PeerError (List WireMessage)) :=
  match parseVerifyingKey request.minerPublicKey with
  | none => some (state, .error (.err .invalidMinerPublicKey))
  | some miner =>
    (state.mineBlock request.reward miner request.uniqueness request.bits
      request.maxTransactions).map fun mined => (mined.1, match mined.2 with
        | .ok blockHash => .ok [.minedBlock ⟨blockHash⟩]
        | .error (.err e) => .error (.err (.miningRejected e))
        | .error (.panic m) => .error (.panic m))

end Protocol

end Wobble
