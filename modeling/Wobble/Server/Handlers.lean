import Wobble.Server.Sync

namespace Wobble

open Rust

variable [Crypto]

namespace Server

variable {ε : Type}

def relayConnectAttempts : Nat := 3

def announceToPeerOnce (peer : PeerEndpoint) (message : WireMessage) :
    ServerIo ε (Except Unit Unit) := do
  let session ← Io.attempt (ensurePeerConnected peer)
  match session with
  | .error _ => return .error ()
  | .ok session =>
    emit (.announce peer.addr message)
    let answer ← observe fun world time => world.announce time session peer.addr message
    match answer with
    | .ok () => return .ok ()
    | .error _ => return .error ()

/-- At most so many attempts, each on a new session after the first. -/
def announceToPeerBestEffort (peer : PeerEndpoint) (message : WireMessage) :
    Nat → ServerIo ε Unit
  | 0 => return ()
  | attempts + 1 => do
    let result ← announceToPeerOnce peer message
    match result with
    | .ok () => return ()
    | .error () =>
      disconnectPeer peer.addr
      announceToPeerBestEffort peer message attempts

def peerMatchesOrigin (peer : PeerEndpoint) (origin : Option PeerAddr) : Bool :=
  match origin with
  | none => false
  | some origin =>
    match origin.advertisedAddr with
    | some addr => peer.addr == addr
    | none => peer.nodeName == origin.nodeName

def relayBestEffort (message : WireMessage) (origin : Option PeerAddr) : ServerIo ε Unit := do
  emit (.relay message origin)
  let server ← self
  Io.forEach (fun peer =>
      if peerMatchesOrigin peer origin then return ()
      else announceToPeerBestEffort peer message relayConnectAttempts) server.peerEndpoints

def relayMessageBeforeHandle (server : Server) (message : WireMessage) :
    Res ε (Option WireMessage) :=
  match message with
  | .announceTx transaction => do
    let txid ← transaction.txid
    return if server.state.mempool.containsKey txid then none else some message
  | .announceBlock block =>
    .ok (if (server.state.getBlock block.header.blockHash).isSome then none else some message)
  | .announceTip summary =>
    .ok (if server.tipSummaryAdvancesLocalState summary then some message else none)
  | _ => .ok none

def relayMessageFromReplies (server : Server) (replies : List WireMessage) :
    Option WireMessage :=
  replies.findSome? fun reply => match reply with
    | .minedBlock result => (server.state.getBlock result.blockHash).map .announceBlock
    | _ => none

def relayNewBestTipIfAdvanced (previousBestTip : Option BlockHash) (origin : Option PeerAddr) :
    ServerIo ε Unit := do
  let server ← self
  if server.state.chain.bestTip = previousBestTip then return ()
  else relayBestEffort (.announceTip server.state.tipSummary) origin

variable [Profile]

def refreshMiningCandidate : ServerIo ε Unit := do
  let server ← self
  if server.mining.isNone then return () else do
  let (mining, built) := buildMiningCandidate server.state server.mining
  update fun server => { server with mining := mining }
  let candidate ← Io.attempt (Io.lift built)
  match candidate with
  -- a candidate is built, there is none, or building it panics
  | .error _ => return ()
  | .ok none => update fun server => { server with miner := server.miner.map Miner.cancel }
  | .ok (some candidate) =>
    update fun server => { server with miner := server.miner.map (Miner.submit · candidate) }

def maybeRefreshMining (previousBestTip : Option BlockHash)
    (previousMempoolTxids : Finset Txid) : ServerIo ε Unit := do
  let server ← self
  if server.state.chain.bestTip = previousBestTip ∧
      mempoolTxids server.state.mempool = previousMempoolTxids then return ()
  else refreshMiningCandidate

/-- What the handlers do about a change of the state once it is saved. -/
def spreadChange (relays : List WireMessage) (previousBestTip : Option BlockHash)
    (previousMempoolTxids : Finset Txid) (origin : Option PeerAddr) : ServerIo ε Unit := do
  Io.forEach (relayBestEffort · origin) relays
  relayNewBestTipIfAdvanced previousBestTip origin
  maybeRefreshMining previousBestTip previousMempoolTxids

/-- The common end of the handlers that change the state. -/
def finishMutation (message : WireMessage) (saveBlockHash previousBestTip : Option BlockHash)
    (previousMempoolTxids : Finset Txid) (replies : List WireMessage)
    (relay : Option WireMessage) (origin : Option PeerAddr) : ServerIo ServerError Unit := do
  let server ← self
  Io.mapErr .sqlitePersist (persist (saveSqlite server.state message saveBlockHash
    previousBestTip previousMempoolTxids replies))
  spreadChange (relay.or (server.relayMessageFromReplies replies)).toList previousBestTip
    previousMempoolTxids origin

def handleStateMutatingPeerMessage (message : WireMessage) (origin : Option PeerAddr)
    (saveBlockHash : Option BlockHash) : ServerIo ServerError (List WireMessage) := do
  let server ← self
  let previousBestTip := server.state.chain.bestTip
  let previousMempoolTxids := mempoolTxids server.state.mempool
  let relay ← Io.lift (server.relayMessageBeforeHandle message)
  let replies ← Io.mapErr .peer (match message with
    | .announceTx transaction => onState fun state => state.announceTx transaction
    | .announceBlock block => onState fun state => state.announceBlock block
    | _ => Io.lift (.error (.panic
        "state-mutating peer handler only supports tx/block announcements")))
  finishMutation message saveBlockHash previousBestTip previousMempoolTxids replies relay origin
  return replies

/-- Whether a rejection is for want of ancestors. -/
def announcedBlockNeedsAncestorSync (e : NodeStateError) (parentHash : BlockHash) : Bool :=
  match e with
  | .chain (.missingParent _) => parentHash != BlockHash.default
  | .chain .genesisHasParent => parentHash != BlockHash.default
  | _ => false

/-- `none` when there is no peer to sync from. -/
def tryHandleAnnouncedBlockWithSync (block : Block) (origin : Option PeerAddr) :
    ServerIo ServerError (Option (List WireMessage)) := do
  let message := WireMessage.announceBlock block
  let blockHash := block.header.blockHash
  let parentHash := block.header.prevBlockhash
  let server ← self
  let peer ← Io.ask fun world live => origin.bind (syncPeerFromOrigin world live)
  match peer with
  | none => return none
  | some peer =>
    let relay ← Io.lift (server.relayMessageBeforeHandle message)
    let previousBestTip := server.state.chain.bestTip
    let previousMempoolTxids := mempoolTxids server.state.mempool
    let first ← Io.attempt (onState fun state => state.announceBlock block)
    match first with
    | .ok replies =>
      finishMutation message (some blockHash) previousBestTip previousMempoolTxids replies relay
        origin
      return some replies
    | .error (.blockRejected e) =>
      if !announcedBlockNeedsAncestorSync e parentHash then
        Io.fail (.peer (.blockRejected e))
      else do
      -- the outcome of the sync is only logged
      let _ ← syncFromPeer peer
      let replies ← Io.mapErr .peer (onState fun state => state.announceBlock block)
      finishMutation message (some blockHash) previousBestTip previousMempoolTxids replies relay
        origin
      return some replies
    | .error e => Io.fail (.peer e)

def handlePeerAnnounceBlock (block : Block) (origin : Option PeerAddr) :
    ServerIo ServerError (List WireMessage) := do
  let recovered ← tryHandleAnnouncedBlockWithSync block origin
  match recovered with
  | some replies => return replies
  | none =>
    let message := WireMessage.announceBlock block
    handleStateMutatingPeerMessage message origin (savedBlockHash message)

/-- A call on the node state that may not return. -/
def onStateAwait {α : Type} (f : NodeState → Option (NodeState × Res ε α)) : ServerIo ε α := do
  let server ← self
  let (state, result) ← Io.await ((f server.state).map .ok)
  update fun server => { server with state := state }
  Io.lift result

def handlePeerMinePending (request : MinePendingRequest) (origin : Option PeerAddr) :
    ServerIo ServerError (List WireMessage) := do
  let server ← self
  let previousBestTip := server.state.chain.bestTip
  let previousMempoolTxids := mempoolTxids server.state.mempool
  let replies ← Io.mapErr .peer (onStateAwait fun state => state.minePending request)
  finishMutation (.minePending request) none previousBestTip previousMempoolTxids replies none
    origin
  return replies

def handlePeerHello (remoteHello : HelloMessage) : ServerIo ServerError (List WireMessage) := do
  Io.mapErr .sqlitePersist (recordInboundHello remoteHello)
  let server ← self
  if remoteHello.network ≠ server.config.network then
    Io.fail (.peer (.networkMismatch server.config.network remoteHello.network))
  else if remoteHello.version ≠ protocolVersion then
    Io.fail (.peer (.unsupportedVersion remoteHello.version))
  else return [.hello (localHello server.config server.state)]

def handlePeerAnnounceTip (summary : TipSummary) (origin : Option PeerAddr) :
    ServerIo ServerError (List WireMessage) := do
  Io.mapErr .sqlitePersist (recordInboundTip origin summary)
  return []

def handlePeerMessage (origin : Option PeerAddr) :
    WireMessage → ServerIo ServerError (List WireMessage)
  | .hello remoteHello => handlePeerHello remoteHello
  | .getTip => do
    let server ← self
    return [.tip server.state.tipSummary]
  | .getBlock blockHash => do
    let server ← self
    return [.block (server.state.getBlock blockHash)]
  | .announceTip summary => handlePeerAnnounceTip summary origin
  | .announceTx transaction =>
    handleStateMutatingPeerMessage (.announceTx transaction) origin none
  | .announceBlock block => handlePeerAnnounceBlock block origin
  | .minePending request => handlePeerMinePending request origin
  | .tip _ | .block _ | .minedBlock _ => return []

/-- `u32::saturating_add`. -/
def saturatingAdd32 (a b : UInt32) : UInt32 :=
  if a.toNat + b.toNat < 2^32 then a + b else UInt32.ofNat (2^32 - 1)

/-- The loop over the blocks of a bootstrap request. -/
def bootstrapFrom (publicKey : Bytes) (start : UInt32) :
    List UInt32 → Option BlockHash → ServerIo ServerError (Option BlockHash)
  | [], lastBlockHash => return lastBlockHash
  | offset :: rest, _ => do
    let replies ← handlePeerMessage none (.minePending
      ⟨blockSubsidy, publicKey, saturatingAdd32 start offset, 0x207fffff, 0⟩)
    bootstrapFrom publicKey start rest (minedBlockHash replies)

def startUniqueness (state : NodeState) : UInt32 :=
  match state.tipSummary.height with
  | some height => if height + 1 < 2^32 then UInt32.ofNat (height + 1) else 0
  | none => 0

def handleAdminRequest : AdminRequest → ServerIo ε AdminResponse
  | .getStatus => do
    let server ← self
    let tip := server.state.tipSummary
    return .status ⟨tip.tip, tip.height, server.state.chain.branchCount,
      server.state.mempool.len, server.connectedPeers.len, server.mining.isSome⟩
  | .getBalance publicKey =>
    match parseVerifyingKey publicKey with
    | none => return .error .invalidPublicKey
    | some owner => do
      let server ← self
      let amount ← Io.lift (server.state.balanceForKey owner)
      return .balance ⟨amount⟩
  | .bootstrap publicKey blocks =>
    if (parseVerifyingKey publicKey).isNone then return .error .invalidPublicKey else do
    let server ← self
    let offsets := (List.range blocks.toNat).map UInt32.ofNat
    let result ← Io.attempt (bootstrapFrom publicKey (startUniqueness server.state) offsets none)
    match result with
    | .ok lastBlockHash => return .bootstrapped ⟨blocks, lastBlockHash⟩
    | .error e => return .error (.debug e)
  | .submitTransaction transaction => do
    let txid ← Io.lift transaction.txid
    let result ← Io.attempt (handlePeerMessage none (.announceTx transaction))
    match result with
    | .ok _ => return .submitted txid
    | .error e => return .error (.debug e)

def handleMinedCandidate (block : Block) : ServerIo ε (Except ServerError Unit) := do
  let server ← self
  let expectedParent := server.state.chain.bestTip.getD BlockHash.default
  if block.header.prevBlockhash ≠ expectedParent then return .ok () else do
  let result ← Io.attempt (handlePeerAnnounceBlock block none)
  return result.map fun _ => ()

def handleTipSync (origin : PeerAddr) (summary : TipSummary) : ServerIo ε Unit := do
  let server ← self
  if !server.tipSummaryAdvancesLocalState summary then return () else do
  let peer ← Io.ask fun world live => syncPeerFromOrigin world live origin
  match peer with
  | none => return ()
  | some peer =>
    if server.peerTipSyncIsDuplicate peer.addr summary then return ()
    else if server.peerSyncInProgress peer.addr then return ()
    else do
    update (modifyPeer · peer.addr fun runtime =>
      { runtime with lastTipSyncHint := some summary })
    let previousBestTip := server.state.chain.bestTip
    let previousMempoolTxids := mempoolTxids server.state.mempool
    setSyncState peer.addr .syncing
    let result ← Io.attempt (syncToAdvertisedTip peer summary)
    setSyncState peer.addr .idle
    let acceptedBlocks := match result with
      | .ok blocks => blocks
      | .error _ => []
    spreadChange (acceptedBlocks.map .announceBlock) previousBestTip previousMempoolTxids
      (some origin)

def handleSyncTick : ServerIo ε Unit := do
  let server ← self
  if server.bootstrapSync then return () else syncKnownPeersBestEffort

def handleBootstrap : ServerIo ε Unit := do
  let server ← self
  if server.bootstrapSync then do
    syncKnownPeersBestEffort
    update fun server => { server with bootstrapSync := false }
  refreshMiningCandidate

end Server

/-- What reaches the event loop. The replies that go back are what the handlers return. -/
inductive ServerEvent where
  | bootstrap
  | peerConnected (peerId : Text)
  | peerMessage (origin : Option PeerAddr) (message : WireMessage)
  | peerDisconnected (peerId : Text)
  | adminRequest (request : AdminRequest)
  | tipSync (origin : PeerAddr) (summary : TipSummary)
  | syncTick
  | minedCandidate (block : Block)
  | stop

/-- How the handler of an event ends. -/
inductive Outcome where
  | done
  | replied (result : Except ServerError (List WireMessage))
  | responded (response : AdminResponse)
  | mined (result : Except ServerError Unit)
  | stopped

namespace Server

variable [Profile] {ε : Type}

def handleEvent : ServerEvent → ServerIo ε Outcome
  | .bootstrap => do
    handleBootstrap
    return .done
  | .peerConnected peerId => do
    update fun server => { server with
      connectedPeers := server.connectedPeers.insert peerId () }
    return .done
  | .peerMessage origin message => do
    let result ← Io.attempt (handlePeerMessage origin message)
    return .replied result
  | .peerDisconnected peerId => do
    update fun server => { server with connectedPeers := server.connectedPeers.remove peerId }
    return .done
  | .adminRequest request => do
    let response ← handleAdminRequest request
    return .responded response
  | .tipSync origin summary => do
    handleTipSync origin summary
    return .done
  | .syncTick => do
    handleSyncTick
    return .done
  | .minedCandidate block => do
    let result ← handleMinedCandidate block
    return .mined result
  | .stop => return .stopped

end Server

end Wobble
