import Wobble.Server.Server

namespace Wobble

open Rust

variable [Crypto]

namespace Server

variable {ε α : Type}

def configuredPeerSyncCooldown : Nat := 5

/-- `get_mut` on the peer table and a change of what it finds. -/
def modifyPeer (server : Server) (addr : Text) (f : RuntimePeer → RuntimePeer) : Server :=
  match server.peers.get addr with
  | none => server
  | some peer => { server with peers := server.peers.insert addr (f peer) }

def ensureRuntimePeer (server : Server) (endpoint : PeerEndpoint) (source : PeerSource) :
    Server :=
  let peer := newRuntimePeer endpoint (StoredPeer.fromEndpoint endpoint source)
  { server with peers := server.peers.orInsert endpoint.addr peer }

def peerEndpoints (server : Server) : List PeerEndpoint :=
  Sql.orderBy PeerEndpoint.addr (server.peers.iter.map fun entry => entry.2.endpoint)

def syncPeerFromOrigin (world : World) (live : Live) (origin : PeerAddr) : Option PeerEndpoint :=
  match origin.advertisedAddr with
  | some addr => some ⟨addr, origin.nodeName⟩
  | none =>
    origin.nodeName.bind fun nodeName =>
      (world.peerOrder live.clock (live.server.peers.iter.map fun entry => entry.2.endpoint)).find?
        fun peer => peer.nodeName == some nodeName

def peerSyncInProgress (server : Server) (addr : Text) : Bool :=
  match server.peers.get addr with
  | some peer => peer.syncState == .syncing
  | none => false

def peerTipSyncIsDuplicate (server : Server) (addr : Text) (summary : TipSummary) : Bool :=
  (server.peers.get addr).bind RuntimePeer.lastTipSyncHint == some summary

def tipSummaryAdvancesLocalState (server : Server) (summary : TipSummary) : Bool :=
  (match summary.tip with
    | some tip => (server.state.getBlock tip).isNone
    | none => false) ||
  server.state.tipSummary.height.getD 0 < summary.height.getD 0

/-- `and_modify` or `or_insert_with` on the peer table. -/
def upsertRuntimePeer (server : Server) (peer : StoredPeer) : Server :=
  let runtime := match server.peers.get peer.addr with
    | some runtime => { runtime with endpoint := peer.endpoint, stored := peer }
    | none => newRuntimePeer peer.endpoint peer
  { server with peers := server.peers.insert peer.addr runtime }

/-- The database is there in every call. -/
def updatePersistedPeer (endpoint : PeerEndpoint) (source : PeerSource)
    (change : StoredPeer → StoredPeer) : ServerIo SqliteStoreError Unit := do
  let server ← self
  let store ← Io.lift (Res.expect "peer persistence requires an open sqlite store"
    server.sqliteStore)
  let failed ← observe World.diskFails
  if failed then Io.fail .sqlite else do
  let peer := (store.loadPeer endpoint.addr).getD (StoredPeer.fromEndpoint endpoint source)
  let peer := { peer with nodeName := endpoint.nodeName.or peer.nodeName }
  let peer := change peer
  update (upsertRuntimePeer · peer)
  commit (SqliteStore.savePeer peer)

/-- `unknown`, for a peer that gave no address. -/
def unknownAddr : Text := ⟨[117, 110, 107, 110, 111, 119, 110]⟩

def recordInboundHello (remoteHello : HelloMessage) : ServerIo SqliteStoreError Unit := do
  let addr := remoteHello.advertisedAddr.getD unknownAddr
  let endpoint : PeerEndpoint := ⟨addr, remoteHello.nodeName⟩
  let now ← nowTimestampString
  let change := fun peer : StoredPeer => { peer with
    advertisedTipHash := remoteHello.tip
    advertisedHeight := remoteHello.height
    lastHelloAt := some now
    lastSeenAt := some now }
  let server ← self
  if server.sqliteStore.isSome then updatePersistedPeer endpoint .hello change else do
  update (ensureRuntimePeer · endpoint .hello)
  update (modifyPeer · endpoint.addr fun runtime =>
    { runtime with endpoint := endpoint, stored := change runtime.stored })

def recordInboundTip (origin : Option PeerAddr) (summary : TipSummary) :
    ServerIo SqliteStoreError Unit := do
  let server ← self
  let peer ← Io.ask fun world live => origin.bind (syncPeerFromOrigin world live)
  match peer.or (origin.bind fun origin =>
      origin.advertisedAddr.map fun addr => ⟨addr, origin.nodeName⟩) with
  | none => return ()
  | some endpoint =>
    let now ← nowTimestampString
    let change := fun peer : StoredPeer => { peer with
      advertisedTipHash := summary.tip
      advertisedHeight := summary.height
      lastSeenAt := some now }
    if server.sqliteStore.isSome then updatePersistedPeer endpoint .hello change else do
    update (ensureRuntimePeer · endpoint .hello)
    update (modifyPeer · endpoint.addr fun runtime =>
      { runtime with stored := change runtime.stored })

/-- The record is kept only in a database. -/
def recordPeer (peer : PeerEndpoint)
    (change : ServerIo SqliteStoreError (StoredPeer → StoredPeer)) :
    ServerIo SqliteStoreError Unit := do
  let server ← self
  if server.sqliteStore.isNone then return () else do
  let change ← change
  updatePersistedPeer peer .seed change

def recordPeerConnectAttempt (peer : PeerEndpoint) : ServerIo SqliteStoreError Unit :=
  recordPeer peer do
    let now ← nowTimestampString
    return fun stored => { stored with lastConnectAt := some now }

def recordPeerConnectSuccess (peer : PeerEndpoint) (remoteHello : HelloMessage) :
    ServerIo SqliteStoreError Unit :=
  recordPeer peer do
    let helloAt ← nowTimestampString
    let seenAt ← nowTimestampString
    let connectAt ← nowTimestampString
    let successAt ← nowTimestampString
    return fun stored => { stored with
      nodeName := remoteHello.nodeName.or stored.nodeName
      advertisedTipHash := remoteHello.tip
      advertisedHeight := remoteHello.height
      lastHelloAt := some helloAt
      lastSeenAt := some seenAt
      lastConnectAt := some connectAt
      lastSuccessAt := some successAt
      lastError := none
      connections := saturatingIncrement stored.connections }

def recordPeerConnectFailure (peer : PeerEndpoint) (e : SyncError) :
    ServerIo SqliteStoreError Unit :=
  recordPeer peer do
    let now ← nowTimestampString
    let text ← Io.ask fun world _ => world.debug e
    return fun stored => { stored with
      lastConnectAt := some now
      lastError := some text
      failedConnections := saturatingIncrement stored.failedConnections }

def peerIsReadyForSync (peer : StoredPeer) : ServerIo ε Bool :=
  match peer.lastConnectAt.bind parseTimestampString with
  | none => return true
  | some seconds => do
    let now ← observe World.currentUnixSeconds
    return decide (configuredPeerSyncCooldown ≤ now - seconds)

def peerEndpointIsReadyForSync (peer : PeerEndpoint) : ServerIo ε Bool := do
  let server ← self
  match server.peers.get peer.addr with
  | some runtime => peerIsReadyForSync runtime.stored
  | none => return true

/-- The first element a test accepts. -/
def findFirst (p : α → ServerIo ε Bool) : List α → ServerIo ε (Option α)
  | [] => return none
  | a :: rest => do
    let found ← p a
    if found then return some a else findFirst p rest

/-- Greatest advertised height first, then by address. -/
def syncOrder (peer : StoredPeer) : Natᵒᵈ ×ₗ Text :=
  toLex (OrderDual.toDual (peer.advertisedHeight.getD 0), peer.addr)

def selectSyncPeers : ServerIo ε (List PeerEndpoint) := do
  let server ← self
  let localHeight := server.state.tipSummary.height.getD 0
  let candidates := Sql.orderBy syncOrder (server.peers.iter.map fun entry => entry.2.stored)
  let best ← findFirst (fun peer => do
      let ready ← peerIsReadyForSync peer
      return ready && (decide (localHeight < peer.advertisedHeight.getD 0) ||
        match peer.advertisedTipHash with
        | some tip => (server.state.getBlock tip).isNone
        | none => false)) candidates
  match best with
  | some best => return [best.endpoint]
  | none =>
    let fallback ← findFirst (fun peer =>
        match server.peers.get peer.addr with
        | some runtime =>
          if runtime.stored.advertisedHeight.isNone then peerEndpointIsReadyForSync peer
          else return false
        | none => peerEndpointIsReadyForSync peer) server.peerEndpoints
    return fallback.toList

/-- An open session is used again; otherwise one is opened and kept. -/
def ensurePeerConnected (endpoint : PeerEndpoint) : ServerIo SyncError PeerSession := do
  update (ensureRuntimePeer · endpoint .seed)
  let server ← self
  match (server.peers.get endpoint.addr).bind RuntimePeer.session with
  | some session => return session
  | none =>
    let _ ← Io.attempt (recordPeerConnectAttempt endpoint)
    let server ← self
    let hello := localHello server.config server.state
    let opened ← Io.ask fun _ live => live.clock
    let answer ← observe fun world time => world.connect time endpoint.addr hello
    match answer with
    | .ok remoteHello =>
      Io.mapErr .sqlitePersist (recordPeerConnectSuccess endpoint remoteHello)
      let session : PeerSession := ⟨opened⟩
      update (modifyPeer · endpoint.addr fun runtime => { runtime with session := some session })
      return session
    | .error e =>
      let _ ← Io.attempt (recordPeerConnectFailure endpoint (.handshake e))
      Io.fail (.handshake e)

def disconnectPeer (addr : Text) : ServerIo ε Unit :=
  update (modifyPeer · addr fun runtime => { runtime with session := none })

/-- The common loop of the two requests: a second attempt on a new session, and no more. -/
def requestFromPeer (peer : PeerEndpoint)
    (request : World → Nat → PeerSession → Except RequestError α) : ServerIo SyncError α := do
  let session ← ensurePeerConnected peer
  let answer ← observe fun world time => request world time session
  match answer with
  | .ok a => return a
  | .error _ =>
    disconnectPeer peer.addr
    let session ← ensurePeerConnected peer
    let answer ← observe fun world time => request world time session
    match answer with
    | .ok a => return a
    | .error e => Io.fail (.request e)

def requestTipFromPeer (peer : PeerEndpoint) : ServerIo SyncError TipSummary := do
  let summary ← requestFromPeer peer fun world time session =>
    world.requestTip time session peer.addr
  let server ← self
  let now ← nowTimestampString
  let change := fun stored : StoredPeer => { stored with
    advertisedTipHash := summary.tip
    advertisedHeight := summary.height
    lastSeenAt := some now
    lastError := none }
  if server.sqliteStore.isSome then
    Io.mapErr .sqlitePersist (updatePersistedPeer peer .seed change)
  else
    update (modifyPeer · peer.addr fun runtime => { runtime with stored := change runtime.stored })
  return summary

def requestBlockFromPeer (peer : PeerEndpoint) (blockHash : BlockHash) :
    ServerIo SyncError (Option Block) :=
  requestFromPeer peer fun world time session =>
    world.requestBlock time session peer.addr blockHash

/-- The backward loop of `sync_to_advertised_tip`, for a number of rounds: the blocks fetched,
newest first. -/
def fetchMissing (peer : PeerEndpoint) : Nat → BlockHash → ServerIo SyncError (List Block)
  | 0, _ => Io.await none
  | rounds + 1, nextHash => do
    let server ← self
    if (server.state.getBlock nextHash).isSome then return [] else do
    emit (.requestBlock peer nextHash)
    let answer ← requestBlockFromPeer peer nextHash
    match answer with
    | none => Io.fail (.missingRemoteBlock nextHash)
    | some block =>
      let parentHash := block.header.prevBlockhash
      if parentHash = BlockHash.default then return [block] else do
      let older ← fetchMissing peer rounds parentHash
      return block :: older

def acceptSyncedBlock (block : Block) (previousBestTip : Option BlockHash)
    (previousMempoolTxids : Finset Txid) : ServerIo SyncError (Option Block) := do
  let blockHash := block.header.blockHash
  let server ← self
  if (server.state.getBlock blockHash).isSome then return none else do
  Io.mapErr .acceptBlock (onState fun state => state.acceptBlock block)
  let server ← self
  Io.mapErr .sqlitePersist (persist
    (saveAcceptedBlockState server.state blockHash previousBestTip previousMempoolTxids))
  return some block

/-- The forward loop, oldest block first. -/
def acceptFetched : List Block → ServerIo SyncError (List Block)
  | [] => return []
  | block :: rest => do
    let server ← self
    let accepted ← acceptSyncedBlock block server.state.chain.bestTip
      (mempoolTxids server.state.mempool)
    let more ← acceptFetched rest
    return accepted.toList ++ more

def syncToAdvertisedTip (peer : PeerEndpoint) (remoteTipSummary : TipSummary) :
    ServerIo SyncError (List Block) := do
  match remoteTipSummary.tip with
  | none => return []
  | some remoteTip =>
    let server ← self
    if (server.state.getBlock remoteTip).isSome then return [] else do
    let rounds ← Io.ask fun world _ => world.rounds
    let missing ← fetchMissing peer rounds remoteTip
    acceptFetched missing.reverse

def setSyncState (addr : Text) (syncState : PeerSyncState) : ServerIo ε Unit :=
  update (modifyPeer · addr fun runtime => { runtime with syncState := syncState })

def syncFromPeerInner (peer : PeerEndpoint) : ServerIo SyncError (List Block) := do
  let remoteTipSummary ← requestTipFromPeer peer
  syncToAdvertisedTip peer remoteTipSummary

/-- The peer is marked as syncing for the time of the walk, however it ends. -/
def syncFromPeer (peer : PeerEndpoint) : ServerIo ε (Except SyncError (List Block)) := do
  setSyncState peer.addr .syncing
  let result ← Io.attempt (syncFromPeerInner peer)
  setSyncState peer.addr .idle
  return result

def syncKnownPeersBestEffort : ServerIo ε Unit := do
  let peers ← selectSyncPeers
  Io.forEach (fun peer => do
      let result ← syncFromPeer peer
      match result with
      | .ok _ => return ()
      | .error e =>
        let _ ← Io.attempt (recordPeerConnectFailure peer e)
        return ()) peers

end Server

end Wobble
