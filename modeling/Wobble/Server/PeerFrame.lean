import Wobble.Peer.RefusedHello
import Wobble.Server.EventFrame

namespace Wobble

open Rust Io

variable [Crypto]

namespace SqliteStore

/-- The commit leaves the table of peers alone. -/
def SparesPeers (transaction : Commit) : Prop :=
  ∀ store store', transaction store = .ok store' → store'.peers = store.peers

omit [Crypto] in
theorem foldl_peers {α : Type} (f : SqliteStore → α → SqliteStore)
    (hf : ∀ store a, (f store a).peers = store.peers) (l : List α) (store : SqliteStore) :
    (l.foldl f store).peers = store.peers := by
  induction l generalizing store with
  | nil => rfl
  | cons a rest ih =>
    rw [List.foldl_cons, ih, hf]

omit [Crypto] in
theorem deletePendingTransactionRow_peers (store : SqliteStore) (txid : Txid) :
    (store.deletePendingTransactionRow txid).peers = store.peers := by
  rw [deletePendingTransactionRow]
  split
  · split <;> rfl
  · rfl

omit [Crypto] in
theorem saveBlockRecord_spares (block : Block) (entry : ChainIndexEntry)
    (bestTip : Option BlockHash) : SparesPeers (saveBlockRecord block entry bestTip) := by
  intro store store' h
  cases h
  rfl

omit [Crypto] in
theorem saveActiveUtxos_spares (utxos : UtxoSet) : SparesPeers (saveActiveUtxos utxos) := by
  intro store store' h
  obtain ⟨rows, -, h⟩ := (Res.bind_eq_ok _ _ _).mp h
  cases h
  rfl

omit [Crypto] in
theorem saveMempool_spares (mempool : Mempool) : SparesPeers (saveMempool mempool) := by
  intro store store' h
  obtain ⟨rows, -, h⟩ := (Res.bind_eq_ok _ _ _).mp h
  cases h
  rfl

omit [Crypto] in
theorem saveTransactionIndex_spares (transactions : List IndexedTransaction)
    (edges : List TransactionKeyEdge) : SparesPeers (saveTransactionIndex transactions edges) := by
  intro store store' h
  obtain ⟨rows, -, h⟩ := (Res.bind_eq_ok _ _ _).mp h
  cases h
  rfl

omit [Crypto] in
theorem deleteStaleMempoolTransactions_spares (mempool : Mempool) :
    SparesPeers (deleteStaleMempoolTransactions mempool) := by
  intro store store' h
  obtain ⟨persisted, -, h⟩ := (Res.bind_eq_ok _ _ _).mp h
  cases h
  refine foldl_peers _ (fun store txid => ?_) persisted store
  split
  · rfl
  · exact deletePendingTransactionRow_peers _ txid

theorem saveMempoolTransaction_spares (transaction : Transaction) :
    SparesPeers (saveMempoolTransaction transaction) := by
  intro store store' h
  obtain ⟨txid, -, h⟩ := (Res.bind_eq_ok _ _ _).mp h
  obtain ⟨edges, -, h⟩ := (Res.bind_eq_ok _ _ _).mp h
  cases h
  rw [foldl_peers insertTransactionKeyRow fun _ _ => rfl]
  rfl

theorem saveConfirmedBlockTransactions_spares (block : Block) (entry : ChainIndexEntry) :
    SparesPeers (saveConfirmedBlockTransactions block entry) := by
  intro store store' h
  obtain ⟨built, -, h⟩ := (Res.bind_eq_ok _ _ _).mp h
  obtain ⟨merged, -, h⟩ := (Res.bind_eq_ok _ _ _).mp h
  cases h
  rw [foldl_peers insertTransactionKeyRow fun _ _ => rfl]
  refine foldl_peers _ (fun store indexed => ?_) merged store
  rfl

theorem saveAcceptedBlock_spares {state : NodeState} {hash : BlockHash} {commits : List Commit}
    (h : saveAcceptedBlock state hash = some commits) :
    ∀ transaction ∈ commits, SparesPeers transaction := by
  unfold saveAcceptedBlock at h
  split at h
  · obtain ⟨onBestChain, -, rfl⟩ := Option.map_eq_some_iff.mp h
    refine List.forall_mem_cons.mpr ⟨saveBlockRecord_spares _ _ _, ?_⟩
    split
    · intro transaction ht
      cases ht
    · simp only [List.forall_mem_cons, List.not_mem_nil, false_imp_iff, implies_true, and_true]
      exact ⟨saveActiveUtxos_spares _, deleteStaleMempoolTransactions_spares _,
        saveConfirmedBlockTransactions_spares _ _⟩
  · cases h
    refine List.forall_mem_singleton.mpr fun store store' h => ?_
    cases h

theorem saveMempoolState_spares {state : NodeState} {commits : List Commit}
    (h : saveMempoolState state = some commits) :
    ∀ transaction ∈ commits, SparesPeers transaction := by
  obtain ⟨built, -, rfl⟩ := Option.map_eq_some_iff.mp h
  refine List.forall_mem_cons.mpr ⟨?_, List.forall_mem_singleton.mpr ?_⟩
  · intro store store' h
    obtain ⟨index, -, h⟩ := (Res.bind_eq_ok _ _ _).mp h
    exact saveMempool_spares _ store store' h
  · intro store store' h
    obtain ⟨index, -, h⟩ := (Res.bind_eq_ok _ _ _).mp h
    exact saveTransactionIndex_spares _ _ store store' h

omit [Crypto] in
theorem failing_spares (e : Fault SqliteStoreError) : SparesPeers fun _ => .error e := by
  intro store store' h
  cases h

end SqliteStore

open SqliteStore (SparesPeers)

theorem saveAcceptedBlockState_spares {state : NodeState} {hash : BlockHash}
    {tip : Option BlockHash} {txids : Finset Txid} {commits : List Commit}
    (h : saveAcceptedBlockState state hash tip txids = some commits) :
    ∀ transaction ∈ commits, SparesPeers transaction := by
  obtain ⟨first, hfirst, h⟩ := Option.bind_eq_some_iff.mp h
  have hspares := SqliteStore.saveAcceptedBlock_spares hfirst
  split at h
  · obtain ⟨more, hmore, rfl⟩ := Option.map_eq_some_iff.mp h
    exact List.forall_mem_append.mpr ⟨hspares, SqliteStore.saveMempoolState_spares hmore⟩
  · cases h
    exact hspares
  · cases h
    exact List.forall_mem_append.mpr ⟨hspares,
      List.forall_mem_singleton.mpr (SqliteStore.failing_spares _)⟩

theorem saveSqlite_spares {state : NodeState} {message : WireMessage}
    {request tip : Option BlockHash} {txids : Finset Txid} {replies : List WireMessage}
    {commits : List Commit} (h : saveSqlite state message request tip txids replies = some commits) :
    ∀ transaction ∈ commits, SparesPeers transaction := by
  unfold saveSqlite at h
  split at h
  · cases h
    exact List.forall_mem_singleton.mpr (SqliteStore.saveMempoolTransaction_spares _)
  · split at h
    · cases h
      exact List.forall_mem_cons.mpr ⟨SqliteStore.saveActiveUtxos_spares _,
        List.forall_mem_singleton.mpr (SqliteStore.saveMempool_spares _)⟩
    · split at h
      · exact saveAcceptedBlockState_spares h
      · exact SqliteStore.saveAcceptedBlock_spares h
      · cases h
        exact List.forall_mem_singleton.mpr (SqliteStore.failing_spares _)

/-- What an update of a record keeps: who the peer is, how it became known, its score and its ban;
what has happened once stays noted and the counters do not fall. -/
structure StoredPeer.Grows (old new : StoredPeer) : Prop where
  addr : new.addr = old.addr
  source : new.source = old.source
  behaviorScore : new.behaviorScore = old.behaviorScore
  bannedUntil : new.bannedUntil = old.bannedUntil
  nodeName : old.nodeName.isSome → new.nodeName.isSome
  lastHelloAt : old.lastHelloAt.isSome → new.lastHelloAt.isSome
  lastSeenAt : old.lastSeenAt.isSome → new.lastSeenAt.isSome
  lastConnectAt : old.lastConnectAt.isSome → new.lastConnectAt.isSome
  lastSuccessAt : old.lastSuccessAt.isSome → new.lastSuccessAt.isSome
  connections : old.connections.toNat ≤ new.connections.toNat
  failedConnections : old.failedConnections.toNat ≤ new.failedConnections.toNat

def Recording (change : StoredPeer → StoredPeer) : Prop := ∀ peer, StoredPeer.Grows peer (change peer)

/-- The record `update_persisted_peer` writes. -/
def SqliteStore.updatedPeer (store : SqliteStore) (endpoint : PeerEndpoint) (source : PeerSource)
    (change : StoredPeer → StoredPeer) : StoredPeer :=
  let peer := (store.loadPeer endpoint.addr).getD (StoredPeer.fromEndpoint endpoint source)
  change { peer with nodeName := endpoint.nodeName.or peer.nodeName }

def SqliteStore.withPeer (store : SqliteStore) (peer : StoredPeer) : SqliteStore :=
  { store with peers := store.peers.insert peer.addr peer }

instance : IsPreorder Live SamePeers where
  refl _ := ⟨rfl, rfl⟩
  trans _ _ _ h h' := ⟨h'.1.trans h.1, h'.2.trans h.2⟩

/-- All that is done to the peers keeps the property. In a world whose disk never fails a record is
not left in memory only. -/
structure PeerFrame (w : World) (I : Live → Prop) : Prop where
  same : ∀ live live', SamePeers live live' → I live → I live'
  ensures : ∀ live endpoint source, I live →
    I (live.onServer (·.ensureRuntimePeer endpoint source))
  touches : ∀ live addr f, (∀ runtime : RuntimePeer, (f runtime).endpoint = runtime.endpoint ∧
    (f runtime).stored = runtime.stored) → I live → I (live.onServer (·.modifyPeer addr f))
  records : ∀ live store endpoint source change, Recording change →
    live.server.sqliteStore = some store → I live →
    I ((live.onServer (·.upsertRuntimePeer (store.updatedPeer endpoint source change))).withStore
      (store.withPeer (store.updatedPeer endpoint source change)))
  unsaved : ∀ live store endpoint source change, Recording change →
    live.server.sqliteStore = some store → (∃ time, w.diskFails time = true) → I live →
    I (live.onServer (·.upsertRuntimePeer (store.updatedPeer endpoint source change)))
  unstored : ∀ live addr f, live.server.sqliteStore = none →
    (∀ runtime : RuntimePeer, runtime.stored.Grows (f runtime).stored ∧
      ((f runtime).endpoint = runtime.endpoint ∨ (f runtime).endpoint.addr = addr)) →
    I live → I (live.onServer (·.modifyPeer addr f))

namespace Server

variable {ε α : Type} {w : World} {I : Live → Prop} (hI : PeerFrame w I)

include hI

theorem same_maintains {m : ServerIo ε α} (h : Keeps SamePeers m) : Maintains w I m :=
  maintains_of_keeps h fun live live' hsame => hI.same live live' hsame

omit hI in
theorem observe_same (f : World → Nat → α) : Keeps SamePeers (observe f : ServerIo ε α) :=
  keeps_bind (keeps_ask _) fun _ =>
    keeps_bind (keeps_modify _ fun _ => ⟨rfl, rfl⟩) fun _ => keeps_pure _

omit hI in
theorem nowTimestampString_same : Keeps SamePeers (nowTimestampString : ServerIo ε Text) :=
  keeps_bind (observe_same _) fun _ => keeps_pure _

omit hI in
theorem triple_self {P : Live → Prop} {Q : α → Live → Prop} {E : Live → Prop}
    {f : Server → ServerIo ε α}
    (h : ∀ server, Triple w (fun live => P live ∧ live.server = server) (f server) Q E) :
    Triple w P (self >>= f) Q E :=
  ⟨fun live live' a hP heq => (h live.server).ok live live' a ⟨hP, rfl⟩ heq,
    fun live live' e hP heq => (h live.server).error live live' e ⟨hP, rfl⟩ heq⟩

theorem touch_maintains (addr : Text) (f : RuntimePeer → RuntimePeer)
    (hf : ∀ runtime, (f runtime).endpoint = runtime.endpoint ∧
      (f runtime).stored = runtime.stored) :
    Maintains w I (update (modifyPeer · addr f) : ServerIo ε Unit) := by
  refine (triple_iff _).mpr fun live live' r hlive heq => ?_
  cases heq
  exact hI.touches live addr f hf hlive

theorem ensure_maintains (endpoint : PeerEndpoint) (source : PeerSource) :
    Maintains w I (update (ensureRuntimePeer · endpoint source) : ServerIo ε Unit) := by
  refine (triple_iff _).mpr fun live live' r hlive heq => ?_
  cases heq
  exact hI.ensures live endpoint source hlive

/-- Without a database the record in memory is the only one. -/
theorem unstored_maintains (addr : Text) (f : RuntimePeer → RuntimePeer)
    (hf : ∀ runtime, runtime.stored.Grows (f runtime).stored ∧
      ((f runtime).endpoint = runtime.endpoint ∨ (f runtime).endpoint.addr = addr)) :
    Triple w (fun live => I live ∧ live.server.sqliteStore = none)
      (update (modifyPeer · addr f) : ServerIo ε Unit) (fun _ => I) I := by
  refine (triple_iff _).mpr fun live live' r hlive heq => ?_
  cases heq
  exact hI.unstored live addr f hlive.2 hf hlive.1

omit hI in
theorem updatePersistedPeer_apply (endpoint : PeerEndpoint) (source : PeerSource)
    (change : StoredPeer → StoredPeer) (live : Live) (store : SqliteStore)
    (hstore : live.server.sqliteStore = some store) :
    updatePersistedPeer endpoint source change w live =
      if w.diskFails live.clock then some (live.tick, .error (.err .sqlite)) else
        commit (SqliteStore.savePeer (store.updatedPeer endpoint source change)) w
          (live.tick.onServer (·.upsertRuntimePeer (store.updatedPeer endpoint source change))) := by
  change ((lift (Res.expect _ live.server.sqliteStore)) >>= _ : ServerIo SqliteStoreError Unit) w
    live = _
  rw [hstore]
  change (if w.diskFails live.clock then _ else _ : ServerIo SqliteStoreError Unit) w live.tick = _
  split <;> rfl

theorem updatePersistedPeer_maintains (endpoint : PeerEndpoint) (source : PeerSource)
    (change : StoredPeer → StoredPeer) (hchange : Recording change) :
    Maintains w I (updatePersistedPeer endpoint source change) := by
  refine (triple_iff _).mpr fun live live' r hlive heq => ?_
  cases hstore : live.server.sqliteStore with
  | none =>
    simp [updatePersistedPeer, self, bind_apply, hstore, Res.expect] at heq
    exact heq.1 ▸ hlive
  | some store =>
    have htick : I live.tick := hI.same live live.tick ⟨rfl, rfl⟩ hlive
    have hkept : live.tick.server.sqliteStore = some store := hstore
    rw [updatePersistedPeer_apply endpoint source change live store hstore] at heq
    split at heq
    · cases heq
      exact htick
    · have hupserted : (live.tick.onServer (·.upsertRuntimePeer
          (store.updatedPeer endpoint source change))).server.sqliteStore = some store := hstore
      rw [commit_apply, hupserted] at heq
      dsimp only at heq
      split at heq
      · rename_i hfails
        cases heq
        refine hI.same _ _ ?_
          (hI.unsaved live.tick store endpoint source change hchange hkept ⟨_, hfails⟩ htick)
        exact ⟨rfl, rfl⟩
      · cases heq
        refine hI.same _ _ ?_
          (hI.records live.tick store endpoint source change hchange hkept htick)
        exact ⟨rfl, rfl⟩

/-- The server is read, and the time after it. -/
theorem self_now_maintains {f : Server → Text → ServerIo ε α}
    (hf : ∀ server now, Triple w (fun live => I live ∧ live.server = server) (f server now)
      (fun _ => I) I) :
    Maintains w I (do
      let server ← self
      let now ← nowTimestampString
      f server now) := by
  refine (triple_iff _).mpr fun live live' r hlive heq => ?_
  have htick : I live.tick := hI.same live live.tick ⟨rfl, rfl⟩ hlive
  exact (triple_iff _).mp (hf live.server _) live.tick live' r ⟨htick, rfl⟩ heq

theorem record_maintains (server : Server) (endpoint : PeerEndpoint) (source : PeerSource)
    (change : StoredPeer → StoredPeer) (hchange : Recording change)
    {m : ServerIo SqliteStoreError Unit}
    (hm : Triple w (fun live => I live ∧ live.server.sqliteStore = none) m (fun _ => I) I) :
    Triple w (fun live => I live ∧ live.server = server)
      (if server.sqliteStore.isSome then updatePersistedPeer endpoint source change else m)
      (fun _ => I) I := by
  split
  · exact (updatePersistedPeer_maintains hI endpoint source change hchange).of_pre
      fun live hlive => hlive.1
  · rename_i hnone
    refine hm.of_pre fun live hlive => ⟨hlive.1, ?_⟩
    rw [hlive.2]
    exact Option.not_isSome_iff_eq_none.mp hnone

/-- Without a database the record is made if need be and then changed. -/
theorem ensure_modify_maintains (endpoint : PeerEndpoint) (f : RuntimePeer → RuntimePeer)
    (hf : ∀ runtime, runtime.stored.Grows (f runtime).stored ∧
      ((f runtime).endpoint = runtime.endpoint ∨ (f runtime).endpoint.addr = endpoint.addr)) :
    Triple w (fun live => I live ∧ live.server.sqliteStore = none) (do
      update (ensureRuntimePeer · endpoint .hello)
      update (modifyPeer · endpoint.addr f) : ServerIo ε Unit) (fun _ => I) I := by
  refine triple_bind (M := fun _ live => I live ∧ live.server.sqliteStore = none) ?_ fun _ =>
    unstored_maintains hI _ f hf
  refine ⟨fun live live' a hlive heq => ?_, fun live live' e hlive heq => ?_⟩
  · cases heq
    exact ⟨hI.ensures live endpoint .hello hlive.1, hlive.2⟩
  · cases heq

theorem recordInboundHello_maintains (remoteHello : HelloMessage) :
    Maintains w I (recordInboundHello remoteHello) := by
  have hgrows : ∀ now, Recording fun peer => { peer with
      advertisedTipHash := remoteHello.tip
      advertisedHeight := remoteHello.height
      lastHelloAt := some now
      lastSeenAt := some now } :=
    fun now peer => ⟨rfl, rfl, rfl, rfl, id, fun _ => rfl, fun _ => rfl, id, id, le_rfl, le_rfl⟩
  refine triple_bind (same_maintains hI nowTimestampString_same) fun now =>
    triple_self fun server => record_maintains hI server _ _ _ (hgrows now) ?_
  exact ensure_modify_maintains hI _ _ fun runtime => ⟨hgrows now runtime.stored, .inr rfl⟩

theorem recordInboundTip_maintains (origin : Option PeerAddr) (summary : TipSummary) :
    Maintains w I (recordInboundTip origin summary) := by
  have hgrows : ∀ now, Recording fun peer => { peer with
      advertisedTipHash := summary.tip
      advertisedHeight := summary.height
      lastSeenAt := some now } :=
    fun now peer => ⟨rfl, rfl, rfl, rfl, id, id, fun _ => rfl, id, id, le_rfl, le_rfl⟩
  refine (triple_iff _).mpr fun live live' r hlive heq => ?_
  rw [recordInboundTip, self_bind, bind_apply, ask_apply] at heq
  dsimp only at heq
  cases hendpoint : (origin.bind (syncPeerFromOrigin w live)).or (origin.bind fun origin =>
      origin.advertisedAddr.map fun addr => ⟨addr, origin.nodeName⟩) with
  | none =>
    rw [hendpoint] at heq
    cases heq
    exact hlive
  | some endpoint =>
    rw [hendpoint] at heq
    have htick : I live.tick := hI.same live live.tick ⟨rfl, rfl⟩ hlive
    refine (triple_iff _).mp (record_maintains hI live.server _ _ _ (hgrows _) ?_) live.tick live' r
      ⟨htick, rfl⟩ heq
    exact ensure_modify_maintains hI _ _ fun runtime => ⟨hgrows _ runtime.stored, .inl rfl⟩

theorem recordPeer_maintains (peer : PeerEndpoint)
    (change : ServerIo SqliteStoreError (StoredPeer → StoredPeer))
    (h : Triple w I change (fun f live => I live ∧ Recording f) I) :
    Maintains w I (recordPeer peer change) := by
  refine triple_bind (same_maintains hI self_keeps) fun server => ?_
  split
  · exact triple_pure _ fun _ hlive => hlive
  · refine triple_bind h fun f => ?_
    refine (triple_iff _).mpr fun live live' r hlive heq => ?_
    exact (triple_iff _).mp (updatePersistedPeer_maintains hI peer .seed f hlive.2) live live' r
      hlive.1 heq

theorem recordPeerConnectAttempt_maintains (peer : PeerEndpoint) :
    Maintains w I (recordPeerConnectAttempt peer) := by
  refine recordPeer_maintains hI peer _ (triple_bind (same_maintains hI nowTimestampString_same)
    fun now => triple_pure _ fun live hlive => ⟨hlive, fun stored => ?_⟩)
  exact ⟨rfl, rfl, rfl, rfl, id, id, id, fun _ => rfl, id, le_rfl, le_rfl⟩

omit [Crypto] hI in
theorem le_saturatingIncrement (count : UInt32) :
    count.toNat ≤ (saturatingIncrement count).toNat := by
  unfold saturatingIncrement
  split
  · rename_i h
    rw [UInt32.toNat_add]
    change _ ≤ (count.toNat + 1) % 2^32
    omega
  · exact le_rfl

theorem recordPeerConnectSuccess_maintains (peer : PeerEndpoint) (remoteHello : HelloMessage) :
    Maintains w I (recordPeerConnectSuccess peer remoteHello) := by
  have hnow := same_maintains (ε := SqliteStoreError) hI nowTimestampString_same
  refine recordPeer_maintains hI peer _ (triple_bind hnow fun helloAt => triple_bind hnow
    fun seenAt => triple_bind hnow fun connectAt => triple_bind hnow fun successAt =>
      triple_pure _ fun live hlive => ⟨hlive, fun stored => ?_⟩)
  refine ⟨rfl, rfl, rfl, rfl, ?_, fun _ => rfl, fun _ => rfl, fun _ => rfl, fun _ => rfl,
    le_saturatingIncrement _, le_rfl⟩
  intro hnamed
  rw [Option.isSome_or, hnamed, Bool.or_true]

theorem recordPeerConnectFailure_maintains (peer : PeerEndpoint) (e : SyncError) :
    Maintains w I (recordPeerConnectFailure peer e) := by
  refine recordPeer_maintains hI peer _ (triple_bind (same_maintains hI nowTimestampString_same)
    fun now => triple_bind (same_maintains hI (keeps_ask _)) fun text =>
      triple_pure _ fun live hlive => ⟨hlive, fun stored => ?_⟩)
  exact ⟨rfl, rfl, rfl, rfl, id, id, id, fun _ => rfl, id, le_rfl, le_saturatingIncrement _⟩

theorem ensurePeerConnected_maintains (endpoint : PeerEndpoint) :
    Maintains w I (ensurePeerConnected endpoint) := by
  refine triple_bind (ensure_maintains hI _ _) fun _ =>
    triple_bind (same_maintains hI self_keeps) fun server => ?_
  dsimp only
  split
  · exact triple_pure _ fun _ hlive => hlive
  refine triple_bind (maintains_attempt (recordPeerConnectAttempt_maintains hI _)) fun _ =>
    triple_bind (same_maintains hI self_keeps) fun server =>
      triple_bind (same_maintains hI (keeps_ask _)) fun _ =>
        triple_bind (same_maintains hI (observe_same _)) fun answer => ?_
  cases answer with
  | ok remoteHello =>
    exact triple_bind (triple_mapErr _ (recordPeerConnectSuccess_maintains hI _ _)) fun _ =>
      triple_bind (touch_maintains hI _ _ fun _ => ⟨rfl, rfl⟩) fun _ =>
        triple_pure _ fun _ hlive => hlive
  | error e =>
    exact triple_bind (maintains_attempt (recordPeerConnectFailure_maintains hI _ _)) fun _ =>
      same_maintains hI (keeps_lift _)

theorem disconnectPeer_maintains (addr : Text) :
    Maintains w I (disconnectPeer addr : ServerIo ε Unit) :=
  touch_maintains hI _ _ fun _ => ⟨rfl, rfl⟩

theorem requestFromPeer_maintains (peer : PeerEndpoint)
    (request : World → Nat → PeerSession → Except RequestError α) :
    Maintains w I (requestFromPeer peer request) := by
  refine triple_bind (ensurePeerConnected_maintains hI _) fun session =>
    triple_bind (same_maintains hI (observe_same _)) fun answer => ?_
  cases answer with
  | ok a => exact triple_pure _ fun _ hlive => hlive
  | error e =>
    refine triple_bind (disconnectPeer_maintains hI _) fun _ =>
      triple_bind (ensurePeerConnected_maintains hI _) fun session =>
        triple_bind (same_maintains hI (observe_same _)) fun answer => ?_
    cases answer with
    | ok a => exact triple_pure _ fun _ hlive => hlive
    | error e => exact same_maintains hI (keeps_lift _)

theorem requestTipFromPeer_maintains (peer : PeerEndpoint) :
    Maintains w I (requestTipFromPeer peer) := by
  refine triple_bind (requestFromPeer_maintains hI _ _) fun summary =>
    self_now_maintains hI fun server now => ?_
  have hgrows : Recording fun stored => { stored with
      advertisedTipHash := summary.tip
      advertisedHeight := summary.height
      lastSeenAt := some now
      lastError := none } :=
    fun peer => ⟨rfl, rfl, rfl, rfl, id, id, fun _ => rfl, id, id, le_rfl, le_rfl⟩
  dsimp only
  split
  · refine triple_bind (triple_mapErr _ ?_) fun _ => triple_pure _ fun _ hlive => hlive
    exact (updatePersistedPeer_maintains hI peer .seed _ hgrows).of_pre fun live hlive => hlive.1
  · rename_i hnone
    refine triple_bind ((unstored_maintains hI peer.addr _ ?_).of_pre ?_) fun _ =>
      triple_pure _ fun _ hlive => hlive
    · exact fun runtime => ⟨hgrows runtime.stored, .inl rfl⟩
    · intro live hlive
      refine ⟨hlive.1, ?_⟩
      rw [hlive.2]
      exact Option.not_isSome_iff_eq_none.mp hnone

theorem fetchMissing_maintains (peer : PeerEndpoint) (rounds : Nat) (nextHash : BlockHash) :
    Maintains w I (fetchMissing peer rounds nextHash) := by
  induction rounds generalizing nextHash with
  | zero => exact same_maintains hI (keeps_await _)
  | succ rounds ih =>
    refine triple_bind (same_maintains hI self_keeps) fun server => ?_
    dsimp only
    split
    · exact triple_pure _ fun _ hlive => hlive
    refine triple_bind (same_maintains hI (keeps_modify _ fun _ => ⟨rfl, rfl⟩)) fun _ =>
      triple_bind (requestFromPeer_maintains hI _ _) fun answer => ?_
    cases answer with
    | none => exact same_maintains hI (keeps_lift _)
    | some block =>
      dsimp only
      split
      · exact triple_pure _ fun _ hlive => hlive
      · exact triple_bind (ih _) fun _ => triple_pure _ fun _ hlive => hlive

omit hI in
theorem peerIsReadyForSync_same (peer : StoredPeer) :
    Keeps SamePeers (peerIsReadyForSync peer : ServerIo ε Bool) := by
  rw [peerIsReadyForSync]
  split
  · exact keeps_pure _
  · exact keeps_bind (observe_same _) fun _ => keeps_pure _

omit hI in
theorem peerEndpointIsReadyForSync_same (peer : PeerEndpoint) :
    Keeps SamePeers (peerEndpointIsReadyForSync peer : ServerIo ε Bool) := by
  refine keeps_bind self_keeps fun server => ?_
  split
  · exact peerIsReadyForSync_same _
  · exact keeps_pure _

omit hI in
theorem selectSyncPeers_same : Keeps SamePeers (selectSyncPeers : ServerIo ε (List PeerEndpoint)) := by
  refine keeps_bind self_keeps fun server => keeps_bind (findFirst_keeps _ _ fun peer =>
    keeps_bind (peerIsReadyForSync_same _) fun _ => keeps_pure _) fun best => ?_
  cases best with
  | some best => exact keeps_pure _
  | none =>
    refine keeps_bind (findFirst_keeps _ _ fun peer => ?_) fun fallback => keeps_pure _
    split
    · split
      · exact peerEndpointIsReadyForSync_same _
      · exact keeps_pure _
    · exact peerEndpointIsReadyForSync_same _

theorem announceToPeerBestEffort_maintains (peer : PeerEndpoint) (message : WireMessage)
    (attempts : Nat) :
    Maintains w I (announceToPeerBestEffort peer message attempts : ServerIo ε Unit) := by
  have honce : Maintains w I (announceToPeerOnce peer message : ServerIo ε _) := by
    refine triple_bind (maintains_attempt (ensurePeerConnected_maintains hI _)) fun session => ?_
    cases session with
    | error e => exact triple_pure _ fun _ hlive => hlive
    | ok session =>
      refine triple_bind (same_maintains hI (keeps_modify _ fun _ => ⟨rfl, rfl⟩)) fun _ =>
        triple_bind (same_maintains hI (observe_same _)) fun answer => ?_
      cases answer <;> exact triple_pure _ fun _ hlive => hlive
  induction attempts with
  | zero => exact triple_pure _ fun _ hlive => hlive
  | succ attempts ih =>
    refine triple_bind honce fun result => ?_
    cases result with
    | ok a => exact triple_pure _ fun _ hlive => hlive
    | error e => exact triple_bind (disconnectPeer_maintains hI _) fun _ => ih

theorem relayBestEffort_maintains (message : WireMessage) (origin : Option PeerAddr) :
    Maintains w I (relayBestEffort message origin : ServerIo ε Unit) := by
  refine triple_bind (same_maintains hI (keeps_modify _ fun _ => ⟨rfl, rfl⟩)) fun _ =>
    triple_bind (same_maintains hI self_keeps) fun server =>
      maintains_forEach _ fun peer _ => ?_
  split
  · exact triple_pure _ fun _ hlive => hlive
  · exact announceToPeerBestEffort_maintains hI _ _ _

theorem relayNewBestTipIfAdvanced_maintains (previousBestTip : Option BlockHash)
    (origin : Option PeerAddr) :
    Maintains w I (relayNewBestTipIfAdvanced previousBestTip origin : ServerIo ε Unit) := by
  refine triple_bind (same_maintains hI self_keeps) fun server => ?_
  split
  · exact triple_pure _ fun _ hlive => hlive
  · exact relayBestEffort_maintains hI _ _

theorem commit_spares (transaction : Commit) (h : SparesPeers transaction) :
    Maintains w I (commit transaction) := by
  refine (triple_iff _).mpr fun live live' r hlive heq => ?_
  rw [commit_apply] at heq
  have htick : I live.tick := hI.same live live.tick ⟨rfl, rfl⟩ hlive
  cases hs : live.server.sqliteStore with
  | none =>
    rw [hs] at heq
    cases heq
    exact hlive
  | some store =>
    rw [hs] at heq
    dsimp only at heq
    split at heq
    · cases heq
      exact htick
    · cases hc : transaction store with
      | error e =>
        rw [hc] at heq
        cases heq
        exact htick
      | ok store' =>
        rw [hc] at heq
        cases heq
        refine hI.same live _ ⟨rfl, ?_⟩ hlive
        change some store'.peers = _
        rw [h store store' hc, hs]
        rfl

/-- Nothing that is planned touches the peers. -/
def Sparing (plan : Option (List Commit)) : Prop :=
  ∀ commits, plan = some commits → ∀ transaction ∈ commits, SparesPeers transaction

theorem persist_spares (plan : Option (List Commit)) (h : Sparing plan) :
    Maintains w I (persist plan) := by
  refine triple_bind (same_maintains hI self_keeps) fun server => ?_
  split
  · exact triple_pure _ fun _ hlive => hlive
  · refine triple_bind (M := fun commits live => I live ∧ plan = some commits) ?_ fun commits => ?_
    · refine ⟨fun live live' commits hlive heq => ?_, fun live live' e hlive heq => ?_⟩
      · cases plan with
        | none => cases heq
        | some planned =>
          cases heq
          exact ⟨hlive, rfl⟩
      · cases plan <;> cases heq
    · refine (triple_iff _).mpr fun live live' r hlive heq => ?_
      have hcommits := maintains_forEach commits fun transaction ht =>
        commit_spares hI transaction (h commits hlive.2 transaction ht)
      exact (triple_iff _).mp hcommits live live' r hlive.1 heq

theorem remines_maintains {m : ServerIo ε α} (h : Keeps Remines m) : Maintains w I m := by
  refine maintains_of_keeps h fun live live' hmines hlive => hI.same live live' ⟨?_, ?_⟩ hlive
  · exact (congrArg Server.peers hmines.same.1 :
      live'.server.withoutMining.peers = live.server.withoutMining.peers)
  · rw [hmines.same.server.2]

omit [Crypto] hI in
theorem sparing_singleton {transaction : Commit} (h : SparesPeers transaction) :
    Sparing (some [transaction]) := by
  intro commits hplan
  cases hplan
  exact List.forall_mem_singleton.mpr h

omit hI in
theorem sparing_block {state : NodeState} {hash : BlockHash} {plan : Option (List Commit)}
    (h : SavesBlock state hash plan) : Sparing plan := by
  intro commits hplan
  cases h with
  | synced tip txids => exact saveAcceptedBlockState_spares hplan
  | handled message request tip txids replies _ _ => exact saveSqlite_spares hplan

variable [Profile]

theorem peerFrame_handlerFrame :
    HandlerFrame w Set.univ I fun plan live => I live ∧ Sparing plan where
  asks := requestTipFromPeer_maintains hI
  fetches := fetchMissing_maintains hI
  fails := recordPeerConnectFailure_maintains hI
  selects := same_maintains hI selectSyncPeers_same
  touches := hI.touches
  accepts live block _ h _ hplan := ⟨hI.same live _ ⟨rfl, rfl⟩ h, sparing_block hplan⟩
  refuses live block _ h _ := hI.same live _ ⟨rfl, rfl⟩ h
  saves plan := by
    refine (triple_iff _).mpr fun live live' r h heq => ?_
    exact (persist_spares hI plan h.2).leaves h.1 heq
  hello := recordInboundHello_maintains hI
  tip := recordInboundTip_maintains hI
  spreads relays _ _ origin :=
    triple_bind (maintains_forEach _ fun message _ => relayBestEffort_maintains hI message origin)
      fun _ => triple_bind (relayNewBestTipIfAdvanced_maintains hI _ _) fun _ =>
        remines_maintains hI (maybeRefreshMining_keeps _ _)
  refreshes := remines_maintains hI refreshMiningCandidate_keeps
  starts live h := hI.same live _ ⟨rfl, rfl⟩ h
  submits live tx _ _ _ h _ := ⟨hI.same live _ ⟨rfl, rfl⟩ h,
    sparing_singleton (SqliteStore.saveMempoolTransaction_spares tx)⟩
  declines live _ _ _ h _ := hI.same live _ ⟨rfl, rfl⟩ h
  mines live request state replies h heq := by
    obtain ⟨block, ids, -, -, rfl⟩ := NodeState.minePending_ok heq
    exact ⟨_, rfl, fun plan hplan => ⟨hI.same live _ ⟨rfl, rfl⟩ h, sparing_block hplan⟩⟩
  unmined live _ _ _ h _ := hI.same live _ ⟨rfl, rfl⟩ h

/-- The handling of an event keeps the property, however it ends. -/
theorem handleEvent_peers (event : ServerEvent) :
    Maintains w I (handleEvent event : ServerIo ε Outcome) :=
  handleEvent_frame (peerFrame_handlerFrame hI) event (fun _ _ => trivial)
    (fun live _ _ h => hI.same live _ ⟨rfl, rfl⟩ h) (fun live _ _ h => hI.same live _ ⟨rfl, rfl⟩ h)

end Server

end Wobble
