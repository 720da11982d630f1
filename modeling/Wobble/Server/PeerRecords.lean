import Wobble.Server.PeerFrame
import Wobble.Server.PendingRows

namespace Wobble

open Rust Io

namespace StoredPeer

theorem Grows.refl (peer : StoredPeer) : peer.Grows peer :=
  ⟨rfl, rfl, rfl, rfl, id, id, id, id, id, le_rfl, le_rfl⟩

theorem Grows.trans {a b c : StoredPeer} (h : a.Grows b) (h' : b.Grows c) : a.Grows c where
  addr := h'.addr.trans h.addr
  source := h'.source.trans h.source
  behaviorScore := h'.behaviorScore.trans h.behaviorScore
  bannedUntil := h'.bannedUntil.trans h.bannedUntil
  nodeName := h'.nodeName ∘ h.nodeName
  lastHelloAt := h'.lastHelloAt ∘ h.lastHelloAt
  lastSeenAt := h'.lastSeenAt ∘ h.lastSeenAt
  lastConnectAt := h'.lastConnectAt ∘ h.lastConnectAt
  lastSuccessAt := h'.lastSuccessAt ∘ h.lastSuccessAt
  connections := h.connections.trans h'.connections
  failedConnections := h.failedConnections.trans h'.failedConnections

/-- A name that is given replaces the one that is known. -/
theorem grows_named (peer : StoredPeer) (name : Option Text) :
    peer.Grows { peer with nodeName := name.or peer.nodeName } := by
  refine ⟨rfl, rfl, rfl, rfl, fun h => ?_, id, id, id, id, le_rfl, le_rfl⟩
  rw [Option.isSome_or, h, Bool.or_true]

end StoredPeer

namespace SqliteStore

/-- Every row of the table of peers stands under its address. -/
def PeersKeyed (store : SqliteStore) : Prop :=
  ∀ addr row, store.peers.get addr = some row → row.addr = addr

variable {store : SqliteStore} {endpoint : PeerEndpoint} {source : PeerSource}
  {change : StoredPeer → StoredPeer}

theorem PeersKeyed.updatedPeer_addr (h : store.PeersKeyed) (hchange : Recording change) :
    (store.updatedPeer endpoint source change).addr = endpoint.addr := by
  rw [updatedPeer, (hchange _).addr]
  cases hload : store.loadPeer endpoint.addr with
  | none => rfl
  | some row => exact h _ row hload

theorem updatedPeer_grows (hchange : Recording change) (row : StoredPeer)
    (hrow : store.peers.get endpoint.addr = some row) :
    row.Grows (store.updatedPeer endpoint source change) := by
  rw [updatedPeer, loadPeer, hrow, Option.getD_some]
  exact (row.grows_named endpoint.nodeName).trans (hchange _)

theorem PeersKeyed.withPeer (h : store.PeersKeyed) (peer : StoredPeer) :
    (store.withPeer peer).PeersKeyed := by
  intro addr row hrow
  rw [SqliteStore.withPeer, HashMap.get_insert] at hrow
  split_ifs at hrow with haddr
  · cases hrow
    exact haddr.symm
  · exact h addr row hrow

end SqliteStore

section Runs

variable [Crypto]

theorem modifyPeer_get {server : Server} {addr : Text} {f : RuntimePeer → RuntimePeer} {a : Text}
    {runtime : RuntimePeer} (h : (server.modifyPeer addr f).peers.get a = some runtime) :
    server.peers.get a = some runtime ∨
      ∃ old, a = addr ∧ server.peers.get addr = some old ∧ runtime = f old := by
  rw [Server.modifyPeer] at h
  cases hget : server.peers.get addr with
  | none =>
    rw [hget] at h
    exact .inl h
  | some old =>
    rw [hget] at h
    dsimp only at h
    rw [HashMap.get_insert] at h
    split_ifs at h with ha
    · exact .inr ⟨old, ha, rfl, (Option.some.inj h).symm⟩
    · exact .inl h

theorem ensureRuntimePeer_get {server : Server} {endpoint : PeerEndpoint} {source : PeerSource}
    {addr : Text} {runtime : RuntimePeer}
    (h : (server.ensureRuntimePeer endpoint source).peers.get addr = some runtime) :
    server.peers.get addr = some runtime ∨ addr = endpoint.addr ∧
      runtime = newRuntimePeer endpoint (StoredPeer.fromEndpoint endpoint source) := by
  change (server.peers.orInsert _ _).get addr = _ at h
  cases hget : server.peers.get endpoint.addr with
  | some old =>
    rw [HashMap.orInsert_of_get _ _ _ old hget] at h
    exact .inl h
  | none =>
    rw [HashMap.orInsert_of_get_none _ _ _ hget, HashMap.get_insert] at h
    split_ifs at h with haddr
    · exact .inr ⟨haddr, (Option.some.inj h).symm⟩
    · exact .inl h

/-- The entry that a new record makes or changes. -/
theorem upsertRuntimePeer_get {server : Server} {peer : StoredPeer} {addr : Text}
    {runtime : RuntimePeer} (h : (server.upsertRuntimePeer peer).peers.get addr = some runtime) :
    (addr = peer.addr ∧ runtime.endpoint = peer.endpoint ∧ runtime.stored = peer) ∨
    (addr ≠ peer.addr ∧ server.peers.get addr = some runtime) := by
  rw [Server.upsertRuntimePeer] at h
  dsimp only at h
  rw [HashMap.get_insert] at h
  split_ifs at h with haddr
  · refine .inl ⟨haddr, ?_⟩
    cases hget : server.peers.get peer.addr with
    | none =>
      rw [hget] at h
      cases h
      exact ⟨rfl, rfl⟩
    | some old =>
      rw [hget] at h
      cases h
      exact ⟨rfl, rfl⟩
  · exact .inr ⟨haddr, h⟩

/-- The configured peers of a new server. -/
theorem new_get {options : ServerOptions} {addr : Text} {runtime : RuntimePeer}
    (h : (Server.new options).peers.get addr = some runtime) :
    ∃ peer, addr = peer.addr ∧
      runtime = newRuntimePeer peer (StoredPeer.fromEndpoint peer .seed) := by
  have hcases := HashMap.get_insertAll_cases HashMap.new (options.peers.map fun peer =>
    (peer.addr, newRuntimePeer peer (StoredPeer.fromEndpoint peer .seed))) addr
  obtain hnone | ⟨found, hmem, hfound⟩ := hcases
  · have hnone := h.symm.trans hnone
    rw [HashMap.get_new] at hnone
    cases hnone
  · obtain rfl := Option.some.inj (h.symm.trans hfound)
    obtain ⟨peer, -, heq⟩ := List.mem_map.mp hmem
    cases heq
    exact ⟨peer, rfl, rfl⟩

/-- The database has the rows it had, grown. -/
def RowsGrow (live live' : Live) : Prop :=
  ∀ store, live.server.sqliteStore = some store → ∃ store',
    live'.server.sqliteStore = some store' ∧ store'.PeersKeyed ∧
    ∀ addr row, store.peers.get addr = some row → ∃ row', store'.peers.get addr = some row' ∧
      row.Grows row'

theorem RowsGrow.frame (w : World) (live : Live) : PeerFrame w (RowsGrow live) where
  same live₁ live₂ hsame h := by
    intro store hstore
    obtain ⟨store₁, hstore₁, hkeyed, hrows⟩ := h store hstore
    have hpeers := hsame.2
    rw [hstore₁, Option.map_some] at hpeers
    obtain ⟨store₂, hstore₂, heq⟩ := Option.map_eq_some_iff.mp hpeers
    refine ⟨store₂, hstore₂, ?_, ?_⟩
    · intro addr row hrow
      exact hkeyed addr row (heq ▸ hrow)
    · intro addr row hrow
      obtain ⟨row', hrow', hgrows⟩ := hrows addr row hrow
      exact ⟨row', heq ▸ hrow', hgrows⟩
  ensures _ _ _ h := h
  touches live₁ addr f _ h := by
    intro store hstore
    obtain ⟨store₁, hstore₁, hrest⟩ := h store hstore
    exact ⟨store₁, (modifyPeer_sqliteStore _ _ _).trans hstore₁, hrest⟩
  records live₁ store₁ endpoint source change hchange hstore₁ h := by
    intro store hstore
    obtain ⟨found, hfound, hkeyed, hrows⟩ := h store hstore
    obtain rfl := Option.some.inj (hfound.symm.trans hstore₁)
    refine ⟨_, rfl, hkeyed.withPeer _, fun addr row hrow => ?_⟩
    obtain ⟨row', hrow', hgrows⟩ := hrows addr row hrow
    rw [SqliteStore.withPeer, HashMap.get_insert, hkeyed.updatedPeer_addr hchange]
    split_ifs with haddr
    · rw [haddr] at hrow'
      exact ⟨_, rfl, hgrows.trans (SqliteStore.updatedPeer_grows hchange row' hrow')⟩
    · exact ⟨row', hrow', hgrows⟩
  unsaved _ _ _ _ _ _ _ _ h := h
  unstored live₁ addr f hnone _ h := by
    intro store hstore
    obtain ⟨store₁, hstore₁, -⟩ := h store hstore
    rw [hnone] at hstore₁
    cases hstore₁

/-- A record as it is made for a new peer. -/
def StoredPeer.Fresh (peer : StoredPeer) : Prop :=
  ∃ endpoint source, peer = StoredPeer.fromEndpoint endpoint source

/-- What is known of a peer in memory: all of it is about the peer of this address and, with a
database, it is the row of the table or nothing has happened with the peer. -/
structure RuntimePeer.Coherent (store : Option SqliteStore) (addr : Text) (runtime : RuntimePeer) :
    Prop where
  stored_addr : runtime.stored.addr = addr
  endpoint_addr : runtime.endpoint.addr = addr
  recorded : ∀ found, store = some found →
    runtime.endpoint = runtime.stored.endpoint ∧
    (found.peers.get addr = some runtime.stored ∨ runtime.stored.Fresh)

structure PeersCoherent (live : Live) : Prop where
  keyed : ∀ store, live.server.sqliteStore = some store → store.PeersKeyed
  coherent : ∀ addr runtime, live.server.peers.get addr = some runtime →
    runtime.Coherent live.server.sqliteStore addr

omit [Crypto] in
theorem newRuntimePeer_coherent (store : Option SqliteStore) (endpoint : PeerEndpoint)
    (source : PeerSource) :
    (newRuntimePeer endpoint (StoredPeer.fromEndpoint endpoint source)).Coherent store
      endpoint.addr where
  stored_addr := rfl
  endpoint_addr := rfl
  recorded _ _ := ⟨rfl, .inr ⟨endpoint, source, rfl⟩⟩

/-- A change of one runtime record. -/
theorem PeersCoherent.modifyPeer {live : Live} (h : PeersCoherent live) (addr : Text)
    (f : RuntimePeer → RuntimePeer)
    (hf : ∀ runtime, runtime.Coherent live.server.sqliteStore addr →
      (f runtime).Coherent live.server.sqliteStore addr) :
    PeersCoherent (live.onServer (·.modifyPeer addr f)) := by
  have hstore := modifyPeer_sqliteStore live.server addr f
  refine ⟨fun store hs => h.keyed store (hstore.symm.trans hs), fun a runtime hruntime => ?_⟩
  show runtime.Coherent (live.server.modifyPeer addr f).sqliteStore a
  rw [hstore]
  obtain hruntime | ⟨old, rfl, hold, rfl⟩ := modifyPeer_get hruntime
  · exact h.coherent a runtime hruntime
  · exact hf old (h.coherent a old hold)

theorem PeersCoherent.frame (w : World) (hw : w.Writes) : PeerFrame w PeersCoherent where
  same live₁ live₂ hsame h := by
    have hkeys (store : SqliteStore) (hs : live₂.server.sqliteStore = some store) :
        ∃ store₁, live₁.server.sqliteStore = some store₁ ∧ store.peers = store₁.peers := by
      have hpeers := hsame.2
      rw [hs, Option.map_some] at hpeers
      obtain ⟨store₁, hs₁, heq⟩ := Option.map_eq_some_iff.mp hpeers.symm
      exact ⟨store₁, hs₁, heq.symm⟩
    constructor
    · intro store hs addr row hrow
      obtain ⟨store₁, hs₁, heq⟩ := hkeys store hs
      exact h.keyed store₁ hs₁ addr row (heq ▸ hrow)
    · intro addr runtime hruntime
      rw [hsame.1] at hruntime
      have hold := h.coherent addr runtime hruntime
      refine ⟨hold.stored_addr, hold.endpoint_addr, fun store hs => ?_⟩
      obtain ⟨store₁, hs₁, heq⟩ := hkeys store hs
      rw [heq]
      exact hold.recorded store₁ hs₁
  ensures live endpoint source h := by
    refine ⟨h.keyed, fun addr runtime hruntime => ?_⟩
    obtain hruntime | ⟨rfl, rfl⟩ := ensureRuntimePeer_get hruntime
    · exact h.coherent addr runtime hruntime
    · exact newRuntimePeer_coherent _ endpoint source
  touches live addr f hf h := by
    refine h.modifyPeer addr f fun runtime hold => ?_
    obtain ⟨hendpoint, hstored⟩ := hf runtime
    refine ⟨?_, ?_, ?_⟩
    · rw [hstored]
      exact hold.stored_addr
    · rw [hendpoint]
      exact hold.endpoint_addr
    · rw [hendpoint, hstored]
      exact hold.recorded
  records live store endpoint source change hchange hs h := by
    have hkeyed := h.keyed store hs
    constructor
    · intro found hfound
      cases hfound
      exact hkeyed.withPeer _
    · intro addr runtime hruntime
      obtain ⟨haddr, hendpoint, hstored⟩ | ⟨haddr, hruntime⟩ :=
        upsertRuntimePeer_get hruntime
      · refine ⟨hstored ▸ haddr.symm, ?_, fun found hfound => ?_⟩
        · rw [hendpoint, haddr]
          rfl
        · cases hfound
          rw [hendpoint, hstored, SqliteStore.withPeer, HashMap.get_insert, if_pos haddr]
          exact ⟨rfl, .inl rfl⟩
      · have hold := h.coherent addr runtime hruntime
        refine ⟨hold.stored_addr, hold.endpoint_addr, fun found hfound => ?_⟩
        cases hfound
        rw [SqliteStore.withPeer, HashMap.get_insert, if_neg haddr]
        exact hold.recorded store hs
  unsaved _ _ _ _ _ _ _ hfails _ := by
    obtain ⟨time, hfails⟩ := hfails
    rw [hw time] at hfails
    cases hfails
  unstored live addr f hnone hf h := by
    refine h.modifyPeer addr f fun runtime hold => ?_
    refine ⟨(hf runtime).1.addr.trans hold.stored_addr, ?_, fun found hfound => ?_⟩
    · obtain hsame | hgiven := (hf runtime).2
      · rw [hsame]
        exact hold.endpoint_addr
      · exact hgiven
    · rw [hnone] at hfound
      cases hfound

theorem PeersCoherent.start (options : ServerOptions) (miner : Option Miner)
    (hkeyed : ∀ store, options.sqliteStore = some store → store.PeersKeyed) :
    PeersCoherent (Live.start { Server.new options with miner := miner }) := by
  refine ⟨hkeyed, fun addr runtime hruntime => ?_⟩
  obtain ⟨peer, rfl, rfl⟩ := new_get hruntime
  exact newRuntimePeer_coherent _ peer .seed

variable [Profile]

/-- One event is handled, in some world that the property holds of and with any end. -/
def Server.Serves (P : World → Prop) (live live' : Live) : Prop :=
  ∃ (w : World) (event : ServerEvent) (r : Res ServerError Outcome),
    P w ∧ Server.handleEvent event w live = some (live', r)

/-- What every event keeps, a run keeps. -/
theorem Server.serves_run {P : World → Prop} {I : Live → Prop}
    (hI : ∀ w, P w → PeerFrame w I) {live live' : Live}
    (hrun : Relation.ReflTransGen (Server.Serves P) live live') (h : I live) : I live' := by
  induction hrun with
  | refl => exact h
  | tail _ hstep ih =>
    obtain ⟨w, event, r, hw, heq⟩ := hstep
    have hmaintains :=
      Server.handleEvent_peers (ε := ServerError) (hI w hw) event
    exact (triple_iff _).mp hmaintains _ _ r ih heq

/-- No event takes a row out of the table of peers, or forgets how a peer became known, its score,
its ban or what has happened with it; the counters do not fall, even if the disk fails at times. -/
theorem peer_rows_grow (live live' : Live) (store : SqliteStore)
    (hstore : live.server.sqliteStore = some store) (hkeyed : store.PeersKeyed)
    (hrun : Relation.ReflTransGen (Server.Serves fun _ => True) live live') :
    ∃ store', live'.server.sqliteStore = some store' ∧ store'.PeersKeyed ∧
      ∀ addr row, store.peers.get addr = some row → ∃ row', store'.peers.get addr = some row' ∧
        row.Grows row' := by
  have hrefl : RowsGrow live live := by
    intro found hfound
    obtain rfl := Option.some.inj (hstore.symm.trans hfound)
    exact ⟨store, hstore, hkeyed, fun addr row hrow => ⟨row, hrow, .refl row⟩⟩
  have hgrow := Server.serves_run (fun w _ => RowsGrow.frame w live) hrun hrefl
  exact hgrow store hstore

/-- While the disk takes what is written, what a server knows of a peer is the row of the table,
or the peer is new; with or without a database all of it is about the peer it stands under. -/
theorem peers_coherent (options : ServerOptions) (miner : Option Miner)
    (hkeyed : ∀ store, options.sqliteStore = some store → store.PeersKeyed) (live : Live)
    (hrun : Relation.ReflTransGen (Server.Serves World.Writes)
      (Live.start { Server.new options with miner := miner }) live)
    (addr : Text) (runtime : RuntimePeer) (hruntime : live.server.peers.get addr = some runtime) :
    runtime.Coherent live.server.sqliteStore addr := by
  have hcoherent := Server.serves_run PeersCoherent.frame hrun 
    (PeersCoherent.start options miner hkeyed)
  exact hcoherent.coherent addr runtime hruntime

end Runs

section SamplePeer

attribute [local instance] NodeState.sampleCrypto NodeState.sampleProfile

def sampleAddr : Text := ⟨[98]⟩

/-- A database that has heard of the peer. -/
def peeredStore : SqliteStore :=
  SqliteStore.new.withPeer (StoredPeer.fromEndpoint ⟨sampleAddr, none⟩ .seed)

def peeredOptions : ServerOptions :=
  { plainOptions .new with
    peers := [⟨sampleAddr, none⟩]
    sqliteStore := some peeredStore }

def peeredServer : Live := .start { Server.new peeredOptions with miner := none }

def serve (event : ServerEvent) (live : Live) : Option (Live × Res ServerError Outcome) :=
  Server.handleEvent event Server.offlineWorld live

/-- The server after one event. -/
def served (event : ServerEvent) (live : Live) : Live :=
  ((serve event live).map Prod.fst).getD live

theorem served_serves {P : World → Prop} (hP : P Server.offlineWorld) (event : ServerEvent) (live : Live)
    (h : (serve event live).isSome = true) : Server.Serves P live (served event live) := by
  obtain ⟨result, hresult⟩ := Option.isSome_iff_exists.mp h
  refine ⟨Server.offlineWorld, event, result.2, hP, ?_⟩
  rw [served, hresult]
  exact hresult

/-- The configured peer cannot be reached. -/
def tickedServer : Live := served .syncTick peeredServer

/-- It is heard of later. -/
def heardServer : Live :=
  served (.peerMessage (some ⟨some sampleAddr, none⟩) (.announceTip ⟨none, some 3⟩)) tickedServer

theorem peeredStore_keyed : peeredStore.PeersKeyed := by
  have hnew : SqliteStore.new.PeersKeyed := by
    intro addr row hrow
    rw [SqliteStore.new, HashMap.get_new] at hrow
    cases hrow
  exact hnew.withPeer _

theorem tickedServer_serves {P : World → Prop} (hP : P Server.offlineWorld) :
    Server.Serves P peeredServer tickedServer :=
  served_serves hP .syncTick peeredServer (by decide +kernel)

/-- The attempt is written down, in memory and in the table alike; it counts as two failures, one
of the connection and one of the sync. -/
theorem tickedServer_coherent :
    ∃ runtime, tickedServer.server.peers.get sampleAddr = some runtime ∧
      runtime.Coherent tickedServer.server.sqliteStore sampleAddr ∧
      runtime.stored.failedConnections = 2 := by
  have hsome : (tickedServer.server.peers.get sampleAddr).map (·.stored.failedConnections) =
      some 2 := by
    decide +kernel
  obtain ⟨runtime, hruntime, hfailed⟩ := Option.map_eq_some_iff.mp hsome
  have hkeyed (store : SqliteStore) (h : peeredOptions.sqliteStore = some store) :
      store.PeersKeyed := by
    cases h
    exact peeredStore_keyed
  exact ⟨runtime, hruntime, peers_coherent peeredOptions none hkeyed tickedServer
    (.single (tickedServer_serves fun _ => rfl)) sampleAddr runtime hruntime, hfailed⟩

/-- What is heard later leaves the failures in the table. -/
theorem heardServer_rows :
    ∃ store row, heardServer.server.sqliteStore = some store ∧
      store.peers.get sampleAddr = some row ∧ row.source = .seed ∧ row.failedConnections = 2 ∧
      row.advertisedHeight = some 3 := by
  have hheard : Server.Serves (fun _ => True) tickedServer heardServer :=
    served_serves trivial _ tickedServer (by decide +kernel)
  have hrun := (Relation.ReflTransGen.single (tickedServer_serves trivial)).tail hheard
  have hrow : peeredStore.peers.get sampleAddr =
      some (StoredPeer.fromEndpoint ⟨sampleAddr, none⟩ .seed) := by
    decide +kernel
  obtain ⟨store, hstore, -, hgrows⟩ := peer_rows_grow peeredServer heardServer peeredStore rfl
    peeredStore_keyed hrun
  obtain ⟨row, hrow, hgrow⟩ := hgrows sampleAddr _ hrow
  have hvalues : (heardServer.server.sqliteStore.bind fun store =>
      (store.peers.get sampleAddr).map fun row => (row.failedConnections, row.advertisedHeight)) =
        some (2, some 3) := by
    decide +kernel
  rw [hstore, Option.bind_some, hrow, Option.map_some, Option.some_inj, Prod.mk.injEq] at hvalues
  exact ⟨store, row, hstore, hrow, hgrow.source, hvalues.1, hvalues.2⟩

end SamplePeer

end Wobble
