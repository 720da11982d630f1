import Wobble.Peer.Handshake

namespace Wobble

open Rust Io

def HelloMessage.endpoint (hello : HelloMessage) : PeerEndpoint :=
  ⟨hello.advertisedAddr.getD Server.unknownAddr, hello.nodeName⟩

/-- What a `hello` that arrives at `now` changes in the record of its sender. -/
def HelloMessage.change (hello : HelloMessage) (now : Text) (peer : StoredPeer) : StoredPeer :=
  { peer with
    advertisedTipHash := hello.tip
    advertisedHeight := hello.height
    lastHelloAt := some now
    lastSeenAt := some now }

/-- The row that is written, given the one that was read. -/
def HelloMessage.row (hello : HelloMessage) (now : Text) (known : Option StoredPeer) :
    StoredPeer :=
  let peer := known.getD (StoredPeer.fromEndpoint hello.endpoint .hello)
  hello.change now { peer with nodeName := hello.endpoint.nodeName.or peer.nodeName }

/-- The record says what the `hello` says, as of `now`. -/
structure HelloMessage.Noted (hello : HelloMessage) (now : Text) (peer : StoredPeer) : Prop where
  tip : peer.advertisedTipHash = hello.tip
  height : peer.advertisedHeight = hello.height
  helloAt : peer.lastHelloAt = some now
  seenAt : peer.lastSeenAt = some now

/-- The records agree in all that a `hello` leaves alone. -/
structure StoredPeer.SameHistory (peer known : StoredPeer) : Prop where
  addr : peer.addr = known.addr
  source : peer.source = known.source
  connectAt : peer.lastConnectAt = known.lastConnectAt
  successAt : peer.lastSuccessAt = known.lastSuccessAt
  error : peer.lastError = known.lastError
  connections : peer.connections = known.connections
  failedConnections : peer.failedConnections = known.failedConnections
  score : peer.behaviorScore = known.behaviorScore
  banned : peer.bannedUntil = known.bannedUntil

/-- The record is the known one, field by field, with what the `hello` says; the name the peer had
stays if it gives none. -/
structure HelloMessage.Updates (hello : HelloMessage) (now : Text) (known peer : StoredPeer) :
    Prop where
  nodeName : peer.nodeName = hello.nodeName.or known.nodeName
  noted : hello.Noted now peer
  same : peer.SameHistory known

theorem HelloMessage.change_eq_self (hello : HelloMessage) (now : Text) (peer : StoredPeer) :
    hello.change now peer = peer ↔ hello.Noted now peer := by
  constructor
  · intro h
    rw [← h]
    exact ⟨rfl, rfl, rfl, rfl⟩
  · intro h
    obtain ⟨htip, hheight, hhello, hseen⟩ := h
    cases peer
    simp_all [change]

theorem HelloMessage.eq_row_iff (hello : HelloMessage) (now : Text) (known : Option StoredPeer)
    (peer : StoredPeer) :
    peer = hello.row now known ↔
      hello.Updates now (known.getD (StoredPeer.fromEndpoint hello.endpoint .hello)) peer := by
  constructor
  · intro h
    rw [h]
    exact ⟨rfl, ⟨rfl, rfl, rfl, rfl⟩, ⟨rfl, rfl, rfl, rfl, rfl, rfl, rfl, rfl, rfl⟩⟩
  · intro h
    obtain ⟨hname, hnoted, hsame⟩ := h
    cases hnoted
    cases hsame
    cases peer
    simp_all [row, change, endpoint]

section Refused

variable [Crypto] (w : World) (live : Live) (hello : HelloMessage)

def arrival : Text := formatTimestampString (w.currentUnixSeconds live.clock)

/-- The peer table already says of the sender what the `hello` says, at this very second. With a
database, what cannot be read is not recorded, and the row matters only if it can be written. -/
def AlreadyRecorded : Prop :=
  match live.server.sqliteStore with
  | none => ∃ runtime, live.server.peers.get hello.endpoint.addr = some runtime ∧
      runtime.endpoint = hello.endpoint ∧ hello.Noted (arrival w live) runtime.stored
  | some store =>
    let known := (store.loadPeer hello.endpoint.addr).getD
      (StoredPeer.fromEndpoint hello.endpoint .hello)
    w.diskFails (live.clock + 1) = true ∨
      (∃ runtime, live.server.peers.get known.addr = some runtime ∧
        runtime.endpoint = runtime.stored.endpoint ∧
        hello.Updates (arrival w live) known runtime.stored) ∧
      (w.diskFails (live.clock + 2) = true ∨
        ∃ row, store.peers.get known.addr = some row ∧ hello.Updates (arrival w live) known row)

def SamePeers (live live' : Live) : Prop :=
  live'.server.peers = live.server.peers ∧
    live'.server.sqliteStore.map SqliteStore.peers = live.server.sqliteStore.map SqliteStore.peers

variable {w live hello}

theorem upsertRuntimePeer_peers (server : Server) (peer : StoredPeer) :
    (server.upsertRuntimePeer peer).peers = server.peers ↔
      ∃ runtime, server.peers.get peer.addr = some runtime ∧ runtime.endpoint = peer.endpoint ∧
        runtime.stored = peer := by
  change server.peers.insert peer.addr _ = server.peers ↔ _
  rw [HashMap.insert_eq_self_iff]
  cases server.peers.get peer.addr with
  | none => simp
  | some runtime =>
    obtain ⟨endpoint, stored, session, hint, state⟩ := runtime
    simp

/-- How a `hello` is recorded, and what it takes for the record to change nothing. -/
structure Records (w : World) (live : Live) (hello : HelloMessage) (live' : Live)
    (r : Res SqliteStoreError Unit) : Prop where
  run : Server.recordInboundHello hello w live = some (live', r)
  returns : ∀ m, r ≠ .error (.panic m)
  unchanged : SamePeers live live' ↔ AlreadyRecorded w live hello

theorem modifyPeer_orInsert_peers (server : Server) (f : RuntimePeer → RuntimePeer) (addr : Text)
    (peer : RuntimePeer) :
    ({ server with peers := server.peers.orInsert addr peer }.modifyPeer addr f).peers =
        server.peers ↔
      ∃ runtime, server.peers.get addr = some runtime ∧ f runtime = runtime := by
  unfold Server.modifyPeer
  cases hget : server.peers.get addr with
  | none =>
    rw [HashMap.orInsert_of_get_none _ _ _ hget, HashMap.get_insert, if_pos rfl]
    refine iff_of_false (fun h => ?_) (by simp)
    have hsome := congrArg (HashMap.get · addr) h
    simp [hget] at hsome
  | some runtime =>
    rw [HashMap.orInsert_of_get _ _ _ _ hget, hget]
    dsimp only
    rw [HashMap.insert_eq_self_iff, hget]
    simp [eq_comm]

theorem modifyPeer_sqliteStore (server : Server) (addr : Text) (f : RuntimePeer → RuntimePeer) :
    (server.modifyPeer addr f).sqliteStore = server.sqliteStore := by
  unfold Server.modifyPeer
  split <;> rfl

theorem recordInboundHello_memory (hstore : live.server.sqliteStore = none) :
    ∃ live' r, Records w live hello live' r := by
  refine ⟨⟨(live.server.ensureRuntimePeer hello.endpoint .hello).modifyPeer hello.endpoint.addr
    fun runtime => { runtime with
      endpoint := hello.endpoint
      stored := hello.change (arrival w live) runtime.stored }, live.clock + 1, live.trace⟩, .ok (),
    ?_, nofun, ?_⟩
  · change (if live.server.sqliteStore.isSome then _ else _ : ServerIo SqliteStoreError Unit) w
      live.tick = _
    rw [hstore]
    rfl
  · unfold SamePeers AlreadyRecorded
    rw [hstore, modifyPeer_sqliteStore]
    change _ ∧ live.server.sqliteStore.map _ = _ ↔ _
    rw [hstore, and_iff_left rfl]
    refine (modifyPeer_orInsert_peers _ _ _ _).trans (exists_congr fun runtime => ?_)
    rw [← HelloMessage.change_eq_self]
    obtain ⟨endpoint, stored, session, hint, state⟩ := runtime
    simp [eq_comm]

variable (w hello) in
/-- With a database the row is read first, and saved once the map has it. -/
theorem recordInboundHello_eq (store : SqliteStore)
    (hstore : live.server.sqliteStore = some store) :
    Server.recordInboundHello hello w live =
      (if w.diskFails (live.clock + 1) then fail .sqlite else do
        Server.update (Server.upsertRuntimePeer ·
          (hello.row (arrival w live) (store.loadPeer hello.endpoint.addr)))
        Server.commit (SqliteStore.savePeer
          (hello.row (arrival w live) (store.loadPeer hello.endpoint.addr))) :
        ServerIo SqliteStoreError Unit) w live.tick.tick := by
  change (if live.server.sqliteStore.isSome then _ else _ : ServerIo SqliteStoreError Unit) w
    live.tick = _
  rw [hstore]
  change ((lift (Res.expect _ live.server.sqliteStore)) >>= _ :
    ServerIo SqliteStoreError Unit) w live.tick = _
  rw [hstore]
  rfl

/-- If the row can be read: the map has it, and so has the table unless it cannot be written. -/
theorem alreadyRecorded_iff_row (store : SqliteStore)
    (hstore : live.server.sqliteStore = some store) (hload : w.diskFails (live.clock + 1) = false)
    {row : StoredPeer}
    (hrow : hello.row (arrival w live) (store.loadPeer hello.endpoint.addr) = row) :
    AlreadyRecorded w live hello ↔
      (live.server.upsertRuntimePeer row).peers = live.server.peers ∧
        (w.diskFails (live.clock + 2) = true ∨ store.peers.get row.addr = some row) := by
  have hupdates (peer : StoredPeer) := hello.eq_row_iff (arrival w live)
    (store.loadPeer hello.endpoint.addr) peer
  have haddr : ((store.loadPeer hello.endpoint.addr).getD
      (StoredPeer.fromEndpoint hello.endpoint .hello)).addr = row.addr := by
    rw [← hrow]
    rfl
  unfold AlreadyRecorded
  rw [hstore, upsertRuntimePeer_peers]
  dsimp only
  simp only [haddr, ← hupdates, hrow, hload, Bool.false_eq_true, false_or, exists_eq_right]
  refine and_congr_left fun _ => exists_congr fun runtime => and_congr_right fun _ => ?_
  refine and_congr_left fun hstored => ?_
  rw [hstored]

/-- With a database: the row cannot be read, or it is written to the map and then to the table. -/
theorem recordInboundHello_store (store : SqliteStore)
    (hstore : live.server.sqliteStore = some store) :
    ∃ live' r, Records w live hello live' r := by
  have hread := recordInboundHello_eq w hello store hstore
  cases hload : w.diskFails (live.clock + 1) with
  | true =>
    rw [hload] at hread
    refine ⟨live.tick.tick, .error (.err .sqlite), hread, ?_, ?_⟩
    · intro m hpanic
      cases hpanic
    unfold AlreadyRecorded
    rw [hstore]
    exact iff_of_true ⟨rfl, rfl⟩ (.inl hload)
  | false =>
    rw [hload] at hread
    generalize hrow : hello.row (arrival w live) (store.loadPeer hello.endpoint.addr) = row at hread
    have hrecorded := alreadyRecorded_iff_row store hstore hload hrow
    have hkept : (live.server.upsertRuntimePeer row).sqliteStore = some store := hstore
    change _ = Server.commit (SqliteStore.savePeer row) w
      ⟨live.server.upsertRuntimePeer row, live.clock + 2, live.trace⟩ at hread
    rw [Server.commit_apply, hkept] at hread
    change _ = (if w.diskFails (live.clock + 2) then _ else _) at hread
    cases hsave : w.diskFails (live.clock + 2) with
    | true =>
      rw [hsave] at hread hrecorded
      refine ⟨_, _, hread, ?_, ?_⟩
      · intro m hpanic
        cases hpanic
      rw [hrecorded]
      change (live.server.upsertRuntimePeer row).peers = live.server.peers ∧
        (live.server.upsertRuntimePeer row).sqliteStore.map _ = _ ↔ _
      rw [hkept, hstore]
      simp
    | false =>
      rw [hsave] at hread hrecorded
      refine ⟨_, _, hread, ?_, ?_⟩
      · intro m hpanic
        cases hpanic
      rw [hrecorded]
      change (live.server.upsertRuntimePeer row).peers = live.server.peers ∧
        some (store.peers.insert row.addr row) = _ ↔ _
      rw [hstore, Option.map_some, Option.some.injEq, HashMap.insert_eq_self_iff]
      simp

theorem exists_records (w : World) (live : Live) (hello : HelloMessage) :
    ∃ live' r, Records w live hello live' r := by
  cases hstore : live.server.sqliteStore with
  | none => exact recordInboundHello_memory hstore
  | some store => exact recordInboundHello_store store hstore

/-- A `hello` of another network or version is refused, with the recording done. -/
theorem handlePeerHello_refused (hc : ¬ Compatible live.server.config.network hello)
    {live' : Live} {r : Res SqliteStoreError Unit} (h : Records w live hello live' r) :
    ∃ e, Server.handlePeerHello hello w live = some (live', .error (.err e)) := by
  have hsame := Server.recordInboundHello_keeps .sameButPeers hello _ _ _ _ h.run
  have hconfig : live'.server.config = live.server.config :=
    (congrArg Server.config hsame : live'.server.withoutPeers.config = _)
  rcases r with (e | m) | u
  · refine ⟨.sqlitePersist e, bind_of_error ?_ _⟩
    rw [mapErr, h.run]
    rfl
  · exact absurd rfl (h.returns m)
  · unfold Server.handlePeerHello
    rw [bind_of_ok ((mapErr_eq_ok _ _ _ _ _ _).mpr h.run)]
    change ∃ e, (if hello.network ≠ live'.server.config.network then _ else _ :
      ServerIo ServerError (List WireMessage)) w live' = _
    rw [hconfig]
    by_cases hnetwork : hello.network = live.server.config.network
    · have hversion : hello.version ≠ protocolVersion := fun hv => hc ⟨hnetwork, hv⟩
      rw [if_neg (not_not.mpr hnetwork), if_pos hversion]
      exact ⟨_, rfl⟩
    · rw [if_pos hnetwork]
      exact ⟨_, rfl⟩

/-- A refused `hello` is always an error, and leaves no trace if and only if the peer table says of
its sender already what it would be made to say. -/
theorem refused_hello_traceless_iff (w : World) (live : Live) (hello : HelloMessage)
    (hc : ¬ Compatible live.server.config.network hello) :
    ∃ live' e, Server.handlePeerHello hello w live = some (live', .error (.err e)) ∧
      (live'.server.peers = live.server.peers ∧
        live'.server.sqliteStore.map SqliteStore.peers =
          live.server.sqliteStore.map SqliteStore.peers ↔ AlreadyRecorded w live hello) := by
  obtain ⟨live', r, hrecords⟩ := exists_records w live hello
  obtain ⟨e, hrun⟩ := handlePeerHello_refused hc hrecords
  exact ⟨live', e, hrun, hrecords.unchanged⟩

end Refused

section Stranger

attribute [local instance] NodeState.sampleCrypto

def foreignHello : HelloMessage where
  network := ⟨[120]⟩
  version := protocolVersion
  nodeName := none
  advertisedAddr := some ⟨[97]⟩
  tip := none
  height := some 7

/-- The stranger is refused, and its address and height are kept. -/
theorem foreignHello_recorded :
    ¬ Compatible emptyServer.server.config.network foreignHello ∧
    emptyServer.server.peers.get ⟨[97]⟩ = none ∧
    ∃ live, Server.handlePeerHello foreignHello Server.blocklessWorld
        emptyServer = some (live, .error (.err (.peer (.networkMismatch ⟨[]⟩ ⟨[120]⟩)))) ∧
      (live.server.peers.get ⟨[97]⟩).map (fun peer => peer.stored.advertisedHeight) =
        some (some 7) := by
  have hother : foreignHello.network ≠ emptyServer.server.config.network := by decide
  exact ⟨fun h => hother h.1, rfl, _, rfl, rfl⟩

def strangerKnown : Live :=
  ((Server.handlePeerHello foreignHello Server.blocklessWorld
    emptyServer).map Prod.fst).getD emptyServer

/-- The same `hello` within the same second changes nothing more. -/
theorem foreignHello_again_traceless :
    ¬ Compatible strangerKnown.server.config.network foreignHello ∧
    ∃ live e, Server.handlePeerHello foreignHello Server.blocklessWorld
        strangerKnown = some (live, .error (.err e)) ∧
      live.server.peers = strangerKnown.server.peers := by
  have hother : foreignHello.network ≠ strangerKnown.server.config.network := by decide
  have hc : ¬ Compatible strangerKnown.server.config.network foreignHello := fun h => hother h.1
  obtain ⟨live, e, hrun, hiff⟩ :=
    refused_hello_traceless_iff Server.blocklessWorld strangerKnown
      foreignHello hc
  have hrecorded : AlreadyRecorded Server.blocklessWorld strangerKnown
      foreignHello := ⟨_, rfl, rfl, rfl, rfl, rfl, rfl⟩
  exact ⟨hc, live, e, hrun, (hiff.mpr hrecorded).1⟩

end Stranger

end Wobble
