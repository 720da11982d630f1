import Wobble.Server.Handlers

namespace Wobble

open Rust Io

variable [Crypto]

/-- The world has given one more answer. -/
def Live.tick (live : Live) : Live := { live with clock := live.clock + 1 }

/-- One more thing has been done on the network. -/
def Live.sends (live : Live) (effect : Effect) : Live :=
  { live with trace := live.trace ++ [effect] }

def Live.withStore (live : Live) (store : SqliteStore) : Live :=
  { live with server := { live.server with sqliteStore := some store } }

def Live.onServer (live : Live) (f : Server → Server) : Live :=
  { live with server := f live.server }

/-- The server without what it knows of its peers. -/
def Server.withoutPeers (server : Server) : Server :=
  { server with
    peers := HashMap.new
    sqliteStore := server.sqliteStore.map fun store => { store with peers := HashMap.new } }

/-- Only the peers, in memory and in the database, may differ; besides the clock and what has
been sent. -/
def SameButPeers (live live' : Live) : Prop :=
  live'.server.withoutPeers = live.server.withoutPeers

instance : IsPreorder Live SameButPeers where
  refl _ := rfl
  trans _ _ _ h h' := h'.trans h

namespace SameButPeers

variable {live live' : Live}

theorem state (h : SameButPeers live live') : live'.server.state = live.server.state :=
  (congrArg Server.state h : live'.server.withoutPeers.state = live.server.withoutPeers.state)

theorem mining (h : SameButPeers live live') : live'.server.mining = live.server.mining :=
  (congrArg Server.mining h : live'.server.withoutPeers.mining = live.server.withoutPeers.mining)

theorem miner (h : SameButPeers live live') : live'.server.miner = live.server.miner :=
  (congrArg Server.miner h : live'.server.withoutPeers.miner = live.server.withoutPeers.miner)

theorem store (h : SameButPeers live live') (store : SqliteStore)
    (hs : live.server.sqliteStore = some store) :
    ∃ peers, live'.server.sqliteStore = some { store with peers := peers } := by
  have heq := congrArg Server.sqliteStore h
  simp only [Server.withoutPeers, hs, Option.map_some] at heq
  obtain ⟨store', hstore', heq⟩ := Option.map_eq_some_iff.mp heq
  refine ⟨store'.peers, hstore'.trans (congrArg some ?_)⟩
  obtain ⟨b, c, u, m, p, t, k, d⟩ := store
  obtain ⟨b', c', u', m', p', t', k', d'⟩ := store'
  cases heq
  rfl

theorem store_none (h : SameButPeers live live') (hs : live.server.sqliteStore = none) :
    live'.server.sqliteStore = none := by
  have heq := congrArg Server.sqliteStore h
  simp only [Server.withoutPeers, hs, Option.map_none] at heq
  exact Option.map_eq_none_iff.mp heq

end SameButPeers

/-- Nothing but the peers and the clock may differ. -/
def Quiet (live live' : Live) : Prop :=
  SameButPeers live live' ∧ live'.trace = live.trace

instance : IsPreorder Live Quiet where
  refl _ := ⟨rfl, rfl⟩
  trans _ _ _ h h' := ⟨IsTrans.trans _ _ _ h.1 h'.1, h'.2.trans h.2⟩

/-- A relation that allows all the network code does, relaying apart. -/
structure NetworkFrame (R : Live → Live → Prop) : Prop where
  quiet : ∀ live live', Quiet live live' → R live live'
  requests : ∀ live peer hash, R live (live.sends (.requestBlock peer hash))
  announces : ∀ live addr message, R live (live.sends (.announce addr message))

theorem NetworkFrame.sameButPeers : NetworkFrame SameButPeers where
  quiet _ _ h := h.1
  requests _ _ _ := rfl
  announces _ _ _ := rfl

namespace Server

variable {ε α : Type}

theorem modifyPeer_withoutPeers (server : Server) (addr : Text) (f : RuntimePeer → RuntimePeer) :
    (server.modifyPeer addr f).withoutPeers = server.withoutPeers := by
  rw [modifyPeer]
  split <;> rfl

theorem ensureRuntimePeer_withoutPeers (server : Server) (endpoint : PeerEndpoint)
    (source : PeerSource) :
    (server.ensureRuntimePeer endpoint source).withoutPeers = server.withoutPeers := rfl

theorem upsertRuntimePeer_withoutPeers (server : Server) (peer : StoredPeer) :
    (server.upsertRuntimePeer peer).withoutPeers = server.withoutPeers := rfl

theorem commit_apply (transaction : Commit) (w : World) (live : Live) :
    commit transaction w live = match live.server.sqliteStore with
      | none => some (live, .ok ())
      | some store =>
        if w.diskFails live.clock then some (live.tick, .error (.err .sqlite))
        else match transaction store with
          | .error e => some (live.tick, .error e)
          | .ok store => some (live.tick.withStore store, .ok ()) := by
  cases hs : live.server.sqliteStore with
  | none =>
    simp [commit, self, bind_apply, hs]
  | some store =>
    simp only [commit, self, observe, bind_apply, read_apply, pure_apply, hs, ask_apply,
      modify_apply]
    split_ifs with hf
    · rfl
    · cases hc : transaction store <;> rfl

section Network

variable {R : Live → Live → Prop}

theorem update_keeps (hR : NetworkFrame R) (f : Server → Server)
    (h : ∀ server, (f server).withoutPeers = server.withoutPeers) :
    Keeps R (update f : ServerIo ε Unit) :=
  keeps_modify _ fun live => hR.quiet _ _ ⟨h live.server, rfl⟩

variable [IsPreorder Live R]

theorem self_keeps : Keeps R (self : ServerIo ε Server) :=
  keeps_bind keeps_read fun _ => keeps_pure _

theorem findFirst_keeps (p : α → ServerIo ε Bool) (l : List α)
    (hp : ∀ a, Keeps R (p a)) : Keeps R (findFirst p l) := by
  induction l with
  | nil => exact keeps_pure _
  | cons a rest ih =>
    refine keeps_bind (hp a) fun found => ?_
    split
    · exact keeps_pure _
    · exact ih

variable (hR : NetworkFrame R)

include hR

theorem observe_keeps (f : World → Nat → α) :
    Keeps R (observe f : ServerIo ε α) :=
  keeps_bind (keeps_ask _) fun _ =>
    keeps_bind (keeps_modify _ fun _ => hR.quiet _ _ ⟨rfl, rfl⟩) fun _ => keeps_pure _

theorem nowTimestampString_keeps : Keeps R (nowTimestampString : ServerIo ε Text) :=
  keeps_bind (observe_keeps hR _) fun _ => keeps_pure _

theorem savePeer_keeps (peer : StoredPeer) :
    Keeps R (commit (SqliteStore.savePeer peer)) := by
  intro w live live' r h
  rw [commit_apply] at h
  cases hs : live.server.sqliteStore with
  | none =>
    rw [hs] at h
    cases h
    exact refl live
  | some store =>
    simp only [hs, SqliteStore.savePeer] at h
    split_ifs at h
    · cases h
      exact hR.quiet _ _ ⟨rfl, rfl⟩
    · cases h
      refine hR.quiet _ _ ⟨?_, rfl⟩
      simp [SameButPeers, Server.withoutPeers, Live.withStore, Live.tick, hs]

theorem updatePersistedPeer_keeps (endpoint : PeerEndpoint) (source : PeerSource)
    (change : StoredPeer → StoredPeer) :
    Keeps R (updatePersistedPeer endpoint source change) := by
  refine keeps_bind self_keeps fun server => keeps_bind (keeps_lift _) fun store =>
    keeps_bind (observe_keeps hR _) fun failed => ?_
  dsimp only
  split
  · exact keeps_lift _
  · exact keeps_bind (update_keeps hR _ fun server => server.upsertRuntimePeer_withoutPeers _)
      fun _ => savePeer_keeps hR _

theorem recordInboundHello_keeps (remoteHello : HelloMessage) :
    Keeps R (recordInboundHello remoteHello) := by
  refine keeps_bind (nowTimestampString_keeps hR) fun now => keeps_bind self_keeps fun server => ?_
  dsimp only
  split
  · exact updatePersistedPeer_keeps hR _ _ _
  · exact keeps_bind (update_keeps hR _ fun server => server.ensureRuntimePeer_withoutPeers _ _)
      fun _ => update_keeps hR _ fun server => server.modifyPeer_withoutPeers _ _

theorem recordInboundTip_keeps (origin : Option PeerAddr) (summary : TipSummary) :
    Keeps R (recordInboundTip origin summary) := by
  refine keeps_bind self_keeps fun server => keeps_bind (keeps_ask _) fun peer => ?_
  dsimp only
  split
  · exact keeps_pure _
  refine keeps_bind (nowTimestampString_keeps hR) fun now => ?_
  split
  · exact updatePersistedPeer_keeps hR _ _ _
  · exact keeps_bind (update_keeps hR _ fun server => server.ensureRuntimePeer_withoutPeers _ _)
      fun _ => update_keeps hR _ fun server => server.modifyPeer_withoutPeers _ _

theorem recordPeer_keeps (peer : PeerEndpoint)
    (change : ServerIo SqliteStoreError (StoredPeer → StoredPeer))
    (h : Keeps R change) : Keeps R (recordPeer peer change) := by
  refine keeps_bind self_keeps fun server => ?_
  split
  · exact keeps_pure _
  · exact keeps_bind h fun _ => updatePersistedPeer_keeps hR _ _ _

theorem recordPeerConnectAttempt_keeps (peer : PeerEndpoint) :
    Keeps R (recordPeerConnectAttempt peer) :=
  recordPeer_keeps hR _ _ (keeps_bind (nowTimestampString_keeps hR) fun _ => keeps_pure _)

theorem recordPeerConnectSuccess_keeps (peer : PeerEndpoint) (remoteHello : HelloMessage) :
    Keeps R (recordPeerConnectSuccess peer remoteHello) :=
  recordPeer_keeps hR _ _ (keeps_bind (nowTimestampString_keeps hR) fun _ =>
    keeps_bind (nowTimestampString_keeps hR) fun _ =>
      keeps_bind (nowTimestampString_keeps hR) fun _ =>
        keeps_bind (nowTimestampString_keeps hR) fun _ => keeps_pure _)

theorem recordPeerConnectFailure_keeps (peer : PeerEndpoint) (e : SyncError) :
    Keeps R (recordPeerConnectFailure peer e) :=
  recordPeer_keeps hR _ _ (keeps_bind (nowTimestampString_keeps hR) fun _ =>
    keeps_bind (keeps_ask _) fun _ => keeps_pure _)

theorem ensurePeerConnected_keeps (endpoint : PeerEndpoint) :
    Keeps R (ensurePeerConnected endpoint) := by
  refine keeps_bind (update_keeps hR _ fun server => server.ensureRuntimePeer_withoutPeers _ _)
    fun _ => keeps_bind self_keeps fun server => ?_
  dsimp only
  split
  · exact keeps_pure _
  refine keeps_bind (keeps_attempt (recordPeerConnectAttempt_keeps hR _)) fun _ =>
    keeps_bind self_keeps fun server => keeps_bind (keeps_ask _) fun _ =>
      keeps_bind (observe_keeps hR _) fun answer => ?_
  cases answer with
  | ok remoteHello =>
    exact keeps_bind (keeps_mapErr _ (recordPeerConnectSuccess_keeps hR _ _)) fun _ =>
      keeps_bind (update_keeps hR _ fun server => server.modifyPeer_withoutPeers _ _) fun _ =>
        keeps_pure _
  | error e =>
    exact keeps_bind (keeps_attempt (recordPeerConnectFailure_keeps hR _ _)) fun _ => keeps_lift _

omit [IsPreorder Live R] in
theorem disconnectPeer_keeps (addr : Text) :
    Keeps R (disconnectPeer addr : ServerIo ε Unit) :=
  update_keeps hR _ fun server => server.modifyPeer_withoutPeers _ _

theorem requestFromPeer_keeps (peer : PeerEndpoint)
    (request : World → Nat → PeerSession → Except RequestError α) :
    Keeps R (requestFromPeer peer request) := by
  refine keeps_bind (ensurePeerConnected_keeps hR _) fun session =>
    keeps_bind (observe_keeps hR _) fun answer => ?_
  cases answer with
  | ok a => exact keeps_pure _
  | error e =>
    refine keeps_bind (disconnectPeer_keeps hR _) fun _ =>
      keeps_bind (ensurePeerConnected_keeps hR _) fun session =>
        keeps_bind (observe_keeps hR _) fun answer => ?_
    cases answer with
    | ok a => exact keeps_pure _
    | error e => exact keeps_lift _

theorem requestTipFromPeer_keeps (peer : PeerEndpoint) :
    Keeps R (requestTipFromPeer peer) := by
  refine keeps_bind (requestFromPeer_keeps hR _ _) fun summary =>
    keeps_bind self_keeps fun server => keeps_bind (nowTimestampString_keeps hR) fun now => ?_
  dsimp only
  split
  · exact keeps_bind (keeps_mapErr _ (updatePersistedPeer_keeps hR _ _ _)) fun _ => keeps_pure _
  · exact keeps_bind (update_keeps hR _ fun server => server.modifyPeer_withoutPeers _ _) fun _ =>
      keeps_pure _

theorem fetchMissing_keeps (peer : PeerEndpoint) (rounds : Nat) (nextHash : BlockHash) :
    Keeps R (fetchMissing peer rounds nextHash) := by
  induction rounds generalizing nextHash with
  | zero => exact keeps_await _
  | succ rounds ih =>
    refine keeps_bind self_keeps fun server => ?_
    dsimp only
    split
    · exact keeps_pure _
    refine keeps_bind (keeps_modify _ fun _ => hR.requests _ _ _) fun _ =>
      keeps_bind (requestFromPeer_keeps hR _ _) fun answer => ?_
    cases answer with
    | none => exact keeps_lift _
    | some block =>
      dsimp only
      split
      · exact keeps_pure _
      · exact keeps_bind (ih _) fun _ => keeps_pure _

theorem peerIsReadyForSync_keeps (peer : StoredPeer) :
    Keeps R (peerIsReadyForSync peer : ServerIo ε Bool) := by
  rw [peerIsReadyForSync]
  split
  · exact keeps_pure _
  · exact keeps_bind (observe_keeps hR _) fun _ => keeps_pure _

theorem peerEndpointIsReadyForSync_keeps (peer : PeerEndpoint) :
    Keeps R (peerEndpointIsReadyForSync peer : ServerIo ε Bool) := by
  refine keeps_bind self_keeps fun server => ?_
  split
  · exact peerIsReadyForSync_keeps hR _
  · exact keeps_pure _

theorem selectSyncPeers_keeps :
    Keeps R (selectSyncPeers : ServerIo ε (List PeerEndpoint)) := by
  refine keeps_bind self_keeps fun server => keeps_bind (findFirst_keeps _ _ fun peer =>
    keeps_bind (peerIsReadyForSync_keeps hR _) fun _ => keeps_pure _) fun best => ?_
  cases best with
  | some best => exact keeps_pure _
  | none =>
    refine keeps_bind (findFirst_keeps _ _ fun peer => ?_) fun fallback => keeps_pure _
    split
    · split
      · exact peerEndpointIsReadyForSync_keeps hR _
      · exact keeps_pure _
    · exact peerEndpointIsReadyForSync_keeps hR _

theorem announceToPeerOnce_keeps (peer : PeerEndpoint) (message : WireMessage) :
    Keeps R (announceToPeerOnce peer message : ServerIo ε _) := by
  refine keeps_bind (keeps_attempt (ensurePeerConnected_keeps hR _)) fun session => ?_
  cases session with
  | error e => exact keeps_pure _
  | ok session =>
    refine keeps_bind (keeps_modify _ fun _ => hR.announces _ _ _) fun _ =>
      keeps_bind (observe_keeps hR _) fun answer => ?_
    cases answer with
    | ok a => exact keeps_pure _
    | error e => exact keeps_pure _

theorem announceToPeerBestEffort_keeps (peer : PeerEndpoint) (message : WireMessage)
    (attempts : Nat) :
    Keeps R (announceToPeerBestEffort peer message attempts : ServerIo ε Unit) := by
  induction attempts with
  | zero => exact keeps_pure _
  | succ attempts ih =>
    refine keeps_bind (announceToPeerOnce_keeps hR _ _) fun result => ?_
    cases result with
    | ok a => exact keeps_pure _
    | error e => exact keeps_bind (disconnectPeer_keeps hR _) fun _ => ih

/-- A relay is noted first; what follows is within the relation. -/
theorem relayBestEffort_sends {message : WireMessage} {origin : Option PeerAddr} {w : World}
    {live live' : Live} {r : Res ε Unit}
    (h : relayBestEffort message origin w live = some (live', r)) :
    R (live.sends (.relay message origin)) live' := by
  have hrest : Keeps R (do
      let server ← self
      forEach (fun peer =>
        if peerMatchesOrigin peer origin then return ()
        else announceToPeerBestEffort peer message relayConnectAttempts) server.peerEndpoints :
      ServerIo ε Unit) := by
    refine keeps_bind self_keeps fun server => keeps_forEach _ fun peer _ => ?_
    split
    · exact keeps_pure _
    · exact announceToPeerBestEffort_keeps hR _ _ _
  exact hrest w _ _ _ h

theorem relayBestEffort_keeps (message : WireMessage) (origin : Option PeerAddr)
    (hrelay : ∀ live, R live (live.sends (.relay message origin))) :
    Keeps R (relayBestEffort message origin : ServerIo ε Unit) :=
  fun _ live _ _ h => IsTrans.trans _ _ _ (hrelay live) (relayBestEffort_sends hR h)

theorem relayNewBestTipIfAdvanced_keeps (previousBestTip : Option BlockHash)
    (origin : Option PeerAddr)
    (hrelay : ∀ live summary, R live (live.sends (.relay (.announceTip summary) origin))) :
    Keeps R (relayNewBestTipIfAdvanced previousBestTip origin : ServerIo ε Unit) := by
  refine keeps_bind self_keeps fun server => ?_
  split
  · exact keeps_pure _
  · exact relayBestEffort_keeps hR _ _ fun live => hrelay live _

end Network

def setState (live : Live) (state : NodeState) : Live :=
  { live with server := { live.server with state := state } }

theorem onState_apply (f : NodeState → NodeState × Res ε α) (w : World) (live : Live) :
    onState f w live = some (setState live (f live.server.state).1, (f live.server.state).2) :=
  rfl

/-- A call on the node state that returns sets the state it leaves. -/
theorem onStateAwait_eq_some {f : NodeState → Option (NodeState × Res ε α)} {w : World}
    {live live' : Live} {r : Res ε α} (h : onStateAwait f w live = some (live', r)) :
    ∃ state, f live.server.state = some (state, r) ∧ live' = setState live state := by
  cases hf : f live.server.state with
  | none =>
    simp [onStateAwait, self, bind_apply, hf, await] at h
  | some result =>
    obtain ⟨state, r'⟩ := result
    simp [onStateAwait, self, bind_apply, hf, update, await] at h
    obtain ⟨rfl, rfl⟩ := h
    exact ⟨state, rfl, rfl⟩

theorem forEach_commit_ok (commits : List Commit) (w : World) (live live' : Live)
    (store : SqliteStore) (hs : live.server.sqliteStore = some store)
    (h : forEach commit commits w live = some (live', .ok ())) :
    ∃ store', SqliteStore.commitAll commits store = (store', .ok ()) ∧
      live'.server = { live.server with sqliteStore := some store' } := by
  induction commits generalizing live store with
  | nil =>
    cases h
    refine ⟨store, rfl, ?_⟩
    rw [← hs]
  | cons transaction rest ih =>
    obtain ⟨middle, _, hfirst, hrest⟩ := (bind_eq_ok _ _ _ _ _ _).mp h
    rw [commit_apply, hs] at hfirst
    dsimp only at hfirst
    by_cases hf : w.diskFails live.clock = true
    · rw [if_pos hf] at hfirst
      cases hfirst
    rw [if_neg hf] at hfirst
    cases hc : transaction store with
    | error e =>
      rw [hc] at hfirst
      cases hfirst
    | ok next =>
      rw [hc] at hfirst
      cases hfirst
      obtain ⟨store', hall, hserver⟩ := ih _ next rfl hrest
      refine ⟨store', ?_, hserver⟩
      rw [SqliteStore.commitAll, hc]
      exact hall

theorem persist_ok (plan : Option (List Commit)) (w : World) (live live' : Live)
    (store : SqliteStore) (hs : live.server.sqliteStore = some store)
    (h : persist plan w live = some (live', .ok ())) :
    ∃ commits store', plan = some commits ∧
      SqliteStore.commitAll commits store = (store', .ok ()) ∧
      live'.server = { live.server with sqliteStore := some store' } := by
  obtain ⟨live₁, server, hself, h⟩ := (bind_eq_ok _ _ _ _ _ _).mp h
  cases hself
  simp only [hs] at h
  obtain ⟨live₂, commits, hplan, h⟩ := (bind_eq_ok _ _ _ _ _ _).mp h
  cases plan with
  | none => cases hplan
  | some plan =>
    cases hplan
    obtain ⟨store', hall, hserver⟩ := forEach_commit_ok commits w live live' store hs h
    exact ⟨commits, store', rfl, hall, hserver⟩

def withoutMining (server : Server) : Server := { server with mining := none, miner := none }

/-- Only the mining configuration and the miner may differ. -/
def SameButMining (live live' : Live) : Prop :=
  live'.server.withoutMining = live.server.withoutMining ∧ live'.clock = live.clock ∧
    live'.trace = live.trace

instance : IsPreorder Live SameButMining where
  refl _ := ⟨rfl, rfl, rfl⟩
  trans _ _ _ h h' := ⟨h'.1.trans h.1, h'.2.1.trans h.2.1, h'.2.2.trans h.2.2⟩

theorem SameButMining.server {live live' : Live} (h : SameButMining live live') :
    live'.server.state = live.server.state ∧
      live'.server.sqliteStore = live.server.sqliteStore :=
  ⟨(congrArg Server.state h.1 :
      live'.server.withoutMining.state = live.server.withoutMining.state),
    (congrArg Server.sqliteStore h.1 :
      live'.server.withoutMining.sqliteStore = live.server.withoutMining.sqliteStore)⟩

/-- What the requests for the miner have in common. -/
def miningPolicy (server : Server) : Option (VerifyingKey × Nat × UInt32) :=
  server.mining.map fun config => (config.minerVerifyingKey, config.maxTransactions, config.bits)

section Commands

omit [Crypto]

/-- To a miner, if there is one, commands have been sent. -/
def Sends : Option Miner → Option Miner → Prop :=
  Option.Rel fun miner miner' => miner.sent <+: miner'.sent

theorem Sends.refl (miner : Option Miner) : Sends miner miner := by
  cases miner with
  | none => exact .none
  | some miner => exact .some (List.prefix_refl _)

theorem Sends.trans {a b c : Option Miner} (h : Sends a b) (h' : Sends b c) : Sends a c := by
  cases h with
  | none => exact h'
  | some hab =>
    cases h' with
    | some hbc => exact .some (hab.trans hbc)

theorem Sends.of_some {miner : Miner} {b : Option Miner} (h : Sends (some miner) b) :
    ∃ miner' new, b = some miner' ∧ miner'.sent = miner.sent ++ new := by
  cases h with
  | some h =>
    obtain ⟨new, hnew⟩ := h
    exact ⟨_, new, rfl, hnew.symm⟩

theorem Sends.map (miner : Option Miner) (send : Miner → Miner)
    (hsend : ∀ m, m.sent <+: (send m).sent) : Sends miner (miner.map send) := by
  cases miner with
  | none => exact .none
  | some miner => exact .some (hsend miner)

end Commands

/-- What a refresh may change: requests go on under one policy, and commands are sent. -/
structure Remines (live live' : Live) : Prop where
  same : SameButMining live live'
  policy : live'.server.miningPolicy = live.server.miningPolicy
  sends : Sends live.server.miner live'.server.miner

instance : IsPreorder Live Remines where
  refl _ := ⟨refl _, rfl, .refl _⟩
  trans _ _ _ h h' := ⟨IsTrans.trans _ _ _ h.same h'.same, h'.policy.trans h.policy,
    h.sends.trans h'.sends⟩

variable [Profile]

/-- The mining configuration has gone on to the next request, if one was made. -/
def requested (live : Live) : Live :=
  { live with server := { live.server with
    mining := (buildMiningCandidate live.server.state live.server.mining).1 } }

def tellMiner (live : Live) (send : Miner → Miner) : Live :=
  { live with server := { live.server with miner := live.server.miner.map send } }

theorem refreshMiningCandidate_apply (w : World) (live : Live) :
    (refreshMiningCandidate : ServerIo ε Unit) w live =
      if live.server.mining.isNone then some (live, .ok ()) else
      match (buildMiningCandidate live.server.state live.server.mining).2 with
      | .error (.panic m) => some (requested live, .error (.panic m))
      | .error (.err _) => some (requested live, .ok ())
      | .ok none => some (tellMiner (requested live) Miner.cancel, .ok ())
      | .ok (some candidate) =>
        some (tellMiner (requested live) (Miner.submit · candidate), .ok ()) := by
  have hself : (self : ServerIo ε Server) w live = some (live, .ok live.server) := rfl
  rw [refreshMiningCandidate, bind_of_ok hself]
  by_cases hnone : live.server.mining.isNone = true
  · rw [if_pos hnone, if_pos hnone]
    rfl
  rw [if_neg hnone, if_neg hnone]
  change ((attempt (lift (buildMiningCandidate live.server.state live.server.mining).2) :
    ServerIo ε _) >>= _) w (requested live) = _
  rcases (buildMiningCandidate live.server.state live.server.mining).2 with
    (e | m) | - | candidate <;> rfl

theorem requested_remines (live : Live) : Remines live (requested live) := by
  refine ⟨⟨rfl, rfl, rfl⟩, ?_, .refl _⟩
  rw [miningPolicy, miningPolicy, requested]
  cases live.server.mining with
  | none => rfl
  | some config =>
    rw [buildMiningCandidate]
    split <;> rfl

omit [Profile] in
theorem tellMiner_remines (live : Live) (send : Miner → Miner)
    (hsend : ∀ m, m.sent <+: (send m).sent) : Remines live (tellMiner live send) :=
  ⟨⟨rfl, rfl, rfl⟩, rfl, .map _ _ hsend⟩

theorem refreshMiningCandidate_keeps :
    Keeps Remines (refreshMiningCandidate : ServerIo ε Unit) := by
  intro w live live' r h
  have hnext := requested_remines live
  rw [refreshMiningCandidate_apply] at h
  split at h
  · cases h
    exact refl live
  split at h
  · cases h
    exact hnext
  · cases h
    exact hnext
  · cases h
    exact IsTrans.trans _ _ _ hnext (tellMiner_remines _ _ fun m => ⟨_, rfl⟩)
  · cases h
    exact IsTrans.trans _ _ _ hnext (tellMiner_remines _ _ fun m => ⟨_, rfl⟩)

theorem maybeRefreshMining_keeps (previousBestTip : Option BlockHash)
    (previousMempoolTxids : Finset Txid) :
    Keeps Remines (maybeRefreshMining previousBestTip previousMempoolTxids :
      ServerIo ε Unit) := by
  refine keeps_bind (keeps_bind keeps_read fun _ => keeps_pure _) fun server => ?_
  split
  · exact keeps_pure _
  · exact refreshMiningCandidate_keeps

end Server

end Wobble
