import Wobble.Server.Frame

namespace Wobble

open Rust Io

variable [Crypto]

omit [Crypto] in
/-- Connections come about and the disk takes what is written. -/
structure World.Reliable (w : World) : Prop where
  connects : ∀ time addr hello, ∃ remoteHello, w.connect time addr hello = .ok remoteHello
  disk : ∀ time, w.diskFails time = false

omit [Crypto] in
/-- A node without a name, a peer or a database. -/
def plainOptions (state : NodeState) : ServerOptions := .new ⟨⟨[]⟩, ⟨[]⟩, none, none⟩ state

namespace Server

section Worlds

omit [Crypto]

/-- A reliable world with the given answers. -/
def obligingWorld (answer : BlockHash → Except RequestError (Option Block)) : World where
  currentUnixSeconds _ := 0
  diskFails _ := false
  connect _ _ hello := .ok hello
  requestTip _ _ _ := .ok ⟨none, none⟩
  requestBlock _ _ _ hash := answer hash
  announce _ _ _ _ := .ok ()
  debug _ := ⟨[]⟩
  peerOrder _ peers := peers
  peerOrder_perm _ peers := .refl peers
  rounds := 0

theorem obligingWorld_reliable (answer : BlockHash → Except RequestError (Option Block)) :
    (obligingWorld answer).Reliable where
  connects _ _ hello := ⟨hello, rfl⟩
  disk _ := rfl

/-- Every peer answers, and none has a block. -/
def blocklessWorld : World := obligingWorld fun _ => .ok none

/-- No disk fails and no peer answers. -/
def offlineWorld : World :=
  { blocklessWorld with
    connect := fun _ _ _ => .error (.connect ⟨⟨[]⟩⟩)
    requestTip := fun _ _ _ => .error (.receive ⟨⟨[]⟩⟩)
    requestBlock := fun _ _ _ _ => .error (.receive ⟨⟨[]⟩⟩)
    announce := fun _ _ _ _ => .error ⟨⟨[]⟩⟩ }

end Worlds

variable {ε α β : Type} {w : World} {live : Live}

theorem self_bind_ends {P : Res ε α → Prop} {f : Server → ServerIo ε α}
    (h : Ends w Quiet P (f live.server) live) : Ends w Quiet P (self >>= f) live := h

theorem observe_ends (f : World → Nat → α) :
    Ends w Quiet (fun r : Res ε α => ∃ a, r = .ok a ∧ a = f w live.clock) (observe f) live :=
  ⟨live.tick, .ok (f w live.clock), rfl, ⟨rfl, rfl⟩, _, rfl, rfl⟩

theorem update_ends (f : Server → Server)
    (h : ∀ server, (f server).withoutPeers = server.withoutPeers) :
    Ends w Quiet (fun r : Res ε Unit => ∃ a, r = .ok a ∧ True) (update f) live :=
  ⟨_, .ok (), rfl, ⟨h live.server, rfl⟩, _, rfl, trivial⟩

theorem nowTimestampString_ends :
    Ends w Quiet (fun r : Res ε Text => ∃ a, r = .ok a ∧ True) nowTimestampString live :=
  ends_bind_of_ok (observe_ends _) fun _ _ _ _ => ends_pure _ ⟨_, rfl, trivial⟩

/-- The call succeeds in a reliable world. -/
def Sure (w : World) (r : Res ε α) : Prop := w.Reliable → ∃ a, r = .ok a

theorem savePeer_ends (peer : StoredPeer) :
    Ends w Quiet (Sure w) (commit (SqliteStore.savePeer peer)) live := by
  cases hs : live.server.sqliteStore with
  | none =>
    refine ⟨live, .ok (), by rw [commit_apply, hs], refl live, fun _ => ⟨(), rfl⟩⟩
  | some store =>
    by_cases hf : w.diskFails live.clock = true
    · refine ⟨live.tick, .error (.err .sqlite), ?_, ⟨rfl, rfl⟩, fun hw => ?_⟩
      · rw [commit_apply, hs]
        exact if_pos hf
      · rw [hw.disk] at hf
        cases hf
    · refine ⟨live.tick.withStore { store with peers := store.peers.insert peer.addr peer },
        .ok (), ?_, ⟨?_, rfl⟩, fun _ => ⟨(), rfl⟩⟩
      · rw [commit_apply, hs]
        exact if_neg hf
      · simp [SameButPeers, Server.withoutPeers, Live.withStore, Live.tick, hs]

theorem updatePersistedPeer_ends (endpoint : PeerEndpoint) (source : PeerSource)
    (change : StoredPeer → StoredPeer) (hs : live.server.sqliteStore ≠ none) :
    Ends w Quiet (Sure w) (updatePersistedPeer endpoint source change) live := by
  obtain ⟨store, hs⟩ := Option.ne_none_iff_exists'.mp hs
  refine self_bind_ends ?_
  rw [hs]
  refine ends_lift_bind store rfl ?_
  refine ends_bind_of_ok (observe_ends _) fun live' failed _ hfailed => ?_
  split
  · rename_i hf
    refine ends_lift _ fun hw => ?_
    rw [hfailed, hw.disk] at hf
    cases hf
  · exact ends_bind_of_ok (update_ends _ fun server => server.upsertRuntimePeer_withoutPeers _)
      fun _ _ _ _ => savePeer_ends _

theorem recordPeer_ends (peer : PeerEndpoint)
    (change : ServerIo SqliteStoreError (StoredPeer → StoredPeer))
    (h : ∀ live, Ends w Quiet (fun r => ∃ a, r = .ok a ∧ True) change live) :
    Ends w Quiet (Sure w) (recordPeer peer change) live := by
  refine self_bind_ends ?_
  split
  · exact ends_pure _ fun _ => ⟨(), rfl⟩
  · rename_i hs
    refine ends_bind_of_ok (h live) fun live' _ hq _ => updatePersistedPeer_ends _ _ _ ?_
    obtain ⟨store, hstore⟩ := Option.ne_none_iff_exists'.mp fun hn =>
      hs (Option.isNone_iff_eq_none.mpr hn)
    obtain ⟨peers, hpeers⟩ := hq.1.store store hstore
    rw [hpeers]
    exact Option.some_ne_none _

theorem recordPeerConnectAttempt_ends (peer : PeerEndpoint) :
    Ends w Quiet (Sure w) (recordPeerConnectAttempt peer) live :=
  recordPeer_ends _ _ fun _ => ends_bind_of_ok nowTimestampString_ends fun _ _ _ _ =>
    ends_pure _ ⟨_, rfl, trivial⟩

theorem recordPeerConnectSuccess_ends (peer : PeerEndpoint) (remoteHello : HelloMessage) :
    Ends w Quiet (Sure w) (recordPeerConnectSuccess peer remoteHello) live :=
  recordPeer_ends _ _ fun _ =>
    ends_bind_of_ok nowTimestampString_ends fun _ _ _ _ =>
      ends_bind_of_ok nowTimestampString_ends fun _ _ _ _ =>
        ends_bind_of_ok nowTimestampString_ends fun _ _ _ _ =>
          ends_bind_of_ok nowTimestampString_ends fun _ _ _ _ => ends_pure _ ⟨_, rfl, trivial⟩

theorem recordPeerConnectFailure_ends (peer : PeerEndpoint) (e : SyncError) :
    Ends w Quiet (Sure w) (recordPeerConnectFailure peer e) live :=
  recordPeer_ends _ _ fun _ => ends_bind_of_ok nowTimestampString_ends fun live' _ _ _ =>
    ⟨live', _, rfl, refl live', _, rfl, trivial⟩

theorem attempt_ends {m : ServerIo ε α} (h : Ends w Quiet (Sure w) m live) :
    Ends w Quiet (Sure w) (attempt m : ServerIo SyncError (Except ε α)) live := by
  obtain ⟨live', r, heq, hq, hP⟩ := h
  refine ⟨live', _, by rw [attempt, heq]; rfl, hq, fun hw => ?_⟩
  obtain ⟨a, rfl⟩ := hP hw
  exact ⟨.ok a, rfl⟩

/-- A step that succeeds in a reliable world, before others that do. -/
theorem sure_bind {m : ServerIo ε α} {f : α → ServerIo ε β} (hm : Ends w Quiet (Sure w) m live)
    (hf : ∀ live' a, Quiet live live' → Ends w Quiet (Sure w) (f a) live') :
    Ends w Quiet (Sure w) (m >>= f) live := by
  refine ends_bind hm (fun live' a hq _ => hf live' a hq) fun e he hw => ?_
  obtain ⟨a, ha⟩ := he hw
  cases ha

theorem ensurePeerConnected_ends (endpoint : PeerEndpoint) :
    Ends w Quiet (Sure w) (ensurePeerConnected endpoint) live := by
  refine ends_bind_of_ok (update_ends _ fun server => server.ensureRuntimePeer_withoutPeers _ _)
    fun live₁ _ _ _ => self_bind_ends ?_
  split
  · exact ends_pure _ fun _ => ⟨_, rfl⟩
  refine sure_bind (attempt_ends (recordPeerConnectAttempt_ends endpoint)) fun live₂ _ _ =>
    self_bind_ends (ends_ask_bind ?_)
  refine ends_bind_of_ok (observe_ends _) fun live₃ answer _ hanswer => ?_
  cases answer with
  | ok remoteHello =>
    refine sure_bind (ends_mapErr _ ((recordPeerConnectSuccess_ends endpoint remoteHello).imp
      fun r hr hw => ?_)) fun live₄ _ _ => ?_
    · obtain ⟨a, rfl⟩ := hr hw
      exact ⟨a, rfl⟩
    · exact ends_bind_of_ok (update_ends _ fun server => server.modifyPeer_withoutPeers _ _)
        fun _ _ _ _ => ends_pure _ fun _ => ⟨_, rfl⟩
  | error e =>
    refine sure_bind (attempt_ends (recordPeerConnectFailure_ends endpoint _)) fun _ _ _ =>
      ends_lift _ fun hw => ?_
    obtain ⟨remoteHello, hconnect⟩ := hw.connects live₂.clock endpoint.addr
      (localHello live₂.server.config live₂.server.state)
    cases hanswer.trans hconnect

/-- How a request ends whose answer is the same at every moment and on every session. -/
def Answered (w : World) (answer : Except RequestError α) (r : Res SyncError α) : Prop :=
  (∀ a, r = .ok a → answer = .ok a) ∧ (w.Reliable → ∀ a, answer = .ok a → r = .ok a)

omit [Crypto] in
theorem answered_of_sure {answer : Except RequestError α} (e : Fault SyncError)
    (h : Sure w (.error e : Res SyncError PeerSession)) : Answered w answer (.error e) := by
  refine ⟨fun a ha => (nomatch ha), fun hw => ?_⟩
  obtain ⟨a, ha⟩ := h hw
  cases ha

theorem requestFromPeer_ends (peer : PeerEndpoint)
    (request : World → Nat → PeerSession → Except RequestError α)
    (answer : Except RequestError α) (hanswer : ∀ time session, request w time session = answer) :
    Ends w Quiet (Answered w answer) (requestFromPeer peer request) live := by
  refine ends_bind (ensurePeerConnected_ends peer) (fun live₁ session _ _ => ?_) answered_of_sure
  refine ends_bind_of_ok (observe_ends _) fun live₂ first _ hfirst => ?_
  rw [hanswer] at hfirst
  subst hfirst
  cases first with
  | ok a =>
    exact ends_pure _ ⟨fun b hb => congrArg Except.ok (Except.ok.inj hb),
      fun _ b hb => congrArg Except.ok (Except.ok.inj hb)⟩
  | error e =>
    refine ends_bind_of_ok (update_ends _ fun server => server.modifyPeer_withoutPeers _ _)
      fun live₃ _ _ _ => ends_bind (ensurePeerConnected_ends peer) (fun live₄ session _ _ => ?_)
        answered_of_sure
    refine ends_bind_of_ok (observe_ends _) fun live₅ second _ hsecond => ?_
    rw [hanswer] at hsecond
    subst hsecond
    exact ends_lift _ ⟨fun a ha => (nomatch ha), fun _ a ha => (nomatch ha)⟩

end Server

end Wobble
