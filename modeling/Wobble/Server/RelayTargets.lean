import Wobble.Server.SyncWalk

namespace Wobble

open Rust Rust.Io

/-- The sender as the protocol document has it. -/
def isSender (peer : PeerEndpoint) (origin : PeerAddr) : Bool :=
  match origin.advertisedAddr, origin.nodeName with
  | some addr, _ => peer.addr == addr
  | none, some name => peer.nodeName == some name
  | none, none => false

section Relay

variable [Crypto] {ε : Type}

namespace Server

/-- Announcing to the given peers in turn, each as often as it takes. -/
def announceTo (message : WireMessage) (origin : Option PeerAddr) (targets : List PeerEndpoint) :
    ServerIo ε Unit := do
  emit (.relay message origin)
  forEach (fun peer => announceToPeerBestEffort peer message relayConnectAttempts) targets

theorem relayBestEffort_eq (message : WireMessage) (origin : Option PeerAddr) (w : World)
    (live : Live) :
    relayBestEffort (ε := ε) message origin w live =
      announceTo message origin
        (live.server.peerEndpoints.filter fun peer => !peerMatchesOrigin peer origin) w live := by
  unfold announceTo
  rw [← forEach_skip]
  rfl

theorem mem_peerEndpoints (server : Server) (peer : PeerEndpoint) :
    peer ∈ server.peerEndpoints ↔
      ∃ addr runtime, server.peers.get addr = some runtime ∧ runtime.endpoint = peer := by
  rw [peerEndpoints, (Sql.orderBy_perm _ _).mem_iff, List.mem_map]
  simp [HashMap.mem_iter]

variable {w : World}

theorem announceToPeerBestEffort_reliable (hw : w.Reliable)
    (hgets : ∀ time session addr message, w.announce time session addr message = .ok ())
    (peer : PeerEndpoint) (message : WireMessage) (live : Live) :
    ∃ live', announceToPeerBestEffort (ε := ε) peer message relayConnectAttempts w live =
        some (live', .ok ()) ∧
      live'.trace = live.trace ++ [.announce peer.addr message] := by
  obtain ⟨connected, r, hopen, hquiet, hsure⟩ := ensurePeerConnected_ends (w := w) peer
  obtain ⟨session, rfl⟩ := hsure hw
  have honce : announceToPeerOnce (ε := ε) peer message w live =
      some ((connected.sends (.announce peer.addr message)).tick, .ok (.ok ())) := by
    have hsent : observe (ε := ε) (fun world time => world.announce time session peer.addr message)
        w (connected.sends (.announce peer.addr message)) =
          some ((connected.sends (.announce peer.addr message)).tick, .ok (.ok ())) := by
      change some (_, Except.ok (w.announce _ session peer.addr message)) = _
      rw [hgets]
      rfl
    rw [announceToPeerOnce, bind_of_ok ((attempt_eq_ok _ _ _ _ _).mpr hopen)]
    dsimp only
    rw [bind_of_ok (rfl : emit (.announce peer.addr message) w connected = some (_, .ok ()))]
    exact bind_of_ok hsent _
  refine ⟨(connected.sends (.announce peer.addr message)).tick, ?_, ?_⟩
  · rw [relayConnectAttempts, announceToPeerBestEffort, bind_of_ok honce]
    rfl
  · change connected.trace ++ _ = _
    rw [hquiet.2]

theorem announceTo_reliable (hw : w.Reliable)
    (hgets : ∀ time session addr message, w.announce time session addr message = .ok ())
    (message : WireMessage) (origin : Option PeerAddr) (targets : List PeerEndpoint)
    (live : Live) :
    ∃ live', announceTo (ε := ε) message origin targets w live = some (live', .ok ()) ∧
      live'.trace = live.trace ++ .relay message origin ::
        targets.map fun peer => .announce peer.addr message := by
  have hloop : ∀ live : Live, ∃ live', forEach (fun peer =>
        announceToPeerBestEffort (ε := ε) peer message relayConnectAttempts) targets w live =
        some (live', .ok ()) ∧
      live'.trace = live.trace ++ targets.map fun peer => .announce peer.addr message := by
    induction targets with
    | nil => exact fun live => ⟨live, rfl, (List.append_nil _).symm⟩
    | cons peer targets ih =>
      intro live
      obtain ⟨told, htold, htrace⟩ :=
        announceToPeerBestEffort_reliable hw hgets peer message live
      obtain ⟨live', hrest, htrace'⟩ := ih told
      refine ⟨live', ?_, ?_⟩
      · rw [forEach, bind_of_ok htold, hrest]
      · rw [htrace', htrace, List.map_cons, List.append_assoc]
        rfl
  obtain ⟨live', hrun, htrace⟩ := hloop (live.sends (.relay message origin))
  refine ⟨live', hrun, ?_⟩
  rw [htrace]
  change live.trace ++ [_] ++ _ = _
  rw [List.append_assoc]
  rfl

omit [Crypto] in
theorem matches_of_isSender {peer : PeerEndpoint} {origin : PeerAddr}
    (h : isSender peer origin = true) : peerMatchesOrigin peer (some origin) = true := by
  obtain ⟨addr | addr, name | name⟩ := origin
  · cases h
  all_goals exact h

omit [Crypto] in
/-- The code and the document differ on nothing but unnamed peers and an origin that says nothing
of itself. -/
theorem matches_eq_isSender_iff (peer : PeerEndpoint) (origin : PeerAddr) :
    peerMatchesOrigin peer (some origin) = isSender peer origin ↔
      (origin.advertisedAddr = none → origin.nodeName = none → peer.nodeName ≠ none) := by
  obtain ⟨addr | addr, name | name⟩ := origin <;>
    simp [peerMatchesOrigin, isSender, Option.isSome_iff_ne_none]

/-- Those the document has the object announced to. -/
def documentedTargets (server : Server) (origin : Option PeerAddr) : List PeerEndpoint :=
  server.peerEndpoints.filter fun peer => !origin.any (isSender peer)

theorem announceTo_inj (message : WireMessage) (origin : Option PeerAddr)
    (targets targets' : List PeerEndpoint) (hsub : targets.Sublist targets') (live : Live)
    (h : ∀ w, announceTo (ε := ε) message origin targets w live =
      announceTo message origin targets' w live) : targets = targets' := by
  have hw := obligingWorld_reliable fun _ => .ok none
  obtain ⟨live₁, hrun₁, htrace₁⟩ :=
    announceTo_reliable (ε := ε) hw (fun _ _ _ _ => rfl) message origin targets live
  obtain ⟨live₂, hrun₂, htrace₂⟩ :=
    announceTo_reliable (ε := ε) hw (fun _ _ _ _ => rfl) message origin targets' live
  rw [h, hrun₂] at hrun₁
  obtain rfl : live₂ = live₁ := congrArg Prod.fst (Option.some.inj hrun₁)
  have hlen := congrArg List.length (htrace₁.symm.trans htrace₂)
  exact hsub.eq_of_length (by simpa using hlen)

/-- Relaying announces to every known peer but the sender if and only if the origin gave an address
or a name, or no known peer lacks a name. -/
theorem relay_reaches_all_but_sender (server : Server) (origin : Option PeerAddr) :
    (∀ message w clock trace, relayBestEffort (ε := ε) message origin w ⟨server, clock, trace⟩ =
      announceTo message origin (server.documentedTargets origin) w ⟨server, clock, trace⟩) ↔
    ∀ sender, origin = some sender → sender.advertisedAddr = none → sender.nodeName = none →
      ∀ addr runtime, server.peers.get addr = some runtime → runtime.endpoint.nodeName ≠ none := by
  cases origin with
  | none =>
    refine iff_of_true (fun message w clock trace => ?_) nofun
    rw [relayBestEffort_eq]
    rfl
  | some sender =>
    constructor
    · intro h sender' heq haddr hname addr runtime hget
      obtain rfl := Option.some.inj heq
      intro hunnamed
      have hpeer : runtime.endpoint ∈ server.peerEndpoints :=
        (mem_peerEndpoints server _).mpr ⟨addr, runtime, hget, rfl⟩
      have hsub : (server.peerEndpoints.filter fun peer =>
          !peerMatchesOrigin peer (some sender)).Sublist
          (server.documentedTargets (some sender)) := by
        refine List.monotone_filter_right _ fun peer hp => ?_
        rw [Bool.not_eq_true'] at hp ⊢
        exact Bool.eq_false_iff.mpr fun hs =>
          Bool.eq_false_iff.mp hp (matches_of_isSender hs)
      have hlists := announceTo_inj (.announceTip server.state.tipSummary) (some sender) _ _ hsub
        ⟨server, 0, []⟩ fun w => (relayBestEffort_eq (ε := ε) _ _ _ _).symm.trans (h _ w 0 [])
      have htarget : runtime.endpoint ∈ server.documentedTargets (some sender) := by
        refine List.mem_filter.mpr ⟨hpeer, ?_⟩
        simp [isSender, haddr, hname]
      rw [← hlists, List.mem_filter] at htarget
      simp [peerMatchesOrigin, haddr, hname, hunnamed] at htarget
    · intro h message w clock trace
      rw [relayBestEffort_eq]
      congr 1
      refine List.filter_congr fun peer hpeer => ?_
      rw [(matches_eq_isSender_iff peer sender).mpr]
      · rfl
      intro haddr hname
      obtain ⟨addr, runtime, hget, rfl⟩ := (mem_peerEndpoints server peer).mp hpeer
      exact h sender rfl haddr hname addr runtime hget

end Server

end Relay

section Silent

attribute [local instance] NodeState.sampleCrypto

/-- A node that knows one peer, by its address alone. -/
def oneUnnamedPeer : Server :=
  .new { plainOptions .new with peers := [onlyPeer] }

/-- The only peer is not the sender by any rule, and is told nothing. -/
theorem silentOrigin_suppresses :
    isSender onlyPeer ⟨none, none⟩ = false ∧ oneUnnamedPeer.peerEndpoints = [onlyPeer] ∧
    Server.relayBestEffort (ε := Empty) (.announceTip ⟨none, none⟩) (some ⟨none, none⟩)
      Server.blocklessWorld (.start oneUnnamedPeer) =
      some ((Live.start oneUnnamedPeer).sends (.relay (.announceTip ⟨none, none⟩)
        (some ⟨none, none⟩)), .ok ()) := by
  have hpeers : oneUnnamedPeer.peerEndpoints = [onlyPeer] := by decide +kernel
  refine ⟨rfl, hpeers, ?_⟩
  rw [Server.relayBestEffort_eq]
  change Server.announceTo _ _ (oneUnnamedPeer.peerEndpoints.filter _) _ _ = _
  rw [hpeers]
  rfl

end Silent

end Wobble
