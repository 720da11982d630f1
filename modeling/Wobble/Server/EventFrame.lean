import Wobble.Server.Paths

namespace Wobble

open Rust Io

/-- The disk takes what is written. -/
def World.Writes (w : World) : Prop := ∀ time, w.diskFails time = false

variable [Crypto]

/-- A plan that saves the block, as a sync makes it or as a handler does. -/
inductive SavesBlock (state : NodeState) (hash : BlockHash) : Option (List Commit) → Prop where
  | synced (tip : Option BlockHash) (txids : Finset Txid) :
      SavesBlock state hash (saveAcceptedBlockState state hash tip txids)
  | handled (message : WireMessage) (request tip : Option BlockHash) (txids : Finset Txid)
      (replies : List WireMessage) (hmessage : ∀ tx, message ≠ .announceTx tx)
      (hrequest : request.or (minedBlockHash replies) = some hash) :
      SavesBlock state hash (saveSqlite state message request tip txids replies)

/-- The parts of a sync keep `I`. From the acceptance of a block to its save `U` holds, of every
plan that saves it. -/
structure SyncFrame (w : World) (I : Live → Prop) (U : Option (List Commit) → Live → Prop) :
    Prop where
  asks : ∀ peer, Maintains w I (Server.requestTipFromPeer peer)
  fetches : ∀ peer rounds hash, Maintains w I (Server.fetchMissing peer rounds hash)
  fails : ∀ peer e, Maintains w I (Server.recordPeerConnectFailure peer e)
  selects : ∀ {ε : Type}, Maintains w I (Server.selectSyncPeers : ServerIo ε _)
  touches : ∀ live addr f, (∀ runtime : RuntimePeer, (f runtime).endpoint = runtime.endpoint ∧
    (f runtime).stored = runtime.stored) → I live → I (live.onServer (·.modifyPeer addr f))
  accepts : ∀ live block plan, I live → (live.server.state.acceptBlock block).2 = .ok () →
    SavesBlock (live.server.state.acceptBlock block).1 block.header.blockHash plan →
      U plan (Server.setState live (live.server.state.acceptBlock block).1)
  refuses : ∀ live block e, I live → (live.server.state.acceptBlock block).2 = .error e →
    I (Server.setState live (live.server.state.acceptBlock block).1)
  saves : ∀ plan, Triple w (U plan) (Server.persist plan) (fun _ => I) I

/-- The parts of all handlers keep `I`; the transactions that are announced are in `T`. -/
structure HandlerFrame [Profile] (w : World) (T : Set Transaction) (I : Live → Prop)
    (U : Option (List Commit) → Live → Prop) : Prop extends SyncFrame w I U where
  hello : ∀ remoteHello, Maintains w I (Server.recordInboundHello remoteHello)
  tip : ∀ origin summary, Maintains w I (Server.recordInboundTip origin summary)
  spreads : ∀ {ε : Type} relays previousBestTip previousMempoolTxids origin, Maintains w I
    (Server.spreadChange relays previousBestTip previousMempoolTxids origin : ServerIo ε Unit)
  refreshes : ∀ {ε : Type}, Maintains w I (Server.refreshMiningCandidate : ServerIo ε Unit)
  starts : ∀ live, I live → I (Server.started live)
  submits : ∀ live tx state replies, tx ∈ T → I live →
    live.server.state.announceTx tx = (state, .ok replies) →
      U (some [SqliteStore.saveMempoolTransaction tx]) (Server.setState live state)
  declines : ∀ live tx state e, I live → live.server.state.announceTx tx = (state, .error e) →
    I (Server.setState live state)
  mines : ∀ live request state replies, I live →
    live.server.state.minePending request = some (state, .ok replies) →
      ∃ hash, minedBlockHash replies = some hash ∧
        ∀ plan, SavesBlock state hash plan → U plan (Server.setState live state)
  unmined : ∀ live request state e, I live →
    live.server.state.minePending request = some (state, .error e) →
      I (Server.setState live state)

namespace Server

variable {ε : Type} {w : World} {I : Live → Prop} {U : Option (List Commit) → Live → Prop}
  {live live' : Live}

section Syncs

variable (hF : SyncFrame w I U)

include hF

theorem marked_keeps (addr : Text) (syncState : PeerSyncState) (h : I live) :
    I (live.marked addr syncState) :=
  hF.touches live addr _ (fun _ => ⟨rfl, rfl⟩) h

theorem SyncsBlock.keeps {block : Block} {r : Res SyncError (Option Block)}
    (h : SyncsBlock w block live live' r) (hI : I live) : I live' := by
  cases h with
  | known _ => exact hI
  | rejected e _ ha => exact hF.refuses live block e hI ha
  | accepted _ r _ ha hp =>
    exact (hF.saves _).leaves (hF.accepts live block _ hI ha (.synced _ _)) hp

theorem SyncsBlocks.keeps {blocks : List Block} {r : Res SyncError (List Block)}
    (h : SyncsBlocks w blocks live live' r) (hI : I live) : I live' := by
  induction h with
  | nil live => exact hI
  | stopped block rest live live' e hblock => exact hblock.keeps hF hI
  | next block rest live middle live' accepted r hblock _ ih => exact ih (hblock.keeps hF hI)

theorem SyncsTo.keeps {peer : PeerEndpoint} {summary : TipSummary} {r : Res SyncError (List Block)}
    (h : SyncsTo w peer summary live live' r) (hI : I live) : I live' := by
  cases h with
  | idle => exact hI
  | unfetched tip _ e hf => exact (hF.fetches _ _ _).leaves hI hf
  | fetched tip fetched _ missing r _ hf hb => exact hb.keeps hF ((hF.fetches _ _ _).leaves hI hf)

theorem SyncsInner.keeps {peer : PeerEndpoint} {r : Res SyncError (List Block)}
    (h : SyncsInner w peer live live' r) (hI : I live) : I live' := by
  cases h with
  | unasked _ e ht => exact (hF.asks peer).leaves hI ht
  | asked asked _ summary r ht hs => exact hs.keeps hF ((hF.asks peer).leaves hI ht)

theorem SyncsFrom.keeps {peer : PeerEndpoint} {r : Res ε (Except SyncError (List Block))}
    (h : SyncsFrom w peer live live' r) (hI : I live) : I live' := by
  have hmarked : I (live.marked peer.addr .syncing) := marked_keeps hF _ _ hI
  cases h with
  | panicked _ m hs => exact hs.keeps hF hmarked
  | ended synced result hs => exact marked_keeps hF _ _ (hs.keeps hF hmarked)

theorem SyncsPeers.keeps {peers : List PeerEndpoint} {r : Res ε Unit}
    (h : SyncsPeers w peers live live' r) (hI : I live) : I live' := by
  induction h with
  | nil live => exact hI
  | panicked peer rest live live' m hs => exact hs.keeps hF hI
  | unnoted peer rest live synced live' e m hs hf =>
    exact (hF.fails peer e).leaves (hs.keeps hF hI) hf
  | failed peer rest live synced noted live' e x r hs hf _ ih =>
    exact ih ((hF.fails peer e).leaves (hs.keeps hF hI) hf)
  | next peer rest live synced live' blocks r hs _ ih => exact ih (hs.keeps hF hI)

theorem SyncsKnown.keeps {r : Res ε Unit} (h : SyncsKnown w live live' r) (hI : I live) :
    I live' := by
  cases h with
  | unselected _ e hs => exact hF.selects.leaves hI hs
  | selected selected _ peers r hs hp => exact hp.keeps hF (hF.selects.leaves hI hs)

end Syncs

section Handlers

variable [Profile] {T : Set Transaction} (hF : HandlerFrame w T I U)

include hF

theorem Finishes.keeps {plan : Option (List Commit)} {relays : List WireMessage}
    {before : NodeState} {origin : Option PeerAddr} {r : Res ServerError Unit}
    (h : Finishes w plan relays before origin live live' r) (hU : U plan live) : I live' := by
  cases h with
  | unsaved _ e hp => exact (hF.saves plan).leaves hU hp
  | saved saved _ r hp hs => exact (hF.spreads _ _ _ _).leaves ((hF.saves plan).leaves hU hp) hs

theorem TakesTx.keeps {tx : Transaction} {origin : Option PeerAddr}
    {r : Res ServerError (List WireMessage)} (htx : tx ∈ T) (h : TakesTx w tx origin live live' r)
    (hI : I live) : I live' := by
  cases h with
  | unnamed e _ => exact hI
  | named relay _ r _ hm =>
    cases hm with
    | rejected state e hc => exact hF.declines live tx state e hI (Option.some.inj hc)
    | finished state replies _ r hc hf =>
      exact hf.keeps hF (hF.submits live tx state replies htx hI (Option.some.inj hc))

theorem announces_keeps {block : Block} {before : NodeState} {origin : Option PeerAddr}
    {r : Res ServerError (List WireMessage)} (h : Announces w block before origin live live' r)
    (hI : I live) : I live' := by
  cases h with
  | rejected state e hc =>
    obtain ⟨e', rfl, he, -⟩ := NodeState.announceBlock_eq_error (Option.some.inj hc)
    exact hF.refuses live block e' hI he
  | finished state replies _ r hc hf =>
    obtain ⟨rfl, rfl, hok⟩ := NodeState.announceBlock_eq_ok (Option.some.inj hc)
    exact hf.keeps hF (hF.accepts live block _ hI hok
      (.handled _ _ _ _ _ (fun tx h => by cases h) rfl))

theorem TakesBlock.keeps {block : Block} {origin : Option PeerAddr}
    {r : Res ServerError (List WireMessage)} (h : TakesBlock w block origin live live' r)
    (hI : I live) : I live' := by
  cases h with
  | direct _ r ha => exact announces_keeps hF ha hI
  | panicked peer e _ m _ he _ hs =>
    exact hs.keeps hF.toSyncFrame (hF.refuses live block _ hI he)
  | retried peer e synced _ result r _ he _ hs ha =>
    exact announces_keeps hF ha (hs.keeps hF.toSyncFrame (hF.refuses live block _ hI he))

theorem minesPending_keeps {request : MinePendingRequest} {origin : Option PeerAddr}
    {r : Res ServerError (List WireMessage)} (h : MinesPending w request origin live live' r)
    (hI : I live) : I live' := by
  cases h with
  | rejected state e hc => exact hF.unmined live request state e hI hc
  | finished state replies _ r hc hf =>
    obtain ⟨hash, hmined, hU⟩ := hF.mines live request state replies hI hc
    exact hf.keeps hF (hU _ (.handled _ _ _ _ _ (fun tx h => by cases h) hmined))

theorem Hears.keeps {origin : Option PeerAddr} {message : WireMessage}
    {r : Res ServerError (List WireMessage)} (hT : ∀ tx, message = .announceTx tx → tx ∈ T)
    (h : Hears w origin live message live' r) (hI : I live) : I live' := by
  cases h with
  | hello remoteHello _ x r hx => exact (hF.hello remoteHello).leaves hI hx
  | announceTip summary _ x r hx => exact (hF.tip origin summary).leaves hI hx
  | asks _ r _ => exact hI
  | announceTx tx _ r htx => exact htx.keeps hF (hT tx rfl) hI
  | announceBlock block _ r hb => exact hb.keeps hF hI
  | minePending request _ r hm => exact minesPending_keeps hF hm hI

theorem Bootstraps.keeps {publicKey : Bytes} {start : UInt32} {offsets : List UInt32}
    {r : Res ServerError (Option BlockHash)}
    (h : Bootstraps w publicKey start offsets live live' r) (hI : I live) : I live' := by
  induction h with
  | nil live last => exact hI
  | stopped offset rest live live' e hm => exact minesPending_keeps hF hm hI
  | next offset rest live middle live' replies r hm _ ih =>
    exact ih (minesPending_keeps hF (handlePeerMinePending_path hm) hI)

theorem Administers.keeps {request : AdminRequest} {r : Res ε AdminResponse}
    (hT : ∀ tx, request = .submitTransaction tx → tx ∈ T)
    (h : Administers w live request live' r) (hI : I live) : I live' := by
  cases h with
  | answered _ r => exact hI
  | bootstrap publicKey blocks _ x r hb _ => exact hb.keeps hF hI
  | submitTransaction tx _ x r htx _ => exact htx.keeps hF (hT tx rfl) hI

theorem SyncsTip.keeps {origin : PeerAddr} {summary : TipSummary} {r : Res ε Unit}
    (h : SyncsTip w origin summary live live' r) (hI : I live) : I live' := by
  have hhinted : ∀ addr, I (live.hinted addr summary) := fun addr =>
    marked_keeps hF.toSyncFrame _ _ (hF.touches live addr _ (fun _ => ⟨rfl, rfl⟩) hI)
  cases h with
  | idle => exact hI
  | panicked peer _ m hs => exact hs.keeps hF.toSyncFrame (hhinted _)
  | spread peer synced _ result r hs hspread =>
    have hsynced := hs.keeps hF.toSyncFrame (hhinted _)
    exact (hF.spreads _ _ _ _).leaves (marked_keeps hF.toSyncFrame _ _ hsynced) hspread

theorem Starts.keeps {r : Res ε Unit} (h : Starts w live live' r) (hI : I live) : I live' := by
  cases h with
  | mines _ r hm => exact hF.refreshes.leaves hI hm
  | unsynced _ e hs => exact hs.keeps hF.toSyncFrame hI
  | synced synced _ r hs hm =>
    exact hF.refreshes.leaves (hF.starts synced (hs.keeps hF.toSyncFrame hI)) hm

/-- The handling of an event keeps the property, however it ends. -/
theorem handleEvent_frame (event : ServerEvent) (hT : ∀ tx, event.Announces tx → tx ∈ T)
    (hconnected : ∀ live id, event = .peerConnected id → I live →
      I (live.onServer fun server => { server with
        connectedPeers := server.connectedPeers.insert id () }))
    (hdisconnected : ∀ live id, event = .peerDisconnected id → I live →
      I (live.onServer fun server => { server with
        connectedPeers := server.connectedPeers.remove id })) :
    Maintains w I (handleEvent event : ServerIo ε Outcome) := by
  refine (triple_iff _).mpr fun live live' r hI heq => ?_
  have hpath := handleEvent_path heq
  cases hpath with
  | bootstrap _ x r hs _ => exact hs.keeps hF hI
  | peerConnected id => exact hconnected live id rfl hI
  | peerDisconnected id => exact hdisconnected live id rfl hI
  | peerMessage origin message _ x r hm _ =>
    refine hm.keeps hF (fun tx htx => hT tx ?_) hI
    rw [htx]
    exact .peer origin
  | adminRequest request _ x r ha _ =>
    refine ha.keeps hF (fun tx htx => hT tx ?_) hI
    rw [htx]
    exact .admin
  | tipSync origin summary _ x r hs _ => exact hs.keeps hF hI
  | syncTick _ x r hs => exact hs.keeps hF.toSyncFrame hI
  | unticked r => exact hI
  | minedCandidate block _ x r _ hb _ => exact hb.keeps hF hI
  | stale block r => exact hI
  | stop => exact hI

end Handlers

end Server

/-- A relation that allows all a handler does, relaying and calls on the node state apart. -/
structure EventFrame (R : Live → Live → Prop) : Prop extends NetworkFrame R where
  stores : ∀ live store, R live (live.withStore store)
  mines : ∀ live live', Server.Remines live live' → R live live'
  bootstraps : ∀ live : Live, R live (Server.started live)

/-- A relation that allows the calls handlers make on the node state, however they end. -/
structure StateFrame [Profile] (R : Live → Live → Prop) : Prop where
  announceTx : ∀ (live : Live) (tx : Transaction),
    R live (Server.setState live (live.server.state.announceTx tx).1)
  acceptBlock : ∀ (live : Live) (block : Block),
    R live (Server.setState live (live.server.state.acceptBlock block).1)
  minePending : ∀ (live : Live) (request : MinePendingRequest) (state : NodeState)
    (r : Res PeerError (List WireMessage)),
    live.server.state.minePending request = some (state, r) → R live (Server.setState live state)

namespace Server

variable {ε α : Type} {w : World} {R : Live → Live → Prop} [IsPreorder Live R]

section Saves

variable (hR : EventFrame R)

include hR

theorem commit_keeps (transaction : Commit) : Keeps R (commit transaction) := by
  intro w live live' r h
  rw [commit_apply] at h
  have htick : R live live.tick := hR.quiet _ _ ⟨rfl, rfl⟩
  cases hs : live.server.sqliteStore with
  | none =>
    rw [hs] at h
    cases h
    exact refl live
  | some store =>
    simp only [hs] at h
    split_ifs at h
    · cases h
      exact htick
    · cases hc : transaction store with
      | error e =>
        rw [hc] at h
        cases h
        exact htick
      | ok store' =>
        rw [hc] at h
        cases h
        exact IsTrans.trans _ _ _ htick (hR.stores _ _)

theorem persist_keeps (plan : Option (List Commit)) : Keeps R (persist plan) := by
  refine keeps_bind self_keeps fun server => ?_
  split
  · exact keeps_pure _
  · exact keeps_bind (keeps_await _) fun commits =>
      keeps_forEach _ fun transaction _ => commit_keeps hR transaction

omit [IsPreorder Live R] in
theorem keeps_of_remines {m : ServerIo ε α} (h : Keeps Remines m) : Keeps R m :=
  fun w live live' r heq => hR.mines _ _ (h w live live' r heq)

end Saves

section Instances

variable [Profile] (hR : EventFrame R) (hS : StateFrame R)

include hR

omit [Profile] hR in
theorem maintains_from {m : ServerIo ε α} (hm : Keeps R m) (first : Live) :
    Maintains w (R first) m :=
  maintains_of_keeps hm fun _ _ hmiddle hfirst => IsTrans.trans _ _ _ hfirst hmiddle

include hS

/-- What is within the relation from a given server on stays so. -/
theorem syncFrame_of_keeps (first : Live) : SyncFrame w (R first) fun _ => R first where
  asks peer := maintains_from (requestTipFromPeer_keeps hR.toNetworkFrame peer) first
  fetches _ _ _ := maintains_from (fetchMissing_keeps hR.toNetworkFrame _ _ _) first
  fails _ _ := maintains_from (recordPeerConnectFailure_keeps hR.toNetworkFrame _ _) first
  selects := maintains_from (selectSyncPeers_keeps hR.toNetworkFrame) first
  touches live addr f _ h :=
    IsTrans.trans _ _ _ h (hR.quiet _ _ ⟨live.server.modifyPeer_withoutPeers addr f, rfl⟩)
  accepts live block _ h _ _ := IsTrans.trans _ _ _ h (hS.acceptBlock live block)
  refuses live block _ h _ := IsTrans.trans _ _ _ h (hS.acceptBlock live block)
  saves plan := maintains_from (persist_keeps hR plan) first

variable (hrelays : ∀ live message origin, R live (live.sends (.relay message origin)))

include hrelays

omit hS in
theorem spreadChange_keeps (relays : List WireMessage) (previousBestTip : Option BlockHash)
    (previousMempoolTxids : Finset Txid) (origin : Option PeerAddr) :
    Keeps R (spreadChange relays previousBestTip previousMempoolTxids origin : ServerIo ε Unit) :=
  keeps_bind (keeps_forEach _ fun message _ => relayBestEffort_keeps hR.toNetworkFrame message
      origin fun live => hrelays live _ _) fun _ =>
    keeps_bind (relayNewBestTipIfAdvanced_keeps hR.toNetworkFrame _ _ fun live _ =>
      hrelays live _ _) fun _ =>
    keeps_of_remines hR (maybeRefreshMining_keeps _ _)

theorem handlerFrame_of_keeps (first : Live) :
    HandlerFrame w Set.univ (R first) fun _ => R first where
  toSyncFrame := syncFrame_of_keeps hR hS first
  hello _ := maintains_from (recordInboundHello_keeps hR.toNetworkFrame _) first
  tip _ _ := maintains_from (recordInboundTip_keeps hR.toNetworkFrame _ _) first
  spreads _ _ _ _ :=
    maintains_from (spreadChange_keeps hR hrelays _ _ _ _) first
  refreshes := maintains_from (keeps_of_remines hR refreshMiningCandidate_keeps) first
  starts live h := IsTrans.trans _ _ _ h (hR.bootstraps live)
  submits live tx state replies _ h heq := by
    have hcall := hS.announceTx live tx
    rw [heq] at hcall
    exact IsTrans.trans _ _ _ h hcall
  declines live tx state e h heq := by
    have hcall := hS.announceTx live tx
    rw [heq] at hcall
    exact IsTrans.trans _ _ _ h hcall
  mines live request state replies h heq := by
    obtain ⟨block, ids, -, -, rfl⟩ := NodeState.minePending_ok heq
    exact ⟨_, rfl, fun plan _ => IsTrans.trans _ _ _ h (hS.minePending live request state _ heq)⟩
  unmined live request state e h heq :=
    IsTrans.trans _ _ _ h (hS.minePending live request state _ heq)

/-- Every event but the two about connected peers keeps the relation, however it ends. -/
theorem handleEvent_keeps (event : ServerEvent) (hconnected : ∀ id, event ≠ .peerConnected id)
    (hdisconnected : ∀ id, event ≠ .peerDisconnected id) :
    Keeps R (handleEvent event : ServerIo ε Outcome) := by
  intro w live live' r h
  have hframe := handlerFrame_of_keeps (w := w) hR hS hrelays live
  refine (handleEvent_frame hframe event (fun _ _ => trivial) ?_ ?_).leaves (refl live) h
  · intro _ id heq
    exact absurd heq (hconnected id)
  · intro _ id heq
    exact absurd heq (hdisconnected id)

end Instances

end Server

end Wobble
