import Wobble.Node.MinedReward
import Wobble.Server.Frame

namespace Wobble

open Rust Io

/-- The events that announce a transaction. -/
inductive ServerEvent.Announces (tx : Transaction) : ServerEvent → Prop where
  | peer (origin : Option PeerAddr) : Announces tx (.peerMessage origin (.announceTx tx))
  | admin : Announces tx (.adminRequest (.submitTransaction tx))

variable [Crypto]

namespace NodeState

variable {s state : NodeState} {block : Block}

theorem announceTx_state (s : NodeState) (tx : Transaction) :
    (s.announceTx tx).1 = (s.submitTransaction tx).1 := by
  rw [announceTx]
  split <;> simp only [*]

theorem announceTx_error {s : NodeState} {tx : Transaction} {fault : Fault PeerError}
    (h : (s.announceTx tx).2 = .error fault) : (s.announceTx tx).1 = s := by
  have hstate := s.announceTx_state tx
  unfold announceTx at h
  unfold submitTransaction at h hstate
  rcases hsub : s.mempool.submit s.activeUtxos tx with (e | m) | ⟨pool, txid⟩
  · rw [hsub] at hstate
    exact hstate
  · rw [hsub] at hstate
    exact hstate
  · rw [hsub] at h
    cases h

theorem announceBlock_eq_ok {replies : List WireMessage}
    (h : s.announceBlock block = (state, .ok replies)) :
    state = (s.acceptBlock block).1 ∧ replies = [] ∧ (s.acceptBlock block).2 = .ok () := by
  rw [announceBlock] at h
  rcases hacc : s.acceptBlock block with ⟨t, (e | m) | u⟩
  · rw [hacc] at h
    cases h
  · rw [hacc] at h
    cases h
  · rw [hacc] at h
    cases h
    exact ⟨rfl, rfl, rfl⟩

theorem announceBlock_eq_error {fault : Fault PeerError}
    (h : s.announceBlock block = (state, .error fault)) :
    ∃ e, state = (s.acceptBlock block).1 ∧ (s.acceptBlock block).2 = .error e ∧
      Res.mapErr PeerError.blockRejected (.error e : Res NodeStateError Unit) = .error fault := by
  rw [announceBlock] at h
  rcases hacc : s.acceptBlock block with ⟨t, (e | m) | u⟩
  · rw [hacc] at h
    cases h
    exact ⟨.err e, rfl, rfl, rfl⟩
  · rw [hacc] at h
    cases h
    exact ⟨.panic m, rfl, rfl, rfl⟩
  · rw [hacc] at h
    cases h

variable [Profile]

theorem minePending_eq_some {s s' : NodeState} {request : MinePendingRequest}
    {r : Res PeerError (List WireMessage)} (h : s.minePending request = some (s', r)) :
    (s' = s ∧ ∃ e, r = .error e) ∨
      ∃ key mined, parseVerifyingKey request.minerPublicKey = some key ∧
      s.mineBlock request.reward key request.uniqueness request.bits request.maxTransactions =
        some (s', mined) ∧
      ((∃ e, r = .error e) ∨ ∃ hash, mined = .ok hash ∧ r = .ok [.minedBlock ⟨hash⟩]) := by
  unfold minePending at h
  cases hkey : parseVerifyingKey request.minerPublicKey with
  | none =>
    rw [hkey] at h
    cases h
    exact .inl ⟨rfl, _, rfl⟩
  | some key =>
    rw [hkey] at h
    obtain ⟨⟨t, mined⟩, hmined, heq⟩ := Option.map_eq_some_iff.mp h
    cases heq
    refine .inr ⟨key, mined, rfl, hmined, ?_⟩
    rcases mined with (e | m) | hash
    · exact .inl ⟨_, rfl⟩
    · exact .inl ⟨_, rfl⟩
    · exact .inr ⟨hash, rfl, rfl⟩

/-- Mining that fails has made no block, or its block was refused. -/
theorem mineBlock_error {s s' : NodeState} {subsidy : UInt64} {key : VerifyingKey}
    {uniqueness bits : UInt32} {maxTransactions : Nat} {fault : Fault NodeStateError}
    (h : s.mineBlock subsidy key uniqueness bits maxTransactions = some (s', .error fault)) :
    s' = s ∨ ∃ block fault', s' = (s.acceptBlock block).1 ∧
      (s.acceptBlock block).2 = .error fault' := by
  unfold mineBlock at h
  rcases hsel : s.selectPending subsidy maxTransactions with e | ⟨pending, ids, reward⟩
  · rw [hsel] at h
    cases h
    exact .inl rfl
  simp only [hsel] at h
  split at h
  · cases h
  · cases h
    exact .inl rfl
  · rename_i block hblock
    rcases hacc : s.acceptBlock block with ⟨t, e | u⟩
    · rw [hacc] at h
      cases h
      exact .inr ⟨block, fault, by rw [hacc], by rw [hacc]⟩
    · rw [hacc] at h
      cases h

theorem minePending_error {s s' : NodeState} {request : MinePendingRequest}
    {fault : Fault PeerError} (h : s.minePending request = some (s', .error fault)) :
    s' = s ∨ ∃ block fault', s' = (s.acceptBlock block).1 ∧
      (s.acceptBlock block).2 = .error fault' := by
  unfold minePending at h
  split at h
  · cases h
    exact .inl rfl
  · obtain ⟨⟨t, mined⟩, hmined, heq⟩ := Option.map_eq_some_iff.mp h
    obtain ⟨rfl, hresult⟩ := Prod.mk.inj heq
    cases mined with
    | ok hash => cases hresult
    | error e => exact mineBlock_error hmined

theorem minePending_ok {s s' : NodeState} {request : MinePendingRequest}
    {replies : List WireMessage} (h : s.minePending request = some (s', .ok replies)) :
    ∃ block ids, (s.acceptBlock block).2 = .ok () ∧
      s' = { (s.acceptBlock block).1 with
        mempool := (s.acceptBlock block).1.mempool.removeMany ids } ∧
      replies = [.minedBlock ⟨block.header.blockHash⟩] := by
  rcases minePending_eq_some h with ⟨-, e, he⟩ | ⟨key, mined, -, hmined, hr⟩
  · cases he
  rcases hr with ⟨e, he⟩ | ⟨hash, rfl, hreplies⟩
  · cases he
  obtain ⟨pending, ids, reward, block, -, -, hok, rfl, hs'⟩ := mineBlock_eq_ok hmined
  exact ⟨block, ids, hok, hs', Except.ok.inj hreplies⟩

end NodeState

/-- The peer has been marked as syncing, or as idle again. -/
def Live.marked (live : Live) (addr : Text) (syncState : PeerSyncState) : Live :=
  live.onServer (·.modifyPeer addr fun runtime => { runtime with syncState := syncState })

theorem Live.marked_same (live : Live) (addr : Text) (syncState : PeerSyncState) :
    SameButPeers live (live.marked addr syncState) :=
  live.server.modifyPeer_withoutPeers addr _

/-- The hint that a tip sync leaves, and the mark while it goes on. -/
def Live.hinted (live : Live) (addr : Text) (summary : TipSummary) : Live :=
  (live.onServer (·.modifyPeer addr fun runtime =>
    { runtime with lastTipSyncHint := some summary })).marked addr .syncing

namespace Server

variable {ε : Type} {w : World} {live live' : Live}

theorem self_bind {α : Type} (f : Server → ServerIo ε α) : (self >>= f) w live = f live.server w live :=
  rfl

theorem setSyncState_apply (addr : Text) (syncState : PeerSyncState) :
    (setSyncState addr syncState : ServerIo ε Unit) w live =
      some (live.marked addr syncState, .ok ()) := rfl

/-- How a fetched block is taken in. -/
inductive SyncsBlock (w : World) (block : Block) (live : Live) :
    Live → Res SyncError (Option Block) → Prop where
  | known (hk : (live.server.state.getBlock block.header.blockHash).isSome = true) :
      SyncsBlock w block live live (.ok none)
  | rejected (e : Fault NodeStateError)
      (hn : live.server.state.getBlock block.header.blockHash = none)
      (ha : (live.server.state.acceptBlock block).2 = .error e) :
      SyncsBlock w block live (setState live (live.server.state.acceptBlock block).1)
        (Res.mapErr SyncError.acceptBlock (.error e))
  | accepted (live' : Live) (r : Res SqliteStoreError Unit)
      (hn : live.server.state.getBlock block.header.blockHash = none)
      (ha : (live.server.state.acceptBlock block).2 = .ok ())
      (hp : persist (saveAcceptedBlockState (live.server.state.acceptBlock block).1
        block.header.blockHash live.server.state.chain.bestTip
        (mempoolTxids live.server.state.mempool)) w
        (setState live (live.server.state.acceptBlock block).1) = some (live', r)) :
      SyncsBlock w block live live' (Res.mapErr SyncError.sqlitePersist (r.map fun _ => some block))

theorem acceptSyncedBlock_path {block : Block} {r : Res SyncError (Option Block)}
    (h : acceptSyncedBlock block live.server.state.chain.bestTip
      (mempoolTxids live.server.state.mempool) w live = some (live', r)) :
    SyncsBlock w block live live' r := by
  rw [acceptSyncedBlock, self_bind] at h
  cases hget : live.server.state.getBlock block.header.blockHash with
  | some known =>
    rw [hget, Option.isSome_some, if_pos rfl] at h
    cases h
    exact .known (by rw [hget]; rfl)
  | none =>
    rw [hget, Option.isSome_none, if_neg Bool.false_ne_true] at h
    rcases mapErr_bind_eq_some h with ⟨e, hacc, rfl⟩ | ⟨taken, u, hacc, h⟩
    · rw [onState_apply] at hacc
      obtain ⟨rfl, herror⟩ := Prod.mk.inj (Option.some.inj hacc)
      exact .rejected e hget herror
    · rw [onState_apply] at hacc
      obtain ⟨rfl, hok⟩ := Prod.mk.inj (Option.some.inj hacc)
      rw [self_bind] at h
      rcases mapErr_bind_eq_some h with ⟨e, hsave, rfl⟩ | ⟨saved, u, hsave, h⟩
      · exact .accepted live' (.error e) hget hok hsave
      · cases h
        exact .accepted live' (.ok ()) hget hok hsave

/-- The forward loop of a sync. -/
inductive SyncsBlocks (w : World) :
    List Block → Live → Live → Res SyncError (List Block) → Prop where
  | nil (live : Live) : SyncsBlocks w [] live live (.ok [])
  | stopped (block : Block) (rest : List Block) (live live' : Live) (e : Fault SyncError)
      (h : SyncsBlock w block live live' (.error e)) :
      SyncsBlocks w (block :: rest) live live' (.error e)
  | next (block : Block) (rest : List Block) (live middle live' : Live) (accepted : Option Block)
      (r : Res SyncError (List Block)) (h : SyncsBlock w block live middle (.ok accepted))
      (hrest : SyncsBlocks w rest middle live' r) :
      SyncsBlocks w (block :: rest) live live' (r.map (accepted.toList ++ ·))

theorem acceptFetched_path (blocks : List Block) {r : Res SyncError (List Block)}
    (h : acceptFetched blocks w live = some (live', r)) : SyncsBlocks w blocks live live' r := by
  induction blocks generalizing live r with
  | nil =>
    cases h
    exact .nil _
  | cons block rest ih =>
    rw [acceptFetched, self_bind] at h
    rcases (bind_eq_some _ _ _ _ _ _).mp h with ⟨e, hfirst, rfl⟩ | ⟨middle, accepted, hfirst, h⟩
    · exact .stopped block rest live live' e (acceptSyncedBlock_path hfirst)
    · have hpath := acceptSyncedBlock_path hfirst
      rcases (bind_eq_some _ _ _ _ _ _).mp h with ⟨e, hrest, rfl⟩ | ⟨last, more, hrest, h⟩
      · exact .next block rest live middle live' accepted _ hpath (ih hrest)
      · cases h
        exact .next block rest live middle live' accepted _ hpath (ih hrest)

/-- A sync to a tip that the peer is said to have. -/
inductive SyncsTo (w : World) (peer : PeerEndpoint) (summary : TipSummary) (live : Live) :
    Live → Res SyncError (List Block) → Prop where
  | idle : SyncsTo w peer summary live live (.ok [])
  | unfetched (tip : BlockHash) (live' : Live) (e : Fault SyncError)
      (hf : fetchMissing peer w.rounds tip w live = some (live', .error e)) :
      SyncsTo w peer summary live live' (.error e)
  | fetched (tip : BlockHash) (fetched live' : Live) (missing : List Block)
      (r : Res SyncError (List Block)) (htip : summary.tip = some tip)
      (hf : fetchMissing peer w.rounds tip w live = some (fetched, .ok missing))
      (hb : SyncsBlocks w missing.reverse fetched live' r) : SyncsTo w peer summary live live' r

theorem syncToAdvertisedTip_path {peer : PeerEndpoint} {summary : TipSummary}
    {r : Res SyncError (List Block)} (h : syncToAdvertisedTip peer summary w live = some (live', r)) :
    SyncsTo w peer summary live live' r := by
  unfold syncToAdvertisedTip at h
  cases htip : summary.tip with
  | none =>
    rw [htip] at h
    cases h
    exact .idle
  | some tip =>
    rw [htip] at h
    dsimp only at h
    rw [self_bind] at h
    split at h
    · cases h
      exact .idle
    · rcases (bind_eq_some _ _ _ _ _ _).mp h with ⟨e, hask, -⟩ | ⟨same, rounds, hask, h⟩
      · cases hask
      cases hask
      rcases (bind_eq_some _ _ _ _ _ _).mp h with ⟨e, hf, rfl⟩ | ⟨fetched, missing, hf, h⟩
      · exact .unfetched tip live' e hf
      · exact .fetched tip fetched live' missing r htip hf (acceptFetched_path _ h)

/-- The peer is asked for its tip, and the sync goes there. -/
inductive SyncsInner (w : World) (peer : PeerEndpoint) (live : Live) :
    Live → Res SyncError (List Block) → Prop where
  | unasked (live' : Live) (e : Fault SyncError)
      (ht : requestTipFromPeer peer w live = some (live', .error e)) :
      SyncsInner w peer live live' (.error e)
  | asked (asked live' : Live) (summary : TipSummary) (r : Res SyncError (List Block))
      (ht : requestTipFromPeer peer w live = some (asked, .ok summary))
      (hs : SyncsTo w peer summary asked live' r) : SyncsInner w peer live live' r

/-- A sync from a peer. Only a panic keeps the mark from being taken back. -/
inductive SyncsFrom (w : World) (peer : PeerEndpoint) (live : Live) :
    Live → Res ε (Except SyncError (List Block)) → Prop where
  | panicked (live' : Live) (m : String)
      (h : SyncsInner w peer (live.marked peer.addr .syncing) live' (.error (.panic m))) :
      SyncsFrom w peer live live' (.error (.panic m))
  | ended (synced : Live) (result : Except SyncError (List Block))
      (h : SyncsInner w peer (live.marked peer.addr .syncing) synced
        (Except.mapError Fault.err result)) :
      SyncsFrom w peer live (synced.marked peer.addr .idle) (.ok result)

theorem syncFromPeer_path {peer : PeerEndpoint} {r : Res ε (Except SyncError (List Block))}
    (h : syncFromPeer peer w live = some (live', r)) : SyncsFrom w peer live live' r := by
  have hinner : ∀ {synced : Live} {x : Res SyncError (List Block)},
      syncFromPeerInner peer w (live.marked peer.addr .syncing) = some (synced, x) →
        SyncsInner w peer (live.marked peer.addr .syncing) synced x := by
    intro synced x hx
    rcases (bind_eq_some _ _ _ _ _ _).mp hx with ⟨e, ht, rfl⟩ | ⟨asked, summary, ht, hs⟩
    · exact .unasked synced e ht
    · exact .asked asked synced summary x ht (syncToAdvertisedTip_path hs)
  rw [syncFromPeer, bind_of_ok (setSyncState_apply _ _)] at h
  rcases attempt_bind_cases h with ⟨m, hm, rfl⟩ | ⟨synced, result, hsync, h⟩
  · exact .panicked live' m (hinner hm)
  · cases h
    exact .ended synced result (hinner hsync)

variable [Profile]

omit [Profile] in
theorem observe_infallible {α : Type} (f : World → Nat → α) :
    Infallible (observe f : ServerIo ε α) :=
  infallible_bind (infallible_ask _) fun _ =>
    infallible_bind (infallible_modify _) fun _ => infallible_pure _

omit [Profile] in
theorem announceToPeerBestEffort_infallible (peer : PeerEndpoint) (message : WireMessage)
    (attempts : Nat) :
    Infallible (announceToPeerBestEffort peer message attempts : ServerIo ε Unit) := by
  induction attempts with
  | zero => exact infallible_pure _
  | succ attempts ih =>
    refine infallible_bind (infallible_bind (infallible_attempt _) fun session => ?_) fun result => ?_
    · cases session with
      | error e => exact infallible_pure _
      | ok session =>
        refine infallible_bind (infallible_modify _) fun _ =>
          infallible_bind (observe_infallible _) fun answer => ?_
        cases answer <;> exact infallible_pure _
    · cases result with
      | ok u => exact infallible_pure _
      | error u => exact infallible_bind (infallible_modify _) fun _ => ih

omit [Profile] in
theorem relayBestEffort_infallible (message : WireMessage) (origin : Option PeerAddr) :
    Infallible (relayBestEffort message origin : ServerIo ε Unit) := by
  refine infallible_bind (infallible_modify _) fun _ => infallible_bind (infallible_ask _) fun _ =>
    infallible_forEach (fun peer => ?_) _
  split
  · exact infallible_pure _
  · exact announceToPeerBestEffort_infallible peer message _

omit [Profile] in
theorem relayNewBestTipIfAdvanced_infallible (previousBestTip : Option BlockHash)
    (origin : Option PeerAddr) :
    Infallible (relayNewBestTipIfAdvanced previousBestTip origin : ServerIo ε Unit) := by
  refine infallible_bind (infallible_ask _) fun server => ?_
  split
  · exact infallible_pure _
  · exact relayBestEffort_infallible _ _

/-- What is spread goes to the peers first and to the miner at last. -/
theorem spreadChange_path {relays : List WireMessage} {previousBestTip : Option BlockHash}
    {previousMempoolTxids : Finset Txid} {origin : Option PeerAddr} {r : Res ε Unit}
    (h : spreadChange relays previousBestTip previousMempoolTxids origin w live = some (live', r)) :
    (SameButPeers live live' ∧ ∃ e, r = .error e) ∨
      ∃ told, SameButPeers live told ∧
        maybeRefreshMining previousBestTip previousMempoolTxids w told = some (live', r) := by
  have hrelays := keeps_forEach (R := SameButPeers) relays fun message _ =>
    relayBestEffort_keeps (ε := ε) .sameButPeers message origin fun _ => rfl
  have htip := relayNewBestTipIfAdvanced_keeps (ε := ε) .sameButPeers previousBestTip origin
    fun _ _ => rfl
  rcases (bind_eq_some _ _ _ _ _ _).mp h with ⟨e, hfail, rfl⟩ | ⟨relayed, u, hrelay, h⟩
  · exact .inl ⟨hrelays _ _ _ _ hfail, e, rfl⟩
  have hrelayed := hrelays _ _ _ _ hrelay
  rcases (bind_eq_some _ _ _ _ _ _).mp h with ⟨e, hfail, rfl⟩ | ⟨told, u, htold, h⟩
  · exact .inl ⟨IsTrans.trans _ _ _ hrelayed (htip _ _ _ _ hfail), e, rfl⟩
  · exact .inr ⟨told, IsTrans.trans _ _ _ hrelayed (htip _ _ _ _ htold), h⟩

theorem spreadChange_infallible (relays : List WireMessage) (previousBestTip : Option BlockHash)
    (previousMempoolTxids : Finset Txid) (origin : Option PeerAddr) :
    Infallible (spreadChange relays previousBestTip previousMempoolTxids origin :
      ServerIo ε Unit) := by
  refine infallible_bind (infallible_forEach (fun message => relayBestEffort_infallible message
    origin) _) fun _ => infallible_bind (relayNewBestTipIfAdvanced_infallible _ _) fun _ =>
    infallible_bind (infallible_ask _) fun server => ?_
  split
  · exact infallible_pure _
  · intro w live live' e h
    rw [refreshMiningCandidate_apply] at h
    split at h
    · cases h
    split at h <;> cases h

/-- The end of a handler; `before` is the state it began in. -/
inductive Finishes (w : World) (plan : Option (List Commit)) (relays : List WireMessage)
    (before : NodeState) (origin : Option PeerAddr) (live : Live) :
    Live → Res ServerError Unit → Prop where
  | unsaved (live' : Live) (e : Fault SqliteStoreError)
      (hp : persist plan w live = some (live', .error e)) :
      Finishes w plan relays before origin live live' (Res.mapErr ServerError.sqlitePersist (.error e))
  | saved (saved live' : Live) (r : Res ServerError Unit)
      (hp : persist plan w live = some (saved, .ok ()))
      (hs : spreadChange relays before.chain.bestTip (mempoolTxids before.mempool) origin w saved =
        some (live', r)) : Finishes w plan relays before origin live live' r

theorem finishMutation_path {message : WireMessage} {saveBlockHash : Option BlockHash}
    {before : NodeState} {replies : List WireMessage} {relay : Option WireMessage}
    {origin : Option PeerAddr} {r : Res ServerError Unit}
    (h : finishMutation message saveBlockHash before.chain.bestTip (mempoolTxids before.mempool)
      replies relay origin w live = some (live', r)) :
    Finishes w (saveSqlite live.server.state message saveBlockHash before.chain.bestTip
        (mempoolTxids before.mempool) replies)
      (relay.or (live.server.relayMessageFromReplies replies)).toList before origin live live' r := by
  rw [finishMutation, self_bind] at h
  rcases mapErr_bind_eq_some h with ⟨e, hsave, rfl⟩ | ⟨saved, u, hsave, h⟩
  · exact .unsaved live' e hsave
  · exact .saved saved live' r hsave h

theorem finishMutation_then_path {message : WireMessage} {saveBlockHash : Option BlockHash}
    {before : NodeState} {replies : List WireMessage} {relay : Option WireMessage}
    {origin : Option PeerAddr} {α : Type} {a : α} {r : Res ServerError α}
    (h : (do
      finishMutation message saveBlockHash before.chain.bestTip (mempoolTxids before.mempool)
        replies relay origin
      return a) w live = some (live', r)) :
    ∃ x, Finishes w (saveSqlite live.server.state message saveBlockHash before.chain.bestTip
        (mempoolTxids before.mempool) replies)
      (relay.or (live.server.relayMessageFromReplies replies)).toList before origin live live' x ∧
        r = x.map fun _ => a := by
  rcases (bind_eq_some _ _ _ _ _ _).mp h with ⟨e, hfinish, rfl⟩ | ⟨last, u, hfinish, h⟩
  · exact ⟨.error e, finishMutation_path hfinish, rfl⟩
  · cases h
    exact ⟨.ok u, finishMutation_path hfinish, rfl⟩

/-- A call on the node state, and the end of the handler if it succeeds. -/
inductive Mutates (w : World) (message : WireMessage) (saveBlockHash : Option BlockHash)
    (before : NodeState) (relay : Option WireMessage) (origin : Option PeerAddr)
    (call : NodeState → Option (NodeState × Res PeerError (List WireMessage))) (live : Live) :
    Live → Res ServerError (List WireMessage) → Prop where
  | rejected (state : NodeState) (e : Fault PeerError)
      (hc : call live.server.state = some (state, .error e)) :
      Mutates w message saveBlockHash before relay origin call live (setState live state)
        (Res.mapErr ServerError.peer (.error e))
  | finished (state : NodeState) (replies : List WireMessage) (live' : Live)
      (r : Res ServerError Unit) (hc : call live.server.state = some (state, .ok replies))
      (hf : Finishes w (saveSqlite state message saveBlockHash before.chain.bestTip
          (mempoolTxids before.mempool) replies)
        (relay.or ((setState live state).server.relayMessageFromReplies replies)).toList before
        origin (setState live state) live' r) :
      Mutates w message saveBlockHash before relay origin call live live' (r.map fun _ => replies)

theorem mutation_path {message : WireMessage} {saveBlockHash : Option BlockHash}
    {before : NodeState} {relay : Option WireMessage} {origin : Option PeerAddr}
    {call : NodeState → Option (NodeState × Res PeerError (List WireMessage))}
    {m : ServerIo PeerError (List WireMessage)} {r : Res ServerError (List WireMessage)}
    (hm : ∀ taken x, m w live = some (taken, x) →
      ∃ state, call live.server.state = some (state, x) ∧ taken = setState live state)
    (h : (do
      let replies ← mapErr ServerError.peer m
      finishMutation message saveBlockHash before.chain.bestTip (mempoolTxids before.mempool)
        replies relay origin
      return replies) w live = some (live', r)) :
    Mutates w message saveBlockHash before relay origin call live live' r := by
  rcases mapErr_bind_eq_some h with ⟨e, hcall, rfl⟩ | ⟨taken, replies, hcall, h⟩
  · obtain ⟨state, hstate, rfl⟩ := hm _ _ hcall
    exact .rejected state e hstate
  · obtain ⟨state, hstate, rfl⟩ := hm _ _ hcall
    obtain ⟨x, hfinish, rfl⟩ := finishMutation_then_path h
    exact .finished state replies live' x hstate hfinish

omit [Profile] in
theorem onState_taken {f : NodeState → NodeState × Res ε (List WireMessage)} {taken : Live}
    {x : Res ε (List WireMessage)} (h : onState f w live = some (taken, x)) :
    ∃ state, some (f live.server.state) = some (state, x) ∧ taken = setState live state := by
  rw [onState_apply] at h
  cases h
  exact ⟨_, rfl, rfl⟩

/-- An announced transaction. -/
inductive TakesTx (w : World) (tx : Transaction) (origin : Option PeerAddr) (live : Live) :
    Live → Res ServerError (List WireMessage) → Prop where
  | unnamed (e : Fault ServerError)
      (hrelay : live.server.relayMessageBeforeHandle (.announceTx tx) = .error e) :
      TakesTx w tx origin live live (.error e)
  | named (relay : Option WireMessage) (live' : Live) (r : Res ServerError (List WireMessage))
      (hrelay : (live.server.relayMessageBeforeHandle (.announceTx tx) : Res ServerError _) =
        .ok relay)
      (h : Mutates w (.announceTx tx) none live.server.state relay origin
        (fun state => some (state.announceTx tx)) live live' r) : TakesTx w tx origin live live' r

theorem announceTx_path {tx : Transaction} {origin : Option PeerAddr}
    {r : Res ServerError (List WireMessage)}
    (h : handleStateMutatingPeerMessage (.announceTx tx) origin none w live = some (live', r)) :
    TakesTx w tx origin live live' r := by
  rw [handleStateMutatingPeerMessage, self_bind] at h
  rcases (bind_eq_some _ _ _ _ _ _).mp h with ⟨e, hlift, rfl⟩ | ⟨same, relay, hlift, h⟩
  · obtain ⟨rfl, hrelay⟩ := Prod.mk.inj (Option.some.inj hlift)
    exact .unnamed e hrelay
  · obtain ⟨rfl, hrelay⟩ := (lift_eq_ok _ _ _ _ _).mp hlift
    exact .named relay live' r hrelay (mutation_path (fun _ _ => onState_taken) h)

/-- What is relayed of an announced block. -/
def relayOf (state : NodeState) (block : Block) : Option WireMessage :=
  if (state.getBlock block.header.blockHash).isSome then none else some (.announceBlock block)

/-- The call that an announced block comes to, and the end of its handler. -/
abbrev Announces (w : World) (block : Block) (before : NodeState) (origin : Option PeerAddr)
    (live live' : Live) (r : Res ServerError (List WireMessage)) : Prop :=
  Mutates w (.announceBlock block) (some block.header.blockHash) before (relayOf before block) origin
    (fun state => some (state.announceBlock block)) live live' r

/-- An announced block: it is taken or refused, or it is tried again after a sync for its
ancestors. -/
inductive TakesBlock (w : World) (block : Block) (origin : Option PeerAddr) (live : Live) :
    Live → Res ServerError (List WireMessage) → Prop where
  | direct (live' : Live) (r : Res ServerError (List WireMessage))
      (h : Announces w block live.server.state origin live live' r) :
      TakesBlock w block origin live live' r
  | panicked (peer : PeerEndpoint) (e : NodeStateError) (live' : Live) (m : String)
      (hpeer : origin.bind (syncPeerFromOrigin w live) = some peer)
      (he : (live.server.state.acceptBlock block).2 = .error (.err e))
      (hneeds : announcedBlockNeedsAncestorSync e block.header.prevBlockhash = true)
      (hs : SyncsFrom w peer (setState live (live.server.state.acceptBlock block).1) live'
        (.error (.panic m) : Res ServerError _)) :
      TakesBlock w block origin live live' (.error (.panic m))
  | retried (peer : PeerEndpoint) (e : NodeStateError) (synced live' : Live)
      (result : Except SyncError (List Block)) (r : Res ServerError (List WireMessage))
      (hpeer : origin.bind (syncPeerFromOrigin w live) = some peer)
      (he : (live.server.state.acceptBlock block).2 = .error (.err e))
      (hneeds : announcedBlockNeedsAncestorSync e block.header.prevBlockhash = true)
      (hs : SyncsFrom w peer (setState live (live.server.state.acceptBlock block).1) synced
        (.ok result : Res ServerError _))
      (h : Announces w block live.server.state origin synced live' r) :
      TakesBlock w block origin live live' r

theorem announceBlock_path {block : Block} {origin : Option PeerAddr}
    {r : Res ServerError (List WireMessage)}
    (h : handleStateMutatingPeerMessage (.announceBlock block) origin
      (some block.header.blockHash) w live = some (live', r)) :
    Announces w block live.server.state origin live live' r := by
  rw [handleStateMutatingPeerMessage, self_bind] at h
  exact mutation_path (fun _ _ => onState_taken) h

theorem tryHandleAnnouncedBlockWithSync_path {block : Block} {origin : Option PeerAddr}
    {r : Res ServerError (Option (List WireMessage))}
    (h : tryHandleAnnouncedBlockWithSync block origin w live = some (live', r)) :
    (live' = live ∧ r = .ok none) ∨
      ∃ x, TakesBlock w block origin live live' x ∧ r = x.map some := by
  rw [tryHandleAnnouncedBlockWithSync, self_bind] at h
  rcases hpeer : origin.bind (syncPeerFromOrigin w live) with - | peer
  · rw [bind_apply, ask_apply] at h
    dsimp only at h
    rw [hpeer] at h
    cases h
    exact .inl ⟨rfl, rfl⟩
  rw [bind_apply, ask_apply] at h
  dsimp only at h
  rw [hpeer] at h
  right
  change ((attempt (onState fun state => state.announceBlock block) : ServerIo ServerError _) >>= _)
    w live = _ at h
  rcases attempt_bind_cases h with ⟨m, hm, rfl⟩ | ⟨tried, first, htry, h⟩
  · obtain ⟨state, hstate, rfl⟩ := onState_taken hm
    exact ⟨_, .direct _ _ (.rejected state (.panic m) hstate), rfl⟩
  obtain ⟨state, hstate, rfl⟩ := onState_taken htry
  cases first with
  | ok replies =>
    obtain ⟨x, hfinish, rfl⟩ := finishMutation_then_path h
    refine ⟨_, .direct _ _ (.finished state replies live' x hstate hfinish), ?_⟩
    cases x <;> rfl
  | error e =>
    obtain ⟨fault, rfl, herror, hfault⟩ :=
      NodeState.announceBlock_eq_error (Option.some.inj hstate)
    cases fault with
    | panic m => cases hfault
    | err e' =>
    cases hfault
    dsimp only at h
    cases hneeds : announcedBlockNeedsAncestorSync e' block.header.prevBlockhash with
    | false =>
      rw [hneeds] at h
      cases h
      exact ⟨_, .direct _ _ (.rejected _ (.err (.blockRejected e')) hstate), rfl⟩
    | true =>
      rw [hneeds] at h
      rcases (bind_eq_some _ _ _ _ _ _).mp h with ⟨fault, hsync, rfl⟩ | ⟨synced, result, hsync, h⟩
      · have hpath := syncFromPeer_path hsync
        cases hpath with
        | panicked _ m hinner =>
          exact ⟨_, .panicked peer e' live' m hpeer herror hneeds (.panicked live' m hinner), rfl⟩
      · have hpath := syncFromPeer_path hsync
        rcases mapErr_bind_eq_some h with ⟨fault, hretry, rfl⟩ | ⟨taken, replies, hretry, h⟩
        · obtain ⟨state, hstate, rfl⟩ := onState_taken hretry
          refine ⟨_, .retried peer e' synced _ result _ hpeer herror hneeds hpath
            (.rejected state fault hstate), ?_⟩
          cases fault <;> rfl
        · obtain ⟨state, hstate, rfl⟩ := onState_taken hretry
          obtain ⟨x, hfinish, rfl⟩ := finishMutation_then_path h
          refine ⟨_, .retried peer e' synced live' result _ hpeer herror hneeds hpath
            (.finished state replies live' x hstate hfinish), ?_⟩
          cases x <;> rfl

theorem handlePeerAnnounceBlock_path {block : Block} {origin : Option PeerAddr}
    {r : Res ServerError (List WireMessage)}
    (h : handlePeerAnnounceBlock block origin w live = some (live', r)) :
    TakesBlock w block origin live live' r := by
  rcases (bind_eq_some _ _ _ _ _ _).mp h with ⟨e, htry, rfl⟩ | ⟨middle, recovered, htry, h⟩
  · rcases tryHandleAnnouncedBlockWithSync_path htry with ⟨-, hr⟩ | ⟨x, hpath, hr⟩
    · cases hr
    · cases x with
      | error e' =>
        cases hr
        exact hpath
      | ok replies => cases hr
  · rcases tryHandleAnnouncedBlockWithSync_path htry with ⟨rfl, hr⟩ | ⟨x, hpath, hr⟩
    · cases hr
      exact .direct live' r (announceBlock_path h)
    · cases x with
      | error e => cases hr
      | ok replies =>
        cases hr
        cases h
        exact hpath

/-- A mining request. -/
abbrev MinesPending (w : World) (request : MinePendingRequest) (origin : Option PeerAddr)
    (live live' : Live) (r : Res ServerError (List WireMessage)) : Prop :=
  Mutates w (.minePending request) none live.server.state none origin
    (fun state => state.minePending request) live live' r

theorem handlePeerMinePending_path {request : MinePendingRequest} {origin : Option PeerAddr}
    {r : Res ServerError (List WireMessage)}
    (h : handlePeerMinePending request origin w live = some (live', r)) :
    MinesPending w request origin live live' r := by
  rw [handlePeerMinePending, self_bind] at h
  exact mutation_path (fun _ _ => onStateAwait_eq_some) h

/-- The messages that are answered from the state, or not at all. -/
def asksOnly : WireMessage → Bool
  | .getTip | .getBlock _ | .tip _ | .block _ | .minedBlock _ => true
  | _ => false

/-- A message of a peer. -/
inductive Hears (w : World) (origin : Option PeerAddr) (live : Live) :
    WireMessage → Live → Res ServerError (List WireMessage) → Prop where
  | hello (remoteHello : HelloMessage) (live' : Live) (x : Res SqliteStoreError Unit)
      (r : Res ServerError (List WireMessage))
      (h : recordInboundHello remoteHello w live = some (live', x)) :
      Hears w origin live (.hello remoteHello) live' r
  | announceTip (summary : TipSummary) (live' : Live) (x : Res SqliteStoreError Unit)
      (r : Res ServerError (List WireMessage))
      (h : recordInboundTip origin summary w live = some (live', x)) :
      Hears w origin live (.announceTip summary) live' r
  | asks (message : WireMessage) (r : Res ServerError (List WireMessage))
      (hm : asksOnly message = true) : Hears w origin live message live r
  | announceTx (tx : Transaction) (live' : Live) (r : Res ServerError (List WireMessage))
      (h : TakesTx w tx origin live live' r) : Hears w origin live (.announceTx tx) live' r
  | announceBlock (block : Block) (live' : Live) (r : Res ServerError (List WireMessage))
      (h : TakesBlock w block origin live live' r) : Hears w origin live (.announceBlock block) live' r
  | minePending (request : MinePendingRequest) (live' : Live)
      (r : Res ServerError (List WireMessage)) (h : MinesPending w request origin live live' r) :
      Hears w origin live (.minePending request) live' r

omit [Profile] in
theorem handlePeerHello_path {remoteHello : HelloMessage} {r : Res ServerError (List WireMessage)}
    (h : handlePeerHello remoteHello w live = some (live', r)) :
    ∃ x, recordInboundHello remoteHello w live = some (live', x) := by
  rcases mapErr_bind_eq_some h with ⟨e, hrecord, -⟩ | ⟨recorded, u, hrecord, h⟩
  · exact ⟨_, hrecord⟩
  · rw [self_bind] at h
    split at h
    · cases h
      exact ⟨_, hrecord⟩
    split at h
    · cases h
      exact ⟨_, hrecord⟩
    · cases h
      exact ⟨_, hrecord⟩

omit [Profile] in
theorem handlePeerAnnounceTip_path {summary : TipSummary} {origin : Option PeerAddr}
    {r : Res ServerError (List WireMessage)}
    (h : handlePeerAnnounceTip summary origin w live = some (live', r)) :
    ∃ x, recordInboundTip origin summary w live = some (live', x) := by
  rcases mapErr_bind_eq_some h with ⟨e, hrecord, -⟩ | ⟨recorded, u, hrecord, h⟩
  · exact ⟨_, hrecord⟩
  · cases h
    exact ⟨_, hrecord⟩

theorem handlePeerMessage_path {origin : Option PeerAddr} {message : WireMessage}
    {r : Res ServerError (List WireMessage)}
    (h : handlePeerMessage origin message w live = some (live', r)) :
    Hears w origin live message live' r := by
  cases message with
  | hello remoteHello =>
    obtain ⟨x, hx⟩ := handlePeerHello_path h
    exact .hello remoteHello live' x r hx
  | announceTip summary =>
    obtain ⟨x, hx⟩ := handlePeerAnnounceTip_path h
    exact .announceTip summary live' x r hx
  | announceTx tx => exact .announceTx tx live' r (announceTx_path h)
  | announceBlock block => exact .announceBlock block live' r (handlePeerAnnounceBlock_path h)
  | minePending request => exact .minePending request live' r (handlePeerMinePending_path h)
  | getTip | getBlock _ | tip _ | block _ | minedBlock _ =>
    cases h
    exact .asks _ _ rfl

/-- The mining request the loop of a bootstrap request makes. -/
def bootstrapRequest (publicKey : Bytes) (start offset : UInt32) : MinePendingRequest :=
  ⟨blockSubsidy, publicKey, saturatingAdd32 start offset, 0x207fffff, 0⟩

/-- The loop of a bootstrap request. -/
inductive Bootstraps (w : World) (publicKey : Bytes) (start : UInt32) :
    List UInt32 → Live → Live → Res ServerError (Option BlockHash) → Prop where
  | nil (live : Live) (last : Option BlockHash) : Bootstraps w publicKey start [] live live (.ok last)
  | stopped (offset : UInt32) (rest : List UInt32) (live live' : Live) (e : Fault ServerError)
      (h : MinesPending w (bootstrapRequest publicKey start offset) none live live' (.error e)) :
      Bootstraps w publicKey start (offset :: rest) live live' (.error e)
  | next (offset : UInt32) (rest : List UInt32) (live middle live' : Live)
      (replies : List WireMessage) (r : Res ServerError (Option BlockHash))
      (hm : handlePeerMessage none (.minePending (bootstrapRequest publicKey start offset)) w live =
        some (middle, .ok replies))
      (hrest : Bootstraps w publicKey start rest middle live' r) :
      Bootstraps w publicKey start (offset :: rest) live live' r

theorem bootstrapFrom_path {publicKey : Bytes} {start : UInt32} (offsets : List UInt32)
    {last : Option BlockHash} {r : Res ServerError (Option BlockHash)}
    (h : bootstrapFrom publicKey start offsets last w live = some (live', r)) :
    Bootstraps w publicKey start offsets live live' r := by
  induction offsets generalizing live last with
  | nil =>
    cases h
    exact .nil _ _
  | cons offset rest ih =>
    rcases (bind_eq_some _ _ _ _ _ _).mp h with ⟨e, hmine, rfl⟩ | ⟨middle, replies, hmine, h⟩
    · exact .stopped offset rest live live' e (handlePeerMinePending_path hmine)
    · exact .next offset rest live middle live' replies r hmine (ih h)

/-- A request of the operator. -/
inductive Administers (w : World) (live : Live) :
    AdminRequest → Live → Res ε AdminResponse → Prop where
  | answered (request : AdminRequest) (r : Res ε AdminResponse) : Administers w live request live r
  | bootstrap (publicKey : Bytes) (blocks : UInt32) (live' : Live)
      (x : Res ServerError (Option BlockHash)) (r : Res ε AdminResponse)
      (h : Bootstraps w publicKey (startUniqueness live.server.state)
        ((List.range blocks.toNat).map UInt32.ofNat) live live' x) (hx : Unwinds x r) :
      Administers w live (.bootstrap publicKey blocks) live' r
  | submitTransaction (tx : Transaction) (live' : Live) (x : Res ServerError (List WireMessage))
      (r : Res ε AdminResponse) (h : TakesTx w tx none live live' x) (hx : Unwinds x r) :
      Administers w live (.submitTransaction tx) live' r

theorem handleAdminRequest_path {request : AdminRequest} {r : Res ε AdminResponse}
    (h : handleAdminRequest request w live = some (live', r)) :
    Administers w live request live' r := by
  cases request with
  | getStatus =>
    cases h
    exact .answered _ _
  | getBalance publicKey =>
    rw [handleAdminRequest] at h
    cases hkey : parseVerifyingKey publicKey with
    | none =>
      rw [hkey] at h
      cases h
      exact .answered _ _
    | some owner =>
      rw [hkey] at h
      dsimp only at h
      rw [self_bind] at h
      rcases (bind_eq_some _ _ _ _ _ _).mp h with ⟨e, hlift, rfl⟩ | ⟨same, amount, hlift, hrest⟩
      · obtain ⟨rfl, -⟩ := Prod.mk.inj (Option.some.inj hlift)
        exact .answered _ _
      · obtain ⟨rfl, -⟩ := (lift_eq_ok _ _ _ _ _).mp hlift
        cases hrest
        exact .answered _ _
  | bootstrap publicKey blocks =>
    rw [handleAdminRequest] at h
    split at h
    · cases h
      exact .answered _ _
    · rw [self_bind] at h
      rcases attempt_bind_cases h with ⟨m, hm, rfl⟩ | ⟨looped, result, hloop, h⟩
      · refine .bootstrap publicKey blocks live' _ _ (bootstrapFrom_path _ hm) fun p hp => ?_
        cases hp
        rfl
      · have hlooped : looped = live' := by cases result <;> cases h <;> rfl
        rw [hlooped] at hloop
        exact .bootstrap publicKey blocks live' _ r (bootstrapFrom_path _ hloop)
          (unwinds_mapError result r)
  | submitTransaction tx =>
    rcases (bind_eq_some _ _ _ _ _ _).mp h with ⟨e, hlift, rfl⟩ | ⟨same, txid, hlift, hrest⟩
    · obtain ⟨rfl, -⟩ := Prod.mk.inj (Option.some.inj hlift)
      exact .answered _ _
    · obtain ⟨rfl, -⟩ := (lift_eq_ok _ _ _ _ _).mp hlift
      rcases attempt_bind_cases hrest with ⟨m, hm, rfl⟩ | ⟨taken, result, htaken, h⟩
      · refine .submitTransaction tx live' _ _ (announceTx_path hm) fun p hp => ?_
        cases hp
        rfl
      · have htook : taken = live' := by cases result <;> cases h <;> rfl
        rw [htook] at htaken
        exact .submitTransaction tx live' _ r (announceTx_path htaken) (unwinds_mapError result r)

/-- A tip that a peer has announced. -/
inductive SyncsTip (w : World) (origin : PeerAddr) (summary : TipSummary) (live : Live) :
    Live → Res ε Unit → Prop where
  | idle : SyncsTip w origin summary live live (.ok ())
  | panicked (peer : PeerEndpoint) (live' : Live) (m : String)
      (hs : SyncsTo w peer summary (live.hinted peer.addr summary) live' (.error (.panic m))) :
      SyncsTip w origin summary live live' (.error (.panic m))
  | spread (peer : PeerEndpoint) (synced live' : Live) (result : Except SyncError (List Block))
      (r : Res ε Unit)
      (hs : SyncsTo w peer summary (live.hinted peer.addr summary) synced
        (Except.mapError Fault.err result))
      (h : spreadChange ((result.toOption.getD []).map .announceBlock)
        live.server.state.chain.bestTip (mempoolTxids live.server.state.mempool) (some origin) w
        (synced.marked peer.addr .idle) = some (live', r)) :
      SyncsTip w origin summary live live' r

theorem handleTipSync_path {origin : PeerAddr} {summary : TipSummary} {r : Res ε Unit}
    (h : handleTipSync origin summary w live = some (live', r)) :
    SyncsTip w origin summary live live' r := by
  rw [handleTipSync, self_bind] at h
  split at h
  · cases h
    exact .idle
  rcases hpeer : syncPeerFromOrigin w live origin with - | peer
  · rw [bind_apply, ask_apply] at h
    dsimp only at h
    rw [hpeer] at h
    cases h
    exact .idle
  rw [bind_apply, ask_apply] at h
  dsimp only at h
  rw [hpeer] at h
  dsimp only at h
  split at h
  · cases h
    exact .idle
  split at h
  · cases h
    exact .idle
  change ((attempt (syncToAdvertisedTip peer summary) : ServerIo ε _) >>= _) w
    (live.hinted peer.addr summary) = _ at h
  rcases attempt_bind_cases h with ⟨m, hm, rfl⟩ | ⟨synced, result, hsync, h⟩
  · exact .panicked peer live' m (syncToAdvertisedTip_path hm)
  · refine .spread peer synced live' result r (syncToAdvertisedTip_path hsync) ?_
    cases result with
    | ok blocks => exact h
    | error e => exact h

omit [Profile] in
/-- The peers a periodic sync turns to, one after the other. -/
inductive SyncsPeers (w : World) : List PeerEndpoint → Live → Live → Res ε Unit → Prop where
  | nil (live : Live) : SyncsPeers w [] live live (.ok ())
  | panicked (peer : PeerEndpoint) (rest : List PeerEndpoint) (live live' : Live) (m : String)
      (h : SyncsFrom w peer live live' (.error (.panic m) : Res ε _)) :
      SyncsPeers w (peer :: rest) live live' (.error (.panic m))
  | unnoted (peer : PeerEndpoint) (rest : List PeerEndpoint) (live synced live' : Live)
      (e : SyncError) (m : String) (h : SyncsFrom w peer live synced (.ok (.error e) : Res ε _))
      (hf : recordPeerConnectFailure peer e w synced = some (live', .error (.panic m))) :
      SyncsPeers w (peer :: rest) live live' (.error (.panic m))
  | failed (peer : PeerEndpoint) (rest : List PeerEndpoint) (live synced noted live' : Live)
      (e : SyncError) (x : Res SqliteStoreError Unit) (r : Res ε Unit)
      (h : SyncsFrom w peer live synced (.ok (.error e) : Res ε _))
      (hf : recordPeerConnectFailure peer e w synced = some (noted, x))
      (hrest : SyncsPeers w rest noted live' r) : SyncsPeers w (peer :: rest) live live' r
  | next (peer : PeerEndpoint) (rest : List PeerEndpoint) (live synced live' : Live)
      (blocks : List Block) (r : Res ε Unit)
      (h : SyncsFrom w peer live synced (.ok (.ok blocks) : Res ε _))
      (hrest : SyncsPeers w rest synced live' r) : SyncsPeers w (peer :: rest) live live' r

omit [Profile] in
/-- A periodic sync. -/
inductive SyncsKnown (w : World) (live : Live) : Live → Res ε Unit → Prop where
  | unselected (live' : Live) (e : Fault ε)
      (h : (selectSyncPeers : ServerIo ε _) w live = some (live', .error e)) :
      SyncsKnown w live live' (.error e)
  | selected (selected live' : Live) (peers : List PeerEndpoint) (r : Res ε Unit)
      (h : (selectSyncPeers : ServerIo ε _) w live = some (selected, .ok peers))
      (hs : SyncsPeers w peers selected live' r) : SyncsKnown w live live' r

omit [Profile] in
theorem syncKnownPeersBestEffort_path {r : Res ε Unit}
    (h : syncKnownPeersBestEffort w live = some (live', r)) : SyncsKnown w live live' r := by
  rcases (bind_eq_some _ _ _ _ _ _).mp h with ⟨e, hselect, rfl⟩ | ⟨selected, peers, hselect, h⟩
  · exact .unselected live' e hselect
  refine .selected selected live' peers r hselect ?_
  clear hselect
  induction peers generalizing selected with
  | nil =>
    cases h
    exact .nil _
  | cons peer rest ih =>
    -- the body of the loop, and the rest of the loop after it
    rcases (bind_eq_some _ _ _ _ _ _).mp h with ⟨e, hbody, rfl⟩ | ⟨noted, u, hbody, h⟩
    · rcases (bind_eq_some _ _ _ _ _ _).mp hbody with ⟨e', hsync, he⟩ | ⟨synced, result, hsync, hbody⟩
      · have hpath := syncFromPeer_path hsync
        cases he
        cases hpath with
        | panicked _ m hinner => exact .panicked peer rest selected live' m (.panicked live' m hinner)
      · have hpath := syncFromPeer_path hsync
        cases result with
        | ok blocks => cases hbody
        | error e' =>
          rcases attempt_bind_cases hbody with ⟨m, hm, he⟩ | ⟨t, x, hx, hbody⟩
          · cases he
            exact .unnoted peer rest selected synced live' e' m hpath hm
          · cases hbody
    · rcases (bind_eq_some _ _ _ _ _ _).mp hbody with ⟨e', hsync, he⟩ | ⟨synced, result, hsync, hbody⟩
      · cases he
      · have hpath := syncFromPeer_path hsync
        cases result with
        | ok blocks =>
          cases hbody
          exact .next peer rest selected noted live' blocks r hpath (ih noted h)
        | error e' =>
          rcases attempt_bind_cases hbody with ⟨m, hm, he⟩ | ⟨t, x, hx, hbody⟩
          · cases he
          · cases hbody
            exact .failed peer rest selected synced noted live' e' _ r hpath hx (ih noted h)

/-- The flag of a sync at the start is taken back. -/
def started (live : Live) : Live :=
  { live with server := { live.server with bootstrapSync := false } }

/-- The first event. -/
inductive Starts (w : World) (live : Live) : Live → Res ε Unit → Prop where
  | mines (live' : Live) (r : Res ε Unit)
      (h : (refreshMiningCandidate : ServerIo ε Unit) w live = some (live', r)) :
      Starts w live live' r
  | unsynced (live' : Live) (e : Fault ε) (h : SyncsKnown w live live' (.error e)) :
      Starts w live live' (.error e)
  | synced (synced live' : Live) (r : Res ε Unit) (hs : SyncsKnown w live synced (.ok () : Res ε _))
      (h : (refreshMiningCandidate : ServerIo ε Unit) w (started synced) = some (live', r)) :
      Starts w live live' r

theorem handleBootstrap_path {r : Res ε Unit} (h : handleBootstrap w live = some (live', r)) :
    Starts w live live' r := by
  rw [handleBootstrap, self_bind] at h
  dsimp only at h
  split at h
  · rcases (bind_eq_some _ _ _ _ _ _).mp h with ⟨e, hsync, rfl⟩ | ⟨synced, u, hsync, h⟩
    · exact .unsynced live' e (syncKnownPeersBestEffort_path hsync)
    · exact .synced synced live' r (syncKnownPeersBestEffort_path hsync) h
  · exact .mines live' r h

/-- What the handling of an event comes to. -/
inductive Handling (w : World) (live : Live) : ServerEvent → Live → Res ε Outcome → Prop where
  | bootstrap (live' : Live) (x : Res ε Unit) (r : Res ε Outcome) (h : Starts w live live' x)
      (hx : Passes x r) : Handling w live .bootstrap live' r
  | peerConnected (peerId : Text) :
      Handling w live (.peerConnected peerId) (live.onServer fun server => { server with
        connectedPeers := server.connectedPeers.insert peerId () }) (.ok .done)
  | peerDisconnected (peerId : Text) :
      Handling w live (.peerDisconnected peerId) (live.onServer fun server => { server with
        connectedPeers := server.connectedPeers.remove peerId }) (.ok .done)
  | peerMessage (origin : Option PeerAddr) (message : WireMessage) (live' : Live)
      (x : Res ServerError (List WireMessage)) (r : Res ε Outcome)
      (h : Hears w origin live message live' x) (hx : Unwinds x r) :
      Handling w live (.peerMessage origin message) live' r
  | adminRequest (request : AdminRequest) (live' : Live) (x : Res ε AdminResponse)
      (r : Res ε Outcome) (h : Administers w live request live' x) (hx : Passes x r) :
      Handling w live (.adminRequest request) live' r
  | tipSync (origin : PeerAddr) (summary : TipSummary) (live' : Live) (x : Res ε Unit)
      (r : Res ε Outcome) (h : SyncsTip w origin summary live live' x) (hx : Passes x r) :
      Handling w live (.tipSync origin summary) live' r
  | syncTick (live' : Live) (x : Res ε Unit) (r : Res ε Outcome)
      (h : SyncsKnown w live live' x) : Handling w live .syncTick live' r
  | unticked (r : Res ε Outcome) : Handling w live .syncTick live r
  | minedCandidate (block : Block) (live' : Live) (x : Res ServerError (List WireMessage))
      (r : Res ε Outcome)
      (hprev : block.header.prevBlockhash = live.server.state.chain.bestTip.getD BlockHash.default)
      (h : TakesBlock w block none live live' x) (hx : Unwinds x r) :
      Handling w live (.minedCandidate block) live' r
  | stale (block : Block) (r : Res ε Outcome) : Handling w live (.minedCandidate block) live r
  | stop : Handling w live .stop live (.ok .stopped)

theorem handleEvent_path {event : ServerEvent} {r : Res ε Outcome}
    (h : handleEvent event w live = some (live', r)) : Handling w live event live' r := by
  cases event with
  | bootstrap =>
    obtain ⟨x, hx, hpasses⟩ := bind_pure_cases h
    exact .bootstrap live' x r (handleBootstrap_path hx) hpasses
  | peerConnected peerId =>
    cases h
    exact .peerConnected peerId
  | peerMessage origin message =>
    obtain ⟨x, hx, hunwinds⟩ := attempt_return_cases h
    exact .peerMessage origin message live' x r (handlePeerMessage_path hx) hunwinds
  | peerDisconnected peerId =>
    cases h
    exact .peerDisconnected peerId
  | adminRequest request =>
    obtain ⟨x, hx, hpasses⟩ := bind_pure_cases h
    exact .adminRequest request live' x r (handleAdminRequest_path hx) hpasses
  | tipSync origin summary =>
    obtain ⟨x, hx, hpasses⟩ := bind_pure_cases h
    exact .tipSync origin summary live' x r (handleTipSync_path hx) hpasses
  | syncTick =>
    obtain ⟨x, hx, -⟩ := bind_pure_cases h
    rw [handleSyncTick, self_bind] at hx
    split at hx
    · cases hx
      exact .unticked r
    · exact .syncTick live' x r (syncKnownPeersBestEffort_path hx)
  | minedCandidate block =>
    obtain ⟨x, hx, hpasses⟩ := bind_pure_cases h
    rw [handleMinedCandidate, self_bind] at hx
    split at hx
    next =>
      cases hx
      exact .stale block r
    next hprev =>
      obtain ⟨y, hy, hunwound⟩ := attempt_return_cases hx
      exact .minedCandidate block live' y r (not_not.mp hprev) (handlePeerAnnounceBlock_path hy)
        fun p hp => hpasses.unwinds p (hunwound p hp)
  | stop =>
    cases h
    exact .stop

end Server

end Wobble
