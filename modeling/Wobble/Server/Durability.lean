import Wobble.Node.Rejected
import Wobble.Server.Gossip
import Wobble.Server.SaveSuccess

namespace Wobble

open Rust Io

section Restart

variable [Crypto]

/-- What every call keeps of the node state. `T` has the transactions that are pending. -/
structure NodeState.Healthy (T : Set Transaction) (s : NodeState) : Prop where
  sound : s.Sound
  stuck : s.Stuck
  tipViewed : s.TipViewed
  pending : ∀ txid tx, s.mempool.get txid = some tx → tx ∈ T

namespace NodeState.Healthy

variable {T : Set Transaction} {s : NodeState}

theorem withPool (h : s.Healthy T) (pool : Mempool) (hc : pool.Consistent s.activeUtxos)
    (hpool : ∀ txid tx, pool.get txid = some tx → tx ∈ T) :
    Healthy T { s with mempool := pool } where
  sound := h.sound.withPool pool hc
  stuck := h.stuck.withCoins s.activeUtxos pool
  tipViewed := h.tipViewed.withPool pool
  pending := hpool

theorem acceptBlock (h : s.Healthy T) (block : Block) : (s.acceptBlock block).1.Healthy T where
  sound := h.sound.acceptBlock block
  stuck := (h.stuck.acceptBlock h.sound block).1
  tipViewed := h.tipViewed.acceptBlock h.sound block
  pending txid tx hget := h.pending txid tx (h.sound.pending_of_acceptBlock block txid tx hget)

/-- If every block is applied now, every block was. -/
theorem applied_of_acceptBlock (h : s.Healthy T) (block : Block)
    (happlied : (s.acceptBlock block).1.AllApplied) : s.AllApplied :=
  fun hash hu => happlied hash ((h.stuck.acceptBlock h.sound block).2 hash hu)

theorem taken (h : s.Healthy T) {tx : Transaction} {s' : NodeState} (hs' : s'.Sound)
    (ht : SqliteStore.Taken s tx s') (htx : tx ∈ T) : s'.Healthy T := by
  have hpool : s'.mempool.Consistent s.activeUtxos := by
    have hc := hs'.pool
    rw [ht.state] at hc
    exact hc
  rw [ht.state]
  refine h.withPool s'.mempool hpool fun txid tx' hget => ?_
  by_cases hid : txid = tx.id
  · rw [hid, ht.pending] at hget
    cases hget
    exact htx
  · exact h.pending txid tx' (ht.others txid tx' hid hget)

end NodeState.Healthy

/-- The database can be restarted from, unless a block could not be applied. -/
structure Restartable (T : Set Transaction) (live : Live) : Prop where
  healthy : live.server.state.Healthy T
  durable : live.server.state.AllApplied → ∀ store, live.server.sqliteStore = some store →
    store.Durable live.server.state

/-- The state has changed; the planned commits are what the database is behind. -/
structure Unsaved (T : Set Transaction) (plan : Option (List Commit)) (live : Live) : Prop where
  healthy : live.server.state.Healthy T
  saves : live.server.state.AllApplied → ∀ store, live.server.sqliteStore = some store →
    ∃ commits store', plan = some commits ∧
      SqliteStore.commitAll commits store = (store', .ok ()) ∧ store'.Durable live.server.state

theorem SqliteStore.Durable.withPeers {store : SqliteStore} {s : NodeState} (h : store.Durable s)
    (peers : HashMap Text StoredPeer) : SqliteStore.Durable { store with peers := peers } s := by
  obtain ⟨rows, ht, hk⟩ := h
  exact ⟨rows, ⟨⟨ht.saved.blocks, ht.saved.chainEntries, ht.saved.activeUtxos, ht.saved.mempool,
    ht.saved.bestTip⟩, ⟨ht.readable.mempool, ht.readable.transactions⟩⟩, hk⟩

theorem SameButPeers.restartable {T : Set Transaction} {live live' : Live}
    (h : SameButPeers live live') (hr : Restartable T live) : Restartable T live' := by
  refine ⟨h.state ▸ hr.healthy, fun happlied store' hstore' => ?_⟩
  rw [h.state] at happlied ⊢
  cases hs : live.server.sqliteStore with
  | none =>
    rw [h.store_none hs] at hstore'
    cases hstore'
  | some store =>
    obtain ⟨peers, hpeers⟩ := h.store store hs
    obtain rfl := Option.some.inj (hpeers.symm.trans hstore')
    exact (hr.durable happlied store hs).withPeers peers

theorem Restartable.of_same {T : Set Transaction} {live live' : Live} (hr : Restartable T live)
    (hstate : live'.server.state = live.server.state)
    (hstore : live'.server.sqliteStore = live.server.sqliteStore) : Restartable T live' := by
  refine ⟨hstate ▸ hr.healthy, fun happlied store hs => ?_⟩
  rw [hstate] at happlied ⊢
  exact hr.durable happlied store (hstore ▸ hs)

namespace Server

variable {ε α : Type} {T : Set Transaction} {w : World}

theorem maintains_network {m : ServerIo ε α} (h : Keeps SameButPeers m) :
    Maintains w (Restartable T) m :=
  maintains_of_keeps h fun _ _ hsame hr => hsame.restartable hr

theorem maintains_mining {m : ServerIo ε α} (h : Keeps Remines m) :
    Maintains w (Restartable T) m :=
  maintains_of_keeps h fun _ _ hmines hr =>
    hr.of_same hmines.same.server.1 hmines.same.server.2

/-- The node state is as it was. -/
def SameState (live live' : Live) : Prop := live'.server.state = live.server.state

instance : IsPreorder Live SameState where
  refl _ := rfl
  trans _ _ _ h h' := h'.trans h

theorem SameState.eventFrame : EventFrame SameState where
  quiet _ _ h := h.1.state
  requests _ _ _ := rfl
  announces _ _ _ := rfl
  stores _ _ := rfl
  mines _ _ h := h.same.server.1
  bootstraps _ := rfl

/-- A save closes the gap between the state and the tables. -/
theorem persist_restores (hw : w.Writes) (plan : Option (List Commit)) :
    Triple w (Unsaved T plan) (persist plan) (fun _ => Restartable T) (Restartable T) := by
  refine (triple_iff _).mpr ?_
  intro live live' r hun heq
  have hstate : live'.server.state = live.server.state :=
    persist_keeps SameState.eventFrame plan w live live' r heq
  refine ⟨hstate ▸ hun.healthy, fun happlied store' hstore' => ?_⟩
  rw [hstate] at happlied ⊢
  cases hs : live.server.sqliteStore with
  | none =>
    obtain ⟨rfl, -⟩ := Prod.mk.inj (Option.some.inj ((persist_without plan live hs).symm.trans heq))
    rw [hs] at hstore'
    cases hstore'
  | some store =>
    obtain ⟨commits, saved, rfl, hcommits, hdurable⟩ := hun.saves happlied store hs
    obtain ⟨live'', hrun, hserver⟩ := persist_writes hw commits live store saved hs hcommits
    obtain ⟨rfl, -⟩ := Prod.mk.inj (Option.some.inj (hrun.symm.trans heq))
    rw [hserver] at hstore'
    obtain rfl := Option.some.inj hstore'
    exact hdurable

/-- A block has been taken and not saved: each of the two ways to save it closes the gap. -/
theorem blockUnsaved (live : Live) (hr : Restartable T live) (block : Block) (pool : Mempool)
    (hok : (live.server.state.acceptBlock block).2 = .ok ())
    (hpool : pool.Consistent (live.server.state.acceptBlock block).1.activeUtxos)
    (hsub : ∀ txid tx, pool.get txid = some tx →
      (live.server.state.acceptBlock block).1.mempool.get txid = some tx)
    (plan : Option (List Commit))
    (hplan : SavesBlock { (live.server.state.acceptBlock block).1 with mempool := pool }
      block.header.blockHash plan) :
    Unsaved T plan
      (setState live { (live.server.state.acceptBlock block).1 with mempool := pool }) := by
  have hhealthy := hr.healthy.acceptBlock block
  have hafter := hhealthy.withPool pool hpool fun txid tx hget =>
    hhealthy.pending txid tx (hsub txid tx hget)
  obtain ⟨entry, b, u, acc, hhash⟩ := hr.healthy.sound.accepted block hok
  have hstate : ∀ tip txids, Unsaved T (saveAcceptedBlockState
      { (live.server.state.acceptBlock block).1 with mempool := pool } block.header.blockHash tip
      txids) (setState live { (live.server.state.acceptBlock block).1 with mempool := pool }) := by
    intro tip txids
    refine ⟨hafter, fun happlied store hs => ?_⟩
    have hdurable := hr.durable (hr.healthy.applied_of_acceptBlock block happlied) store hs
    rw [← hhash]
    exact hdurable.block hr.healthy.sound hhealthy.sound acc pool hafter.sound hsub tip txids
  cases hplan with
  | synced tip txids => exact hstate tip txids
  | handled message request tip txids replies hmessage hrequest =>
    have hsame := SqliteStore.saveSqlite_plan hafter.sound
      (SqliteStore.Accepted.again acc pool hpool) tip txids message request replies hmessage
      (hhash ▸ hrequest)
    rw [hhash] at hsame
    rw [hsame]
    exact hstate tip txids

/-- A block that is refused leaves no gap. -/
theorem restartable_of_refused {live : Live} (hr : Restartable T live) (block : Block)
    (fault : Fault NodeStateError)
    (herror : (live.server.state.acceptBlock block).2 = .error fault) :
    Restartable T (setState live (live.server.state.acceptBlock block).1) := by
  rcases hr.healthy.sound.acceptBlock_error block fault herror with hsame | ⟨hash, hu⟩
  · rw [hsame]
    exact hr
  · exact ⟨hr.healthy.acceptBlock block, fun happlied => absurd hu (happlied hash)⟩

theorem acceptBlock_unsaved {live : Live} (hr : Restartable T live) (block : Block)
    (hok : (live.server.state.acceptBlock block).2 = .ok ()) (plan : Option (List Commit))
    (hplan : SavesBlock (live.server.state.acceptBlock block).1 block.header.blockHash plan) :
    Unsaved T plan (setState live (live.server.state.acceptBlock block).1) :=
  blockUnsaved live hr block _ hok (hr.healthy.acceptBlock block).sound.pool (fun _ _ h => h) plan
    hplan

theorem minePending_unsaved [Profile] {live : Live} (hr : Restartable T live)
    {request : MinePendingRequest} {state : NodeState} {replies : List WireMessage}
    (h : live.server.state.minePending request = some (state, .ok replies)) :
    ∃ hash, minedBlockHash replies = some hash ∧
      ∀ plan, SavesBlock state hash plan → Unsaved T plan (setState live state) := by
  obtain ⟨block, ids, hok, rfl, rfl⟩ := NodeState.minePending_ok h
  have hpool := (hr.healthy.acceptBlock block).sound.pool
  refine ⟨block.header.blockHash, rfl, fun plan hplan => blockUnsaved live hr block _ hok
    (hpool.removeMany ids) (fun txid tx hget => ?_) plan hplan⟩
  rw [Mempool.removeMany, HashMap.get_removeAll] at hget
  split_ifs at hget
  exact hget

theorem minePending_refused [Profile] {live : Live} (hr : Restartable T live)
    {request : MinePendingRequest} {state : NodeState} {fault : Fault PeerError}
    (h : live.server.state.minePending request = some (state, .error fault)) :
    Restartable T (setState live state) := by
  rcases NodeState.minePending_error h with rfl | ⟨block, fault', rfl, hfault⟩
  · exact hr
  · exact restartable_of_refused hr block fault' hfault

theorem announceTx_unsaved (hT : Set.InjOn Transaction.id T) {live : Live}
    (hr : Restartable T live) {tx : Transaction} (htx : tx ∈ T) {state : NodeState}
    {replies : List WireMessage} (h : live.server.state.announceTx tx = (state, .ok replies)) :
    Unsaved T (some [SqliteStore.saveMempoolTransaction tx]) (setState live state) := by
  have hs := hr.healthy.sound
  have htaken : SqliteStore.Taken live.server.state tx state :=
    SqliteStore.announceTx_taken hs h fun pending hpending =>
      hT (hr.healthy.pending _ _ hpending) htx (hs.pool.fits _ _ hpending).2
  have hsound : state.Sound := by
    have hsound := hs.announceTx tx
    rw [h] at hsound
    exact hsound
  refine ⟨hr.healthy.taken hsound htaken htx, fun happlied store hstore => ?_⟩
  have hpre : live.server.state.AllApplied := by
    have hafter : state.AllApplied := happlied
    rw [htaken.state] at hafter
    exact hafter
  obtain ⟨store', hsave, hdurable⟩ := (hr.durable hpre store hstore).announceTx htaken
  exact ⟨_, store', rfl, SqliteStore.commitAll_cons hsave [], hdurable⟩

variable [Profile]

theorem restartable_handlerFrame (hw : w.Writes) (hT : Set.InjOn Transaction.id T) :
    HandlerFrame w T (Restartable T) (Unsaved T) where
  asks peer := maintains_network (requestTipFromPeer_keeps .sameButPeers peer)
  fetches peer rounds hash := maintains_network (fetchMissing_keeps .sameButPeers peer rounds hash)
  fails peer e := maintains_network (recordPeerConnectFailure_keeps .sameButPeers peer e)
  selects := maintains_network (selectSyncPeers_keeps .sameButPeers)
  touches live addr f _ hr :=
    SameButPeers.restartable (live.server.modifyPeer_withoutPeers addr f) hr
  accepts live block plan hr hok hplan := acceptBlock_unsaved hr block hok plan hplan
  refuses live block e hr herror := restartable_of_refused hr block e herror
  saves := persist_restores hw
  hello remoteHello := maintains_network (recordInboundHello_keeps .sameButPeers remoteHello)
  tip origin summary := maintains_network (recordInboundTip_keeps .sameButPeers origin summary)
  spreads relays tip txids origin :=
    triple_bind (maintains_network (keeps_forEach _ fun message _ =>
        relayBestEffort_keeps .sameButPeers message origin fun _ => rfl)) fun _ =>
      triple_bind (maintains_network (relayNewBestTipIfAdvanced_keeps .sameButPeers _ _
        fun _ _ => rfl)) fun _ => maintains_mining (maybeRefreshMining_keeps tip txids)
  refreshes := maintains_mining refreshMiningCandidate_keeps
  starts live hr := hr.of_same rfl rfl
  submits live tx state replies htx hr h := announceTx_unsaved hT hr htx h
  declines live tx state e hr h := by
    have hsame := NodeState.announceTx_error (congrArg Prod.snd h)
    rw [h] at hsame
    exact hr.of_same hsame rfl
  mines live request state replies hr h := minePending_unsaved hr h
  unmined live request state e hr h := minePending_refused hr h

/-- The handling of an event leaves a database that can be restarted from, however it ends. -/
theorem handleEvent_maintains (hw : w.Writes) (hT : Set.InjOn Transaction.id T)
    (event : ServerEvent) (hknown : ∀ tx, event.Announces tx → tx ∈ T) :
    Maintains w (Restartable T) (handleEvent event : ServerIo ε Outcome) :=
  handleEvent_frame (restartable_handlerFrame hw hT) event hknown
    (fun _ _ _ hr => hr.of_same rfl rfl) (fun _ _ _ hr => hr.of_same rfl rfl)

/-- One event is handled while the disk takes what is written; what it announces is in `T`. -/
def Writes (T : Set Transaction) (live live' : Live) : Prop :=
  ∃ (w : World) (event : ServerEvent) (r : Res ServerError Outcome), w.Writes ∧
    (∀ tx, event.Announces tx → tx ∈ T) ∧ handleEvent event w live = some (live', r)

theorem Writes.restartable (hT : Set.InjOn Transaction.id T) {live live' : Live}
    (h : Relation.ReflTransGen (Writes T) live live') (hr : Restartable T live) :
    Restartable T live' := by
  induction h with
  | refl => exact hr
  | tail _ hstep ih =>
    obtain ⟨w, event, r, hw, hknown, heq⟩ := hstep
    exact (triple_iff _).mp (handleEvent_maintains hw hT event hknown) _ _ r ih heq

/-- After any events, if the disk took what was written and every block that was indexed has been
applied, a restart finds the blocks, the tip and the coins of the server, and every pending
transaction that no stored block has; all that it finds pending is valid. -/
theorem restart_after_events (T : Set Transaction) (hT : Set.InjOn Transaction.id T)
    (live live' : Live) (store store' : SqliteStore) (hr : live.server.state.OkReachable)
    (hpending : ∀ txid tx, live.server.state.mempool.get txid = some tx → tx ∈ T)
    (hstore : live.server.sqliteStore = some store) (hholds : store.Holds live.server.state)
    (hrun : Relation.ReflTransGen (Writes T) live live')
    (hstore' : live'.server.sqliteStore = some store')
    (happlied : live'.server.state.AllApplied)
    (hfirst : SqliteStore.TipFirst live'.server.state) :
    ∃ rows, store'.loadNodeState = .ok { live'.server.state with mempool := rows } ∧
      (∀ txid tx, rows.get txid = some tx →
        live'.server.state.activeUtxos.validateTransaction tx = .ok ()) ∧
      ∀ txid tx, live'.server.state.mempool.get txid = some tx →
        SqliteStore.Unconfirmed live'.server.state txid → rows.get txid = some tx := by
  have hreach := hr.reachable
  have hstart : Restartable T live := by
    refine ⟨⟨hreach.sound, hreach.stuck, hreach.tipViewed, hpending⟩, fun _ found hfound => ?_⟩
    obtain rfl := Option.some.inj (hstore.symm.trans hfound)
    exact hholds.durable hreach.sound
  have hend := Writes.restartable hT hrun hstart
  obtain ⟨rows, ht, hk⟩ := hend.durable happlied store' hstore'
  have hcomplete := happlied.complete hend.healthy.sound hend.healthy.tipViewed
  exact ⟨rows, ht.loadNodeState_eq hcomplete hfirst hk, hk.valid, hk.pending⟩

end Server

omit [Crypto] in
theorem allApplied_of_iter (s : NodeState)
    (h : ∀ entry ∈ s.chain.entries.iter, (s.utxoSnapshots.get entry.1).isSome = true) :
    s.AllApplied := by
  intro hash hu
  obtain ⟨⟨e, he⟩, hn⟩ := hu
  have hsome := h (hash, e) ((HashMap.mem_iter _ _ _).mpr he)
  rw [hn] at hsome
  cases hsome

end Restart

section SampleRestart

open NodeState (sampleBlock samplePayment)

attribute [local instance] NodeState.sampleCrypto NodeState.sampleProfile

/-- A server on a database, with a payment pending. -/
def pendingServer : Live :=
  .start (.new { plainOptions NodeState.paymentPending with
    sqliteStore := some (savedStore NodeState.paymentPending) })

theorem pendingServer_state : pendingServer.server.state = NodeState.paymentPending := by
  rw [pendingServer, Live.start, Server.new, plainOptions, ServerOptions.new]

theorem pendingServer_store :
    pendingServer.server.sqliteStore = some (savedStore pendingServer.server.state) := by
  rw [pendingServer, Live.start, Server.new, plainOptions, ServerOptions.new]

def confirmPayment : Option (Live × Res ServerError Outcome) :=
  Server.handleEvent (.peerMessage none (.announceBlock sampleBlock)) Server.offlineWorld pendingServer

/-- The server after the block with the payment. -/
def confirmedServer : Live := (confirmPayment.map Prod.fst).getD pendingServer

theorem confirmedServer_writes :
    Server.Writes {samplePayment} pendingServer confirmedServer := by
  obtain ⟨result, hresult⟩ := Option.isSome_iff_exists.mp
    (by decide +kernel : confirmPayment.isSome = true)
  refine ⟨Server.offlineWorld, .peerMessage none (.announceBlock sampleBlock), result.2, fun _ => rfl,
    ?_, ?_⟩
  · intro tx htx
    cases htx
  · rw [confirmedServer, hresult]
    exact hresult

/-- The server is restarted after the block. -/
theorem confirmedServer_restart :
    ∃ store' rows, confirmedServer.server.sqliteStore = some store' ∧
      store'.loadNodeState = .ok { confirmedServer.server.state with mempool := rows } ∧
      confirmedServer.server.state.chain.bestTip = some sampleBlock.header.blockHash := by
  have hr : pendingServer.server.state.OkReachable := by
    rw [pendingServer_state]
    exact NodeState.paymentPending_okReachable
  obtain ⟨store', hstore'⟩ := Option.isSome_iff_exists.mp
    (by decide +kernel : confirmedServer.server.sqliteStore.isSome = true)
  have hpending : ∀ txid tx, pendingServer.server.state.mempool.get txid = some tx →
      tx = samplePayment :=
    (HashMap.forall_get_iff _).mpr (by decide +kernel)
  obtain ⟨rows, hload, -⟩ := Server.restart_after_events {samplePayment} (Set.injOn_singleton _ _)
    pendingServer confirmedServer _ store' hr hpending pendingServer_store
    (savedStore_holds hr.complete.sound) (.single confirmedServer_writes) hstore'
    (allApplied_of_iter _ (by decide +kernel))
    (SqliteStore.soleMax_of_iter _ (by decide +kernel)).tipFirst
  exact ⟨store', rows, hstore', hload, by decide +kernel⟩

end SampleRestart

end Wobble
