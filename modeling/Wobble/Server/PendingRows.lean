import Wobble.Node.PoolSafety
import Wobble.Server.Network
import Wobble.Server.Paths
import Wobble.Store.Reload

namespace Wobble

open Rust Io

namespace Mempool

/-- The transaction is already pending, or nothing pending spends what it spends and there is
room for one more. -/
def Undisplacing [Crypto] (pool : Mempool) (tx : Transaction) : Prop :=
  pool.get tx.id = some tx ∨ pool.get tx.id = none ∧
    (∀ txid pending, pool.get txid = some pending → transactionsConflict tx pending = false) ∧
    pool.len < maxMempoolTransactions

/-- Removing entries that are there shows, whatever else comes in. -/
theorem removeAll_insert_eq_iff (pool : Mempool) (gone : List Txid) (txid : Txid)
    (tx : Transaction) (hfresh : pool.get txid = none)
    (hgone : ∀ t ∈ gone, ∃ pending, pool.get t = some pending) :
    (pool.removeAll gone).insert txid tx = pool.insert txid tx ↔ gone = [] := by
  constructor
  · intro heq
    rw [List.eq_nil_iff_forall_not_mem]
    intro t ht
    obtain ⟨pending, hp⟩ := hgone t ht
    have hne : t ≠ txid := by
      rintro rfl
      rw [hfresh] at hp
      cases hp
    have hget := congrArg (HashMap.get · t) heq
    simp only [HashMap.get_insert, if_neg hne, HashMap.get_removeAll, if_pos ht, hp] at hget
    cases hget
  · rintro rfl
    rfl

section Submit

variable [Crypto] {pool pool' : Mempool} {utxos : UtxoSet} {tx : Transaction} {txid : Txid}

theorem displacedBy_eq_nil_iff (displaced : Option (Txid × UInt64))
    (hd : pool.capacityEvictionCandidate utxos (pool.conflictingTransactions tx) =
      .ok displaced) :
    pool.displacedBy tx displaced = [] ↔ pool.conflictingTransactions tx = [] ∧
      pool.len < maxMempoolTransactions := by
  rw [displacedBy, List.append_eq_nil_iff, and_comm]
  refine and_congr_right fun hids => ?_
  rw [hids] at hd
  constructor
  · intro hnone
    have hroom := (capacityEvictionCandidate_cases hd).1 (by simpa using hnone)
    rwa [List.length_nil, Nat.sub_zero] at hroom
  · intro hroom
    rw [capacityEvictionCandidate, List.length_nil, Nat.sub_zero, if_pos hroom] at hd
    cases hd
    rfl

/-- An admission is a plain insertion exactly when it takes nothing out. -/
theorem submit_eq_insert_iff (h : pool.submit utxos tx = .ok (pool', txid)) :
    pool' = pool.insert tx.id tx ↔ pool.Undisplacing tx := by
  obtain ⟨-, -, hfresh, -, displaced, hd, rfl⟩ := submit_cases h
  have hgone : ∀ t ∈ pool.displacedBy tx displaced, ∃ pending, pool.get t = some pending := by
    intro t ht
    rcases List.mem_append.mp ht with ht | ht
    · rw [Option.mem_toList, Option.map_eq_some_iff] at ht
      obtain ⟨evicted, he, rfl⟩ := ht
      exact (capacityEvictionCandidate_cases hd).2 evicted he
    · obtain ⟨pending, hp, -⟩ := (mem_conflictingTransactions pool tx t).mp ht
      exact ⟨pending, hp⟩
  rw [removeAll_insert_eq_iff pool _ tx.id tx hfresh hgone, displacedBy_eq_nil_iff displaced hd,
    conflictingTransactions_eq_nil, Undisplacing, hfresh]
  simp

end Submit

end Mempool

namespace SqliteStore

/-- The table of pending transactions holds the pool, and loads. -/
structure HoldsMempool [Crypto] (store : SqliteStore) (pool : Mempool) : Prop where
  rows : store.mempoolTransactions = HashMap.new.insertAll (pool.iter.map mempoolRow)
  loads : store.loadMempool = .ok pool

theorem foldl_insertTransactionKeyRow_mempool (edges : List TransactionKeyEdge)
    (store : SqliteStore) :
    (edges.foldl insertTransactionKeyRow store).mempoolTransactions =
      store.mempoolTransactions := by
  induction edges generalizing store with
  | nil => rfl
  | cons edge rest ih => exact ih _

theorem mempoolRow_key (a b : Txid × Transaction) :
    (mempoolRow a).1 = (mempoolRow b).1 ↔ a.1 = b.1 :=
  ⟨fun h => Txid.text_injective h, fun h => congrArg Txid.text h⟩

variable [Crypto] {pool : Mempool} {store : SqliteStore}

theorem loadMempool_of_rows (hrows : store.mempoolTransactions =
      HashMap.new.insertAll (pool.iter.map mempoolRow))
    (hk : ∀ txid tx, pool.get txid = some tx → tx.Fits true ∧ tx.id = txid) :
    store.loadMempool = .ok pool := by
  obtain ⟨entries, hread, heq⟩ := (mempool_roundTrip pool hk).2
  rw [SqliteStore.loadMempool, hrows, hread, Res.ok_bind, Mempool.fromPersisted, heq]
  rfl

theorem keyed_of_loadMempool (h : store.loadMempool = .ok pool) (txid : Txid) (tx : Transaction)
    (hp : pool.get txid = some tx) : tx.Fits true ∧ tx.id = txid := by
  obtain ⟨entries, hread, hpool⟩ := (Res.bind_eq_ok _ _ _).mp h
  obtain rfl := Except.ok.inj hpool
  have hmem : (txid, tx) ∈ entries := by
    rcases HashMap.get_insertAll_cases HashMap.new entries txid with hnew | ⟨v, hv, hget⟩
    · rw [HashMap.get_new] at hnew
      cases hp.symm.trans hnew
    · cases hp.symm.trans hget
      exact hv
  obtain ⟨row, -, hrow⟩ := Res.mem_of_mapAll hread _ hmem
  obtain ⟨parsed, -, hrow⟩ := (Res.bind_eq_ok _ _ _).mp hrow
  obtain ⟨id, hid, hrow⟩ := (Res.bind_eq_ok _ _ _).mp hrow
  split_ifs at hrow with hne
  cases hrow
  obtain rfl := not_not.mp hne
  exact (Transaction.txid_eq_ok _ _).mp hid

theorem saveMempoolTransaction_ok (tx : Transaction) (store' : SqliteStore)
    (h : saveMempoolTransaction tx store = .ok store') :
    tx.Fits true ∧
      store'.mempoolTransactions = store.mempoolTransactions.insert tx.id.text tx := by
  obtain ⟨id, hid, h⟩ := (Res.bind_eq_ok _ _ _).mp h
  obtain ⟨hf, rfl⟩ := (Transaction.txid_eq_ok tx id).mp hid
  obtain ⟨edges, -, h⟩ := (Res.bind_eq_ok _ _ _).mp h
  obtain rfl := Except.ok.inj h
  exact ⟨hf, foldl_insertTransactionKeyRow_mempool edges _⟩

/-- The save of an announced transaction puts it into the table, and takes nothing out. -/
theorem HoldsMempool.saveMempoolTransaction (hm : store.HoldsMempool pool) (tx : Transaction)
    (store' : SqliteStore) (h : SqliteStore.saveMempoolTransaction tx store = .ok store') :
    store'.loadMempool = .ok (pool.insert tx.id tx) := by
  obtain ⟨hf, hrow⟩ := saveMempoolTransaction_ok tx store' h
  rw [hm.rows] at hrow
  refine loadMempool_of_rows
    (hrow.trans (Sql.rows_insert pool mempoolRow mempoolRow_key tx.id tx)) ?_
  intro txid tx' hp
  rw [HashMap.get_insert] at hp
  split_ifs at hp with he
  · cases hp
    exact ⟨hf, he.symm⟩
  · exact keyed_of_loadMempool hm.loads txid tx' hp

end SqliteStore

section AnnounceTx

variable [Crypto]

/-- What displaces nothing is refused as a duplicate only if it is pending. -/
theorem Mempool.Undisplacing.pending_of_duplicate {pool : Mempool} {tx : Transaction}
    (hu : pool.Undisplacing tx) {utxos : UtxoSet} {txid : Txid}
    (h : pool.submit utxos tx = .error (.err (.duplicateTransaction txid))) :
    pool.get tx.id = some tx := by
  rcases hu with hpending | ⟨hfresh, hfree, hroom⟩
  · exact hpending
  exfalso
  rw [submit, Transaction.txid_eq] at h
  split_ifs at h with hf
  · rw [Res.ok_bind, if_neg (by simp [hfresh]),
      (conflictingTransactions_eq_nil pool tx).mpr hfree] at h
    rcases (Res.bind_eq_error _ _ _).mp h with hfee | ⟨fee, -, hrest⟩
    · obtain ⟨e, -, he⟩ := (Res.mapErr_eq_err _ _ _).mp hfee
      cases he
    · change (pool.capacityEvictionCandidate utxos [] >>= _) = _ at hrest
      rw [capacityEvictionCandidate, List.length_nil, Nat.sub_zero, if_pos hroom] at hrest
      cases hrest
  · cases h

theorem NodeState.Sound.announceTx {state : NodeState} (hs : state.Sound) (tx : Transaction) :
    (state.announceTx tx).1.Sound := by
  rw [announceTx_state]
  exact hs.submitTransaction tx

/-- The pool after an announced transaction was taken. -/
theorem NodeState.announceTx_ok (state state' : NodeState) (tx : Transaction)
    (replies : List WireMessage) (h : state.announceTx tx = (state', .ok replies)) :
    state'.mempool = state.mempool.insert tx.id tx ↔ state.mempool.Undisplacing tx := by
  rw [announceTx, submitTransaction] at h
  rcases hsub : state.mempool.submit state.activeUtxos tx with (e | m) | ⟨pool, txid⟩
  · rw [hsub] at h
    cases e with
    | duplicateTransaction txid =>
      cases h
      constructor
      · intro heq
        left
        rw [heq, HashMap.get_insert, if_pos rfl]
      · intro hu
        have hpending := hu.pending_of_duplicate hsub
        refine HashMap.ext _ _ fun t => ?_
        rw [HashMap.get_insert]
        split_ifs with ht
        · rw [ht, hpending]
        · rfl
    | _ => cases h
  · rw [hsub] at h
    cases h
  · rw [hsub] at h
    cases h
    exact Mempool.submit_eq_insert_iff hsub

end AnnounceTx

namespace Server

variable [Crypto] [Profile] {live live' : Live} {w : World} {store : SqliteStore}

/-- Taking an announced transaction, as far as the state and the database go. -/
theorem handleStateMutating_announceTx_ok (tx : Transaction) (origin : Option PeerAddr)
    (replies : List WireMessage) (hs : live.server.sqliteStore = some store)
    (h : handleStateMutatingPeerMessage (.announceTx tx) origin none w live =
      some (live', .ok replies)) :
    ∃ store' peers, live.server.state.announceTx tx = (live'.server.state, .ok replies) ∧
      SqliteStore.saveMempoolTransaction tx store = .ok store' ∧
      live'.server.sqliteStore = some { store' with peers := peers } := by
  generalize hr : (.ok replies : Res ServerError _) = r at h
  have hpath := announceTx_path h
  cases hpath with
  | unnamed e _ => cases hr
  | named relay _ r _ hm =>
  cases hm with
  | rejected state e _ => cases e <;> cases hr
  | finished state replies' _ x hc hf =>
  cases hf with
  | unsaved _ e hp => cases e <;> cases hr
  | saved saved _ x hp hspread =>
  rcases x with e | u
  · cases hr
  cases hr
  obtain ⟨commits, saved', hplan, hall, hserver⟩ :=
    persist_ok _ _ _ _ store (show (setState live state).server.sqliteStore = some store from hs) hp
  obtain rfl := Option.some.inj hplan
  have hcommit : SqliteStore.saveMempoolTransaction tx store = .ok saved' := by
    rw [SqliteStore.commitAll] at hall
    cases hc : SqliteStore.saveMempoolTransaction tx store with
    | error e =>
      rw [hc] at hall
      cases hall
    | ok next =>
      rw [hc] at hall
      cases hall
      rfl
  rcases spreadChange_path hspread with ⟨-, e, he⟩ | ⟨told, htold, hmine⟩
  · cases he
  obtain ⟨hsame, hstore⟩ := (maybeRefreshMining_keeps _ _ _ _ _ _ hmine).same.server
  obtain ⟨peers, hpeers⟩ := htold.store saved' (by rw [hserver])
  refine ⟨saved', peers, ?_, hcommit, hstore.trans hpeers⟩
  rw [hsame, htold.state, hserver]
  exact Option.some.inj hc

end Server

/-- The answer of a handler is not an error. -/
inductive Outcome.Succeeded : Outcome → Prop where
  | replied (replies : List WireMessage) : Succeeded (.replied (.ok replies))
  | submitted (txid : Txid) : Succeeded (.responded (.submitted txid))

namespace Server

variable [Crypto] [Profile] {ε : Type} {live live' : Live} {w : World} {store : SqliteStore}

theorem handleEvent_announces (tx : Transaction) (event : ServerEvent) (outcome : Outcome)
    (he : event.Announces tx) (ho : outcome.Succeeded)
    (h : (handleEvent event : ServerIo ε Outcome) w live = some (live', .ok outcome)) :
    ∃ origin replies, handleStateMutatingPeerMessage (.announceTx tx) origin none w live =
      some (live', .ok replies) := by
  cases he with
  | peer origin =>
    obtain ⟨live₁, result, hhandle, h⟩ := (bind_eq_ok _ _ _ _ _ _).mp h
    cases h
    cases ho with
    | replied replies => exact ⟨origin, replies, (attempt_eq_ok _ _ _ _ _).mp hhandle⟩
  | admin =>
    obtain ⟨live₁, response, hadmin, h⟩ := (bind_eq_ok _ _ _ _ _ _).mp h
    cases h
    obtain ⟨live₂, txid, hid, hrest⟩ := (bind_eq_ok _ _ _ _ _ _).mp hadmin
    obtain ⟨rfl, -⟩ := (lift_eq_ok _ _ _ _ _).mp hid
    obtain ⟨live₃, result, hhandle, hanswer⟩ := (bind_eq_ok _ _ _ _ _ _).mp hrest
    cases result with
    | error e =>
      cases hanswer
      cases ho
    | ok replies =>
      cases hanswer
      exact ⟨none, replies, (attempt_eq_ok _ _ _ _ _).mp hhandle⟩

/-- After an announced transaction the table loads as the pool exactly when nothing had to
leave the pool. -/
theorem announced_rows (tx : Transaction) (event : ServerEvent) (outcome : Outcome)
    (he : event.Announces tx) (ho : outcome.Succeeded)
    (hs : live.server.sqliteStore = some store)
    (hm : store.HoldsMempool live.server.state.mempool)
    (h : (handleEvent event : ServerIo ε Outcome) w live = some (live', .ok outcome)) :
    ∃ store', live'.server.sqliteStore = some store' ∧
      (store'.loadMempool = .ok live'.server.state.mempool ↔
        live.server.state.mempool.Undisplacing tx) ∧
      (live.server.state.Reachable → live.server.state.mempool.Undisplacing tx →
        ∃ restored, store'.loadMempool = .ok restored ∧
          (∀ txid tx txid' tx', restored.get txid = some tx → restored.get txid' = some tx' →
            txid ≠ txid' → transactionsConflict tx tx' = false) ∧
          restored.len ≤ maxMempoolTransactions) := by
  obtain ⟨origin, replies, hhandle⟩ := handleEvent_announces tx event outcome he ho h
  obtain ⟨store', peers, hstate, hsave, hstore⟩ :=
    handleStateMutating_announceTx_ok tx origin replies hs hhandle
  have hload := hm.saveMempoolTransaction tx store' hsave
  have hiff := NodeState.announceTx_ok _ _ tx replies hstate
  refine ⟨_, hstore, ?_, ?_⟩
  · change store'.loadMempool = _ ↔ _
    rw [hload, Except.ok.injEq, eq_comm]
    exact hiff
  · intro hr hu
    refine ⟨_, hload, ?_⟩
    have hsound := hr.sound.announceTx tx
    rw [hstate] at hsound
    have hpool := hsound.pool
    rw [hiff.mpr hu] at hpool
    exact ⟨hpool.disjoint, hpool.bounded⟩

end Server

section Replacement

open NodeState (firstTake secondTake changeTake takeChain takeChain_okReachable)

attribute [local instance] NodeState.takeCrypto NodeState.sampleProfile

/-- A server with no peers and no miner, on a database of its pending transactions. -/
def quietServer (state : NodeState) : Live :=
  let rows := HashMap.new.insertAll (state.mempool.iter.map SqliteStore.mempoolRow)
  .start (.new { plainOptions state with
    sqliteStore := some { SqliteStore.new with mempoolTransactions := rows } })

theorem quietServer_holds {state : NodeState} (hr : state.Reachable) :
    ∃ store, (quietServer state).server.sqliteStore = some store ∧
      store.HoldsMempool state.mempool :=
  ⟨_, rfl, rfl, SqliteStore.loadMempool_of_rows rfl hr.sound.pool.fits⟩

def announce (live : Live) (tx : Transaction) : Option (Live × Res Unit Outcome) :=
  Server.handleEvent (.peerMessage none (.announceTx tx)) Server.offlineWorld live

/-- What the server holds and what its database loads after an announcement that is answered. -/
def afterAnnouncement (live : Live) (tx : Transaction) :
    Option (List (Txid × Transaction) × List (Txid × Transaction)) :=
  (announce live tx).bind fun result => match result with
    | (live', .ok (.replied (.ok []))) => live'.server.sqliteStore.bind fun store =>
      match store.loadMempool with
      | .ok pool => some (live'.server.state.mempool.iter, pool.iter)
      | .error _ => none
    | _ => none

theorem afterAnnouncement_eq {live : Live} {tx : Transaction}
    {held loaded : List (Txid × Transaction)}
    (h : afterAnnouncement live tx = some (held, loaded)) :
    ∃ live' store' pool, announce live tx = some (live', .ok (.replied (.ok []))) ∧
      live'.server.sqliteStore = some store' ∧ store'.loadMempool = .ok pool ∧
      live'.server.state.mempool.iter = held ∧ pool.iter = loaded := by
  obtain ⟨result, hresult, h⟩ := Option.bind_eq_some_iff.mp h
  split at h
  · obtain ⟨store', hstore, h⟩ := Option.bind_eq_some_iff.mp h
    split at h
    · cases h
      exact ⟨_, store', _, hresult, hstore, ‹_›, rfl, rfl⟩
    · cases h
  · cases h

/-- One output of the payment is about to be spent. -/
def changePending : NodeState := (takeChain.submitTransaction changeTake).1

theorem changePending_reachable : changePending.Reachable :=
  takeChain_okReachable.reachable.tail (.submitTransaction changeTake
    (Res.returned_of_ok changeTake.id (by decide +kernel)))

theorem changePending_undisplacing : changePending.mempool.Undisplacing firstTake := by
  have hiter : changePending.mempool.iter = [(changeTake.id, changeTake)] := by decide +kernel
  have hapart : transactionsConflict firstTake changeTake = false := by decide
  refine .inr ⟨by decide +kernel, fun txid pending hp => ?_, by decide +kernel⟩
  have hmem := (HashMap.mem_iter _ _ _).mpr hp
  rw [hiter, List.mem_singleton] at hmem
  cases hmem
  exact hapart

/-- An admission beside a transaction that spends another output is saved as it is held. -/
theorem firstTake_rows :
    ∃ live' store', announce (quietServer changePending) firstTake =
        some (live', .ok (.replied (.ok []))) ∧
      live'.server.sqliteStore = some store' ∧ live'.server.state.mempool.len = 2 ∧
      store'.loadMempool = .ok live'.server.state.mempool := by
  have hrun : afterAnnouncement (quietServer changePending) firstTake =
      some ([(firstTake.id, firstTake), (changeTake.id, changeTake)],
        [(firstTake.id, firstTake), (changeTake.id, changeTake)]) := by
    decide +kernel
  obtain ⟨live', -, -, hannounce, -, -, hheld, -⟩ := afterAnnouncement_eq hrun
  obtain ⟨store, hstore, hholds⟩ := quietServer_holds changePending_reachable
  obtain ⟨store', hstore', hiff, -⟩ := Server.announced_rows firstTake _ _ (.peer none)
    (.replied []) hstore hholds hannounce
  have hlen : live'.server.state.mempool.len = 2 := by
    rw [← HashMap.iter_length, hheld]
    rfl
  exact ⟨live', store', hannounce, hstore', hlen, hiff.mpr changePending_undisplacing⟩

/-- A replacement leaves both transactions in the database, though they spend one output. -/
theorem secondTake_rows :
    ∃ live' store', ((takeChain.submitTransaction firstTake).1.Reachable ∧
        ∃ store, (quietServer (takeChain.submitTransaction firstTake).1).server.sqliteStore =
          some store ∧ store.HoldsMempool (takeChain.submitTransaction firstTake).1.mempool) ∧
      announce (quietServer (takeChain.submitTransaction firstTake).1) secondTake =
        some (live', .ok (.replied (.ok []))) ∧
      live'.server.sqliteStore = some store' ∧
      live'.server.state.mempool.get firstTake.id = none ∧
      transactionsConflict firstTake secondTake = true ∧
      ∃ restored, store'.loadMempool = .ok restored ∧
        restored.get firstTake.id = some firstTake ∧
        restored.get secondTake.id = some secondTake := by
  have hrun : afterAnnouncement (quietServer (takeChain.submitTransaction firstTake).1)
      secondTake = some ([(secondTake.id, secondTake)],
        [(secondTake.id, secondTake), (firstTake.id, firstTake)]) := by decide +kernel
  obtain ⟨live', store', restored, hannounce, hstore', hload, hheld, hloaded⟩ :=
    afterAnnouncement_eq hrun
  have hr : (takeChain.submitTransaction firstTake).1.Reachable :=
    takeChain_okReachable.reachable.tail (.submitTransaction firstTake
      (Res.returned_of_ok firstTake.id (by decide +kernel)))
  have hne : firstTake.id ≠ secondTake.id := by decide +kernel
  refine ⟨live', store', ⟨hr, quietServer_holds hr⟩, hannounce, hstore', ?_, by decide, restored,
    hload, ?_, ?_⟩
  · rw [Option.eq_none_iff_forall_ne_some]
    intro tx hget
    have hmem := (HashMap.mem_iter _ _ _).mpr hget
    rw [hheld, List.mem_singleton] at hmem
    exact hne (congrArg Prod.fst hmem)
  · apply (HashMap.mem_iter _ _ _).mp
    rw [hloaded]
    simp
  · apply (HashMap.mem_iter _ _ _).mp
    rw [hloaded]
    simp

end Replacement

end Wobble
