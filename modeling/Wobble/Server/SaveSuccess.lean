import Wobble.Server.EventFrame
import Wobble.Server.SavedTables

namespace Wobble

open Rust Io

variable [Crypto]

/-- If there is a database, what it holds can be read. -/
def Live.StoreReadable (live : Live) : Prop :=
  ∀ store, live.server.sqliteStore = some store → store.Readable

theorem SameButPeers.storeReadable {live live' : Live} (h : SameButPeers live live')
    (hr : live.StoreReadable) : live'.StoreReadable := by
  intro store' hs'
  cases hs : live.server.sqliteStore with
  | none => cases (h.store_none hs).symm.trans hs'
  | some store =>
    obtain ⟨peers, hpeers⟩ := h.store store hs
    obtain rfl := Option.some.inj (hpeers.symm.trans hs')
    exact ⟨(hr store hs).mempool, (hr store hs).transactions⟩

namespace NodeState

end NodeState

namespace SqliteStore

variable {pre post : NodeState} {entry : ChainIndexEntry} {b : Block} {u : UtxoSet}

theorem saveAcceptedBlock_succeeds (hpost : post.Sound)
    (acc : NodeState.Accepted pre post entry b u) :
    ∃ commits, saveAcceptedBlock post entry.blockHash = some commits ∧
      ∀ commit ∈ commits, Succeeds commit := by
  obtain ⟨es, -, hplan, -⟩ := saveAcceptedBlock_eq hpost acc
  refine ⟨_, hplan, List.forall_mem_cons.mpr ⟨saveBlockRecord_succeeds b entry _, ?_⟩⟩
  split_ifs
  · simp only [List.forall_mem_cons, List.not_mem_nil, false_implies, implies_true, and_true]
    exact ⟨saveActiveUtxos_succeeds _ (active_keyed hpost),
      deleteStaleMempoolTransactions_succeeds _,
      saveConfirmedBlockTransactions_succeeds b entry (hpost.fits_of_block _ b acc.block_get)⟩
  · simp

theorem saveMempoolState_succeeds (hpost : post.Sound) :
    ∃ commits, saveMempoolState post = some commits ∧ ∀ commit ∈ commits, Succeeds commit := by
  obtain ⟨items, edges, hbuilt, hnodup⟩ := hpost.buildTransactionIndex_ok (ε := SqliteStoreError)
  have hrows := (mempool_roundTrip post.mempool hpost.pool.fits).1
  refine ⟨_, by rw [saveMempoolState, hbuilt, Option.map_some], ?_⟩
  simp only [List.forall_mem_cons, List.not_mem_nil, false_implies, implies_true, and_true]
  exact ⟨saveMempool_succeeds post.mempool hrows, saveTransactionIndex_succeeds items edges hnodup⟩

/-- No commit of a block save fails on a database that can be read. -/
theorem saveAcceptedBlockState_succeeds (hpost : post.Sound)
    (acc : NodeState.Accepted pre post entry b u) (tip : Option BlockHash) (txids : Finset Txid) :
    ∃ commits, saveAcceptedBlockState post entry.blockHash tip txids = some commits ∧
      ∀ commit ∈ commits, Succeeds commit := by
  obtain ⟨commits, hplan, hcommits⟩ := saveAcceptedBlock_succeeds hpost acc
  obtain ⟨refresh, hrefresh⟩ := refresh_ok hpost entry.blockHash tip txids
  rw [saveAcceptedBlockState, hplan, hrefresh, Option.bind_some]
  cases refresh with
  | false => exact ⟨commits, rfl, hcommits⟩
  | true =>
    obtain ⟨more, hmore, hall⟩ := saveMempoolState_succeeds hpost
    dsimp only
    rw [hmore]
    exact ⟨commits ++ more, rfl, List.forall_mem_append.mpr ⟨hcommits, hall⟩⟩

/-- No commit fails that saves a block which has been accepted, by a sync or by a handler. -/
theorem savesBlock_succeeds (hs : pre.Sound) (block : Block) (pool : Mempool)
    (hok : (pre.acceptBlock block).2 = .ok ())
    (hpool : pool.Consistent (pre.acceptBlock block).1.activeUtxos) (plan : Option (List Commit))
    (hplan : SavesBlock { (pre.acceptBlock block).1 with mempool := pool } block.header.blockHash
      plan) :
    ∃ commits, plan = some commits ∧ ∀ commit ∈ commits, Succeeds commit := by
  obtain ⟨entry, b, u, acc, hhash⟩ := hs.accepted block hok
  have hsound := (hs.acceptBlock block).withPool pool hpool
  have hagain := Accepted.again acc pool hpool
  rw [← hhash] at hplan
  cases hplan with
  | synced tip txids => exact saveAcceptedBlockState_succeeds hsound hagain tip txids
  | handled message request tip txids replies hmessage hrequest =>
    rw [saveSqlite_plan hsound hagain tip txids message request replies hmessage hrequest]
    exact saveAcceptedBlockState_succeeds hsound hagain tip txids

end SqliteStore

namespace Server

variable {w : World}

theorem commit_writes (hw : w.Writes) (transaction : Commit) (live : Live)
    (store store' : SqliteStore) (hs : live.server.sqliteStore = some store)
    (hc : transaction store = .ok store') :
    commit transaction w live = some (live.tick.withStore store', .ok ()) := by
  rw [commit_apply, hs]
  dsimp only
  rw [hw live.clock, hc]
  rfl

theorem forEach_commit_writes (hw : w.Writes) (commits : List Commit) (live : Live)
    (store store' : SqliteStore) (hs : live.server.sqliteStore = some store)
    (hc : SqliteStore.commitAll commits store = (store', .ok ())) :
    ∃ live', forEach commit commits w live = some (live', .ok ()) ∧
      live'.server = { live.server with sqliteStore := some store' } := by
  induction commits generalizing live store with
  | nil =>
    cases hc
    exact ⟨live, rfl, by rw [← hs]⟩
  | cons transaction rest ih =>
    cases hfirst : transaction store with
    | error e =>
      rw [SqliteStore.commitAll, hfirst] at hc
      cases hc
    | ok next =>
      rw [SqliteStore.commitAll_cons hfirst] at hc
      obtain ⟨live', heq, hserver⟩ := ih (live.tick.withStore next) next rfl hc
      refine ⟨live', ?_, hserver⟩
      rw [forEach, bind_of_ok (commit_writes hw transaction live store next hs hfirst), heq]

/-- A save whose commits succeed leaves what they leave. -/
theorem persist_writes (hw : w.Writes) (commits : List Commit) (live : Live)
    (store store' : SqliteStore) (hs : live.server.sqliteStore = some store)
    (hc : SqliteStore.commitAll commits store = (store', .ok ())) :
    ∃ live', persist (some commits) w live = some (live', .ok ()) ∧
      live'.server = { live.server with sqliteStore := some store' } := by
  obtain ⟨live', hrun, hserver⟩ := forEach_commit_writes hw commits live store store' hs hc
  exact ⟨live', by simp [persist, self, bind_apply, hs, hrun], hserver⟩

theorem persist_without (plan : Option (List Commit)) (live : Live)
    (hs : live.server.sqliteStore = none) : persist plan w live = some (live, .ok ()) := by
  simp [persist, self, bind_apply, hs]

theorem persist_succeeds (hw : w.Writes) (commits : List Commit)
    (hc : ∀ commit ∈ commits, SqliteStore.Succeeds commit) (live : Live)
    (hr : live.StoreReadable) :
    ∃ live', persist (some commits) w live = some (live', .ok ()) ∧
      live'.server.state = live.server.state ∧ live'.StoreReadable := by
  cases hs : live.server.sqliteStore with
  | none => exact ⟨live, persist_without _ live hs, rfl, hr⟩
  | some store =>
    obtain ⟨store', hstore', hr'⟩ := SqliteStore.commitAll_succeeds commits hc store (hr store hs)
    obtain ⟨live', hsaved, hserver⟩ := persist_writes hw commits live store store' hs hstore'
    refine ⟨live', hsaved, by rw [hserver], fun found hfound => ?_⟩
    rw [hserver] at hfound
    obtain rfl := Option.some.inj hfound
    exact hr'

/-- The save of a block that has just been accepted. -/
theorem savesBlock_saved {live live' : Live} {block : Block} {plan : Option (List Commit)}
    {r : Res SqliteStoreError Unit} (hw : w.Writes) (hs : live.server.state.Sound)
    (hr : live.StoreReadable) (pool : Mempool)
    (hok : (live.server.state.acceptBlock block).2 = .ok ())
    (hpool : pool.Consistent (live.server.state.acceptBlock block).1.activeUtxos)
    (hplan : SavesBlock { (live.server.state.acceptBlock block).1 with mempool := pool }
      block.header.blockHash plan)
    (h : persist plan w (setState live
      { (live.server.state.acceptBlock block).1 with mempool := pool }) = some (live', r)) :
    r = .ok () ∧
      live'.server.state = { (live.server.state.acceptBlock block).1 with mempool := pool } ∧
      live'.StoreReadable := by
  obtain ⟨commits, rfl, hcommits⟩ := SqliteStore.savesBlock_succeeds hs block pool hok hpool _ hplan
  obtain ⟨saved, hsaved, hstate, hr'⟩ := persist_succeeds hw commits hcommits
    (setState live { (live.server.state.acceptBlock block).1 with mempool := pool }) hr
  obtain ⟨rfl, rfl⟩ := Prod.mk.inj (Option.some.inj (h.symm.trans hsaved))
  exact ⟨rfl, hstate, hr'⟩

end Server

end Wobble
