import Wobble.Node.Ownership
import Wobble.Server.BlockSave

namespace Wobble

open Rust GrowingTree

namespace SqliteStore

section Load

variable [Crypto] {s : NodeState} {store : SqliteStore} {utxos : UtxoSet} {pool : Mempool}

/-- The best tip is the only block of its work. -/
def SoleMax (s : NodeState) : Prop :=
  ∀ tip e, s.chain.bestTip = some tip → s.chain.get tip = some e →
    ∀ h e', s.chain.get h = some e' → e'.cumulativeWork = e.cumulativeWork → h = tip

omit [Crypto] in
theorem SoleMax.tipFirst (h : SoleMax s) : TipFirst s := by
  intro tip e htip he h' e' he' hwork
  obtain rfl := h tip e htip he h' e' he' hwork
  rw [Option.some.inj (he.symm.trans he')]

/-- The two states look the same to a caller after a restart. -/
structure Agrees (s' s : NodeState) : Prop where
  bestTip : s'.chain.bestTip = s.chain.bestTip
  activeUtxos : s'.activeUtxos = s.activeUtxos
  mempool : s'.mempool = s.mempool

/-- A load that succeeds has found the coins of the best tip, and returns them with the pool it
has found. -/
theorem Saved.of_loadNodeState (hc : s.Complete) (hfirst : TipFirst s) (active : UtxoSet)
    (hk : utxos.Keyed) (hp : pool.Consistent active)
    (h : store.Saved { s with activeUtxos := utxos, mempool := pool }) (s' : NodeState)
    (hload : store.loadNodeState = .ok s') :
    utxos = s.activeUtxos ∧ s'.mempool = pool := by
  obtain ⟨t, hr, pool', -, heq⟩ := Saved.loadNodeState_eq hc active hk hp h
  have htip := (replayed_bestTip_iff hc.sound hr).mpr hfirst
  obtain ⟨-, -, hviews⟩ := hr.maps_eq hc.sound hc.sound.mem_byHeight
  have hactive := hc.active_eq hr.complete htip hviews
  rw [heq, checkRebuilt, if_neg (not_not.mpr htip)] at hload
  by_cases hu : utxoSetsMatch t.activeUtxos utxos = true
  · by_cases hm : mempoolsMatch pool' pool = true
    · simp only [hu, hm, Bool.not_true, Bool.false_eq_true, if_false] at hload
      obtain rfl := Except.ok.inj hload
      exact ⟨(mapsMatch_eq _ _ hu).symm.trans hactive, mapsMatch_eq _ _ hm⟩
    · simp [hu, hm] at hload
  · simp [hu] at hload

theorem Holds.saved (hs : s.Sound) (h : store.Holds s) : store.Saved s := by
  obtain ⟨saved, hsave, hsame⟩ := h
  obtain ⟨saved', hsave', hsaved⟩ := saveNodeState_saved hs new
  obtain rfl := Except.ok.inj (Option.some.inj (hsave'.symm.trans hsave))
  exact ⟨fun e he => hsame.blocks ▸ hsaved.blocks e he,
    hsame.chainEntries.trans hsaved.chainEntries,
    hsame.activeUtxos.trans hsaved.activeUtxos,
    hsame.mempoolTransactions.trans hsaved.mempool, hsame.metadata ▸ hsaved.bestTip⟩

end Load

section Tables

variable [Crypto] {pre post : NodeState} {entry : ChainIndexEntry} {b : Block} {u : UtxoSet}

/-- The blocks and the tip of the state, with the given coins and pool. -/
structure Tables (store : SqliteStore) (s : NodeState) (utxos : UtxoSet) (pool : Mempool) :
    Prop where
  saved : store.Saved { s with activeUtxos := utxos, mempool := pool }
  readable : store.Readable

/-- The commit goes through and takes one pair of coins and pool to another. -/
def Takes (s : NodeState) (commit : Commit) (utxos : UtxoSet) (pool : Mempool)
    (utxos' : UtxoSet) (pool' : Mempool) : Prop :=
  ∀ store, Tables store s utxos pool →
    ∃ store', commit store = .ok store' ∧ Tables store' s utxos' pool'

theorem saveBlockRecord_tables (hpre : pre.Sound) (hpost : post.Sound)
    (acc : NodeState.Accepted pre post entry b u) (store : SqliteStore) (hh : store.Holds pre) :
    ∃ store', saveBlockRecord b entry post.chain.bestTip store = .ok store' ∧
      Tables store' post pre.activeUtxos pre.mempool := by
  obtain ⟨items, edges, hbuilt, hnodup⟩ := hpre.buildTransactionIndex_ok (ε := SqliteStoreError)
  have hsame := (holds_iff hpre store items edges hbuilt hnodup).mp hh
  obtain ⟨tip, htip⟩ : ∃ tip, post.chain.bestTip = some tip := by
    obtain ⟨log, hi⟩ := hpost.index
    exact hi.tip_of_get acc.entry_get
  have hr := hh.readable hpre
  obtain ⟨hb, hc, hm⟩ := recorded acc store items edges hsame tip htip
  refine ⟨_, rfl, ⟨?_, ?_, hsame.activeUtxos, hsame.mempoolTransactions, ?_⟩,
    ⟨hr.mempool, hr.transactions⟩⟩
  · intro e he
    change (store.blocks.insert entry.blockHash.text b).get e.blockHash.text = _
    rw [hb, ← byHeight_blockRows hpost]
    exact get_savedBlocks post post.byHeight HashMap.new hpost.byHeight_block e.blockHash
      (.inl (List.mem_map_of_mem he))
  · exact hc.trans (byHeight_entryRows hpost).symm
  · rw [htip]
    exact (HashMap.get_insert _ _ _ _).trans (if_pos rfl)

theorem saveActiveUtxos_takes (hpost : post.Sound) (utxos : UtxoSet) (pool : Mempool) :
    Takes post (saveActiveUtxos post.activeUtxos) utxos pool post.activeUtxos pool := by
  intro store ht
  refine ⟨_, saveActiveUtxos_eq post.activeUtxos (active_keyed hpost) store, ?_, ?_⟩
  · exact ⟨ht.saved.blocks, ht.saved.chainEntries, rfl, ht.saved.mempool, ht.saved.bestTip⟩
  · exact ⟨ht.readable.mempool, ht.readable.transactions⟩

omit [Crypto] in
theorem deleteStaleMempoolTransactions_takes (utxos : UtxoSet) (pool : Mempool)
    (hsub : ∀ txid tx, post.mempool.get txid = some tx → pool.get txid = some tx) :
    Takes post (deleteStaleMempoolTransactions post.mempool) utxos pool utxos post.mempool := by
  intro store ht
  obtain ⟨store', heq, hr⟩ :=
    deleteStaleMempoolTransactions_succeeds post.mempool store ht.readable
  obtain ⟨persisted, transactions, heq', hmem, -⟩ :=
    deleteStaleMempoolTransactions_eq post.mempool store ht.readable
  obtain rfl := Except.ok.inj (heq'.symm.trans heq)
  have hrows : store.mempoolTransactions = HashMap.new.insertAll (pool.iter.map mempoolRow) :=
    ht.saved.mempool
  have hp : ∀ txid, txid ∈ persisted ↔ ∃ tx, pool.get txid = some tx := by
    intro txid
    rw [hmem, hrows]
    exact persisted_iff pool txid
  refine ⟨_, heq', ⟨ht.saved.blocks, ht.saved.chainEntries, ht.saved.activeUtxos, ?_,
    ht.saved.bestTip⟩, hr⟩
  have hpool := pool_removeAll pool post.mempool persisted [] hp hsub (by simp)
  change store.mempoolTransactions.removeAll _ = _
  rw [hrows, mempoolRows_removeAll]
  exact congrArg (fun p : Mempool => HashMap.new.insertAll (p.iter.map mempoolRow)) hpool

theorem saveConfirmedBlockTransactions_takes (utxos : UtxoSet) (pool : Mempool)
    (hf : ∀ tx ∈ b.transactions, tx.Fits true) :
    Takes post (saveConfirmedBlockTransactions b entry) utxos pool utxos
      (pool.removeAll (b.transactions.map Transaction.id)) := by
  intro store ht
  obtain ⟨store', heq, hr⟩ :=
    saveConfirmedBlockTransactions_succeeds b entry hf store ht.readable
  obtain ⟨edges, hbuild⟩ := confirmedFrom_ok (ε := SqliteStoreError) store entry.blockHash
    entry.height 0 b.transactions HashMap.new hf
  have heq' := saveConfirmedBlockTransactions_eq store ht.readable b entry _ edges hbuild
  obtain rfl := Except.ok.inj (heq'.symm.trans heq)
  have hrows : store.mempoolTransactions = HashMap.new.insertAll (pool.iter.map mempoolRow) :=
    ht.saved.mempool
  refine ⟨_, heq', ⟨ht.saved.blocks, ht.saved.chainEntries, ht.saved.activeUtxos, ?_,
    ht.saved.bestTip⟩, hr⟩
  change store.mempoolTransactions.removeAll _ = _
  rw [hrows, mempoolRows_removeAll, blockItems_txid]

theorem saveMempoolState_takes (hpost : post.Sound) (utxos : UtxoSet) (pool : Mempool) :
    ∃ first second, saveMempoolState post = some [first, second] ∧
      Takes post first utxos pool utxos post.mempool ∧
      Takes post second utxos pool utxos pool := by
  obtain ⟨items, edges, hbuilt, hnodup⟩ := hpost.buildTransactionIndex_ok (ε := SqliteStoreError)
  have hrows := (mempool_roundTrip post.mempool hpost.pool.fits).1
  refine ⟨_, _, by rw [saveMempoolState, hbuilt, Option.map_some], ?_, ?_⟩
  · intro store ht
    obtain ⟨store', heq, hr⟩ := saveMempool_succeeds post.mempool hrows store ht.readable
    have heq' := heq
    rw [saveMempool, hrows] at heq'
    obtain rfl := Except.ok.inj heq'
    exact ⟨_, heq, ⟨ht.saved.blocks, ht.saved.chainEntries, ht.saved.activeUtxos, rfl,
      ht.saved.bestTip⟩, hr⟩
  · intro store ht
    obtain ⟨store', heq, hr⟩ := saveTransactionIndex_succeeds items edges hnodup store ht.readable
    obtain rfl := Except.ok.inj ((saveTransactionIndex_eq items edges hnodup store).symm.trans heq)
    exact ⟨_, heq, ⟨ht.saved.blocks, ht.saved.chainEntries, ht.saved.activeUtxos,
      ht.saved.mempool, ht.saved.bestTip⟩, hr⟩

end Tables

section Prefixes

variable [Crypto] {pre post : NodeState} {entry : ChainIndexEntry} {b : Block} {u : UtxoSet}

/-- Wherever the process stops between the commits, a restart finds the state before the block or
the state after it. -/
def CrashSafe (commits : List Commit) (store : SqliteStore) (pre post : NodeState) : Prop :=
  ∀ n, ∃ s, (commitAll (commits.take n) store).1.loadNodeState = .ok s ∧
    (Agrees s pre ∨ Agrees s post)

/-- The block leaves the active coins as they were, and if it is on the best chain, none of its
transactions is pending after it. -/
structure Settled (pre post : NodeState) (hash : BlockHash) : Prop where
  activeUtxos : post.activeUtxos = pre.activeUtxos
  confirmed : ∀ entries block, post.chain.bestChainEntries = some entries →
    hash ∈ entries.map ChainIndexEntry.blockHash → post.blocks.get hash = some block →
    ∀ tx ∈ block.transactions, post.mempool.get tx.id = none

omit [Crypto] in
theorem commitAll_keeps (s : NodeState) (utxos : UtxoSet) (pool : Mempool)
    (commits : List Commit) (hc : ∀ commit ∈ commits, Takes s commit utxos pool utxos pool)
    (store : SqliteStore) (ht : Tables store s utxos pool) :
    Tables (commitAll commits store).1 s utxos pool := by
  induction commits generalizing store with
  | nil => exact ht
  | cons commit rest ih =>
    obtain ⟨hfirst, hrest⟩ := List.forall_mem_cons.mp hc
    obtain ⟨store', heq, ht'⟩ := hfirst store ht
    rw [commitAll_cons heq]
    exact ih hrest store' ht'

/-- If the coins stay, so does the pool. -/
theorem mempool_eq (hpre : pre.Sound) (acc : NodeState.Accepted pre post entry b u)
    (hactive : post.activeUtxos = pre.activeUtxos) : post.mempool = pre.mempool := by
  by_cases htip : post.chain.bestTip = some entry.blockHash
  · obtain ⟨hu, hget⟩ := acc.tip htip
    refine HashMap.ext _ _ fun txid => Option.ext fun tx => ?_
    rw [hget, ← hu, hactive]
    exact and_iff_left_of_imp fun h =>
      (pre.activeUtxos.validateTransaction_eq_ok tx).mp (hpre.pool.valid txid tx h)
  · exact (acc.aside htip).2.2

/-- The commits of a block save, and what those after the first do to settled tables. -/
theorem plan_eq (hpost : post.Sound) (acc : NodeState.Accepted pre post entry b u) :
    ∃ entries rest, post.chain.bestChainEntries = some entries ∧
      saveAcceptedBlockState post entry.blockHash pre.chain.bestTip (mempoolTxids pre.mempool) =
        some (saveBlockRecord b entry post.chain.bestTip ::
          ((if entry ∈ entries then [saveActiveUtxos post.activeUtxos,
            deleteStaleMempoolTransactions post.mempool, saveConfirmedBlockTransactions b entry]
          else []) ++ rest)) ∧
      ∀ commit ∈ rest, ∀ utxos, Takes post commit utxos post.mempool utxos post.mempool := by
  obtain ⟨entries, hentries, hplan, -⟩ := saveAcceptedBlock_eq hpost acc
  obtain ⟨refresh, hrefresh, -⟩ := refresh_cases hpost acc
  cases refresh with
  | false =>
    refine ⟨entries, [], hentries, ?_, by simp⟩
    rw [saveAcceptedBlockState, hplan, hrefresh, Option.bind_some, List.append_nil]
  | true =>
    obtain ⟨first, second, hmore, -⟩ :=
      saveMempoolState_takes hpost post.activeUtxos post.mempool
    refine ⟨entries, [first, second], hentries, ?_, ?_⟩
    · rw [saveAcceptedBlockState, hplan, hrefresh, Option.bind_some]
      dsimp only
      rw [hmore]
      rfl
    · intro commit hc utxos
      obtain ⟨first', second', hmore', hfirst, hsecond⟩ :=
        saveMempoolState_takes hpost utxos post.mempool
      obtain ⟨rfl, rfl⟩ : first' = first ∧ second' = second := by
        simpa using hmore'.symm.trans hmore
      rcases List.mem_cons.mp hc with rfl | hc
      · exact hfirst
      · obtain rfl : commit = second' := by simpa using hc
        exact hsecond

/-- Tables with the coins and the pool of the state load as that state. -/
theorem Tables.agrees (hc : post.Complete) (hmax : SoleMax post) (store : SqliteStore)
    (ht : Tables store post post.activeUtxos post.mempool) :
    ∃ s, store.loadNodeState = .ok s ∧ Agrees s post :=
  ⟨post, Saved.loadNodeState_ok hc ht.saved hmax.tipFirst, ⟨rfl, rfl, rfl⟩⟩

theorem crashSafe_of_settled (hpre : pre.Complete) (hpost : post.Complete)
    (acc : NodeState.Accepted pre post entry b u) (store : SqliteStore) (hh : store.Holds pre)
    (hmax : SoleMax pre) (hmax' : SoleMax post) (hsettled : Settled pre post entry.blockHash)
    (commits : List Commit)
    (hplan : saveAcceptedBlockState post entry.blockHash pre.chain.bestTip
      (mempoolTxids pre.mempool) = some commits) : CrashSafe commits store pre post := by
  have hpool := mempool_eq hpre.sound acc hsettled.activeUtxos
  obtain ⟨entries, rest, hentries, hplan', hrest⟩ := plan_eq hpost.sound acc
  obtain rfl := Option.some.inj (hplan'.symm.trans hplan)
  obtain ⟨store₁, hrecord, ht⟩ := saveBlockRecord_tables hpre.sound hpost.sound acc store hh
  rw [← hsettled.activeUtxos, ← hpool] at ht
  intro n
  cases n with
  | zero =>
    refine ⟨pre, ?_, .inl ⟨rfl, rfl, rfl⟩⟩
    exact (hh.saved hpre.sound).loadNodeState_ok hpre hmax.tipFirst
  | succ n =>
    rw [List.take_succ_cons, commitAll_cons hrecord]
    refine (Tables.agrees hpost hmax' _ (commitAll_keeps post _ _ _ ?_ store₁ ht)).imp
      fun s h => ⟨h.1, .inr h.2⟩
    intro commit hc
    rcases List.mem_append.mp (List.mem_of_mem_take hc) with hc | hc
    · split_ifs at hc with hon
      · have hconfirmed : post.mempool.removeAll (b.transactions.map Transaction.id) =
            post.mempool := by
          refine HashMap.ext _ _ fun txid => ?_
          rw [HashMap.get_removeAll]
          split_ifs with hmem
          · obtain ⟨tx, ht, rfl⟩ := List.mem_map.mp hmem
            exact (hsettled.confirmed entries b hentries (List.mem_map_of_mem hon) acc.block_get
              tx ht).symm
          · rfl
        simp only [List.mem_cons, List.not_mem_nil, or_false] at hc
        rcases hc with rfl | rfl | rfl
        · exact saveActiveUtxos_takes hpost.sound _ _
        · exact deleteStaleMempoolTransactions_takes _ _ fun _ _ h => h
        · have htakes : Takes post (saveConfirmedBlockTransactions b entry) post.activeUtxos
              post.mempool post.activeUtxos
              (post.mempool.removeAll (b.transactions.map Transaction.id)) :=
            saveConfirmedBlockTransactions_takes _ _
              (hpost.sound.fits_of_block _ b acc.block_get)
          rwa [hconfirmed] at htakes
      · cases hc
    · exact hrest commit hc post.activeUtxos

theorem settled_of_crashSafe (hpre : pre.Complete) (hpost : post.Complete)
    (acc : NodeState.Accepted pre post entry b u) (store : SqliteStore) (hh : store.Holds pre)
    (hmax : SoleMax post) (commits : List Commit)
    (hplan : saveAcceptedBlockState post entry.blockHash pre.chain.bestTip
      (mempoolTxids pre.mempool) = some commits)
    (hsafe : CrashSafe commits store pre post) : Settled pre post entry.blockHash := by
  obtain ⟨entries, rest, hentries, hplan', -⟩ := plan_eq hpost.sound acc
  obtain rfl := Option.some.inj (hplan'.symm.trans hplan)
  obtain ⟨store₁, hrecord, ht₁⟩ := saveBlockRecord_tables hpre.sound hpost.sound acc store hh
  -- after the first commit the blocks are new and the coins are old
  have hactive : post.activeUtxos = pre.activeUtxos := by
    obtain ⟨s, hload, -⟩ := hsafe 1
    rw [List.take_succ_cons, List.take_zero, commitAll_cons hrecord] at hload
    exact (Saved.of_loadNodeState hpost hmax.tipFirst pre.activeUtxos (active_keyed hpre.sound)
      hpre.sound.pool ht₁.saved s hload).1.symm
  refine ⟨hactive, ?_⟩
  intro entries' block hentries' hon hblock
  obtain rfl := Option.some.inj (hentries.symm.trans hentries')
  obtain rfl := Option.some.inj (acc.block_get.symm.trans hblock)
  obtain ⟨e, he, hhash⟩ := List.mem_map.mp hon
  have hget := hpost.sound.bestChain_get hentries e he
  rw [hhash, acc.entry_get] at hget
  obtain rfl := Option.some.inj hget
  -- after the fourth the rows of the block's transactions are gone from the pool
  have hpool := mempool_eq hpre.sound acc hactive
  obtain ⟨store₂, hutxos, ht₂⟩ :=
    saveActiveUtxos_takes hpost.sound pre.activeUtxos pre.mempool store₁ ht₁
  obtain ⟨store₃, hstale, ht₃⟩ := deleteStaleMempoolTransactions_takes post.activeUtxos
    pre.mempool (fun _ _ h => hpool ▸ h) store₂ ht₂
  obtain ⟨store₄, hconfirm, ht₄⟩ := saveConfirmedBlockTransactions_takes post.activeUtxos
    post.mempool (hpost.sound.fits_of_block _ b acc.block_get) store₃ ht₃
  obtain ⟨s, hload, hagrees⟩ := hsafe 4
  rw [if_pos he] at hload
  change (commitAll [_, _, _, _] store).1.loadNodeState = _ at hload
  rw [commitAll_cons hrecord, commitAll_cons hutxos, commitAll_cons hstale,
    commitAll_cons hconfirm] at hload
  have hmempool := (Saved.of_loadNodeState hpost hmax.tipFirst post.activeUtxos
    (active_keyed hpost.sound) (hpost.sound.pool.removeMany _) ht₄.saved s hload).2
  have hsame : s.mempool = post.mempool := by
    rcases hagrees with h | h
    · rw [h.mempool, hpool]
    · exact h.mempool
  intro tx ht
  rw [← hsame, hmempool, Mempool.removeMany, HashMap.get_removeAll,
    if_pos (List.mem_map_of_mem ht)]

/-- The commits of a block save can be cut anywhere exactly if the block is settled: a block that
moves the active coins leaves, after its first commit, a database that cannot be loaded. -/
theorem block_save_crashSafe_iff (pre : NodeState) (hr : pre.OkReachable) (block : Block)
    (hok : (pre.acceptBlock block).2 = .ok ()) (hmax : SoleMax pre)
    (hmax' : SoleMax (pre.acceptBlock block).1) (store : SqliteStore) (hh : store.Holds pre) :
    ∃ commits, saveAcceptedBlockState (pre.acceptBlock block).1 block.header.blockHash
        pre.chain.bestTip (mempoolTxids pre.mempool) = some commits ∧
      (CrashSafe commits store pre (pre.acceptBlock block).1 ↔
        Settled pre (pre.acceptBlock block).1 block.header.blockHash) := by
  have hpre := hr.complete
  have hpost := hpre.acceptBlock block hok
  obtain ⟨entry, b, u, acc, hhash⟩ := hpre.sound.accepted block hok
  obtain ⟨entries, rest, -, hplan, -⟩ := plan_eq hpost.sound acc
  rw [← hhash]
  refine ⟨_, hplan, ?_, ?_⟩
  · exact settled_of_crashSafe hpre hpost acc store hh hmax' _ hplan
  · intro hsettled
    exact crashSafe_of_settled hpre hpost acc store hh hmax hmax' hsettled _ hplan

end Prefixes

section SampleCrash

open NodeState (sampleBlock paymentPending paymentPending_okReachable)

attribute [local instance] NodeState.sampleCrypto

theorem soleMax_of_iter (s : NodeState)
    (h : ∀ entry ∈ s.chain.entries.iter, ∀ entry' ∈ s.chain.entries.iter,
      s.chain.bestTip = some entry.1 → entry'.2.cumulativeWork = entry.2.cumulativeWork →
        entry'.1 = entry.1) : SoleMax s := by
  intro tip e htip he h' e' he' hwork
  exact h (tip, e) ((HashMap.mem_iter _ _ _).mpr he) (h', e') ((HashMap.mem_iter _ _ _).mpr he')
    htip hwork

/-- A payment is confirmed by the next block, and the process stops after the block's record has
been committed: the database cannot be loaded any more. -/
theorem paymentPending_crash :
    paymentPending.OkReachable ∧ SoleMax paymentPending ∧
      SoleMax (paymentPending.acceptBlock sampleBlock).1 ∧
      (paymentPending.acceptBlock sampleBlock).2 = .ok () ∧
      ∃ store commits, new.saveNodeState paymentPending = some (.ok store) ∧
        saveAcceptedBlockState (paymentPending.acceptBlock sampleBlock).1
          sampleBlock.header.blockHash paymentPending.chain.bestTip
          (mempoolTxids paymentPending.mempool) = some commits ∧
        (commitAll (commits.take 1) store).1.loadNodeState =
          .error (.err .rebuiltUtxoMismatch) := by
  refine ⟨paymentPending_okReachable, soleMax_of_iter _ (by decide +kernel),
    soleMax_of_iter _ (by decide +kernel), by decide +kernel, ?_⟩
  obtain ⟨store, hsave, -⟩ := saveNodeState_saved paymentPending_okReachable.complete.sound new
  have hload : ((new.saveNodeState paymentPending).bind fun saved =>
      (saveAcceptedBlockState (paymentPending.acceptBlock sampleBlock).1
        sampleBlock.header.blockHash paymentPending.chain.bestTip
        (mempoolTxids paymentPending.mempool)).map fun commits =>
          saved >>= fun store => (commitAll (commits.take 1) store).1.loadNodeState) =
      some (.error (.err .rebuiltUtxoMismatch)) := by decide +kernel
  rw [hsave, Option.bind_some] at hload
  obtain ⟨commits, hplan, hload⟩ := Option.map_eq_some_iff.mp hload
  exact ⟨store, commits, hsave, hplan, hload⟩

end SampleCrash

section SideBranch

open NodeState (OkStep OkReachable takePending takePending_okReachable nextBlock repeatBlock)

attribute [local instance] NodeState.takeCrypto

/-- Three blocks, with two transactions pending. -/
def threeBlocks : NodeState := (takePending.acceptBlock nextBlock).1

theorem threeBlocks_okReachable : threeBlocks.OkReachable :=
  takePending_okReachable.tail (.acceptBlock nextBlock (by decide +kernel))

/-- A block that is new comes in beside the second one: its save can be cut anywhere. -/
theorem repeatBlock_crashSafe :
    threeBlocks.chain.get repeatBlock.header.blockHash = none ∧ threeBlocks.mempool.len = 2 ∧
    ∃ store commits, new.saveNodeState threeBlocks = some (.ok store) ∧
      saveAcceptedBlockState (threeBlocks.acceptBlock repeatBlock).1 repeatBlock.header.blockHash
        threeBlocks.chain.bestTip (mempoolTxids threeBlocks.mempool) = some commits ∧
      CrashSafe commits store threeBlocks (threeBlocks.acceptBlock repeatBlock).1 := by
  refine ⟨by decide +kernel, by decide +kernel, ?_⟩
  obtain ⟨store, hsave, -⟩ := saveNodeState_saved threeBlocks_okReachable.complete.sound new
  have hsame : store.SameTables store := ⟨rfl, rfl, rfl, rfl, rfl, .refl _, rfl⟩
  obtain ⟨commits, hplan, hiff⟩ := block_save_crashSafe_iff threeBlocks threeBlocks_okReachable
    repeatBlock (by decide +kernel) (soleMax_of_iter _ (by decide +kernel))
    (soleMax_of_iter _ (by decide +kernel)) store ⟨store, hsave, hsame⟩
  refine ⟨store, commits, hsave, hplan, hiff.mpr ⟨by decide +kernel, ?_⟩⟩
  intro entries block hentries hmem
  have hbeside : (threeBlocks.acceptBlock repeatBlock).1.chain.bestChainEntries.map (fun entries =>
      (entries.map ChainIndexEntry.blockHash).contains repeatBlock.header.blockHash) =
        some false := by
    decide +kernel
  rw [hentries, Option.map_some, Option.some_inj, List.contains_eq_mem, decide_eq_false_iff_not]
    at hbeside
  exact absurd hmem hbeside

end SideBranch

end SqliteStore

end Wobble
