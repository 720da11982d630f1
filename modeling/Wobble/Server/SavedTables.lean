import Wobble.Server.CrashSafety
import Wobble.Server.PendingRows

namespace Wobble

open Rust

namespace Mempool

/-- The error does not call a transaction a duplicate. -/
def NotDuplicate (e : MempoolError) : Prop := ∀ txid, e ≠ .duplicateTransaction txid

theorem conflictsAreReplaceable_notDuplicate (pool : Mempool) (tx : Transaction)
    (ids : List Txid) : Res.ErrIn NotDuplicate (pool.conflictsAreReplaceable tx ids) := by
  induction ids with
  | nil => exact Res.errIn_ok _
  | cons id rest ih =>
    refine Res.errIn_bind (Res.errIn_expect _ _) fun pending => ?_
    split
    · exact ih
    · exact Res.errIn_ok _

variable [Crypto]

theorem checkReplacement_notDuplicate (pool : Mempool) (utxos : UtxoSet) (tx : Transaction)
    (fee : UInt64) (ids : List Txid) :
    Res.ErrIn NotDuplicate (pool.checkReplacement utxos tx fee ids) := by
  rw [checkReplacement]
  split
  · exact Res.errIn_ok _
  refine Res.errIn_bind (pool.conflictsAreReplaceable_notDuplicate tx ids) fun replaceable => ?_
  split
  · exact Res.errIn_bind (Res.errIn_expect _ _) fun _ => Res.errIn_err (by simp [NotDuplicate])
  have hfees : ∀ id, Res.ErrIn NotDuplicate (do
      let pending ← Res.expect "conflicting transaction must exist" (pool.get id)
      pendingFee utxos pending) :=
    fun id => Res.errIn_bind (Res.errIn_expect _ _) fun _ => Res.errIn_expectOk _ _
  refine Res.errIn_bind (Res.errIn_mapAll hfees ids) fun fees =>
    Res.errIn_bind (Res.errIn_expect _ _) fun existing => ?_
  split
  · exact Res.errIn_err (by simp [NotDuplicate])
  · exact Res.errIn_ok _

theorem capacityEvictionCandidate_notDuplicate (pool : Mempool) (utxos : UtxoSet)
    (ids : List Txid) :
    Res.ErrIn NotDuplicate (pool.capacityEvictionCandidate utxos ids) := by
  rw [capacityEvictionCandidate]
  split
  · exact Res.errIn_ok _
  · refine Res.errIn_bind (Res.errIn_mapAll (fun entry => ?_) _) fun _ => Res.errIn_ok _
    exact Res.errIn_bind (Res.errIn_expectOk _ _) fun _ => Res.errIn_ok _

/-- `submit` calls a transaction a duplicate only for its id. -/
theorem pending_of_submit {pool : Mempool} {utxos : UtxoSet} {tx : Transaction} {txid : Txid}
    (h : pool.submit utxos tx = .error (.err (.duplicateTransaction txid))) :
    tx.Fits true ∧ ∃ pending, pool.get tx.id = some pending := by
  rw [submit, Transaction.txid_eq] at h
  split_ifs at h with hf
  · refine ⟨hf, ?_⟩
    rw [Res.ok_bind] at h
    by_cases hkey : pool.containsKey tx.id = true
    · exact (HashMap.containsKey_eq_true _ _).mp hkey
    rw [if_neg hkey] at h
    -- past the first check no error is this one
    refine absurd rfl ((Res.errIn_bind ?_ fun fee => ?_ : Res.ErrIn NotDuplicate _) _ h txid)
    · intro e he
      obtain ⟨e', -, rfl⟩ := (Res.mapErr_eq_err _ _ _).mp he
      simp [NotDuplicate]
    · refine Res.errIn_bind (checkReplacement_notDuplicate _ _ _ _ _) fun _ =>
        Res.errIn_bind (capacityEvictionCandidate_notDuplicate _ _ _) fun displaced => ?_
      dsimp only
      split
      · exact Res.errIn_ok _
      · split
        · exact Res.errIn_err (by simp [NotDuplicate])
        · exact Res.errIn_ok _
  · cases h

end Mempool

namespace SqliteStore

section Durable

variable [Crypto] {s pre post : NodeState} {entry : ChainIndexEntry} {b : Block}
  {store : SqliteStore} {rows : Mempool}

/-- The transaction with this id is in none of the stored blocks. -/
def Unconfirmed (s : NodeState) (txid : Txid) : Prop :=
  ∀ h b, s.blocks.get h = some b → txid ∉ b.transactions.map Transaction.id

/-- The rows of pending transactions are valid, agree with the pool, and have all of the pool that
no block has. -/
structure Kept (s : NodeState) (rows : Mempool) : Prop where
  fits : ∀ txid tx, rows.get txid = some tx → tx.Fits true ∧ tx.id = txid
  valid : ∀ txid tx, rows.get txid = some tx → s.activeUtxos.validateTransaction tx = .ok ()
  agree : ∀ txid tx tx', rows.get txid = some tx → s.mempool.get txid = some tx' → tx = tx'
  pending : ∀ txid tx, s.mempool.get txid = some tx → Unconfirmed s txid →
    rows.get txid = some tx

/-- The blocks, the tip and the coins of the state, and rows of pending transactions. -/
def Durable (store : SqliteStore) (s : NodeState) : Prop :=
  ∃ rows, Tables store s s.activeUtxos rows ∧ Kept s rows

theorem kept_mempool (hs : s.Sound) : Kept s s.mempool where
  fits := hs.pool.fits
  valid := hs.pool.valid
  agree _ _ _ h h' := Option.some.inj (h.symm.trans h')
  pending _ _ h _ := h

theorem Holds.durable (hs : s.Sound) (h : store.Holds s) : store.Durable s :=
  ⟨s.mempool, ⟨h.saved hs, h.readable hs⟩, kept_mempool hs⟩

/-- A restart gives back blocks, tip and coins, with the pending transactions of the rows. -/
theorem Tables.loadNodeState_eq (hc : s.Complete) (hfirst : TipFirst s)
    (h : Tables store s s.activeUtxos rows) (hk : Kept s rows) :
    store.loadNodeState = .ok { s with mempool := rows } := by
  have hs := hc.sound
  have hsaved : store.Saved { s with mempool := rows } := h.saved
  obtain ⟨t, hrun, hr⟩ := hc.replay s.byHeight hs.byHeight_grown hs.byHeight_get
  have htip := (replayed_bestTip_iff hs hr).mpr hfirst
  obtain ⟨hentries, hblocks, hviews⟩ := hr.maps_eq hs hs.mem_byHeight
  have hactive := hc.active_eq hr.complete htip hviews
  have hprune : (rows.pruneInvalid t.activeUtxos : Res NodeStateError Mempool) = .ok rows := by
    obtain ⟨rows', heq, hget⟩ := HashMap.retain_spec (ε := NodeStateError) rows
      (fun _ tx => Res.isOk (t.activeUtxos.validateTransaction tx)) (fun _ _ => true) (by
        intro txid tx hrow
        rw [hactive, hk.valid txid tx hrow]
        rfl)
    have hsame : rows' = rows := HashMap.ext _ _ fun txid => by
      rw [hget]
      cases rows.get txid <;> rfl
    rw [Mempool.pruneInvalid, heq, hsame]
  have hrebuilt : NodeState.fromPersisted (s.blocksOf s.byHeight) rows =
      .ok { t with mempool := rows } := by
    rw [NodeState.fromPersisted, hrun, Res.ok_bind, hprune]
    rfl
  have hstate : { t with mempool := rows } = { s with mempool := rows } := by
    obtain ⟨⟨entries, tip⟩, active, pool, blocks, views⟩ := t
    obtain ⟨⟨entries', tip'⟩, active', pool', blocks', views'⟩ := s
    dsimp only at htip hentries hblocks hviews hactive
    rw [htip, hentries, hblocks, hviews, hactive]
  have hload : store.loadMempool = .ok rows := hsaved.loadMempool hk.fits
  have hkeyed : s.activeUtxos.Keyed := active_keyed hs
  have hutxos : store.loadActiveUtxos = .ok s.activeUtxos :=
    Saved.loadActiveUtxos (s := { s with mempool := rows }) hkeyed hsaved
  have hbest : store.loadBestTip = .ok s.chain.bestTip := hsaved.loadBestTip
  have hblocks' : store.loadBlocksInHeightOrder = .ok (s.blocksOf s.byHeight) :=
    hsaved.loadBlocks hs
  rw [loadNodeState, hblocks', Res.ok_bind, hload, Res.ok_bind, hbest, Res.ok_bind, hutxos,
    Res.ok_bind, Res.ok_bind, hrebuilt, hstate]
  change checkRebuilt { s with mempool := rows } s.chain.bestTip s.activeUtxos rows = _
  rw [checkRebuilt, if_neg (not_not.mpr rfl), utxoSetsMatch, mapsMatch_self, mempoolsMatch,
    mapsMatch_self]
  rfl

end Durable

section Block

variable [Crypto] {pre post : NodeState} {entry : ChainIndexEntry} {b : Block} {u : UtxoSet}
  {store : SqliteStore} {utxos : UtxoSet} {rows : Mempool}

/-- The record of a block brings blocks, entries and tip up to date, whatever the other tables
hold. -/
theorem Tables.saveBlockRecord (hpre : pre.Sound) (hpost : post.Sound)
    (acc : NodeState.Accepted pre post entry b u) (h : Tables store pre utxos rows) :
    ∃ store', SqliteStore.saveBlockRecord b entry post.chain.bestTip store = .ok store' ∧
      Tables store' post utxos rows := by
  obtain ⟨tip, htip⟩ : ∃ tip, post.chain.bestTip = some tip := by
    obtain ⟨log, hi⟩ := hpost.index
    exact hi.tip_of_get acc.entry_get
  have hold : ∀ e ∈ pre.byHeight, store.blocks.get e.blockHash.text = pre.blocks.get e.blockHash :=
    h.saved.blocks
  refine ⟨_, rfl, ⟨?_, ?_, h.saved.activeUtxos, h.saved.mempool, ?_⟩,
    ⟨h.readable.mempool, h.readable.transactions⟩⟩
  · intro e he
    change (store.blocks.insert entry.blockHash.text b).get e.blockHash.text =
      post.blocks.get e.blockHash
    rw [HashMap.get_insert, acc.get_block]
    by_cases hhash : e.blockHash = entry.blockHash
    · rw [if_pos hhash, if_pos (congrArg BlockHash.text hhash)]
    · rw [if_neg hhash, if_neg fun ht => hhash (BlockHash.text_injective ht)]
      have hget := ((hpost.mem_byHeight e.blockHash e).mpr ⟨he, rfl⟩)
      rw [acc.get_entry, if_neg hhash] at hget
      exact hold e ((hpre.mem_byHeight e.blockHash e).mp hget).1
  · have hsaved : store.chainEntries =
        HashMap.new.insertAll (pre.byHeight.map fun e => (e.blockHash.text, entryRow e)) :=
      h.saved.chainEntries
    have hrows := hsaved.trans (byHeight_entryRows hpre)
    refine Eq.trans ?_ (byHeight_entryRows hpost).symm
    change store.chainEntries.insert entry.blockHash.text (entryRow entry) = _
    rw [hrows, acc.entries]
    exact Sql.rows_insert pre.chain.entries chainEntryRow chainEntryRow_key entry.blockHash entry
  · rw [htip]
    exact (HashMap.get_insert _ _ _ _).trans (if_pos rfl)

/-- The rows whose transaction is still pending. -/
def current (pool rows : Mempool) : Mempool :=
  rows.removeAll (stale pool (rows.iter.map Prod.fst))

omit [Crypto] in
theorem get_current (pool rows : Mempool) (txid : Txid) :
    (current pool rows).get txid = if (pool.get txid).isSome then rows.get txid else none := by
  have hstale : txid ∈ stale pool (rows.iter.map Prod.fst) ↔
      (rows.get txid).isSome = true ∧ pool.get txid = none := by
    rw [stale, List.mem_filter, Bool.not_eq_true', HashMap.containsKey_eq_false, HashMap.mem_iter_keys,
      Option.isSome_iff_exists]
  rw [current, HashMap.get_removeAll, if_congr hstale rfl rfl]
  cases pool.get txid with
  | some tx => simp
  | none => cases rows.get txid <;> simp

omit [Crypto] in
theorem deleteStaleMempoolTransactions_current (utxos : UtxoSet) (rows : Mempool) :
    Takes post (deleteStaleMempoolTransactions post.mempool) utxos rows utxos
      (current post.mempool rows) := by
  intro store ht
  obtain ⟨store', heq, hr⟩ :=
    deleteStaleMempoolTransactions_succeeds post.mempool store ht.readable
  obtain ⟨persisted, transactions, heq', hmem, -⟩ :=
    deleteStaleMempoolTransactions_eq post.mempool store ht.readable
  obtain rfl := Except.ok.inj (heq'.symm.trans heq)
  have hrows : store.mempoolTransactions = HashMap.new.insertAll (rows.iter.map mempoolRow) :=
    ht.saved.mempool
  have hstale : ∀ txid, txid ∈ stale post.mempool persisted ↔
      txid ∈ stale post.mempool (rows.iter.map Prod.fst) := by
    intro txid
    rw [stale, stale, List.mem_filter, List.mem_filter, hmem, hrows, persisted_iff, HashMap.mem_iter_keys]
  refine ⟨_, heq', ⟨ht.saved.blocks, ht.saved.chainEntries, ht.saved.activeUtxos, ?_,
    ht.saved.bestTip⟩, hr⟩
  have hsame : rows.removeAll (stale post.mempool persisted) = current post.mempool rows := by
    refine HashMap.ext _ _ fun txid => ?_
    rw [current, HashMap.get_removeAll, HashMap.get_removeAll]
    simp only [hstale]
  change store.mempoolTransactions.removeAll _ = _
  rw [hrows, mempoolRows_removeAll, hsame]

/-- A block that has been accepted, seen from the state it is in. -/
theorem Accepted.again (acc : NodeState.Accepted pre post entry b u)
    (pool : Mempool) (hpool : pool.Consistent post.activeUtxos) :
    NodeState.Accepted { post with mempool := pool } { post with mempool := pool } entry b u where
  entries := (HashMap.insert_of_get _ _ _ acc.entry_get).symm
  blocks := (HashMap.insert_of_get _ _ _ acc.block_get).symm
  view := acc.view
  views _ _ := rfl
  stored _ _ h := h
  known := .inl rfl
  aside _ := ⟨rfl, rfl, rfl⟩
  tip htip := by
    have hu := (acc.tip htip).1
    refine ⟨hu, fun txid tx => (and_iff_left_of_imp fun h => ?_).symm⟩
    rw [← hu]
    exact (post.activeUtxos.validateTransaction_eq_ok tx).mp (hpool.valid txid tx h)

/-- The refresh is decided without a failure. -/
theorem refresh_ok (hpost : post.Sound) (hash : BlockHash) (tip : Option BlockHash)
    (txids : Finset Txid) :
    ∃ refresh, (blockSaveRequiresMempoolIndexRefresh post hash tip txids :
      Res SqliteStoreError Bool) = .ok refresh := by
  rw [blockSaveRequiresMempoolIndexRefresh]
  split
  · exact ⟨true, rfl⟩
  · split_ifs
    · exact ⟨false, rfl⟩
    · exact ⟨true, rfl⟩
    · split
      · exact ⟨true, rfl⟩
      · rename_i block hblock
        have hids : (Res.mapAll Transaction.txid (block.transactions.drop 1) :
            Res SqliteStoreError _) = .ok ((block.transactions.drop 1).map Transaction.id) := by
          refine Res.mapAll_eq _ _ _ fun tx ht => ?_
          rw [Transaction.txid_eq,
            if_pos (hpost.fits_of_block _ block hblock tx (List.mem_of_mem_drop ht))]
        rw [hids, Res.ok_bind]
        exact ⟨_, rfl⟩

/-- The commits of a block save, whatever the state before the block is said to be. -/
theorem block_plan (hpost : post.Sound) (acc : NodeState.Accepted post post entry b u)
    (tip : Option BlockHash) (txids : Finset Txid) :
    ∃ (entries : List ChainIndexEntry) (rest : List Commit),
      saveAcceptedBlockState post entry.blockHash tip txids =
        some (saveBlockRecord b entry post.chain.bestTip ::
          ((if entry ∈ entries then [saveActiveUtxos post.activeUtxos,
            deleteStaleMempoolTransactions post.mempool, saveConfirmedBlockTransactions b entry]
          else []) ++ rest)) ∧
      (rest = [] ∨ saveMempoolState post = some rest) ∧
      (post.chain.bestTip = some entry.blockHash → entry ∈ entries) := by
  obtain ⟨entries, -, hplan, hon⟩ := saveAcceptedBlock_eq hpost acc
  obtain ⟨refresh, hrefresh⟩ := refresh_ok hpost entry.blockHash tip txids
  cases refresh with
  | false =>
    refine ⟨entries, [], ?_, .inl rfl, hon⟩
    rw [saveAcceptedBlockState, hplan, hrefresh, Option.bind_some, List.append_nil]
  | true =>
    obtain ⟨first, second, hmore, -⟩ :=
      saveMempoolState_takes hpost post.activeUtxos post.mempool
    refine ⟨entries, [first, second], ?_, .inr hmore, hon⟩
    rw [saveAcceptedBlockState, hplan, hrefresh, Option.bind_some]
    dsimp only
    rw [hmore]
    rfl

/-- `save_sqlite` commits the same for a block. -/
theorem saveSqlite_plan (hpost : post.Sound) (acc : NodeState.Accepted post post entry b u)
    (tip : Option BlockHash) (txids : Finset Txid) (message : WireMessage)
    (request : Option BlockHash) (replies : List WireMessage)
    (hmessage : ∀ tx, message ≠ .announceTx tx)
    (hhash : request.or (minedBlockHash replies) = some entry.blockHash) :
    saveSqlite post message request tip txids replies =
      saveAcceptedBlockState post entry.blockHash tip txids := by
  obtain ⟨entries, -, hplan, -⟩ := saveAcceptedBlock_eq hpost acc
  obtain ⟨refresh, hrefresh⟩ := refresh_ok hpost entry.blockHash tip txids
  rw [saveSqlite]
  · rw [hhash]
    dsimp only
    cases refresh with
    | true => rw [hrefresh]
    | false => rw [hrefresh, saveAcceptedBlockState, hplan, hrefresh, Option.bind_some]
  · exact hmessage

/-- Once the pool is that of the state, the refresh has nothing more to change. -/
theorem commitAll_refresh (hpost : post.Sound) (rest : List Commit)
    (hrest : rest = [] ∨ saveMempoolState post = some rest)
    (ht : Tables store post utxos rows) :
    ∃ store' rows', commitAll rest store = (store', .ok ()) ∧ Tables store' post utxos rows' ∧
      (rows' = rows ∨ rows' = post.mempool) := by
  rcases hrest with rfl | hmore
  · exact ⟨store, rows, rfl, ht, .inl rfl⟩
  · obtain ⟨first, second, hmore', hfirst, -⟩ := saveMempoolState_takes hpost utxos rows
    obtain ⟨first', second', hmore'', -, hsecond⟩ :=
      saveMempoolState_takes hpost utxos post.mempool
    obtain rfl := Option.some.inj (hmore'.symm.trans hmore)
    obtain ⟨rfl, rfl⟩ : first' = first ∧ second' = second := by
      simpa using hmore''.symm.trans hmore'
    obtain ⟨store₁, heq₁, ht₁⟩ := hfirst store ht
    obtain ⟨store₂, heq₂, ht₂⟩ := hsecond store₁ ht₁
    refine ⟨store₂, post.mempool, ?_, ht₂, .inr rfl⟩
    rw [commitAll_cons heq₁, commitAll_cons heq₂]
    rfl

/-- Rows stay good while the coins stay and the pool gets no more. -/
theorem Kept.of_same_coins (hk : Kept pre rows) (hactive : post.activeUtxos = pre.activeUtxos)
    (hpool : ∀ txid tx, post.mempool.get txid = some tx → pre.mempool.get txid = some tx)
    (hstored : ∀ h x, pre.blocks.get h = some x → post.blocks.get h = some x) :
    Kept post rows where
  fits := hk.fits
  valid txid tx h := hactive ▸ hk.valid txid tx h
  agree txid tx tx' h h' := hk.agree txid tx tx' h (hpool txid tx' h')
  pending txid tx h hun := hk.pending txid tx (hpool txid tx h)
    fun hash x hx => hun hash x (hstored hash x hx)

/-- Rows that are not stale and not of the block are good for the coins after it. -/
theorem Kept.of_block (hpost : post.Sound) (hk : Kept pre rows)
    (hpool : ∀ txid tx, post.mempool.get txid = some tx → pre.mempool.get txid = some tx)
    (hstored : ∀ h x, pre.blocks.get h = some x → post.blocks.get h = some x)
    (hash : BlockHash) (hblock : post.blocks.get hash = some b) :
    Kept post ((current post.mempool rows).removeAll (b.transactions.map Transaction.id)) := by
  have hold : ∀ txid tx,
      HashMap.get ((current post.mempool rows).removeAll (b.transactions.map Transaction.id)) txid =
        some tx → rows.get txid = some tx ∧ post.mempool.get txid = some tx := by
    intro txid tx h
    rw [HashMap.get_removeAll, get_current] at h
    split_ifs at h with hgone hpend
    obtain ⟨tx', htx'⟩ := Option.isSome_iff_exists.mp hpend
    rw [hk.agree txid tx tx' h (hpool txid tx' htx')]
    exact ⟨(hk.agree txid tx tx' h (hpool txid tx' htx')) ▸ h, htx'⟩
  refine ⟨?_, ?_, ?_, ?_⟩
  · intro txid tx h
    exact hk.fits txid tx (hold txid tx h).1
  · intro txid tx h
    exact hpost.pool.valid txid tx (hold txid tx h).2
  · intro txid tx tx' h h'
    exact Option.some.inj ((hold txid tx h).2.symm.trans h')
  · intro txid tx h hun
    rw [HashMap.get_removeAll, if_neg (hun hash b hblock), get_current, h, Option.isSome_some,
      if_pos rfl]
    exact hk.pending txid tx (hpool txid tx h) fun hash' x hx => hun hash' x (hstored hash' x hx)

/-- The save of an accepted block goes through and leaves tables to restart from. Mining takes more
out of the pool than the block itself does. -/
theorem Durable.block {mid : NodeState} (hpre : pre.Sound) (hmid : mid.Sound)
    (acc : NodeState.Accepted pre mid entry b u) (pool : Mempool)
    (hpost : NodeState.Sound { mid with mempool := pool })
    (hsub : ∀ txid tx, pool.get txid = some tx → mid.mempool.get txid = some tx)
    (tip : Option BlockHash) (txids : Finset Txid) (h : store.Durable pre) :
    ∃ commits store',
      saveAcceptedBlockState { mid with mempool := pool } entry.blockHash tip txids =
        some commits ∧
      commitAll commits store = (store', .ok ()) ∧
      store'.Durable { mid with mempool := pool } := by
  obtain ⟨rows, ht, hk⟩ := h
  have hpool : ∀ txid tx, pool.get txid = some tx → pre.mempool.get txid = some tx := by
    intro txid tx hget
    have hm := hsub txid tx hget
    by_cases htip : mid.chain.bestTip = some entry.blockHash
    · exact (((acc.tip htip).2 txid tx).mp hm).1
    · rwa [(acc.aside htip).2.2] at hm
  obtain ⟨entries, rest, hplan, hrest, hon⟩ :=
    block_plan hpost (Accepted.again acc pool hpost.pool) tip txids
  obtain ⟨store₁, hrecord, ht₁⟩ := ht.saveBlockRecord hpre hmid acc
  have ht₁' : Tables store₁ { mid with mempool := pool } pre.activeUtxos rows :=
    ⟨ht₁.saved, ht₁.readable⟩
  -- the tables before the refresh
  obtain ⟨store₂, rows₂, hrun, ht₂, hk₂⟩ : ∃ store₂ rows₂, (∀ rest,
      commitAll ((if entry ∈ entries then [saveActiveUtxos mid.activeUtxos,
        deleteStaleMempoolTransactions pool, saveConfirmedBlockTransactions b entry]
      else []) ++ rest) store₁ = commitAll rest store₂) ∧
      Tables store₂ { mid with mempool := pool } mid.activeUtxos rows₂ ∧
      Kept { mid with mempool := pool } rows₂ := by
    split_ifs with hin
    · obtain ⟨store₂, heq₂, ht₂⟩ := saveActiveUtxos_takes hpost pre.activeUtxos rows store₁ ht₁'
      obtain ⟨store₃, heq₃, ht₃⟩ :=
        deleteStaleMempoolTransactions_current mid.activeUtxos rows store₂ ht₂
      have hconfirm : Takes { mid with mempool := pool } (saveConfirmedBlockTransactions b entry)
          mid.activeUtxos (current pool rows) mid.activeUtxos
          ((current pool rows).removeAll (b.transactions.map Transaction.id)) :=
        saveConfirmedBlockTransactions_takes _ _ (hmid.fits_of_block _ b acc.block_get)
      obtain ⟨store₄, heq₄, ht₄⟩ := hconfirm store₃ ht₃
      refine ⟨store₄, _, fun rest => ?_, ht₄,
        hk.of_block hpost hpool acc.stored entry.blockHash acc.block_get⟩
      refine (commitAll_cons heq₂ _).trans ?_
      refine (commitAll_cons heq₃ _).trans ?_
      exact commitAll_cons heq₄ _
    · have haside : mid.activeUtxos = pre.activeUtxos :=
        (acc.aside fun htip => hin (hon htip)).2.1
      refine ⟨store₁, rows, fun rest => rfl, haside ▸ ht₁', ?_⟩
      exact hk.of_same_coins haside hpool acc.stored
  obtain ⟨store₃, rows₃, hrun₃, ht₃, hrows₃⟩ := commitAll_refresh hpost rest hrest ht₂
  refine ⟨_, store₃, hplan, ?_, rows₃, ht₃, ?_⟩
  · exact (commitAll_cons hrecord _).trans ((hrun rest).trans hrun₃)
  · rcases hrows₃ with rfl | rfl
    · exact hk₂
    · exact kept_mempool hpost

end Block

section AnnounceTx

variable [Crypto] {s s' : NodeState} {tx : Transaction} {store : SqliteStore} {rows : Mempool}

theorem saveMempoolTransaction_readable (hf : tx.Fits true) (hr : store.Readable) :
    ∃ store', saveMempoolTransaction tx store = .ok store' ∧ store'.Readable ∧
      store'.mempoolTransactions = store.mempoolTransactions.insert tx.id.text tx ∧
      store'.blocks = store.blocks ∧ store'.chainEntries = store.chainEntries ∧
      store'.activeUtxos = store.activeUtxos ∧ store'.metadata = store.metadata := by
  rw [saveMempoolTransaction, Transaction.txid_eq, if_pos hf, Res.ok_bind,
    buildTransactionKeyEdgesForPersistedContext, keyEdges_eq _ _ hf, Res.ok_bind]
  dsimp only
  rw [insertTransactionKeyRows_eq]
  refine ⟨_, rfl, ⟨?_, ?_⟩, rfl, rfl, rfl, rfl, rfl⟩
  · intro t row hget
    change (store.mempoolTransactions.insert tx.id.text tx).get t = some row at hget
    rw [HashMap.get_insert] at hget
    split_ifs at hget with hid
    · exact ⟨tx.id, hid⟩
    · exact hr.mempool t row hget
  · intro t row hget
    change (store.transactions.insert _ _).get t = some row at hget
    rw [HashMap.get_insert] at hget
    split_ifs at hget with hid
    · cases hget
      intro value hvalue
      cases hvalue
    · exact hr.transactions t row hget

theorem saveMempoolTransaction_takes (hf : tx.Fits true) (utxos : UtxoSet) (rows : Mempool) :
    Takes s (saveMempoolTransaction tx) utxos rows utxos (rows.insert tx.id tx) := by
  intro store ht
  have hrows : store.mempoolTransactions = HashMap.new.insertAll (rows.iter.map mempoolRow) :=
    ht.saved.mempool
  obtain ⟨store', heq, hr, hpool, hblocks, hentries, hutxos, hmeta⟩ :=
    saveMempoolTransaction_readable hf ht.readable
  refine ⟨store', heq, ⟨?_, ?_, ?_, ?_, ?_⟩, hr⟩
  · rw [hblocks]
    exact ht.saved.blocks
  · rw [hentries]
    exact ht.saved.chainEntries
  · rw [hutxos]
    exact ht.saved.activeUtxos
  · rw [hpool, hrows]
    exact Sql.rows_insert rows mempoolRow mempoolRow_key tx.id tx
  · rw [hmeta]
    exact ht.saved.bestTip

/-- The state an announced transaction leaves if it is taken: the transaction is pending and valid,
and what else is pending was so before. -/
structure Taken (s : NodeState) (tx : Transaction) (s' : NodeState) : Prop where
  state : s' = { s with mempool := s'.mempool }
  fits : tx.Fits true
  valid : s.activeUtxos.validateTransaction tx = .ok ()
  pending : s'.mempool.get tx.id = some tx
  others : ∀ txid tx', txid ≠ tx.id → s'.mempool.get txid = some tx' →
    s.mempool.get txid = some tx'

theorem announceTx_taken (hs : s.Sound) {replies : List WireMessage}
    (h : s.announceTx tx = (s', .ok replies))
    (hsame : ∀ pending, s.mempool.get tx.id = some pending → pending = tx) : Taken s tx s' := by
  rw [NodeState.announceTx, NodeState.submitTransaction] at h
  rcases hsub : s.mempool.submit s.activeUtxos tx with (e | m) | ⟨pool, txid⟩
  · rw [hsub] at h
    cases e with
    | duplicateTransaction txid =>
      cases h
      obtain ⟨hf, pending, hpending⟩ := Mempool.pending_of_submit hsub
      obtain rfl := hsame pending hpending
      exact ⟨rfl, hf, hs.pool.valid _ _ hpending, hpending, fun _ _ _ h => h⟩
    | _ => cases h
  · rw [hsub] at h
    cases h
  · rw [hsub] at h
    cases h
    obtain ⟨hf, -, -, hvalid, displaced, -, rfl⟩ := Mempool.submit_cases hsub
    refine ⟨rfl, hf, (s.activeUtxos.validateTransaction_eq_ok tx).mpr hvalid, ?_, ?_⟩
    · exact (HashMap.get_insert _ _ _ _).trans (if_pos rfl)
    · intro txid tx' hne hget
      rw [HashMap.get_insert, if_neg hne, HashMap.get_removeAll] at hget
      split_ifs at hget
      exact hget

/-- The row of a transaction that is taken is one more good row. -/
theorem Kept.insert (hk : Kept s rows) (ht : Taken s tx s') :
    Kept s' (rows.insert tx.id tx) := by
  have hactive : s'.activeUtxos = s.activeUtxos := by rw [ht.state]
  have hblocks : s'.blocks = s.blocks := by rw [ht.state]
  refine ⟨?_, ?_, ?_, ?_⟩
  · intro txid row hrow
    rw [HashMap.get_insert] at hrow
    split_ifs at hrow with hid
    · cases hrow
      exact ⟨ht.fits, hid.symm⟩
    · exact hk.fits txid row hrow
  · intro txid row hrow
    rw [hactive]
    rw [HashMap.get_insert] at hrow
    split_ifs at hrow with hid
    · cases hrow
      exact ht.valid
    · exact hk.valid txid row hrow
  · intro txid row pending hrow hpending
    rw [HashMap.get_insert] at hrow
    split_ifs at hrow with hid
    · cases hrow
      rw [hid, ht.pending] at hpending
      exact Option.some.inj hpending
    · exact hk.agree txid row pending hrow (ht.others txid pending hid hpending)
  · intro txid pending hpending hun
    rw [HashMap.get_insert]
    split_ifs with hid
    · rw [hid, ht.pending] at hpending
      exact hpending
    · refine hk.pending txid pending (ht.others txid pending hid hpending) ?_
      intro hash block hblock
      exact hun hash block (hblocks ▸ hblock)

/-- The save of an announced transaction goes through and leaves tables to restart from. -/
theorem Durable.announceTx (ht : Taken s tx s') (hd : store.Durable s) :
    ∃ store', saveMempoolTransaction tx store = .ok store' ∧ store'.Durable s' := by
  obtain ⟨rows, htables, hk⟩ := hd
  obtain ⟨store', heq, htables'⟩ :=
    saveMempoolTransaction_takes ht.fits s.activeUtxos rows store htables
  refine ⟨store', heq, rows.insert tx.id tx, ?_, hk.insert ht⟩
  rw [ht.state]
  exact ⟨htables'.saved, htables'.readable⟩

end AnnounceTx

end SqliteStore

end Wobble
