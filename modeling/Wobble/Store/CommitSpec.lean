import Wobble.Store.IndexSpec
import Wobble.Store.Reload

namespace Wobble

open Rust

namespace SqliteStore

theorem get_deletePendingTransactionRow (store : SqliteStore) (txid : Txid) (t : Text) :
    (store.deletePendingTransactionRow txid).transactions.get t =
      (store.transactions.get t).filter fun row =>
        !(decide (t = txid.text) && decide (row.status = .mempool)) := by
  rw [deletePendingTransactionRow]
  by_cases ht : t = txid.text
  · rw [ht]
    cases hrow : store.transactions.get txid.text with
    | none => rw [hrow, Option.filter_none]
    | some row =>
      dsimp only
      by_cases hm : row.status = .mempool
      · simp [hm, Option.filter_some]
      · simp [hm, hrow, Option.filter_some]
  · have hkeep : ∀ o : Option TransactionRow,
        (o.filter fun row => !(decide (t = txid.text) && decide (row.status = .mempool))) = o := by
      intro o
      cases o <;> simp [ht, Option.filter_some]
    rw [hkeep]
    split
    · split_ifs
      · exact (HashMap.get_remove _ _ _).trans (if_neg ht)
      · rfl
    · rfl

theorem filter_deleteTransactionKeyRows (rows : List TransactionKeyRow) (txid : Txid)
    (gone : List Txid) :
    ((rows.filter fun row => row.txid != txid.text).filter fun row =>
        !decide (row.txid ∈ gone.map Txid.text)) =
      rows.filter fun row => !decide (row.txid ∈ (txid :: gone).map Txid.text) := by
  rw [List.filter_filter]
  refine List.filter_congr fun row _ => ?_
  rw [Bool.eq_iff_iff]
  simp [and_comm]

/-- The pending transactions to delete. -/
def stale (mempool : Mempool) (persisted : List Txid) : List Txid :=
  persisted.filter fun txid => !mempool.containsKey txid

/-- What the loop over the persisted ids deletes. -/
theorem deleteStale_loop (mempool : Mempool) (persisted : List Txid) (store : SqliteStore) :
    ∃ transactions, persisted.foldl (fun store txid =>
        if mempool.containsKey txid then store else
          ((store.deleteMempoolTransactionRow txid).deletePendingTransactionRow
            txid).deleteTransactionKeyRows txid) store =
      { store with
        mempoolTransactions :=
          store.mempoolTransactions.removeAll ((stale mempool persisted).map Txid.text)
        transactions := transactions
        transactionKeys := store.transactionKeys.filter fun row =>
          !decide (row.txid ∈ (stale mempool persisted).map Txid.text) } ∧
      ∀ t, transactions.get t = (store.transactions.get t).filter fun row =>
        !(decide (t ∈ (stale mempool persisted).map Txid.text) &&
          decide (row.status = .mempool)) := by
  induction persisted generalizing store with
  | nil =>
    refine ⟨store.transactions, by simp [stale, HashMap.removeAll], fun t => ?_⟩
    cases store.transactions.get t <;> simp [stale, Option.filter_some]
  | cons txid rest ih =>
    rw [List.foldl_cons, stale, List.filter_cons]
    by_cases hin : mempool.containsKey txid = true
    · rw [if_pos hin, hin]
      exact ih store
    rw [if_neg hin, Bool.eq_false_of_not_eq_true hin]
    simp only [Bool.not_false, if_true]
    obtain ⟨transactions, heq, hget⟩ := ih (((store.deleteMempoolTransactionRow
      txid).deletePendingTransactionRow txid).deleteTransactionKeyRows txid)
    refine ⟨transactions, ?_, ?_⟩
    · have hfields : ((store.deleteMempoolTransactionRow txid).deletePendingTransactionRow
          txid) = { store with
            mempoolTransactions := store.mempoolTransactions.remove txid.text
            transactions :=
              ((store.deleteMempoolTransactionRow txid).deletePendingTransactionRow
                txid).transactions } := by
        rw [deletePendingTransactionRow]
        split
        · split_ifs <;> rfl
        · rfl
      rw [heq, hfields, deleteTransactionKeyRows]
      dsimp only
      rw [filter_deleteTransactionKeyRows]
      rfl
    · intro t
      have hstep : ((((store.deleteMempoolTransactionRow txid).deletePendingTransactionRow
          txid).deleteTransactionKeyRows txid).transactions).get t =
            (store.transactions.get t).filter fun row =>
              !(decide (t = txid.text) && decide (row.status = .mempool)) :=
        get_deletePendingTransactionRow (store.deleteMempoolTransactionRow txid) txid t
      rw [hget t, hstep, Option.filter_filter]
      refine congrArg (fun p => Option.filter p _) (funext fun row => ?_)
      rw [Bool.eq_iff_iff]
      simp only [stale, List.map_cons, List.mem_cons, Bool.decide_or, Bool.and_eq_true,
        Bool.not_eq_true', Bool.and_eq_false_iff, Bool.or_eq_false_iff]
      tauto

/-- The keys of the pool's rows, read back in the order of the table. -/
theorem loadPersistedMempoolTxids_ok (store : SqliteStore)
    (h : ∀ t tx, store.mempoolTransactions.get t = some tx → ∃ txid : Txid, t = txid.text) :
    ∃ persisted, store.loadPersistedMempoolTxids = .ok persisted ∧
      ∀ txid, txid ∈ persisted ↔ ∃ tx, store.mempoolTransactions.get txid.text = some tx := by
  have hall : ∀ row ∈ store.mempoolTransactions.iter,
      ∃ txid, parseTxid row.1 = .ok txid ∧ (parseTxid row.1).toOption = some txid := by
    intro row hrow
    obtain ⟨txid, ht⟩ := h row.1 row.2 ((HashMap.mem_iter _ _ _).mp hrow)
    rw [ht, parseTxid_text]
    exact ⟨txid, rfl, rfl⟩
  refine ⟨_, Res.mapAll_eq_filterMap _ (fun row => (parseTxid row.1).toOption) _ hall, ?_⟩
  intro txid
  rw [List.mem_filterMap]
  constructor
  · intro hex
    obtain ⟨⟨t, tx⟩, hrow, hparse⟩ := hex
    have hget := (HashMap.mem_iter _ _ _).mp hrow
    obtain ⟨txid', rfl⟩ := h t tx hget
    dsimp only at hparse
    rw [parseTxid_text] at hparse
    obtain rfl : txid' = txid := Option.some.inj hparse
    exact ⟨tx, hget⟩
  · intro hex
    obtain ⟨tx, hget⟩ := hex
    exact ⟨(txid.text, tx), (HashMap.mem_iter _ _ _).mpr hget, by rw [parseTxid_text]; rfl⟩

theorem insertTransactionKeyRows_eq (edges : List TransactionKeyEdge) (store : SqliteStore) :
    edges.foldl insertTransactionKeyRow store =
      { store with transactionKeys := store.transactionKeys ++ edges.map edgeRow } := by
  induction edges generalizing store with
  | nil => simp
  | cons edge rest ih =>
    rw [List.foldl_cons, ih, insertTransactionKeyRow]
    simp

theorem confirmRows_loop (items : List IndexedTransaction) (store : SqliteStore) :
    items.foldl (fun store indexed =>
        ((store.deleteMempoolTransactionRow indexed.txid).upsertIndexedTransactionRow
          indexed).deleteTransactionKeyRows indexed.txid) store =
      { store with
        mempoolTransactions := store.mempoolTransactions.removeAll
          ((items.map IndexedTransaction.txid).map Txid.text)
        transactions := store.transactions.insertAll (items.map transactionRow)
        transactionKeys := store.transactionKeys.filter fun row =>
          !decide (row.txid ∈ (items.map IndexedTransaction.txid).map Txid.text) } := by
  induction items generalizing store with
  | nil => simp [HashMap.removeAll, HashMap.insertAll]
  | cons item rest ih =>
    rw [List.foldl_cons, ih]
    simp only [deleteMempoolTransactionRow, upsertIndexedTransactionRow, deleteTransactionKeyRows,
      filter_deleteTransactionKeyRows]
    rfl

/-- The keys of the pool's rows are texts of txids, and the block hashes of the index are texts
of hashes. -/
structure Readable (store : SqliteStore) : Prop where
  mempool : ∀ t tx, store.mempoolTransactions.get t = some tx → ∃ txid : Txid, t = txid.text
  transactions : ∀ t row, store.transactions.get t = some row →
    ∀ value, row.blockHash = some value → ∃ hash : BlockHash, value = hash.text

/-- The row of a transaction that replaces an earlier one. -/
def merged (store : SqliteStore) (item : IndexedTransaction) : IndexedTransaction :=
  { item with firstSeenAt :=
      (store.transactions.get item.txid.text).elim item.firstSeenAt TransactionRow.firstSeenAt }

theorem Readable.merge_eq {store : SqliteStore} (hr : store.Readable)
    (item : IndexedTransaction) :
    store.mergeConfirmedTransactionMetadata item = .ok (store.merged item) := by
  rw [mergeConfirmedTransactionMetadata, loadIndexedTransaction, merged]
  cases hrow : store.transactions.get item.txid.text with
  | none => rfl
  | some row =>
    simp only [parseTxid_text, Res.mapErr_ok, Res.ok_bind]
    cases hblock : row.blockHash with
    | none => rfl
    | some value =>
      obtain ⟨hash, rfl⟩ := hr.transactions _ row hrow value hblock
      simp only [parseBlockHash_text, Res.mapErr_ok, Res.ok_bind]
      rfl

/-- A transaction of the database that goes through on every readable store. -/
def Succeeds (commit : Commit) : Prop :=
  ∀ store, Readable store → ∃ store', commit store = .ok store' ∧ Readable store'

theorem commitAll_cons {commit : Commit} {store store' : SqliteStore}
    (h : commit store = .ok store') (rest : List Commit) :
    commitAll (commit :: rest) store = commitAll rest store' := by
  rw [commitAll, h]

theorem commitAll_succeeds (commits : List Commit) (hc : ∀ commit ∈ commits, Succeeds commit)
    (store : SqliteStore) (hr : store.Readable) :
    ∃ store', commitAll commits store = (store', .ok ()) ∧ store'.Readable := by
  induction commits generalizing store with
  | nil => exact ⟨store, rfl, hr⟩
  | cons commit rest ih =>
    obtain ⟨hfirst, hrest⟩ := List.forall_mem_cons.mp hc
    obtain ⟨next, hnext, hr'⟩ := hfirst store hr
    obtain ⟨store', hstore', hr''⟩ := ih hrest next hr'
    exact ⟨store', (commitAll_cons hnext rest).trans hstore', hr''⟩

theorem saveBlockRecord_succeeds (block : Block) (entry : ChainIndexEntry)
    (bestTip : Option BlockHash) : Succeeds (saveBlockRecord block entry bestTip) :=
  fun _ hr => ⟨_, rfl, hr.mempool, hr.transactions⟩

theorem saveActiveUtxos_eq (utxos : UtxoSet) (hk : utxos.Keyed) (store : SqliteStore) :
    saveActiveUtxos utxos store =
      .ok { store with activeUtxos := HashMap.new.insertAll (utxos.iter.map utxoRow) } := by
  rw [saveActiveUtxos, (activeUtxos_roundTrip utxos hk).1]
  rfl

theorem saveActiveUtxos_succeeds (utxos : UtxoSet) (hk : utxos.Keyed) :
    Succeeds (saveActiveUtxos utxos) := fun store hr =>
  ⟨_, saveActiveUtxos_eq utxos hk store, hr.mempool, hr.transactions⟩

theorem deleteStaleMempoolTransactions_eq (mempool : Mempool) (store : SqliteStore)
    (hr : store.Readable) :
    ∃ persisted transactions, deleteStaleMempoolTransactions mempool store =
        .ok { store with
          mempoolTransactions :=
            store.mempoolTransactions.removeAll ((stale mempool persisted).map Txid.text)
          transactions := transactions
          transactionKeys := store.transactionKeys.filter fun row =>
            !decide (row.txid ∈ (stale mempool persisted).map Txid.text) } ∧
      (∀ txid, txid ∈ persisted ↔ ∃ tx, store.mempoolTransactions.get txid.text = some tx) ∧
      ∀ t, transactions.get t = (store.transactions.get t).filter fun row =>
        !(decide (t ∈ (stale mempool persisted).map Txid.text) &&
          decide (row.status = .mempool)) := by
  obtain ⟨persisted, hload, hmem⟩ := loadPersistedMempoolTxids_ok store hr.mempool
  obtain ⟨transactions, heq, hget⟩ := deleteStale_loop mempool persisted store
  refine ⟨persisted, transactions, ?_, hmem, hget⟩
  rw [deleteStaleMempoolTransactions, hload, Res.ok_bind, heq]
  rfl

theorem deleteStaleMempoolTransactions_succeeds (mempool : Mempool) :
    Succeeds (deleteStaleMempoolTransactions mempool) := by
  intro store hr
  obtain ⟨persisted, transactions, heq, -, hget⟩ :=
    deleteStaleMempoolTransactions_eq mempool store hr
  refine ⟨_, heq, ?_, ?_⟩
  · intro t tx ht
    rw [HashMap.get_removeAll] at ht
    split_ifs at ht
    exact hr.mempool t tx ht
  · intro t row ht
    rw [hget t, Option.filter_eq_some_iff] at ht
    exact hr.transactions t row ht.1

theorem saveMempool_succeeds (mempool : Mempool)
    (hrows : Sql.insertAll SqliteStoreError.sqlite HashMap.new (mempool.iter.map mempoolRow) =
      .ok (HashMap.new.insertAll (mempool.iter.map mempoolRow))) :
    Succeeds (saveMempool mempool) := by
  intro store hr
  rw [saveMempool, hrows]
  refine ⟨_, rfl, ?_, hr.transactions⟩
  intro t tx ht
  have hkey : ∀ a b, (mempoolRow a).1 = (mempoolRow b).1 → a.1 = b.1 :=
    fun a b h => Txid.text_injective h
  obtain ⟨txid, tx', -, henc⟩ := (Sql.get_rows mempool mempoolRow hkey t tx).mp ht
  exact ⟨txid, (congrArg Prod.fst henc).symm⟩

theorem get_transactionRows (items : List IndexedTransaction)
    (hn : (items.map IndexedTransaction.txid).Nodup) (t : Text) (row : TransactionRow) :
    (HashMap.new.insertAll (items.map transactionRow)).get t = some row ↔
      ∃ item ∈ items, transactionRow item = (t, row) := by
  rw [HashMap.get_new_insertAll_iff _ (transactionRow_keys_nodup items hn), List.mem_map]

theorem saveTransactionIndex_eq (items : List IndexedTransaction)
    (edges : List TransactionKeyEdge) (hn : (items.map IndexedTransaction.txid).Nodup)
    (store : SqliteStore) :
    saveTransactionIndex items edges store = .ok { store with
      transactions := HashMap.new.insertAll (items.map transactionRow)
      transactionKeys := edges.map edgeRow } := by
  rw [saveTransactionIndex, insert_transactionRows items hn]
  rfl

/-- The block hash of a row that is written can be read back. -/
theorem readable_row (item : IndexedTransaction) (t : Text) (row : TransactionRow)
    (hrow : transactionRow item = (t, row)) (value : Text) (hv : row.blockHash = some value) :
    ∃ hash : BlockHash, value = hash.text := by
  obtain rfl : (transactionRow item).2 = row := congrArg Prod.snd hrow
  obtain ⟨hash, -, rfl⟩ := Option.map_eq_some_iff.mp hv
  exact ⟨hash, rfl⟩

theorem saveTransactionIndex_succeeds (items : List IndexedTransaction)
    (edges : List TransactionKeyEdge) (hn : (items.map IndexedTransaction.txid).Nodup) :
    Succeeds (saveTransactionIndex items edges) := by
  intro store hr
  refine ⟨_, saveTransactionIndex_eq items edges hn store, hr.mempool, ?_⟩
  intro t row ht value hv
  obtain ⟨item, -, hrow⟩ := (get_transactionRows items hn t row).mp ht
  exact readable_row item t row hrow value hv

variable [Crypto]

theorem saveConfirmedBlockTransactions_eq (store : SqliteStore) (hr : store.Readable)
    (block : Block) (entry : ChainIndexEntry) (items : List IndexedTransaction)
    (edges : List TransactionKeyEdge)
    (hbuild : store.buildConfirmedBlockIndex block entry.blockHash entry.height =
      (.ok (items, edges) : Res SqliteStoreError _)) :
    saveConfirmedBlockTransactions block entry store = .ok { store with
      mempoolTransactions := store.mempoolTransactions.removeAll
        ((items.map IndexedTransaction.txid).map Txid.text)
      transactions := store.transactions.insertAll
        ((items.map store.merged).map transactionRow)
      transactionKeys := (store.transactionKeys.filter fun row =>
        !decide (row.txid ∈ (items.map IndexedTransaction.txid).map Txid.text)) ++
          edges.map edgeRow } := by
  have htxids : (items.map store.merged).map IndexedTransaction.txid =
      items.map IndexedTransaction.txid := by
    rw [List.map_map]
    rfl
  rw [saveConfirmedBlockTransactions, hbuild]
  simp only [Res.ok_bind]
  rw [Res.mapAll_eq _ store.merged items fun item _ => hr.merge_eq item, Res.ok_bind,
    confirmRows_loop, insertTransactionKeyRows_eq, htxids]
  rfl

theorem appendTransactionKeyEdgesWithFallback_eq {ε : Type} (store : SqliteStore)
    (tx : Transaction) (known : HashMap OutPoint TxOut) (hf : tx.Fits true) :
    (store.appendTransactionKeyEdgesWithFallback tx known : Res ε _) =
      .ok (edgesOf (fun o => (known.get o).or (store.loadOutput o)) tx) := by
  rw [← keyEdges_eq _ _ hf, appendTransactionKeyEdgesWithFallback]
  congr 1
  funext o
  cases known.get o <;> rfl

/-- The block's rows are listed whatever is known of the outputs it spends. -/
theorem confirmedFrom_ok {ε : Type} (store : SqliteStore) (blockHash : BlockHash)
    (height position : Nat) (txs : List Transaction) (known : HashMap OutPoint TxOut)
    (hf : ∀ tx ∈ txs, tx.Fits true) :
    ∃ edges, (store.confirmedFrom blockHash height position txs known : Res ε _) =
      .ok (blockItems blockHash height position txs, edges) := by
  induction txs generalizing position known with
  | nil => exact ⟨[], rfl⟩
  | cons tx rest ih =>
    obtain ⟨hft, hfr⟩ := List.forall_mem_cons.mp hf
    obtain ⟨more, hmore⟩ := ih (position + 1) (known.insertAll (tx.outputs.mapIdx
      fun vout output => (⟨tx.id, UInt32.ofNat vout⟩, output))) hfr
    rw [confirmedFrom, appendTransactionKeyEdgesWithFallback_eq _ _ _ hft, rememberOutputs,
      Transaction.txid_eq, if_pos hft]
    simp only [Res.ok_bind, Res.pure_eq_ok, hmore]
    exact ⟨_, rfl⟩

theorem saveConfirmedBlockTransactions_succeeds (block : Block) (entry : ChainIndexEntry)
    (hf : ∀ tx ∈ block.transactions, tx.Fits true) :
    Succeeds (saveConfirmedBlockTransactions block entry) := by
  intro store hr
  obtain ⟨edges, hbuild⟩ := confirmedFrom_ok (ε := SqliteStoreError) store entry.blockHash
    entry.height 0 block.transactions HashMap.new hf
  refine ⟨_, saveConfirmedBlockTransactions_eq store hr block entry _ edges hbuild, ?_, ?_⟩
  · intro t tx ht
    rw [HashMap.get_removeAll] at ht
    split_ifs at ht
    exact hr.mempool t tx ht
  · intro t row ht
    rcases HashMap.get_insertAll_cases store.transactions
      (((blockItems entry.blockHash entry.height 0 block.transactions).map store.merged).map
        transactionRow) t with hold | ⟨row', hmem, hnew⟩
    · exact hr.transactions t row (hold.symm.trans ht)
    · obtain rfl : row' = row := Option.some.inj (hnew.symm.trans ht)
      obtain ⟨item, -, hrow⟩ := List.mem_map.mp hmem
      exact readable_row item t row' hrow

/-- If what the block spends stands in the chain before it or earlier in the block, and the
table has the chain's outputs, its edges are those the index has for it. -/
theorem confirmedFrom_eq {ε : Type} (store : SqliteStore) (blockHash : BlockHash)
    (height position : Nat) (chain before txs : List Transaction)
    (known : HashMap OutPoint TxOut) (hf : ∀ tx ∈ txs, tx.Fits true)
    (hknown : ∀ o, known.get o = outputAt before o)
    (hn : ((chain ++ before ++ txs).map Transaction.id).Nodup)
    (hspends : ∀ b tx a, txs = b ++ tx :: a → ∀ o ∈ tx.spends,
      ∃ tx' ∈ chain ++ before ++ b, tx'.id = o.txid ∧ o.vout.toNat < tx'.outputs.length)
    (hload : ∀ tx ∈ chain, ∀ o, tx.id = o.txid →
      store.loadOutput o = tx.outputs[o.vout.toNat]?) :
    (store.confirmedFrom blockHash height position txs known : Res ε _) =
      .ok (blockItems blockHash height position txs, indexEdges (chain ++ before) txs) := by
  induction txs generalizing position before known with
  | nil => rfl
  | cons tx rest ih =>
    obtain ⟨hft, hfr⟩ := List.forall_mem_cons.mp hf
    have hall : chain ++ before ++ tx :: rest = chain ++ (before ++ [tx]) ++ rest := by simp
    have hcb : ((chain ++ before).map Transaction.id).Nodup :=
      hn.sublist ((List.sublist_append_left _ _).map _)
    have hb : (before.map Transaction.id).Nodup :=
      hcb.sublist ((List.sublist_append_right _ _).map _)
    have hfresh : tx.id ∉ before.map Transaction.id := by
      rw [List.map_append, List.nodup_append] at hn
      intro hmem
      refine hn.2.2 tx.id ?_ tx.id (by simp) rfl
      rw [List.map_append]
      exact List.mem_append_right _ hmem
    have hrest := ih (position + 1) (before ++ [tx])
      (known.insertAll (tx.outputs.mapIdx fun vout output =>
        (⟨tx.id, UInt32.ofNat vout⟩, output))) hfr
      (get_rememberOutputs known before tx hknown hft hfresh) (hall ▸ hn) (by
        intro b tx' a heq o ho
        obtain ⟨tx'', hmem, hid⟩ := hspends (tx :: b) tx' a (by rw [heq]; rfl) o ho
        exact ⟨tx'', by simpa using hmem, hid⟩)
    have hresolve : ∀ o ∈ tx.spends,
        (known.get o).or (store.loadOutput o) = outputAt (chain ++ before) o := by
      intro o ho
      obtain ⟨tx', hmem, hid, hlt⟩ := hspends [] tx rest rfl o ho
      rw [List.append_nil] at hmem
      rw [outputAt_of_mem _ hcb tx' hmem o hid, hknown]
      rcases List.mem_append.mp hmem with hchain | hbefore
      · have hnone : outputAt before o = none := by
          refine outputAt_of_notMem before o ?_
          rw [List.map_append, List.nodup_append] at hcb
          rw [← hid]
          exact fun h => hcb.2.2 _ (List.mem_map_of_mem hchain) _ h rfl
        rw [hnone, Option.none_or]
        exact hload tx' hchain o hid
      · rw [outputAt_of_mem before hb tx' hbefore o hid, List.getElem?_eq_getElem hlt,
          Option.some_or]
    rw [confirmedFrom, appendTransactionKeyEdgesWithFallback_eq _ _ _ hft,
      edgesOf_congr _ _ tx hresolve, rememberOutputs, Transaction.txid_eq, if_pos hft]
    simp only [Res.ok_bind, Res.pure_eq_ok, hrest]
    rw [indexEdges, List.append_assoc chain]
    rfl

end SqliteStore

end Wobble
