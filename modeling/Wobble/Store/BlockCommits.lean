import Wobble.Store.BestChain
import Wobble.Store.IndexUpdate

namespace Wobble

open Rust GrowingTree

namespace SqliteStore

section Commits

/-- The database once the block, the active coins and the deletions have been committed. -/
def pruned (store : SqliteStore) (s : NodeState) (b : Block) (entry : ChainIndexEntry)
    (tip : BlockHash) (gone : List Txid) (transactions : HashMap Text TransactionRow) :
    SqliteStore :=
  { store with
    blocks := store.blocks.insert entry.blockHash.text b
    chainEntries := store.chainEntries.insert entry.blockHash.text (entryRow entry)
    metadata := store.metadata.insert bestTipKey tip.text
    activeUtxos := HashMap.new.insertAll (s.activeUtxos.iter.map utxoRow)
    mempoolTransactions := store.mempoolTransactions.removeAll (gone.map Txid.text)
    transactions := transactions
    transactionKeys := store.transactionKeys.filter fun row =>
      !decide (row.txid ∈ gone.map Txid.text) }

theorem commitAll_pruned (store : SqliteStore) (s : NodeState) (b : Block)
    (entry : ChainIndexEntry) (tip : BlockHash) (htip : s.chain.bestTip = some tip)
    (hk : s.activeUtxos.Keyed) (hr : store.Readable) (rest : List Commit) :
    ∃ persisted transactions,
      commitAll (saveBlockRecord b entry s.chain.bestTip :: saveActiveUtxos s.activeUtxos ::
          deleteStaleMempoolTransactions s.mempool :: rest) store =
        commitAll rest (store.pruned s b entry tip (stale s.mempool persisted) transactions) ∧
      (store.pruned s b entry tip (stale s.mempool persisted) transactions).Readable ∧
      (∀ txid, txid ∈ persisted ↔ ∃ tx, store.mempoolTransactions.get txid.text = some tx) ∧
      ∀ t, transactions.get t = (store.transactions.get t).filter fun row =>
        !(decide (t ∈ (stale s.mempool persisted).map Txid.text) &&
          decide (row.status = .mempool)) := by
  let store₁ : SqliteStore := { store with
    blocks := store.blocks.insert entry.blockHash.text b
    chainEntries := store.chainEntries.insert entry.blockHash.text (entryRow entry)
    metadata := store.metadata.insert bestTipKey tip.text
    activeUtxos := HashMap.new.insertAll (s.activeUtxos.iter.map utxoRow) }
  have hr₁ : store₁.Readable := ⟨hr.mempool, hr.transactions⟩
  obtain ⟨persisted, transactions, heq, hmem, hget⟩ :=
    deleteStaleMempoolTransactions_eq s.mempool store₁ hr₁
  refine ⟨persisted, transactions, ?_, ⟨?_, ?_⟩, hmem, hget⟩
  · have hrecord : saveBlockRecord b entry s.chain.bestTip store = .ok { store with
        blocks := store.blocks.insert entry.blockHash.text b
        chainEntries := store.chainEntries.insert entry.blockHash.text (entryRow entry)
        metadata := store.metadata.insert bestTipKey tip.text } := by
      rw [htip]
      rfl
    rw [commitAll_cons hrecord, commitAll_cons (saveActiveUtxos_eq s.activeUtxos hk _)]
    exact commitAll_cons heq rest
  · intro t tx ht
    rw [pruned, HashMap.get_removeAll] at ht
    split_ifs at ht
    exact hr.mempool t tx ht
  · intro t row ht
    rw [pruned, hget t, Option.filter_eq_some_iff] at ht
    exact hr.transactions t row ht.1

variable [Crypto]

omit [Crypto] in
theorem loadOutput_of_rows (store : SqliteStore) (items : List IndexedTransaction)
    (hn : (items.map IndexedTransaction.txid).Nodup)
    (hrows : store.transactions = HashMap.new.insertAll (items.map transactionRow))
    (item : IndexedTransaction) (hi : item ∈ items) (o : OutPoint) (hid : item.txid = o.txid) :
    store.loadOutput o = item.transaction.outputs[o.vout.toNat]? := by
  have hget := (get_transactionRows items hn item.txid.text (transactionRow item).2).mpr
    ⟨item, hi, rfl⟩
  rw [loadOutput, hrows, ← hid, hget, Option.bind_some]
  rfl

/-- The last commit of the fast path, on a table that holds rows of transactions with distinct
ids, those of the chain before the block among them. -/
theorem saveConfirmed_on_rows (store : SqliteStore) (hr : store.Readable) (b : Block)
    (entry : ChainIndexEntry) (items chain : List IndexedTransaction)
    (hn : (items.map IndexedTransaction.txid).Nodup) (hk : KeyedItems chain)
    (hrows : store.transactions = HashMap.new.insertAll (items.map transactionRow))
    (hfirst : ∀ item ∈ items, item.firstSeenAt = none) (hchain : ∀ item ∈ chain, item ∈ items)
    (hf : ∀ tx ∈ b.transactions, tx.Fits true)
    (hids : ((chain.map IndexedTransaction.transaction ++ b.transactions).map
      Transaction.id).Nodup)
    (hspends : ∀ before tx after, b.transactions = before ++ tx :: after → ∀ o ∈ tx.spends,
      ∃ tx' ∈ chain.map IndexedTransaction.transaction ++ before,
        tx'.id = o.txid ∧ o.vout.toNat < tx'.outputs.length) :
    saveConfirmedBlockTransactions b entry store = .ok { store with
      mempoolTransactions := store.mempoolTransactions.removeAll
        ((b.transactions.map Transaction.id).map Txid.text)
      transactions := store.transactions.insertAll
        ((blockItems entry.blockHash entry.height 0 b.transactions).map transactionRow)
      transactionKeys := (store.transactionKeys.filter fun row =>
        !decide (row.txid ∈ (b.transactions.map Transaction.id).map Txid.text)) ++
          (indexEdges (chain.map IndexedTransaction.transaction) b.transactions).map edgeRow } := by
  have hload : ∀ tx ∈ chain.map IndexedTransaction.transaction, ∀ o : OutPoint,
      tx.id = o.txid → store.loadOutput o = tx.outputs[o.vout.toNat]? := by
    intro tx ht o hid
    obtain ⟨item, hi, rfl⟩ := List.mem_map.mp ht
    exact store.loadOutput_of_rows items hn hrows item (hchain item hi) o
      ((hk item hi).2.symm.trans hid)
  have hbuild := confirmedFrom_eq (ε := SqliteStoreError) store entry.blockHash entry.height 0
    (chain.map IndexedTransaction.transaction) [] b.transactions HashMap.new hf
    (by simp [outputAt]) (by rw [List.append_nil]; exact hids)
    (by rw [List.append_nil]; exact hspends) hload
  rw [List.append_nil] at hbuild
  have hmerged : ∀ item ∈ blockItems entry.blockHash entry.height 0 b.transactions,
      store.merged item = item := by
    intro item hi
    have hsame : (store.transactions.get item.txid.text).elim item.firstSeenAt
        TransactionRow.firstSeenAt = item.firstSeenAt := by
      rw [blockItems_firstSeenAt _ _ 0 _ item hi]
      cases hrow : store.transactions.get item.txid.text with
      | none => rfl
      | some row =>
        rw [hrows] at hrow
        obtain ⟨other, ho, heq⟩ := (get_transactionRows items hn _ row).mp hrow
        obtain rfl : (transactionRow other).2 = row := congrArg Prod.snd heq
        exact hfirst other ho
    rw [merged, hsame]
  rw [saveConfirmedBlockTransactions_eq store hr b entry _ _ hbuild, List.map_congr_left hmerged,
    List.map_id', blockItems_txid]

end Commits

section FastPath

variable [Crypto] {pre post : NodeState} {entry : ChainIndexEntry} {b : Block} {u : UtxoSet}

omit [Crypto] in
theorem saveBestTip_insert (old : Option BlockHash) (tip : BlockHash) :
    (saveBestTip HashMap.new old).insert bestTipKey tip.text =
      saveBestTip HashMap.new (some tip) := by
  cases old with
  | none => rfl
  | some old =>
    refine HashMap.ext _ _ fun t => ?_
    by_cases ht : t = bestTipKey <;> simp [saveBestTip, ht]

/-- The first commit brings blocks, entries and tip up to date. -/
theorem recorded (acc : NodeState.Accepted pre post entry b u) (store : SqliteStore)
    (items : List IndexedTransaction) (edges : List TransactionKeyEdge)
    (hsame : store.SameTables (snapshot pre items edges)) (tip : BlockHash)
    (htip : post.chain.bestTip = some tip) :
    store.blocks.insert entry.blockHash.text b =
        HashMap.new.insertAll (post.blocks.iter.map blockRow) ∧
      store.chainEntries.insert entry.blockHash.text (entryRow entry) =
        HashMap.new.insertAll (post.chain.entries.iter.map chainEntryRow) ∧
      store.metadata.insert bestTipKey tip.text = saveBestTip HashMap.new post.chain.bestTip := by
  refine ⟨?_, ?_, ?_⟩
  · rw [hsame.blocks, acc.blocks]
    exact Sql.rows_insert pre.blocks blockRow blockRow_key entry.blockHash b
  · rw [hsame.chainEntries, acc.entries]
    exact Sql.rows_insert pre.chain.entries chainEntryRow chainEntryRow_key entry.blockHash entry
  · rw [hsame.metadata, htip]
    exact saveBestTip_insert pre.chain.bestTip tip

/-- The ids that were pending before the block and are not any more. -/
def Left (pre post : NodeState) (gone : List Txid) : Prop :=
  ∀ txid, txid ∈ gone ↔
    (∃ tx, pre.mempool.get txid = some tx) ∧ post.mempool.get txid = none

omit [Crypto] in
theorem persisted_iff (pool : Mempool) (txid : Txid) :
    (∃ tx, (HashMap.new.insertAll (pool.iter.map mempoolRow)).get txid.text = some tx) ↔
      ∃ tx, pool.get txid = some tx := by
  refine exists_congr fun tx => ?_
  rw [Sql.get_rows pool mempoolRow fun a b h => Txid.text_injective h]
  constructor
  · intro h
    obtain ⟨k, r, hget, henc⟩ := h
    obtain ⟨ht, rfl⟩ := Prod.mk.inj henc
    rwa [← Txid.text_injective ht]
  · intro h
    exact ⟨txid, tx, h, rfl⟩

omit [Crypto] in
theorem stale_left (persisted : List Txid)
    (hp : ∀ txid, txid ∈ persisted ↔ ∃ tx, pre.mempool.get txid = some tx) :
    Left pre post (stale post.mempool persisted) := by
  intro txid
  rw [stale, List.mem_filter, hp, Bool.not_eq_true', HashMap.containsKey_eq_false]

/-- What a block spends stands on its branch before it, or earlier in the block. -/
theorem spends_on_path (hpost : post.Sound) (es : List ChainIndexEntry)
    (hpath : Path entryView post.chain.get (some entry.blockHash) (es ++ [entry]))
    (hb : post.blocks.get entry.blockHash = some b)
    (hu : post.utxoSnapshots.get entry.blockHash = some u)
    (hn : ((post.transactionsOn es ++ b.transactions).map Transaction.id).Nodup)
    (before after : List Transaction) (tx : Transaction)
    (hsplit : b.transactions = before ++ tx :: after) (o : OutPoint) (ho : o ∈ tx.spends) :
    ∃ tx' ∈ post.transactionsOn es ++ before,
      tx'.id = o.txid ∧ o.vout.toNat < tx'.outputs.length := by
  have happly := hpost.applyChain_of_path hpath u hu
  have hall : (post.blocksOf (es ++ [entry])).flatMap Block.transactions =
      post.transactionsOn es ++ b.transactions := by
    rw [← post.transactionsOn_singleton entry b hb, ← post.transactionsOn_append]
    rfl
  refine spends_before _ u happly (hall ▸ hn) (post.transactionsOn es ++ before) after tx ?_ o ho
  rw [hall, hsplit, List.append_assoc]

/-- The tables of a state whose transactions all have different ids. -/
theorem holds_iff_indexItems {s : NodeState} (hs : s.Sound) (store : SqliteStore)
    (es : List ChainIndexEntry) (hes : s.chain.bestChainEntries = some es)
    (hn : ((s.transactionsOn es).map Transaction.id ++ s.mempool.iter.map Prod.fst).Nodup) :
    store.Holds s ↔ store.SameTables (snapshot s (s.indexItems es)
      (indexEdges [] (s.transactionsOn es ++ s.mempool.iter.map Prod.snd))) :=
  holds_iff hs store _ _ (hs.buildTransactionIndex_eq es hes hn)
    (by rw [hs.indexItems_txid]; exact hn)

omit [Crypto] in
/-- Ids that are distinct from those of the pool are not pending. -/
theorem pool_free (pool : Mempool) {ids : List Txid}
    (hn : (ids ++ pool.iter.map Prod.fst).Nodup) (txid : Txid) (ht : txid ∈ ids) :
    pool.get txid = none := by
  cases hget : pool.get txid with
  | none => rfl
  | some tx =>
    have hmem := (HashMap.mem_iter_keys pool txid).mpr ⟨tx, hget⟩
    exact absurd rfl ((List.nodup_append.mp hn).2.2 txid ht txid hmem)

/-- The first three commits on tables that hold the state before the block. `kept` are the rows
left once the transactions that have gone from the pool are deleted. -/
theorem commitAll_kept (hpost : post.Sound) (store : SqliteStore) (hr : store.Readable)
    (items kept : List IndexedTransaction) (edges : List TransactionKeyEdge)
    (hsame : store.SameTables (snapshot pre items edges))
    (hni : (items.map IndexedTransaction.txid).Nodup)
    (hnk : (kept.map IndexedTransaction.txid).Nodup)
    (hkept : ∀ gone, Left pre post gone → ∀ item, item ∈ kept ↔
      item ∈ items ∧ ¬ (item.txid ∈ gone ∧ item.status = .mempool))
    (tip : BlockHash) (htip : post.chain.bestTip = some tip) (rest : List Commit) :
    ∃ persisted, (∀ txid, txid ∈ persisted ↔ ∃ tx, pre.mempool.get txid = some tx) ∧
      commitAll (saveBlockRecord b entry post.chain.bestTip ::
          saveActiveUtxos post.activeUtxos :: deleteStaleMempoolTransactions post.mempool ::
          rest) store =
        commitAll rest (store.pruned post b entry tip (stale post.mempool persisted)
          (HashMap.new.insertAll (kept.map transactionRow))) ∧
      (store.pruned post b entry tip (stale post.mempool persisted)
        (HashMap.new.insertAll (kept.map transactionRow))).Readable := by
  obtain ⟨persisted, transactions, hrun, hrp, hmem, hget⟩ := commitAll_pruned store post b entry
    tip htip (active_keyed hpost) hr rest
  have hp : ∀ txid, txid ∈ persisted ↔ ∃ tx, pre.mempool.get txid = some tx := by
    intro txid
    rw [hmem, hsame.mempoolTransactions]
    exact persisted_iff pre.mempool txid
  obtain rfl : transactions = HashMap.new.insertAll (kept.map transactionRow) := by
    refine transactionRows_filter items kept _ hni hnk (hkept _ (stale_left persisted hp))
      transactions ?_
    intro t
    rw [hget t, hsame.transactions]
    rfl
  exact ⟨persisted, hp, hrun, hrp⟩

/-- The fast path on a block of the best chain. -/
theorem save_on_chain (hpost : post.Sound) (acc : NodeState.Accepted pre post entry b u)
    (store : SqliteStore) (hr : store.Readable) (items kept : List IndexedTransaction)
    (edges : List TransactionKeyEdge) (hsame : store.SameTables (snapshot pre items edges))
    (es es' : List ChainIndexEntry)
    (hentries : post.chain.bestChainEntries = some (es ++ entry :: es'))
    (hpath : Path entryView post.chain.get (some entry.blockHash) (es ++ [entry]))
    (hn : ((post.transactionsOn (es ++ entry :: es')).map Transaction.id ++
      post.mempool.iter.map Prod.fst).Nodup)
    (hni : (items.map IndexedTransaction.txid).Nodup)
    (hnk : (kept.map IndexedTransaction.txid).Nodup)
    (hfirst : ∀ item ∈ items, item.firstSeenAt = none)
    (hsub : ∀ txid tx, post.mempool.get txid = some tx → pre.mempool.get txid = some tx)
    (hkept : ∀ gone, Left pre post gone → ∀ item, item ∈ kept ↔
      item ∈ items ∧ ¬ (item.txid ∈ gone ∧ item.status = .mempool))
    (hchain : ∀ item ∈ post.chainItems es, item ∈ kept)
    (hall : ∀ item, item ∈ post.indexItems (es ++ entry :: es') ↔ item ∈ kept ∨
      item ∈ blockItems entry.blockHash entry.height 0 b.transactions)
    (hedges : ∀ gone, Left pre post gone →
      (((edges.filter fun edge => !decide (edge.txid ∈ gone)).filter fun edge =>
          !decide (edge.txid ∈ b.transactions.map Transaction.id)) ++
        indexEdges (post.transactionsOn es) b.transactions).Perm
      (indexEdges [] (post.transactionsOn (es ++ entry :: es') ++
        post.mempool.iter.map Prod.snd))) :
    ∃ store', commitAll [saveBlockRecord b entry post.chain.bestTip,
        saveActiveUtxos post.activeUtxos, deleteStaleMempoolTransactions post.mempool,
        saveConfirmedBlockTransactions b entry] store = (store', .ok ()) ∧ store'.Holds post := by
  have hsplit := post.transactionsOn_split es es' entry b acc.block_get
  have hids : ((post.transactionsOn es ++ b.transactions).map Transaction.id).Nodup := by
    refine hn.sublist ?_
    rw [hsplit, ← List.append_assoc]
    exact ((List.sublist_append_left _ _).map _).trans (List.sublist_append_left _ _)
  have hfree : ∀ txid ∈ b.transactions.map Transaction.id, post.mempool.get txid = none := by
    intro txid ht
    refine pool_free post.mempool hn txid ?_
    rw [hsplit, List.map_append, List.map_append]
    exact List.mem_append_right _ (List.mem_append_left _ ht)
  obtain ⟨tip, htip⟩ := acc.exists_tip hpost
  obtain ⟨persisted, hp, hrun, hrp⟩ := commitAll_kept hpost store hr items kept edges hsame hni hnk
    hkept tip htip [saveConfirmedBlockTransactions b entry]
  have hleft : Left pre post (stale post.mempool persisted) := stale_left persisted hp
  have hconfirmed := saveConfirmed_on_rows _ hrp b entry kept (post.chainItems es) hnk
    (hpost.chainItems_keyed es) rfl (fun item hi => hfirst item ((hkept _ hleft item).mp hi).1)
    hchain (hpost.fits_of_block _ b acc.block_get)
    (by rw [post.chainItems_transaction]; exact hids)
    (by
      rw [post.chainItems_transaction]
      intro before tx after heq o ho
      exact spends_on_path hpost es hpath acc.block_get acc.view hids before after tx heq o ho)
  rw [post.chainItems_transaction] at hconfirmed
  rw [hrun, commitAll_cons hconfirmed]
  refine ⟨_, rfl, ?_⟩
  have hni' := hn
  rw [← hpost.indexItems_txid] at hni'
  have hnb : ((blockItems entry.blockHash entry.height 0 b.transactions).map
      IndexedTransaction.txid).Nodup := by
    rw [blockItems_txid]
    exact hids.sublist ((List.sublist_append_right _ _).map _)
  obtain ⟨hblocks, hchainRows, hmeta⟩ := recorded acc store items edges hsame tip htip
  refine (holds_iff_indexItems hpost _ _ hentries hn).mpr
    ⟨hblocks, hchainRows, rfl, ?_, ?_, ?_, hmeta⟩
  · change ((store.mempoolTransactions.removeAll _).removeAll _) = _
    rw [hsame.mempoolTransactions]
    change ((HashMap.new.insertAll (pre.mempool.iter.map mempoolRow)).removeAll _).removeAll _ = _
    rw [mempoolRows_removeAll, mempoolRows_removeAll,
      pool_removeAll pre.mempool post.mempool persisted _ hp hsub hfree]
    rfl
  · exact transactionRows_insertAll kept _ _ hnk hnb hni' hall
  · change (((store.transactionKeys.filter _).filter _) ++ _).Perm (List.map edgeRow _)
    refine (List.Perm.append_right _ ((hsame.transactionKeys.filter _).filter _)).trans ?_
    change (((((edges.map edgeRow).filter _).filter _) ++ _).Perm _)
    rw [edgeRows_filter, edgeRows_filter, ← List.map_append]
    exact (hedges _ hleft).map edgeRow

end FastPath

end SqliteStore

end Wobble
