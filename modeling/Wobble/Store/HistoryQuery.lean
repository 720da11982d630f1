import Wobble.Store.Holds
import Wobble.Store.WalletIndex

namespace Wobble

open Rust

namespace SqliteStore

/-- `ASC NULLS LAST`. -/
def nullsLast (value : Option Nat) : Nat ×ₗ Nat :=
  toLex (if value.isSome then 0 else 1, value.getD 0)

/-- A row that cannot be read is reported as a conversion failure of the database layer. -/
def readIndexed (entry : Text × TransactionRow) : Res SqliteStoreError IndexedTransaction := do
  let txid ← (parseTxid entry.1).mapErr fun _ => .sqlite
  let blockHash ← match entry.2.blockHash with
    | none => .ok none
    | some value => do
      let hash ← (parseBlockHash value).mapErr fun _ => .sqlite
      .ok (some hash)
  return ⟨txid, entry.2.transaction, blockHash, entry.2.blockHeight, entry.2.positionInBlock,
    entry.2.status, entry.2.firstSeenAt, entry.2.lastUpdatedAt⟩

/-- The join gives a transaction once for each edge of the key. -/
def joinedRows (store : SqliteStore) (key : Bytes) : List (Text × TransactionRow) :=
  store.transactions.iter.flatMap fun entry =>
    (store.transactionKeys.filter fun row => row.txid == entry.1 && row.keyData == key).map
      fun _ => entry

def rowOrder (entry : Text × TransactionRow) : (Nat ×ₗ Nat) ×ₗ (Nat ×ₗ Nat) ×ₗ Text :=
  toLex (nullsLast entry.2.blockHeight,
    toLex (nullsLast (entry.2.positionInBlock.map UInt32.toNat), entry.1))

/-- The `SELECT DISTINCT` for one key. -/
def transactionsForKey (store : SqliteStore) (key : Bytes) :
    Res SqliteStoreError (List IndexedTransaction) :=
  Res.mapAll readIndexed (Sql.orderBy rowOrder (store.joinedRows key).dedup)

/-- A transaction without a block comes at `u64::MAX`. -/
def historyOrder (indexed : IndexedTransaction) : Nat ×ₗ Nat ×ₗ Text :=
  toLex (indexed.blockHeight.getD (2^64 - 1),
    toLex ((indexed.positionInBlock.map UInt32.toNat).getD (2^32 - 1), indexed.txid.text))

def loadTransactionsForKeys (store : SqliteStore) (keys : List Bytes) :
    Res SqliteStoreError (List IndexedTransaction) :=
  if keys.isEmpty then .ok [] else do
  let byTxid ← keys.foldlM (fun byTxid key => do
    let rows ← store.transactionsForKey key
    return byTxid.collect IndexedTransaction.txid rows) HashMap.new
  return Sql.orderBy historyOrder (byTxid.iter.map Prod.snd)

/-- The texts `input` and `output` come in this order. -/
def roleOrder : TransactionKeyRole → Nat
  | .input => 0
  | .output => 1

def edgeOrder (row : TransactionKeyRow) : Nat ×ₗ (Nat ×ₗ Nat) :=
  toLex (roleOrder row.keyRole, nullsLast (row.vout.map UInt32.toNat))

def loadTransactionKeyEdges (store : SqliteStore) (txid : Txid) :
    Res SqliteStoreError (List TransactionKeyEdge) :=
  .ok ((Sql.orderBy edgeOrder
    (store.transactionKeys.filter fun row => row.txid == txid.text)).map fun row =>
      ⟨txid, row.keyRole, row.keyData, row.value, row.vout⟩)

/-- The two tables of the index hold these rows and edges. -/
structure Indexes (store : SqliteStore) (items : List IndexedTransaction)
    (edges : List TransactionKeyEdge) : Prop where
  distinct : (items.map IndexedTransaction.txid).Nodup
  rows : store.transactions = HashMap.new.insertAll (items.map transactionRow)
  keys : store.transactionKeys.Perm (edges.map edgeRow)

/-- Some edge of the transaction is one of these keys. -/
def touches (edges : List TransactionKeyEdge) (keys : List Bytes) (item : IndexedTransaction) :
    Bool :=
  edges.any fun edge => decide (edge.txid = item.txid) && decide (edge.keyData ∈ keys)

theorem touches_eq_true (edges : List TransactionKeyEdge) (keys : List Bytes)
    (item : IndexedTransaction) :
    touches edges keys item = true ↔
      ∃ edge ∈ edges, edge.txid = item.txid ∧ edge.keyData ∈ keys := by
  simp [touches]

theorem readIndexed_transactionRow (item : IndexedTransaction) :
    readIndexed (transactionRow item) = .ok item := by
  obtain ⟨txid, transaction, blockHash, height, position, status, firstSeen, lastUpdated⟩ := item
  cases blockHash with
  | none => simp [readIndexed, transactionRow, parseTxid_text]
  | some hash => simp [readIndexed, transactionRow, parseTxid_text, parseBlockHash_text]

theorem mem_joinedRows (store : SqliteStore) (key : Bytes) (entry : Text × TransactionRow) :
    entry ∈ store.joinedRows key ↔ entry ∈ store.transactions.iter ∧
      ∃ row ∈ store.transactionKeys, row.txid = entry.1 ∧ row.keyData = key := by
  rw [joinedRows, List.mem_flatMap]
  constructor
  · intro h
    obtain ⟨entry', hentry, h⟩ := h
    obtain ⟨row, hrow, rfl⟩ := List.mem_map.mp h
    rw [List.mem_filter] at hrow
    refine ⟨hentry, row, hrow.1, ?_⟩
    simpa using hrow.2
  · intro h
    obtain ⟨hentry, row, hrow, htxid, hkey⟩ := h
    refine ⟨entry, hentry, List.mem_map.mpr ⟨row, ?_, rfl⟩⟩
    rw [List.mem_filter]
    exact ⟨hrow, by simp [htxid, hkey]⟩

section Tables

variable {store : SqliteStore} {items : List IndexedTransaction}
  {edges : List TransactionKeyEdge} (hi : store.Indexes items edges)

include hi

theorem Indexes.mem_iter (entry : Text × TransactionRow) :
    entry ∈ store.transactions.iter ↔ ∃ item ∈ items, transactionRow item = entry := by
  rw [HashMap.mem_iter, hi.rows, get_transactionRows items hi.distinct]

theorem Indexes.item_eq (a : IndexedTransaction) (ha : a ∈ items) (b : IndexedTransaction)
    (hb : b ∈ items) (h : a.txid = b.txid) : a = b :=
  List.inj_on_of_nodup_map hi.distinct ha hb h

theorem Indexes.mem_joined (key : Bytes) (entry : Text × TransactionRow) :
    entry ∈ store.joinedRows key ↔
      ∃ item ∈ items, transactionRow item = entry ∧ touches edges [key] item = true := by
  have hkeys : ∀ item : IndexedTransaction,
      (∃ row ∈ store.transactionKeys, row.txid = item.txid.text ∧ row.keyData = key) ↔
        touches edges [key] item = true := by
    intro item
    rw [touches_eq_true]
    simp only [hi.keys.mem_iff, List.mem_map, List.mem_singleton]
    constructor
    · intro h
      obtain ⟨row, ⟨edge, hedge, rfl⟩, htxid, hkey⟩ := h
      exact ⟨edge, hedge, Txid.text_injective htxid, hkey⟩
    · intro h
      obtain ⟨edge, hedge, htxid, hkey⟩ := h
      exact ⟨edgeRow edge, ⟨edge, hedge, rfl⟩, congrArg Txid.text htxid, hkey⟩
  rw [mem_joinedRows, hi.mem_iter]
  constructor
  · intro h
    obtain ⟨⟨item, hitem, rfl⟩, hrow⟩ := h
    exact ⟨item, hitem, rfl, (hkeys item).mp hrow⟩
  · intro h
    obtain ⟨item, hitem, rfl, htouch⟩ := h
    exact ⟨⟨item, hitem, rfl⟩, (hkeys item).mpr htouch⟩

theorem Indexes.transactionsForKey_eq (key : Bytes) :
    ∃ found, store.transactionsForKey key = .ok found ∧
      ∀ item, item ∈ found ↔ item ∈ items ∧ touches edges [key] item = true := by
  have hmem : ∀ entry, entry ∈ Sql.orderBy rowOrder (store.joinedRows key).dedup ↔
      ∃ item ∈ items, transactionRow item = entry ∧ touches edges [key] item = true := by
    intro entry
    rw [(Sql.orderBy_perm _ _).mem_iff, List.mem_dedup, hi.mem_joined]
  have hread : ∀ entry ∈ Sql.orderBy rowOrder (store.joinedRows key).dedup,
      ∃ item, readIndexed entry = .ok item ∧ (readIndexed entry).toOption = some item := by
    intro entry hentry
    obtain ⟨item, -, rfl, -⟩ := (hmem entry).mp hentry
    have hitem := readIndexed_transactionRow item
    exact ⟨item, hitem, by rw [hitem]; rfl⟩
  refine ⟨_, Res.mapAll_eq_filterMap _ (fun entry => (readIndexed entry).toOption) _ hread, ?_⟩
  intro item
  rw [List.mem_filterMap]
  constructor
  · intro h
    obtain ⟨entry, hentry, hitem⟩ := h
    obtain ⟨item', hmem', rfl, htouch⟩ := (hmem entry).mp hentry
    rw [readIndexed_transactionRow] at hitem
    obtain rfl : item' = item := Option.some.inj hitem
    exact ⟨hmem', htouch⟩
  · intro h
    refine ⟨transactionRow item, (hmem _).mpr ⟨item, h.1, rfl, h.2⟩, ?_⟩
    rw [readIndexed_transactionRow]
    rfl

/-- One key after the other adds the transactions it touches. -/
theorem Indexes.collected (keys : List Bytes) (byTxid : HashMap Txid IndexedTransaction)
    (hm : ∀ txid item, byTxid.get txid = some item → item ∈ items ∧ item.txid = txid) :
    ∃ all, keys.foldlM (fun byTxid key => do
        let rows ← store.transactionsForKey key
        return byTxid.collect IndexedTransaction.txid rows) byTxid = .ok all ∧
      ∀ txid item, all.get txid = some item ↔ byTxid.get txid = some item ∨
        (item ∈ items ∧ touches edges keys item = true) ∧ item.txid = txid := by
  induction keys generalizing byTxid with
  | nil => exact ⟨byTxid, rfl, by simp [touches]⟩
  | cons key rest ih =>
    obtain ⟨found, hfound, hmem⟩ := hi.transactionsForKey_eq key
    have hget := HashMap.get_collect IndexedTransaction.txid items found byTxid hi.item_eq hm
      fun item h => ((hmem item).mp h).1
    have hnext : ∀ txid item, (byTxid.collect IndexedTransaction.txid found).get txid =
        some item → item ∈ items ∧ item.txid = txid := by
      intro txid item h
      rcases (hget txid item).mp h with h | h
      · exact hm txid item h
      · exact ⟨((hmem item).mp h.1).1, h.2⟩
    have hcons : ∀ item, touches edges (key :: rest) item = true ↔
        touches edges [key] item = true ∨ touches edges rest item = true := by
      intro item
      simp only [touches_eq_true, List.mem_cons, List.not_mem_nil, or_false]
      grind
    obtain ⟨all, hall, hspec⟩ := ih _ hnext
    refine ⟨all, ?_, ?_⟩
    · rw [List.foldlM_cons, hfound]
      exact hall
    · intro txid item
      rw [hspec, hget, hmem, hcons]
      tauto

/-- Each transaction that touches one of the keys is returned once. -/
theorem Indexes.loadTransactionsForKeys_eq (keys : List Bytes) :
    store.loadTransactionsForKeys keys =
      .ok (Sql.orderBy historyOrder (items.filter (touches edges keys))) := by
  rw [loadTransactionsForKeys]
  split_ifs with hempty
  · obtain rfl := List.isEmpty_iff.mp hempty
    have hnone : items.filter (touches edges []) = [] := by simp [touches]
    rw [hnone]
    rfl
  obtain ⟨all, hall, hspec⟩ := hi.collected keys HashMap.new (by simp)
  simp only [HashMap.get_new, reduceCtorEq, false_or] at hspec
  have hentry : ∀ entry ∈ all.iter,
      (entry.2 ∈ items ∧ touches edges keys entry.2 = true) ∧ entry.2.txid = entry.1 := by
    intro entry h
    exact (hspec entry.1 entry.2).mp ((HashMap.mem_iter _ _ _).mp h)
  have hmem : ∀ item, item ∈ all.iter.map Prod.snd ↔
      item ∈ items ∧ touches edges keys item = true := by
    intro item
    constructor
    · intro h
      obtain ⟨entry, he, rfl⟩ := List.mem_map.mp h
      exact (hentry entry he).1
    · intro h
      have hget := (hspec item.txid item).mpr ⟨h, rfl⟩
      exact List.mem_map.mpr ⟨(item.txid, item), (HashMap.mem_iter _ _ _).mpr hget, rfl⟩
  have hinj : ∀ a ∈ all.iter.map Prod.snd, ∀ b ∈ all.iter.map Prod.snd,
      historyOrder a = historyOrder b → a = b := by
    intro a ha b hb heq
    simp only [historyOrder, toLex_inj, Prod.mk.injEq] at heq
    exact hi.item_eq a ((hmem a).mp ha).1 b ((hmem b).mp hb).1 (Txid.text_injective heq.2.2)
  have hnodup : (all.iter.map Prod.snd).Nodup := by
    refine (HashMap.iter_nodup all).map_on ?_
    intro a ha b hb heq
    refine Prod.ext ?_ heq
    rw [← (hentry a ha).2, ← (hentry b hb).2, heq]
  have hperm : (items.filter (touches edges keys)).Perm (all.iter.map Prod.snd) := by
    apply (List.perm_ext_iff_of_nodup (hi.distinct.of_map.filter _) hnodup).mpr
    intro item
    rw [List.mem_filter, hmem]
  rw [hall, Res.ok_bind, Res.pure_eq_ok]
  congr 1
  exact Sql.orderBy_eq historyOrder _ _ ((Sql.orderBy_perm _ _).trans hperm)
    (Sql.orderBy_sorted _ _) hinj

theorem Indexes.loadTransactionKeyEdges_eq (txid : Txid) :
    ∃ found, store.loadTransactionKeyEdges txid = .ok found ∧
      found.Perm (edges.filter fun edge => decide (edge.txid = txid)) := by
  refine ⟨_, rfl, ?_⟩
  have hown : ((edges.map edgeRow).filter fun row => row.txid == txid.text) =
      (edges.filter fun edge => decide (edge.txid = txid)).map edgeRow := by
    rw [List.filter_map]
    congr 1
    apply List.filter_congr
    intro edge _
    rw [Bool.eq_iff_iff, Function.comp_apply, beq_iff_eq, decide_eq_true_iff]
    exact Txid.text_injective.eq_iff
  have hrows := (Sql.orderBy_perm edgeOrder _).trans
    ((hi.keys.filter fun row => row.txid == txid.text).trans (.of_eq hown))
  refine (hrows.map _).trans (.of_eq ?_)
  rw [List.map_map]
  refine (List.map_congr_left ?_).trans (List.map_id _)
  intro edge hedge
  obtain rfl : edge.txid = txid := by simpa using (List.mem_filter.mp hedge).2
  rfl

end Tables

end SqliteStore

section History

variable [Crypto]

/-- One of the outputs of the transaction, or of those it spends, is locked to one of the keys. -/
def Transaction.involves (chain : List Transaction) (keys : List Bytes) (tx : Transaction) : Bool :=
  tx.outputs.any (fun output => decide (output.lockingData ∈ keys)) ||
    tx.spends.any fun outpoint => (outputAt chain outpoint).any fun output =>
      decide (output.lockingData ∈ keys)

theorem Transaction.involves_iff (chain : List Transaction) (keys : List Bytes)
    (tx : Transaction) :
    tx.involves chain keys = true ↔
      ∃ edge ∈ edgesOf (outputAt chain) tx, edge.keyData ∈ keys := by
  simp only [involves, Bool.or_eq_true, List.any_eq_true, decide_eq_true_eq, Option.any_eq_true,
    edgesOf, List.mem_append, List.mem_filterMap, Option.map_eq_some_iff, List.mem_mapIdx,
    Transaction.spends, List.mem_map]
  constructor
  · intro h
    rcases h with ⟨output, hout, hkey⟩ | ⟨outpoint, ⟨input, hinput, rfl⟩, output, hout, hkey⟩
    · obtain ⟨i, hlt, rfl⟩ := List.getElem_of_mem hout
      exact ⟨_, .inr ⟨i, hlt, rfl⟩, hkey⟩
    · exact ⟨_, .inl ⟨input, hinput, output, hout, rfl⟩, hkey⟩
  · intro h
    obtain ⟨edge, ⟨input, hinput, output, hout, rfl⟩ | ⟨i, hlt, rfl⟩, hkey⟩ := h
    · exact .inr ⟨_, ⟨input, hinput, rfl⟩, output, hout, hkey⟩
    · exact .inl ⟨_, List.getElem_mem hlt, hkey⟩

theorem historyOrder_blockItems (blockHash : BlockHash) (height position : Nat)
    (txs : List Transaction) (hfit : position + txs.length ≤ 2^32) :
    (blockItems blockHash height position txs).Pairwise fun a b =>
      SqliteStore.historyOrder a ≤ SqliteStore.historyOrder b := by
  induction txs generalizing position with
  | nil => exact .nil
  | cons tx rest ih =>
    rw [List.length_cons] at hfit
    rw [blockItems, List.pairwise_cons]
    refine ⟨?_, ih (position + 1) (by omega)⟩
    intro row hrow
    obtain ⟨i, tx', hi, rfl⟩ := (mem_blockItems _ _ _ _ _).mp hrow
    have hlt := (List.getElem?_eq_some_iff.mp hi).1
    apply le_of_lt
    rw [SqliteStore.historyOrder, SqliteStore.historyOrder, Prod.Lex.toLex_lt_toLex,
      Prod.Lex.toLex_lt_toLex]
    refine .inr ⟨rfl, .inl ?_⟩
    simp only [Option.map_some, Option.getD_some, UInt32.toNat_ofNat']
    omega

namespace NodeState

variable {s : NodeState} {entries : List ChainIndexEntry}

/-- The ids on the chain are distinct, and its heights and positions fit the integers that the
database orders them by. -/
structure HistoryFits (s : NodeState) (entries : List ChainIndexEntry) : Prop where
  ids : ((s.transactionsOn entries).map Transaction.id).Nodup
  heights : entries.length < 2^64
  positions : ∀ entry ∈ entries, ∀ block, s.blocks.get entry.blockHash = some block →
    block.transactions.length ≤ 2^32

theorem Sound.heights_eq (hs : s.Sound) (hes : s.chain.bestChainEntries = some entries) :
    entries.map ChainIndexEntry.height = List.range entries.length := by
  obtain ⟨log, hi⟩ := hs.index
  obtain ⟨chain, hchain, -, hheights⟩ := hi.bestChainEntries_eq
  obtain rfl := Option.some.inj (hes.symm.trans hchain)
  cases hlast : entries.getLast? with
  | none =>
    obtain rfl := List.getLast?_eq_none_iff.mp hlast
    rfl
  | some tip =>
    have hmap := hheights tip hlast
    have hlen := congrArg List.length hmap
    rw [List.length_map, List.length_range] at hlen
    rw [hmap, hlen]

theorem Sound.chainItems_sorted (hs : s.Sound) (hes : s.chain.bestChainEntries = some entries)
    (hfit : s.HistoryFits entries) :
    (s.chainItems entries).Pairwise fun a b =>
      SqliteStore.historyOrder a ≤ SqliteStore.historyOrder b := by
  have hheights : entries.Pairwise fun a b => a.height < b.height := by
    rw [← List.pairwise_map, hs.heights_eq hes]
    exact List.pairwise_lt_range
  rw [chainItems, List.pairwise_flatMap]
  constructor
  · intro entry hentry
    cases hblock : s.blocks.get entry.blockHash with
    | none => exact .nil
    | some block =>
      apply historyOrder_blockItems
      have hle := hfit.positions entry hentry block hblock
      omega
  · refine hheights.imp ?_
    intro a b hlt x hx y hy
    have hheight : ∀ (entry : ChainIndexEntry) (row : IndexedTransaction),
        row ∈ ((s.blocks.get entry.blockHash).elim [] fun block =>
          blockItems entry.blockHash entry.height 0 block.transactions) →
        row.blockHeight = some entry.height := by
      intro entry row hrow
      cases hblock : s.blocks.get entry.blockHash with
      | none => simp [hblock] at hrow
      | some block =>
        rw [hblock, Option.elim_some, mem_blockItems] at hrow
        obtain ⟨i, tx, -, rfl⟩ := hrow
        rfl
    apply le_of_lt
    rw [SqliteStore.historyOrder, SqliteStore.historyOrder, hheight a x hx, hheight b y hy,
      Prod.Lex.toLex_lt_toLex]
    exact .inl hlt

theorem Complete.holds_indexes (hc : s.Complete) (hes : s.chain.bestChainEntries = some entries)
    (hn : ((s.transactionsOn entries).map Transaction.id).Nodup) (store : SqliteStore)
    (hstore : store.Holds s) :
    store.Indexes (s.chainItems entries ++ s.freshItems entries)
      ((s.rowed entries).flatMap (edgesOf (outputAt (s.transactionsOn entries)))) := by
  have hs := hc.sound
  have hrows := hs.rows_nodup hn
  have hsame := (SqliteStore.holds_iff hs store _ _
    (hs.buildTransactionIndex_fresh entries hes hn) hrows).mp hstore
  refine ⟨hrows, hsame.transactions, ?_⟩
  rw [← hc.indexEdges_rowed hes hn]
  exact hsame.transactionKeys

theorem Sound.row_id (hs : s.Sound) (row : IndexedTransaction)
    (hrow : row ∈ s.chainItems entries ++ s.freshItems entries) :
    row.transaction.id = row.txid := by
  rcases List.mem_append.mp hrow with hrow | hrow
  · exact (hs.chainItems_keyed entries row hrow).2
  · exact (hs.freshItems_get row hrow).2.1

theorem row_mem_rowed (row : IndexedTransaction)
    (hrow : row ∈ s.chainItems entries ++ s.freshItems entries) :
    row.transaction ∈ s.rowed entries := by
  rw [rowed, ← chainItems_transaction, ← List.map_append]
  exact List.mem_map_of_mem hrow

theorem historyOrder_freshItems (row : IndexedTransaction) (hrow : row ∈ s.freshItems entries) :
    SqliteStore.historyOrder row = toLex (2^64 - 1, toLex (2^32 - 1, row.txid.text)) := by
  obtain ⟨entry, -, rfl⟩ := List.mem_map.mp (List.mem_of_mem_filter hrow)
  rfl

/-- Confirmed transactions come before the pending ones. -/
theorem Sound.chainItems_before (hs : s.Sound) (hes : s.chain.bestChainEntries = some entries)
    (hlen : entries.length < 2^64) (row : IndexedTransaction) (hrow : row ∈ s.chainItems entries)
    (pending : IndexedTransaction) (hpending : pending ∈ s.freshItems entries) :
    SqliteStore.historyOrder row ≤ SqliteStore.historyOrder pending := by
  obtain ⟨entry, hentry, block, position, tx, -, -, rfl⟩ := (s.mem_chainItems entries row).mp hrow
  have hheight : entry.height ∈ List.range entries.length := by
    rw [← hs.heights_eq hes]
    exact List.mem_map_of_mem hentry
  rw [List.mem_range] at hheight
  rw [historyOrder_freshItems pending hpending]
  apply le_of_lt
  rw [SqliteStore.historyOrder, Prod.Lex.toLex_lt_toLex]
  left
  simp only [Option.getD_some]
  omega

theorem Complete.touches_eq (hc : s.Complete) (hn : ((s.transactionsOn entries).map
      Transaction.id).Nodup) (keys : List Bytes) (row : IndexedTransaction)
    (hrow : row ∈ s.chainItems entries ++ s.freshItems entries) :
    SqliteStore.touches
        ((s.rowed entries).flatMap (edgesOf (outputAt (s.transactionsOn entries)))) keys row =
      row.transaction.involves (s.transactionsOn entries) keys := by
  have hs := hc.sound
  have hkeyed := (hs.row_id row hrow).symm
  have hown := filter_flatMap_txid (outputAt (s.transactionsOn entries)) _ (hs.rowed_ids hn) _
    (row_mem_rowed row hrow)
  rw [Bool.eq_iff_iff, SqliteStore.touches_eq_true, Transaction.involves_iff, ← hown, hkeyed]
  simp only [List.mem_filter, decide_eq_true_eq, and_assoc]

/-- The order of the query puts the chain first, and then the pending transactions by their ids. -/
theorem Sound.orderBy_history (hs : s.Sound) (hes : s.chain.bestChainEntries = some entries)
    (hfit : s.HistoryFits entries) (store : SqliteStore) (edges : List TransactionKeyEdge)
    (hi : store.Indexes (s.chainItems entries ++ s.freshItems entries) edges)
    (p : IndexedTransaction → Bool) :
    Sql.orderBy SqliteStore.historyOrder ((s.chainItems entries ++ s.freshItems entries).filter p) =
      (s.chainItems entries).filter p ++
        Sql.orderBy (fun row => row.txid.text) ((s.freshItems entries).filter p) := by
  apply Sql.orderBy_eq
  · rw [List.filter_append]
    exact (Sql.orderBy_perm _ _).append_left _
  · rw [List.pairwise_append]
    refine ⟨(hs.chainItems_sorted hes hfit).filter _, ?_, ?_⟩
    · refine (Sql.orderBy_sorted _ _).imp_of_mem ?_
      intro a b ha hb hle
      rw [(Sql.orderBy_perm _ _).mem_iff] at ha hb
      rw [historyOrder_freshItems a (List.mem_of_mem_filter ha),
        historyOrder_freshItems b (List.mem_of_mem_filter hb)]
      simpa [Prod.Lex.toLex_le_toLex] using hle
    · intro a ha b hb
      rw [(Sql.orderBy_perm _ _).mem_iff] at hb
      exact hs.chainItems_before hes hfit.heights a (List.mem_of_mem_filter ha) b
        (List.mem_of_mem_filter hb)
  · intro a ha b hb heq
    simp only [SqliteStore.historyOrder, toLex_inj, Prod.mk.injEq] at heq
    exact hi.item_eq a (List.mem_of_mem_filter ha) b (List.mem_of_mem_filter hb)
      (Txid.text_injective heq.2.2)

/-- The history of some keys: the transactions of the best chain that involve one of them, in the
order of the chain, and then the pending ones that are not on the chain, in the order of their
ids. -/
theorem history_in_chain_order [Profile] (s : NodeState) (hr : s.OkReachable)
    (entries : List ChainIndexEntry) (hes : s.chain.bestChainEntries = some entries)
    (hfit : s.HistoryFits entries) (store : SqliteStore) (hstore : store.Holds s)
    (keys : List Bytes) :
    store.loadTransactionsForKeys keys =
      .ok (((s.chainItems entries).filter fun row =>
          row.transaction.involves (s.transactionsOn entries) keys) ++
        Sql.orderBy (fun row => row.txid.text) ((s.freshItems entries).filter fun row =>
          row.transaction.involves (s.transactionsOn entries) keys)) := by
  have hc := hr.complete
  have hi := hc.holds_indexes hes hfit.ids store hstore
  rw [hi.loadTransactionsForKeys_eq, List.filter_congr (hc.touches_eq hfit.ids keys),
    hc.sound.orderBy_history hes hfit store _ hi]

end NodeState

end History

section SampleHistory

open NodeState

attribute [local instance] NodeState.sampleCrypto NodeState.sampleProfile

/-- `HistoryFits`, by computation. -/
def NodeState.historyFits [Crypto] (s : NodeState) (entries : List ChainIndexEntry) : Bool :=
  decide ((s.transactionsOn entries).map Transaction.id).Nodup && decide (entries.length < 2^64) &&
    entries.all fun entry => (s.blocks.get entry.blockHash).all fun block =>
      decide (block.transactions.length ≤ 2^32)

theorem NodeState.historyFits_of_eq_true [Crypto] (s : NodeState) (entries : List ChainIndexEntry)
    (h : s.historyFits entries = true) : s.HistoryFits entries := by
  simp only [historyFits, Bool.and_eq_true, decide_eq_true_eq, List.all_eq_true,
    Option.all_eq_true] at h
  exact ⟨h.1.1, h.1.2, h.2⟩

/-- The best chain of the sample state. -/
def sampleEntries : List ChainIndexEntry := (sampleState.chain.bestChainEntries).getD []

theorem sampleEntries_eq : sampleState.chain.bestChainEntries = some sampleEntries := by
  decide +kernel

/-- All four transactions are the key's, the pending one last. -/
theorem sampleState_history :
    (savedStore sampleState).loadTransactionsForKeys [sampleLock] =
      .ok (((sampleState.chainItems sampleEntries).filter fun row =>
          row.transaction.involves (sampleState.transactionsOn sampleEntries) [sampleLock]) ++
        Sql.orderBy (fun row => row.txid.text)
          ((sampleState.freshItems sampleEntries).filter fun row =>
            row.transaction.involves (sampleState.transactionsOn sampleEntries) [sampleLock])) ∧
      (((sampleState.chainItems sampleEntries).filter fun row =>
        row.transaction.involves (sampleState.transactionsOn sampleEntries)
          [sampleLock]).map IndexedTransaction.transaction) =
        [sampleCoinbase, sampleReward, samplePayment] := by
  refine ⟨?_, by decide +kernel⟩
  exact history_in_chain_order sampleState sampleState_okReachable sampleEntries sampleEntries_eq
    (historyFits_of_eq_true _ _ (by decide +kernel)) _
    (savedStore_holds sampleState_okReachable.complete.sound) _

end SampleHistory

end Wobble
