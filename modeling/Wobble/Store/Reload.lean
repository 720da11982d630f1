import Wobble.Node.Ownership
import Wobble.Node.Replay
import Wobble.Store.Snapshot

namespace Wobble

open Rust GrowingTree

theorem ChainIndexEntry.sortKey_le (a b : ChainIndexEntry) (h : a.sortKey ≤ b.sortKey) :
    a.height ≤ b.height := by
  rcases Prod.Lex.toLex_le_toLex.mp h with hlt | ⟨heq, -⟩
  · exact hlt.le
  · exact heq.le

theorem ChainIndexEntry.hash_of_sortKey (a b : ChainIndexEntry) (h : a.sortKey = b.sortKey) :
    a.blockHash = b.blockHash :=
  BlockHash.text_injective (Prod.mk.inj (toLex_inj.mp h)).2

namespace NodeState

/-- The entries in the order they are saved and replayed: by height, then by hash. -/
def byHeight (s : NodeState) : List ChainIndexEntry :=
  Sql.orderBy ChainIndexEntry.sortKey (s.chain.entries.iter.map Prod.snd)

section ByHeight

variable [Crypto] {s : NodeState}

theorem Sound.mem_byHeight (hs : s.Sound) (h : BlockHash) (e : ChainIndexEntry) :
    s.chain.get h = some e ↔ e ∈ s.byHeight ∧ e.blockHash = h := by
  rw [byHeight, (Sql.orderBy_perm _ _).mem_iff, List.mem_map]
  constructor
  · intro he
    exact ⟨⟨(h, e), (HashMap.mem_iter _ h e).mpr he, rfl⟩, hs.key h e he⟩
  · intro h
    obtain ⟨⟨⟨h', e'⟩, hmem, he⟩, hkey⟩ := h
    obtain rfl : e' = e := he
    have hget : s.chain.get h' = some e' := (HashMap.mem_iter _ h' e').mp hmem
    rwa [← hkey, hs.key h' e' hget]

theorem Sound.byHeight_perm (hs : s.Sound) (log : List ChainIndexEntry)
    (hi : s.chain.Indexes log) : s.byHeight.Perm log := by
  have hnodup : s.byHeight.Nodup := by
    rw [byHeight, (Sql.orderBy_perm _ _).nodup_iff]
    refine List.Nodup.map_on ?_ (HashMap.iter_nodup _)
    intro a ha b hb hab
    have hka : a.2.blockHash = a.1 := hs.key _ _ ((HashMap.mem_iter _ _ _).mp ha)
    have hkb : b.2.blockHash = b.1 := hs.key _ _ ((HashMap.mem_iter _ _ _).mp hb)
    exact Prod.ext (hka.symm.trans ((congrArg _ hab).trans hkb)) hab
  refine (List.perm_ext_iff_of_nodup hnodup (List.Nodup.of_map _ hi.hashes_nodup)).mpr fun e => ?_
  have hmem := hs.mem_byHeight e.blockHash e
  have hlog := hi.get e.blockHash e
  simp only [and_true] at hmem hlog
  exact hmem.symm.trans hlog

omit [Crypto] in
theorem byHeight_sorted (s : NodeState) :
    s.byHeight.Pairwise fun a b => a.sortKey ≤ b.sortKey :=
  Sql.orderBy_sorted _ _

theorem Sound.byHeight_grown (hs : s.Sound) : Grown entryView s.byHeight := by
  obtain ⟨log, hi⟩ := hs.index
  exact hi.grown.of_sorted s.byHeight (hs.byHeight_perm log hi)
    (s.byHeight_sorted.imp fun h => ChainIndexEntry.sortKey_le _ _ h)

theorem Sound.byHeight_get (hs : s.Sound) (e : ChainIndexEntry) (he : e ∈ s.byHeight) :
    s.chain.get e.blockHash = some e :=
  (hs.mem_byHeight _ e).mpr ⟨he, rfl⟩

theorem Sound.byHeight_block (hs : s.Sound) (e : ChainIndexEntry) (he : e ∈ s.byHeight) :
    ∃ b, s.blocks.get e.blockHash = some b := by
  obtain ⟨b, hb, -⟩ := hs.block_of_entry _ e (hs.byHeight_get e he)
  exact ⟨b, hb⟩

theorem Sound.byHeight_hashes_nodup (hs : s.Sound) :
    (s.byHeight.map ChainIndexEntry.blockHash).Nodup :=
  hs.byHeight_grown.keys_nodup

end ByHeight

end NodeState

namespace SqliteStore

theorem saveEntries_eq (state : NodeState) (entries : List ChainIndexEntry) (store : SqliteStore)
    (hb : ∀ e ∈ entries, ∃ b, state.blocks.get e.blockHash = some b) :
    saveEntries state entries store = .ok { store with
      blocks := store.blocks.insertAll (entries.filterMap fun e =>
        (state.blocks.get e.blockHash).map (Prod.mk e.blockHash.text))
      chainEntries := store.chainEntries.insertAll
        (entries.map fun e => (e.blockHash.text, entryRow e)) } := by
  induction entries generalizing store with
  | nil => rfl
  | cons e rest ih =>
    obtain ⟨⟨b, hb⟩, hrest⟩ := List.forall_mem_cons.mp hb
    rw [saveEntries, hb, Res.okOr_some, Res.ok_bind, ih _ hrest, List.filterMap_cons, hb]
    rfl

theorem get_savedBlocks (state : NodeState) (entries : List ChainIndexEntry)
    (blocks : HashMap Text Block)
    (hb : ∀ e ∈ entries, ∃ b, state.blocks.get e.blockHash = some b) (h : BlockHash)
    (hh : h ∈ entries.map ChainIndexEntry.blockHash ∨
      blocks.get h.text = state.blocks.get h) :
    (blocks.insertAll (entries.filterMap fun e =>
      (state.blocks.get e.blockHash).map (Prod.mk e.blockHash.text))).get h.text =
        state.blocks.get h := by
  induction entries generalizing blocks with
  | nil => exact hh.resolve_left List.not_mem_nil
  | cons e rest ih =>
    obtain ⟨⟨b, hb⟩, hrest⟩ := List.forall_mem_cons.mp hb
    rw [List.filterMap_cons, hb]
    refine ih (blocks.insert e.blockHash.text b) hrest ?_
    rw [HashMap.get_insert]
    by_cases he : h = e.blockHash
    · right
      rw [he, if_pos rfl, hb]
    · rw [if_neg fun ht => he (BlockHash.text_injective ht)]
      exact hh.imp_left fun hm => (List.mem_cons.mp hm).resolve_left he

theorem transactionRow_keys_nodup (transactions : List IndexedTransaction)
    (hnodup : (transactions.map IndexedTransaction.txid).Nodup) :
    ((transactions.map transactionRow).map Prod.fst).Nodup := by
  have hkeys : (transactions.map transactionRow).map Prod.fst =
      (transactions.map IndexedTransaction.txid).map Txid.text := by
    rw [List.map_map, List.map_map]
    rfl
  rw [hkeys]
  exact hnodup.map Txid.text_injective

theorem insert_transactionRows (transactions : List IndexedTransaction)
    (hnodup : (transactions.map IndexedTransaction.txid).Nodup) :
    Sql.insertAll SqliteStoreError.sqlite HashMap.new (transactions.map transactionRow) =
      .ok (HashMap.new.insertAll (transactions.map transactionRow)) :=
  Sql.insertAll_eq _ _ _ (transactionRow_keys_nodup transactions hnodup)
    fun _ _ => HashMap.get_new _

theorem saveIndex_eq (store : SqliteStore) (bestTip : Option BlockHash)
    (transactions : List IndexedTransaction) (edges : List TransactionKeyEdge)
    (hempty : store.transactions = HashMap.new)
    (hnodup : (transactions.map IndexedTransaction.txid).Nodup) :
    store.saveIndex bestTip transactions edges = .ok { store with
      transactions := HashMap.new.insertAll (transactions.map transactionRow)
      transactionKeys := store.transactionKeys ++ edges.map edgeRow
      metadata := saveBestTip store.metadata bestTip } := by
  rw [saveIndex, hempty, insert_transactionRows transactions hnodup]
  rfl

/-- What the tables hold after the state has been saved. -/
structure Saved (store : SqliteStore) (s : NodeState) : Prop where
  blocks : ∀ e ∈ s.byHeight, store.blocks.get e.blockHash.text = s.blocks.get e.blockHash
  chainEntries : store.chainEntries =
    HashMap.new.insertAll (s.byHeight.map fun e => (e.blockHash.text, entryRow e))
  activeUtxos : store.activeUtxos = HashMap.new.insertAll (s.activeUtxos.iter.map utxoRow)
  mempool : store.mempoolTransactions = HashMap.new.insertAll (s.mempool.iter.map mempoolRow)
  bestTip : store.metadata.get bestTipKey = s.chain.bestTip.map BlockHash.text

theorem activeUtxos_roundTrip (utxos : UtxoSet) (hk : utxos.Keyed) :
    Sql.insertAll SqliteStoreError.sqlite HashMap.new (utxos.iter.map utxoRow) =
        .ok (HashMap.new.insertAll (utxos.iter.map utxoRow)) ∧
      ∃ entries,
        Res.mapAll readUtxo (HashMap.new.insertAll (utxos.iter.map utxoRow)).iter =
          .ok entries ∧ HashMap.new.insertAll entries = utxos := by
  refine Sql.load_saved _ utxos utxoRow readUtxo ?_ ?_
  · intro a b hab
    obtain ⟨⟨t, v⟩, x⟩ := a
    obtain ⟨⟨t', v'⟩, x'⟩ := b
    obtain ⟨ht, hv⟩ := UtxoKey.mk.inj hab
    exact OutPoint.mk.injEq t v t' v' ▸ ⟨Txid.text_injective ht, hv⟩
  · intro a ha
    obtain ⟨o, x⟩ := a
    have hout := hk o x ((HashMap.mem_iter utxos o x).mp ha)
    rw [readUtxo, utxoRow, parseTxid_text, Res.ok_bind, ← hout]
    rfl

section RoundTrip

variable [Crypto] {s : NodeState}

theorem mempool_roundTrip (pool : Mempool)
    (hk : ∀ txid tx, pool.get txid = some tx → tx.Fits true ∧ tx.id = txid) :
    Sql.insertAll SqliteStoreError.sqlite HashMap.new (pool.iter.map mempoolRow) =
        .ok (HashMap.new.insertAll (pool.iter.map mempoolRow)) ∧
      ∃ entries,
        Res.mapAll readPending (HashMap.new.insertAll (pool.iter.map mempoolRow)).iter =
          .ok entries ∧ HashMap.new.insertAll entries = pool := by
  refine Sql.load_saved _ pool mempoolRow readPending ?_ ?_
  · intro a b hab
    exact Txid.text_injective hab
  · intro a ha
    obtain ⟨txid, tx⟩ := a
    obtain ⟨hfits, hid⟩ := hk txid tx ((HashMap.mem_iter pool txid tx).mp ha)
    rw [readPending, mempoolRow, parseTxid_text, Res.ok_bind, Transaction.txid_eq, if_pos hfits,
      Res.ok_bind, hid, if_neg (not_not.mpr rfl)]

theorem active_keyed (hs : s.Sound) : s.activeUtxos.Keyed := by
  rcases hs.active with hnew | ⟨h, hu⟩
  · rw [hnew]
    intro o x hx
    cases hx
  · exact hs.keyed_of_view h _ hu

/-- Saving never fails, and what it writes does not depend on what the database held before. -/
theorem saveNodeState_eq (hs : s.Sound) (store : SqliteStore)
    (transactions : List IndexedTransaction) (edges : List TransactionKeyEdge)
    (hbuilt : buildTransactionIndex s = some (.ok (transactions, edges) : Res SqliteStoreError _))
    (hnodup : (transactions.map IndexedTransaction.txid).Nodup) :
    store.saveNodeState s = some (.ok
      { blocks := HashMap.new.insertAll (s.byHeight.filterMap fun e =>
          (s.blocks.get e.blockHash).map (Prod.mk e.blockHash.text))
        chainEntries := HashMap.new.insertAll
          (s.byHeight.map fun e => (e.blockHash.text, entryRow e))
        activeUtxos := HashMap.new.insertAll (s.activeUtxos.iter.map utxoRow)
        mempoolTransactions := HashMap.new.insertAll (s.mempool.iter.map mempoolRow)
        peers := HashMap.new
        transactions := HashMap.new.insertAll (transactions.map transactionRow)
        transactionKeys := edges.map edgeRow
        metadata := saveBestTip HashMap.new s.chain.bestTip }) := by
  have hentries := saveEntries_eq s s.byHeight store.clear fun e he => hs.byHeight_block e he
  have hutxos := (activeUtxos_roundTrip s.activeUtxos (active_keyed hs)).1
  have hpool := (mempool_roundTrip s.mempool hs.pool.fits).1
  have hstate : store.saveState s = .ok
      { store.clear with
        blocks := HashMap.new.insertAll (s.byHeight.filterMap fun e =>
          (s.blocks.get e.blockHash).map (Prod.mk e.blockHash.text))
        chainEntries := HashMap.new.insertAll
          (s.byHeight.map fun e => (e.blockHash.text, entryRow e))
        activeUtxos := HashMap.new.insertAll (s.activeUtxos.iter.map utxoRow)
        mempoolTransactions := HashMap.new.insertAll (s.mempool.iter.map mempoolRow) } := by
    change (saveEntries s s.byHeight store.clear >>= _) = _
    rw [hentries, Res.ok_bind]
    change (Sql.insertAll SqliteStoreError.sqlite HashMap.new _ >>= _) = _
    rw [hutxos, Res.ok_bind]
    change (Sql.insertAll SqliteStoreError.sqlite HashMap.new _ >>= _) = _
    rw [hpool]
    rfl
  rw [saveNodeState, hstate]
  simp only [hbuilt, Option.map_some, Res.ok_bind]
  rw [saveIndex_eq _ _ _ _ rfl hnodup]
  rfl

theorem saveNodeState_saved (hs : s.Sound) (store : SqliteStore) :
    ∃ store', store.saveNodeState s = some (.ok store') ∧ store'.Saved s := by
  obtain ⟨transactions, edges, hbuilt, hnodup⟩ :=
    hs.buildTransactionIndex_ok (ε := SqliteStoreError)
  refine ⟨_, saveNodeState_eq hs store transactions edges hbuilt hnodup, ?_, rfl, rfl, rfl, ?_⟩
  · intro e he
    exact get_savedBlocks s s.byHeight HashMap.new hs.byHeight_block e.blockHash
      (.inl (List.mem_map_of_mem he))
  · cases s.chain.bestTip with
    | none => exact HashMap.get_new _
    | some tip => exact (HashMap.get_insert _ _ _ _).trans (if_pos rfl)

section Load

variable {store : SqliteStore} {utxos : UtxoSet} {pool : Mempool}

theorem Saved.loadBlocks (hs : s.Sound)
    (h : store.Saved { s with activeUtxos := utxos, mempool := pool }) :
    store.loadBlocksInHeightOrder = .ok (s.blocksOf s.byHeight) := by
  have hnodup : ((s.byHeight.map fun e => (e.blockHash.text, entryRow e)).map Prod.fst).Nodup := by
    have hkeys : (s.byHeight.map fun e => (e.blockHash.text, entryRow e)).map Prod.fst =
        (s.byHeight.map ChainIndexEntry.blockHash).map BlockHash.text := by
      rw [List.map_map, List.map_map]
      rfl
    rw [hkeys]
    exact hs.byHeight_hashes_nodup.map BlockHash.text_injective
  have hperm := HashMap.iter_insertAll_perm _ hnodup
  have hentries : store.chainEntries =
      HashMap.new.insertAll (s.byHeight.map fun e => (e.blockHash.text, entryRow e)) :=
    h.chainEntries
  have hblocks : ∀ e ∈ s.byHeight, store.blocks.get e.blockHash.text = s.blocks.get e.blockHash :=
    h.blocks
  have horder : Sql.orderBy (fun row : Text × ChainEntryRow => toLex (row.2.height, row.1))
      store.chainEntries.iter = s.byHeight.map fun e => (e.blockHash.text, entryRow e) := by
    rw [hentries]
    refine Sql.orderBy_eq _ _ _ hperm.symm ?_ ?_
    · rw [List.pairwise_map]
      exact s.byHeight_sorted
    · intro a ha b hb hab
      exact HashMap.iter_key_inj _ a b ha hb (Prod.mk.inj (toLex_inj.mp hab)).2
  rw [loadBlocksInHeightOrder, horder, Res.mapAll_map]
  refine Res.mapAll_eq_filterMap _ _ _ fun e he => ?_
  obtain ⟨b, hb⟩ := hs.byHeight_block e he
  refine ⟨b, ?_, hb⟩
  rw [Function.comp_apply, parseBlockHash_text, Res.ok_bind, hblocks e he, hb, Res.okOr_some]

omit [Crypto] in
theorem Saved.loadActiveUtxos (hk : s.activeUtxos.Keyed) (h : store.Saved s) :
    store.loadActiveUtxos = .ok s.activeUtxos := by
  obtain ⟨entries, hread, heq⟩ := (activeUtxos_roundTrip s.activeUtxos hk).2
  rw [SqliteStore.loadActiveUtxos, h.activeUtxos, hread, Res.ok_bind, heq]
  rfl

theorem Saved.loadMempool
    (hp : ∀ txid tx, s.mempool.get txid = some tx → tx.Fits true ∧ tx.id = txid)
    (h : store.Saved s) : store.loadMempool = .ok s.mempool := by
  obtain ⟨entries, hread, heq⟩ := (mempool_roundTrip s.mempool hp).2
  rw [SqliteStore.loadMempool, h.mempool, hread, Res.ok_bind, Mempool.fromPersisted, heq]
  rfl

omit [Crypto] in
theorem Saved.loadBestTip (h : store.Saved s) : store.loadBestTip = .ok s.chain.bestTip := by
  have hget := h.bestTip
  rw [SqliteStore.loadBestTip]
  cases htip : s.chain.bestTip with
  | none =>
    rw [htip, Option.map_none] at hget
    rw [hget]
  | some tip =>
    rw [htip, Option.map_some] at hget
    simp only [hget, parseBlockHash_text, Res.ok_bind, Res.pure_eq_ok]

/-- Loading replays the blocks and compares the result with the coins and the pool saved, whether
or not these belong to the blocks. -/
theorem Saved.loadNodeState_eq (hc : s.Complete) (active : UtxoSet) (hk : utxos.Keyed)
    (hp : pool.Consistent active)
    (h : store.Saved { s with activeUtxos := utxos, mempool := pool }) :
    ∃ t, NodeState.Replayed s t s.byHeight ∧ ∃ pool',
      (∀ txid tx, pool'.get txid = some tx ↔
        pool.get txid = some tx ∧ t.activeUtxos.Valid tx) ∧
      store.loadNodeState =
        checkRebuilt { t with mempool := pool' } s.chain.bestTip utxos pool := by
  have hs := hc.sound
  obtain ⟨t, hrun, hr⟩ := hc.replay s.byHeight hs.byHeight_grown hs.byHeight_get
  obtain ⟨pool', hpool, -, hget⟩ := hp.pruneInvalid (ε := NodeStateError) t.activeUtxos
  have hrebuilt : NodeState.fromPersisted (s.blocksOf s.byHeight) pool =
      .ok { t with mempool := pool' } := by
    rw [NodeState.fromPersisted, hrun, Res.ok_bind, hpool]
    rfl
  have hload : store.loadMempool = .ok pool := h.loadMempool hp.fits
  have hutxos : store.loadActiveUtxos = .ok utxos := h.loadActiveUtxos hk
  have htip : store.loadBestTip = .ok s.chain.bestTip := h.loadBestTip
  refine ⟨t, hr, pool', hget, ?_⟩
  rw [loadNodeState, h.loadBlocks hs, Res.ok_bind, hload, Res.ok_bind, htip, Res.ok_bind, hutxos,
    Res.ok_bind, Res.ok_bind, hrebuilt]
  rfl

end Load

/-- The best tip comes first, by height and then by hash, among the blocks of as much work. -/
def TipFirst (s : NodeState) : Prop :=
  ∀ tip e, s.chain.bestTip = some tip → s.chain.get tip = some e →
    ∀ h e', s.chain.get h = some e' → e'.cumulativeWork = e.cumulativeWork →
      e.sortKey ≤ e'.sortKey

/-- The replay settles on the same tip exactly when the tip comes first. -/
theorem replayed_bestTip_iff {t : NodeState} (hs : s.Sound)
    (hr : NodeState.Replayed s t s.byHeight) :
    t.chain.bestTip = s.chain.bestTip ↔ TipFirst s := by
  obtain ⟨log, hi⟩ := hs.index
  have hperm := hs.byHeight_perm log hi
  constructor
  · intro htip tip e ht he h e' he' hwork
    rw [ht] at htip
    obtain ⟨m, hm, hkey⟩ := (hr.index.tip_eq_some tip).mp htip
    obtain ⟨hmem, hhash⟩ := (hs.mem_byHeight tip e).mp he
    obtain rfl : m = e := hs.byHeight_grown.key_inj m e (List.argmax_mem hm) hmem
      (hkey.trans hhash.symm)
    exact argmax_le_of_sorted _ _ _ m e' s.byHeight_sorted hm ((hs.mem_byHeight h e').mp he').1
      hwork
  · intro hfirst
    cases ht : s.chain.bestTip with
    | none =>
      rw [hr.index.tip_eq_none, ← List.perm_nil, ← (hi.tip_eq_none).mp ht]
      exact hperm
    | some tip =>
      obtain ⟨m, hm, rfl⟩ := (hi.tip_eq_some tip).mp ht
      have hmem := List.argmax_mem hm
      obtain ⟨m', hm'⟩ : ∃ m', s.byHeight.argmax ChainIndexEntry.cumulativeWork = some m' := by
        cases hcase : s.byHeight.argmax ChainIndexEntry.cumulativeWork with
        | some m' => exact ⟨m', rfl⟩
        | none =>
          rw [List.argmax_eq_none.mp hcase, List.nil_perm] at hperm
          rw [hperm] at hmem
          cases hmem
      have hmem' := List.argmax_mem hm'
      have hle := List.le_of_mem_argmax (hperm.mem_iff.mp hmem') hm
      have hge := List.le_of_mem_argmax (hperm.mem_iff.mpr hmem) hm'
      have hwork : m'.cumulativeWork = m.cumulativeWork := le_antisymm hle hge
      have hle₁ := hfirst m.blockHash m ht (hi.get_mem m hmem) m'.blockHash m'
        (hs.byHeight_get m' hmem') hwork
      have hle₂ := argmax_le_of_sorted _ _ _ m' m s.byHeight_sorted hm'
        (hperm.mem_iff.mpr hmem) hwork.symm
      exact (hr.index.tip_eq_some _).mpr
        ⟨m', hm', ChainIndexEntry.hash_of_sortKey m' m (le_antisymm hle₂ hle₁)⟩

/-- If the tip comes first, the whole state comes back. -/
theorem Saved.loadNodeState_ok {store : SqliteStore} (hc : s.Complete) (h : store.Saved s)
    (hfirst : TipFirst s) : store.loadNodeState = .ok s := by
  have hs := hc.sound
  obtain ⟨t, hr, pool, hget, hload⟩ :=
    Saved.loadNodeState_eq hc s.activeUtxos (active_keyed hs) hs.pool h
  have htip := (replayed_bestTip_iff hs hr).mpr hfirst
  obtain ⟨hentries, hblocks, hviews⟩ := hr.maps_eq hs hs.mem_byHeight
  have hactive := hc.active_eq hr.complete htip hviews
  have hsame : pool = s.mempool := by
    refine HashMap.ext _ _ fun txid => Option.ext fun tx => (hget txid tx).trans ?_
    refine and_iff_left_of_imp fun hp => ?_
    rw [hactive]
    exact (s.activeUtxos.validateTransaction_eq_ok tx).mp (hs.pool.valid txid tx hp)
  have hstate : { t with mempool := pool } = s := by
    obtain ⟨⟨entries, tip⟩, active, pool₀, blocks, views⟩ := t
    obtain ⟨⟨entries', tip'⟩, active', pool₁, blocks', views'⟩ := s
    dsimp only at htip hentries hblocks hviews hactive hsame
    rw [htip, hentries, hblocks, hviews, hactive, hsame]
  rw [hload, hstate, checkRebuilt, if_neg (not_not.mpr rfl), utxoSetsMatch, mapsMatch_self,
    mempoolsMatch, mapsMatch_self]
  rfl

/-- Saving and loading succeed and give back the chain, the active view and the pool. -/
def Restores (store : SqliteStore) (s : NodeState) : Prop :=
  ∃ store' t, store.saveNodeState s = some (.ok store') ∧ store'.loadNodeState = .ok t ∧
    t.chain.entries = s.chain.entries ∧ t.chain.bestTip = s.chain.bestTip ∧
    t.activeUtxos = s.activeUtxos ∧ t.mempool = s.mempool

/-- A restart gives back the state exactly when its tip comes first among those of as much
work; otherwise the replay settles on another tip and the load is refused. -/
theorem restores_iff (store : SqliteStore) (s : NodeState) (hr : s.OkReachable) :
    store.Restores s ↔ TipFirst s := by
  have hc := hr.complete
  obtain ⟨store', hsave, hsaved⟩ := saveNodeState_saved hc.sound store
  constructor
  · intro h
    obtain ⟨store'', t, hsave', hload, -⟩ := h
    obtain rfl : store' = store'' := Except.ok.inj (Option.some.inj (hsave.symm.trans hsave'))
    obtain ⟨t', hrep, pool, -, heq⟩ := Saved.loadNodeState_eq hc s.activeUtxos
      (active_keyed hc.sound) hc.sound.pool hsaved
    refine (replayed_bestTip_iff hc.sound hrep).mp ?_
    by_contra hne
    rw [heq, checkRebuilt, if_pos hne] at hload
    cases hload
  · intro hfirst
    exact ⟨store', s, hsave, hsaved.loadNodeState_ok hc hfirst, rfl, rfl, rfl, rfl⟩

end RoundTrip

section SampleReload

attribute [local instance] NodeState.sampleCrypto

theorem sampleState_tipFirst : TipFirst NodeState.sampleState := by
  have hall : ∀ entry ∈ NodeState.sampleState.chain.entries.iter,
      ∀ entry' ∈ NodeState.sampleState.chain.entries.iter,
        NodeState.sampleState.chain.bestTip = some entry.1 →
        entry'.2.cumulativeWork = entry.2.cumulativeWork →
        entry.2.sortKey ≤ entry'.2.sortKey := by decide +kernel
  intro tip e ht he h e' he' hwork
  exact hall (tip, e) ((HashMap.mem_iter _ _ _).mpr he) (h, e') ((HashMap.mem_iter _ _ _).mpr he')
    ht hwork

theorem sampleState_restores : new.Restores NodeState.sampleState :=
  (restores_iff new NodeState.sampleState NodeState.sampleState_okReachable).mpr
    sampleState_tipFirst

end SampleReload

section Fork

open NodeState (sampleGenesis sampleBlock repeatBlock)

attribute [local instance] NodeState.takeCrypto

/-- A node that has seen two children of genesis, first the one with the greater hash. -/
def forkState : NodeState :=
  (((NodeState.new.acceptBlock sampleGenesis).1.acceptBlock sampleBlock).1.acceptBlock
    repeatBlock).1

theorem forkState_okReachable : forkState.OkReachable := by
  have h₁ : NodeState.OkStep .new (NodeState.new.acceptBlock sampleGenesis).1 :=
    .acceptBlock sampleGenesis (by decide +kernel)
  have h₂ : NodeState.OkStep (NodeState.new.acceptBlock sampleGenesis).1
      ((NodeState.new.acceptBlock sampleGenesis).1.acceptBlock sampleBlock).1 :=
    .acceptBlock sampleBlock (by decide +kernel)
  have h₃ : NodeState.OkStep
      ((NodeState.new.acceptBlock sampleGenesis).1.acceptBlock sampleBlock).1 forkState :=
    .acceptBlock repeatBlock (by decide +kernel)
  exact ((Relation.ReflTransGen.single h₁).tail h₂).tail h₃

/-- It cannot be started again: the replay prefers the other child. -/
theorem forkState_refused :
    forkState.OkReachable ∧ ∃ store, new.saveNodeState forkState = some (.ok store) ∧
      store.loadNodeState = .error (.err (.rebuiltBestTipMismatch
        (some repeatBlock.header.blockHash) (some sampleBlock.header.blockHash))) := by
  refine ⟨forkState_okReachable, ?_⟩
  have hload : (new.saveNodeState forkState).map (fun saved => saved >>= loadNodeState) =
      some (.error (.err (.rebuiltBestTipMismatch (some repeatBlock.header.blockHash)
        (some sampleBlock.header.blockHash)))) := by decide +kernel
  obtain ⟨store, hsave, -⟩ := saveNodeState_saved forkState_okReachable.complete.sound new
  rw [hsave, Option.map_some, Res.ok_bind] at hload
  exact ⟨store, hsave, Option.some.inj hload⟩

end Fork

end SqliteStore

end Wobble
