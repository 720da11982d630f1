import Wobble.Store.BlockCommits

namespace Wobble

open Rust GrowingTree

namespace SqliteStore

section Kinds

variable [Crypto] {pre post : NodeState} {entry : ChainIndexEntry} {b : Block} {u : UtxoSet}

theorem chain_aside (hpre : pre.Sound) (hpost : post.Sound)
    (acc : NodeState.Accepted pre post entry b u) (hd : post.DistinctIds)
    (haside : post.chain.bestTip ≠ some entry.blockHash) :
    ∃ es, pre.chain.bestChainEntries = some es ∧ post.chain.bestChainEntries = some es ∧
      Path entryView post.chain.get post.chain.bestTip es ∧
      ((post.transactionsOn es).map Transaction.id ++ post.mempool.iter.map Prod.fst).Nodup ∧
      post.transactionsOn es = pre.transactionsOn es ∧
      post.indexItems es = pre.indexItems es := by
  obtain ⟨log, hi⟩ := hpre.index
  obtain ⟨log', hi'⟩ := hpost.index
  obtain ⟨es, hpath, hes⟩ := hi.bestChain_path
  obtain ⟨es', hpath', hes'⟩ := hi'.bestChain_path
  obtain ⟨htip, -, hpool⟩ := acc.aside haside
  have hsame := hpath.mono acc.get_mono
  rw [← htip] at hsame
  obtain rfl := hpath'.unique hsame
  have hblocks : ∀ e ∈ es', post.blocks.get e.blockHash = pre.blocks.get e.blockHash := by
    intro e he
    obtain ⟨x, hx, -⟩ := hpre.block_of_entry _ e (hpre.path_get hpath e he)
    rw [hx, acc.stored _ x hx]
  obtain ⟨_, heq, hn⟩ := hd
  obtain rfl := Option.some.inj (hes'.symm.trans heq)
  refine ⟨es', hes, hes', hpath', hn, NodeState.transactionsOn_congr es' hblocks, ?_⟩
  rw [NodeState.indexItems, NodeState.indexItems, NodeState.chainItems_congr es' hblocks, hpool]

/-- A block off the best chain: only its record is written. -/
theorem save_aside (hpre : pre.Sound) (hpost : post.Sound)
    (acc : NodeState.Accepted pre post entry b u) (store : SqliteStore) (hh : store.Holds pre)
    (hd : post.DistinctIds) (haside : post.chain.bestTip ≠ some entry.blockHash) :
    ∃ store', commitAll [saveBlockRecord b entry post.chain.bestTip] store = (store', .ok ()) ∧
      store'.Holds post := by
  obtain ⟨es, hes, hes', -, hn, htxs, hitems⟩ := chain_aside hpre hpost acc hd haside
  obtain ⟨-, hactive, hpool⟩ := acc.aside haside
  have hn' := hn
  rw [htxs, hpool] at hn'
  have hsame := (holds_iff_indexItems hpre store es hes hn').mp hh
  obtain ⟨tip, htip⟩ := acc.exists_tip hpost
  obtain ⟨hb, hc, hm⟩ := recorded acc store _ _ hsame tip htip
  refine ⟨_, commitAll_cons rfl [], ?_⟩
  refine (holds_iff_indexItems hpost _ es hes' hn).mpr ⟨hb, hc, ?_, ?_, ?_, ?_, ?_⟩
  · exact hsame.activeUtxos.trans (by rw [snapshot, snapshot, hactive])
  · exact hsame.mempoolTransactions.trans (by rw [snapshot, snapshot, hpool])
  · exact hsame.transactions.trans (by rw [snapshot, snapshot, hitems])
  · exact hsame.transactionKeys.trans (List.Perm.of_eq (by rw [snapshot, snapshot, htxs, hpool]))
  · rw [htip]
    exact hm

theorem rewritten_edges (before block after : List Transaction)
    (hn : ((before ++ (block ++ after)).map Transaction.id).Nodup) :
    (((indexEdges [] (before ++ (block ++ after))).filter fun edge =>
        !decide (edge.txid ∈ block.map Transaction.id)) ++ indexEdges before block).Perm
      (indexEdges [] (before ++ (block ++ after))) := by
  rw [List.map_append, List.map_append] at hn
  obtain ⟨-, hrest, hdisj⟩ := List.nodup_append.mp hn
  have hbefore : ∀ txid ∈ before.map Transaction.id, txid ∉ block.map Transaction.id :=
    fun txid ht ht' => hdisj txid ht txid (List.mem_append_left _ ht') rfl
  have hafter : ∀ txid ∈ after.map Transaction.id, txid ∉ block.map Transaction.id :=
    fun txid ht ht' => (List.nodup_append.mp hrest).2.2 txid ht' txid ht rfl
  rw [indexEdges_append, List.nil_append, indexEdges_append, List.filter_append,
    List.filter_append, filter_indexEdges_of_notMem _ _ _ hbefore,
    filter_indexEdges_of_mem _ _ _ fun _ h => h, filter_indexEdges_of_notMem _ _ _ hafter,
    List.nil_append, List.append_assoc]
  exact List.perm_append_comm.append_left _

/-- A known block of the best chain below its tip: its rows are written once more. -/
theorem save_known (hpre : pre.Sound) (hpost : post.Sound)
    (acc : NodeState.Accepted pre post entry b u) (store : SqliteStore) (hh : store.Holds pre)
    (hd : post.DistinctIds) (haside : post.chain.bestTip ≠ some entry.blockHash)
    (hon : ∀ es, post.chain.bestChainEntries = some es → entry ∈ es) :
    ∃ store', commitAll [saveBlockRecord b entry post.chain.bestTip,
        saveActiveUtxos post.activeUtxos, deleteStaleMempoolTransactions post.mempool,
        saveConfirmedBlockTransactions b entry] store = (store', .ok ()) ∧ store'.Holds post := by
  obtain ⟨es, hes, hes', hpath, hn, htxs, hitems⟩ := chain_aside hpre hpost acc hd haside
  obtain ⟨-, -, hpool⟩ := acc.aside haside
  have hn' := hn
  rw [htxs, hpool] at hn'
  have hsame := (holds_iff_indexItems hpre store es hes hn').mp hh
  rw [← hitems, ← htxs, ← hpool] at hsame
  have hni : ((post.indexItems es).map IndexedTransaction.txid).Nodup := by
    rw [hpost.indexItems_txid]
    exact hn
  obtain ⟨before, after, rfl⟩ := List.append_of_mem (hon es hes')
  have hup := hpath.upTo hpost.key rfl
  have hchain := post.chainItems_split before after entry b acc.block_get
  -- nothing has left the pool
  have hgone : ∀ gone, Left pre post gone → ∀ txid, txid ∉ gone := by
    intro gone hleft txid ht
    obtain ⟨⟨tx, htx⟩, hnone⟩ := (hleft txid).mp ht
    rw [hpool, htx] at hnone
    cases hnone
  refine save_on_chain hpost acc store (hh.readable hpre) _ _ _ hsame before after hes' hup hn hni
    hni (post.indexItems_firstSeenAt _) (fun txid tx h => hpool ▸ h) ?_ ?_ ?_ ?_
  · intro gone hleft item
    exact (and_iff_left fun h => hgone gone hleft _ h.1).symm
  · intro item hi
    rw [NodeState.indexItems, hchain]
    exact List.mem_append_left _ (List.mem_append_left _ hi)
  · intro item
    refine (or_iff_left_of_imp fun hi => ?_).symm
    rw [NodeState.indexItems, hchain]
    exact List.mem_append_left _ (List.mem_append_right _ (List.mem_append_left _ hi))
  · intro gone hleft
    have hself : ∀ edges : List TransactionKeyEdge,
        (edges.filter fun edge => !decide (edge.txid ∈ gone)) = edges := by
      intro edges
      rw [List.filter_eq_self]
      intro edge _
      simpa using hgone gone hleft edge.txid
    rw [← hpost.pool_ids, ← List.map_append] at hn
    rw [post.transactionsOn_split before after entry b acc.block_get, List.append_assoc,
      List.append_assoc] at hn ⊢
    rw [hself]
    exact rewritten_edges _ _ _ hn

/-- The commits of `save_mempool_state` rewrite the pool and the index, whatever was there. -/
theorem commitAll_mempoolState (hpost : post.Sound) (items : List IndexedTransaction)
    (edges : List TransactionKeyEdge)
    (hbuilt : buildTransactionIndex post = some (.ok (items, edges) : Res SqliteStoreError _))
    (hnodup : (items.map IndexedTransaction.txid).Nodup) :
    ∃ more, saveMempoolState post = some more ∧ ∀ store, commitAll more store =
      ({ store with
        mempoolTransactions := HashMap.new.insertAll (post.mempool.iter.map mempoolRow)
        transactions := HashMap.new.insertAll (items.map transactionRow)
        transactionKeys := edges.map edgeRow }, .ok ()) := by
  refine ⟨_, by rw [saveMempoolState, hbuilt, Option.map_some], fun store => ?_⟩
  have hpool : saveMempool post.mempool store = .ok { store with
      mempoolTransactions := HashMap.new.insertAll (post.mempool.iter.map mempoolRow) } := by
    rw [saveMempool, (mempool_roundTrip post.mempool hpost.pool.fits).1]
    rfl
  refine (commitAll_cons hpool _).trans ?_
  exact commitAll_cons (saveTransactionIndex_eq items edges hnodup _) []

/-- A block that has become the tip, followed by a rewrite of the pool and of the index. -/
theorem save_refreshed (hpre : pre.Sound) (hpost : post.Sound)
    (acc : NodeState.Accepted pre post entry b u) (store : SqliteStore) (hh : store.Holds pre)
    (htip : post.chain.bestTip = some entry.blockHash) :
    ∃ more, saveMempoolState post = some more ∧
      ∃ store', commitAll ([saveBlockRecord b entry post.chain.bestTip,
          saveActiveUtxos post.activeUtxos, deleteStaleMempoolTransactions post.mempool,
          saveConfirmedBlockTransactions b entry] ++ more) store = (store', .ok ()) ∧
        store'.Holds post := by
  obtain ⟨items, edges, hbuilt, hnodup⟩ := hpre.buildTransactionIndex_ok (ε := SqliteStoreError)
  obtain ⟨items', edges', hbuilt', hnodup'⟩ :=
    hpost.buildTransactionIndex_ok (ε := SqliteStoreError)
  have hsame := (holds_iff hpre store items edges hbuilt hnodup).mp hh
  obtain ⟨more, hmore, hrewrite⟩ := commitAll_mempoolState hpost items' edges' hbuilt' hnodup'
  refine ⟨more, hmore, ?_⟩
  obtain ⟨persisted, transactions, hrun, hrp, -, -⟩ := commitAll_pruned store post b entry
    entry.blockHash htip (active_keyed hpost) (hh.readable hpre)
    (saveConfirmedBlockTransactions b entry :: more)
  obtain ⟨confirmed, hconfirmed⟩ := confirmedFrom_ok (ε := SqliteStoreError)
    (store.pruned post b entry entry.blockHash (stale post.mempool persisted) transactions)
    entry.blockHash entry.height 0 b.transactions HashMap.new
    (hpost.fits_of_block _ b acc.block_get)
  obtain ⟨hb, hc, hm⟩ := recorded acc store items edges hsame entry.blockHash htip
  refine ⟨_, (hrun.trans (commitAll_cons
    (saveConfirmedBlockTransactions_eq _ hrp b entry _ _ hconfirmed) more)).trans (hrewrite _), ?_⟩
  exact (holds_iff hpost _ items' edges' hbuilt' hnodup').mpr
    ⟨hb, hc, rfl, rfl, rfl, .refl _, hm⟩

theorem chain_extended (hpre : pre.Sound) (hpost : post.Sound)
    (acc : NodeState.Accepted pre post entry b u)
    (htip : post.chain.bestTip = some entry.blockHash)
    (hparent : entry.parent = pre.chain.bestTip) :
    ∃ es, pre.chain.bestChainEntries = some es ∧
      Path entryView pre.chain.get pre.chain.bestTip es ∧
      post.chain.bestChainEntries = some (es ++ [entry]) ∧
      Path entryView post.chain.get (some entry.blockHash) (es ++ [entry]) ∧
      (∀ e ∈ es, post.blocks.get e.blockHash = pre.blocks.get e.blockHash) := by
  obtain ⟨log, hi⟩ := hpre.index
  obtain ⟨log', hi'⟩ := hpost.index
  obtain ⟨es, hpath, hes⟩ := hi.bestChain_path
  obtain ⟨es', hpath', hes'⟩ := hi'.bestChain_path
  have hnew : Path entryView post.chain.get (some entry.blockHash) (es ++ [entry]) := by
    refine .snoc acc.entry_get ?_
    change Path entryView post.chain.get entry.parent es
    rw [hparent]
    exact hpath.mono acc.get_mono
  rw [htip] at hpath'
  obtain rfl := hpath'.unique hnew
  refine ⟨es, hes, hpath, hes', hnew, ?_⟩
  intro e he
  obtain ⟨x, hx, -⟩ := hpre.block_of_entry _ e (hpre.path_get hpath e he)
  rw [hx, acc.stored _ x hx]

omit [Crypto] in
theorem mem_poolItems (pool : Mempool) (item : IndexedTransaction) :
    item ∈ poolItems pool ↔ ∃ txid tx, pool.get txid = some tx ∧
      item = ⟨txid, tx, none, none, none, .mempool, none, none⟩ := by
  rw [poolItems, List.mem_map]
  constructor
  · intro h
    obtain ⟨⟨txid, tx⟩, he, rfl⟩ := h
    exact ⟨txid, tx, (HashMap.mem_iter _ _ _).mp he, rfl⟩
  · intro h
    obtain ⟨txid, tx, hget, rfl⟩ := h
    exact ⟨(txid, tx), (HashMap.mem_iter _ _ _).mpr hget, rfl⟩

theorem pending_perm (hpre : pre.Sound) (hpost : post.Sound)
    (hsub : ∀ txid tx, post.mempool.get txid = some tx → pre.mempool.get txid = some tx)
    (gone ids : List Txid) (hleft : Left pre post gone)
    (hids : ∀ txid ∈ ids, post.mempool.get txid = none) :
    (((pre.mempool.iter.map Prod.snd).filter fun tx => !decide (tx.id ∈ gone)).filter fun tx =>
      !decide (tx.id ∈ ids)).Perm (post.mempool.iter.map Prod.snd) := by
  refine (List.perm_ext_iff_of_nodup ((hpre.pool_nodup.filter _).filter _)
    hpost.pool_nodup).mpr fun tx => ?_
  simp only [List.mem_filter, Bool.not_eq_true', decide_eq_false_iff_not, hpre.mem_pool_iff,
    hpost.mem_pool_iff]
  constructor
  · intro h
    obtain ⟨⟨hget, hng⟩, -⟩ := h
    cases hpost' : post.mempool.get tx.id with
    | none => exact absurd ((hleft _).mpr ⟨⟨tx, hget⟩, hpost'⟩) hng
    | some tx' => rw [← hsub _ _ hpost', hget]
  · intro hget
    refine ⟨⟨hsub _ _ hget, fun hg => ?_⟩, fun hi => ?_⟩
    · rw [((hleft _).mp hg).2] at hget
      cases hget
    · rw [hids _ hi] at hget
      cases hget

/-- The edges of the pool, if what it spends is on the chain below: other transactions before it
make no difference. -/
theorem pool_edges {s : NodeState} (hs : s.Sound) (chain more : List Transaction)
    (hn : ((chain ++ more).map Transaction.id ++ s.mempool.iter.map Prod.fst).Nodup)
    (hspends : ∀ txid tx, s.mempool.get txid = some tx → ∀ o ∈ tx.spends,
      ∃ tx' ∈ chain, tx'.id = o.txid) :
    indexEdges (chain ++ more) (s.mempool.iter.map Prod.snd) =
      (s.mempool.iter.map Prod.snd).flatMap (edgesOf (outputAt chain)) := by
  have hfound : ∀ tx ∈ s.mempool.iter.map Prod.snd, ∀ o ∈ tx.spends,
      ∃ tx' ∈ chain, tx'.id = o.txid := fun tx ht o ho =>
    hspends tx.id tx ((hs.mem_pool_iff tx).mp ht) o ho
  have hall := (List.nodup_append.mp hn).1
  have hchain : (chain.map Transaction.id).Nodup :=
    hall.sublist ((List.sublist_append_left _ _).map _)
  rw [indexEdges_eq_flatMap _ _ (by rw [List.map_append, hs.pool_ids]; exact hn)]
  · refine List.flatMap_congr fun tx ht => edgesOf_congr _ _ tx fun o ho => ?_
    obtain ⟨tx', ht', hid⟩ := hfound tx ht o ho
    exact outputAt_eq _ _ o hall hchain ⟨tx', List.mem_append_left _ ht', ht', hid⟩
  · intro tx ht o ho
    obtain ⟨tx', ht', hid⟩ := hfound tx ht o ho
    exact ⟨tx', List.mem_append_left _ ht', hid⟩

theorem extension_edges (hpre : pre.Sound) (hpost : post.Sound) (chain : List Transaction)
    (hn : ((chain ++ b.transactions).map Transaction.id ++ post.mempool.iter.map Prod.fst).Nodup)
    (hn' : (chain.map Transaction.id ++ pre.mempool.iter.map Prod.fst).Nodup)
    (hsub : ∀ txid tx, post.mempool.get txid = some tx → pre.mempool.get txid = some tx)
    (hspends : ∀ txid tx, pre.mempool.get txid = some tx → ∀ o ∈ tx.spends,
      ∃ tx' ∈ chain, tx'.id = o.txid) (gone : List Txid) (hleft : Left pre post gone) :
    ((((indexEdges [] (chain ++ pre.mempool.iter.map Prod.snd)).filter fun edge =>
          !decide (edge.txid ∈ gone)).filter fun edge =>
          !decide (edge.txid ∈ b.transactions.map Transaction.id)) ++
        indexEdges chain b.transactions).Perm
      (indexEdges [] (chain ++ b.transactions ++ post.mempool.iter.map Prod.snd)) := by
  have hold : indexEdges chain (pre.mempool.iter.map Prod.snd) =
      (pre.mempool.iter.map Prod.snd).flatMap (edgesOf (outputAt chain)) := by
    have h := pool_edges hpre chain [] (by rw [List.append_nil]; exact hn') hspends
    rwa [List.append_nil] at h
  have hnew := pool_edges hpost chain b.transactions hn fun txid tx hget =>
    hspends txid tx (hsub txid tx hget)
  have hgone : ∀ txid ∈ chain.map Transaction.id, txid ∉ gone := by
    intro txid ht hg
    obtain ⟨⟨tx, hget⟩, -⟩ := (hleft txid).mp hg
    cases (pool_free pre.mempool hn' txid ht).symm.trans hget
  have hfree : ∀ txid ∈ b.transactions.map Transaction.id, post.mempool.get txid = none := by
    intro txid ht
    refine pool_free post.mempool hn txid ?_
    rw [List.map_append]
    exact List.mem_append_right _ ht
  have hblock : ∀ txid ∈ chain.map Transaction.id, txid ∉ b.transactions.map Transaction.id := by
    intro txid ht ht'
    have hids := (List.nodup_append.mp hn).1
    rw [List.map_append] at hids
    exact (List.nodup_append.mp hids).2.2 txid ht txid ht' rfl
  rw [indexEdges_append, indexEdges_append, indexEdges_append, List.nil_append, List.nil_append,
    hold, hnew, List.filter_append, filter_indexEdges_of_notMem _ _ _ hgone, List.filter_append,
    filter_indexEdges_of_notMem _ _ _ hblock,
    filter_flatMap_edgesOf _ fun txid => !decide (txid ∈ gone),
    filter_flatMap_edgesOf _ fun txid => !decide (txid ∈ b.transactions.map Transaction.id),
    List.append_assoc, List.append_assoc]
  refine List.Perm.append_left _ (List.perm_append_comm.trans (List.Perm.append_left _ ?_))
  exact (pending_perm hpre hpost hsub gone _ hleft hfree).flatMap_right _

theorem extension_ids (chain : List Transaction)
    (hn : ((chain ++ b.transactions).map Transaction.id ++ post.mempool.iter.map Prod.fst).Nodup)
    (hincluded : ∀ txid tx, pre.mempool.get txid = some tx → post.mempool.get txid = none →
      txid ∈ b.transactions.map Transaction.id) :
    (chain.map Transaction.id ++ pre.mempool.iter.map Prod.fst).Nodup := by
  have hids := (List.nodup_append.mp hn).1
  rw [List.map_append] at hids
  refine List.nodup_append.mpr ⟨(List.nodup_append.mp hids).1, HashMap.iter_keys_nodup _, ?_⟩
  rintro txid ht _ ht' rfl
  obtain ⟨tx, hget⟩ := (HashMap.mem_iter_keys pre.mempool txid).mp ht'
  have hnone : post.mempool.get txid = none := by
    refine pool_free post.mempool hn txid ?_
    rw [List.map_append]
    exact List.mem_append_left _ ht
  exact (List.nodup_append.mp hids).2.2 txid ht txid (hincluded txid tx hget hnone) rfl

theorem tip_view_of_extension (hpre : pre.Sound) (hpost : post.Sound)
    (acc : NodeState.Accepted pre post entry b u)
    (hfresh : pre.chain.get entry.blockHash = none) (hparent : entry.parent = pre.chain.bestTip)
    (tip : BlockHash) (hbest : pre.chain.bestTip = some tip) :
    ∃ v, pre.utxoSnapshots.get tip = some v := by
  obtain ⟨e, -, v, he, -, hpv, -⟩ := hpost.views _ u acc.view
  obtain rfl := Option.some.inj (acc.entry_get.symm.trans he)
  rw [hparent, hbest, NodeState.parentView, Res.okOr_eq_ok] at hpv
  obtain ⟨etip, hetip⟩ := hpre.tipIndexed tip hbest
  have hne : tip ≠ entry.blockHash := by
    intro heq
    rw [heq, hfresh] at hetip
    cases hetip
  exact ⟨v, (acc.views tip hne).symm.trans hpv⟩

theorem pending_spends {s : NodeState} (hs : s.Sound) (hview : s.TipViewed)
    {es : List ChainIndexEntry} (hpath : Path entryView s.chain.get s.chain.bestTip es)
    (hviewed : ∀ tip, s.chain.bestTip = some tip → ∃ v, s.utxoSnapshots.get tip = some v)
    (hn : ((s.transactionsOn es).map Transaction.id).Nodup) (txid : Txid) (tx : Transaction)
    (hget : s.mempool.get txid = some tx) (o : OutPoint) (ho : o ∈ tx.spends) :
    ∃ tx' ∈ s.transactionsOn es, tx'.id = o.txid := by
  have hvalid := (s.activeUtxos.validateTransaction_eq_ok tx).mp (hs.pool.valid txid tx hget)
  obtain ⟨x, hx⟩ := hvalid.held o ho
  obtain ⟨tx', ht', hid, -⟩ := hs.active_created hview hpath hviewed hn o x hx
  exact ⟨tx', ht', hid⟩

theorem mem_kept (es : List ChainIndexEntry)
    (hsub : ∀ txid tx, post.mempool.get txid = some tx → pre.mempool.get txid = some tx)
    (gone : List Txid) (hleft : Left pre post gone) (item : IndexedTransaction) :
    item ∈ pre.chainItems es ++ poolItems post.mempool ↔
      item ∈ pre.indexItems es ∧ ¬ (item.txid ∈ gone ∧ item.status = .mempool) := by
  rw [NodeState.indexItems, List.mem_append, List.mem_append, mem_poolItems, mem_poolItems]
  constructor
  · intro h
    rcases h with h | ⟨txid, tx, hget, rfl⟩
    · refine ⟨.inl h, fun hm => ?_⟩
      rw [pre.chainItems_status es item h] at hm
      cases hm.2
    · refine ⟨.inr ⟨txid, tx, hsub txid tx hget, rfl⟩, fun hm => ?_⟩
      rw [((hleft txid).mp hm.1).2] at hget
      cases hget
  · intro h
    obtain ⟨h | ⟨txid, tx, hget, rfl⟩, hm⟩ := h
    · exact .inl h
    · cases hpost' : post.mempool.get txid with
      | none => exact absurd ⟨(hleft txid).mpr ⟨⟨tx, hget⟩, hpost'⟩, rfl⟩ hm
      | some tx' =>
        obtain rfl := Option.some.inj ((hsub _ _ hpost').symm.trans hget)
        exact .inr ⟨txid, tx', hpost', rfl⟩

/-- A block on top of the tip: what its transactions and the pending ones spend is on the chain
below, so that no row but theirs changes. -/
theorem save_extension (hpre : pre.Sound) (hview : pre.TipViewed) (hpost : post.Sound)
    (acc : NodeState.Accepted pre post entry b u) (store : SqliteStore) (hh : store.Holds pre)
    (hd : post.DistinctIds) (htip : post.chain.bestTip = some entry.blockHash)
    (hfresh : pre.chain.get entry.blockHash = none) (hparent : entry.parent = pre.chain.bestTip)
    (hincluded : ∀ txid tx, pre.mempool.get txid = some tx → post.mempool.get txid = none →
      txid ∈ b.transactions.map Transaction.id) :
    ∃ store', commitAll [saveBlockRecord b entry post.chain.bestTip,
        saveActiveUtxos post.activeUtxos, deleteStaleMempoolTransactions post.mempool,
        saveConfirmedBlockTransactions b entry] store = (store', .ok ()) ∧ store'.Holds post := by
  obtain ⟨es, hes, hpath, hes', hpath', hblocks⟩ := chain_extended hpre hpost acc htip hparent
  obtain ⟨_, heq, hn⟩ := hd
  obtain rfl := Option.some.inj (hes'.symm.trans heq)
  have htxs : post.transactionsOn (es ++ [entry]) = pre.transactionsOn es ++ b.transactions := by
    rw [post.transactionsOn_append, post.transactionsOn_singleton entry b acc.block_get,
      NodeState.transactionsOn_congr es hblocks]
  have hchain : post.chainItems (es ++ [entry]) = pre.chainItems es ++
      blockItems entry.blockHash entry.height 0 b.transactions := by
    rw [post.chainItems_append, post.chainItems_singleton entry b acc.block_get,
      NodeState.chainItems_congr es hblocks]
  have hsub : ∀ txid tx, post.mempool.get txid = some tx → pre.mempool.get txid = some tx :=
    fun txid tx h => (((acc.tip htip).2 txid tx).mp h).1
  have hids := hn
  rw [htxs] at hids
  have hn' := extension_ids (pre.transactionsOn es) hids hincluded
  have hni : ((pre.indexItems es).map IndexedTransaction.txid).Nodup := by
    rw [hpre.indexItems_txid]
    exact hn'
  have hsame := (holds_iff_indexItems hpre store es hes hn').mp hh
  have hspends := pending_spends hpre hview hpath
    (tip_view_of_extension hpre hpost acc hfresh hparent) (List.nodup_append.mp hn').1
  have hnk : ((pre.chainItems es ++ poolItems post.mempool).map
      IndexedTransaction.txid).Nodup := by
    rw [List.map_append, ← (hpre.chainItems_keyed es).ids, pre.chainItems_transaction,
      poolItems_txid]
    refine hids.sublist (List.Sublist.append_right ?_ _)
    exact (List.sublist_append_left _ _).map _
  refine save_on_chain hpost acc store (hh.readable hpre) _
    (pre.chainItems es ++ poolItems post.mempool) _ hsame es [] hes' hpath' hn hni hnk
    (pre.indexItems_firstSeenAt _) hsub (mem_kept es hsub) ?_ ?_ ?_
  · intro item hi
    rw [NodeState.chainItems_congr es hblocks] at hi
    exact List.mem_append_left _ hi
  · intro item
    rw [NodeState.indexItems, hchain]
    simp only [List.mem_append]
    tauto
  · intro gone hleft
    rw [htxs, NodeState.transactionsOn_congr es hblocks]
    exact extension_edges hpre hpost (pre.transactionsOn es) hids hn' hsub hspends gone hleft

end Kinds

end SqliteStore

end Wobble
