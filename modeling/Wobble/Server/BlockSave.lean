import Wobble.Server.Server
import Wobble.Store.BlockKinds

namespace Wobble

open Rust

namespace SqliteStore

section Save

variable [Crypto] {pre post : NodeState} {entry : ChainIndexEntry} {b : Block} {u : UtxoSet}

/-- The commits go through and leave what a full save of the state would write. -/
def SavedBy (plan : Option (List Commit)) (store : SqliteStore) (s : NodeState) : Prop :=
  ∃ commits store', plan = some commits ∧ commitAll commits store = (store', .ok ()) ∧
    store'.Holds s

theorem saveAcceptedBlock_eq (hpost : post.Sound) (acc : NodeState.Accepted pre post entry b u) :
    ∃ es, post.chain.bestChainEntries = some es ∧
      saveAcceptedBlock post entry.blockHash =
        some (saveBlockRecord b entry post.chain.bestTip ::
          if entry ∈ es then [saveActiveUtxos post.activeUtxos,
            deleteStaleMempoolTransactions post.mempool, saveConfirmedBlockTransactions b entry]
          else []) ∧
      (post.chain.bestTip = some entry.blockHash → entry ∈ es) := by
  obtain ⟨log, hi⟩ := hpost.index
  obtain ⟨es, hpath, hes⟩ := hi.bestChain_path
  have hany : (es.any fun e => e.blockHash == entry.blockHash) = decide (entry ∈ es) := by
    rw [Bool.eq_iff_iff, List.any_eq_true, decide_eq_true_iff]
    constructor
    · intro h
      obtain ⟨e, he, hhash⟩ := h
      have hget := hpost.path_get hpath e he
      rw [beq_iff_eq.mp hhash, acc.entry_get] at hget
      obtain rfl := Option.some.inj hget
      exact he
    · intro he
      exact ⟨entry, he, beq_self_eq_true _⟩
  refine ⟨es, hes, ?_, ?_⟩
  · rw [saveAcceptedBlock, acc.block_get, acc.entry_get]
    simp only [bestChainContains, hes, Option.map_some, hany]
    by_cases he : entry ∈ es <;> simp [he]
  · intro htip
    rw [htip] at hpath
    cases hpath with
    | snoc hget hrest =>
      obtain rfl := Option.some.inj (acc.entry_get.symm.trans hget)
      exact List.mem_append_right _ (List.mem_singleton_self _)

omit [Crypto] in
theorem extendsPreviousTip_eq_true (previous parent : Option BlockHash) :
    extendsPreviousTip previous parent = true ↔ parent = previous := by
  cases previous <;> cases parent <;> simp [extendsPreviousTip]

/-- Which of the two saves is taken, and what is known then. -/
theorem refresh_cases (hpost : post.Sound) (acc : NodeState.Accepted pre post entry b u) :
    ∃ refresh, (blockSaveRequiresMempoolIndexRefresh post entry.blockHash pre.chain.bestTip
        (mempoolTxids pre.mempool) : Res SqliteStoreError Bool) = .ok refresh ∧
      (refresh = true → post.chain.bestTip = some entry.blockHash) ∧
      (refresh = false → post.chain.bestTip = some entry.blockHash →
        entry.parent = pre.chain.bestTip ∧
          ∀ txid tx, pre.mempool.get txid = some tx → post.mempool.get txid = none →
            txid ∈ b.transactions.map Transaction.id) := by
  rw [blockSaveRequiresMempoolIndexRefresh, acc.entry_get]
  dsimp only
  by_cases htip : post.chain.bestTip = some entry.blockHash
  · rw [if_neg (not_not.mpr htip)]
    by_cases hext : entry.parent = pre.chain.bestTip
    · have hextends := (extendsPreviousTip_eq_true pre.chain.bestTip entry.parent).mpr hext
      have hblock : post.getBlock entry.blockHash = some b := acc.block_get
      have hids : (Res.mapAll Transaction.txid (b.transactions.drop 1) :
          Res SqliteStoreError _) = .ok ((b.transactions.drop 1).map Transaction.id) := by
        refine Res.mapAll_eq _ _ _ fun tx ht => ?_
        rw [Transaction.txid_eq,
          if_pos (hpost.fits_of_block _ b acc.block_get tx (List.mem_of_mem_drop ht))]
      simp only [hextends, Bool.not_true, Bool.false_eq_true, if_false, hblock, hids, Res.ok_bind]
      refine ⟨_, rfl, fun _ => htip, fun hrefresh _ => ⟨hext, ?_⟩⟩
      intro txid tx hget hnone
      have hsame := not_not.mp (of_decide_eq_false hrefresh)
      have hmem : txid ∈ mempoolTxids pre.mempool \ mempoolTxids post.mempool := by
        rw [Finset.mem_sdiff, mempoolTxids, mempoolTxids, HashMap.mem_keys, HashMap.mem_keys,
          hnone]
        exact ⟨⟨tx, hget⟩, by simp⟩
      rw [hsame, List.mem_toFinset] at hmem
      obtain ⟨tx', ht', rfl⟩ := List.mem_map.mp hmem
      exact List.mem_map_of_mem (List.mem_of_mem_drop ht')
    · have hextends : extendsPreviousTip pre.chain.bestTip entry.parent = false :=
        Bool.eq_false_of_not_eq_true fun h => hext ((extendsPreviousTip_eq_true _ _).mp h)
      simp only [hextends, Bool.not_false, if_true]
      exact ⟨true, rfl, fun _ => htip, fun h => absurd h (by decide)⟩
  · rw [if_pos htip]
    exact ⟨false, rfl, fun h => absurd h Bool.false_ne_true, fun _ h => absurd h htip⟩

/-- The commits of `save_accepted_block_state`, for each kind of block. -/
theorem saveAcceptedBlockState_saved (hpre : pre.Sound) (hview : pre.TipViewed)
    (hpost : post.Sound) (acc : NodeState.Accepted pre post entry b u) (store : SqliteStore)
    (hh : store.Holds pre) (hd : post.DistinctIds) :
    SavedBy (saveAcceptedBlockState post entry.blockHash pre.chain.bestTip
      (mempoolTxids pre.mempool)) store post := by
  obtain ⟨es, hes, hplan, htipmem⟩ := saveAcceptedBlock_eq hpost acc
  obtain ⟨refresh, hrefresh, htrue, hfalse⟩ := refresh_cases hpost acc
  rw [SavedBy, saveAcceptedBlockState, hplan, hrefresh, Option.bind_some]
  cases refresh with
  | true =>
    have htip := htrue rfl
    obtain ⟨more, hmore, store', hrun, hholds⟩ := save_refreshed hpre hpost acc store hh htip
    rw [if_pos (htipmem htip), hmore]
    exact ⟨_, store', rfl, hrun, hholds⟩
  | false =>
    by_cases htip : post.chain.bestTip = some entry.blockHash
    · obtain ⟨hparent, hincluded⟩ := hfalse rfl htip
      have hfresh : pre.chain.get entry.blockHash = none := by
        rcases acc.known with hsame | ⟨hn, -⟩
        · -- a block is not its own parent
          rw [hsame, htip] at hparent
          obtain ⟨p, hp, hheight⟩ := hpost.parent_entry _ _ entry acc.entry_get hparent
          obtain rfl := Option.some.inj (acc.entry_get.symm.trans hp)
          omega
        · exact hn
      obtain ⟨store', hrun, hholds⟩ :=
        save_extension hpre hview hpost acc store hh hd htip hfresh hparent hincluded
      rw [if_pos (htipmem htip)]
      exact ⟨_, store', rfl, hrun, hholds⟩
    · by_cases hon : entry ∈ es
      · obtain ⟨store', hrun, hholds⟩ := save_known hpre hpost acc store hh hd htip fun es' hes' =>
          Option.some.inj (hes.symm.trans hes') ▸ hon
        rw [if_pos hon]
        exact ⟨_, store', rfl, hrun, hholds⟩
      · obtain ⟨store', hrun, hholds⟩ := save_aside hpre hpost acc store hh hd htip
        rw [if_neg hon]
        exact ⟨_, store', rfl, hrun, hholds⟩

/-- `save_sqlite` commits the same for a block. -/
theorem saveSqlite_block (hpost : post.Sound) (acc : NodeState.Accepted pre post entry b u)
    (message : WireMessage) (request : Option BlockHash) (replies : List WireMessage)
    (hmessage : ∀ tx, message ≠ .announceTx tx)
    (hhash : request.or (minedBlockHash replies) = some entry.blockHash) :
    saveSqlite post message request pre.chain.bestTip (mempoolTxids pre.mempool) replies =
      saveAcceptedBlockState post entry.blockHash pre.chain.bestTip
        (mempoolTxids pre.mempool) := by
  obtain ⟨es, -, hplan, -⟩ := saveAcceptedBlock_eq hpost acc
  obtain ⟨refresh, hrefresh, -⟩ := refresh_cases hpost acc
  rw [saveSqlite]
  · rw [hhash]
    dsimp only
    cases refresh with
    | true => rw [hrefresh]
    | false => rw [hrefresh, saveAcceptedBlockState, hplan, hrefresh, Option.bind_some]
  · exact hmessage

/-- Saving a block incrementally leaves the tables as a full save of the state after it would,
by either of the server's two ways to save, wherever the block lands. -/
theorem block_save_refines [Profile] (pre : NodeState) (hr : pre.Reachable) (block : Block)
    (hok : (pre.acceptBlock block).2 = .ok ()) (hd : (pre.acceptBlock block).1.DistinctIds)
    (store : SqliteStore) (hh : store.Holds pre) :
    SavedBy (saveAcceptedBlockState (pre.acceptBlock block).1 block.header.blockHash
        pre.chain.bestTip (mempoolTxids pre.mempool)) store (pre.acceptBlock block).1 ∧
      ∀ (message : WireMessage) (request : Option BlockHash) (replies : List WireMessage),
        (∀ tx, message ≠ .announceTx tx) →
        request.or (minedBlockHash replies) = some block.header.blockHash →
        SavedBy (saveSqlite (pre.acceptBlock block).1 message request pre.chain.bestTip
          (mempoolTxids pre.mempool) replies) store (pre.acceptBlock block).1 := by
  have hpre := hr.sound
  have hpost := hpre.acceptBlock block
  obtain ⟨entry, b, u, acc, hhash⟩ := hpre.accepted block hok
  have hsaved := saveAcceptedBlockState_saved hpre hr.tipViewed hpost acc store hh hd
  rw [← hhash]
  refine ⟨hsaved, ?_⟩
  intro message request replies hmessage hrequest
  rw [saveSqlite_block hpost acc message request replies hmessage hrequest]
  exact hsaved

end Save

section SampleSave

open NodeState (sampleBlock paymentPending paymentPending_okReachable)

attribute [local instance] NodeState.sampleCrypto NodeState.sampleProfile

theorem paymentPending_distinctIds : (paymentPending.acceptBlock sampleBlock).1.DistinctIds := by
  have hany : ((paymentPending.acceptBlock sampleBlock).1.chain.bestChainEntries.any fun entries =>
      decide (((paymentPending.acceptBlock sampleBlock).1.transactionsOn entries).map
          Transaction.id ++
        (paymentPending.acceptBlock sampleBlock).1.mempool.iter.map Prod.fst).Nodup) = true := by
    decide +kernel
  obtain ⟨entries, he, hn⟩ := (Option.any_eq_true _ _).mp hany
  exact ⟨entries, he, of_decide_eq_true hn⟩

theorem sampleBlock_save_refines :
    ∃ store, new.saveNodeState paymentPending = some (.ok store) ∧
      SavedBy (saveAcceptedBlockState (paymentPending.acceptBlock sampleBlock).1
        sampleBlock.header.blockHash paymentPending.chain.bestTip
        (mempoolTxids paymentPending.mempool)) store
        (paymentPending.acceptBlock sampleBlock).1 := by
  obtain ⟨store, hsave, -⟩ := saveNodeState_saved paymentPending_okReachable.complete.sound new
  have hsame : store.SameTables store := ⟨rfl, rfl, rfl, rfl, rfl, .refl _, rfl⟩
  exact ⟨store, hsave, (block_save_refines paymentPending paymentPending_okReachable.reachable
    sampleBlock (by decide +kernel) paymentPending_distinctIds store ⟨store, hsave, hsame⟩).1⟩

end SampleSave

end SqliteStore

end Wobble
