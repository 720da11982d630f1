import Wobble.Node.NoDoubleSpend
import Wobble.Node.Replay
import Wobble.Store.Incremental

namespace Wobble

open Rust

section Spec

variable [Crypto]

/-- The output an outpoint names among some transactions. -/
def outputAt (txs : List Transaction) (outpoint : OutPoint) : Option TxOut :=
  (txs.find? fun tx => tx.id == outpoint.txid).bind fun tx => tx.outputs[outpoint.vout.toNat]?

/-- The edges of one transaction, over the way the outputs it spends are looked up. -/
def edgesOf (resolve : OutPoint → Option TxOut) (tx : Transaction) : List TransactionKeyEdge :=
  (tx.inputs.filterMap fun input =>
      (resolve input.previousOutput).map fun previousOutput =>
        ⟨tx.id, .input, previousOutput.lockingData, some previousOutput.value,
          some input.previousOutput.vout⟩) ++
    tx.outputs.mapIdx fun vout output =>
      ⟨tx.id, .output, output.lockingData, some output.value, some (UInt32.ofNat vout)⟩

/-- The edges of transactions one after the other, each resolved by those before it. -/
def indexEdges : List Transaction → List Transaction → List TransactionKeyEdge
  | _, [] => []
  | before, tx :: rest => edgesOf (outputAt before) tx ++ indexEdges (before ++ [tx]) rest

/-- The rows of the transactions of a block from a position on. -/
def blockItems (blockHash : BlockHash) (height : Nat) :
    Nat → List Transaction → List IndexedTransaction
  | _, [] => []
  | position, tx :: rest =>
    ⟨tx.id, tx, some blockHash, some height, some (UInt32.ofNat position), .confirmed, none,
      none⟩ :: blockItems blockHash height (position + 1) rest

def NodeState.chainItems (s : NodeState) (entries : List ChainIndexEntry) :
    List IndexedTransaction :=
  entries.flatMap fun entry => (s.blocks.get entry.blockHash).elim [] fun block =>
    blockItems entry.blockHash entry.height 0 block.transactions

omit [Crypto] in
/-- The rows of the pending transactions. -/
def poolItems (pool : Mempool) : List IndexedTransaction :=
  pool.iter.map fun entry => ⟨entry.1, entry.2, none, none, none, .mempool, none, none⟩

def NodeState.indexItems (s : NodeState) (entries : List ChainIndexEntry) :
    List IndexedTransaction :=
  s.chainItems entries ++ poolItems s.mempool

/-- The transactions of the blocks of some entries. -/
def NodeState.transactionsOn (s : NodeState) (entries : List ChainIndexEntry) :
    List Transaction :=
  (s.blocksOf entries).flatMap Block.transactions

/-- No two transactions of the best chain and the pool share an id. -/
def NodeState.DistinctIds (s : NodeState) : Prop :=
  ∃ entries, s.chain.bestChainEntries = some entries ∧
    ((s.transactionsOn entries).map Transaction.id ++ s.mempool.iter.map Prod.fst).Nodup

theorem outputAt_of_mem (txs : List Transaction) (hn : (txs.map Transaction.id).Nodup)
    (tx : Transaction) (ht : tx ∈ txs) (o : OutPoint) (hid : tx.id = o.txid) :
    outputAt txs o = tx.outputs[o.vout.toNat]? := by
  have hsome : (txs.find? fun tx => tx.id == o.txid).isSome := by
    rw [List.find?_isSome]
    exact ⟨tx, ht, by simpa using hid⟩
  obtain ⟨tx', hfind⟩ := Option.isSome_iff_exists.mp hsome
  have hid' : tx'.id = o.txid := by simpa using List.find?_some hfind
  obtain rfl : tx' = tx :=
    List.inj_on_of_nodup_map hn (List.mem_of_find?_eq_some hfind) ht (hid'.trans hid.symm)
  rw [outputAt, hfind, Option.bind_some]

theorem outputAt_of_notMem (txs : List Transaction) (o : OutPoint)
    (h : o.txid ∉ txs.map Transaction.id) : outputAt txs o = none := by
  have hnone : (txs.find? fun tx => tx.id == o.txid) = none := by
    rw [List.find?_eq_none]
    intro tx ht hid
    exact h (List.mem_map.mpr ⟨tx, ht, by simpa using hid⟩)
  rw [outputAt, hnone, Option.bind_none]

theorem outputAt_concat (txs : List Transaction) (tx : Transaction) (o : OutPoint)
    (hn : tx.id ∉ txs.map Transaction.id) :
    outputAt (txs ++ [tx]) o =
      if tx.id = o.txid then tx.outputs[o.vout.toNat]? else outputAt txs o := by
  rw [outputAt, List.find?_append]
  split_ifs with hid
  · have hnone : (txs.find? fun tx => tx.id == o.txid) = none := by
      rw [List.find?_eq_none]
      intro tx' ht' hid'
      exact hn (List.mem_map.mpr ⟨tx', ht', by rw [hid]; simpa using hid'⟩)
    rw [hnone, Option.none_or, List.find?_singleton, if_pos (by simpa using hid),
      Option.bind_some]
  · rw [List.find?_singleton, if_neg (by simpa using hid), Option.or_none]
    rfl

/-- Where the ids are distinct, more transactions change nothing for an output already there. -/
theorem outputAt_eq (txs txs' : List Transaction) (o : OutPoint)
    (hn : (txs.map Transaction.id).Nodup) (hn' : (txs'.map Transaction.id).Nodup)
    (h : ∃ tx, tx ∈ txs ∧ tx ∈ txs' ∧ tx.id = o.txid) : outputAt txs o = outputAt txs' o := by
  obtain ⟨tx, ht, ht', hid⟩ := h
  rw [outputAt_of_mem txs hn tx ht o hid, outputAt_of_mem txs' hn' tx ht' o hid]

theorem mem_outputs (tx : Transaction) (hf : tx.Fits true) (o : OutPoint) (output : TxOut) :
    (o, output) ∈ tx.outputs.mapIdx
        (fun vout output => ((⟨tx.id, UInt32.ofNat vout⟩ : OutPoint), output)) ↔
      tx.id = o.txid ∧ tx.outputs[o.vout.toNat]? = some output := by
  have hfit := hf.2.2.1
  rw [List.mem_mapIdx]
  constructor
  · intro h
    obtain ⟨i, hi, he⟩ := h
    obtain ⟨rfl, rfl⟩ := Prod.mk.inj he
    rw [UInt32.toNat_ofNat_of_lt' (by rw [UInt32.size]; omega)]
    exact ⟨rfl, List.getElem?_eq_getElem hi⟩
  · intro h
    obtain ⟨hid, hout⟩ := h
    obtain ⟨hi, he⟩ := List.getElem?_eq_some_iff.mp hout
    refine ⟨o.vout.toNat, hi, ?_⟩
    rw [he, UInt32.ofNat_toNat, hid]

theorem outputs_keys_nodup (tx : Transaction) (hf : tx.Fits true) :
    ((tx.outputs.mapIdx fun vout output =>
      ((⟨tx.id, UInt32.ofNat vout⟩ : OutPoint), output)).map Prod.fst).Nodup := by
  have hfit := hf.2.2.1
  rw [List.nodup_iff_injective_get]
  intro i j hij
  have hi : i.val < tx.outputs.length := by simpa using i.isLt
  have hj : j.val < tx.outputs.length := by simpa using j.isLt
  have hv : UInt32.ofNat i.val = UInt32.ofNat j.val := by simpa using hij
  have hn := congrArg UInt32.toNat hv
  rw [UInt32.toNat_ofNat_of_lt' (by rw [UInt32.size]; omega),
    UInt32.toNat_ofNat_of_lt' (by rw [UInt32.size]; omega)] at hn
  exact Fin.ext hn

/-- The known outputs once a new transaction has been remembered. -/
theorem get_rememberOutputs (known : HashMap OutPoint TxOut) (txs : List Transaction)
    (tx : Transaction) (hknown : ∀ o, known.get o = outputAt txs o) (hf : tx.Fits true)
    (hn : tx.id ∉ txs.map Transaction.id) (o : OutPoint) :
    (known.insertAll (tx.outputs.mapIdx fun vout output =>
      (⟨tx.id, UInt32.ofNat vout⟩, output))).get o = outputAt (txs ++ [tx]) o := by
  have hmem := mem_outputs tx hf o
  rw [outputAt_concat txs tx o hn]
  cases hget : if tx.id = o.txid then tx.outputs[o.vout.toNat]? else none with
  | some output =>
    have hid : tx.id = o.txid := by
      by_contra hid
      rw [if_neg hid] at hget
      cases hget
    rw [if_pos hid] at hget ⊢
    rw [hget]
    exact HashMap.get_insertAll_of_mem _ _ _ _ (outputs_keys_nodup tx hf)
      ((hmem output).mpr ⟨hid, hget⟩)
  | none =>
    have hnot : o ∉ (tx.outputs.mapIdx fun vout output =>
        ((⟨tx.id, UInt32.ofNat vout⟩ : OutPoint), output)).map Prod.fst := by
      intro ho
      obtain ⟨⟨o', output⟩, hout, rfl⟩ := List.mem_map.mp ho
      obtain ⟨hid, hout⟩ := (hmem output).mp hout
      rw [if_pos hid, hout] at hget
      cases hget
    rw [HashMap.get_insertAll_of_notMem _ _ _ hnot, hknown]
    split_ifs with hid
    · rw [if_pos hid] at hget
      rw [hget]
      exact outputAt_of_notMem txs o (hid ▸ hn)
    · rfl

theorem keyEdges_eq {ε : Type} (resolve : OutPoint → Option TxOut) (tx : Transaction)
    (hf : tx.Fits true) :
    (keyEdges resolve tx : Res ε _) = .ok (edgesOf resolve tx) := by
  rw [keyEdges, Transaction.txid_eq, if_pos hf]
  rfl

theorem edgesOf_congr (resolve resolve' : OutPoint → Option TxOut) (tx : Transaction)
    (h : ∀ o ∈ tx.spends, resolve o = resolve' o) : edgesOf resolve tx = edgesOf resolve' tx := by
  rw [edgesOf, edgesOf]
  congr 1
  refine List.filterMap_congr fun input hi => ?_
  rw [h _ (List.mem_map_of_mem hi)]

theorem txid_of_edgesOf (resolve : OutPoint → Option TxOut) (tx : Transaction)
    (edge : TransactionKeyEdge) (he : edge ∈ edgesOf resolve tx) : edge.txid = tx.id := by
  rcases List.mem_append.mp he with he | he
  · obtain ⟨input, -, he⟩ := List.mem_filterMap.mp he
    obtain ⟨output, -, rfl⟩ := Option.map_eq_some_iff.mp he
    rfl
  · obtain ⟨vout, -, rfl⟩ := List.mem_mapIdx.mp he
    rfl

/-- The edges under some of the ids are those of the transactions that have them. -/
theorem filter_flatMap_edgesOf (resolve : OutPoint → Option TxOut) (p : Txid → Bool)
    (txs : List Transaction) :
    ((txs.flatMap (edgesOf resolve)).filter fun edge => p edge.txid) =
      (txs.filter fun tx => p tx.id).flatMap (edgesOf resolve) := by
  induction txs with
  | nil => rfl
  | cons tx rest ih =>
    have hall : ∀ edge ∈ edgesOf resolve tx, p edge.txid = p tx.id := fun edge he => by
      rw [txid_of_edgesOf _ _ _ he]
    rw [List.flatMap_cons, List.filter_append, ih, List.filter_cons, List.filter_congr hall]
    cases p tx.id <;> simp

theorem indexEdges_append (before txs txs' : List Transaction) :
    indexEdges before (txs ++ txs') =
      indexEdges before txs ++ indexEdges (before ++ txs) txs' := by
  induction txs generalizing before with
  | nil => simp [indexEdges]
  | cons tx rest ih =>
    rw [List.cons_append, indexEdges, indexEdges, ih, List.append_assoc, List.append_assoc]
    rfl

theorem txid_of_indexEdges (before txs : List Transaction) (edge : TransactionKeyEdge)
    (he : edge ∈ indexEdges before txs) : edge.txid ∈ txs.map Transaction.id := by
  induction txs generalizing before with
  | nil => cases he
  | cons tx rest ih =>
    rcases List.mem_append.mp he with he | he
    · rw [txid_of_edgesOf _ _ _ he]
      exact List.mem_cons_self
    · exact List.mem_cons_of_mem _ (ih _ he)

/-- If each transaction spends only what stands before it, the edges are those that all of the
outputs resolve. -/
theorem indexEdges_eq_of_earlier (before txs : List Transaction)
    (hn : ((before ++ txs).map Transaction.id).Nodup)
    (h : ∀ earlier tx later, txs = earlier ++ tx :: later →
      ∀ o ∈ tx.spends, ∃ tx' ∈ before ++ earlier, tx'.id = o.txid) :
    indexEdges before txs = txs.flatMap (edgesOf (outputAt (before ++ txs))) := by
  induction txs generalizing before with
  | nil => rfl
  | cons tx rest ih =>
    have hall : before ++ [tx] ++ rest = before ++ tx :: rest := by simp
    have hrest : ∀ earlier tx' later, rest = earlier ++ tx' :: later →
        ∀ o ∈ tx'.spends, ∃ tx'' ∈ before ++ [tx] ++ earlier, tx''.id = o.txid := by
      intro earlier tx' later hsplit o ho
      have hmem := h (tx :: earlier) tx' later (by rw [hsplit, List.cons_append]) o ho
      simpa using hmem
    have hb : (before.map Transaction.id).Nodup :=
      hn.sublist ((List.sublist_append_left _ _).map _)
    rw [indexEdges, ih (before ++ [tx]) (hall ▸ hn) hrest, hall, List.flatMap_cons]
    congr 1
    refine edgesOf_congr _ _ tx fun o ho => ?_
    obtain ⟨tx', ht', hid⟩ := h [] tx rest rfl o ho
    rw [List.append_nil] at ht'
    exact outputAt_eq _ _ o hb hn ⟨tx', ht', List.mem_append_left _ ht', hid⟩

/-- If the transactions spend only what stands before all of them, each has its edges whatever
the order. -/
theorem indexEdges_eq_flatMap (before txs : List Transaction)
    (hn : ((before ++ txs).map Transaction.id).Nodup)
    (h : ∀ tx ∈ txs, ∀ o ∈ tx.spends, ∃ tx' ∈ before, tx'.id = o.txid) :
    indexEdges before txs = txs.flatMap (edgesOf (outputAt before)) := by
  have hearlier : ∀ earlier tx later, txs = earlier ++ tx :: later →
      ∀ o ∈ tx.spends, ∃ tx' ∈ before ++ earlier, tx'.id = o.txid := by
    intro earlier tx later hsplit o ho
    obtain ⟨tx', ht', hid⟩ := h tx (hsplit ▸ List.mem_append_right _ List.mem_cons_self) o ho
    exact ⟨tx', List.mem_append_left _ ht', hid⟩
  rw [indexEdges_eq_of_earlier before txs hn hearlier]
  refine List.flatMap_congr fun tx ht => edgesOf_congr _ _ tx fun o ho => ?_
  obtain ⟨tx', ht', hid⟩ := h tx ht o ho
  have hb : (before.map Transaction.id).Nodup :=
    hn.sublist ((List.sublist_append_left _ _).map _)
  exact outputAt_eq _ _ o hn hb ⟨tx', List.mem_append_left _ ht', ht', hid⟩

/-- Every row is that of a transaction that can be encoded, under its id. -/
def KeyedItems (items : List IndexedTransaction) : Prop :=
  ∀ item ∈ items, item.transaction.Fits true ∧ item.transaction.id = item.txid

theorem KeyedItems.ids {items : List IndexedTransaction} (h : KeyedItems items) :
    (items.map IndexedTransaction.transaction).map Transaction.id =
      items.map IndexedTransaction.txid := by
  rw [List.map_map]
  exact List.map_congr_left fun item hi => (h item hi).2

namespace IndexBuild

/-- The rows built are the given ones, all of their outputs are known, and the edges are
resolved in order. -/
structure Built (build : IndexBuild) (items : List IndexedTransaction) : Prop where
  transactions : build.transactions = items
  edges : build.edges = indexEdges [] (items.map IndexedTransaction.transaction)
  seen : ∀ txid, build.seenTxids.containsKey txid = true →
    txid ∈ items.map IndexedTransaction.txid
  known : ∀ o, build.knownOutputs.get o =
    outputAt (items.map IndexedTransaction.transaction) o

theorem new_built : new.Built [] where
  transactions := rfl
  edges := rfl
  seen := by simp [new]
  known := by simp [new, outputAt]

variable {ε : Type} {build : IndexBuild} {items : List IndexedTransaction}

theorem Built.index (hb : build.Built items) (hk : KeyedItems items) (item : IndexedTransaction)
    (hf : item.transaction.Fits true) (hid : item.transaction.id = item.txid)
    (hn : item.txid ∉ items.map IndexedTransaction.txid) :
    ∃ build', (build.index item : Res ε IndexBuild) = .ok build' ∧
      build'.Built (items ++ [item]) := by
  have hseen : ¬ build.seenTxids.containsKey item.txid = true := fun h => hn (hb.seen _ h)
  have hfresh : item.transaction.id ∉
      (items.map IndexedTransaction.transaction).map Transaction.id := by
    rw [hk.ids, hid]
    exact hn
  have hedges : (appendTransactionKeyEdges item.transaction build.knownOutputs : Res ε _) =
      .ok (edgesOf build.knownOutputs.get item.transaction) :=
    keyEdges_eq build.knownOutputs.get item.transaction hf
  rw [IndexBuild.index, if_neg hseen, hedges, Res.ok_bind, rememberOutputs, Transaction.txid_eq,
    if_pos hf]
  refine ⟨_, rfl, ?_, ?_, ?_, ?_⟩
  · rw [hb.transactions]
  · dsimp only
    have hcongr : edgesOf build.knownOutputs.get item.transaction =
        edgesOf (outputAt (items.map IndexedTransaction.transaction)) item.transaction :=
      edgesOf_congr _ _ _ fun o _ => hb.known o
    rw [hb.edges, hcongr, List.map_append, indexEdges_append]
    simp [indexEdges]
  · intro txid ht
    rw [HashMap.containsKey_eq_true, HashMap.get_insert] at ht
    rw [List.map_append, List.mem_append]
    by_cases heq : txid = item.txid
    · exact .inr (by simp [heq])
    · rw [if_neg heq] at ht
      exact .inl (hb.seen txid ((HashMap.containsKey_eq_true _ _).mpr ht))
  · intro o
    rw [List.map_append]
    exact get_rememberOutputs _ _ _ hb.known hf hfresh o

/-- Rows of different ids are added one after the other, except those whose id has a row. -/
theorem Built.indexAll (hb : build.Built items) (hd : build.Distinct)
    (more : List IndexedTransaction) (hk : KeyedItems (items ++ more))
    (hn : (more.map IndexedTransaction.txid).Nodup) :
    ∃ build', (more.foldlM IndexBuild.index build : Res ε IndexBuild) = .ok build' ∧
      build'.Distinct ∧ build'.Built (items ++ more.filter fun item =>
        !decide (item.txid ∈ items.map IndexedTransaction.txid)) := by
  induction more generalizing build items with
  | nil => exact ⟨build, rfl, hd, by rwa [List.filter_nil, List.append_nil]⟩
  | cons item rest ih =>
    obtain ⟨hf, hid⟩ := hk item (by simp)
    have hall : items ++ item :: rest = items ++ [item] ++ rest := by simp
    have hkeyed : KeyedItems items := fun i hi => hk i (List.mem_append_left _ hi)
    rw [List.map_cons, List.nodup_cons] at hn
    obtain ⟨hfresh, hnrest⟩ := hn
    rw [List.foldlM_cons, List.filter_cons]
    by_cases hmem : item.txid ∈ items.map IndexedTransaction.txid
    · have hseen : build.seenTxids.containsKey item.txid = true := by
        obtain ⟨old, hold, heq⟩ := List.mem_map.mp hmem
        exact heq ▸ hd.seen old (hb.transactions ▸ hold)
      have hskip : (build.index item : Res ε IndexBuild) = .ok build := if_pos hseen
      have hkrest : KeyedItems (items ++ rest) := fun i hi =>
        hk i (List.append_subset.mpr ⟨List.subset_append_left _ _,
          fun _ h => List.mem_append_right _ (List.mem_cons_of_mem _ h)⟩ hi)
      obtain ⟨build', heq, hd', hb'⟩ := ih hb hd hkrest hnrest
      refine ⟨build', ?_, hd', ?_⟩
      · rw [hskip]
        exact heq
      · simpa [hmem] using hb'
    · obtain ⟨build₁, heq₁, hb₁⟩ := hb.index (ε := ε) hkeyed item hf hid hmem
      obtain ⟨build₁', heq₁', hd₁⟩ := hd.index (ε := ε) item hf
      obtain rfl := Except.ok.inj (heq₁.symm.trans heq₁')
      obtain ⟨build', heq, hd', hb'⟩ := ih hb₁ hd₁ (hall ▸ hk) hnrest
      refine ⟨build', ?_, hd', ?_⟩
      · rw [heq₁]
        exact heq
      -- the row just added has none of the ids to come
      · have hfilter : (rest.filter fun i =>
              !decide (i.txid ∈ (items ++ [item]).map IndexedTransaction.txid)) =
            rest.filter fun i => !decide (i.txid ∈ items.map IndexedTransaction.txid) := by
          refine List.filter_congr fun i hi => ?_
          have hne : i.txid ≠ item.txid := fun h => hfresh (h ▸ List.mem_map_of_mem hi)
          simp [hne]
        rw [hfilter, List.append_assoc] at hb'
        simpa [hmem] using hb'

theorem indexBlock_eq (entry : ChainIndexEntry) (position : Nat) (txs : List Transaction)
    (build : IndexBuild) (hf : ∀ tx ∈ txs, tx.Fits true) :
    (indexBlock entry position txs build : Res ε IndexBuild) =
      (blockItems entry.blockHash entry.height position txs).foldlM IndexBuild.index build := by
  induction txs generalizing position build with
  | nil => rfl
  | cons tx rest ih =>
    obtain ⟨hft, hfr⟩ := List.forall_mem_cons.mp hf
    rw [indexBlock, Transaction.txid_eq, if_pos hft, Res.ok_bind, blockItems, List.foldlM_cons]
    congr 1
    funext build'
    exact ih (position + 1) build' hfr

theorem indexChain_eq (s : NodeState) (entries : List ChainIndexEntry) (build : IndexBuild)
    (hf : ∀ h block, s.blocks.get h = some block → ∀ tx ∈ block.transactions, tx.Fits true) :
    (indexChain s entries build : Res ε IndexBuild) =
      (s.chainItems entries).foldlM IndexBuild.index build := by
  induction entries generalizing build with
  | nil => rfl
  | cons entry rest ih =>
    rw [indexChain, NodeState.chainItems, List.flatMap_cons, List.foldlM_append]
    cases hblock : s.blocks.get entry.blockHash with
    | none => exact ih build
    | some block =>
      dsimp only [Option.elim_some]
      rw [indexBlock_eq entry 0 block.transactions build (hf _ block hblock)]
      congr 1
      funext build'
      exact ih build'

theorem indexMempool_eq (pool : List (Txid × Transaction)) (build : IndexBuild) :
    (indexMempool pool build : Res ε IndexBuild) =
      (pool.map fun entry => (⟨entry.1, entry.2, none, none, none, .mempool, none, none⟩ :
        IndexedTransaction)).foldlM IndexBuild.index build := by
  induction pool generalizing build with
  | nil => rfl
  | cons entry rest ih =>
    obtain ⟨txid, tx⟩ := entry
    rw [indexMempool, List.map_cons, List.foldlM_cons]
    congr 1
    funext build'
    exact ih build'

end IndexBuild

theorem blockItems_transaction (blockHash : BlockHash) (height position : Nat)
    (txs : List Transaction) :
    (blockItems blockHash height position txs).map IndexedTransaction.transaction = txs := by
  induction txs generalizing position with
  | nil => rfl
  | cons tx rest ih => rw [blockItems, List.map_cons, ih]

theorem blockItems_txid (blockHash : BlockHash) (height position : Nat) (txs : List Transaction) :
    (blockItems blockHash height position txs).map IndexedTransaction.txid =
      txs.map Transaction.id := by
  induction txs generalizing position with
  | nil => rfl
  | cons tx rest ih => rw [blockItems, List.map_cons, List.map_cons, ih]

theorem blockItems_keyed (blockHash : BlockHash) (height position : Nat) (txs : List Transaction)
    (hf : ∀ tx ∈ txs, tx.Fits true) : KeyedItems (blockItems blockHash height position txs) := by
  induction txs generalizing position with
  | nil => simp [blockItems, KeyedItems]
  | cons tx rest ih =>
    obtain ⟨hft, hfr⟩ := List.forall_mem_cons.mp hf
    exact List.forall_mem_cons.mpr ⟨⟨hft, rfl⟩, ih (position + 1) hfr⟩

/-- New rows carry no times. -/
theorem blockItems_firstSeenAt (blockHash : BlockHash) (height position : Nat)
    (txs : List Transaction) :
    ∀ item ∈ blockItems blockHash height position txs, item.firstSeenAt = none := by
  induction txs generalizing position with
  | nil => simp [blockItems]
  | cons tx rest ih => exact List.forall_mem_cons.mpr ⟨rfl, ih (position + 1)⟩

theorem blockItems_status (blockHash : BlockHash) (height position : Nat)
    (txs : List Transaction) :
    ∀ item ∈ blockItems blockHash height position txs, item.status = .confirmed := by
  induction txs generalizing position with
  | nil => simp [blockItems]
  | cons tx rest ih => exact List.forall_mem_cons.mpr ⟨rfl, ih (position + 1)⟩

theorem NodeState.chainItems_status (s : NodeState) (entries : List ChainIndexEntry) :
    ∀ item ∈ s.chainItems entries, item.status = .confirmed := by
  intro item hi
  obtain ⟨entry, -, hi⟩ := List.mem_flatMap.mp hi
  cases hb : s.blocks.get entry.blockHash with
  | none =>
    rw [hb] at hi
    cases hi
  | some block =>
    rw [hb] at hi
    exact blockItems_status _ _ 0 _ item hi

theorem NodeState.indexItems_firstSeenAt (s : NodeState) (entries : List ChainIndexEntry) :
    ∀ item ∈ s.indexItems entries, item.firstSeenAt = none := by
  intro item hi
  rcases List.mem_append.mp hi with hi | hi
  · obtain ⟨entry, -, hi⟩ := List.mem_flatMap.mp hi
    cases hb : s.blocks.get entry.blockHash with
    | none =>
      rw [hb] at hi
      cases hi
    | some block =>
      rw [hb] at hi
      exact blockItems_firstSeenAt _ _ 0 _ item hi
  · obtain ⟨entry, -, rfl⟩ := List.mem_map.mp hi
    rfl

omit [Crypto] in
theorem poolItems_txid (pool : Mempool) :
    (poolItems pool).map IndexedTransaction.txid = pool.iter.map Prod.fst := by
  rw [poolItems, List.map_map]
  rfl

namespace NodeState

variable {s : NodeState}

theorem chainItems_append (s : NodeState) (entries entries' : List ChainIndexEntry) :
    s.chainItems (entries ++ entries') = s.chainItems entries ++ s.chainItems entries' :=
  List.flatMap_append

theorem chainItems_transaction (s : NodeState) (entries : List ChainIndexEntry) :
    (s.chainItems entries).map IndexedTransaction.transaction = s.transactionsOn entries := by
  induction entries with
  | nil => rfl
  | cons entry rest ih =>
    rw [chainItems, List.flatMap_cons, List.map_append, transactionsOn, blocksOf,
      List.filterMap_cons]
    cases hb : s.blocks.get entry.blockHash with
    | none => exact ih
    | some block =>
      rw [List.flatMap_cons, Option.elim_some, blockItems_transaction]
      exact congrArg _ ih

theorem Sound.fits_of_block (hs : s.Sound) (h : BlockHash) (block : Block)
    (hb : s.blocks.get h = some block) (tx : Transaction) (ht : tx ∈ block.transactions) :
    tx.Fits true := by
  obtain ⟨e, he⟩ := (hs.stored h).mp ⟨block, hb⟩
  obtain ⟨-, coinbase, rest, hok⟩ :=
    (validateBlock_eq_ok block).mp (hs.entryOf h block e hb he).1
  exact hok.fits tx ht

theorem Sound.chainItems_keyed (hs : s.Sound) (entries : List ChainIndexEntry) :
    KeyedItems (s.chainItems entries) := by
  intro item hi
  obtain ⟨entry, -, hi⟩ := List.mem_flatMap.mp hi
  cases hb : s.blocks.get entry.blockHash with
  | none =>
    rw [hb] at hi
    cases hi
  | some block =>
    rw [hb] at hi
    exact blockItems_keyed _ _ 0 _ (hs.fits_of_block _ block hb) item hi

theorem Sound.poolItems_keyed (hs : s.Sound) : KeyedItems (poolItems s.mempool) := by
  intro item hi
  obtain ⟨⟨txid, tx⟩, he, rfl⟩ := List.mem_map.mp hi
  exact hs.pool.fits txid tx ((HashMap.mem_iter _ _ _).mp he)

theorem Sound.pool_ids (hs : s.Sound) :
    (s.mempool.iter.map Prod.snd).map Transaction.id = s.mempool.iter.map Prod.fst := by
  rw [List.map_map]
  exact List.map_congr_left fun entry he =>
    (hs.pool.fits entry.1 entry.2 ((HashMap.mem_iter _ _ _).mp he)).2

theorem Sound.mem_pool_iff (hs : s.Sound) (tx : Transaction) :
    tx ∈ s.mempool.iter.map Prod.snd ↔ s.mempool.get tx.id = some tx := by
  rw [List.mem_map]
  constructor
  · intro h
    obtain ⟨⟨txid, tx'⟩, he, rfl⟩ := h
    have hget := (HashMap.mem_iter _ _ _).mp he
    rw [(hs.pool.fits txid tx' hget).2, hget]
  · intro h
    exact ⟨(tx.id, tx), (HashMap.mem_iter _ _ _).mpr h, rfl⟩

theorem Sound.pool_nodup (hs : s.Sound) : (s.mempool.iter.map Prod.snd).Nodup := by
  refine List.Nodup.of_map Transaction.id ?_
  rw [hs.pool_ids]
  exact HashMap.iter_keys_nodup _

theorem Sound.indexItems_keyed (hs : s.Sound) (entries : List ChainIndexEntry) :
    KeyedItems (s.indexItems entries) := by
  intro item hi
  rcases List.mem_append.mp hi with hi | hi
  · exact hs.chainItems_keyed entries item hi
  · exact hs.poolItems_keyed item hi

theorem Sound.indexItems_txid (hs : s.Sound) (entries : List ChainIndexEntry) :
    (s.indexItems entries).map IndexedTransaction.txid =
      (s.transactionsOn entries).map Transaction.id ++ s.mempool.iter.map Prod.fst := by
  rw [indexItems, List.map_append, ← (hs.chainItems_keyed entries).ids, chainItems_transaction,
    poolItems_txid]

/-- The transactions the index covers: those of the chain, then those of the pool. -/
theorem indexItems_transaction (s : NodeState) (entries : List ChainIndexEntry) :
    (s.indexItems entries).map IndexedTransaction.transaction =
      s.transactionsOn entries ++ s.mempool.iter.map Prod.snd := by
  rw [indexItems, List.map_append, chainItems_transaction, poolItems, List.map_map]
  rfl

/-- The pending rows that are added: a pending transaction with the id of one of the chain has
no row of its own. -/
def freshItems (s : NodeState) (entries : List ChainIndexEntry) : List IndexedTransaction :=
  (poolItems s.mempool).filter fun item =>
    !decide (item.txid ∈ (s.transactionsOn entries).map Transaction.id)

/-- With distinct ids on the chain, it has all its rows, and every edge is resolved by the
transactions before it. -/
theorem Sound.buildTransactionIndex_fresh {ε : Type} (hs : s.Sound)
    (entries : List ChainIndexEntry) (he : s.chain.bestChainEntries = some entries)
    (hn : ((s.transactionsOn entries).map Transaction.id).Nodup) :
    (buildTransactionIndex s : Option (Res ε _)) =
      some (.ok (s.chainItems entries ++ s.freshItems entries,
        indexEdges [] (s.transactionsOn entries ++
          (s.freshItems entries).map IndexedTransaction.transaction))) := by
  have hids : (s.chainItems entries).map IndexedTransaction.txid =
      (s.transactionsOn entries).map Transaction.id := by
    rw [← (hs.chainItems_keyed entries).ids, chainItems_transaction]
  obtain ⟨build₁, heq₁, hd₁, hb₁⟩ := IndexBuild.new_built.indexAll (ε := ε)
    IndexBuild.new_distinct (s.chainItems entries) (hs.chainItems_keyed entries) (hids ▸ hn)
  rw [List.filter_eq_self.mpr fun item _ => by simp, List.nil_append] at hb₁
  obtain ⟨build₂, heq₂, -, hb₂⟩ := hb₁.indexAll (ε := ε) hd₁ (poolItems s.mempool)
    (hs.indexItems_keyed entries)
    (by rw [poolItems_txid]; exact HashMap.iter_keys_nodup s.mempool)
  rw [hids] at hb₂
  change build₂.Built (s.chainItems entries ++ s.freshItems entries) at hb₂
  rw [← IndexBuild.indexChain_eq s entries _ fun h block hb => hs.fits_of_block h block hb]
    at heq₁
  rw [poolItems, ← IndexBuild.indexMempool_eq] at heq₂
  rw [buildTransactionIndex, he, Option.map_some, heq₁, Res.ok_bind, heq₂, Res.ok_bind,
    hb₂.transactions, hb₂.edges, List.map_append, chainItems_transaction]
  rfl

/-- With distinct ids nothing is skipped: the index has every row, and every edge is resolved by
the transactions before it. -/
theorem Sound.buildTransactionIndex_eq {ε : Type} (hs : s.Sound)
    (entries : List ChainIndexEntry) (he : s.chain.bestChainEntries = some entries)
    (hn : ((s.transactionsOn entries).map Transaction.id ++
      s.mempool.iter.map Prod.fst).Nodup) :
    (buildTransactionIndex s : Option (Res ε _)) =
      some (.ok (s.indexItems entries,
        indexEdges [] (s.transactionsOn entries ++ s.mempool.iter.map Prod.snd))) := by
  have hfresh : s.freshItems entries = poolItems s.mempool := by
    rw [freshItems, List.filter_eq_self]
    intro item hi
    have hmem : item.txid ∈ s.mempool.iter.map Prod.fst := by
      rw [← poolItems_txid]
      exact List.mem_map_of_mem hi
    simpa using fun tx ht h => (List.nodup_append.mp hn).2.2 _ (List.mem_map_of_mem ht) _ hmem h
  rw [hs.buildTransactionIndex_fresh entries he (List.nodup_append.mp hn).1, hfresh,
    ← indexItems_transaction, indexItems, List.map_append, chainItems_transaction]

end NodeState

omit [Crypto] in
theorem flatMap_split {α β : Type} (f : α → List β) (l : List α) (before after : List β) (b : β)
    (h : l.flatMap f = before ++ b :: after) :
    ∃ (i j : Nat) (a : α), l[i]? = some a ∧ (f a)[j]? = some b ∧
      before = (l.take i).flatMap f ++ (f a).take j := by
  induction l generalizing before with
  | nil => simp at h
  | cons a l ih =>
    rw [List.flatMap_cons] at h
    rcases List.append_eq_append_iff.mp h with ⟨rest, rfl, hrest⟩ | ⟨rest, hfa, hrest⟩
    · obtain ⟨i, j, x, hi, hj, rfl⟩ := ih rest hrest
      exact ⟨i + 1, j, x, by simpa using hi, hj, by simp⟩
    · cases rest with
      | nil =>
        rw [List.append_nil] at hfa
        obtain ⟨i, j, x, hi, hj, hnil⟩ := ih [] hrest.symm
        exact ⟨i + 1, j, x, by simpa using hi, hj, by simp [hfa, ← hnil]⟩
      | cons b' rest =>
        obtain ⟨rfl, rfl⟩ := List.cons.inj hrest
        exact ⟨0, before.length, a, rfl, by simp [hfa], by simp [hfa]⟩

theorem spends_before (bs : List Block) (u : UtxoSet) (h : applyChain bs = .ok u)
    (hd : ((bs.flatMap Block.transactions).map Transaction.id).Nodup)
    (before after : List Transaction) (tx : Transaction)
    (hsplit : bs.flatMap Block.transactions = before ++ tx :: after) (o : OutPoint)
    (ho : o ∈ tx.spends) :
    ∃ tx' ∈ before, tx'.id = o.txid ∧ o.vout.toNat < tx'.outputs.length := by
  rw [List.map_flatMap] at hd
  obtain ⟨i, j, b, hb, ht, rfl⟩ := flatMap_split _ _ _ _ _ hsplit
  obtain ⟨i', j', b', tx', hb', ht', hid, hlt, hbefore⟩ :=
    (chainAccounts bs u h hd).earlier i j b tx o hb ht ho
  refine ⟨tx', ?_, hid, hlt⟩
  rw [List.mem_append]
  rcases hbefore with hi | ⟨rfl, -, hj⟩
  · left
    rw [List.mem_flatMap]
    refine ⟨b', ?_, List.mem_of_getElem? ht'⟩
    exact List.mem_of_getElem? (by rw [List.getElem?_take, if_pos hi, hb'] : (bs.take i)[i']? = _)
  · right
    obtain rfl : b = b' := Option.some.inj (hb.symm.trans hb')
    exact List.mem_of_getElem?
      (by rw [List.getElem?_take, if_pos hj, ht'] : (b.transactions.take j)[j']? = _)

theorem coin_created (bs : List Block) (u : UtxoSet) (h : applyChain bs = .ok u)
    (hd : ((bs.flatMap Block.transactions).map Transaction.id).Nodup) (o : OutPoint) (x : Utxo)
    (hx : u.get o = some x) :
    ∃ tx ∈ bs.flatMap Block.transactions, tx.id = o.txid ∧
      tx.outputs[o.vout.toNat]? = some x.output := by
  rw [List.map_flatMap] at hd
  obtain ⟨-, i, j, b, tx, output, hb, ht, hid, hout, rfl⟩ :=
    ((chainAccounts bs u h hd).unspent o x).mp hx
  exact ⟨tx, List.mem_flatMap.mpr ⟨b, List.mem_of_getElem? hb, List.mem_of_getElem? ht⟩, hid,
    hout⟩

end Spec

end Wobble
