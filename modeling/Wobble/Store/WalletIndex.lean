import Wobble.Node.Candidate
import Wobble.Store.BestChain

namespace Wobble

open Rust GrowingTree SpendLog

/-- The values of the edges a key has in a role. -/
def keySum (role : TransactionKeyRole) (key : Bytes) (edges : List TransactionKeyEdge) : Nat :=
  (edges.map fun edge =>
    if edge.keyRole = role ∧ edge.keyData = key then (edge.value.getD 0).toNat else 0).sum

/-- What an output is worth to a key. -/
def TxOut.worth (key : Bytes) (output : TxOut) : Nat :=
  if output.lockingData = key then output.value.toNat else 0

theorem keySum_append (role : TransactionKeyRole) (key : Bytes)
    (edges edges' : List TransactionKeyEdge) :
    keySum role key (edges ++ edges') = keySum role key edges + keySum role key edges' := by
  rw [keySum, List.map_append, List.sum_append]
  rfl

theorem sum_map_flatMap {α β : Type} (f : α → List β) (g : β → Nat) (l : List α) :
    ((l.flatMap f).map g).sum = (l.map fun a => ((f a).map g).sum).sum := by
  induction l with
  | nil => rfl
  | cons a l ih =>
    rw [List.flatMap_cons, List.map_append, List.sum_append, ih, List.map_cons, List.sum_cons]

theorem keySum_flatMap (role : TransactionKeyRole) (key : Bytes)
    (f : Transaction → List TransactionKeyEdge) (txs : List Transaction) :
    keySum role key (txs.flatMap f) = (txs.map fun tx => keySum role key (f tx)).sum :=
  sum_map_flatMap f _ txs

section Edges

variable [Crypto]

theorem keySum_output (key : Bytes) (resolve : OutPoint → Option TxOut) (tx : Transaction) :
    keySum .output key (edgesOf resolve tx) = (tx.outputs.map (TxOut.worth key)).sum := by
  have hinputs : ∀ inputs : List TxIn, keySum .output key (inputs.filterMap fun input =>
      (resolve input.previousOutput).map fun previousOutput =>
        ⟨tx.id, .input, previousOutput.lockingData, some previousOutput.value,
          some input.previousOutput.vout⟩) = 0 := by
    intro inputs
    refine List.sum_eq_zero fun n hn => ?_
    obtain ⟨edge, he, rfl⟩ := List.mem_map.mp hn
    obtain ⟨input, -, he⟩ := List.mem_filterMap.mp he
    obtain ⟨output, -, rfl⟩ := Option.map_eq_some_iff.mp he
    simp
  rw [edgesOf, keySum_append, hinputs, Nat.zero_add, keySum, List.mapIdx_eq_zipIdx_map,
    List.map_map]
  conv_rhs => rw [← List.zipIdx_map_fst 0 tx.outputs, List.map_map]
  refine congrArg List.sum (List.map_congr_left fun p _ => ?_)
  simp [TxOut.worth]

theorem keySum_input (key : Bytes) (resolve : OutPoint → Option TxOut) (tx : Transaction) :
    keySum .input key (edgesOf resolve tx) =
      (tx.spends.map fun o => (resolve o).elim 0 (TxOut.worth key)).sum := by
  have houtputs : keySum .input key (tx.outputs.mapIdx fun vout output =>
      ⟨tx.id, .output, output.lockingData, some output.value, some (UInt32.ofNat vout)⟩) = 0 := by
    refine List.sum_eq_zero fun n hn => ?_
    obtain ⟨edge, he, rfl⟩ := List.mem_map.mp hn
    obtain ⟨vout, -, rfl⟩ := List.mem_mapIdx.mp he
    simp
  rw [edgesOf, keySum_append, houtputs, Nat.add_zero, Transaction.spends, List.map_map]
  generalize tx.inputs = inputs
  induction inputs with
  | nil => rfl
  | cons input rest ih =>
    rw [List.map_cons, List.sum_cons, ← ih, Function.comp_apply, List.filterMap_cons]
    cases resolve input.previousOutput with
    | none => simp
    | some output => simp [keySum, TxOut.worth]

/-- What a key owns after a chain is what the chain paid to it less what the chain spent of it. -/
theorem chain_worth (key : Bytes) (bs : List Block) (u : UtxoSet) (h : applyChain bs = .ok u)
    (hd : ((bs.flatMap Block.transactions).map Transaction.id).Nodup) :
    (u.total fun x => x.output.worth key) +
        keySum .input key ((bs.flatMap Block.transactions).flatMap
          (edgesOf (outputAt (bs.flatMap Block.transactions)))) =
      keySum .output key ((bs.flatMap Block.transactions).flatMap
        (edgesOf (outputAt (bs.flatMap Block.transactions)))) := by
  obtain ⟨happ, heq, hval⟩ := applicable_of_applyFrom 0 HashMap.new u bs h
  have hfits := fits_of_valid bs hval
  have hnodup := created_nodup (placed 0 bs) hfits (ids_nodup bs (by rwa [← List.map_flatMap]))
  have hperm := placed_perm 0 bs
  have hvalue : ∀ p ∈ created (logOf (placed 0 bs)),
      (outputAt (bs.flatMap Block.transactions) p.1).elim 0 (TxOut.worth key) =
        p.2.output.worth key := by
    intro p hp
    obtain ⟨⟨height, tx⟩, hmem, hid, output, hout, hx⟩ :=
      (mem_created_logOf _ hfits p.1 p.2).mp hp
    have ht : tx ∈ bs.flatMap Block.transactions :=
      hperm.mem_iff.mp (List.mem_map_of_mem hmem)
    rw [outputAt_of_mem _ hd tx ht p.1 hid, hout, hx]
    rfl
  have htotal := (accounts _ happ hnodup).total hnodup (fun x => x.output.worth key)
    (fun o => (outputAt (bs.flatMap Block.transactions) o).elim 0 (TxOut.worth key)) hvalue
  have hspent : ((spent (logOf (placed 0 bs))).map fun o =>
      (outputAt (bs.flatMap Block.transactions) o).elim 0 (TxOut.worth key)).sum =
        keySum .input key ((bs.flatMap Block.transactions).flatMap
          (edgesOf (outputAt (bs.flatMap Block.transactions)))) := by
    rw [((spent_logOf_perm bs).map _).sum_eq, spentOn, keySum_flatMap, sum_map_flatMap]
    exact congrArg List.sum (List.map_congr_left fun tx _ => (keySum_input key _ tx).symm)
  have hcreated : ((created (logOf (placed 0 bs))).map fun p => p.2.output.worth key).sum =
      keySum .output key ((bs.flatMap Block.transactions).flatMap
        (edgesOf (outputAt (bs.flatMap Block.transactions)))) := by
    rw [keySum_flatMap, ← (hperm.map _).sum_eq, created, logOf, List.flatMap_map,
      sum_map_flatMap, List.map_map]
    refine congrArg List.sum (List.map_congr_left fun p _ => ?_)
    rw [Function.comp_apply, keySum_output, ← p.2.created_outputs p.1, List.map_map]
    rfl
  rw [heq, hspent, hcreated] at htotal
  exact htotal

/-- The edge tells of the output an input spends: one of a transaction of the chain. -/
def SpendsOutput (chain : List Transaction) (txid : Txid) (input : TxIn)
    (edge : TransactionKeyEdge) : Prop :=
  ∃ creator ∈ chain, ∃ output, creator.id = input.previousOutput.txid ∧
    creator.outputs[input.previousOutput.vout.toNat]? = some output ∧
    edge = ⟨txid, .input, output.lockingData, some output.value,
      some input.previousOutput.vout⟩

theorem filter_edgesOf_input (resolve : OutPoint → Option TxOut) (tx : Transaction) :
    ((edgesOf resolve tx).filter fun edge => decide (edge.keyRole = .input)) =
      tx.inputs.filterMap fun input =>
        (resolve input.previousOutput).map fun previousOutput =>
          ⟨tx.id, .input, previousOutput.lockingData, some previousOutput.value,
            some input.previousOutput.vout⟩ := by
  rw [edgesOf, List.filter_append, List.filter_eq_self.mpr, List.filter_eq_nil_iff.mpr,
    List.append_nil]
  · intro edge he
    obtain ⟨vout, -, rfl⟩ := List.mem_mapIdx.mp he
    simp
  · intro edge he
    obtain ⟨input, -, he⟩ := List.mem_filterMap.mp he
    obtain ⟨output, -, rfl⟩ := Option.map_eq_some_iff.mp he
    simp

/-- The edges under one id are those of the transaction that has it. -/
theorem filter_flatMap_txid (resolve : OutPoint → Option TxOut) (txs : List Transaction)
    (hn : (txs.map Transaction.id).Nodup) (tx : Transaction) (ht : tx ∈ txs) :
    ((txs.flatMap (edgesOf resolve)).filter fun edge => decide (edge.txid = tx.id)) =
      edgesOf resolve tx := by
  have hsingle : (txs.filter fun tx' => decide (tx'.id = tx.id)) = [tx] := by
    have hall : ∀ tx' ∈ txs, decide (tx'.id = tx.id) = decide (tx' = tx) := by
      intro tx' ht'
      exact decide_eq_decide.mpr ⟨List.inj_on_of_nodup_map hn ht' ht, fun h => h ▸ rfl⟩
    rw [List.filter_congr hall]
    rw [List.filter_eq, List.count_eq_one_of_mem (List.Nodup.of_map _ hn) ht]
    rfl
  rw [filter_flatMap_edgesOf _ fun txid => decide (txid = tx.id), hsingle, List.flatMap_singleton]

/-- If a chain made everything a transaction spends, it has one edge for each input. -/
theorem forall₂_spendsOutput (chain : List Transaction) (hn : (chain.map Transaction.id).Nodup)
    (tx : Transaction)
    (h : ∀ o ∈ tx.spends, ∃ creator ∈ chain, creator.id = o.txid ∧
      o.vout.toNat < creator.outputs.length) :
    List.Forall₂ (SpendsOutput chain tx.id) tx.inputs
      ((edgesOf (outputAt chain) tx).filter fun edge => decide (edge.keyRole = .input)) := by
  rw [filter_edgesOf_input]
  rw [Transaction.spends, List.forall_mem_map] at h
  revert h
  generalize tx.inputs = inputs
  intro h
  induction inputs with
  | nil => exact .nil
  | cons input rest ih =>
    obtain ⟨hinput, hrest⟩ := List.forall_mem_cons.mp h
    obtain ⟨creator, hc, hid, hlt⟩ := hinput
    have hout := outputAt_of_mem chain hn creator hc input.previousOutput hid
    rw [List.getElem?_eq_getElem hlt] at hout
    rw [List.filterMap_cons, hout]
    exact .cons ⟨creator, hc, _, hid, List.getElem?_eq_getElem hlt, rfl⟩ (ih hrest)

theorem mem_blockItems (blockHash : BlockHash) (height position : Nat) (txs : List Transaction)
    (row : IndexedTransaction) :
    row ∈ blockItems blockHash height position txs ↔ ∃ i tx, txs[i]? = some tx ∧
      row = ⟨tx.id, tx, some blockHash, some height, some (UInt32.ofNat (position + i)),
        .confirmed, none, none⟩ := by
  induction txs generalizing position with
  | nil => simp [blockItems]
  | cons tx rest ih =>
    rw [blockItems, List.mem_cons, ih]
    constructor
    · intro h
      rcases h with rfl | ⟨i, tx', hi, rfl⟩
      · exact ⟨0, tx, rfl, rfl⟩
      · exact ⟨i + 1, tx', hi, by rw [Nat.add_right_comm, Nat.add_assoc]⟩
    · intro h
      obtain ⟨i, tx', hi, rfl⟩ := h
      cases i with
      | zero =>
        obtain rfl := Option.some.inj hi
        exact .inl rfl
      | succ i => exact .inr ⟨i, tx', hi, by rw [Nat.add_right_comm, Nat.add_assoc]⟩

namespace NodeState

theorem mem_chainItems (s : NodeState) (entries : List ChainIndexEntry)
    (row : IndexedTransaction) :
    row ∈ s.chainItems entries ↔ ∃ entry ∈ entries, ∃ block position tx,
      s.blocks.get entry.blockHash = some block ∧ block.transactions[position]? = some tx ∧
      row = ⟨tx.id, tx, some entry.blockHash, some entry.height, some (UInt32.ofNat position),
        .confirmed, none, none⟩ := by
  rw [chainItems, List.mem_flatMap]
  refine exists_congr fun entry => and_congr_right fun _ => ?_
  cases hblock : s.blocks.get entry.blockHash with
  | none => simp
  | some block =>
    rw [Option.elim_some, mem_blockItems]
    simp

theorem freshItems_status (s : NodeState) (entries : List ChainIndexEntry) :
    ∀ item ∈ s.freshItems entries, item.status = .mempool := by
  intro item hi
  obtain ⟨entry, -, rfl⟩ := List.mem_map.mp (List.mem_of_mem_filter hi)
  rfl

theorem mem_freshItems (s : NodeState) (entries : List ChainIndexEntry) (txid : Txid)
    (tx : Transaction) (hget : s.mempool.get txid = some tx)
    (hfresh : txid ∉ (s.transactionsOn entries).map Transaction.id) :
    tx ∈ (s.freshItems entries).map IndexedTransaction.transaction := by
  refine List.mem_map.mpr ⟨⟨txid, tx, none, none, none, .mempool, none, none⟩, ?_, rfl⟩
  refine List.mem_filter.mpr ⟨?_, by simpa using hfresh⟩
  exact List.mem_map.mpr ⟨(txid, tx), (HashMap.mem_iter _ _ _).mpr hget, rfl⟩

variable {s : NodeState} {entries : List ChainIndexEntry}

/-- The transactions with a row: those of the chain, and pending ones of other ids. -/
def rowed (s : NodeState) (entries : List ChainIndexEntry) : List Transaction :=
  s.transactionsOn entries ++ (s.freshItems entries).map IndexedTransaction.transaction

theorem Sound.freshItems_get (hs : s.Sound) (item : IndexedTransaction)
    (hi : item ∈ s.freshItems entries) :
    s.mempool.get item.txid = some item.transaction ∧ item.transaction.id = item.txid ∧
      item.txid ∉ (s.transactionsOn entries).map Transaction.id := by
  obtain ⟨hitem, hfresh⟩ := List.mem_filter.mp hi
  obtain ⟨⟨txid, tx⟩, he, rfl⟩ := List.mem_map.mp hitem
  have hget := (HashMap.mem_iter _ _ _).mp he
  exact ⟨hget, (hs.pool.fits txid tx hget).2, by simpa using hfresh⟩

theorem Sound.rows_nodup (hs : s.Sound)
    (hn : ((s.transactionsOn entries).map Transaction.id).Nodup) :
    ((s.chainItems entries ++ s.freshItems entries).map IndexedTransaction.txid).Nodup := by
  rw [List.map_append, List.nodup_append, ← (hs.chainItems_keyed entries).ids,
    chainItems_transaction]
  refine ⟨hn, ?_, ?_⟩
  · have hpool : ((poolItems s.mempool).map IndexedTransaction.txid).Nodup := by
      rw [poolItems_txid]
      exact HashMap.iter_keys_nodup s.mempool
    exact hpool.sublist (List.filter_sublist.map _)
  · intro txid ht txid' ht' heq
    obtain ⟨item, hi, rfl⟩ := List.mem_map.mp ht'
    exact (hs.freshItems_get item hi).2.2 (heq ▸ ht)

theorem Sound.rowed_ids (hs : s.Sound)
    (hn : ((s.transactionsOn entries).map Transaction.id).Nodup) :
    ((s.rowed entries).map Transaction.id).Nodup := by
  have hrows := hs.rows_nodup hn
  have hkeyed : KeyedItems (s.chainItems entries ++ s.freshItems entries) := by
    intro item hi
    refine hs.indexItems_keyed entries item ?_
    rcases List.mem_append.mp hi with hi | hi
    · exact List.mem_append_left _ hi
    · exact List.mem_append_right _ (List.mem_of_mem_filter hi)
  rwa [← hkeyed.ids, List.map_append, chainItems_transaction] at hrows

/-- Every input of a transaction that has a row is an output of the chain. -/
theorem Complete.spends_created (hc : s.Complete) (hes : s.chain.bestChainEntries = some entries)
    (hn : ((s.transactionsOn entries).map Transaction.id).Nodup) (tx : Transaction)
    (ht : tx ∈ s.rowed entries) (o : OutPoint) (ho : o ∈ tx.spends) :
    ∃ creator ∈ s.transactionsOn entries, creator.id = o.txid ∧
      o.vout.toNat < creator.outputs.length := by
  have hchain := hc.applyChain_best hes
  rcases List.mem_append.mp ht with ht | ht
  · obtain ⟨before, after, hsplit⟩ := List.append_of_mem ht
    obtain ⟨creator, hb, hid, hlt⟩ :=
      spends_before _ _ hchain hn before after tx hsplit o ho
    refine ⟨creator, ?_, hid, hlt⟩
    rw [hsplit]
    exact List.mem_append_left _ hb
  · obtain ⟨item, hi, rfl⟩ := List.mem_map.mp ht
    have hvalid := (s.activeUtxos.validateTransaction_eq_ok item.transaction).mp
      (hc.sound.pool.valid _ _ (hc.sound.freshItems_get item hi).1)
    obtain ⟨x, hx⟩ := hvalid.held o ho
    obtain ⟨creator, hb, hid, hout⟩ := coin_created _ _ hchain hn o x hx
    exact ⟨creator, hb, hid, (List.getElem?_eq_some_iff.mp hout).1⟩

/-- All edges are resolved by the outputs of the chain. -/
theorem Complete.indexEdges_rowed (hc : s.Complete)
    (hes : s.chain.bestChainEntries = some entries)
    (hn : ((s.transactionsOn entries).map Transaction.id).Nodup) :
    indexEdges [] (s.rowed entries) =
      (s.rowed entries).flatMap (edgesOf (outputAt (s.transactionsOn entries))) := by
  have hearlier : ∀ earlier tx later, s.transactionsOn entries = earlier ++ tx :: later →
      ∀ o ∈ tx.spends, ∃ tx' ∈ [] ++ earlier, tx'.id = o.txid := by
    intro earlier tx later hsplit o ho
    obtain ⟨creator, hb, hid, -⟩ :=
      spends_before _ _ (hc.applyChain_best hes) hn earlier later tx hsplit o ho
    exact ⟨creator, hb, hid⟩
  rw [rowed, indexEdges_append, List.flatMap_append,
    indexEdges_eq_of_earlier [] (s.transactionsOn entries) hn hearlier, List.nil_append]
  congr 1
  refine indexEdges_eq_flatMap _ _ (hc.sound.rowed_ids hn) fun tx ht o ho => ?_
  obtain ⟨creator, hb, hid, -⟩ :=
    hc.spends_created hes hn tx (List.mem_append_right _ ht) o ho
  exact ⟨creator, hb, hid⟩

/-- The edges of the confirmed transactions are those of the chain. -/
theorem Sound.confirmed_edges (hs : s.Sound) (resolve : OutPoint → Option TxOut) :
    (((s.rowed entries).flatMap (edgesOf resolve)).filter fun edge =>
        decide (edge.txid ∈ (s.transactionsOn entries).map Transaction.id)) =
      (s.transactionsOn entries).flatMap (edgesOf resolve) := by
  rw [filter_flatMap_edgesOf _ fun txid =>
    decide (txid ∈ (s.transactionsOn entries).map Transaction.id), rowed, List.filter_append]
  have hself : ((s.transactionsOn entries).filter fun tx =>
      decide (tx.id ∈ (s.transactionsOn entries).map Transaction.id)) =
        s.transactionsOn entries :=
    List.filter_eq_self.mpr fun tx ht => decide_eq_true (List.mem_map_of_mem ht)
  have hnil : (((s.freshItems entries).map IndexedTransaction.transaction).filter fun tx =>
      decide (tx.id ∈ (s.transactionsOn entries).map Transaction.id)) = [] := by
    refine List.filter_eq_nil_iff.mpr fun tx ht => ?_
    obtain ⟨item, hi, rfl⟩ := List.mem_map.mp ht
    obtain ⟨-, hid, hfresh⟩ := hs.freshItems_get item hi
    rw [hid, decide_eq_true_iff]
    exact hfresh
  rw [hself, hnil, List.append_nil]

/-- The edges of the transactions whose rows are confirmed. -/
def confirmedEdges (rows : List IndexedTransaction) (edges : List TransactionKeyEdge) :
    List TransactionKeyEdge :=
  edges.filter fun edge =>
    decide (edge.txid ∈ (rows.filter fun row => decide (row.status = .confirmed)).map
      IndexedTransaction.txid)

/-- The outputs of a key less its inputs. -/
def keyBalance (key : Bytes) (edges : List TransactionKeyEdge) : Nat :=
  keySum .output key edges - keySum .input key edges

/-- What the wallet reads from the rows and edges: one confirmed row for each transaction of the
best chain, one input edge for each input, and the balance of each key. `balance_for_key` adds
in `u64`, so a balance beyond that comes back modulo 2^64, if at all. -/
structure WalletAgrees [Profile] (s : NodeState) (entries : List ChainIndexEntry)
    (rows : List IndexedTransaction) (edges : List TransactionKeyEdge) : Prop where
  distinct : (rows.map IndexedTransaction.txid).Nodup
  confirmed : ∀ row, row ∈ rows ∧ row.status = .confirmed ↔
    ∃ entry ∈ entries, ∃ block position tx,
      s.blocks.get entry.blockHash = some block ∧ block.transactions[position]? = some tx ∧
      row = ⟨tx.id, tx, some entry.blockHash, some entry.height, some (UInt32.ofNat position),
        .confirmed, none, none⟩
  inputs : ∀ tx, tx ∈ s.transactionsOn entries ∨ tx ∈ s.pending →
    List.Forall₂ (SpendsOutput (s.transactionsOn entries) tx.id) tx.inputs
      (edges.filter fun edge => decide (edge.txid = tx.id) && decide (edge.keyRole = .input))
  covered : ∀ key, keySum .input key (confirmedEdges rows edges) ≤
    keySum .output key (confirmedEdges rows edges)
  balance : ∀ owner,
    keyBalance (verifyingKeyBytes owner).toList (confirmedEdges rows edges) < 2^64 →
      ∃ v, (s.balanceForKey owner : Res NodeStateError UInt64) = .ok v ∧
        v.toNat = keyBalance (verifyingKeyBytes owner).toList (confirmedEdges rows edges)
  wraps : ∀ owner v, (s.balanceForKey owner : Res NodeStateError UInt64) = .ok v →
    v.toNat = keyBalance (verifyingKeyBytes owner).toList (confirmedEdges rows edges) % 2^64

theorem ownedValues_sum (s : NodeState) (owner : VerifyingKey) :
    ((s.ownedValues owner).map UInt64.toNat).sum =
      s.activeUtxos.total fun x => x.output.worth (verifyingKeyBytes owner).toList := by
  rw [HashMap.total_eq_iter, ownedValues]
  generalize s.activeUtxos.iter = coins
  induction coins with
  | nil => rfl
  | cons coin rest ih =>
    rw [List.map_cons, List.sum_cons, ← ih, List.filter_cons, TxOut.worth]
    by_cases hkey : coin.2.output.lockingData = (verifyingKeyBytes owner).toList
    · simp [hkey]
    · simp [hkey]

theorem Sound.confirmed_ids (hs : s.Sound) :
    ((s.chainItems entries ++ s.freshItems entries).filter fun row =>
        decide (row.status = .confirmed)).map IndexedTransaction.txid =
      (s.transactionsOn entries).map Transaction.id := by
  rw [List.filter_append, List.filter_eq_self.mpr, List.filter_eq_nil_iff.mpr, List.append_nil,
    ← chainItems_transaction, (hs.chainItems_keyed entries).ids]
  · intro row hrow
    simp [s.freshItems_status entries row hrow]
  · intro row hrow
    simpa using s.chainItems_status entries row hrow

/-- A pending transaction without a row of its own is one of the chain. -/
theorem Sound.mem_rowed (hs : s.Sound) (hsha : NoCollision (s.confirmed ∪ s.pending))
    (tx : Transaction) (ht : tx ∈ s.transactionsOn entries ∨ tx ∈ s.pending) :
    tx ∈ s.rowed entries := by
  rcases ht with ht | ⟨txid, hget⟩
  · exact List.mem_append_left _ ht
  by_cases hfresh : txid ∈ (s.transactionsOn entries).map Transaction.id
  · obtain ⟨tx', ht', hid⟩ := List.mem_map.mp hfresh
    obtain ⟨hfits, hid'⟩ := hs.pool.fits txid tx hget
    obtain ⟨block, hb, htb⟩ := List.mem_flatMap.mp ht'
    obtain ⟨entry, -, hb⟩ := List.mem_filterMap.mp hb
    have heq : tx' = tx := hsha.eq_of_id (.inl ⟨_, block, hb, htb⟩) (.inr ⟨txid, hget⟩)
      (hs.fits_of_block _ block hb tx' htb) hfits (hid.trans hid'.symm)
    exact List.mem_append_left _ (heq ▸ ht')
  · exact List.mem_append_right _ (s.mem_freshItems entries txid tx hget hfresh)

theorem mem_confirmed_rows (row : IndexedTransaction) :
    row ∈ s.chainItems entries ++ s.freshItems entries ∧ row.status = .confirmed ↔
      row ∈ s.chainItems entries := by
  constructor
  · intro h
    obtain ⟨hrow, hstatus⟩ := h
    rcases List.mem_append.mp hrow with hrow | hrow
    · exact hrow
    · rw [s.freshItems_status entries row hrow] at hstatus
      cases hstatus
  · intro hrow
    exact ⟨List.mem_append_left _ hrow, s.chainItems_status entries row hrow⟩

section Balance

variable (hc : s.Complete) (hes : s.chain.bestChainEntries = some entries)
  (hn : ((s.transactionsOn entries).map Transaction.id).Nodup)

include hc hes hn

theorem Complete.confirmedEdges_eq :
    confirmedEdges (s.chainItems entries ++ s.freshItems entries)
        (indexEdges [] (s.rowed entries)) =
      (s.transactionsOn entries).flatMap (edgesOf (outputAt (s.transactionsOn entries))) := by
  rw [confirmedEdges, hc.sound.confirmed_ids, hc.indexEdges_rowed hes hn, hc.sound.confirmed_edges]

/-- The coins of a key are its outputs less its inputs. -/
theorem Complete.keyBalance_eq (owner : VerifyingKey) :
    keyBalance (verifyingKeyBytes owner).toList
        ((s.transactionsOn entries).flatMap (edgesOf (outputAt (s.transactionsOn entries)))) =
      ((s.ownedValues owner).map UInt64.toNat).sum := by
  rw [keyBalance, ownedValues_sum]
  exact Nat.sub_eq_of_eq_add (chain_worth _ _ _ (hc.applyChain_best hes) hn).symm

theorem Complete.inputEdges (tx : Transaction) (hrowed : tx ∈ s.rowed entries) :
    List.Forall₂ (SpendsOutput (s.transactionsOn entries) tx.id) tx.inputs
      ((indexEdges [] (s.rowed entries)).filter fun edge =>
        decide (edge.txid = tx.id) && decide (edge.keyRole = .input)) := by
  have hsplit : ((indexEdges [] (s.rowed entries)).filter fun edge =>
      decide (edge.txid = tx.id) && decide (edge.keyRole = .input)) =
        ((indexEdges [] (s.rowed entries)).filter fun edge =>
          decide (edge.txid = tx.id)).filter fun edge => decide (edge.keyRole = .input) := by
    rw [List.filter_filter]
    exact List.filter_congr fun edge _ => Bool.and_comm _ _
  rw [hsplit, hc.indexEdges_rowed hes hn,
    filter_flatMap_txid _ _ (hc.sound.rowed_ids hn) tx hrowed]
  exact forall₂_spendsOutput _ hn tx fun o ho => hc.spends_created hes hn tx hrowed o ho

end Balance

/-- The wallet index and the coins agree: every transaction of the best chain and none beside it
has its confirmed row, every input its edge, and every key its balance. -/
theorem transaction_index_agrees [Profile] {ε : Type} (s : NodeState) (hr : s.OkReachable)
    (hsha : NoCollision (s.confirmed ∪ s.pending))
    (hd : ∀ entries, s.chain.bestChainEntries = some entries →
      ((s.transactionsOn entries).map Transaction.id).Nodup) :
    ∃ entries rows edges, s.chain.bestChainEntries = some entries ∧
      (buildTransactionIndex s : Option (Res ε _)) = some (.ok (rows, edges)) ∧
      s.WalletAgrees entries rows edges := by
  have hc := hr.complete
  have hs := hc.sound
  obtain ⟨log, hi⟩ := hs.index
  obtain ⟨entries, hes, -⟩ := hi.bestChainEntries_eq
  have hn := hd entries hes
  have hconfirmed := hc.confirmedEdges_eq hes hn
  have hbalance := hc.keyBalance_eq hes hn
  refine ⟨entries, _, indexEdges [] (s.rowed entries), hes,
    hs.buildTransactionIndex_fresh entries hes hn, ?_⟩
  constructor
  · exact hs.rows_nodup hn
  · intro row
    rw [mem_confirmed_rows, mem_chainItems]
  · intro tx ht
    exact hc.inputEdges hes hn tx (hs.mem_rowed hsha tx ht)
  · intro key
    rw [hconfirmed]
    exact (Nat.le_add_left _ _).trans (chain_worth key _ _ (hc.applyChain_best hes) hn).le
  · intro owner hlt
    rw [hconfirmed, hbalance] at hlt ⊢
    obtain ⟨v, hv, hsum⟩ := foldlM_addU64 (ε := NodeStateError) (s.ownedValues owner) 0 (by
      rw [UInt64.toNat_zero, Nat.zero_add]
      exact hlt)
    exact ⟨v, hv, by rw [hsum, UInt64.toNat_zero, Nat.zero_add]⟩
  · intro owner v hv
    rw [hconfirmed, hbalance, toNat_of_foldlM_addU64 (s.ownedValues owner) 0 v hv,
      UInt64.toNat_zero, Nat.zero_add]

end NodeState

end Edges

section SampleWallet

open NodeState

attribute [local instance] NodeState.sampleCrypto NodeState.sampleProfile

/-- The transactions the state holds, block by block and then the pending ones. -/
def NodeState.stored (s : NodeState) : List Transaction :=
  s.blocks.iter.flatMap (fun entry => entry.2.transactions) ++ s.mempool.iter.map Prod.snd

theorem NodeState.noCollision_of_stored [Crypto] (s : NodeState)
    (h : ∀ tx ∈ s.stored, ∀ tx' ∈ s.stored, tx.id = tx'.id → tx = tx') :
    NoCollision (s.confirmed ∪ s.pending) := by
  refine noCollision_of_list _ s.stored (fun tx ht => ?_) h
  rcases ht with ⟨hash, block, hb, ht⟩ | ⟨txid, hget⟩
  · exact List.mem_append_left _
      (List.mem_flatMap.mpr ⟨(hash, block), (HashMap.mem_iter _ _ _).mpr hb, ht⟩)
  · exact List.mem_append_right _
      (List.mem_map.mpr ⟨(txid, tx), (HashMap.mem_iter _ _ _).mpr hget, rfl⟩)

theorem sampleState_index_agrees :
    ∃ entries rows edges, sampleState.chain.bestChainEntries = some entries ∧
      (buildTransactionIndex sampleState : Option (Res SqliteStoreError _)) =
        some (.ok (rows, edges)) ∧
      sampleState.WalletAgrees entries rows edges := by
  have hall : (sampleState.chain.bestChainEntries.all fun entries =>
      decide ((sampleState.transactionsOn entries).map Transaction.id).Nodup) = true := by
    decide +kernel
  refine transaction_index_agrees sampleState sampleState_okReachable
    (sampleState.noCollision_of_stored (by decide +kernel)) fun entries hes => ?_
  rw [hes] at hall
  exact of_decide_eq_true hall

end SampleWallet

end Wobble
