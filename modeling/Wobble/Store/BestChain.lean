import Wobble.Node.Accepted
import Wobble.Store.IndexSpec

namespace Wobble

open Rust GrowingTree

namespace NodeState

theorem blocksOf_append (s : NodeState) (es es' : List ChainIndexEntry) :
    s.blocksOf (es ++ es') = s.blocksOf es ++ s.blocksOf es' :=
  List.filterMap_append

theorem transactionsOn_append (s : NodeState) (es es' : List ChainIndexEntry) :
    s.transactionsOn (es ++ es') = s.transactionsOn es ++ s.transactionsOn es' := by
  rw [transactionsOn, blocksOf_append, List.flatMap_append]
  rfl

theorem blocksOf_congr {s t : NodeState} (es : List ChainIndexEntry)
    (h : ∀ e ∈ es, s.blocks.get e.blockHash = t.blocks.get e.blockHash) :
    s.blocksOf es = t.blocksOf es :=
  List.filterMap_congr h

theorem transactionsOn_congr {s t : NodeState} (es : List ChainIndexEntry)
    (h : ∀ e ∈ es, s.blocks.get e.blockHash = t.blocks.get e.blockHash) :
    s.transactionsOn es = t.transactionsOn es :=
  congrArg (List.flatMap Block.transactions) (blocksOf_congr es h)

theorem blocksOf_singleton (s : NodeState) (e : ChainIndexEntry) (b : Block)
    (hb : s.blocks.get e.blockHash = some b) : s.blocksOf [e] = [b] := by
  rw [blocksOf, List.filterMap_cons, hb]
  rfl

theorem transactionsOn_singleton (s : NodeState) (e : ChainIndexEntry) (b : Block)
    (hb : s.blocks.get e.blockHash = some b) : s.transactionsOn [e] = b.transactions := by
  rw [transactionsOn, s.blocksOf_singleton e b hb, List.flatMap_singleton]

/-- The transactions of a chain around one of its blocks. -/
theorem transactionsOn_split (s : NodeState) (es es' : List ChainIndexEntry)
    (e : ChainIndexEntry) (b : Block) (hb : s.blocks.get e.blockHash = some b) :
    s.transactionsOn (es ++ e :: es') =
      s.transactionsOn es ++ (b.transactions ++ s.transactionsOn es') := by
  rw [s.transactionsOn_append, ← List.singleton_append, s.transactionsOn_append,
    s.transactionsOn_singleton e b hb]

variable [Crypto]

theorem chainItems_congr {s t : NodeState} (es : List ChainIndexEntry)
    (h : ∀ e ∈ es, s.blocks.get e.blockHash = t.blocks.get e.blockHash) :
    s.chainItems es = t.chainItems es :=
  List.flatMap_congr fun e he => by rw [h e he]

theorem chainItems_singleton (s : NodeState) (e : ChainIndexEntry) (b : Block)
    (hb : s.blocks.get e.blockHash = some b) :
    s.chainItems [e] = blockItems e.blockHash e.height 0 b.transactions := by
  rw [chainItems, List.flatMap_singleton, hb]
  rfl

theorem chainItems_split (s : NodeState) (es es' : List ChainIndexEntry) (e : ChainIndexEntry)
    (b : Block) (hb : s.blocks.get e.blockHash = some b) :
    s.chainItems (es ++ e :: es') = s.chainItems es ++
      (blockItems e.blockHash e.height 0 b.transactions ++ s.chainItems es') := by
  rw [s.chainItems_append, ← List.singleton_append, s.chainItems_append,
    s.chainItems_singleton e b hb]

variable {s : NodeState}

/-- The entries on a path are the ones indexed under their hashes. -/
theorem Sound.path_get (hs : s.Sound) {start : Option BlockHash} {es : List ChainIndexEntry}
    (hp : Path entryView s.chain.get start es) (e : ChainIndexEntry) (he : e ∈ es) :
    s.chain.get e.blockHash = some e := by
  induction hp with
  | nil => cases he
  | snoc hget _ ih =>
    rcases List.mem_append.mp he with he | he
    · exact ih he
    · obtain rfl : e = _ := by simpa using he
      rw [hs.key _ _ hget, hget]

theorem Sound.bestChain_get (hs : s.Sound) {es : List ChainIndexEntry}
    (hes : s.chain.bestChainEntries = some es) (e : ChainIndexEntry) (he : e ∈ es) :
    s.chain.get e.blockHash = some e := by
  obtain ⟨log, hi⟩ := hs.index
  obtain ⟨es', hpath, hes'⟩ := hi.bestChain_path
  obtain rfl := Option.some.inj (hes'.symm.trans hes)
  exact hs.path_get hpath e he

theorem Sound.branch_of_path (hs : s.Sound) {start : Option BlockHash}
    {es : List ChainIndexEntry} (hp : Path entryView s.chain.get start es) (h : BlockHash)
    (hstart : start = some h) : s.Branch h (s.blocksOf es) := by
  induction hp generalizing h with
  | nil => cases hstart
  | @snoc h' e es hget hes ih =>
    obtain rfl := Option.some.inj hstart
    obtain ⟨b, hb, -⟩ := hs.block_of_entry _ e hget
    rw [blocksOf_append, s.blocksOf_singleton e b (hs.key _ _ hget ▸ hb)]
    cases hpar : e.parent with
    | none =>
      change Path entryView s.chain.get e.parent es at hes
      rw [hpar] at hes
      cases hes
      exact .genesis _ e b hget hpar hb
    | some p => exact .child _ p e b _ hget hpar hb (ih p hpar)

theorem Sound.applyChain_of_path (hs : s.Sound) {h : BlockHash} {es : List ChainIndexEntry}
    (hp : Path entryView s.chain.get (some h) es) (u : UtxoSet)
    (hu : s.utxoSnapshots.get h = some u) : applyChain (s.blocksOf es) = .ok u := by
  obtain ⟨e, -, -, he, -⟩ := hs.views h u hu
  exact (hs.view_eq_applyChain h _ (hs.branch_of_path hp h rfl) e u he hu).1

/-- The active coins are those of the blocks of the best chain. -/
theorem Complete.applyChain_best (hc : s.Complete) {es : List ChainIndexEntry}
    (hes : s.chain.bestChainEntries = some es) :
    applyChain (s.blocksOf es) = .ok s.activeUtxos := by
  obtain ⟨log, hi⟩ := hc.sound.index
  obtain ⟨es', hpath, hes'⟩ := hi.bestChain_path
  obtain rfl := Option.some.inj (hes'.symm.trans hes)
  have hactive := hc.active
  cases hbest : s.chain.bestTip with
  | none =>
    rw [hbest] at hactive hpath
    cases hpath
    rw [show s.activeUtxos = HashMap.new from hactive]
    rfl
  | some tip =>
    rw [hbest] at hactive hpath
    exact hc.sound.applyChain_of_path hpath _ hactive

/-- A coin of the active view was made by a transaction of the best chain. -/
theorem Sound.active_created (hs : s.Sound) (hview : s.TipViewed) {es : List ChainIndexEntry}
    (hpath : Path entryView s.chain.get s.chain.bestTip es)
    (htip : ∀ tip, s.chain.bestTip = some tip → ∃ v, s.utxoSnapshots.get tip = some v)
    (hn : ((s.transactionsOn es).map Transaction.id).Nodup) (o : OutPoint) (x : Utxo)
    (hx : s.activeUtxos.get o = some x) :
    ∃ tx ∈ s.transactionsOn es, tx.id = o.txid ∧ tx.outputs[o.vout.toNat]? = some x.output := by
  cases hbest : s.chain.bestTip with
  | none =>
    rw [hview.none hbest, HashMap.get_new] at hx
    cases hx
  | some tip =>
    obtain ⟨v, hv⟩ := htip tip hbest
    rw [hview.tip tip v hbest hv] at hx
    rw [hbest] at hpath
    exact coin_created _ v (hs.applyChain_of_path hpath v hv) hn o x hx

end NodeState

end Wobble
