import Wobble.Node.Reorg

namespace Wobble

open Rust GrowingTree

namespace NodeState

section Replay

variable [Crypto]

theorem acceptAll_append (s t : NodeState) (blocks more : List Block)
    (h : s.acceptAll blocks = .ok t) : s.acceptAll (blocks ++ more) = t.acceptAll more := by
  induction blocks generalizing s with
  | nil =>
    cases h
    rfl
  | cons block rest ih =>
    rw [List.cons_append, acceptAll]
    rw [acceptAll] at h
    split at h
    · exact ih _ h
    · cases h

/-- A new block whose parent's view it applies to is indexed, stored and viewed. -/
theorem Sound.acceptBlock_fresh {s : NodeState} (hs : s.Sound) (block : Block)
    (entry : ChainIndexEntry) (v u : UtxoSet) (hv : validateBlock block = .ok ())
    (hg : s.chain.get block.header.blockHash = none) (hl : s.chain.Links block entry)
    (hp : s.parentView entry.parent = .ok v) (ha : applyBlock v block entry.height = .ok u) :
    ∃ t, s.acceptBlock block = (t, .ok ()) ∧ t.chain = s.chain.extend entry ∧
      t.blocks = s.blocks.insert entry.blockHash block ∧
      t.utxoSnapshots = s.utxoSnapshots.insert entry.blockHash u ∧
      ∀ txid tx, t.mempool.get txid = some tx → s.mempool.get txid = some tx := by
  have hn : s.chain.get entry.blockHash = none := hl.blockHash ▸ hg
  have hens := hs.ensureSnapshot_withBlock block entry hn
  rw [hp, Res.ok_bind, ha, Res.mapErr_ok, Res.ok_bind, Res.pure_eq_ok] at hens
  rw [hs.acceptBlock_of_links block entry hv hg hl, settle, hens]
  dsimp only
  rw [adoptTip]
  by_cases ht : (s.chain.extend entry).bestTip = some entry.blockHash
  · have hview : (s.utxoSnapshots.insert entry.blockHash u).get entry.blockHash = some u := by
      rw [HashMap.get_insert, if_pos rfl]
    obtain ⟨pool, hpool, -, hsub⟩ := hs.pool.pruneInvalid (ε := NodeStateError) u
    have htip : (s.withBlock entry block).chain.bestTip = some entry.blockHash := ht
    have hmem : (s.withBlock entry block).mempool.pruneInvalid u =
        (.ok pool : Res NodeStateError Mempool) := hpool
    simp only [htip, if_true, hview, Res.okOr_some, hmem]
    exact ⟨_, rfl, rfl, rfl, rfl, fun txid tx h => ((hsub txid tx).mp h).1⟩
  · have htip : ¬ (s.withBlock entry block).chain.bestTip = some entry.blockHash := ht
    simp only [htip, if_false]
    exact ⟨_, rfl, rfl, rfl, rfl, fun _ _ h => h⟩

/-- The stored blocks of some entries. -/
def blocksOf (s : NodeState) (log : List ChainIndexEntry) : List Block :=
  log.filterMap fun e => s.blocks.get e.blockHash

/-- `t` is what `s` was when it had accepted the blocks of `log` only, in that order, and no
transactions. -/
structure Replayed (s t : NodeState) (log : List ChainIndexEntry) : Prop where
  complete : t.Complete
  index : t.chain.Indexes log
  blocks : ∀ e ∈ log, t.blocks.get e.blockHash = s.blocks.get e.blockHash
  views : ∀ e ∈ log, t.utxoSnapshots.get e.blockHash = s.utxoSnapshots.get e.blockHash
  pool : t.mempool = HashMap.new

theorem new_replayed (s : NodeState) : Replayed s new [] where
  complete := new_complete
  index := ChainIndex.new_indexes
  blocks := by simp
  views := by simp
  pool := rfl

/-- The entry links in `t` as it did in `s`, once its parent is there. -/
theorem Sound.links_of_entry {s t : NodeState} (hs : s.Sound) (e : ChainIndexEntry) (b : Block)
    (he : s.chain.get e.blockHash = some e) (hb : s.blocks.get e.blockHash = some b)
    (hroot : e.parent = none → ∀ h, t.chain.get h = none)
    (hparent : ∀ p, e.parent = some p → t.chain.get p = s.chain.get p) : t.chain.Links b e := by
  obtain ⟨-, hof⟩ := hs.entryOf _ b e hb he
  obtain ⟨w, hw, -, hlink⟩ := hof.work
  obtain ⟨hash, height, cumulativeWork, parent⟩ := e
  obtain rfl : hash = b.header.blockHash := hof.hash
  cases parent with
  | none =>
    obtain ⟨hprev, rfl, rfl⟩ := hlink
    exact .genesis _ (hroot rfl) hprev hw
  | some p =>
    obtain ⟨rfl, q, hq, hheight, hwork, hle, hmax⟩ := hlink
    dsimp only at hheight hwork hle hmax
    obtain rfl : cumulativeWork = q.cumulativeWork + w := by omega
    subst hheight
    exact .child q w ((hparent _ rfl).trans hq) hw hmax

omit [Crypto] in
/-- Two maps that agree on the keys of `log` do so with one more key, set alike in both. -/
theorem get_insert_concat {V : Type} {log : List ChainIndexEntry} {e : ChainIndexEntry}
    (m m' : HashMap BlockHash V) (x : V) (hfresh : ∀ e' ∈ log, e'.blockHash ≠ e.blockHash)
    (hx : m'.get e.blockHash = some x)
    (hlog : ∀ e' ∈ log, m.get e'.blockHash = m'.get e'.blockHash) :
    ∀ e' ∈ log ++ [e], (m.insert e.blockHash x).get e'.blockHash = m'.get e'.blockHash := by
  intro e' he'
  rw [HashMap.get_insert]
  rcases List.mem_append.mp he' with he' | he'
  · rw [if_neg (hfresh e' he'), hlog e' he']
  · obtain rfl : e' = e := by simpa using he'
    rw [if_pos rfl, hx]

section Step

variable {s t : NodeState} {log : List ChainIndexEntry} {e : ChainIndexEntry} {b : Block}

theorem Replayed.get_fresh (hr : Replayed s t log)
    (hfresh : ∀ e' ∈ log, e'.blockHash ≠ e.blockHash) : t.chain.get e.blockHash = none := by
  cases hget : t.chain.get e.blockHash with
  | none => rfl
  | some e' =>
    obtain ⟨hmem, hkey⟩ := (hr.index.get _ _).mp hget
    exact absurd hkey (hfresh e' hmem)

theorem Replayed.links (hr : Replayed s t log) (hs : s.Sound)
    (hknown : ∀ e' ∈ log ++ [e], s.chain.get e'.blockHash = some e')
    (hg : Grown entryView (log ++ [e])) (hb : s.blocks.get e.blockHash = some b) :
    t.chain.Links b e := by
  obtain ⟨-, -, hroot, hparent⟩ := hg.concat_inv
  refine hs.links_of_entry e b (hknown e (by simp)) hb
    (fun hp => hr.index.get_eq_none (hroot hp)) ?_
  intro p hp
  obtain ⟨q, hq, rfl⟩ := hparent p hp
  exact (hr.index.get_mem q hq).trans (hknown q (List.mem_append_left _ hq)).symm

theorem Replayed.parentView_eq (hr : Replayed s t log) (hg : Grown entryView (log ++ [e])) :
    t.parentView e.parent = s.parentView e.parent := by
  obtain ⟨-, -, -, hparent⟩ := hg.concat_inv
  cases hpar : e.parent with
  | none => rfl
  | some p =>
    obtain ⟨q, hq, rfl⟩ := hparent p hpar
    rw [parentView, parentView]
    exact congrArg _ (hr.views q hq)

/-- One more block, after its parent. -/
theorem Replayed.step (hr : Replayed s t log) (hc : s.Complete)
    (hknown : ∀ e' ∈ log ++ [e], s.chain.get e'.blockHash = some e')
    (hg : Grown entryView (log ++ [e])) (hb : s.blocks.get e.blockHash = some b) :
    ∃ t', t.acceptBlock b = (t', .ok ()) ∧ Replayed s t' (log ++ [e]) := by
  have hs := hc.sound
  have he := hknown e (by simp)
  obtain ⟨b', hb', hhash, hv, -⟩ := hs.block_of_entry _ e he
  obtain rfl : b = b' := Option.some.inj (hb.symm.trans hb')
  obtain ⟨-, hfresh, -, -⟩ := hg.concat_inv
  have hnone : t.chain.get b.header.blockHash = none := hhash ▸ hr.get_fresh hfresh
  -- its view in `s` came from the view of its parent, which `t` has too
  obtain ⟨u, hu⟩ := hc.viewed _ e he
  obtain ⟨e'', b'', v, he'', hb'', hp, ha⟩ := hs.views _ u hu
  obtain rfl : e = e'' := Option.some.inj (he.symm.trans he'')
  obtain rfl : b = b'' := Option.some.inj (hb.symm.trans hb'')
  have hview : t.parentView e.parent = .ok v := (hr.parentView_eq hg).trans hp
  obtain ⟨t', hacc, hchain, hblocks, hsnap, hpool⟩ :=
    hr.complete.sound.acceptBlock_fresh b e v u hv hnone (hr.links hs hknown hg hb) hview ha
  refine ⟨t', hacc, ?_, ?_, ?_, ?_, ?_⟩
  · have hcomplete := hr.complete.acceptBlock b (by rw [hacc])
    rwa [hacc] at hcomplete
  · rw [hchain]
    exact hr.index.extend e hg
  · rw [hblocks]
    exact get_insert_concat _ _ b hfresh hb hr.blocks
  · rw [hsnap]
    exact get_insert_concat _ _ u hfresh hu hr.views
  · rw [hr.pool] at hpool
    exact HashMap.eq_new_of_sub _ hpool

end Step

/-- In any order that has parents first, the blocks of `s` are accepted again. -/
theorem Complete.replay {s : NodeState} (hc : s.Complete) (log : List ChainIndexEntry)
    (hg : Grown entryView log) (hknown : ∀ e ∈ log, s.chain.get e.blockHash = some e) :
    ∃ t, new.acceptAll (s.blocksOf log) = .ok t ∧ Replayed s t log := by
  induction log using List.reverseRecOn with
  | nil => exact ⟨new, rfl, s.new_replayed⟩
  | append_singleton log e ih =>
    obtain ⟨t, hrun, hr⟩ := ih hg.concat_inv.1 fun e' he' => hknown e' (List.mem_append_left _ he')
    obtain ⟨b, hb, -⟩ := hc.sound.block_of_entry _ e (hknown e (by simp))
    obtain ⟨t', hacc, hr'⟩ := hr.step hc hknown hg hb
    refine ⟨t', ?_, hr'⟩
    have hblocks : s.blocksOf (log ++ [e]) = s.blocksOf log ++ [b] := by
      rw [blocksOf, List.filterMap_append, List.filterMap_cons, hb]
      rfl
    rw [hblocks, acceptAll_append _ t _ _ hrun, acceptAll, hacc]
    rfl

/-- Once all blocks have been replayed, only the choice of the tip can differ. -/
theorem Replayed.maps_eq {s t : NodeState} {log : List ChainIndexEntry} (hs : s.Sound)
    (hr : Replayed s t log) (hall : ∀ h e, s.chain.get h = some e ↔ e ∈ log ∧ e.blockHash = h) :
    t.chain.entries = s.chain.entries ∧ t.blocks = s.blocks ∧
      t.utxoSnapshots = s.utxoSnapshots := by
  have ht := hr.complete.sound
  have hget : ∀ h, t.chain.get h = s.chain.get h := fun h =>
    Option.ext fun e => (hr.index.get h e).trans (hall h e).symm
  refine ⟨HashMap.ext _ _ hget, HashMap.ext _ _ fun h => ?_, HashMap.ext _ _ fun h => ?_⟩
  · cases he : s.chain.get h with
    | none =>
      rw [ht.block_of_unknown h ((hget h).trans he), hs.block_of_unknown h he]
    | some e =>
      obtain ⟨hmem, rfl⟩ := (hall h e).mp he
      exact hr.blocks e hmem
  · cases he : s.chain.get h with
    | none => rw [ht.view_of_unknown h ((hget h).trans he), hs.view_of_unknown h he]
    | some e =>
      obtain ⟨hmem, rfl⟩ := (hall h e).mp he
      exact hr.views e hmem

theorem Complete.active_eq {s t : NodeState} (hs : s.Complete) (ht : t.Complete)
    (htip : t.chain.bestTip = s.chain.bestTip) (hviews : t.utxoSnapshots = s.utxoSnapshots) :
    t.activeUtxos = s.activeUtxos := by
  have hsa := hs.active
  have hta := ht.active
  rw [htip, hviews] at hta
  cases hbest : s.chain.bestTip with
  | none =>
    rw [hbest] at hsa hta
    exact hta.trans hsa.symm
  | some tip =>
    rw [hbest] at hsa hta
    exact Option.some.inj (hta.symm.trans hsa)

end Replay

end NodeState

end Wobble
