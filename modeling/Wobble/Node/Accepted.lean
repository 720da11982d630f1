import Wobble.Node.Reorg

namespace Wobble

open Rust

namespace NodeState

variable [Crypto]

/-- What the state is after `accept_block` has returned `Ok`: the block is indexed, stored and
viewed, and the active view and the pool follow it if it is the tip. -/
structure Accepted (pre post : NodeState) (entry : ChainIndexEntry) (b : Block) (u : UtxoSet) :
    Prop where
  entries : post.chain.entries = pre.chain.entries.insert entry.blockHash entry
  blocks : post.blocks = pre.blocks.insert entry.blockHash b
  view : post.utxoSnapshots.get entry.blockHash = some u
  views : ∀ h, h ≠ entry.blockHash → post.utxoSnapshots.get h = pre.utxoSnapshots.get h
  stored : ∀ h x, pre.blocks.get h = some x → post.blocks.get h = some x
  known : pre.chain = post.chain ∨
    pre.chain.get entry.blockHash = none ∧ post.chain = pre.chain.extend entry
  aside : post.chain.bestTip ≠ some entry.blockHash →
    post.chain.bestTip = pre.chain.bestTip ∧ post.activeUtxos = pre.activeUtxos ∧
      post.mempool = pre.mempool
  tip : post.chain.bestTip = some entry.blockHash → post.activeUtxos = u ∧
    ∀ txid tx, post.mempool.get txid = some tx ↔
      pre.mempool.get txid = some tx ∧ u.Valid tx

/-- Indexing and storing the block, in one form for a new block and for a known one. -/
theorem Indexed.inserted {s t : NodeState} {block : Block} {entry : ChainIndexEntry}
    (hs : s.Sound) (hi : s.Indexed block entry t) :
    ∃ b, t.chain.entries = s.chain.entries.insert entry.blockHash entry ∧
      t.blocks = s.blocks.insert entry.blockHash b ∧
      (∀ h x, s.blocks.get h = some x → t.blocks.get h = some x) ∧
      entry.blockHash = block.header.blockHash ∧ t.activeUtxos = s.activeUtxos ∧
      t.mempool = s.mempool ∧ (s.chain = t.chain ∨
        s.chain.get entry.blockHash = none ∧ t.chain = s.chain.extend entry) := by
  cases hi with
  | known hv hg =>
    have hkey := hs.key _ _ hg
    obtain ⟨b, hb, -⟩ := hs.block_of_entry _ entry hg
    rw [← hkey] at hb hg
    exact ⟨b, (HashMap.insert_of_get _ _ _ hg).symm, (HashMap.insert_of_get _ _ _ hb).symm,
      fun _ _ h => h, hkey, rfl, rfl, .inl rfl⟩
  | added hv hg hl =>
    have hn : s.chain.get entry.blockHash = none := hl.blockHash ▸ hg
    refine ⟨block, rfl, rfl, ?_, hl.blockHash, rfl, rfl, .inr ⟨hn, rfl⟩⟩
    intro h x hx
    have hne : h ≠ entry.blockHash := by
      intro he
      rw [he, hs.block_of_unknown _ hn] at hx
      cases hx
    exact (HashMap.get_insert _ _ _ _).trans ((if_neg hne).trans hx)

theorem Viewed.frame {t t' : NodeState} {entry : ChainIndexEntry} {u : UtxoSet}
    (hv : t.Viewed entry u t') : t'.blocks = t.blocks ∧ t'.mempool = t.mempool := by
  cases hv <;> exact ⟨rfl, rfl⟩

theorem Sound.accepted {s : NodeState} (hs : s.Sound) (block : Block)
    (hok : (s.acceptBlock block).2 = .ok ()) :
    ∃ entry b u, Accepted s (s.acceptBlock block).1 entry b u ∧
      entry.blockHash = block.header.blockHash := by
  have hacc := hs.acceptBlock_accepts block
  generalize s.acceptBlock block = result at hok hacc
  cases hacc with
  | rejected e => cases e <;> cases hok
  | unapplied entry t e hi hn he => cases hok
  | side entry t t' u hi hv ht =>
    obtain ⟨b, hentries, hblocks, hstored, hhash, hactive, hpool, hknown⟩ := hi.inserted hs
    obtain ⟨hvb, hvp⟩ := hv.frame
    have htip : t'.chain.bestTip = s.chain.bestTip := by
      rw [hv.chain] at ht ⊢
      exact hi.bestTip.resolve_right ht
    refine ⟨entry, b, u, ⟨?_, ?_, hv.get, ?_, ?_, ?_, ?_, fun h => absurd h ht⟩, hhash⟩
    · rw [hv.chain, hentries]
    · rw [hvb, hblocks]
    · intro h hne
      rw [hv.get_of_ne h hne, hi.utxoSnapshots]
    · rw [hvb]
      exact hstored
    · rw [hv.chain]
      exact hknown
    · intro _
      exact ⟨htip, hv.activeUtxos.trans hactive, hvp.trans hpool⟩
  | tip entry t t' u pool hi hv ht hp =>
    obtain ⟨b, hentries, hblocks, hstored, hhash, hactive, hpool, hknown⟩ := hi.inserted hs
    obtain ⟨hvb, hvp⟩ := hv.frame
    refine ⟨entry, b, u, ⟨?_, ?_, hv.get, ?_, ?_, ?_, fun h => absurd ht h, ?_⟩, hhash⟩
    · exact (congrArg ChainIndex.entries hv.chain).trans hentries
    · exact hvb.trans hblocks
    · intro h hne
      exact (hv.get_of_ne h hne).trans (congrArg (HashMap.get · h) hi.utxoSnapshots)
    · intro h x hx
      exact (congrArg (HashMap.get · h) hvb).trans (hstored h x hx)
    · change s.chain = t'.chain ∨ _ ∧ t'.chain = _
      rw [hv.chain]
      exact hknown
    · intro _
      have hsame : t'.mempool = s.mempool := hvp.trans hpool
      rw [hsame] at hp
      obtain ⟨pool', hp', -, hget⟩ := hs.pool.pruneInvalid (ε := NodeStateError) u
      obtain rfl : pool = pool' := Except.ok.inj (hp.symm.trans hp')
      exact ⟨rfl, hget⟩

namespace Accepted

variable {pre post : NodeState} {entry : ChainIndexEntry} {b : Block} {u : UtxoSet}

theorem get_entry (h : Accepted pre post entry b u) (hash : BlockHash) :
    post.chain.get hash = if hash = entry.blockHash then some entry else pre.chain.get hash := by
  rw [ChainIndex.get, h.entries, HashMap.get_insert]
  rfl

theorem get_block (h : Accepted pre post entry b u) (hash : BlockHash) :
    post.blocks.get hash = if hash = entry.blockHash then some b else pre.blocks.get hash := by
  rw [h.blocks, HashMap.get_insert]

theorem get_mono (h : Accepted pre post entry b u) (hash : BlockHash) (e : ChainIndexEntry)
    (he : pre.chain.get hash = some e) : post.chain.get hash = some e := by
  rcases h.known with hsame | ⟨hn, -⟩
  · rw [← hsame, he]
  · have hne : hash ≠ entry.blockHash := by
      intro heq
      rw [heq, hn] at he
      cases he
    rw [h.get_entry, if_neg hne, he]

theorem entry_get (h : Accepted pre post entry b u) :
    post.chain.get entry.blockHash = some entry := by
  rw [h.get_entry, if_pos rfl]

theorem block_get (h : Accepted pre post entry b u) :
    post.blocks.get entry.blockHash = some b := by
  rw [h.get_block, if_pos rfl]

theorem exists_tip (h : Accepted pre post entry b u) (hpost : post.Sound) :
    ∃ tip, post.chain.bestTip = some tip := by
  obtain ⟨log, hi⟩ := hpost.index
  exact hi.tip_of_get h.entry_get

end Accepted

/-- If the best tip has a view, it is the active one. -/
structure TipViewed (s : NodeState) : Prop where
  tip : ∀ tip u, s.chain.bestTip = some tip → s.utxoSnapshots.get tip = some u →
    s.activeUtxos = u
  none : s.chain.bestTip = none → s.activeUtxos = HashMap.new

omit [Crypto] in
theorem new_tipViewed : new.TipViewed where
  tip := by simp [new, ChainIndex.new]
  none _ := rfl

theorem TipViewed.acceptBlock {s : NodeState} (ht : s.TipViewed) (hs : s.Sound) (block : Block) :
    (s.acceptBlock block).1.TipViewed := by
  have hacc := hs.acceptBlock_accepts block
  generalize s.acceptBlock block = result at hacc
  cases hacc with
  | rejected e => exact ht
  | unapplied entry t e hi hn he =>
    constructor
    · intro tip u htip hu
      rcases hi.bestTip with hsame | hnew
      · rw [hi.activeUtxos]
        exact ht.tip tip u (hsame ▸ htip) (hi.utxoSnapshots ▸ hu)
      · rw [hnew] at htip
        rw [← Option.some.inj htip, hn] at hu
        cases hu
    · intro hnone
      rcases hi.bestTip with hsame | hnew
      · rw [hi.activeUtxos]
        exact ht.none (hsame ▸ hnone)
      · rw [hnew] at hnone
        cases hnone
  | side entry t t' u hi hv htip =>
    have hsame : t'.chain.bestTip = s.chain.bestTip := by
      rw [hv.chain] at htip ⊢
      exact hi.bestTip.resolve_right htip
    have hactive : t'.activeUtxos = s.activeUtxos := hv.activeUtxos.trans hi.activeUtxos
    constructor
    · intro tip v hbest hget
      have hne : tip ≠ entry.blockHash := fun he => htip (he ▸ hbest)
      rw [hv.get_of_ne tip hne, hi.utxoSnapshots] at hget
      exact hactive.trans (ht.tip tip v (hsame ▸ hbest) hget)
    · intro hnone
      exact hactive.trans (ht.none (hsame ▸ hnone))
  | tip entry t t' u pool hi hv htip hp =>
    constructor
    · intro tip v hbest hget
      obtain rfl : entry.blockHash = tip := Option.some.inj (htip.symm.trans hbest)
      exact Option.some.inj (hv.get.symm.trans hget)
    · intro hnone
      exact absurd (htip.symm.trans hnone) (Option.some_ne_none _)

omit [Crypto] in
theorem TipViewed.withPool {s : NodeState} (ht : s.TipViewed) (pool : Mempool) :
    TipViewed { s with mempool := pool } :=
  ⟨ht.tip, ht.none⟩

theorem TipViewed.submitTransaction {s : NodeState} (ht : s.TipViewed) (tx : Transaction) :
    (s.submitTransaction tx).1.TipViewed := by
  unfold NodeState.submitTransaction
  split
  · exact ht.withPool _
  · exact ht

theorem TipViewed.submitPayment {s : NodeState} (ht : s.TipViewed) (keys : List SigningKey)
    (change recipient : VerifyingKey) (amount : UInt64) (uniqueness : UInt32) :
    (s.submitPayment keys change recipient amount uniqueness).1.TipViewed := by
  unfold NodeState.submitPayment
  split
  · exact ht.submitTransaction _
  · exact ht

theorem Step.tipViewed [Profile] {s s' : NodeState} (hs : s.Sound) (ht : s.TipViewed)
    (h : s.Step s') : s'.TipViewed := by
  cases h with
  | submitTransaction tx _ => exact ht.submitTransaction tx
  | submitPayment keys change recipient amount uniqueness _ =>
    exact ht.submitPayment keys change recipient amount uniqueness
  | acceptBlock block _ => exact ht.acceptBlock hs block
  | mineBlock subsidy key uniqueness bits maxTransactions _ r hm _ =>
    rcases mineBlock_cases hm with rfl | ⟨block, rfl | ⟨ids, rfl⟩⟩
    · exact ht
    · exact ht.acceptBlock hs block
    · exact (ht.acceptBlock hs block).withPool _

theorem Reachable.tipViewed [Profile] {s : NodeState} (h : s.Reachable) : s.TipViewed := by
  suffices hboth : s.Sound ∧ s.TipViewed from hboth.2
  induction h with
  | refl => exact ⟨new_sound, new_tipViewed⟩
  | tail _ hstep ih => exact ⟨hstep.sound ih.1, hstep.tipViewed ih.1 ih.2⟩

/-- A pool whose entries are all valid loses nothing. -/
theorem Sound.pruneInvalid_eq {s : NodeState} (hs : s.Sound) :
    (s.mempool.pruneInvalid s.activeUtxos : Res NodeStateError Mempool) = .ok s.mempool := by
  obtain ⟨pool, hpool, -, hget⟩ := hs.pool.pruneInvalid (ε := NodeStateError) s.activeUtxos
  rw [hpool]
  refine congrArg Except.ok (HashMap.ext _ _ fun txid => Option.ext fun tx => ?_)
  rw [hget]
  exact and_iff_left_of_imp fun h =>
    (s.activeUtxos.validateTransaction_eq_ok tx).mp (hs.pool.valid txid tx h)

theorem Complete.adoptTip_eq {s : NodeState} (hc : s.Complete) (hash : BlockHash) :
    s.adoptTip hash = (s, .ok ()) := by
  rw [adoptTip]
  split_ifs with htip
  · have hview := hc.active
    rw [htip] at hview
    rw [show s.utxoSnapshots.get hash = some s.activeUtxos from hview, Res.okOr_some]
    dsimp only
    rw [hc.sound.pruneInvalid_eq]
  · rfl

/-- Accepting a block again changes nothing: the tip branch reloads the coins that are active
and drops pending transactions that are all still valid. -/
theorem reaccept_unchanged (s : NodeState) (hr : s.OkReachable) (block : Block)
    (entry : ChainIndexEntry) (hknown : s.chain.get block.header.blockHash = some entry)
    (hv : validateBlock block = .ok ()) : s.acceptBlock block = (s, .ok ()) := by
  have hc := hr.complete
  have hkey := hc.sound.key _ _ hknown
  obtain ⟨stored, hstored, -⟩ := hc.sound.block_of_entry _ entry hknown
  obtain ⟨u, hu⟩ := hc.viewed _ entry hknown
  rw [← hkey] at hstored hu
  have hsnapshot : s.ensureSnapshot entry.blockHash entry.parent entry.height =
      .ok s.utxoSnapshots :=
    if_pos ((HashMap.containsKey_eq_true _ _).mpr ⟨u, hu⟩)
  rw [acceptBlock, s.chain.insertBlock_of_known block entry hv hknown]
  dsimp only
  rw [HashMap.orInsert_of_get _ _ _ stored hstored, settle, hsnapshot]
  exact hc.adoptTip_eq entry.blockHash

end NodeState

section SampleReaccept

open NodeState

attribute [local instance] NodeState.sampleCrypto

/-- The tip and its parent are received once more, with a transaction pending. -/
theorem sampleState_reaccept :
    sampleState.acceptBlock sampleBlock = (sampleState, .ok ()) ∧
      sampleState.acceptBlock sampleGenesis = (sampleState, .ok ()) :=
  ⟨reaccept_unchanged sampleState sampleState_okReachable sampleBlock
      ⟨sampleBlock.header.blockHash, 1, 4, some sampleGenesis.header.blockHash⟩
      (by decide +kernel) (by decide +kernel),
    reaccept_unchanged sampleState sampleState_okReachable sampleGenesis
      ⟨sampleGenesis.header.blockHash, 0, 2, none⟩ (by decide +kernel) (by decide +kernel)⟩

end SampleReaccept

end Wobble
