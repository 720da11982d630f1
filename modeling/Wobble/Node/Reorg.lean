import Wobble.Node.Runs

namespace Wobble

open Rust

/-- `apply_block` along a list of blocks, the first at the given height. -/
def applyFrom [Crypto] : Nat → UtxoSet → List Block → Res ConsensusError UtxoSet
  | _, utxos, [] => .ok utxos
  | height, utxos, block :: rest => do
    let utxos ← applyBlock utxos block height
    applyFrom (height + 1) utxos rest

/-- The view at the end of a chain that starts with genesis at height 0. -/
def applyChain [Crypto] (blocks : List Block) : Res ConsensusError UtxoSet :=
  applyFrom 0 HashMap.new blocks

theorem applyFrom_concat [Crypto] (height : Nat) (utxos : UtxoSet) (blocks : List Block)
    (block : Block) :
    applyFrom height utxos (blocks ++ [block]) =
      (applyFrom height utxos blocks >>= fun u => applyBlock u block (height + blocks.length)) := by
  induction blocks generalizing height utxos with
  | nil =>
    change (applyBlock utxos block height >>= fun u => .ok u) = applyBlock utxos block height
    cases applyBlock utxos block height <;> rfl
  | cons b rest ih =>
    rw [List.cons_append, applyFrom, applyFrom, bind_assoc]
    congr 1
    funext u
    rw [ih (height + 1) u, List.length_cons, Nat.add_right_comm, Nat.add_assoc]

namespace NodeState

section Views

/-- The stored blocks on the parent path from genesis to a hash. -/
inductive Branch (s : NodeState) : BlockHash → List Block → Prop where
  | genesis (h : BlockHash) (e : ChainIndexEntry) (b : Block) (he : s.chain.get h = some e)
      (hp : e.parent = none) (hb : s.blocks.get h = some b) : Branch s h [b]
  | child (h p : BlockHash) (e : ChainIndexEntry) (b : Block) (bs : List Block)
      (he : s.chain.get h = some e) (hp : e.parent = some p) (hb : s.blocks.get h = some b)
      (hbs : Branch s p bs) : Branch s h (bs ++ [b])

variable [Crypto]

/-- Every indexed hash has a path to genesis. -/
theorem Sound.exists_branch {s : NodeState} (hs : s.Sound) (n : Nat) (h : BlockHash)
    (e : ChainIndexEntry) (he : s.chain.get h = some e) (hn : e.height = n) :
    ∃ bs, s.Branch h bs ∧ bs.length = n + 1 := by
  induction n using Nat.strong_induction_on generalizing h e with
  | _ n ih =>
    obtain ⟨b, hb, -⟩ := hs.block_of_entry h e he
    cases hp : e.parent with
    | none =>
      have hzero := hs.height_of_root h e he hp
      exact ⟨[b], .genesis h e b he hp hb, by rw [List.length_singleton]; omega⟩
    | some p =>
      obtain ⟨parent, hget, hheight⟩ := hs.parent_entry h p e he hp
      obtain ⟨bs, hbs, hlen⟩ := ih parent.height (by omega) p parent hget rfl
      refine ⟨bs ++ [b], .child h p e b bs he hp hb hbs, ?_⟩
      rw [List.length_append, hlen, List.length_singleton]
      omega

/-- A cached view is what the blocks of its branch make of the empty set. -/
theorem Sound.view_eq_applyChain {s : NodeState} (hs : s.Sound) (h : BlockHash)
    (bs : List Block) (hbs : s.Branch h bs) (e : ChainIndexEntry) (u : UtxoSet)
    (he : s.chain.get h = some e) (hu : s.utxoSnapshots.get h = some u) :
    applyChain bs = .ok u ∧ bs.length = e.height + 1 := by
  induction hbs generalizing e u with
  | genesis h e' b he' hp hb =>
    obtain rfl : e = e' := Option.some.inj (he.symm.trans he')
    obtain ⟨e'', b'', v, he'', hb'', hpv, ha⟩ := hs.views h u hu
    obtain rfl : e = e'' := Option.some.inj (he.symm.trans he'')
    obtain rfl : b = b'' := Option.some.inj (hb.symm.trans hb'')
    have hzero := hs.height_of_root h e he hp
    rw [hp] at hpv
    obtain rfl : HashMap.new = v := Except.ok.inj hpv
    rw [hzero] at ha ⊢
    refine ⟨?_, rfl⟩
    change (applyBlock HashMap.new b 0 >>= fun u => .ok u) = .ok u
    rw [ha]
    rfl
  | child h p e' b bs he' hp hb hrest ih =>
    obtain rfl : e = e' := Option.some.inj (he.symm.trans he')
    obtain ⟨e'', b'', v, he'', hb'', hpv, ha⟩ := hs.views h u hu
    obtain rfl : e = e'' := Option.some.inj (he.symm.trans he'')
    obtain rfl : b = b'' := Option.some.inj (hb.symm.trans hb'')
    obtain ⟨parent, hget, hheight⟩ := hs.parent_entry h p e he hp
    rw [hp, parentView, Res.okOr_eq_ok] at hpv
    obtain ⟨hchain, hlen⟩ := ih parent v hget hpv
    constructor
    · rw [applyChain, applyFrom_concat, Nat.zero_add, hlen, ← hheight]
      change (applyChain bs >>= _) = _
      rw [hchain, Res.ok_bind, ha]
    · rw [List.length_append, hlen, List.length_singleton, hheight]

/-- Every indexed block has its view, and the active view is that of the best tip. -/
structure Complete (s : NodeState) : Prop where
  sound : s.Sound
  viewed : ∀ h e, s.chain.get h = some e → ∃ u, s.utxoSnapshots.get h = some u
  active : match s.chain.bestTip with
    | none => s.activeUtxos = HashMap.new
    | some tip => s.utxoSnapshots.get tip = some s.activeUtxos

theorem new_complete : new.Complete where
  sound := new_sound
  viewed := by simp [new, ChainIndex.new, ChainIndex.get]
  active := rfl

theorem Indexed.bestTip {s t : NodeState} {block : Block} {entry : ChainIndexEntry}
    (hi : s.Indexed block entry t) :
    t.chain.bestTip = s.chain.bestTip ∨ t.chain.bestTip = some entry.blockHash := by
  cases hi with
  | known hv hg => exact .inl rfl
  | added hv hg hl =>
    change (s.chain.extend entry).bestTip = _ ∨ (s.chain.extend entry).bestTip = _
    rw [ChainIndex.extend]
    dsimp only
    split
    · exact .inr rfl
    · split_ifs
      · exact .inr rfl
      · exact .inl rfl

/-- Once the accepted block has its view, every indexed block has one. -/
theorem Complete.viewed_step {s t t' : NodeState} (hc : s.Complete) {block : Block}
    {entry : ChainIndexEntry} {u : UtxoSet} (hi : s.Indexed block entry t)
    (hv : t.Viewed entry u t') (h : BlockHash) (e : ChainIndexEntry)
    (he : t'.chain.get h = some e) : ∃ u, t'.utxoSnapshots.get h = some u := by
  by_cases hh : h = entry.blockHash
  · exact ⟨u, hh ▸ hv.get⟩
  have hold : s.chain.get h = some e := by
    rw [hv.chain] at he
    cases hi with
    | known hval hg => exact he
    | added hval hg hl =>
      change (s.chain.extend entry).get h = some e at he
      rwa [ChainIndex.get_extend, if_neg hh] at he
  obtain ⟨w, hw⟩ := hc.viewed h e hold
  exact ⟨w, by rw [hv.get_of_ne h hh, hi.utxoSnapshots, hw]⟩

theorem Complete.acceptBlock {s : NodeState} (hc : s.Complete) (block : Block)
    (hok : (s.acceptBlock block).2 = .ok ()) : (s.acceptBlock block).1.Complete := by
  have hs := hc.sound
  have hsound := hs.acceptBlock block
  have hacc := hs.acceptBlock_accepts block
  generalize s.acceptBlock block = result at hok hsound hacc
  cases hacc with
  | rejected e => cases e <;> cases hok
  | unapplied entry t e hi hn he => cases hok
  | side entry t t' u hi hv ht =>
    refine ⟨hsound, hc.viewed_step hi hv, ?_⟩
    have htip : t'.chain.bestTip = s.chain.bestTip := by
      rw [hv.chain] at ht ⊢
      exact hi.bestTip.resolve_right ht
    have hold := hc.active
    rw [← htip, ← hi.activeUtxos, ← hv.activeUtxos] at hold
    change match t'.chain.bestTip with
      | none => t'.activeUtxos = HashMap.new
      | some tip => t'.utxoSnapshots.get tip = some t'.activeUtxos
    cases hbest : t'.chain.bestTip with
    | none =>
      rw [hbest] at hold
      exact hold
    | some tip =>
      rw [hbest] at hold ht
      have hne : tip ≠ entry.blockHash := fun he => ht (congrArg some he)
      change t'.utxoSnapshots.get tip = some t'.activeUtxos
      rw [hv.get_of_ne tip hne, hi.utxoSnapshots]
      exact hold
  | tip entry t t' u pool hi hv ht hp =>
    refine ⟨hsound, fun h e he => hc.viewed_step hi hv h e he, ?_⟩
    change match t'.chain.bestTip with
      | none => u = HashMap.new
      | some tip => t'.utxoSnapshots.get tip = some u
    rw [ht]
    exact hv.get

theorem Complete.submitTransaction {s : NodeState} (hc : s.Complete) (tx : Transaction) :
    (s.submitTransaction tx).1.Complete := by
  have hsound := hc.sound.submitTransaction tx
  unfold NodeState.submitTransaction at hsound ⊢
  cases h : (s.mempool.submit s.activeUtxos tx).mapErr NodeStateError.mempool with
  | ok r =>
    rw [h] at hsound
    exact ⟨hsound, hc.viewed, hc.active⟩
  | error e => exact hc

theorem OkReachable.complete {s : NodeState} (h : s.OkReachable) : s.Complete := by
  induction h with
  | refl => exact new_complete
  | tail _ hstep ih =>
    cases hstep with
    | submitTransaction tx hr => exact ih.submitTransaction tx
    | acceptBlock block hok => exact ih.acceptBlock block hok

theorem Complete.parentView_ok {s : NodeState} (hc : s.Complete) (block : Block)
    (entry : ChainIndexEntry) (hl : s.chain.Links block entry) :
    ∃ v, s.parentView entry.parent = .ok v := by
  cases hl with
  | genesis w _ _ _ => exact ⟨HashMap.new, rfl⟩
  | child parent w hp _ _ =>
    obtain ⟨u, hu⟩ := hc.viewed _ parent hp
    exact ⟨u, by rw [parentView, hu, Res.okOr_some]⟩

/-- A block is refused by the index or by `apply_block`, never for a view that is missing. -/
theorem Complete.acceptBlock_err {s : NodeState} (hc : s.Complete) (block : Block)
    (e : NodeStateError) (he : (s.acceptBlock block).2 = .error (.err e)) :
    (∃ e', e = .chain e') ∨ ∃ e', e = .consensus e' := by
  have hs := hc.sound
  have hacc := hs.acceptBlock_accepts block
  generalize s.acceptBlock block = result at he hacc
  cases hacc with
  | rejected e' =>
    obtain ⟨e'', -, he⟩ := (Res.mapErr_eq_err _ _ _).mp he
    exact .inl ⟨e'', he.symm⟩
  | side entry t t' u hi hv ht => cases he
  | tip entry t t' u pool hi hv ht hp => cases he
  | unapplied entry t e' hi hn hens =>
    obtain rfl : e' = .err e := Except.error.inj he
    cases hi with
    | known hv hg =>
      obtain ⟨u, hu⟩ := hc.viewed _ entry hg
      rw [hs.key _ _ hg, hu] at hn
      cases hn
    | added hv hg hl =>
      obtain ⟨v, hp⟩ := hc.parentView_ok block entry hl
      rw [hs.ensureSnapshot_withBlock block entry (hl.blockHash ▸ hg), hp, Res.ok_bind] at hens
      rcases (Res.bind_eq_error _ _ _).mp hens with ha | ⟨u, -, ha⟩
      · obtain ⟨e'', -, he⟩ := (Res.mapErr_eq_err _ _ _).mp ha
        exact .inr ⟨e'', he.symm⟩
      · cases ha

/-- Views follow the branches, and the active one the best tip, whatever the order in which
blocks arrive. -/
theorem okReachable_views (s : NodeState) (hr : s.OkReachable) :
    (∀ h e, s.chain.get h = some e → ∃ b u bs, s.blocks.get h = some b ∧
      s.utxoSnapshots.get h = some u ∧ s.Branch h bs ∧ bs.length = e.height + 1 ∧
      applyChain bs = .ok u) ∧
    (match s.chain.bestTip with
      | none => s.activeUtxos = HashMap.new
      | some tip => s.utxoSnapshots.get tip = some s.activeUtxos) ∧
    ∀ block h, (s.acceptBlock block).2 ≠ .error (.err (.missingIndexedBlock h)) ∧
      (s.acceptBlock block).2 ≠ .error (.err (.missingParentState h)) := by
  have hc := hr.complete
  refine ⟨?_, hc.active, ?_⟩
  · intro h e he
    obtain ⟨b, hb, -⟩ := hc.sound.block_of_entry h e he
    obtain ⟨u, hu⟩ := hc.viewed h e he
    obtain ⟨bs, hbs, hlen⟩ := hc.sound.exists_branch e.height h e he rfl
    exact ⟨b, u, bs, hb, hu, hbs, hlen, (hc.sound.view_eq_applyChain h bs hbs e u he hu).1⟩
  · intro block h
    constructor
    · intro he
      rcases hc.acceptBlock_err block _ he with ⟨_, h⟩ | ⟨_, h⟩ <;> cases h
    · intro he
      rcases hc.acceptBlock_err block _ he with ⟨_, h⟩ | ⟨_, h⟩ <;> cases h

end Views

section SampleViews

attribute [local instance] sampleCrypto

theorem sampleState_branch :
    sampleState.Branch sampleBlock.header.blockHash [sampleGenesis, sampleBlock] := by
  have hgenesis : sampleState.Branch sampleGenesis.header.blockHash [sampleGenesis] :=
    .genesis _ ⟨sampleGenesis.header.blockHash, 0, 2, none⟩ _ (by decide +kernel) rfl
      (by decide +kernel)
  exact .child _ sampleGenesis.header.blockHash
    ⟨sampleBlock.header.blockHash, 1, 4, some sampleGenesis.header.blockHash⟩ _ _
    (by decide +kernel) rfl (by decide +kernel) hgenesis

theorem sampleState_views :
    (∀ h e, sampleState.chain.get h = some e → ∃ b u bs, sampleState.blocks.get h = some b ∧
      sampleState.utxoSnapshots.get h = some u ∧ sampleState.Branch h bs ∧
      bs.length = e.height + 1 ∧ applyChain bs = .ok u) ∧
    (match sampleState.chain.bestTip with
      | none => sampleState.activeUtxos = HashMap.new
      | some tip => sampleState.utxoSnapshots.get tip = some sampleState.activeUtxos) ∧
    ∀ block h, (sampleState.acceptBlock block).2 ≠ .error (.err (.missingIndexedBlock h)) ∧
      (sampleState.acceptBlock block).2 ≠ .error (.err (.missingParentState h)) :=
  okReachable_views sampleState sampleState_okReachable

end SampleViews

end NodeState

end Wobble
