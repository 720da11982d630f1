import Wobble.Node.Accepted
import Wobble.Node.Atomicity

namespace Wobble

open Rust

namespace NodeState

section Views

variable [Crypto]

/-- The block is in the index, and there is no view of it. -/
def Unapplied (s : NodeState) (h : BlockHash) : Prop :=
  (∃ e, s.chain.get h = some e) ∧ s.utxoSnapshots.get h = none

def AllApplied (s : NodeState) : Prop := ∀ h, ¬ s.Unapplied h

/-- Blocks without a view are out of reach of `ensure_snapshot`: the parent has no view either, or
the block does not apply to it. -/
def Stuck (s : NodeState) : Prop :=
  ∀ h e b v, s.chain.get h = some e → s.blocks.get h = some b → s.utxoSnapshots.get h = none →
    s.parentView e.parent = .ok v → ∃ fault, applyBlock v b e.height = .error fault

theorem new_stuck : new.Stuck := by
  intro h e b v he
  cases he

theorem Stuck.withCoins {s : NodeState} (hstuck : s.Stuck) (utxos : UtxoSet) (pool : Mempool) :
    Stuck { s with activeUtxos := utxos, mempool := pool } := by
  intro h e b v he hb hn hp
  have hp' : s.parentView e.parent = .ok v := by
    cases hpar : e.parent <;> rw [hpar] at hp <;> exact hp
  exact hstuck h e b v he hb hn hp'

theorem Indexed.parentView {s t : NodeState} {block : Block} {entry : ChainIndexEntry}
    (hi : s.Indexed block entry t) (parent : Option BlockHash) :
    t.parentView parent = s.parentView parent := by
  cases parent with
  | none => rfl
  | some p => rw [NodeState.parentView, NodeState.parentView, hi.utxoSnapshots]

/-- What was indexed and stored before is found as it was. -/
theorem Indexed.old {s t : NodeState} {block : Block} {entry : ChainIndexEntry} (hs : s.Sound)
    (hi : s.Indexed block entry t) (h : BlockHash) (hne : h ≠ entry.blockHash) :
    t.chain.get h = s.chain.get h ∧ t.blocks.get h = s.blocks.get h := by
  obtain ⟨b, hentries, hblocks, -⟩ := hi.inserted hs
  constructor
  · rw [ChainIndex.get, hentries, HashMap.get_insert, if_neg hne]
    rfl
  · rw [hblocks, HashMap.get_insert, if_neg hne]

/-- A view that had to be computed is that of a block just added. -/
theorem Stuck.computed_unknown {s t t' : NodeState} {block : Block} {entry : ChainIndexEntry}
    {u : UtxoSet} (hstuck : s.Stuck) (hs : s.Sound) (hi : s.Indexed block entry t)
    (hv : t.Viewed entry u t') (hn : s.utxoSnapshots.get entry.blockHash = none) :
    s.chain.get entry.blockHash = none := by
  cases hi with
  | added hval hg hl => exact hl.blockHash ▸ hg
  | known hval hg =>
    exfalso
    have hget : s.chain.get entry.blockHash = some entry := (hs.key _ _ hg).symm ▸ hg
    cases hv with
    | cached _ hu =>
      rw [hn] at hu
      cases hu
    | computed b v _ _ hb hp ha =>
      obtain ⟨fault, hfault⟩ := hstuck _ entry b v hget hb hn hp
      rw [ha] at hfault
      cases hfault

/-- A block without a view is without one after another block has been viewed. -/
theorem Stuck.unapplied_viewed {s t t' : NodeState} {block : Block} {entry : ChainIndexEntry}
    {u : UtxoSet} (hstuck : s.Stuck) (hs : s.Sound) (hi : s.Indexed block entry t)
    (hv : t.Viewed entry u t') (h : BlockHash) (hu : s.Unapplied h) :
    h ≠ entry.blockHash ∧ t'.Unapplied h := by
  obtain ⟨⟨e, he⟩, hn⟩ := hu
  have hne : h ≠ entry.blockHash := by
    intro heq
    rw [heq] at he hn
    rw [hstuck.computed_unknown hs hi hv hn] at he
    cases he
  refine ⟨hne, ⟨e, ?_⟩, ?_⟩
  · rw [hv.chain, (hi.old hs h hne).1, he]
  · rw [hv.get_of_ne h hne, hi.utxoSnapshots, hn]

theorem Stuck.viewed {s t t' : NodeState} {block : Block} {entry : ChainIndexEntry} {u : UtxoSet}
    (hstuck : s.Stuck) (hs : s.Sound) (hi : s.Indexed block entry t) (hv : t.Viewed entry u t') :
    t'.Stuck := by
  intro h e b v he hb hn hp
  have hne : h ≠ entry.blockHash := by
    intro heq
    rw [heq, hv.get] at hn
    cases hn
  obtain ⟨hchain, hblock⟩ := hi.old hs h hne
  rw [hv.chain, hchain] at he
  rw [hv.frame.1, hblock] at hb
  rw [hv.get_of_ne h hne, hi.utxoSnapshots] at hn
  -- the view that is new does not belong to the parent of a block indexed before
  have hparent : s.parentView e.parent = .ok v := by
    rw [NodeState.parentView_eq_ok] at hp ⊢
    rcases hp with hroot | ⟨p, hpar, hview⟩
    · exact .inl hroot
    refine .inr ⟨p, hpar, ?_⟩
    by_cases hpe : p = entry.blockHash
    · obtain ⟨parent, hget, -⟩ := hs.parent_entry h p e he hpar
      rw [hpe] at hget hview ⊢
      cases hold : s.utxoSnapshots.get entry.blockHash with
      | none =>
        rw [hstuck.computed_unknown hs hi hv hold] at hget
        cases hget
      | some w =>
        rw [hv.get] at hview
        cases hv with
        | cached _ hu =>
          rw [hi.utxoSnapshots, hold] at hu
          exact hu.trans hview
        | computed b' v' _ hnone hb' hp' ha' =>
          rw [hi.utxoSnapshots, hold] at hnone
          cases hnone
    · rwa [hv.get_of_ne p hpe, hi.utxoSnapshots] at hview
  exact hstuck h e b v he hb hn hparent

theorem Stuck.unapplied {s t : NodeState} {block : Block} {entry : ChainIndexEntry}
    (hstuck : s.Stuck) (hs : s.Sound) (hi : s.Indexed block entry t) (fault : Fault NodeStateError)
    (hn : t.utxoSnapshots.get entry.blockHash = none)
    (hens : t.ensureSnapshot entry.blockHash entry.parent entry.height = .error fault) :
    t.Stuck := by
  intro h e b v he hb hnone hp
  by_cases hne : h = entry.blockHash
  · rw [hne] at he hb
    obtain rfl := Option.some.inj ((hi.get hs).symm.trans he)
    have hno : ¬ t.utxoSnapshots.containsKey entry.blockHash = true := by
      rw [(HashMap.containsKey_eq_false _ _).mpr hn]
      exact Bool.false_ne_true
    rw [ensureSnapshot, if_neg hno, hp, Res.ok_bind, hb, Res.okOr_some, Res.ok_bind] at hens
    cases happ : applyBlock v b entry.height with
    | error fault' => exact ⟨fault', rfl⟩
    | ok u =>
      rw [happ] at hens
      cases hens
  · obtain ⟨hchain, hblock⟩ := hi.old hs h hne
    rw [hi.utxoSnapshots] at hnone
    rw [hi.parentView] at hp
    exact hstuck h e b v (hchain ▸ he) (hblock ▸ hb) hnone hp

theorem Indexed.unapplied {s t : NodeState} {block : Block} {entry : ChainIndexEntry}
    (hs : s.Sound) (hi : s.Indexed block entry t) (h : BlockHash) (hu : s.Unapplied h) :
    t.Unapplied h := by
  obtain ⟨⟨e, he⟩, hn⟩ := hu
  refine ⟨?_, by rw [hi.utxoSnapshots, hn]⟩
  by_cases hne : h = entry.blockHash
  · exact ⟨entry, hne ▸ hi.get hs⟩
  · exact ⟨e, (hi.old hs h hne).1.trans he⟩

/-- Whatever `accept_block` does, what is out of reach stays so. -/
theorem Stuck.acceptBlock {s : NodeState} (hstuck : s.Stuck) (hs : s.Sound) (block : Block) :
    (s.acceptBlock block).1.Stuck ∧
      ∀ h, s.Unapplied h → (s.acceptBlock block).1.Unapplied h := by
  have hacc := hs.acceptBlock_accepts block
  generalize s.acceptBlock block = result at hacc
  cases hacc with
  | rejected e => exact ⟨hstuck, fun h hu => hu⟩
  | unapplied entry t e hi hn he => exact ⟨hstuck.unapplied hs hi e hn he, hi.unapplied hs⟩
  | side entry t t' u hi hv ht =>
    exact ⟨hstuck.viewed hs hi hv, fun h hu => (hstuck.unapplied_viewed hs hi hv h hu).2⟩
  | tip entry t t' u pool hi hv ht hp =>
    exact ⟨(hstuck.viewed hs hi hv).withCoins u pool,
      fun h hu => (hstuck.unapplied_viewed hs hi hv h hu).2⟩

/-- A block that is refused leaves the state as it was, or leaves a block without a view. -/
theorem Sound.acceptBlock_error {s : NodeState} (hs : s.Sound) (block : Block)
    (fault : Fault NodeStateError) (herror : (s.acceptBlock block).2 = .error fault) :
    (s.acceptBlock block).1 = s ∨ ∃ h, (s.acceptBlock block).1.Unapplied h := by
  have hacc := hs.acceptBlock_accepts block
  generalize s.acceptBlock block = result at hacc herror
  cases hacc with
  | rejected e => exact .inl rfl
  | unapplied entry t e hi hn he => exact .inr ⟨entry.blockHash, ⟨entry, hi.get hs⟩, hn⟩
  | side entry t t' u hi hv ht => cases herror
  | tip entry t t' u pool hi hv ht hp => cases herror

/-- No call of `accept_block` makes a transaction pending. -/
theorem Sound.pending_of_acceptBlock {s : NodeState} (hs : s.Sound) (block : Block) (txid : Txid)
    (tx : Transaction) (h : (s.acceptBlock block).1.mempool.get txid = some tx) :
    s.mempool.get txid = some tx := by
  have hsame : ∀ entry t, s.Indexed block entry t → t.mempool = s.mempool := by
    intro entry t hi
    obtain ⟨b, -, -, -, -, -, hpool, -⟩ := hi.inserted hs
    exact hpool
  have hacc := hs.acceptBlock_accepts block
  generalize s.acceptBlock block = result at hacc h
  cases hacc with
  | rejected e => exact h
  | unapplied entry t e hi hn he => exact hsame entry t hi ▸ h
  | side entry t t' u hi hv ht =>
    rw [hv.frame.2, hsame entry t hi] at h
    exact h
  | tip entry t t' u pool hi hv ht hp =>
    rw [hv.frame.2, hsame entry t hi] at hp
    obtain ⟨pool', hp', -, hget⟩ := hs.pool.pruneInvalid (ε := NodeStateError) u
    obtain rfl : pool = pool' := Except.ok.inj (hp.symm.trans hp')
    exact ((hget txid tx).mp h).1

theorem AllApplied.complete {s : NodeState} (h : s.AllApplied) (hs : s.Sound)
    (ht : s.TipViewed) : s.Complete := by
  have hviewed : ∀ h e, s.chain.get h = some e → ∃ u, s.utxoSnapshots.get h = some u := by
    intro hash e he
    by_contra hn
    exact h hash ⟨⟨e, he⟩, Option.eq_none_iff_forall_ne_some.mpr fun u hu => hn ⟨u, hu⟩⟩
  refine ⟨hs, hviewed, ?_⟩
  cases htip : s.chain.bestTip with
  | none => exact ht.none htip
  | some tip =>
    obtain ⟨log, hi⟩ := hs.index
    obtain ⟨e, he⟩ := hi.tipIndexed tip htip
    obtain ⟨u, hu⟩ := hviewed tip e he
    dsimp only
    rw [hu, ht.tip tip u htip hu]

theorem submitTransaction_frame (s : NodeState) (tx : Transaction) :
    ∃ pool, (s.submitTransaction tx).1 = { s with mempool := pool } := by
  unfold submitTransaction
  split
  · exact ⟨_, rfl⟩
  · exact ⟨s.mempool, rfl⟩

theorem submitPayment_frame (s : NodeState) (keys : List SigningKey)
    (change recipient : VerifyingKey) (amount : UInt64) (uniqueness : UInt32) :
    ∃ pool, (s.submitPayment keys change recipient amount uniqueness).1 =
      { s with mempool := pool } := by
  unfold submitPayment
  split
  · exact s.submitTransaction_frame _
  · exact ⟨s.mempool, rfl⟩

theorem Step.stuck [Profile] {s s' : NodeState} (hstuck : s.Stuck) (hs : s.Sound)
    (hstep : s.Step s') : s'.Stuck ∧ ∀ h, s.Unapplied h → s'.Unapplied h := by
  have hpool : ∀ t, (∃ pool, t = { s with mempool := pool }) →
      t.Stuck ∧ ∀ h, s.Unapplied h → t.Unapplied h := by
    intro t ht
    obtain ⟨pool, rfl⟩ := ht
    exact ⟨hstuck.withCoins s.activeUtxos pool, fun h hu => hu⟩
  cases hstep with
  | submitTransaction tx hr => exact hpool _ (s.submitTransaction_frame tx)
  | submitPayment keys change recipient amount uniqueness hr =>
    exact hpool _ (s.submitPayment_frame keys change recipient amount uniqueness)
  | acceptBlock block hr => exact hstuck.acceptBlock hs block
  | mineBlock subsidy key uniqueness bits maxTransactions _ r hm hr =>
    rcases mineBlock_cases hm with rfl | ⟨block, rfl | ⟨ids, rfl⟩⟩
    · exact ⟨hstuck, fun h hu => hu⟩
    · exact hstuck.acceptBlock hs block
    · obtain ⟨hafter, hkept⟩ := hstuck.acceptBlock hs block
      exact ⟨hafter.withCoins _ _, hkept⟩

theorem Reachable.stuck [Profile] {s : NodeState} (h : s.Reachable) : s.Stuck := by
  induction h with
  | refl => exact new_stuck
  | tail hrun hstep ih => exact (hstep.stuck ih (Reachable.sound hrun)).1

/-- The block itself and the blocks indexed on top of it. -/
inductive Descends (s : NodeState) (h : BlockHash) : BlockHash → Prop where
  | self : Descends s h h
  | child (h' p : BlockHash) (e : ChainIndexEntry) (he : s.chain.get h' = some e)
      (hp : e.parent = some p) (hd : Descends s h p) : Descends s h h'

theorem Sound.unapplied_descends {s : NodeState} (hs : s.Sound) {h h' : BlockHash}
    (hu : s.Unapplied h) (hd : s.Descends h h') : s.Unapplied h' := by
  induction hd with
  | self => exact hu
  | child h' p e he hp _ ih =>
    refine ⟨⟨e, he⟩, ?_⟩
    cases hview : s.utxoSnapshots.get h' with
    | none => rfl
    | some u =>
      obtain ⟨e', b, v, he', -, hpv, -⟩ := hs.views h' u hview
      obtain rfl := Option.some.inj (he.symm.trans he')
      rw [hp, NodeState.parentView, ih.2] at hpv
      cases hpv

/-- A new block on top of one without a view cannot be viewed. -/
theorem Sound.not_viewed {s t t' : NodeState} {block : Block} {entry : ChainIndexEntry}
    {u : UtxoSet} (hs : s.Sound) (hi : s.Indexed block entry t) (hv : t.Viewed entry u t')
    (hnew : s.chain.get block.header.blockHash = none)
    (hparent : s.Unapplied block.header.prevBlockhash) : False := by
  obtain ⟨⟨e, he⟩, hn⟩ := hparent
  cases hi with
  | known hval hg =>
    rw [hnew] at hg
    cases hg
  | added hval hg hl =>
    cases hl with
    | genesis w hempty hp hw =>
      rw [hempty] at he
      cases he
    | child parent w hp hw hle =>
      cases hv with
      | cached _ hu =>
        have hnone := hs.view_of_unknown _ hg
        rw [show s.utxoSnapshots.get block.header.blockHash = some u from hu] at hnone
        cases hnone
      | computed b v _ hnone hb hpv ha =>
        rw [show s.utxoSnapshots.get block.header.prevBlockhash = some v from
          (Res.okOr_eq_ok _ _ _).mp hpv] at hn
        cases hn

/-- A block without a view, or a new one on top of it, is refused. -/
theorem Sound.acceptBlock_of_unapplied {s : NodeState} (hs : s.Sound) (hstuck : s.Stuck)
    (block : Block)
    (h : s.Unapplied block.header.blockHash ∨ s.chain.get block.header.blockHash = none ∧
      s.Unapplied block.header.prevBlockhash) :
    ∃ fault, (s.acceptBlock block).2 = .error fault := by
  have hrefused : ∀ entry t t' u, s.Indexed block entry t → t.Viewed entry u t' → False := by
    intro entry t t' u hi hv
    rcases h with hself | ⟨hnew, hparent⟩
    · obtain ⟨b, -, -, -, hhash, -⟩ := hi.inserted hs
      exact (hstuck.unapplied_viewed hs hi hv _ hself).1 hhash.symm
    · exact hs.not_viewed hi hv hnew hparent
  have hacc := hs.acceptBlock_accepts block
  generalize s.acceptBlock block = result at hacc
  cases hacc with
  | rejected e => cases e <;> exact ⟨_, rfl⟩
  | unapplied entry t e hi hn he => exact ⟨e, rfl⟩
  | side entry t t' u hi hv ht => exact (hrefused entry t t' u hi hv).elim
  | tip entry t t' u pool hi hv ht hp => exact (hrefused entry t t' u hi hv).elim

/-- A block that was indexed and could not be applied is never applied later, nor is any block on
top of it: in every later state all of them are without a view, and offering one of them again, or
a new block on top of one, fails. -/
theorem unapplied_forever [Profile] (s s' : NodeState) (hr : s.Reachable)
    (hlater : Relation.ReflTransGen Step s s') (h : BlockHash) (hu : s.Unapplied h) :
    (∀ h', s'.Descends h h' → s'.Unapplied h') ∧
      ∀ block, s'.Descends h block.header.blockHash ∨
          s'.chain.get block.header.blockHash = none ∧ s'.Descends h block.header.prevBlockhash →
        ∃ fault, (s'.acceptBlock block).2 = .error fault := by
  have hkept : s'.Reachable ∧ s'.Unapplied h := by
    induction hlater with
    | refl => exact ⟨hr, hu⟩
    | tail _ hstep ih =>
      obtain ⟨hreach, hun⟩ := ih
      exact ⟨hreach.tail hstep, (hstep.stuck hreach.stuck hreach.sound).2 h hun⟩
  obtain ⟨hreach, hun⟩ := hkept
  have hbelow : ∀ h', s'.Descends h h' → s'.Unapplied h' :=
    fun h' hd => hreach.sound.unapplied_descends hun hd
  refine ⟨hbelow, fun block hblock => ?_⟩
  refine hreach.sound.acceptBlock_of_unapplied hreach.stuck block ?_
  exact hblock.imp (hbelow _) fun hnew => ⟨hnew.1, hbelow _ hnew.2⟩

end Views

section OverpaidBranch

def branchReward (value : UInt64) (lockTime : UInt32) : Transaction :=
  ⟨1, [], [⟨value, sampleLock⟩], lockTime⟩

def branchBlock (prev root : Nat) (reward : Transaction) : Block :=
  ⟨⟨1, ⟨beBytes 32 prev⟩, beBytes 32 root, 0, 0x207fffff, 0⟩, [reward]⟩

/-- Pays out one more than the subsidy, on top of genesis. -/
def overpaidBlock : Block :=
  branchBlock 0x7b19c99f8caab2757d8cb267141745ad2a6556bfeabce6052088a664ea92f5d1
    0xa9d6b1a8feefd85f37234e58f4c1226938c41baa9b801c0a9e8c7fa2d8946cc7 (branchReward 51 5)

def overpaidHash : BlockHash :=
  ⟨beBytes 32 0x4b4a25c532fb3b239cc89eef070cfb54a506d1af6a519421f169431b7edaa469⟩

def overpaidChild : Block :=
  branchBlock 0x4b4a25c532fb3b239cc89eef070cfb54a506d1af6a519421f169431b7edaa469
    0x77f5d0e872ff1f96262099d73dcf1375a9711aef23fdd7c8048119aaa9ea8463 (branchReward 50 6)

def overpaidGrandchild : Block :=
  branchBlock 0x713d1e297c47403ed44d0cc9af21ba3ea945251680d93dd988066387b7d6b6c9
    0xfce59bbc5693d7f2b6bedda01fe403a48ea777c49f4b0ef2d4460e74cecba92a (branchReward 50 7)

def overpaidDigests : List Digest := [
  ⟨(branchReward 51 5).encoding true,
    0x2f0e133f6b973f0e17ddabe294c80d58de2ef9fb0fd34d3788316b072a0d34ec,
    0xa9d6b1a8feefd85f37234e58f4c1226938c41baa9b801c0a9e8c7fa2d8946cc7⟩,
  ⟨overpaidBlock.header.encode,
    0x1c4b1698d078597465a41f99f924a7cb0c52ef73aeb4edfa036e99d91d71f7cc,
    0x4b4a25c532fb3b239cc89eef070cfb54a506d1af6a519421f169431b7edaa469⟩,
  ⟨(branchReward 50 6).encoding true,
    0x50fbaf3437e7ee1c966ff971e700a5b699c352218aeae3d96aa3b65ddfd27227,
    0x77f5d0e872ff1f96262099d73dcf1375a9711aef23fdd7c8048119aaa9ea8463⟩,
  ⟨overpaidChild.header.encode,
    0x3853eb2c075d8228f9c938705dc163b38165767e29cc4f67c9fa7d5bf80ff3a7,
    0x713d1e297c47403ed44d0cc9af21ba3ea945251680d93dd988066387b7d6b6c9⟩,
  ⟨(branchReward 50 7).encoding true,
    0x7f383ace753eb4e40edc71ebebf64bdaa888d7afab5bf4cb780d967370355bcf,
    0xfce59bbc5693d7f2b6bedda01fe403a48ea777c49f4b0ef2d4460e74cecba92a⟩,
  ⟨overpaidGrandchild.header.encode,
    0x146d7b046d40209975f263f4c1b80a0dbf860f3ea238886ed2b299ba3361cb30,
    0x3fa02187db9e8b044b8789566e41b54970eb3d477695869c9d257bdc4ff418fc⟩]

@[reducible] def overpaidCrypto : Crypto :=
  recordedCrypto (sampleDigests ++ overpaidDigests) sampleSignatures

attribute [local instance] overpaidCrypto sampleProfile

/-- The block is refused and is the best tip all the same. -/
def overpaid : NodeState := ((new.acceptBlock sampleGenesis).1.acceptBlock overpaidBlock).1

/-- A payment has become pending since, a block beside the refused one has been accepted, and a
block on top of it refused. -/
def overpaidLater : NodeState :=
  (((overpaid.submitTransaction samplePayment).1.acceptBlock sampleBlock).1.acceptBlock
    overpaidChild).1

theorem overpaid_reachable : overpaid.Reachable := by
  have hgenesis : Step new (new.acceptBlock sampleGenesis).1 :=
    .acceptBlock sampleGenesis (Res.returned_of_ok () (by decide +kernel))
  have herror : ((new.acceptBlock sampleGenesis).1.acceptBlock overpaidBlock).2 =
      .error (.err (.consensus (.coinbaseRewardTooLarge 50 51))) := by decide +kernel
  refine (Relation.ReflTransGen.single hgenesis).tail (.acceptBlock overpaidBlock fun m hm => ?_)
  cases herror.symm.trans hm

theorem overpaid_later : Relation.ReflTransGen Step overpaid overpaidLater := by
  have hpayment : Step overpaid (overpaid.submitTransaction samplePayment).1 :=
    .submitTransaction samplePayment (Res.returned_of_ok samplePayment.id (by decide +kernel))
  have hblock : Step (overpaid.submitTransaction samplePayment).1
      ((overpaid.submitTransaction samplePayment).1.acceptBlock sampleBlock).1 :=
    .acceptBlock sampleBlock (Res.returned_of_ok () (by decide +kernel))
  have herror : (((overpaid.submitTransaction samplePayment).1.acceptBlock sampleBlock).1.acceptBlock
      overpaidChild).2 = .error (.err (.missingParentState overpaidHash)) := by decide +kernel
  refine ((Relation.ReflTransGen.single hpayment).tail hblock).tail
    (.acceptBlock overpaidChild fun m hm => ?_)
  cases herror.symm.trans hm

/-- Three calls later the branch of the refused block is still without a view, and goes on being
refused. -/
theorem overpaid_forever :
    overpaidLater.Unapplied overpaidHash ∧
      overpaidLater.Unapplied overpaidChild.header.blockHash ∧
      (∃ fault, (overpaidLater.acceptBlock overpaidBlock).2 = .error fault) ∧
      ∃ fault, (overpaidLater.acceptBlock overpaidGrandchild).2 = .error fault := by
  have hun : overpaid.Unapplied overpaidHash :=
    ⟨Option.isSome_iff_exists.mp (by decide +kernel), by decide +kernel⟩
  obtain ⟨hbelow, hrefused⟩ :=
    unapplied_forever overpaid overpaidLater overpaid_reachable overpaid_later overpaidHash hun
  have hhash : overpaidBlock.header.blockHash = overpaidHash := by decide +kernel
  have hprev : overpaidGrandchild.header.prevBlockhash = overpaidChild.header.blockHash := by
    decide +kernel
  have hparent : (overpaidLater.chain.get overpaidChild.header.blockHash).bind
      ChainIndexEntry.parent = some overpaidHash := by decide +kernel
  have hchild : overpaidLater.Descends overpaidHash overpaidChild.header.blockHash := by
    obtain ⟨entry, hentry, hp⟩ := Option.bind_eq_some_iff.mp hparent
    exact .child _ overpaidHash entry hentry hp .self
  refine ⟨hbelow _ .self, hbelow _ hchild, hrefused overpaidBlock (.inl (hhash ▸ .self)),
    hrefused overpaidGrandchild (.inr ⟨by decide +kernel, hprev ▸ hchild⟩)⟩

end OverpaidBranch

end NodeState

end Wobble
