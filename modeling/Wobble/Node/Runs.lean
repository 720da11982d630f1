import Wobble.Node.Invariant
import Wobble.Data.RecordedCrypto

namespace Wobble

open Rust

namespace NodeState

section Calls

variable [Crypto]

/-- The block is indexed and stored: it was before, or it has just been added. -/
inductive Indexed (s : NodeState) (block : Block) : ChainIndexEntry → NodeState → Prop where
  | known (entry : ChainIndexEntry) (hv : validateBlock block = .ok ())
      (hg : s.chain.get block.header.blockHash = some entry) : Indexed s block entry s
  | added (entry : ChainIndexEntry) (hv : validateBlock block = .ok ())
      (hg : s.chain.get block.header.blockHash = none) (hl : s.chain.Links block entry) :
      Indexed s block entry (s.withBlock entry block)

/-- The indexed block has a cached view: it had one, or its parent's view has been advanced. -/
inductive Viewed (s : NodeState) (entry : ChainIndexEntry) : UtxoSet → NodeState → Prop where
  | cached (u : UtxoSet) (hu : s.utxoSnapshots.get entry.blockHash = some u) : Viewed s entry u s
  | computed (b : Block) (v u : UtxoSet) (hn : s.utxoSnapshots.get entry.blockHash = none)
      (hb : s.blocks.get entry.blockHash = some b) (hp : s.parentView entry.parent = .ok v)
      (ha : applyBlock v b entry.height = .ok u) :
      Viewed s entry u (s.withView entry.blockHash u)

/-- Everything `accept_block` can do. -/
inductive Accepts (s : NodeState) (block : Block) :
    NodeState × Res NodeStateError Unit → Prop where
  | rejected (e : Fault ChainError) :
      Accepts s block (s, Res.mapErr NodeStateError.chain (.error e))
  | unapplied (entry : ChainIndexEntry) (t : NodeState) (e : Fault NodeStateError)
      (hi : s.Indexed block entry t) (hn : t.utxoSnapshots.get entry.blockHash = none)
      (he : t.ensureSnapshot entry.blockHash entry.parent entry.height = .error e) :
      Accepts s block (t, .error e)
  | side (entry : ChainIndexEntry) (t t' : NodeState) (u : UtxoSet)
      (hi : s.Indexed block entry t) (hv : t.Viewed entry u t')
      (ht : t'.chain.bestTip ≠ some entry.blockHash) : Accepts s block (t', .ok ())
  | tip (entry : ChainIndexEntry) (t t' : NodeState) (u : UtxoSet) (pool : Mempool)
      (hi : s.Indexed block entry t) (hv : t.Viewed entry u t')
      (ht : t'.chain.bestTip = some entry.blockHash)
      (hp : (t'.mempool.pruneInvalid u : Res NodeStateError Mempool) = .ok pool) :
      Accepts s block ({ t' with activeUtxos := u, mempool := pool }, .ok ())

theorem Indexed.get {s t : NodeState} {block : Block} {entry : ChainIndexEntry}
    (hs : s.Sound) (hi : s.Indexed block entry t) : t.chain.get entry.blockHash = some entry := by
  cases hi with
  | known hv hg => rw [hs.key _ _ hg, hg]
  | added hv hg hl => exact (s.chain.get_extend entry entry.blockHash).trans (if_pos rfl)

theorem Indexed.sound {s t : NodeState} {block : Block} {entry : ChainIndexEntry}
    (hs : s.Sound) (hi : s.Indexed block entry t) : t.Sound := by
  cases hi with
  | known hv hg => exact hs
  | added hv hg hl => exact hs.withBlock block entry hv hg hl

theorem Viewed.get {t t' : NodeState} {entry : ChainIndexEntry} {u : UtxoSet}
    (hv : t.Viewed entry u t') : t'.utxoSnapshots.get entry.blockHash = some u := by
  cases hv with
  | cached _ hu => exact hu
  | computed b v _ hn hb hp ha => rw [NodeState.withView, HashMap.get_insert, if_pos rfl]

theorem Indexed.utxoSnapshots {s t : NodeState} {block : Block} {entry : ChainIndexEntry}
    (hi : s.Indexed block entry t) : t.utxoSnapshots = s.utxoSnapshots := by
  cases hi <;> rfl

theorem Indexed.activeUtxos {s t : NodeState} {block : Block} {entry : ChainIndexEntry}
    (hi : s.Indexed block entry t) : t.activeUtxos = s.activeUtxos := by
  cases hi <;> rfl

theorem Viewed.chain {t t' : NodeState} {entry : ChainIndexEntry} {u : UtxoSet}
    (hv : t.Viewed entry u t') : t'.chain = t.chain := by
  cases hv <;> rfl

theorem Viewed.activeUtxos {t t' : NodeState} {entry : ChainIndexEntry} {u : UtxoSet}
    (hv : t.Viewed entry u t') : t'.activeUtxos = t.activeUtxos := by
  cases hv <;> rfl

theorem Viewed.get_of_ne {t t' : NodeState} {entry : ChainIndexEntry} {u : UtxoSet}
    (hv : t.Viewed entry u t') (h : BlockHash) (hne : h ≠ entry.blockHash) :
    t'.utxoSnapshots.get h = t.utxoSnapshots.get h := by
  cases hv with
  | cached _ hu => rfl
  | computed b v _ hn hb hp ha => rw [NodeState.withView, HashMap.get_insert, if_neg hne]

theorem Viewed.sound {t t' : NodeState} {entry : ChainIndexEntry} {u : UtxoSet} (ht : t.Sound)
    (hg : t.chain.get entry.blockHash = some entry) (hv : t.Viewed entry u t') : t'.Sound := by
  cases hv with
  | cached _ hu => exact ht
  | computed b v _ hn hb hp ha => exact ht.withView _ entry b v u hg hb hn hp ha

theorem Sound.view_of_unknown {s : NodeState} (hs : s.Sound) (h : BlockHash)
    (hg : s.chain.get h = none) : s.utxoSnapshots.get h = none := by
  cases hu : s.utxoSnapshots.get h with
  | none => rfl
  | some u =>
    obtain ⟨e, b, v, he, -⟩ := hs.views h u hu
    rw [hg] at he
    cases he

theorem Sound.block_of_unknown {s : NodeState} (hs : s.Sound) (h : BlockHash)
    (hg : s.chain.get h = none) : s.blocks.get h = none := by
  cases hb : s.blocks.get h with
  | none => rfl
  | some b =>
    obtain ⟨e, he⟩ := (hs.stored h).mp ⟨b, hb⟩
    rw [hg] at he
    cases he

theorem Sound.unknown_of_block {s : NodeState} (hs : s.Sound) (h : BlockHash)
    (hb : s.blocks.get h = none) : s.chain.get h = none := by
  cases hg : s.chain.get h with
  | none => rfl
  | some e =>
    obtain ⟨b, hb'⟩ := (hs.stored h).mpr ⟨e, hg⟩
    rw [hb] at hb'
    cases hb'

/-- For a block just added, the view is computed from the parent's and from that block. -/
theorem Sound.ensureSnapshot_withBlock {s : NodeState} (hs : s.Sound) (block : Block)
    (entry : ChainIndexEntry) (hg : s.chain.get entry.blockHash = none) :
    (s.withBlock entry block).ensureSnapshot entry.blockHash entry.parent entry.height = (do
      let v ← s.parentView entry.parent
      let u ← (applyBlock v block entry.height).mapErr NodeStateError.consensus
      return s.utxoSnapshots.insert entry.blockHash u) := by
  have hno : ¬ (s.withBlock entry block).utxoSnapshots.containsKey entry.blockHash = true := by
    have hnone := hs.view_of_unknown entry.blockHash hg
    change ¬ s.utxoSnapshots.containsKey entry.blockHash = true
    rw [(HashMap.containsKey_eq_false _ _).mpr hnone]
    exact Bool.false_ne_true
  have hb : (s.withBlock entry block).blocks.get entry.blockHash = some block :=
    (s.blocks.get_insert _ _ _).trans (if_pos rfl)
  have hp : (s.withBlock entry block).parentView entry.parent = s.parentView entry.parent := by
    cases entry.parent <;> rfl
  rw [ensureSnapshot, if_neg hno, hp, hb]
  rfl

theorem Sound.acceptBlock_of_links {s : NodeState} (hs : s.Sound) (block : Block)
    (entry : ChainIndexEntry) (hv : validateBlock block = .ok ())
    (hg : s.chain.get block.header.blockHash = none) (hl : s.chain.Links block entry) :
    s.acceptBlock block = (s.withBlock entry block).settle entry := by
  have hnone : s.blocks.get entry.blockHash = none :=
    hs.block_of_unknown _ (hl.blockHash ▸ hg)
  unfold NodeState.acceptBlock
  rw [s.chain.insertBlock_of_links hs.tipIndexed block entry hv hg hl]
  simp only [s.blocks.orInsert_of_get_none entry.blockHash block hnone]
  rfl

/-- Indexing and storing, as the first half of `accept_block` does it. -/
theorem Sound.acceptBlock_indexed {s : NodeState} (hs : s.Sound) (block : Block) :
    (∃ e, s.acceptBlock block = (s, Res.mapErr NodeStateError.chain (.error e))) ∨
      ∃ entry t, s.Indexed block entry t ∧ s.acceptBlock block = t.settle entry := by
  have hins := s.chain.insertBlock_inserted hs.tipIndexed block
  have hlinks := hs.acceptBlock_of_links block
  unfold NodeState.acceptBlock at hlinks ⊢
  generalize s.chain.insertBlock block = result at hins hlinks
  cases hins with
  | rejected e => exact .inl ⟨e, rfl⟩
  | known entry hv hg =>
    obtain ⟨b, hb⟩ := (hs.stored _).mpr ⟨entry, hg⟩
    have hsame := s.blocks.orInsert_of_get entry.blockHash block b (hs.key _ _ hg ▸ hb)
    exact .inr ⟨entry, s, .known entry hv hg, by simp only [hsame]⟩
  | added entry hv hg hl => exact .inr ⟨entry, _, .added entry hv hg hl, hlinks entry hv hg hl⟩

/-- The view of an indexed block is found, computed, or out of reach. -/
theorem Sound.settle_viewed {t : NodeState} (entry : ChainIndexEntry) :
    (∃ e, t.ensureSnapshot entry.blockHash entry.parent entry.height = .error e ∧
        t.utxoSnapshots.get entry.blockHash = none ∧ t.settle entry = (t, .error e)) ∨
      ∃ u t', t.Viewed entry u t' ∧ t.settle entry = t'.adoptTip entry.blockHash := by
  unfold settle
  cases hu : t.utxoSnapshots.get entry.blockHash with
  | some u =>
    have hok : t.ensureSnapshot entry.blockHash entry.parent entry.height =
        .ok t.utxoSnapshots := by
      rw [ensureSnapshot, if_pos ((HashMap.containsKey_eq_true _ _).mpr ⟨u, hu⟩)]
    rw [hok]
    exact .inr ⟨u, t, .cached u hu, rfl⟩
  | none =>
    have hno : ¬ t.utxoSnapshots.containsKey entry.blockHash = true := by
      rw [(HashMap.containsKey_eq_false _ _).mpr hu]
      exact Bool.false_ne_true
    cases hens : t.ensureSnapshot entry.blockHash entry.parent entry.height with
    | error e => exact .inl ⟨e, rfl, rfl, rfl⟩
    | ok snapshots =>
      rw [ensureSnapshot, if_neg hno] at hens
      obtain ⟨v, hp, hens⟩ := (Res.bind_eq_ok _ _ _).mp hens
      obtain ⟨b, hb, hens⟩ := (Res.bind_eq_ok _ _ _).mp hens
      obtain ⟨u, ha, hens⟩ := (Res.bind_eq_ok _ _ _).mp hens
      rw [Res.okOr_eq_ok] at hb
      rw [Res.mapErr_eq_ok] at ha
      cases hens
      exact .inr ⟨u, t.withView entry.blockHash u, .computed b v u hu hb hp ha, rfl⟩

theorem Sound.acceptBlock_accepts {s : NodeState} (hs : s.Sound) (block : Block) :
    s.Accepts block (s.acceptBlock block) := by
  rcases hs.acceptBlock_indexed block with ⟨e, he⟩ | ⟨entry, t, hi, heq⟩
  · exact he ▸ .rejected e
  rw [heq]
  rcases settle_viewed entry with ⟨e, he, hn, hset⟩ | ⟨u, t', hv, hset⟩
  · exact hset ▸ .unapplied entry t e hi hn he
  rw [hset]
  have hsound := hv.sound (hi.sound hs) (hi.get hs)
  unfold adoptTip
  by_cases ht : t'.chain.bestTip = some entry.blockHash
  · obtain ⟨pool, hp, -⟩ := hsound.pool.pruneInvalid (ε := NodeStateError) u
    rw [if_pos ht, hv.get]
    simp only [Res.okOr, hp]
    exact .tip entry t t' u pool hi hv ht hp
  · rw [if_neg ht]
    exact .side entry t t' u hi hv ht

theorem Sound.acceptBlock {s : NodeState} (hs : s.Sound) (block : Block) :
    (s.acceptBlock block).1.Sound := by
  have hacc := hs.acceptBlock_accepts block
  generalize s.acceptBlock block = result at hacc
  cases hacc with
  | rejected e => exact hs
  | unapplied entry t e hi hn he => exact hi.sound hs
  | side entry t t' u hi hv ht => exact hv.sound (hi.sound hs) (hi.get hs)
  | tip entry t t' u pool hi hv ht hp =>
    have hsound := hv.sound (hi.sound hs) (hi.get hs)
    obtain ⟨pool', hp', hc, -⟩ := hsound.pool.pruneInvalid (ε := NodeStateError) u
    obtain rfl : pool = pool' := Except.ok.inj (hp.symm.trans hp')
    exact hsound.withActive entry.blockHash u pool hv.get hc

theorem Sound.submitTransaction {s : NodeState} (hs : s.Sound) (tx : Transaction) :
    (s.submitTransaction tx).1.Sound := by
  unfold NodeState.submitTransaction
  cases h : s.mempool.submit s.activeUtxos tx with
  | ok r =>
    obtain ⟨pool, txid⟩ := r
    exact hs.withPool pool (hs.pool.submit tx pool txid h)
  | error e => cases e <;> exact hs

theorem Sound.submitPayment {s : NodeState} (hs : s.Sound) (keys : List SigningKey)
    (change recipient : VerifyingKey) (amount : UInt64) (uniqueness : UInt32) :
    (s.submitPayment keys change recipient amount uniqueness).1.Sound := by
  unfold NodeState.submitPayment
  cases buildPaymentTransaction s.activeUtxos keys change recipient amount uniqueness with
  | ok tx => exact hs.submitTransaction tx
  | error e => exact hs

section Runs

variable [Profile]

/-- A mined block goes through `accept_block`; what else changes is the pool, which loses the
transactions included. -/
theorem mineBlock_cases {s s' : NodeState} {subsidy : UInt64} {key : VerifyingKey}
    {uniqueness bits : UInt32} {maxTransactions : Nat} {r : Res NodeStateError BlockHash}
    (h : s.mineBlock subsidy key uniqueness bits maxTransactions = some (s', r)) :
    s' = s ∨ ∃ block, s' = (s.acceptBlock block).1 ∨
      ∃ ids, s' = { (s.acceptBlock block).1 with
        mempool := (s.acceptBlock block).1.mempool.removeMany ids } := by
  unfold NodeState.mineBlock at h
  cases hsel : s.selectPending subsidy maxTransactions with
  | error e =>
    rw [hsel] at h
    cases h
    exact .inl rfl
  | ok selection =>
    obtain ⟨pending, ids, reward⟩ := selection
    simp only [hsel] at h
    split at h
    · cases h
    · cases h
      exact .inl rfl
    · rename_i block hb
      refine .inr ⟨block, ?_⟩
      generalize s.acceptBlock block = result at h
      obtain ⟨t, e | u⟩ := result
      · cases h
        exact .inl rfl
      · cases h
        exact .inr ⟨ids, rfl⟩

theorem Sound.mineBlock {s s' : NodeState} (hs : s.Sound) (subsidy : UInt64)
    (key : VerifyingKey) (uniqueness bits : UInt32) (maxTransactions : Nat)
    (r : Res NodeStateError BlockHash)
    (h : s.mineBlock subsidy key uniqueness bits maxTransactions = some (s', r)) : s'.Sound := by
  rcases mineBlock_cases h with rfl | ⟨block, rfl | ⟨ids, rfl⟩⟩
  · exact hs
  · exact hs.acceptBlock block
  · have hacc := hs.acceptBlock block
    exact hacc.withPool _ (hacc.pool.removeMany ids)

/-- One call that returns, whether `Ok` or `Err`. -/
inductive Step (s : NodeState) : NodeState → Prop where
  | submitTransaction (tx : Transaction) (h : Res.Returned (s.submitTransaction tx).2) :
      Step s (s.submitTransaction tx).1
  | submitPayment (keys : List SigningKey) (change recipient : VerifyingKey) (amount : UInt64)
      (uniqueness : UInt32)
      (h : Res.Returned (s.submitPayment keys change recipient amount uniqueness).2) :
      Step s (s.submitPayment keys change recipient amount uniqueness).1
  | acceptBlock (block : Block) (h : Res.Returned (s.acceptBlock block).2) :
      Step s (s.acceptBlock block).1
  | mineBlock (subsidy : UInt64) (key : VerifyingKey) (uniqueness bits : UInt32)
      (maxTransactions : Nat) (s' : NodeState) (r : Res NodeStateError BlockHash)
      (hm : s.mineBlock subsidy key uniqueness bits maxTransactions = some (s', r))
      (h : Res.Returned r) : Step s s'

/-- The states runs of calls lead to from `NodeState::new()`. -/
def Reachable (s : NodeState) : Prop := Relation.ReflTransGen Step new s

theorem Step.sound {s s' : NodeState} (hs : s.Sound) (h : s.Step s') : s'.Sound := by
  cases h with
  | submitTransaction tx h => exact hs.submitTransaction tx
  | submitPayment keys change recipient amount uniqueness h =>
    exact hs.submitPayment keys change recipient amount uniqueness
  | acceptBlock block h => exact hs.acceptBlock block
  | mineBlock subsidy key uniqueness bits maxTransactions _ r hm h =>
    exact hs.mineBlock subsidy key uniqueness bits maxTransactions r hm

theorem Reachable.sound {s : NodeState} (h : s.Reachable) : s.Sound := by
  induction h with
  | refl => exact new_sound
  | tail _ hstep ih => exact hstep.sound ih

end Runs

/-- One call of a run in which every `accept_block` succeeds. -/
inductive OkStep (s : NodeState) : NodeState → Prop where
  | submitTransaction (tx : Transaction) (h : Res.Returned (s.submitTransaction tx).2) :
      OkStep s (s.submitTransaction tx).1
  | acceptBlock (block : Block) (h : (s.acceptBlock block).2 = .ok ()) :
      OkStep s (s.acceptBlock block).1

/-- The states such runs lead to. -/
def OkReachable (s : NodeState) : Prop := Relation.ReflTransGen OkStep new s

theorem OkReachable.reachable [Profile] {s : NodeState} (h : s.OkReachable) : s.Reachable := by
  induction h with
  | refl => exact .refl
  | tail _ hstep ih =>
    cases hstep with
    | submitTransaction tx hr => exact ih.tail (.submitTransaction tx hr)
    | acceptBlock block hok => exact ih.tail (.acceptBlock block (Res.returned_of_ok () hok))

end Calls

section SampleRun

def sampleKey : Nat := 0xea4a6c63e29c520abef5507b132ec5f9954776aebebe7b92421eea691446d22c

def sampleLock : Bytes := (beBytes 32 sampleKey).toList

def paymentSignature : Nat :=
  0x5444fbb033c8b9ca18ad56e814aa0336d7125262c741d8f51800d1534c686633 * 2^256 +
    0x62f0bd713d9eaf303b75dbba86a1eafa5cb22011e76b7888e916de106125140d

def pendingSignature : Nat :=
  0x3b61b62374763253f06185c8ff4586adbf220e97336e2fddaca743a3122fc5bc * 2^256 +
    0xd3aa2d3b25fe014b55e730e89aab866625aee43661cb9f0eaaaee99d2dfd400c

def sampleSignatures : List Signed := [
  ⟨sampleKey, 0x7c4b67ba2c4d5842474373b14f163b50599d488e69de6296a35e23dc1d8d5a66,
    paymentSignature⟩,
  ⟨sampleKey, 0x5cf08de6ffa5b57e68c686c4cd922664667ef3c89b311147581a65af01be8c9c,
    pendingSignature⟩]

/-- Spends the first output of an earlier transaction. -/
def sampleSpend (txid signature : Nat) (outputs : List TxOut) : Transaction :=
  ⟨1, [⟨⟨⟨beBytes 32 txid⟩, 0⟩, (beBytes 64 signature).toList⟩], outputs, 0⟩

def sampleCoinbase : Transaction := ⟨1, [], [⟨50, sampleLock⟩], 0⟩

def samplePayment : Transaction :=
  sampleSpend 0xac3bfda99da3beb4120b0e4073c483fb09259ed8c73600c01e2c4160fe3f67b5
    paymentSignature [⟨30, sampleLock⟩, ⟨15, sampleLock⟩]

def sampleReward : Transaction := ⟨1, [], [⟨55, sampleLock⟩], 1⟩

def nextReward : Transaction := ⟨1, [], [⟨55, sampleLock⟩], 2⟩

/-- The reward a miner builds in its first candidate. -/
def candidateReward : Transaction := ⟨1, [], [⟨55, sampleLock⟩], 0⟩

def samplePending : Transaction :=
  sampleSpend 0x639f69e4b1a9bbee84fc32c158ee4886bf2787c3d7f87231b9f23f16ac09fc70
    pendingSignature [⟨50, sampleLock⟩]

def samplePendingId : Txid :=
  ⟨beBytes 32 0xd10708b04cbeb96267253b0e5f5592b685b388b5b1a47d9e60a9719e81478f60⟩

def sampleGenesis : Block where
  header :=
    { version := 1
      prevBlockhash := BlockHash.default
      merkleRoot := beBytes 32 0xac3bfda99da3beb4120b0e4073c483fb09259ed8c73600c01e2c4160fe3f67b5
      time := 0
      bits := 0x207fffff
      nonce := 1 }
  transactions := [sampleCoinbase]

def sampleBlock : Block where
  header :=
    { version := 1
      prevBlockhash := ⟨beBytes 32 0x7b19c99f8caab2757d8cb267141745ad2a6556bfeabce6052088a664ea92f5d1⟩
      merkleRoot := beBytes 32 0x551ae2205b6663d20172402d8c205ea5b0c32f97fa8acc6fd09f8b4f6ece5304
      time := 0
      bits := 0x207fffff
      nonce := 0 }
  transactions := [sampleReward, samplePayment]

/-- The block after the sample block, with its pending transaction. -/
def nextBlock : Block where
  header :=
    { version := 1
      prevBlockhash := ⟨beBytes 32 0x4a16a8a703279c7ee7d664b2a9ff5599cf02fe9064ee2d72587e4463370942a4⟩
      merkleRoot := beBytes 32 0x45a7c1772e3be25ec7725d99b857450023bbd4e60d3d20efda67e936b3f77caf
      time := 0
      bits := 0x207fffff
      nonce := 2 }
  transactions := [nextReward, samplePending]

def sampleDigests : List Digest := [
  ⟨sampleCoinbase.encoding true,
    0xf812c41b8128ee6f7f2164a09d9531bb21cdfa6f1b78271b1eac11a6ac3bb4d6,
    0xac3bfda99da3beb4120b0e4073c483fb09259ed8c73600c01e2c4160fe3f67b5⟩,
  ⟨sampleGenesis.header.encode,
    0x7176e54d547ae2c2232646dd651e8386a965041139b20315eeaab74b1b666d33,
    0x7b19c99f8caab2757d8cb267141745ad2a6556bfeabce6052088a664ea92f5d1⟩,
  ⟨samplePayment.encoding false,
    0x9c413fda821ebd856522294b94ab9a4257cf4aca5be6a65c4de733f6015fd994,
    0x7c4b67ba2c4d5842474373b14f163b50599d488e69de6296a35e23dc1d8d5a66⟩,
  ⟨sampleReward.encoding true,
    0x5d5ee08269b4c5e0734858f68038745a46a3d12b14d342eb9fef13f3cfd54f83,
    0x639f69e4b1a9bbee84fc32c158ee4886bf2787c3d7f87231b9f23f16ac09fc70⟩,
  ⟨samplePayment.encoding true,
    0xfab59298e28034323e988bda60c16bd23488615356d7c9615394440cdabc977c,
    0xe61b9b7a4bfa2fecceaaf80383fe94be4e0d48ca1f79515ff1e5591be079b09d⟩,
  ⟨(beBytes 32 0x639f69e4b1a9bbee84fc32c158ee4886bf2787c3d7f87231b9f23f16ac09fc70).toList ++
      (beBytes 32 0xe61b9b7a4bfa2fecceaaf80383fe94be4e0d48ca1f79515ff1e5591be079b09d).toList,
    0xfa7b81d1ea8577e2ff11c88e4053c90239506925dd42827eb44bb743472dc2b3,
    0x551ae2205b6663d20172402d8c205ea5b0c32f97fa8acc6fd09f8b4f6ece5304⟩,
  ⟨sampleBlock.header.encode,
    0xf2f6a69950ad27ea26787ee1b1f9dd2dec7fc1a14ebaf80b541300884e2ba1da,
    0x4a16a8a703279c7ee7d664b2a9ff5599cf02fe9064ee2d72587e4463370942a4⟩,
  ⟨samplePending.encoding false,
    0x59183144e6cd0c73e9d62f574a50021440a61460a72c53d2cfafc88bb4b373cb,
    0x5cf08de6ffa5b57e68c686c4cd922664667ef3c89b311147581a65af01be8c9c⟩,
  ⟨samplePending.encoding true,
    0x87ba030e951bd650239bd0d840e4f0fb9ae72ddf2ffb093773bec0705abf4b72,
    0xd10708b04cbeb96267253b0e5f5592b685b388b5b1a47d9e60a9719e81478f60⟩,
  ⟨(beBytes 32 0x639f69e4b1a9bbee84fc32c158ee4886bf2787c3d7f87231b9f23f16ac09fc70).toList ++
      (beBytes 32 0xd10708b04cbeb96267253b0e5f5592b685b388b5b1a47d9e60a9719e81478f60).toList,
    0xf36b719d6ed637baabbed56e1a3a869e0868afe751feec530faef7801927d5d4,
    0xfe8caf7c63e07995bb7df73fbb6ef0ef3b61846cf4f1613adf4a7a6c26ce455a⟩,
  ⟨candidateReward.encoding true,
    0x7fe84676e83c010af77bac822fe0f4425150076faba96fc72459c20ae4e822ec,
    0xdfa8ac95bfd12e97bc02bb2839de4eaebbb9ea265586b39d0433add89e7020e8⟩,
  ⟨(beBytes 32 0xdfa8ac95bfd12e97bc02bb2839de4eaebbb9ea265586b39d0433add89e7020e8).toList ++
      (beBytes 32 0xe61b9b7a4bfa2fecceaaf80383fe94be4e0d48ca1f79515ff1e5591be079b09d).toList,
    0x4727b9e70633b91e4e0f7e8af45a68e13939c6b48319116b7fd78efc3035b371,
    0x845b201c103ee80a6ebf25f9ac4170c907d33b7bdb696d6bf7a60d3bc4ac641d⟩,
  ⟨nextReward.encoding true,
    0x6a664c463a2972ec82d87e0b2cfee8599d131ca3fea74b255a64054b93e9e16d,
    0xb2a09ab220acfec42e75da00361bee0b7829e30ca0934fe42db22c485a85d2fb⟩,
  ⟨(beBytes 32 0xb2a09ab220acfec42e75da00361bee0b7829e30ca0934fe42db22c485a85d2fb).toList ++
      (beBytes 32 0xd10708b04cbeb96267253b0e5f5592b685b388b5b1a47d9e60a9719e81478f60).toList,
    0xe2426f4413812e62e035f8c38409c80453ccde0f8cb685228b75981d8455857a,
    0x45a7c1772e3be25ec7725d99b857450023bbd4e60d3d20efda67e936b3f77caf⟩,
  ⟨nextBlock.header.encode,
    0x0250c514161d31cb6b25cc9bdfe07c6280010d6091de58f5782f31760200a5e7,
    0x442aa66ff6b714958968a5ab05b5a106410d2d2b9086fc7591f2493559887db8⟩]

@[reducible] def sampleCrypto : Crypto := recordedCrypto sampleDigests sampleSignatures

@[reducible] def sampleProfile : Profile := ⟨true⟩

attribute [local instance] sampleCrypto sampleProfile

def sampleChain : NodeState := (new.acceptBlock sampleGenesis).1

theorem sampleChain_okReachable : sampleChain.OkReachable :=
  .single (.acceptBlock sampleGenesis (by decide +kernel))

/-- Genesis, a block with one payment, and one pending transaction. -/
def sampleState : NodeState :=
  ((sampleChain.acceptBlock sampleBlock).1.submitTransaction samplePending).1

theorem sampleState_okReachable : sampleState.OkReachable := by
  have hblock : OkStep sampleChain (sampleChain.acceptBlock sampleBlock).1 :=
    .acceptBlock sampleBlock (by decide +kernel)
  have hpending : OkStep (sampleChain.acceptBlock sampleBlock).1 sampleState :=
    .submitTransaction samplePending (Res.returned_of_ok samplePendingId (by decide +kernel))
  exact (sampleChain_okReachable.tail hblock).tail hpending

/-- Genesis, and a pending payment that the next block includes. -/
def paymentPending : NodeState := (sampleChain.submitTransaction samplePayment).1

theorem paymentPending_okReachable : paymentPending.OkReachable := by
  have hpending : OkStep sampleChain paymentPending :=
    .submitTransaction samplePayment (Res.returned_of_ok samplePayment.id (by decide +kernel))
  exact sampleChain_okReachable.tail hpending

end SampleRun

end NodeState

end Wobble
