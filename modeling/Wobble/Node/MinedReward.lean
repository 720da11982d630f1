import Wobble.Node.Accepted
import Wobble.Node.Candidate

namespace Wobble

open Rust

namespace Mempool

variable [Crypto]

theorem collectFrom_length_le {ε : Type} (entries selected : List (Txid × Transaction))
    (candidate : UtxoSet) (room : Nat)
    (h : (collectFrom entries candidate room : Res ε _) = .ok selected) :
    selected.length ≤ room := by
  induction entries generalizing selected candidate room with
  | nil =>
    cases h
    exact Nat.zero_le room
  | cons entry rest ih =>
    rw [collectFrom] at h
    by_cases hr : room = 0
    · rw [if_pos hr] at h
      cases h
      exact Nat.zero_le room
    rw [if_neg hr] at h
    rcases happ : candidate.applyTransaction entry.2 0 with (e | m) | candidate'
    · rw [happ] at h
      exact ih selected candidate room h
    · rw [happ] at h
      cases h
    · rw [happ] at h
      obtain ⟨more, hmore, h⟩ := (Res.bind_eq_ok _ _ _).mp h
      cases h
      have hlen := ih more candidate' (room - 1) hmore
      rw [List.length_cons]
      omega

/-- What `collect_valid` returns are entries of the pool, as many as asked for at most. -/
theorem collectValid_entries {ε : Type} {pool : Mempool} {utxos : UtxoSet} {maxCount : Nat}
    {pending : List Transaction} {ids : List Txid}
    (h : (pool.collectValid utxos maxCount : Res ε _) = .ok (pending, ids)) :
    ∃ selected : List (Txid × Transaction), selected.Sublist pool.iter ∧
      selected.length ≤ maxCount ∧ pending = selected.map Prod.snd ∧
      ids = selected.map Prod.fst := by
  obtain ⟨selected, hcol, h⟩ := (Res.bind_eq_ok _ _ _).mp h
  cases h
  exact ⟨selected, collectFrom_sublist _ _ _ _ hcol, collectFrom_length_le _ _ _ _ hcol, rfl, rfl⟩

end Mempool

/-- The block mined is the candidate under some nonce. -/
theorem Mining.mineBlock_ok [Crypto] {prev : BlockHash} {reward : UInt64} {key : VerifyingKey}
    {uniqueness bits : UInt32} {txs : List Transaction} {block : Block}
    (hf : ∀ tx ∈ txs, tx.Fits true)
    (h : Mining.mineBlock prev reward key uniqueness bits txs =
      some (.ok block : Res NodeStateError Block)) :
    ∃ nonce, block = (candidateOf prev reward key uniqueness bits txs).advanceNonce nonce := by
  rw [Mining.mineBlock, buildCandidate_eq _ _ _ _ _ _ hf] at h
  exact (solveWithin_ok _ _ _ h).2

namespace NodeState

variable [Crypto]

/-- The headers of the stored blocks. -/
def headers (s : NodeState) : Set BlockHeader :=
  { x | ∃ h b, s.blocks.get h = some b ∧ b.header = x }

section OnTip

variable {s : NodeState}

/-- Nothing that is indexed has the best tip for its parent, since it would have more work. -/
theorem Sound.parent_ne_tip (hs : s.Sound) (tip h : BlockHash) (e : ChainIndexEntry)
    (ht : s.chain.bestTip = some tip) (he : s.chain.get h = some e) : e.parent ≠ some tip := by
  obtain ⟨log, hi⟩ := hs.index
  exact ((s.chain.mem_branchHeads tip).mp (hi.tip_isHead tip ht)).2 h e he

/-- So a block on the best tip is new, if its header is the only one with its hash and no header
has the hash that marks genesis. -/
theorem Sound.unknown_on_tip (hs : s.Sound) (block : Block)
    (hprev : block.header.prevBlockhash = s.chain.bestTip.getD BlockHash.default)
    (hsha : ∀ header ∈ s.headers, header.blockHash = block.header.blockHash →
      header = block.header)
    (hzero : ∀ header ∈ s.headers, header.blockHash ≠ BlockHash.default) :
    s.chain.get block.header.blockHash = none := by
  by_contra hknown
  obtain ⟨e, he⟩ := Option.ne_none_iff_exists'.mp hknown
  obtain ⟨b, hb, hhash, -, hof⟩ := hs.block_of_entry _ e he
  have hsame := hsha b.header ⟨_, b, hb, rfl⟩ hhash
  obtain ⟨log, hi⟩ := hs.index
  obtain ⟨tip, ht⟩ := hi.tip_of_get he
  obtain ⟨tipEntry, hget⟩ := hs.tipIndexed tip ht
  obtain ⟨tipBlock, htipBlock, htipHash, -⟩ := hs.block_of_entry tip tipEntry hget
  rw [ht, Option.getD_some] at hprev
  obtain ⟨w, -, -, hpar⟩ := hof.work
  cases hp : e.parent with
  | none =>
    rw [hp] at hpar
    refine hzero tipBlock.header ⟨tip, tipBlock, htipBlock, rfl⟩ ?_
    rw [htipHash, ← hprev, ← hsame]
    exact hpar.1
  | some p =>
    rw [hp] at hpar
    refine hs.parent_ne_tip tip _ e ht he ?_
    rw [hp, hpar.1, hsame, hprev]

theorem Indexed.added_of_unknown {t : NodeState} {block : Block} {entry : ChainIndexEntry}
    (hi : s.Indexed block entry t) (hg : s.chain.get block.header.blockHash = none) :
    s.chain.Links block entry ∧ t = s.withBlock entry block := by
  cases hi with
  | known hv hg' =>
    rw [hg] at hg'
    cases hg'
  | added hv hg' hl => exact ⟨hl, rfl⟩

/-- A new block is linked into the index and stored as it came. -/
theorem Sound.acceptBlock_added (hs : s.Sound) (block : Block)
    (hok : (s.acceptBlock block).2 = .ok ())
    (hg : s.chain.get block.header.blockHash = none) :
    ∃ entry, s.chain.Links block entry ∧
      (s.acceptBlock block).1.chain = s.chain.extend entry ∧
      (s.acceptBlock block).1.blocks = s.blocks.insert entry.blockHash block := by
  have hacc := hs.acceptBlock_accepts block
  generalize s.acceptBlock block = result at hok hacc
  cases hacc with
  | rejected e => cases e <;> cases hok
  | unapplied entry t e hi hn he => cases hok
  | side entry t t' u hi hv ht =>
    obtain ⟨hl, rfl⟩ := hi.added_of_unknown hg
    exact ⟨entry, hl, hv.chain, hv.frame.1⟩
  | tip entry t t' u pool hi hv ht hp =>
    obtain ⟨hl, rfl⟩ := hi.added_of_unknown hg
    exact ⟨entry, hl, hv.chain, hv.frame.1⟩

/-- A new block on the best tip becomes the best tip. -/
theorem Sound.acceptBlock_on_tip (hs : s.Sound) (block : Block)
    (hok : (s.acceptBlock block).2 = .ok ())
    (hprev : block.header.prevBlockhash = s.chain.bestTip.getD BlockHash.default)
    (hg : s.chain.get block.header.blockHash = none) :
    (s.acceptBlock block).1.chain.bestTip = some block.header.blockHash := by
  obtain ⟨entry, hl, hchain, -⟩ := hs.acceptBlock_added block hok hg
  have hs' := hs.acceptBlock block
  have hget : (s.acceptBlock block).1.chain.get entry.blockHash = some entry := by
    rw [hchain]
    exact (s.chain.get_extend entry _).trans (if_pos rfl)
  by_contra hne
  obtain ⟨entry', b, u, hacc, hhash⟩ := hs.accepted block hok
  have hsame := (hacc.aside (hhash ▸ hne)).1
  obtain ⟨log, hi⟩ := hs'.index
  obtain ⟨tip, ht⟩ := hi.tip_of_get hget
  rw [hsame] at ht
  cases hl with
  | genesis w he hp hw =>
    obtain ⟨e, hgetTip⟩ := hs.tipIndexed tip ht
    rw [he] at hgetTip
    cases hgetTip
  | child parent w hp hw hle =>
    -- the tip it did not replace would have it for a child
    refine hs'.parent_ne_tip tip _ _ (hsame.trans ht) hget ?_
    rw [hprev, ht, Option.getD_some]

end OnTip

section Reward

variable [Profile]

/-- `mine_block` finds this block before it accepts it. -/
def Mines (s : NodeState) (subsidy : UInt64) (key : VerifyingKey) (uniqueness bits : UInt32)
    (maxTransactions : Nat) (block : Block) : Prop :=
  ∃ pending ids reward,
    s.selectPending subsidy maxTransactions = .ok (pending, ids, reward) ∧
    Mining.mineBlock (s.chain.bestTip.getD BlockHash.default) reward key uniqueness bits pending =
      some (.ok block : Res NodeStateError Block)

theorem mineBlock_eq_ok {s s' : NodeState} {subsidy : UInt64} {key : VerifyingKey}
    {uniqueness bits : UInt32} {maxTransactions : Nat} {h : BlockHash}
    (hm : s.mineBlock subsidy key uniqueness bits maxTransactions = some (s', .ok h)) :
    ∃ pending ids reward block,
      s.selectPending subsidy maxTransactions = .ok (pending, ids, reward) ∧
      Mining.mineBlock (s.chain.bestTip.getD BlockHash.default) reward key uniqueness bits
        pending = some (.ok block : Res NodeStateError Block) ∧
      (s.acceptBlock block).2 = .ok () ∧ h = block.header.blockHash ∧
      s' = { (s.acceptBlock block).1 with
        mempool := (s.acceptBlock block).1.mempool.removeMany ids } := by
  unfold NodeState.mineBlock at hm
  rcases hsel : s.selectPending subsidy maxTransactions with e | ⟨pending, ids, reward⟩
  · rw [hsel] at hm
    cases hm
  simp only [hsel] at hm
  split at hm
  · cases hm
  · cases hm
  · rename_i block hblock
    rcases hacc : s.acceptBlock block with ⟨t, e | u⟩
    · rw [hacc] at hm
      cases hm
    · rw [hacc] at hm
      cases hm
      exact ⟨pending, ids, reward, block, rfl, hblock, by rw [hacc], rfl, by rw [hacc]⟩

/-- The transactions `mine_block` would put in its block. -/
def selected (s : NodeState) (maxTransactions : Nat) : List Transaction :=
  match (s.mempool.collectValid s.activeUtxos maxTransactions : Res NodeStateError _) with
  | .ok (pending, _) => pending
  | .error _ => []

/-- What `mine_block` should have done when it returns the hash of a block. -/
structure Pays (s s' : NodeState) (h : BlockHash) (subsidy : UInt64) (maxTransactions : Nat) :
    Prop where
  tip : s'.chain.bestTip = some h
  block : ∃ block coinbase output included, s'.blocks.get h = some block ∧
    block.transactions = coinbase :: included ∧ coinbase.outputs = [output] ∧
    output.value.toNat = subsidy.toNat + (included.map s.activeUtxos.feeOf).sum ∧
    included.length ≤ maxTransactions ∧
    ∀ tx ∈ included, s.mempool.get tx.id = some tx ∧ s.activeUtxos.Valid tx ∧
      s'.mempool.get tx.id = none

/-- The block of a `mine_block` that returned `Ok`, made of these entries of the pool. -/
structure Mined (s s' : NodeState) (block : Block) (entries : List (Txid × Transaction))
    (coinbase : Transaction) : Prop where
  pending : entries.Sublist s.mempool.iter
  transactions : block.transactions = coinbase :: entries.map Prod.snd
  prev : block.header.prevBlockhash = s.chain.bestTip.getD BlockHash.default
  accepted : (s.acceptBlock block).2 = .ok ()
  state : s' = { (s.acceptBlock block).1 with
    mempool := (s.acceptBlock block).1.mempool.removeMany (entries.map Prod.fst) }

theorem Sound.mined {s s' : NodeState} (hs : s.Sound) {subsidy : UInt64} {key : VerifyingKey}
    {uniqueness bits : UInt32} {maxTransactions : Nat} {h : BlockHash}
    (hm : s.mineBlock subsidy key uniqueness bits maxTransactions = some (s', .ok h)) :
    ∃ block entries fees reward,
      Mined s s' block entries (coinbaseTransaction reward key uniqueness) ∧
      s.Mines subsidy key uniqueness bits maxTransactions block ∧ h = block.header.blockHash ∧
      s.selected maxTransactions = entries.map Prod.snd ∧ entries.length ≤ maxTransactions ∧
      fees.toNat = ((entries.map Prod.snd).map s.activeUtxos.feeOf).sum ∧
      (addU64 subsidy fees : Res NodeStateError UInt64) = .ok reward := by
  obtain ⟨pending, ids, reward, block, hsel, hmine, hok, rfl, rfl⟩ := mineBlock_eq_ok hm
  obtain ⟨hcol, fees, hfees, hreward⟩ := (s.selectPending_eq_ok _ _ _ _ _).mp hsel
  have hselected : s.selected maxTransactions = pending := by rw [selected, hcol]
  have hsum := ((sumFees_eq_ok _ _ _ _).mp hfees).2
  rw [UInt64.toNat_zero, Nat.zero_add] at hsum
  obtain ⟨entries, hsub, hlen, rfl, rfl⟩ := Mempool.collectValid_entries hcol
  have hfits : ∀ tx ∈ entries.map Prod.snd, tx.Fits true := by
    intro tx ht
    obtain ⟨entry, he, rfl⟩ := List.mem_map.mp ht
    have hget := (HashMap.mem_iter s.mempool entry.1 entry.2).mp (hsub.subset he)
    exact (hs.pool.fits _ _ hget).1
  obtain ⟨nonce, hblock⟩ := Mining.mineBlock_ok hfits hmine
  refine ⟨block, entries, fees, reward, ⟨hsub, ?_, ?_, hok, rfl⟩, ⟨_, _, reward, hsel, hmine⟩, rfl,
    hselected, hlen, hsum, hreward⟩
  · rw [hblock]
    rfl
  · rw [hblock]
    rfl

/-- `mine_block` pays what it says exactly when subsidy and fees together fit in `u64`. -/
theorem mineBlock_pays_iff (s : NodeState) (hr : s.Reachable) (subsidy : UInt64)
    (key : VerifyingKey) (uniqueness bits : UInt32) (maxTransactions : Nat)
    (hsha : Set.InjOn BlockHeader.blockHash (s.headers ∪
      { x | ∃ block, s.Mines subsidy key uniqueness bits maxTransactions block ∧
        block.header = x }))
    (hzero : ∀ header ∈ s.headers, header.blockHash ≠ BlockHash.default)
    (s' : NodeState) (h : BlockHash)
    (hm : s.mineBlock subsidy key uniqueness bits maxTransactions = some (s', .ok h)) :
    Pays s s' h subsidy maxTransactions ↔
      subsidy.toNat + ((s.selected maxTransactions).map s.activeUtxos.feeOf).sum < 2^64 := by
  have hs := hr.sound
  obtain ⟨block, entries, fees, reward, hmined, hmines, rfl, hselected, hlen, hsum, hreward⟩ :=
    hs.mined hm
  have hnew := hs.unknown_on_tip block hmined.prev (fun header hheader heq =>
    hsha (.inl hheader) (.inr ⟨block, hmines, rfl⟩) heq) hzero
  obtain ⟨entry, hl, -, hblocks⟩ := hs.acceptBlock_added block hmined.accepted hnew
  have hstored : s'.blocks.get block.header.blockHash = some block := by
    rw [hmined.state, hblocks, HashMap.get_insert, if_pos hl.blockHash.symm]
  rw [hselected, ← hsum]
  constructor
  · intro hp
    obtain ⟨block', coinbase, output, included, hstored', htxs, hout, hvalue, -⟩ := hp.block
    obtain rfl := Option.some.inj (hstored.symm.trans hstored')
    obtain ⟨rfl, rfl⟩ := List.cons.inj (hmined.transactions.symm.trans htxs)
    obtain rfl := List.singleton_inj.mp hout
    rw [hsum, ← hvalue]
    exact reward.toNat_lt
  · intro hlt
    rw [addU64_of_lt _ _ hlt] at hreward
    obtain rfl := Except.ok.inj hreward
    refine ⟨?_, block, _, _, _, hstored, hmined.transactions, rfl, ?_, ?_, ?_⟩
    · rw [hmined.state]
      exact hs.acceptBlock_on_tip block hmined.accepted hmined.prev hnew
    · rw [← hsum]
      exact toNat_add_of_lt _ _ hlt
    · rw [List.length_map]
      exact hlen
    · intro tx ht
      obtain ⟨entry, he, rfl⟩ := List.mem_map.mp ht
      have hget := (HashMap.mem_iter s.mempool entry.1 entry.2).mp (hmined.pending.subset he)
      have hid := (hs.pool.fits _ _ hget).2
      refine ⟨hid ▸ hget, (s.activeUtxos.validateTransaction_eq_ok _).mp
        (hs.pool.valid _ _ hget), ?_⟩
      rw [hmined.state, Mempool.removeMany, HashMap.get_removeAll, hid,
        if_pos (List.mem_map_of_mem he)]

end Reward

end NodeState

namespace NodeState

section SampleReward

/-- The block mined on the sample run for the standard subsidy. -/
def fairBlock : Block where
  header :=
    { version := 1
      prevBlockhash := ⟨beBytes 32 0x4a16a8a703279c7ee7d664b2a9ff5599cf02fe9064ee2d72587e4463370942a4⟩
      merkleRoot := beBytes 32 0x3ae75b7c425dda631ae8dd101bbb348b132b22bcf3474a764c6d5fc1a084f697
      time := 1
      bits := 0x207fffff
      nonce := 0 }
  transactions := [⟨1, [], [⟨55, sampleLock⟩], 3⟩, samplePending]

/-- The block mined for a subsidy that wraps around with the fee of 5. -/
def wrappedBlock : Block where
  header :=
    { version := 1
      prevBlockhash := ⟨beBytes 32 0x4a16a8a703279c7ee7d664b2a9ff5599cf02fe9064ee2d72587e4463370942a4⟩
      merkleRoot := beBytes 32 0x7fdc66c297010c3d10449006cb9772a9d2fe7c7ad7890e5c6b3b0b3876557406
      time := 1
      bits := 0x207fffff
      nonce := 0 }
  transactions := [⟨1, [], [⟨0, sampleLock⟩], 2⟩, samplePending]

def rewardDigests : List Digest := [
  ⟨Transaction.encoding true ⟨1, [], [⟨55, sampleLock⟩], 3⟩,
    0x2389b818f7cfe06824ac5ea8ab41ecef0ebb22084a6e72a413eef8690c9bbd9c,
    0x575ef637162c2db7353347c39b6696af72ab0f2ed06831841328657cb898f883⟩,
  ⟨(beBytes 32 0x575ef637162c2db7353347c39b6696af72ab0f2ed06831841328657cb898f883).toList ++
      (beBytes 32 0xd10708b04cbeb96267253b0e5f5592b685b388b5b1a47d9e60a9719e81478f60).toList,
    0x371cccd1c3e011368220b7044c5c9e5b21b75faa6fb9e86b7532c50504a889d3,
    0x3ae75b7c425dda631ae8dd101bbb348b132b22bcf3474a764c6d5fc1a084f697⟩,
  ⟨fairBlock.header.encode,
    0x49a1eac7a05060547c24f2a8da9d17ea930781bf128e8740e225b795d15409b8,
    0x680bfdc9e7239f6b72a3e7ecb3840b2569209c7a94c9146047c5c19b4876f13c⟩,
  ⟨Transaction.encoding true ⟨1, [], [⟨0, sampleLock⟩], 2⟩,
    0x515649315fc4fdc27eaa0c27736e2b5d9433ab7890935780783aee97ca1b6854,
    0x4937d0663c9162abccac4ea8eb78cb373dc29210aa1e744d5d8d22818f86d86e⟩,
  ⟨(beBytes 32 0x4937d0663c9162abccac4ea8eb78cb373dc29210aa1e744d5d8d22818f86d86e).toList ++
      (beBytes 32 0xd10708b04cbeb96267253b0e5f5592b685b388b5b1a47d9e60a9719e81478f60).toList,
    0x7019d4b9c5f93bb54145c3fede8f1433211391566b9b54480dcd6d6713cfafa8,
    0x7fdc66c297010c3d10449006cb9772a9d2fe7c7ad7890e5c6b3b0b3876557406⟩,
  ⟨wrappedBlock.header.encode,
    0xe353dbe9b56acd6df7e4353503cb32d854079ff6826c2bca6a8fac4273ab9dc2,
    0x545cf871d812acaf9ac5b09015341058f304b45e9ae07b09805f1d6ba8f47573⟩]

@[reducible] def rewardCrypto : Crypto :=
  recordedCrypto (sampleDigests ++ rewardDigests) sampleSignatures

/-- A release build: additions wrap. -/
@[reducible] def releaseProfile : Profile := ⟨false⟩

attribute [local instance] rewardCrypto releaseProfile

/-- The sample run again, with the two blocks' hashes on record. -/
def rewardState : NodeState :=
  (((new.acceptBlock sampleGenesis).1.acceptBlock sampleBlock).1.submitTransaction samplePending).1

theorem rewardState_reachable : rewardState.Reachable := by
  have hgenesis : Step new (new.acceptBlock sampleGenesis).1 :=
    .acceptBlock sampleGenesis (Res.returned_of_ok () (by decide +kernel))
  have hblock : Step (new.acceptBlock sampleGenesis).1
      ((new.acceptBlock sampleGenesis).1.acceptBlock sampleBlock).1 :=
    .acceptBlock sampleBlock (Res.returned_of_ok () (by decide +kernel))
  have hpending : Step ((new.acceptBlock sampleGenesis).1.acceptBlock sampleBlock).1 rewardState :=
    .submitTransaction samplePending (Res.returned_of_ok samplePendingId (by decide +kernel))
  exact ((Relation.ReflTransGen.single hgenesis).tail hblock).tail hpending

theorem rewardState_selects : rewardState.selectPending 50 10 =
    .ok ([samplePending], [samplePendingId], 55) := by decide +kernel

theorem fairBlock_mined (block : Block)
    (h : rewardState.Mines 50 sampleKey 3 0x207fffff 10 block) : block = fairBlock := by
  obtain ⟨pending, ids, reward, hsel, hmine⟩ := h
  obtain ⟨rfl, -, rfl⟩ : pending = [samplePending] ∧ ids = [samplePendingId] ∧ reward = 55 := by
    simpa using hsel.symm.trans rewardState_selects
  have hfair : Mining.mineBlock (rewardState.chain.bestTip.getD BlockHash.default) 55 sampleKey 3
      0x207fffff [samplePending] = some (.ok fairBlock : Res NodeStateError Block) := by
    decide +kernel
  exact Except.ok.inj (Option.some.inj (hmine.symm.trans hfair))

/-- The headers of the run, with the one `mine_block` finds, have different hashes. -/
theorem rewardState_hashes :
    Set.InjOn BlockHeader.blockHash (rewardState.headers ∪
      { x | ∃ block, rewardState.Mines 50 sampleKey 3 0x207fffff 10 block ∧ block.header = x }) ∧
    ∀ header ∈ rewardState.headers, header.blockHash ≠ BlockHash.default := by
  have hstored : ∀ h b, rewardState.blocks.get h = some b →
      b.header ∈ [sampleGenesis.header, sampleBlock.header] ∧
        b.header.blockHash ≠ BlockHash.default :=
    (HashMap.forall_get_iff _).mpr (by decide +kernel)
  have hsub : ∀ x ∈ rewardState.headers ∪
      { x | ∃ block, rewardState.Mines 50 sampleKey 3 0x207fffff 10 block ∧ block.header = x },
      x ∈ [sampleGenesis.header, sampleBlock.header, fairBlock.header] := by
    intro x hx
    rcases hx with ⟨h, b, hb, rfl⟩ | ⟨block, hblock, rfl⟩
    · have hmem := (hstored h b hb).1
      simp only [List.mem_cons, List.not_mem_nil, or_false] at hmem ⊢
      exact hmem.imp id .inl
    · rw [fairBlock_mined block hblock]
      simp
  have hinj : ∀ x ∈ [sampleGenesis.header, sampleBlock.header, fairBlock.header],
      ∀ y ∈ [sampleGenesis.header, sampleBlock.header, fairBlock.header],
        x.blockHash = y.blockHash → x = y := by decide +kernel
  constructor
  · intro x hx y hy hxy
    exact hinj x (hsub x hx) y (hsub y hy) hxy
  · rintro x ⟨h, b, hb, rfl⟩
    exact (hstored h b hb).2

/-- With the standard subsidy the block pays 50 and the fee. -/
theorem fairBlock_pays :
    ∃ s', rewardState.mineBlock 50 sampleKey 3 0x207fffff 10 =
        some (s', .ok fairBlock.header.blockHash) ∧
      Pays rewardState s' fairBlock.header.blockHash 50 10 := by
  have hresult : (rewardState.mineBlock 50 sampleKey 3 0x207fffff 10).map Prod.snd =
      some (.ok fairBlock.header.blockHash) := by decide +kernel
  obtain ⟨⟨s', r⟩, hm, rfl⟩ := Option.map_eq_some_iff.mp hresult
  refine ⟨s', hm, (mineBlock_pays_iff rewardState rewardState_reachable 50 sampleKey 3 0x207fffff 10
    rewardState_hashes.1 rewardState_hashes.2 s' _ hm).mpr ?_⟩
  decide +kernel

/-- A subsidy five short of 2^64 and a fee of five: the block is accepted and pays nothing. -/
theorem wrappedBlock_pays_nothing :
    ∃ s', rewardState.mineBlock 18446744073709551611 sampleKey 2 0x207fffff 10 =
        some (s', .ok wrappedBlock.header.blockHash) ∧
      rewardState.Reachable ∧
      s'.blocks.get wrappedBlock.header.blockHash = some wrappedBlock ∧
      ¬ Pays rewardState s' wrappedBlock.header.blockHash 18446744073709551611 10 := by
  have hresult : (rewardState.mineBlock 18446744073709551611 sampleKey 2 0x207fffff 10).map
      (fun result => (result.2, result.1.blocks.get wrappedBlock.header.blockHash)) =
      some (.ok wrappedBlock.header.blockHash, some wrappedBlock) := by decide +kernel
  obtain ⟨⟨s', r⟩, hm, hr⟩ := Option.map_eq_some_iff.mp hresult
  obtain ⟨rfl, hstored⟩ := Prod.mk.inj hr
  refine ⟨s', hm, rewardState_reachable, hstored, ?_⟩
  intro hp
  obtain ⟨block, coinbase, output, included, hget, htxs, hout, hvalue, -⟩ := hp.block
  obtain rfl := Option.some.inj (hstored.symm.trans hget)
  obtain ⟨rfl, -⟩ := List.cons.inj htxs
  obtain rfl := List.singleton_inj.mp hout
  have hzero : 0 = 18446744073709551611 + (included.map rewardState.activeUtxos.feeOf).sum :=
    hvalue
  omega

end SampleReward

end NodeState

end Wobble
