import Wobble.Ledger.Independent
import Wobble.Node.Ownership
import Wobble.Node.SupplyCap

namespace Wobble

open Rust

section Model

variable [Crypto] [Profile]

/-- `Server::build_mining_candidate`, on the server's chain state and mining configuration. -/
def buildMiningCandidate (state : NodeState) :
    Option MiningConfig → Option MiningConfig × Res NodeStateError (Option Block)
  | none => (none, .ok none)
  | some mining =>
    if state.mempool.isEmpty then (some mining, .ok none)
    else
      let (mining, request) := mining.nextRequest
      (some mining, do
        let prev := state.chain.bestTip.getD BlockHash.default
        let (pending, _) ←
          state.mempool.collectValid state.activeUtxos request.maxTransactions
        if pending.isEmpty then return none
        match NodeState.sumFees state.activeUtxos 0 pending with
        | .error (.err _) => return none
        | .error (.panic m) => .error (.panic m)
        | .ok totalFees =>
          match parseVerifyingKey request.minerPublicKey with
          | none => return none
          | some minerKey => do
            let reward ← addU64 request.reward totalFees
            let block ←
              buildCandidate prev reward minerKey request.uniqueness request.bits pending
            return some block)

end Model

section Candidate

variable [Crypto]

theorem coinbaseTransaction_fits (reward : UInt64) (key : VerifyingKey) (uniqueness : UInt32) :
    (coinbaseTransaction reward key uniqueness).Fits true := by
  simp [coinbaseTransaction, Transaction.Fits]

theorem coinbaseTransaction_outputTotal (reward : UInt64) (key : VerifyingKey)
    (uniqueness : UInt32) :
    (coinbaseTransaction reward key uniqueness).outputTotal = reward.toNat := by
  simp [coinbaseTransaction, Transaction.outputTotal]

theorem coinbaseTransaction_valid (utxos : UtxoSet) (reward : UInt64) (key : VerifyingKey)
    (uniqueness : UInt32) : utxos.Valid (coinbaseTransaction reward key uniqueness) where
  outputs := by simp [coinbaseTransaction]
  bounded := by
    rw [coinbaseTransaction_outputTotal]
    exact reward.toNat_lt
  spends := .inl rfl

/-- The block `build_candidate` returns for transactions that can be encoded. -/
def candidateOf (prev : BlockHash) (reward : UInt64) (key : VerifyingKey)
    (uniqueness bits : UInt32) (txs : List Transaction) : Block :=
  { header := ⟨1, prev, merkleRootOf (coinbaseTransaction reward key uniqueness :: txs), 1, bits, 0⟩
    transactions := coinbaseTransaction reward key uniqueness :: txs }

theorem buildCandidate_eq {ε : Type} (prev : BlockHash) (reward : UInt64) (key : VerifyingKey)
    (uniqueness bits : UInt32) (txs : List Transaction) (hf : ∀ tx ∈ txs, tx.Fits true) :
    (buildCandidate prev reward key uniqueness bits txs : Res ε Block) =
      .ok (candidateOf prev reward key uniqueness bits txs) := by
  have hall : ∀ tx ∈ coinbaseTransaction reward key uniqueness :: txs, tx.Fits true :=
    List.forall_mem_cons.mpr ⟨coinbaseTransaction_fits reward key uniqueness, hf⟩
  rw [buildCandidate, Block.merkleRoot_eq, if_pos hall]
  rfl

/-- The nonce plays no part in the checks after the proof of work. -/
theorem validateBody_advanceNonce (block : Block) (steps : UInt32) :
    validateBody (block.advanceNonce steps) = validateBody block := rfl

/-- A candidate passes them unless it takes in a second coinbase. -/
theorem validateBody_candidateOf (prev : BlockHash) (reward : UInt64) (key : VerifyingKey)
    (uniqueness bits : UInt32) (txs : List Transaction) (hf : ∀ tx ∈ txs, tx.Fits true) :
    validateBody (candidateOf prev reward key uniqueness bits txs) = .ok () ↔
      ∀ tx ∈ txs, tx.inputs ≠ [] := by
  rw [validateBody_eq_ok]
  constructor
  · intro h
    obtain ⟨coinbase, rest, hok⟩ := h
    obtain ⟨-, rfl⟩ := List.cons.inj hok.transactions
    exact hok.others
  · intro hothers
    exact ⟨_, txs, rfl, rfl, hothers,
      List.forall_mem_cons.mpr ⟨coinbaseTransaction_fits reward key uniqueness, hf⟩, rfl⟩

theorem validateHeaderPow_of_target (block : Block) (target : PowTarget)
    (ht : PowTarget.fromCompact block.header.bits = some target) :
    validateHeaderPow block = .ok () ∨
      validateHeaderPow block = .error (.err .insufficientProofOfWork) := by
  rw [validateHeaderPow, ht, Res.okOr_some, Res.ok_bind]
  split
  · exact .inr rfl
  · exact .inl rfl

end Candidate

section Collisions

variable [Crypto]

theorem noCollision_of_list (s : Set Transaction) (txs : List Transaction)
    (hs : ∀ tx ∈ s, tx ∈ txs)
    (h : ∀ tx ∈ txs, ∀ tx' ∈ txs, tx.id = tx'.id → tx = tx') : NoCollision s := by
  intro x hx y hy hxy
  obtain ⟨tx, ht, rfl⟩ := hx
  obtain ⟨tx', ht', rfl⟩ := hy
  have hid : tx.id = tx'.id := congrArg Txid.mk hxy
  rw [h tx (hs tx ht) tx' (hs tx' ht') hid]

end Collisions

namespace NodeState

section Minable

variable [Crypto]

/-- The transactions of the pool. -/
def pending (s : NodeState) : Set Transaction := { tx | ∃ id, s.mempool.get id = some tx }

/-- The pool's first transactions in the order `collect_valid` looks at them. -/
def firstPending (s : NodeState) (maxTransactions : Nat) : List Transaction :=
  (s.mempool.iter.take maxTransactions).map Prod.snd

/-- Only the proof of work stands between the candidate and the chain. -/
structure Minable (s : NodeState) (candidate : Block) : Prop where
  body : ∀ steps, validateBody (candidate.advanceNonce steps) = .ok ()
  search : ∀ steps, validateBlock (candidate.advanceNonce steps) = .ok () ∨
    validateBlock (candidate.advanceNonce steps) = .error (.err .insufficientProofOfWork)
  applies : ∃ height u, s.heightAbove s.chain.bestTip = some height ∧ ∀ steps,
    applyBody s.activeUtxos (candidate.advanceNonce steps) height = .ok u ∧
    (validateBlock (candidate.advanceNonce steps) = .ok () →
      applyBlock s.activeUtxos (candidate.advanceNonce steps) height = .ok u)

/-- Everything selected spends something, and the reward fits in `u64`. -/
structure Selectable (s : NodeState) (maxTransactions : Nat) : Prop where
  spending : ∀ tx ∈ s.firstPending maxTransactions, tx.inputs ≠ []
  reward : blockSubsidy.toNat +
    ((s.firstPending maxTransactions).map s.activeUtxos.feeOf).sum < 2^64

variable {s : NodeState}

theorem minable_of_body (candidate : Block) (target : PowTarget) (height : Nat) (u : UtxoSet)
    (ht : PowTarget.fromCompact candidate.header.bits = some target)
    (hheight : s.heightAbove s.chain.bestTip = some height)
    (hbody : validateBody candidate = .ok ())
    (happ : applyBody s.activeUtxos candidate height = .ok u) : s.Minable candidate where
  body := fun _ => hbody
  search := by
    intro steps
    have hrest : validateBlock (candidate.advanceNonce steps) =
        validateHeaderPow (candidate.advanceNonce steps) := by
      rw [validateBlock, validateBody_advanceNonce, hbody]
      exact bind_pure _
    rw [hrest]
    exact validateHeaderPow_of_target _ target ht
  applies := by
    refine ⟨height, u, hheight, fun steps => ⟨happ, fun hv => ?_⟩⟩
    rw [applyBlock, hv]
    exact happ

theorem Sound.heightAbove_bestTip (hs : s.Sound) :
    ∃ height, s.heightAbove s.chain.bestTip = some height := by
  cases ht : s.chain.bestTip with
  | none => exact ⟨0, rfl⟩
  | some tip =>
    obtain ⟨e, he⟩ := hs.tipIndexed tip ht
    exact ⟨e.height + 1, by rw [heightAbove, he, Option.map_some]⟩

theorem Sound.mem_pool (hs : s.Sound) (tx : Transaction) (ht : tx ∈ s.mempool.iter.map Prod.snd) :
    tx ∈ s.pending ∧ s.activeUtxos.Valid tx ∧ tx.Fits true := by
  obtain ⟨⟨id, tx⟩, hmem, rfl⟩ := List.mem_map.mp ht
  have hget := (HashMap.mem_iter s.mempool id tx).mp hmem
  exact ⟨⟨id, hget⟩, (s.activeUtxos.validateTransaction_eq_ok tx).mp (hs.pool.valid id tx hget),
    (hs.pool.fits id tx hget).1⟩

/-- Without a collision, a pending transaction puts nothing new where the active view holds
an output. -/
theorem Sound.pool_repeats (hs : s.Sound) (hsha : NoCollision (s.confirmed ∪ s.pending)) :
    s.activeUtxos.Repeats (s.mempool.iter.map Prod.snd) := by
  intro tx ht o x output hx hid hout
  obtain ⟨hpend, -, hfits⟩ := hs.mem_pool tx ht
  rcases hs.active with hnew | ⟨h, hu⟩
  · rw [hnew] at hx
    cases hx
  · obtain ⟨e, -, -, he, -⟩ := hs.views h _ hu
    obtain ⟨tx', hconf, hid', hout'⟩ := hs.confirmed_of_view h e _ o x he hu hx
    obtain rfl := hsha.eq_of_id (.inr hpend) (.inl hconf) hfits (hs.confirmed_fits tx' hconf)
      (hid.trans hid'.symm)
    exact Option.some.inj (hout.symm.trans hout')

/-- The pending transactions apply one after the other, with the fees they have now. -/
theorem Sound.pending_allValid (hs : s.Sound) (hsha : NoCollision (s.confirmed ∪ s.pending))
    (height : Nat) (txs : List (Txid × Transaction)) (hsub : txs.Sublist s.mempool.iter) :
    UtxoSet.AllValid height s.activeUtxos (txs.map Prod.snd) ∧
      UtxoSet.feesOf height s.activeUtxos (txs.map Prod.snd) =
        ((txs.map Prod.snd).map s.activeUtxos.feeOf).sum :=
  hs.pool.allValid (hs.pool_repeats hsha) height txs hsub

omit [Crypto] in
theorem firstPending_sublist (s : NodeState) (maxTransactions : Nat) :
    (s.firstPending maxTransactions).Sublist (s.mempool.iter.map Prod.snd) :=
  (List.take_sublist _ _).map _

theorem Sound.collectValid_eq {ε : Type} (hs : s.Sound)
    (hsha : NoCollision (s.confirmed ∪ s.pending)) (maxTransactions : Nat) :
    (s.mempool.collectValid s.activeUtxos maxTransactions : Res ε _) =
      .ok (s.firstPending maxTransactions, (s.mempool.iter.take maxTransactions).map Prod.fst) :=
  hs.pool.collectValid_eq (hs.pool_repeats hsha) maxTransactions

/-- The candidate made of the first pending transactions. -/
theorem Sound.minable_iff [Profile] (hs : s.Sound)
    (hsha : NoCollision (s.confirmed ∪ s.pending)) (prev : BlockHash) (key : VerifyingKey)
    (uniqueness bits : UInt32) (maxTransactions : Nat) (target : PowTarget) (fees reward : UInt64)
    (hbits : PowTarget.fromCompact bits = some target)
    (hfees : sumFees s.activeUtxos 0 (s.firstPending maxTransactions) = .ok fees)
    (hreward : (addU64 blockSubsidy fees : Res NodeStateError UInt64) = .ok reward) :
    s.Minable (candidateOf prev reward key uniqueness bits (s.firstPending maxTransactions)) ↔
      s.Selectable maxTransactions := by
  have hfits : ∀ tx ∈ s.firstPending maxTransactions, tx.Fits true := fun tx ht =>
    (hs.mem_pool tx ((s.firstPending_sublist maxTransactions).subset ht)).2.2
  have hsum := ((sumFees_eq_ok _ _ _ _).mp hfees).2
  rw [UInt64.toNat_zero, Nat.zero_add] at hsum
  have hall := fun height =>
    hs.pending_allValid hsha height _ (List.take_sublist maxTransactions s.mempool.iter)
  constructor
  · intro hm
    refine ⟨(validateBody_candidateOf prev reward key uniqueness bits _ hfits).mp (hm.body 0), ?_⟩
    obtain ⟨height, u, -, happ⟩ := hm.applies
    obtain ⟨coinbase, rest, htxs, hb⟩ := (applyBody_eq_ok _ _ _ _).mp (happ 0).1
    obtain ⟨-, rfl⟩ := List.cons.inj htxs
    have hbounded := hb.bounded
    rwa [firstPending, (hall height).2] at hbounded
  · intro hsel
    obtain ⟨height, hheight⟩ := hs.heightAbove_bestTip
    have hlt : blockSubsidy.toNat + fees.toNat < 2^64 := hsum ▸ hsel.reward
    have hval : reward.toNat = blockSubsidy.toNat + fees.toNat := by
      rw [addU64_of_lt _ _ hlt] at hreward
      rw [← Except.ok.inj hreward, toNat_add_of_lt _ _ hlt]
    have htotal : blockSubsidy.toNat + UtxoSet.feesOf height s.activeUtxos
        (s.firstPending maxTransactions) = reward.toNat := by
      rw [hval, hsum, firstPending, (hall height).2]
    have hbody := (validateBody_candidateOf prev reward key uniqueness bits _ hfits).mpr
      hsel.spending
    have happ : BlockApplied s.activeUtxos height (coinbaseTransaction reward key uniqueness)
        (s.firstPending maxTransactions)
        ((s.activeUtxos.afterAll height (s.firstPending maxTransactions)).after
          (coinbaseTransaction reward key uniqueness) height) := {
      valid := (hall height).1
      bounded := htotal ▸ reward.toNat_lt
      reward := by rw [htotal, coinbaseTransaction_outputTotal]
      coinbaseValid := coinbaseTransaction_valid _ reward key uniqueness
      coinbaseFits := coinbaseTransaction_fits reward key uniqueness
      result := rfl }
    exact minable_of_body _ target height _ hbits hheight hbody
      ((applyBody_eq_ok _ _ _ _).mpr ⟨_, _, rfl, happ⟩)

/-- `mine_block` with the standard subsidy builds a minable candidate. -/
def MinesMinable [Profile] (s : NodeState) (key : VerifyingKey) (uniqueness bits : UInt32)
    (maxTransactions : Nat) : Prop :=
  ∃ pending ids reward candidate,
    s.selectPending blockSubsidy maxTransactions = .ok (pending, ids, reward) ∧
    (buildCandidate (s.chain.bestTip.getD BlockHash.default) reward key uniqueness bits pending :
      Res NodeStateError Block) = .ok candidate ∧
    s.Minable candidate

theorem Sound.minesMinable_iff [Profile] (hs : s.Sound)
    (hsha : NoCollision (s.confirmed ∪ s.pending)) (key : VerifyingKey)
    (uniqueness bits : UInt32) (maxTransactions : Nat) (target : PowTarget)
    (hbits : PowTarget.fromCompact bits = some target) :
    s.MinesMinable key uniqueness bits maxTransactions ↔ s.Selectable maxTransactions := by
  have hcol := hs.collectValid_eq (ε := NodeStateError) hsha maxTransactions
  have hpool : ∀ tx ∈ s.firstPending maxTransactions, s.activeUtxos.Valid tx ∧ tx.Fits true :=
    fun tx ht => (hs.mem_pool tx ((s.firstPending_sublist maxTransactions).subset ht)).2
  have hbuild := fun reward => buildCandidate_eq (ε := NodeStateError)
    (s.chain.bestTip.getD BlockHash.default) reward key uniqueness bits _
    fun tx ht => (hpool tx ht).2
  constructor
  · intro h
    obtain ⟨pending, ids, reward, candidate, hsel, hcand, hm⟩ := h
    obtain ⟨hcol', fees, hfees, hreward⟩ := (s.selectPending_eq_ok _ _ _ _ _).mp hsel
    obtain ⟨rfl, -⟩ := Prod.mk.inj (Except.ok.inj (hcol.symm.trans hcol'))
    rw [hbuild] at hcand
    cases hcand
    exact (hs.minable_iff hsha _ key uniqueness bits maxTransactions target fees reward hbits
      hfees hreward).mp hm
  · intro hsel
    have hlt := hsel.reward
    have hnat :
        (UInt64.ofNat ((s.firstPending maxTransactions).map s.activeUtxos.feeOf).sum).toNat =
        ((s.firstPending maxTransactions).map s.activeUtxos.feeOf).sum :=
      UInt64.toNat_ofNat_of_lt' (by rw [UInt64.size]; omega)
    have hfees : sumFees s.activeUtxos 0 (s.firstPending maxTransactions) = .ok _ :=
      (sumFees_eq_ok _ _ _ _).mpr ⟨fun tx ht => (hpool tx ht).1,
        by rw [hnat, UInt64.toNat_zero, Nat.zero_add]⟩
    have hreward := addU64_of_lt (ε := NodeStateError) blockSubsidy _ (hnat.symm ▸ hlt)
    have hselect := (s.selectPending_eq_ok blockSubsidy maxTransactions _ _ _).mpr
      ⟨hcol, _, hfees, hreward⟩
    have hminable := (hs.minable_iff hsha (s.chain.bestTip.getD BlockHash.default) key uniqueness
      bits maxTransactions target _ _ hbits hfees hreward).mpr hsel
    exact ⟨_, _, _, _, hselect, hbuild _, hminable⟩

/-- If the search for a nonce does not end, neither does `mine_block`. -/
theorem mineBlock_eq_none [Profile] (s : NodeState) (subsidy reward : UInt64)
    (key : VerifyingKey) (uniqueness bits : UInt32) (maxTransactions : Nat)
    (pending : List Transaction) (ids : List Txid) (candidate : Block)
    (hsel : s.selectPending subsidy maxTransactions = .ok (pending, ids, reward))
    (hbuild : (buildCandidate (s.chain.bestTip.getD BlockHash.default) reward key uniqueness bits
      pending : Res NodeStateError Block) = .ok candidate)
    (hsolve : (solveCandidate candidate : Option (Res NodeStateError Block)) = none) :
    s.mineBlock subsidy key uniqueness bits maxTransactions = none := by
  rw [mineBlock]
  simp only [hsel, Mining.mineBlock, hbuild, hsolve]

/-- A candidate of the server is made of the first pending transactions. -/
theorem Sound.buildMiningCandidate_eq [Profile] (hs : s.Sound)
    (hsha : NoCollision (s.confirmed ∪ s.pending)) (config : MiningConfig) (candidate : Block)
    (h : (buildMiningCandidate s (some config)).2 = .ok (some candidate)) :
    ∃ key fees reward,
      sumFees s.activeUtxos 0 (s.firstPending config.maxTransactions) = .ok fees ∧
      (addU64 blockSubsidy fees : Res NodeStateError UInt64) = .ok reward ∧
      candidate = candidateOf (s.chain.bestTip.getD BlockHash.default) reward key
        config.nextUniqueness config.bits (s.firstPending config.maxTransactions) := by
  have hcol := hs.collectValid_eq (ε := NodeStateError) hsha config.maxTransactions
  have hfits : ∀ tx ∈ s.firstPending config.maxTransactions, tx.Fits true := fun tx ht =>
    (hs.mem_pool tx ((s.firstPending_sublist config.maxTransactions).subset ht)).2.2
  rw [buildMiningCandidate] at h
  by_cases hempty : s.mempool.isEmpty = true
  · rw [if_pos hempty] at h
    cases h
  rw [if_neg hempty] at h
  change (s.mempool.collectValid s.activeUtxos config.maxTransactions >>= _) = _ at h
  rw [hcol, Res.ok_bind] at h
  by_cases hnone : (s.firstPending config.maxTransactions).isEmpty = true
  · simp only [hnone] at h
    cases h
  simp only [hnone] at h
  rcases hfees : sumFees s.activeUtxos 0 (s.firstPending config.maxTransactions)
    with (e | m) | fees
  · rw [hfees] at h
    cases h
  · rw [hfees] at h
    cases h
  rw [hfees] at h
  cases hkey : parseVerifyingKey (verifyingKeyBytes config.minerVerifyingKey).toList with
  | none =>
    simp only [MiningConfig.nextRequest, hkey] at h
    cases h
  | some key =>
    simp only [MiningConfig.nextRequest, hkey] at h
    obtain ⟨reward, hreward, h⟩ := (Res.bind_eq_ok _ _ _).mp h
    rw [buildCandidate_eq _ _ _ _ _ _ hfits] at h
    cases h
    exact ⟨key, fees, reward, rfl, hreward, rfl⟩

/-- What the node and its server offer the miner can be mined exactly when none of the selected
transactions lacks inputs and the reward fits. -/
theorem candidates_minable_iff [Profile] (s : NodeState) (hr : s.OkReachable)
    (hsha : NoCollision (s.confirmed ∪ s.pending)) (key : VerifyingKey)
    (uniqueness bits : UInt32) (maxTransactions : Nat) (target : PowTarget)
    (hbits : PowTarget.fromCompact bits = some target) :
    (s.MinesMinable key uniqueness bits maxTransactions ↔ s.Selectable maxTransactions) ∧
      ∀ candidate, (buildMiningCandidate s
          (some ⟨key, maxTransactions, bits, uniqueness⟩)).2 = .ok (some candidate) →
        (s.Minable candidate ↔ s.Selectable maxTransactions) := by
  have hs := hr.complete.sound
  refine ⟨hs.minesMinable_iff hsha key uniqueness bits maxTransactions target hbits, ?_⟩
  intro candidate hcand
  obtain ⟨key', fees, reward, hfees, hreward, rfl⟩ :=
    hs.buildMiningCandidate_eq hsha _ candidate hcand
  exact hs.minable_iff hsha _ key' uniqueness bits maxTransactions target fees reward hbits
    hfees hreward

end Minable

section SampleCandidate

attribute [local instance] sampleCrypto sampleProfile

theorem sampleState_noCollision : NoCollision (sampleState.confirmed ∪ sampleState.pending) := by
  apply noCollision_of_list _ [sampleCoinbase, sampleReward, samplePayment, samplePending]
  · have hblocks : ∀ h b, sampleState.blocks.get h = some b → ∀ tx ∈ b.transactions,
        tx ∈ [sampleCoinbase, sampleReward, samplePayment, samplePending] :=
      (HashMap.forall_get_iff _).mpr (by decide +kernel)
    have hpool : ∀ id tx, sampleState.mempool.get id = some tx →
        tx ∈ [sampleCoinbase, sampleReward, samplePayment, samplePending] :=
      (HashMap.forall_get_iff _).mpr (by decide +kernel)
    intro tx ht
    rcases ht with ⟨h, b, hb, ht⟩ | ⟨id, hid⟩
    · exact hblocks h b hb tx ht
    · exact hpool id tx hid
  · decide +kernel

/-- The candidate on top of the sample run. -/
def sampleCandidate : Block :=
  candidateOf sampleBlock.header.blockHash 55 sampleKey 1 0x207fffff [samplePending]

theorem sampleState_minable :
    sampleState.MinesMinable sampleKey 1 0x207fffff 10 ∧
      (buildMiningCandidate sampleState (some ⟨sampleKey, 10, 0x207fffff, 1⟩)).2 =
        .ok (some sampleCandidate) ∧
      sampleState.Minable sampleCandidate := by
  have htarget : (PowTarget.fromCompact 0x207fffff).isSome = true := by decide +kernel
  have hsel : sampleState.Selectable 10 := ⟨by decide +kernel, by decide +kernel⟩
  have hcand : (buildMiningCandidate sampleState (some ⟨sampleKey, 10, 0x207fffff, 1⟩)).2 =
      .ok (some sampleCandidate) := by decide +kernel
  obtain ⟨hmine, hserver⟩ := candidates_minable_iff sampleState sampleState_okReachable
    sampleState_noCollision sampleKey 1 0x207fffff 10 _ (Option.some_get htarget).symm
  exact ⟨hmine.mpr hsel, hcand, (hserver sampleCandidate hcand).mpr hsel⟩

end SampleCandidate

section Planted

def plantedReward : Transaction := ⟨1, [], [⟨50, sampleLock⟩], 1⟩

def plantedDigests : List Digest := sampleDigests ++ [
  ⟨plantedReward.encoding true,
    0xa2aa95dd51bb54b99ee83fd95337f954856a61e8570afcf45e0d42f6308d5f2c,
    0x91ef97fe8ced702dc9df97ae5f572d7bb710af58eec7f291977faa31931b2075⟩,
  ⟨(beBytes 32 0x91ef97fe8ced702dc9df97ae5f572d7bb710af58eec7f291977faa31931b2075).toList ++
      (beBytes 32 0xac3bfda99da3beb4120b0e4073c483fb09259ed8c73600c01e2c4160fe3f67b5).toList,
    0x32265084157196d4ded56de0b2a4753475da8627e74c612342359dbecf814895,
    0x78ff53656b54647862b0083cb023c9fb55a15f110ad28a3ad0cb6b3f0b020e1f⟩]

@[reducible] def plantedCrypto : Crypto := recordedCrypto plantedDigests sampleSignatures

attribute [local instance] plantedCrypto sampleProfile

/-- A fresh node that has been sent a transaction without inputs. -/
def plantedState : NodeState := (new.submitTransaction sampleCoinbase).1

def plantedCandidate : Block :=
  candidateOf BlockHash.default 50 sampleKey 1 0x207fffff [sampleCoinbase]

theorem plantedCandidate_invalid (steps : UInt32) :
    validateBody (plantedCandidate.advanceNonce steps) =
      .error (.err .multipleCoinbaseTransactions) := by
  rw [validateBody_advanceNonce]
  decide +kernel

theorem solveCandidate_planted :
    (solveCandidate plantedCandidate : Option (Res NodeStateError Block)) = none := by
  rw [solveCandidate_eq_none]
  intro steps
  rw [validateBlock]
  have htarget : (PowTarget.fromCompact 0x207fffff).isSome = true := by decide +kernel
  rcases validateHeaderPow_of_target (plantedCandidate.advanceNonce steps) _
    (Option.some_get htarget).symm with hpow | hpow
  · rw [hpow]
    exact ⟨_, plantedCandidate_invalid steps⟩
  · rw [hpow]
    exact ⟨_, rfl⟩

/-- The pool takes the transaction, and from then on no nonce ends the search. -/
theorem planted_never_mined :
    (new.submitTransaction sampleCoinbase).2 = .ok sampleCoinbase.id ∧
    (∃ target, PowTarget.fromCompact 0x207fffff = some target) ∧
    (buildMiningCandidate plantedState (some ⟨sampleKey, 10, 0x207fffff, 1⟩)).2 =
      .ok (some plantedCandidate) ∧
    (∀ steps, validateBody (plantedCandidate.advanceNonce steps) =
      .error (.err .multipleCoinbaseTransactions)) ∧
    plantedState.mineBlock blockSubsidy sampleKey 1 0x207fffff 10 = none := by
  have hselect : plantedState.selectPending blockSubsidy 10 =
      .ok ([sampleCoinbase], [sampleCoinbase.id], 50) := by decide +kernel
  have hbuild : (buildCandidate (plantedState.chain.bestTip.getD BlockHash.default) 50 sampleKey 1
      0x207fffff [sampleCoinbase] : Res NodeStateError Block) = .ok plantedCandidate := by
    decide +kernel
  have hmine := plantedState.mineBlock_eq_none blockSubsidy 50 sampleKey 1 0x207fffff 10
    [sampleCoinbase] [sampleCoinbase.id] plantedCandidate hselect hbuild solveCandidate_planted
  exact ⟨by decide +kernel, Option.isSome_iff_exists.mp (by decide +kernel), by decide +kernel,
    plantedCandidate_invalid, hmine⟩

end Planted

end NodeState

end Wobble
