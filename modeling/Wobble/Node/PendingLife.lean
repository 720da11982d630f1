import Wobble.Node.Admission
import Wobble.Node.CoinFrame
import Wobble.Node.MinedReward

namespace Wobble

open Rust

section Life

variable [Crypto]

namespace UtxoSet

/-- An outpoint that none of the transactions can make is spent by one of them or left alone. -/
theorem get_afterAll_of_foreign (height : Nat) (txs : List Transaction) (utxos : UtxoSet)
    (o : OutPoint) (hf : ∀ tx ∈ txs, tx.Fits true) (hid : ∀ tx ∈ txs, tx.id ≠ o.txid) :
    ((∃ tx ∈ txs, o ∈ tx.spends) → (utxos.afterAll height txs).get o = none) ∧
      ((∀ tx ∈ txs, o ∉ tx.spends) → (utxos.afterAll height txs).get o = utxos.get o) := by
  -- what is spent stays away, so the list is taken from the back
  induction txs using List.reverseRecOn with
  | nil => simp [afterAll]
  | append_singleton txs tx ih =>
    have hstep := (utxos.afterAll height txs).get_after tx height o
    have hlast : tx ∈ txs ++ [tx] := List.mem_append_right _ (List.mem_singleton_self tx)
    have hget : ((utxos.afterAll height txs).after tx height).get o =
        if o ∈ tx.spends then none else (utxos.afterAll height txs).get o := by
      obtain ⟨x, hx, -⟩ | hget := hstep
      · have hmade := ((tx.mem_created height (hf tx hlast) o x).mp hx).1
        exact absurd hmade.symm (hid tx hlast)
      · exact hget
    obtain ⟨hspent, hkept⟩ := ih (fun t ht => hf t (List.mem_append_left _ ht))
      fun t ht => hid t (List.mem_append_left _ ht)
    have happ : utxos.afterAll height (txs ++ [tx]) = (utxos.afterAll height txs).after tx height := by
      simp [afterAll]
    rw [happ, hget]
    constructor
    · intro h
      obtain ⟨t, ht, ho⟩ := h
      split_ifs with hs
      · rfl
      · apply hspent
        obtain ht | ht := List.mem_append.mp ht
        · exact ⟨t, ht, ho⟩
        · rw [List.mem_singleton.mp ht] at ho
          exact absurd ho hs
    · intro h
      rw [if_neg (h tx hlast)]
      exact hkept fun t ht => h t (List.mem_append_left _ ht)

end UtxoSet

/-- No unspent coin has the id of a transaction of the block. -/
def NewIds (utxos : UtxoSet) (block : Block) : Prop :=
  ∀ tx ∈ block.transactions, ∀ o : OutPoint, o.txid = tx.id → utxos.get o = none

/-- The two spend a coin in common. -/
def Block.Touches (block : Block) (tx : Transaction) : Prop :=
  ∃ t ∈ block.transactions, ∃ o ∈ t.spends, o ∈ tx.spends

theorem applyBlock_valid_iff {utxos utxos' : UtxoSet} {block : Block} {height : Nat}
    (happ : applyBlock utxos block height = .ok utxos') (hnew : NewIds utxos block)
    (tx : Transaction) (hv : utxos.Valid tx) : utxos'.Valid tx ↔ ¬ block.Touches tx := by
  obtain ⟨rfl, hfits⟩ := applyBlock_eq_afterAll utxos utxos' block height happ
  have hmem (t : Transaction) := (applicationOrder_perm block.transactions).mem_iff (a := t)
  have hcoin (o : OutPoint) (ho : o ∈ tx.spends) :
      ((∃ t ∈ applicationOrder block.transactions, o ∈ t.spends) →
        (utxos.afterAll height (applicationOrder block.transactions)).get o = none) ∧
      ((∀ t ∈ applicationOrder block.transactions, o ∉ t.spends) →
        (utxos.afterAll height (applicationOrder block.transactions)).get o = utxos.get o) := by
    obtain ⟨x, hx⟩ := hv.held o ho
    refine UtxoSet.get_afterAll_of_foreign height (applicationOrder block.transactions) utxos o
      hfits fun t ht hid => ?_
    rw [hnew t ((hmem t).mp ht) o hid.symm] at hx
    cases hx
  constructor
  · intro hv' htouch
    obtain ⟨t, ht, o, hot, ho⟩ := htouch
    obtain ⟨x, hx⟩ := hv'.held o ho
    rw [(hcoin o ho).1 ⟨t, (hmem t).mpr ht, hot⟩] at hx
    cases hx
  · intro hfree
    refine hv.congr fun o ho => ?_
    have hkept := (hcoin o ho).2 fun t ht hot => hfree ⟨t, (hmem t).mp ht, o, hot, ho⟩
    rw [UtxoSet.SameOutput, hkept]

namespace NodeState

variable {s : NodeState}

/-- A new block on the best tip is applied to the active coins. -/
theorem Complete.applied_on_tip (hc : s.Complete) (block : Block)
    (hok : (s.acceptBlock block).2 = .ok ())
    (hunknown : s.chain.get block.header.blockHash = none)
    (hprev : block.header.prevBlockhash = s.chain.bestTip.getD BlockHash.default) :
    ∃ height, applyBlock s.activeUtxos block height = .ok (s.acceptBlock block).1.activeUtxos ∧
      ∀ txid tx, (s.acceptBlock block).1.mempool.get txid = some tx ↔
        s.mempool.get txid = some tx ∧ (s.acceptBlock block).1.activeUtxos.Valid tx := by
  have hs := hc.sound
  obtain ⟨entry, b, u, acc, hhash⟩ := hs.accepted block hok
  have htip := hs.acceptBlock_on_tip block hok hprev hunknown
  rw [← hhash] at htip
  obtain ⟨hactive, hpool⟩ := acc.tip htip
  obtain ⟨entry', hl, hchain, hblocks⟩ := hs.acceptBlock_added block hok hunknown
  have hl' := hl.blockHash
  obtain ⟨e, b', v, he, hb', hparent, happ⟩ := (hs.acceptBlock block).views _ u acc.view
  have hentry : e = entry' := by
    have hget : (s.acceptBlock block).1.chain.get entry.blockHash = some entry' := by
      rw [hchain, ChainIndex.get_extend, if_pos (hhash.trans hl'.symm)]
    exact Option.some.inj (he.symm.trans hget)
  have hblock : b' = block := by
    rw [hblocks, HashMap.get_insert, if_pos (hhash.trans hl'.symm)] at hb'
    exact (Option.some.inj hb').symm
  subst hentry hblock
  have hview : v = s.activeUtxos := by
    have hold := hc.active
    cases hl with
    | genesis w hnone hp hw =>
      have hbest : s.chain.bestTip = none := by
        cases hbest : s.chain.bestTip with
        | none => rfl
        | some tip =>
          obtain ⟨x, hx⟩ := hs.tipIndexed tip hbest
          rw [hnone] at hx
          cases hx
      rw [hbest] at hold
      exact (Except.ok.inj hparent).symm.trans hold.symm
    | child parent w hp hw hle =>
      obtain ⟨log, hi⟩ := hs.index
      obtain ⟨tip, hbest⟩ := hi.tip_of_get hp
      rw [hbest, Option.getD_some] at hprev
      rw [hbest] at hold
      have hne : b'.header.prevBlockhash ≠ entry.blockHash := by
        intro heq
        rw [heq, hhash, hunknown] at hp
        cases hp
      have hget := (Res.okOr_eq_ok _ _ _).mp hparent
      rw [acc.views _ hne, hprev] at hget
      exact Option.some.inj (hget.symm.trans hold)
  rw [hview] at happ
  refine ⟨e.height, ?_, ?_⟩
  · rw [hactive]
    exact happ
  · rw [hactive]
    exact hpool

/-- As long as the tip stays, so do the active coins and the pool. -/
theorem Complete.pool_of_same_tip (hc : s.Complete) (block : Block)
    (hok : (s.acceptBlock block).2 = .ok ())
    (htip : (s.acceptBlock block).1.chain.bestTip = s.chain.bestTip) :
    (s.acceptBlock block).1.mempool = s.mempool := by
  have hacc := hc.sound.acceptBlock_accepts block
  generalize s.acceptBlock block = result at hok htip hacc
  cases hacc with
  | rejected e => rfl
  | unapplied entry t e hi hn he => cases hok
  | side entry t t' u hi hv ht =>
    obtain ⟨-, -, -, -, -, -, hpool, -⟩ := hi.inserted hc.sound
    exact hv.frame.2.trans hpool
  | tip entry t t' u pool hi hv ht hp =>
    obtain ⟨-, -, -, -, -, -, hpool, -⟩ := hi.inserted hc.sound
    have hold := hc.active
    rw [← htip, show t'.chain.bestTip = some entry.blockHash from ht] at hold
    have hview : u = s.activeUtxos := by
      rw [← hi.utxoSnapshots] at hold
      cases hv with
      | cached _ hu => exact Option.some.inj (hu.symm.trans hold)
      | computed b v _ hn hb hparent ha => cases hn.symm.trans hold
    rw [hv.frame.2, hpool, hview, hc.sound.pruneInvalid_eq] at hp
    exact (Except.ok.inj hp).symm

/-- What happens to a node. -/
inductive PoolEvent where
  | submitted (tx : Transaction)
  | added (block : Block)
  /-- A payment that could not be built. -/
  | unpaid

/-- The block goes on the best tip and makes no coin that is there already. -/
structure OnTip (s : NodeState) (block : Block) : Prop where
  unknown : s.chain.get block.header.blockHash = none
  prev : block.header.prevBlockhash = s.chain.bestTip.getD BlockHash.default
  newIds : NewIds s.activeUtxos block

/-- One call of `submit_transaction`, `submit_payment`, `accept_block` or `mine_block`. Left out are
calls that refuse a block, reorganisations, and blocks on the tip that make an unspent coin again. -/
inductive Lives [Profile] (s : NodeState) : PoolEvent → NodeState → Prop
  | submitTransaction (tx : Transaction) : Lives s (.submitted tx) (s.submitTransaction tx).1
  | submitPayment (keys : List SigningKey) (change recipient : VerifyingKey) (amount : UInt64)
      (uniqueness : UInt32) (tx : Transaction)
      (hb : buildPaymentTransaction s.activeUtxos keys change recipient amount uniqueness = .ok tx) :
      Lives s (.submitted tx) (s.submitPayment keys change recipient amount uniqueness).1
  | unpaid (keys : List SigningKey) (change recipient : VerifyingKey) (amount : UInt64)
      (uniqueness : UInt32) (fault : Fault NodeStateError)
      (hb : buildPaymentTransaction s.activeUtxos keys change recipient amount uniqueness =
        .error fault) :
      Lives s .unpaid (s.submitPayment keys change recipient amount uniqueness).1
  | acceptBlock (block : Block) (hok : (s.acceptBlock block).2 = .ok ())
      (htip : (s.acceptBlock block).1.chain.bestTip = s.chain.bestTip ∨ s.OnTip block) :
      Lives s (.added block) (s.acceptBlock block).1
  | mineBlock (subsidy : UInt64) (key : VerifyingKey) (uniqueness bits : UInt32)
      (maxTransactions : Nat) (block : Block) (s' : NodeState) (h : BlockHash)
      (hm : s.mineBlock subsidy key uniqueness bits maxTransactions = some (s', .ok h))
      (hb : s.Mines subsidy key uniqueness bits maxTransactions block) (htip : s.OnTip block) :
      Lives s (.added block) s'

/-- What makes a pending transaction leave. -/
def Displaces (s : NodeState) (tx : Transaction) : PoolEvent → Prop
  | .submitted t => ∃ fee, t.Fits true ∧ s.mempool.get t.id = none ∧
      s.activeUtxos.transactionFee t = .ok fee ∧
      Mempool.Admission s.mempool s.activeUtxos t fee (some tx.id)
  | .added block => (s.acceptBlock block).1.chain.bestTip ≠ s.chain.bestTip ∧ block.Touches tx
  | .unpaid => False

theorem submitPayment_of_ok {keys : List SigningKey} {change recipient : VerifyingKey}
    {amount : UInt64} {uniqueness : UInt32} {tx : Transaction}
    (hb : buildPaymentTransaction s.activeUtxos keys change recipient amount uniqueness = .ok tx) :
    s.submitPayment keys change recipient amount uniqueness = s.submitTransaction tx := by
  rw [submitPayment, hb]

theorem submitPayment_of_error {keys : List SigningKey} {change recipient : VerifyingKey}
    {amount : UInt64} {uniqueness : UInt32} {fault : Fault NodeStateError}
    (hb : buildPaymentTransaction s.activeUtxos keys change recipient amount uniqueness =
      .error fault) : s.submitPayment keys change recipient amount uniqueness = (s, .error fault) := by
  rw [submitPayment, hb]

theorem Mempool.Consistent.submit_admits {pool pool' : Mempool} {utxos : UtxoSet}
    (hc : pool.Consistent utxos) (t : Transaction) (txid : Txid) :
    pool.submit utxos t = .ok (pool', txid) ↔
      (t.txid : Res MempoolError Txid) = .ok txid ∧ pool.get txid = none ∧
      ∃ fee gone, utxos.transactionFee t = .ok fee ∧ pool.Admission utxos t fee gone ∧
        pool' = (gone.elim pool pool.remove).insert txid t := by
  rw [Mempool.submit_eq_ok_iff]
  refine and_congr_right fun _ => and_congr_right fun _ => exists_congr fun fee => ?_
  constructor
  · intro h
    obtain ⟨displaced, hfee, hcheck, hd, hhigh, rfl⟩ := h
    have hnodup := ((utxos.transactionFee_eq_ok t fee).mp hfee).1.nodup
    obtain ⟨gone, hadm, hgone⟩ := hc.admission_of_checks hnodup hcheck hd hhigh
    exact ⟨gone, hfee, hadm, by rw [hgone, Mempool.removeAll_toList]⟩
  · intro h
    obtain ⟨gone, hfee, hadm, rfl⟩ := h
    have hnodup := ((utxos.transactionFee_eq_ok t fee).mp hfee).1.nodup
    obtain ⟨hcheck, displaced, hd, hhigh, hgone⟩ := hadm.checks hc hnodup
    exact ⟨displaced, hfee, hcheck, hd, hhigh, by rw [hgone, Mempool.removeAll_toList]⟩

/-- A transaction that is submitted takes the place of the one it displaces and of no other. -/
theorem Sound.submitTransaction_pending (hs : s.Sound) (t : Transaction) {txid : Txid}
    {tx : Transaction} (hp : s.mempool.get txid = some tx) :
    (s.submitTransaction t).1.mempool.get txid = some tx ↔ ¬ s.Displaces tx (.submitted t) := by
  have hid : tx.id = txid := (hs.pool.fits txid tx hp).2
  -- what a displacement does to the pool
  have hgone (h : s.Displaces tx (.submitted t)) : ∃ pool', s.mempool.submit s.activeUtxos t =
      .ok (pool', t.id) ∧ pool'.get txid ≠ some tx := by
    obtain ⟨fee, hfits, hnone, hfee, hadm⟩ := h
    have htxid := (Transaction.txid_eq_ok (ε := MempoolError) t t.id).mpr ⟨hfits, rfl⟩
    refine ⟨_, (Mempool.Consistent.submit_admits hs.pool t t.id).mpr ⟨htxid, hnone, fee, _, hfee,
      hadm, rfl⟩, ?_⟩
    rw [Option.elim_some, HashMap.get_insert, HashMap.get_remove, hid, if_pos rfl]
    split_ifs with heq
    · rw [heq, hnone] at hp
      cases hp
    · simp
  rw [NodeState.submitTransaction]
  cases hsubmit : s.mempool.submit s.activeUtxos t with
  | error e =>
    refine iff_of_true ?_ fun h => ?_
    · cases e <;> exact hp
    · obtain ⟨pool', heq, -⟩ := hgone h
      cases hsubmit.symm.trans heq
  | ok r =>
    obtain ⟨pool', id⟩ := r
    obtain ⟨htxid, hnone, fee, gone, hfee, hadm, hpool⟩ :=
      (Mempool.Consistent.submit_admits hs.pool t id).mp hsubmit
    obtain ⟨hfits, rfl⟩ := (Transaction.txid_eq_ok t id).mp htxid
    show pool'.get txid = some tx ↔ _
    constructor
    · intro hkept h
      obtain ⟨pool'', heq, hlost⟩ := hgone h
      obtain ⟨rfl, -⟩ := Prod.mk.inj (Except.ok.inj (hsubmit.symm.trans heq))
      exact hlost hkept
    · intro hnot
      have hne : txid ≠ t.id := by
        intro heq
        rw [heq, hnone] at hp
        cases hp
      rw [hpool, HashMap.get_insert, if_neg hne]
      cases gone with
      | none => exact hp
      | some other =>
        have hother : txid ≠ other := by
          intro heq
          exact hnot ⟨fee, hfits, hnone, hfee, by rw [hid, heq]; exact hadm⟩
        rw [Option.elim_some, HashMap.get_remove, if_neg hother]
        exact hp

/-- Only a submission of it makes a transaction pending. -/
theorem Sound.submitTransaction_before (hs : s.Sound) (t : Transaction) {txid : Txid}
    (hne : t.id ≠ txid) {tx : Transaction}
    (hp : (s.submitTransaction t).1.mempool.get txid = some tx) :
    s.mempool.get txid = some tx := by
  rw [NodeState.submitTransaction] at hp
  cases hsubmit : s.mempool.submit s.activeUtxos t with
  | error e =>
    rw [hsubmit] at hp
    cases e <;> exact hp
  | ok r =>
    obtain ⟨pool', id⟩ := r
    obtain ⟨htxid, -, fee, gone, -, -, hpool⟩ :=
      (Mempool.Consistent.submit_admits hs.pool t id).mp hsubmit
    obtain ⟨-, rfl⟩ := (Transaction.txid_eq_ok t id).mp htxid
    rw [hsubmit] at hp
    change pool'.get txid = some tx at hp
    rw [hpool, HashMap.get_insert, if_neg (Ne.symm hne)] at hp
    cases gone with
    | none => exact hp
    | some other =>
      rw [Option.elim_some, HashMap.get_remove] at hp
      split_ifs at hp
      exact hp

theorem OnTip.moves {block : Block} (ht : s.OnTip block) (hs : s.Sound)
    (hok : (s.acceptBlock block).2 = .ok ()) :
    (s.acceptBlock block).1.chain.bestTip ≠ s.chain.bestTip := by
  rw [hs.acceptBlock_on_tip block hok ht.prev ht.unknown]
  intro heq
  obtain ⟨e, he⟩ := hs.tipIndexed _ heq.symm
  cases ht.unknown.symm.trans he

theorem Complete.acceptBlock_pending (hc : s.Complete) (block : Block)
    (hok : (s.acceptBlock block).2 = .ok ())
    (htip : (s.acceptBlock block).1.chain.bestTip = s.chain.bestTip ∨ s.OnTip block)
    {txid : Txid} {tx : Transaction} (hp : s.mempool.get txid = some tx) :
    (s.acceptBlock block).1.mempool.get txid = some tx ↔ ¬ s.Displaces tx (.added block) := by
  obtain hsame | hon := htip
  · rw [hc.pool_of_same_tip block hok hsame]
    exact iff_of_true hp fun h => h.1 hsame
  · obtain ⟨height, happ, hpool⟩ := hc.applied_on_tip block hok hon.unknown hon.prev
    have hvalid := (s.activeUtxos.validateTransaction_eq_ok tx).mp (hc.sound.pool.valid txid tx hp)
    rw [hpool, applyBlock_valid_iff happ hon.newIds tx hvalid]
    constructor
    · intro h hd
      exact h.2 hd.2
    · intro h
      exact ⟨hp, fun htouch => h ⟨hon.moves hc.sound hok, htouch⟩⟩

theorem Sound.acceptBlock_before (hs : s.Sound) (block : Block)
    (hok : (s.acceptBlock block).2 = .ok ()) {txid : Txid} {tx : Transaction}
    (hp : (s.acceptBlock block).1.mempool.get txid = some tx) : s.mempool.get txid = some tx := by
  obtain ⟨entry, b, u, acc, -⟩ := hs.accepted block hok
  by_cases htip : (s.acceptBlock block).1.chain.bestTip = some entry.blockHash
  · exact (((acc.tip htip).2 txid tx).mp hp).1
  · rwa [(acc.aside htip).2.2] at hp

variable [Profile]

/-- A block that was mined is accepted like any other: what `mine_block` takes out of the pool then
is there no longer. -/
theorem Complete.mineBlock_eq (hc : s.Complete) {subsidy : UInt64} {key : VerifyingKey}
    {uniqueness bits : UInt32} {maxTransactions : Nat} {block : Block} {s' : NodeState}
    {h : BlockHash} (hm : s.mineBlock subsidy key uniqueness bits maxTransactions = some (s', .ok h))
    (hb : s.Mines subsidy key uniqueness bits maxTransactions block) (htip : s.OnTip block) :
    (s.acceptBlock block).2 = .ok () ∧ s' = (s.acceptBlock block).1 := by
  obtain ⟨mined, entries, fees, reward, hmined, hmines, -⟩ := hc.sound.mined hm
  obtain rfl : mined = block := by
    obtain ⟨pending, ids, r, hsel, hfound⟩ := hb
    obtain ⟨pending', ids', r', hsel', hfound'⟩ := hmines
    cases hsel.symm.trans hsel'
    cases hfound.symm.trans hfound'
    rfl
  have hok := hmined.accepted
  refine ⟨hok, ?_⟩
  obtain ⟨height, happ, -⟩ := hc.applied_on_tip mined hok htip.unknown htip.prev
  obtain ⟨coinbase, rest, htxs, -, hothers, -⟩ := applyBlock_split _ _ mined height happ
  obtain ⟨-, rfl⟩ := List.cons.inj (hmined.transactions.symm.trans htxs)
  have hgone : ∀ txid ∈ entries.map Prod.fst, (s.acceptBlock mined).1.mempool.get txid = none := by
    intro txid htxid
    obtain ⟨entry, he, rfl⟩ := List.mem_map.mp htxid
    have hp := (HashMap.mem_iter s.mempool entry.1 entry.2).mp (hmined.pending.subset he)
    have hmem : entry.2 ∈ entries.map Prod.snd := List.mem_map_of_mem he
    have hinputs : entry.2.spends ≠ [] := by
      intro hnil
      apply hothers entry.2 hmem
      rw [Transaction.isCoinbase_iff]
      exact List.map_eq_nil_iff.mp hnil
    obtain ⟨o, ho⟩ := List.exists_mem_of_ne_nil _ hinputs
    have htouch : mined.Touches entry.2 := by
      refine ⟨entry.2, ?_, o, ho, ho⟩
      rw [htxs]
      exact List.mem_cons_of_mem _ hmem
    have hlost := (hc.acceptBlock_pending mined hok (.inr htip) hp).not.mpr
      (not_not.mpr ⟨htip.moves hc.sound hok, htouch⟩)
    rw [Option.eq_none_iff_forall_ne_some]
    intro tx htx
    obtain rfl := Option.some.inj (hp.symm.trans (hc.sound.acceptBlock_before mined hok htx))
    exact hlost htx
  have hpool : (s.acceptBlock mined).1.mempool.removeMany (entries.map Prod.fst) =
      (s.acceptBlock mined).1.mempool := by
    refine HashMap.ext _ _ fun txid => ?_
    rw [Mempool.removeMany, HashMap.get_removeAll]
    split_ifs with hin
    · exact (hgone txid hin).symm
    · rfl
  rw [hmined.state, hpool]

theorem Lives.complete {e : PoolEvent} {s' : NodeState} (h : s.Lives e s') (hc : s.Complete) :
    s'.Complete := by
  cases h with
  | submitTransaction tx => exact hc.submitTransaction tx
  | submitPayment keys change recipient amount uniqueness tx hb =>
    rw [submitPayment_of_ok hb]
    exact hc.submitTransaction tx
  | unpaid keys change recipient amount uniqueness fault hb =>
    rw [submitPayment_of_error hb]
    exact hc
  | acceptBlock block hok htip => exact hc.acceptBlock block hok
  | mineBlock subsidy key uniqueness bits maxTransactions block _ h hm hb htip =>
    obtain ⟨hok, rfl⟩ := hc.mineBlock_eq hm hb htip
    exact hc.acceptBlock block hok

theorem Lives.pending {e : PoolEvent} {s' : NodeState} (h : s.Lives e s') (hc : s.Complete)
    {txid : Txid} {tx : Transaction} (hp : s.mempool.get txid = some tx) :
    s'.mempool.get txid = some tx ↔ ¬ s.Displaces tx e := by
  cases h with
  | submitTransaction t => exact hc.sound.submitTransaction_pending t hp
  | submitPayment keys change recipient amount uniqueness t hb =>
    rw [submitPayment_of_ok hb]
    exact hc.sound.submitTransaction_pending t hp
  | unpaid keys change recipient amount uniqueness fault hb =>
    rw [submitPayment_of_error hb]
    exact iff_of_true hp fun h => h
  | acceptBlock block hok htip => exact hc.acceptBlock_pending block hok htip hp
  | mineBlock subsidy key uniqueness bits maxTransactions block _ h hm hb htip =>
    obtain ⟨hok, rfl⟩ := hc.mineBlock_eq hm hb htip
    exact hc.acceptBlock_pending block hok (.inr htip) hp

/-- The transaction is submitted in this step. -/
def PoolEvent.Submits (e : PoolEvent) (txid : Txid) : Prop :=
  ∃ t, e = .submitted t ∧ t.id = txid

theorem Lives.before {e : PoolEvent} {s' : NodeState} (h : s.Lives e s') (hc : s.Complete)
    {txid : Txid} (hsub : ¬ e.Submits txid) {tx : Transaction}
    (hp : s'.mempool.get txid = some tx) : s.mempool.get txid = some tx := by
  cases h with
  | submitTransaction t =>
    exact hc.sound.submitTransaction_before t (fun hid => hsub ⟨t, rfl, hid⟩) hp
  | submitPayment keys change recipient amount uniqueness t hb =>
    rw [submitPayment_of_ok hb] at hp
    exact hc.sound.submitTransaction_before t (fun hid => hsub ⟨t, rfl, hid⟩) hp
  | unpaid keys change recipient amount uniqueness fault hb =>
    rw [submitPayment_of_error hb] at hp
    exact hp
  | acceptBlock block hok htip => exact hc.sound.acceptBlock_before block hok hp
  | mineBlock subsidy key uniqueness bits maxTransactions block _ h hm hb htip =>
    obtain ⟨hok, rfl⟩ := hc.mineBlock_eq hm hb htip
    exact hc.sound.acceptBlock_before block hok hp

/-- Steps one after the other, each with the state it starts from. -/
inductive LifeRun : NodeState → List (NodeState × PoolEvent) → NodeState → Prop
  | nil (s : NodeState) : LifeRun s [] s
  | cons {s s' s'' : NodeState} {e : PoolEvent} {rest : List (NodeState × PoolEvent)}
      (h : s.Lives e s') (hrest : LifeRun s' rest s'') : LifeRun s ((s, e) :: rest) s''

theorem LifeRun.before {s s' : NodeState} {steps : List (NodeState × PoolEvent)}
    (h : LifeRun s steps s') (hc : s.Complete) {txid : Txid}
    (hsub : ∀ step ∈ steps, ¬ step.2.Submits txid) {tx : Transaction}
    (hp : s'.mempool.get txid = some tx) : s.mempool.get txid = some tx := by
  induction h with
  | nil s => exact hp
  | cons hstep _ ih =>
    obtain ⟨hfirst, hrest⟩ := List.forall_mem_cons.mp hsub
    exact hstep.before hc hfirst (ih (hstep.complete hc) hrest hp)

/-- The life of a pending transaction: while blocks only go on the best tip or beside it, a
transaction that is pending and is not submitted again is pending at the end exactly if no step on
the way displaced it, be it a block on the tip that spends one of its coins or a submission that
replaces or evicts it. -/
theorem pending_until_displaced (s s' : NodeState) (hr : s.OkReachable)
    (steps : List (NodeState × PoolEvent)) (hrun : LifeRun s steps s') (txid : Txid)
    (tx : Transaction) (hp : s.mempool.get txid = some tx)
    (hsub : ∀ step ∈ steps, ¬ step.2.Submits txid) :
    s'.mempool.get txid = some tx ↔ ∀ step ∈ steps, ¬ step.1.Displaces tx step.2 := by
  have hc := hr.complete
  clear hr
  induction hrun with
  | nil s => exact iff_of_true hp (by simp)
  | @cons s s₁ s₂ e rest hstep hrest ih =>
    obtain ⟨hfirst, hlater⟩ := List.forall_mem_cons.mp hsub
    rw [List.forall_mem_cons]
    by_cases hkept : s₁.mempool.get txid = some tx
    · have hfree := (hstep.pending hc hp).mp hkept
      exact (ih hkept hlater (hstep.complete hc)).trans (and_iff_right hfree).symm
    · have hdisplaced := (hstep.pending hc hp).not.mp hkept
      refine iff_of_false (fun hend => ?_) fun h => hdisplaced h.1
      exact hkept (hrest.before (hstep.complete hc) hlater hend)

end NodeState

end Life

namespace NodeState

section SampleLife

attribute [local instance] takeCrypto sampleProfile

/-- The second take replaces the first. -/
def replaced : NodeState := (takePending.submitTransaction secondTake).1

/-- A payment of more than there is. -/
def declined : NodeState := (replaced.submitPayment [sampleKey] sampleKey sampleKey 200 0).1

theorem nextBlock_onTip : declined.OnTip nextBlock where
  unknown := by decide +kernel
  prev := by decide +kernel
  newIds := by
    have hall : ∀ o x, declined.activeUtxos.get o = some x → ∀ tx ∈ nextBlock.transactions,
        o.txid ≠ tx.id :=
      (HashMap.forall_get_iff _).mpr (by decide +kernel)
    intro tx htx o hid
    rw [Option.eq_none_iff_forall_ne_some]
    intro x hx
    exact hall o x hx tx htx hid

def lifeSteps : List (NodeState × PoolEvent) :=
  [(takePending, .submitted secondTake), (replaced, .unpaid), (declined, .added nextBlock)]

theorem lifeSteps_run : LifeRun takePending lifeSteps (declined.acceptBlock nextBlock).1 := by
  refine .cons (.submitTransaction secondTake) (.cons (.unpaid [sampleKey] sampleKey sampleKey 200 0
    (.err (.insufficientFunds 200 100)) ?_) (.cons (.acceptBlock nextBlock ?_ (.inr nextBlock_onTip))
    (.nil _)))
  · decide +kernel
  · decide +kernel

/-- Of three pending transactions one is replaced, one is confirmed, and one is left. -/
theorem changeTake_survives :
    (declined.acceptBlock nextBlock).1.mempool.get changeTake.id = some changeTake ∧
    (∀ step ∈ lifeSteps, ¬ step.1.Displaces changeTake step.2) ∧
    (∃ step ∈ lifeSteps, step.1.Displaces firstTake step.2) ∧
    (declined.acceptBlock nextBlock).1.mempool.get samplePending.id ≠ some samplePending := by
  have hsub : ∀ id, secondTake.id ≠ id → ∀ step ∈ lifeSteps, ¬ step.2.Submits id := by
    intro id hne step hstep h
    obtain ⟨t, ht, hid⟩ := h
    simp only [lifeSteps, List.mem_cons, List.not_mem_nil, or_false] at hstep
    rcases hstep with rfl | rfl | rfl
    · cases ht
      exact hne hid
    · cases ht
    · cases ht
  have hlife := fun tx hp hne => pending_until_displaced takePending _ takePending_okReachable
    lifeSteps lifeSteps_run (Transaction.id tx) tx hp (hsub _ hne)
  have hleft : (declined.acceptBlock nextBlock).1.mempool.get changeTake.id = some changeTake := by
    decide +kernel
  refine ⟨hleft, (hlife changeTake (by decide +kernel) (by decide +kernel)).mp hleft, ?_, ?_⟩
  · have hgone := (hlife firstTake (by decide +kernel) (by decide +kernel)).not.mp (by decide +kernel)
    push Not at hgone
    exact hgone
  · intro hkept
    have hnone := (hlife samplePending (by decide +kernel) (by decide +kernel)).mp hkept
      (declined, .added nextBlock) (by simp [lifeSteps])
    refine hnone ⟨by decide +kernel, samplePending, ?_⟩
    decide +kernel

end SampleLife

end NodeState

end Wobble
