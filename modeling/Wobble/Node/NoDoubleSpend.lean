import Wobble.Framework.SpendLog
import Wobble.Ledger.Spending
import Wobble.Node.Reorg

namespace Wobble

open Rust SpendLog

/-- The transactions of a chain in the order they are applied, each with its block's height. -/
def placed : Nat → List Block → List (Nat × Transaction)
  | _, [] => []
  | height, block :: rest =>
    (applicationOrder block.transactions).map (Prod.mk height) ++ placed (height + 1) rest

theorem getElem?_of_take {α : Type} (l : List α) (n m : Nat) (a : α)
    (h : (l.take n)[m]? = some a) : m < n ∧ l[m]? = some a := by
  rw [List.getElem?_take] at h
  split_ifs at h with hm
  exact ⟨hm, h⟩

theorem placed_append (height : Nat) (bs bs' : List Block) :
    placed height (bs ++ bs') = placed height bs ++ placed (height + bs.length) bs' := by
  induction bs generalizing height with
  | nil => rfl
  | cons b bs ih =>
    rw [List.cons_append, placed, placed, ih, List.append_assoc, List.length_cons,
      Nat.add_assoc, Nat.add_comm 1]

theorem placed_perm (height : Nat) (bs : List Block) :
    ((placed height bs).map Prod.snd).Perm (bs.flatMap Block.transactions) := by
  induction bs generalizing height with
  | nil => exact .nil
  | cons b bs ih =>
    rw [placed, List.map_append, List.map_map, List.flatMap_cons]
    refine List.Perm.append ?_ (ih (height + 1))
    simpa [Function.comp_def] using applicationOrder_perm b.transactions

theorem mem_placed (height i : Nat) (tx : Transaction) (bs : List Block) :
    (i, tx) ∈ placed height bs ↔
      ∃ k b, i = height + k ∧ bs[k]? = some b ∧ tx ∈ b.transactions := by
  induction bs generalizing height with
  | nil => simp [placed]
  | cons b bs ih =>
    rw [placed, List.mem_append, ih, List.mem_map]
    constructor
    · intro h
      rcases h with ⟨t, ht, he⟩ | ⟨k, b', rfl, hb', ht⟩
      · obtain ⟨rfl, rfl⟩ := Prod.mk.inj he
        exact ⟨0, b, rfl, rfl, (applicationOrder_perm _).mem_iff.mp ht⟩
      · exact ⟨k + 1, b', by omega, by simpa using hb', ht⟩
    · intro h
      obtain ⟨k, b', hi, hb', ht⟩ := h
      cases k with
      | zero =>
        obtain rfl : b = b' := by simpa using hb'
        exact .inl ⟨tx, (applicationOrder_perm _).mem_iff.mpr ht, by rw [hi]; rfl⟩
      | succ k => exact .inr ⟨k, b', by omega, by simpa using hb', ht⟩

/-- The log up to a transaction that is not a coinbase: the earlier blocks, then the
transactions between it and the coinbase. -/
theorem placed_split (bs : List Block) (i k : Nat) (b : Block) (tx coinbase : Transaction)
    (rest : List Transaction) (hb : bs[i]? = some b) (ht : b.transactions = coinbase :: rest)
    (hk : rest[k]? = some tx) :
    ∃ after, placed 0 bs =
      (placed 0 (bs.take i) ++ (rest.take k).map (Prod.mk i)) ++ (i, tx) :: after := by
  obtain ⟨hi, hbi⟩ := List.getElem?_eq_some_iff.mp hb
  obtain ⟨hkl, htk⟩ := List.getElem?_eq_some_iff.mp hk
  have hbs : bs = bs.take i ++ b :: bs.drop (i + 1) := by
    rw [← hbi, List.cons_getElem_drop_succ, List.take_append_drop]
  have hrest : rest = rest.take k ++ tx :: rest.drop (k + 1) := by
    rw [← htk, List.cons_getElem_drop_succ, List.take_append_drop]
  have hlen : (bs.take i).length = i := by
    rw [List.length_take]
    omega
  have hplaced : placed 0 bs = placed 0 (bs.take i) ++
      ((rest ++ [coinbase]).map (Prod.mk i) ++ placed (i + 1) (bs.drop (i + 1))) := by
    conv_lhs => rw [hbs, placed_append, hlen, Nat.zero_add, placed, ht]
    rfl
  have horder : (rest ++ [coinbase]).map (Prod.mk i) =
      (rest.take k).map (Prod.mk i) ++
        (i, tx) :: ((rest.drop (k + 1) ++ [coinbase]).map (Prod.mk i)) := by
    conv_lhs => rw [hrest]
    simp
  rw [hplaced, horder]
  exact ⟨(rest.drop (k + 1) ++ [coinbase]).map (Prod.mk i) ++ placed (i + 1) (bs.drop (i + 1)),
    by simp [List.append_assoc]⟩

/-- What the log holds before it, by block and by place in the block. -/
theorem mem_before (bs : List Block) (i k : Nat) (b : Block) (coinbase : Transaction)
    (rest : List Transaction) (hb : bs[i]? = some b) (ht : b.transactions = coinbase :: rest)
    (p : Nat × Transaction)
    (hp : p ∈ placed 0 (bs.take i) ++ (rest.take k).map (Prod.mk i)) :
    ∃ i' j' b', bs[i']? = some b' ∧ b'.transactions[j']? = some p.2 ∧
      (i' < i ∨ i' = i ∧ 0 < j' ∧ j' < k + 1) := by
  rcases List.mem_append.mp hp with hp | hp
  · obtain ⟨m, b', -, hb', ht'⟩ := (mem_placed 0 p.1 p.2 _).mp hp
    obtain ⟨hm, hb'⟩ := getElem?_of_take _ _ _ _ hb'
    obtain ⟨j', hj'⟩ := List.getElem?_of_mem ht'
    exact ⟨m, j', b', hb', hj', .inl hm⟩
  · obtain ⟨tx', ht', rfl⟩ := List.mem_map.mp hp
    obtain ⟨m, hm'⟩ := List.getElem?_of_mem ht'
    obtain ⟨hm, hm'⟩ := getElem?_of_take _ _ _ _ hm'
    exact ⟨i, m + 1, b, hb, by simpa [ht] using hm',
      .inr ⟨rfl, Nat.succ_pos m, Nat.succ_lt_succ hm⟩⟩

section Log

variable [Crypto]

def Transaction.entry (height : Nat) (tx : Transaction) : Entry OutPoint Utxo :=
  ⟨tx.spends, tx.created height⟩

def logOf (txs : List (Nat × Transaction)) : List (Entry OutPoint Utxo) :=
  txs.map fun p => p.2.entry p.1

theorem spendable_of_valid (utxos : UtxoSet) (tx : Transaction) (height : Nat)
    (hv : utxos.Valid tx) : Spendable utxos (tx.entry height) :=
  ⟨hv.nodup, hv.held⟩

theorem applicable_of_allValid (height : Nat) (utxos : UtxoSet) (txs : List Transaction)
    (hv : UtxoSet.AllValid height utxos txs) :
    Applicable utxos (logOf (txs.map (Prod.mk height))) ∧
      applyAll utxos (logOf (txs.map (Prod.mk height))) = utxos.afterAll height txs := by
  induction txs generalizing utxos with
  | nil => exact ⟨trivial, rfl⟩
  | cons tx rest ih =>
    obtain ⟨hvalid, -, hrest⟩ := hv
    obtain ⟨ha, heq⟩ := ih (utxos.after tx height) hrest
    exact ⟨⟨spendable_of_valid utxos tx height hvalid, ha⟩, heq⟩

theorem applicable_of_applyBlock (height : Nat) (utxos utxos' : UtxoSet) (block : Block)
    (h : applyBlock utxos block height = .ok utxos') :
    Applicable utxos (logOf ((applicationOrder block.transactions).map (Prod.mk height))) ∧
      applyAll utxos (logOf ((applicationOrder block.transactions).map (Prod.mk height))) =
        utxos' := by
  obtain ⟨coinbase, rest, htxs, happ⟩ :=
    (applyBody_eq_ok _ _ _ _).mp ((applyBlock_eq_ok _ _ _ _).mp h).2
  obtain ⟨ha, heq⟩ := applicable_of_allValid height utxos rest happ.valid
  have hlast := spendable_of_valid _ coinbase height happ.coinbaseValid
  rw [htxs, applicationOrder, List.map_append, logOf, List.map_append, applicable_append,
    applyAll_append]
  change (Applicable utxos (logOf (rest.map (Prod.mk height))) ∧ _) ∧ _
  refine ⟨⟨ha, ?_, trivial⟩, ?_⟩
  · change Spendable (applyAll utxos (logOf (rest.map (Prod.mk height)))) (coinbase.entry height)
    rw [heq]
    exact hlast
  · change SpendLog.apply (applyAll utxos (logOf (rest.map (Prod.mk height))))
      (coinbase.entry height) = utxos'
    rw [heq, happ.result]
    rfl

/-- A chain that applies is a log that applies, with the same result. -/
theorem applicable_of_applyFrom (height : Nat) (utxos utxos' : UtxoSet) (bs : List Block)
    (h : applyFrom height utxos bs = .ok utxos') :
    Applicable utxos (logOf (placed height bs)) ∧
      applyAll utxos (logOf (placed height bs)) = utxos' ∧
      ∀ b ∈ bs, validateBlock b = .ok () := by
  induction bs generalizing height utxos with
  | nil => exact ⟨trivial, Except.ok.inj h, by simp⟩
  | cons b bs ih =>
    obtain ⟨u, hb, h⟩ := (Res.bind_eq_ok _ _ _).mp h
    obtain ⟨ha, heq⟩ := applicable_of_applyBlock height utxos u b hb
    obtain ⟨harest, heqrest, hval⟩ := ih (height + 1) u h
    rw [placed, logOf, List.map_append, applicable_append, applyAll_append]
    change (Applicable utxos (logOf _) ∧ Applicable (applyAll utxos (logOf _)) (logOf _)) ∧
      applyAll (applyAll utxos (logOf _)) (logOf _) = utxos' ∧ _
    rw [heq]
    exact ⟨⟨ha, harest⟩, heqrest,
      List.forall_mem_cons.mpr ⟨((applyBlock_eq_ok _ _ _ _).mp hb).1, hval⟩⟩

/-- Distinct ids create distinct outpoints. -/
theorem created_nodup (txs : List (Nat × Transaction)) (hf : ∀ p ∈ txs, p.2.Fits true)
    (hn : (txs.map fun p => p.2.id).Nodup) : ((created (logOf txs)).map Prod.fst).Nodup := by
  have hkeys : (created (logOf txs)).map Prod.fst =
      txs.flatMap fun p => (p.2.created p.1).map Prod.fst := by
    rw [created, logOf, List.flatMap_map, List.map_flatMap]
    rfl
  rw [hkeys, List.nodup_flatMap]
  constructor
  · intro p hp
    exact p.2.created_keys_nodup p.1 (hf p hp)
  · rw [List.Nodup, List.pairwise_map] at hn
    refine hn.imp_of_mem ?_
    intro p q hp hq hne o ho ho'
    obtain ⟨⟨_, u⟩, hu, rfl⟩ := List.mem_map.mp ho
    obtain ⟨⟨_, u'⟩, hu', he⟩ := List.mem_map.mp ho'
    have h1 := ((p.2.mem_created p.1 (hf p hp) _ _).mp hu).1
    have h2 := ((q.2.mem_created q.1 (hf q hq) _ _).mp hu').1
    exact hne (h1.symm.trans ((congrArg OutPoint.txid he).symm.trans h2))

theorem mem_created_logOf (txs : List (Nat × Transaction)) (hf : ∀ p ∈ txs, p.2.Fits true)
    (o : OutPoint) (u : Utxo) :
    (o, u) ∈ created (logOf txs) ↔ ∃ p ∈ txs, p.2.id = o.txid ∧
      ∃ output, p.2.outputs[o.vout.toNat]? = some output ∧
        u = ⟨o, output, p.1, p.2.isCoinbase⟩ := by
  rw [created, logOf, List.flatMap_map, List.mem_flatMap]
  refine exists_congr fun p => and_congr_right fun hp => ?_
  exact (p.2.mem_created p.1 (hf p hp) o u).trans (and_congr_left' eq_comm)

/-- In a valid block the first transaction is the coinbase, and no other is. -/
theorem isCoinbase_eq (b : Block) (hv : validateBlock b = .ok ()) (j : Nat) (tx : Transaction)
    (ht : b.transactions[j]? = some tx) : tx.isCoinbase = (j == 0) := by
  obtain ⟨-, coinbase, rest, hok⟩ := (validateBlock_eq_ok b).mp hv
  rw [hok.transactions] at ht
  cases j with
  | zero =>
    obtain rfl : coinbase = tx := by simpa using ht
    exact (Transaction.isCoinbase_iff _).mpr hok.coinbase
  | succ j =>
    have hmem : tx ∈ rest := List.mem_of_getElem? (by simpa using ht)
    refine Bool.eq_false_of_not_eq_true fun hc => ?_
    exact hok.others tx hmem ((Transaction.isCoinbase_iff tx).mp hc)

end Log

/-- Every outpoint the inputs of a chain reference. -/
def spentOn (bs : List Block) : List OutPoint :=
  (bs.flatMap Block.transactions).flatMap Transaction.spends

/-- The view `u` holds what the chain `bs` created and did not spend, and nothing on the chain
is spent twice or too early. -/
structure ChainAccounts [Crypto] (bs : List Block) (u : UtxoSet) : Prop where
  once : (spentOn bs).Nodup
  earlier : ∀ (i j : Nat) (b : Block) (tx : Transaction) (o : OutPoint),
    bs[i]? = some b → b.transactions[j]? = some tx → o ∈ tx.spends →
    ∃ (i' j' : Nat) (b' : Block) (tx' : Transaction),
      bs[i']? = some b' ∧ b'.transactions[j']? = some tx' ∧ tx'.id = o.txid ∧
      o.vout.toNat < tx'.outputs.length ∧ (i' < i ∨ i' = i ∧ 0 < j' ∧ j' < j)
  unspent : ∀ (o : OutPoint) (x : Utxo), u.get o = some x ↔ o ∉ spentOn bs ∧
    ∃ (i j : Nat) (b : Block) (tx : Transaction) (output : TxOut),
      bs[i]? = some b ∧ b.transactions[j]? = some tx ∧ tx.id = o.txid ∧
      tx.outputs[o.vout.toNat]? = some output ∧ x = ⟨o, output, i, j == 0⟩

section Accounts

variable [Crypto]

theorem spent_logOf_perm (bs : List Block) :
    (spent (logOf (placed 0 bs))).Perm (spentOn bs) := by
  have hspent : spent (logOf (placed 0 bs)) =
      ((placed 0 bs).map Prod.snd).flatMap Transaction.spends := by
    rw [spent, logOf, List.flatMap_map, List.flatMap_map]
    rfl
  rw [hspent]
  exact (placed_perm 0 bs).flatMap_right _

theorem fits_of_valid (bs : List Block) (hval : ∀ b ∈ bs, validateBlock b = .ok ())
    (p : Nat × Transaction) (hp : p ∈ placed 0 bs) : p.2.Fits true := by
  obtain ⟨k, b, -, hb, ht⟩ := (mem_placed 0 p.1 p.2 bs).mp hp
  obtain ⟨-, coinbase, rest, hok⟩ :=
    (validateBlock_eq_ok b).mp (hval b (List.mem_of_getElem? hb))
  exact hok.fits p.2 ht

theorem ids_nodup (bs : List Block)
    (hd : (bs.flatMap fun b => b.transactions.map Transaction.id).Nodup) :
    ((placed 0 bs).map fun p => p.2.id).Nodup := by
  have hids : (bs.flatMap fun b => b.transactions.map Transaction.id) =
      (bs.flatMap Block.transactions).map Transaction.id := by rw [List.map_flatMap]
  rw [hids] at hd
  have hperm := (placed_perm 0 bs).map Transaction.id
  rw [List.map_map] at hperm
  exact hperm.nodup_iff.mpr hd

/-- What a spending transaction needs stands before it in the log. -/
theorem created_earlier (bs : List Block) (i k : Nat) (b : Block) (tx coinbase : Transaction)
    (rest : List Transaction) (o : OutPoint)
    (happ : Applicable HashMap.new (logOf (placed 0 bs)))
    (hfits : ∀ p ∈ placed 0 bs, p.2.Fits true)
    (hnodup : ((created (logOf (placed 0 bs))).map Prod.fst).Nodup) (hb : bs[i]? = some b)
    (ht : b.transactions = coinbase :: rest) (hk : rest[k]? = some tx) (ho : o ∈ tx.spends) :
    ∃ p ∈ placed 0 (bs.take i) ++ (rest.take k).map (Prod.mk i),
      p.2.id = o.txid ∧ o.vout.toNat < p.2.outputs.length := by
  obtain ⟨after, hsplit⟩ := placed_split bs i k b tx coinbase rest hb ht hk
  have hbefore : ∀ p ∈ placed 0 (bs.take i) ++ (rest.take k).map (Prod.mk i),
      p.2.Fits true := fun p hp => hfits p (hsplit ▸ List.mem_append_left _ hp)
  have hlog : logOf (placed 0 bs) =
      logOf (placed 0 (bs.take i) ++ (rest.take k).map (Prod.mk i)) ++
        tx.entry i :: logOf after := by
    rw [hsplit, logOf, List.map_append, List.map_cons]
    rfl
  rw [hlog] at happ hnodup
  obtain ⟨v, hv⟩ := created_before _ _ _ happ hnodup o ho
  obtain ⟨p, hp, hid, output, hout, -⟩ := (mem_created_logOf _ hbefore o v).mp hv
  exact ⟨p, hp, hid, (List.getElem?_eq_some_iff.mp hout).1⟩

/-- The records a valid chain creates, by block and by place in the block. -/
theorem mem_created_placed (bs : List Block) (hval : ∀ b ∈ bs, validateBlock b = .ok ())
    (o : OutPoint) (x : Utxo) :
    (o, x) ∈ created (logOf (placed 0 bs)) ↔
      ∃ (i j : Nat) (b : Block) (tx : Transaction) (output : TxOut),
        bs[i]? = some b ∧ b.transactions[j]? = some tx ∧ tx.id = o.txid ∧
        tx.outputs[o.vout.toNat]? = some output ∧ x = ⟨o, output, i, j == 0⟩ := by
  rw [mem_created_logOf _ (fits_of_valid bs hval)]
  constructor
  · intro h
    obtain ⟨p, hp, hid, output, hout, hx⟩ := h
    obtain ⟨i, b, hi, hb, ht⟩ := (mem_placed 0 p.1 p.2 bs).mp hp
    obtain ⟨j, hj⟩ := List.getElem?_of_mem ht
    have hcb := isCoinbase_eq b (hval b (List.mem_of_getElem? hb)) j p.2 hj
    rw [hi, Nat.zero_add, hcb] at hx
    exact ⟨i, j, b, p.2, output, hb, hj, hid, hout, hx⟩
  · intro h
    obtain ⟨i, j, b, tx, output, hb, hj, hid, hout, hx⟩ := h
    have hcb := isCoinbase_eq b (hval b (List.mem_of_getElem? hb)) j tx hj
    rw [← hcb] at hx
    exact ⟨(i, tx), (mem_placed 0 i tx bs).mpr
      ⟨i, b, (Nat.zero_add i).symm, hb, List.mem_of_getElem? hj⟩, hid, output, hout, hx⟩

theorem chainAccounts (bs : List Block) (u : UtxoSet) (h : applyChain bs = .ok u)
    (hd : (bs.flatMap fun b => b.transactions.map Transaction.id).Nodup) :
    ChainAccounts bs u := by
  obtain ⟨happ, heq, hval⟩ := applicable_of_applyFrom 0 HashMap.new u bs h
  have hfits := fits_of_valid bs hval
  have hnodup := created_nodup (placed 0 bs) hfits (ids_nodup bs hd)
  have hacc := accounts (logOf (placed 0 bs)) happ hnodup
  have hperm := spent_logOf_perm bs
  refine ⟨hperm.nodup_iff.mp hacc.once, ?_, ?_⟩
  · intro i j b tx o hb ht ho
    obtain ⟨-, coinbase, rest, hok⟩ :=
      (validateBlock_eq_ok b).mp (hval b (List.mem_of_getElem? hb))
    cases j with
    | zero =>
      -- the coinbase has no inputs
      obtain rfl : coinbase = tx := by simpa [hok.transactions] using ht
      rw [Transaction.spends, hok.coinbase] at ho
      cases ho
    | succ k =>
      have hk : rest[k]? = some tx := by simpa [hok.transactions] using ht
      obtain ⟨p, hp, hid, hlt⟩ :=
        created_earlier bs i k b tx coinbase rest o happ hfits hnodup hb hok.transactions hk ho
      obtain ⟨i', j', b', hb', ht', hbefore⟩ :=
        mem_before bs i k b coinbase rest hb hok.transactions p hp
      exact ⟨i', j', b', p.2, hb', ht', hid, hlt, hbefore⟩
  · intro o x
    rw [← heq, hacc.held, hperm.mem_iff, mem_created_placed bs hval, and_comm]

/-- On every branch of distinct transactions nothing is spent twice, and the view at its end
is exactly what was created and not spent. -/
theorem NodeState.branch_accounts (s : NodeState) (hr : s.OkReachable) (h : BlockHash)
    (bs : List Block) (u : UtxoSet) (hb : s.Branch h bs) (hu : s.utxoSnapshots.get h = some u)
    (hd : (bs.flatMap fun b => b.transactions.map Transaction.id).Nodup) :
    ChainAccounts bs u := by
  have hs := hr.complete.sound
  obtain ⟨e, -, -, he, -⟩ := hs.views h u hu
  exact chainAccounts bs u (hs.view_eq_applyChain h bs hb e u he hu).1 hd

end Accounts

section SampleAccounts

attribute [local instance] NodeState.sampleCrypto

theorem NodeState.sampleState_accounts :
    ChainAccounts [sampleGenesis, sampleBlock] sampleState.activeUtxos :=
  branch_accounts sampleState sampleState_okReachable sampleBlock.header.blockHash _ _
    sampleState_branch (by decide +kernel) (by decide +kernel)

end SampleAccounts

end Wobble
