import Wobble.Ledger.Supply
import Wobble.Node.Ownership

namespace Wobble

open Rust

namespace UtxoSet

variable [Crypto]

/-- The value a transaction overwrites: what is held, once its inputs are gone, under the
outpoints it creates. -/
def overwrittenBy (utxos : UtxoSet) (tx : Transaction) (height : Nat) : Nat :=
  ((tx.created height).map fun coin =>
    ((utxos.removeAll tx.spends).get coin.1).elim 0 fun u => u.output.value.toNat).sum

/-- The value a list of transactions overwrites, each on the set it is applied to. -/
def overwritten (height : Nat) : UtxoSet → List Transaction → Nat
  | _, [] => 0
  | utxos, tx :: rest =>
    utxos.overwrittenBy tx height + overwritten height (utxos.after tx height) rest

theorem overwritten_append (height : Nat) (utxos : UtxoSet) (txs txs' : List Transaction) :
    overwritten height utxos (txs ++ txs') =
      overwritten height utxos txs + overwritten height (utxos.afterAll height txs) txs' := by
  induction txs generalizing utxos with
  | nil => exact (Nat.zero_add _).symm
  | cons tx rest ih =>
    rw [List.cons_append, overwritten, overwritten, ih, Nat.add_assoc]
    rfl

theorem after_totalValue (utxos : UtxoSet) (tx : Transaction) (height : Nat)
    (hv : utxos.Valid tx) (hf : tx.Fits true) :
    (utxos.after tx height).totalValue + utxos.inputTotal tx + utxos.overwrittenBy tx height =
      utxos.totalValue + tx.outputTotal := by
  have hrem := HashMap.total_removeAll (fun u : Utxo => u.output.value.toNat) utxos tx.spends
    hv.nodup hv.held
  have hins := HashMap.total_insertAll (fun u : Utxo => u.output.value.toNat)
    (utxos.removeAll tx.spends) (tx.created height) (tx.created_keys_nodup height hf)
  rw [tx.created_values] at hins
  change _ + utxos.inputTotal tx = utxos.totalValue at hrem
  change (utxos.after tx height).totalValue + utxos.overwrittenBy tx height = _ at hins
  omega

theorem afterAll_totalValue (height : Nat) (txs : List Transaction) (utxos : UtxoSet)
    (hv : AllValid height utxos txs) (hi : ∀ tx ∈ txs, tx.inputs ≠ []) :
    (afterAll height utxos txs).totalValue + feesOf height utxos txs +
      overwritten height utxos txs = utxos.totalValue := by
  induction txs generalizing utxos with
  | nil => rfl
  | cons tx rest ih =>
    obtain ⟨hvt, hf, hvr⟩ := hv
    obtain ⟨hit, hir⟩ := List.forall_mem_cons.mp hi
    have hstep := utxos.after_totalValue tx height hvt hf
    have hrest := ih (utxos.after tx height) hvr hir
    have hcov := (hvt.spends.resolve_left hit).covered
    change (afterAll height (utxos.after tx height) rest).totalValue +
      (utxos.feeOf tx + feesOf height (utxos.after tx height) rest) +
      (utxos.overwrittenBy tx height + overwritten height (utxos.after tx height) rest) = _
    rw [feeOf]
    omega

/-- Nothing is overwritten by transactions whose ids are new and different. -/
theorem overwritten_eq_zero (height : Nat) (txs : List Transaction) (utxos : UtxoSet)
    (hf : ∀ tx ∈ txs, tx.Fits true) (hn : (txs.map Transaction.id).Nodup)
    (hnew : ∀ tx ∈ txs, ∀ o : OutPoint, o.txid = tx.id → utxos.get o = none) :
    overwritten height utxos txs = 0 := by
  induction txs generalizing utxos with
  | nil => rfl
  | cons tx rest ih =>
    obtain ⟨hft, hfr⟩ := List.forall_mem_cons.mp hf
    obtain ⟨hnt, hnr⟩ := List.forall_mem_cons.mp hnew
    obtain ⟨hid, hids⟩ := List.nodup_cons.mp hn
    have hfirst : utxos.overwrittenBy tx height = 0 := by
      refine List.sum_eq_zero fun v hv => ?_
      obtain ⟨coin, hc, rfl⟩ := List.mem_map.mp hv
      obtain ⟨htxid, -⟩ := (tx.mem_created height hft coin.1 coin.2).mp hc
      rw [HashMap.get_removeAll, hnt coin.1 htxid, ite_self, Option.elim_none]
    have hrest : overwritten height (utxos.after tx height) rest = 0 := by
      refine ih _ hfr hids fun t ht o ho => ?_
      rcases utxos.get_after tx height o with ⟨x, hx, -⟩ | hget
      · obtain ⟨htxid, -⟩ := (tx.mem_created height hft o x).mp hx
        exact absurd (List.mem_map.mpr ⟨t, ht, ho.symm.trans htxid⟩) hid
      · rw [hget, hnr t ht o ho, ite_self]
    rw [overwritten, hfirst, hrest]

/-- An outpoint that no transaction of the list spends keeps its record, unless one of them
makes it anew. -/
theorem get_afterAll_of_unspent (height : Nat) (txs : List Transaction) (utxos : UtxoSet)
    (o : OutPoint) (hf : ∀ tx ∈ txs, tx.Fits true) (hs : ∀ tx ∈ txs, o ∉ tx.spends) :
    (utxos.afterAll height txs).get o = utxos.get o ∨
      ∃ tx ∈ txs, tx.id = o.txid ∧ ∃ output, tx.outputs[o.vout.toNat]? = some output ∧
        (utxos.afterAll height txs).get o = some ⟨o, output, height, tx.isCoinbase⟩ := by
  induction txs generalizing utxos with
  | nil => exact .inl rfl
  | cons tx rest ih =>
    obtain ⟨hft, hfr⟩ := List.forall_mem_cons.mp hf
    obtain ⟨hst, hsr⟩ := List.forall_mem_cons.mp hs
    rcases ih (utxos.after tx height) hfr hsr with hget | ⟨t, ht, hid, output, hout, hget⟩
    · rcases utxos.get_after tx height o with ⟨x, hx, hafter⟩ | hafter
      · obtain ⟨hid, output, hout, rfl⟩ := (tx.mem_created height hft o x).mp hx
        exact .inr ⟨tx, List.mem_cons_self, hid.symm, output, hout, hget.trans hafter⟩
      · rw [if_neg hst] at hafter
        exact .inl (hget.trans hafter)
    · exact .inr ⟨t, List.mem_cons_of_mem _ ht, hid, output, hout, hget⟩

end UtxoSet

section Blocks

variable [Crypto]

/-- The books of an applied block, with what it overwrites. -/
theorem applyBlock_totalValue (utxos utxos' : UtxoSet) (block : Block) (height : Nat)
    (h : applyBlock utxos block height = .ok utxos') :
    ∃ coinbase rest, block.transactions = coinbase :: rest ∧
      utxos'.totalValue + UtxoSet.feesOf height utxos rest +
          UtxoSet.overwritten height utxos (applicationOrder block.transactions) =
        utxos.totalValue + coinbase.outputTotal := by
  obtain ⟨coinbase, rest, htxs, hspends, hothers, happ⟩ :=
    applyBlock_split utxos utxos' block height h
  have hrest := UtxoSet.afterAll_totalValue height rest utxos happ.valid fun tx ht hi =>
    hothers tx ht ((Transaction.isCoinbase_iff tx).mpr hi)
  have hlast := UtxoSet.after_totalValue _ coinbase height happ.coinbaseValid happ.coinbaseFits
  have hinput : (UtxoSet.afterAll height utxos rest).inputTotal coinbase = 0 := by
    rw [UtxoSet.inputTotal, hspends]
    rfl
  refine ⟨coinbase, rest, htxs, ?_⟩
  rw [htxs, applicationOrder, UtxoSet.overwritten_append, happ.result]
  change _ + _ + (_ + (UtxoSet.overwrittenBy _ coinbase height + 0)) = _
  omega

/-- A block whose transaction ids are different from each other and new to the set overwrites
nothing. -/
structure FreshIn (utxos : UtxoSet) (block : Block) : Prop where
  distinct : (block.transactions.map Transaction.id).Nodup
  new : ∀ tx ∈ block.transactions, ∀ o : OutPoint, o.txid = tx.id → utxos.get o = none

theorem FreshIn.overwritten {utxos utxos' : UtxoSet} {block : Block} {height : Nat}
    (hfresh : FreshIn utxos block) (h : applyBlock utxos block height = .ok utxos') :
    UtxoSet.overwritten height utxos (applicationOrder block.transactions) = 0 := by
  have hperm := applicationOrder_perm block.transactions
  refine UtxoSet.overwritten_eq_zero height _ utxos (applyBlock_eq_afterAll _ _ _ _ h).2 ?_ ?_
  · exact (hperm.map Transaction.id).nodup_iff.mpr hfresh.distinct
  · exact fun tx ht => hfresh.new tx (hperm.mem_iff.mp ht)

/-- What a block does to the coins it does not name. -/
structure Undisturbed (s : NodeState) (height : Nat) (block : Block) (utxos utxos' : UtxoSet) :
    Prop where
  /-- A coin that is not referenced stays, unless a transaction of the block has the id of the
  confirmed one that made it; then it is made anew. -/
  kept : ∀ o x, utxos.get o = some x → (∀ tx ∈ block.transactions, o ∉ tx.spends) →
    utxos'.get o = some x ∨ ∃ tx ∈ block.transactions, ∃ output,
      tx.id = o.txid ∧ tx.outputs[o.vout.toNat]? = some output ∧
      utxos'.get o = some ⟨o, output, height, tx.isCoinbase⟩ ∧
      ∃ old ∈ s.confirmed, old.id = tx.id ∧ old.outputs[o.vout.toNat]? = some x.output
  total : ∃ coinbase rest, block.transactions = coinbase :: rest ∧
    utxos'.totalValue + UtxoSet.feesOf height utxos rest +
        UtxoSet.overwritten height utxos (applicationOrder block.transactions) =
      utxos.totalValue + coinbase.outputTotal
  fresh : FreshIn utxos block →
    UtxoSet.overwritten height utxos (applicationOrder block.transactions) = 0 ∧
    ∀ o x, utxos.get o = some x → (∀ tx ∈ block.transactions, o ∉ tx.spends) →
      utxos'.get o = some x

theorem NodeState.coins_undisturbed (s : NodeState) (hr : s.OkReachable) (h : BlockHash)
    (e : ChainIndexEntry) (utxos utxos' : UtxoSet) (block : Block)
    (he : s.chain.get h = some e) (hu : s.utxoSnapshots.get h = some utxos)
    (ha : applyBlock utxos block (e.height + 1) = .ok utxos') :
    Undisturbed s (e.height + 1) block utxos utxos' := by
  obtain ⟨rfl, hfits⟩ := applyBlock_eq_afterAll utxos utxos' block (e.height + 1) ha
  have hmem := fun tx => (applicationOrder_perm block.transactions).mem_iff (a := tx)
  have hcases : ∀ o, (∀ tx ∈ block.transactions, o ∉ tx.spends) → _ := fun o hs =>
    UtxoSet.get_afterAll_of_unspent (e.height + 1) (applicationOrder block.transactions) utxos o
      hfits fun tx ht => hs tx ((hmem tx).mp ht)
  refine ⟨?_, applyBlock_totalValue _ _ _ _ ha, ?_⟩
  · intro o x hx hs
    rcases hcases o hs with hget | ⟨tx, ht, hid, output, hout, hget⟩
    · exact .inl (hget.trans hx)
    · obtain ⟨old, hold, hid', hout'⟩ :=
        hr.complete.sound.confirmed_of_view h e utxos o x he hu hx
      exact .inr ⟨tx, (hmem tx).mp ht, output, hid, hout, hget, old, hold, hid'.trans hid.symm,
        hout'⟩
  · intro hfresh
    refine ⟨hfresh.overwritten ha, fun o x hx hs => ?_⟩
    rcases hcases o hs with hget | ⟨tx, ht, hid, -⟩
    · exact hget.trans hx
    · rw [hfresh.new tx ((hmem tx).mp ht) o hid.symm] at hx
      cases hx

end Blocks

namespace NodeState

/-- A child of genesis that repeats its coinbase and does nothing else. -/
def echoBlock : Block where
  header :=
    { version := 1
      prevBlockhash := ⟨beBytes 32 0x7b19c99f8caab2757d8cb267141745ad2a6556bfeabce6052088a664ea92f5d1⟩
      merkleRoot := beBytes 32 0xac3bfda99da3beb4120b0e4073c483fb09259ed8c73600c01e2c4160fe3f67b5
      time := 0
      bits := 0x207fffff
      nonce := 0 }
  transactions := [sampleCoinbase]

@[reducible] def echoCrypto : Crypto :=
  recordedCrypto (sampleDigests ++ [⟨echoBlock.header.encode,
    0xc65b5e677d52e22e339823ba3004c10e34447d511e05a383fc932366e8487d3e,
    0x20a821214bf306087eb857363abbbe4a444c8e3085f82734e4ebae4ec852f6a0⟩]) sampleSignatures

attribute [local instance] echoCrypto

/-- The second coinbase takes the place of the first, which nobody has spent: the record
changes, and of two rewards of 50 one is left. -/
theorem echoBlock_overwrites :
    (new.acceptBlock sampleGenesis).2 = .ok () ∧
    ((new.acceptBlock sampleGenesis).1.acceptBlock echoBlock).2 = .ok () ∧
    (new.acceptBlock sampleGenesis).1.activeUtxos.get ⟨sampleCoinbase.id, 0⟩ =
      some ⟨⟨sampleCoinbase.id, 0⟩, ⟨50, sampleLock⟩, 0, true⟩ ∧
    (∀ tx ∈ echoBlock.transactions, tx.spends = []) ∧
    ((new.acceptBlock sampleGenesis).1.acceptBlock echoBlock).1.activeUtxos.get
      ⟨sampleCoinbase.id, 0⟩ = some ⟨⟨sampleCoinbase.id, 0⟩, ⟨50, sampleLock⟩, 1, true⟩ ∧
    ((new.acceptBlock sampleGenesis).1.acceptBlock echoBlock).1.activeUtxos.iter.length = 1 := by
  decide +kernel

end NodeState

section SampleFrame

open NodeState (sampleChain sampleBlock sampleGenesis)

attribute [local instance] NodeState.sampleCrypto

/-- The block with one payment on the view of genesis. -/
theorem sampleBlock_undisturbed :
    sampleChain.utxoSnapshots.get sampleGenesis.header.blockHash =
        some sampleChain.activeUtxos ∧
      Undisturbed sampleChain 1 sampleBlock sampleChain.activeUtxos
        (sampleChain.acceptBlock sampleBlock).1.activeUtxos := by
  have hu : sampleChain.utxoSnapshots.get sampleGenesis.header.blockHash =
    some sampleChain.activeUtxos := by decide +kernel
  have he : sampleChain.chain.get sampleGenesis.header.blockHash =
    some ⟨sampleGenesis.header.blockHash, 0, 2, none⟩ := by decide +kernel
  exact ⟨hu, NodeState.coins_undisturbed sampleChain NodeState.sampleChain_okReachable _ _ _ _ sampleBlock he
    hu (by decide +kernel)⟩

end SampleFrame

end Wobble
