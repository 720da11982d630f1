import Wobble.Ledger.Spending
import Wobble.Node.Reorg

namespace Wobble

open Rust

section Collisions

variable [Crypto]

/-- SHA-256 gives different ids to the transactions of the set that differ. -/
def NoCollision (txs : Set Transaction) : Prop :=
  Set.InjOn doubleSha256 (Set.image (Transaction.encoding true) txs)

theorem NoCollision.eq_of_id {txs : Set Transaction} (hsha : NoCollision txs)
    {tx tx' : Transaction} (ht : tx ∈ txs) (ht' : tx' ∈ txs) (hf : tx.Fits true)
    (hf' : tx'.Fits true) (h : tx.id = tx'.id) : tx = tx' := by
  have hhash : doubleSha256 (tx.encoding true) = doubleSha256 (tx'.encoding true) :=
    congrArg Txid.bytes h
  have henc := hsha (Set.mem_image_of_mem _ ht) (Set.mem_image_of_mem _ ht') hhash
  exact Transaction.encoding_inj tx tx' hf hf' henc

end Collisions

namespace UtxoSet

variable [Crypto]

/-- What a run of transactions leaves was there before or is an output of one of them. -/
theorem get_afterAll (height : Nat) (txs : List Transaction) (utxos : UtxoSet) (o : OutPoint)
    (x : Utxo) (hf : ∀ tx ∈ txs, tx.Fits true)
    (hx : (utxos.afterAll height txs).get o = some x) :
    utxos.get o = some x ∨
      ∃ tx ∈ txs, tx.id = o.txid ∧ tx.outputs[o.vout.toNat]? = some x.output := by
  induction txs generalizing utxos with
  | nil => exact .inl hx
  | cons tx rest ih =>
    obtain ⟨hft, hfr⟩ := List.forall_mem_cons.mp hf
    rcases ih (utxos.after tx height) hfr hx with hget | ⟨t, ht, hid, hout⟩
    · rcases utxos.get_after tx height o with ⟨y, hy, hafter⟩ | hafter
      · obtain rfl : y = x := Option.some.inj (hafter.symm.trans hget)
        obtain ⟨hid, output, hout, rfl⟩ := (tx.mem_created height hft o y).mp hy
        exact .inr ⟨tx, List.mem_cons_self, hid.symm, hout⟩
      · rw [hafter] at hget
        split_ifs at hget
        exact .inl hget
    · exact .inr ⟨t, List.mem_cons_of_mem _ ht, hid, hout⟩

end UtxoSet

namespace NodeState

section Owner

variable [Crypto]

/-- The transactions of the stored blocks. -/
def confirmed (s : NodeState) : Set Transaction :=
  { tx | ∃ h b, s.blocks.get h = some b ∧ tx ∈ b.transactions }

theorem Sound.confirmed_fits {s : NodeState} (hs : s.Sound) (tx : Transaction)
    (ht : tx ∈ s.confirmed) : tx.Fits true := by
  obtain ⟨h, b, hb, hmem⟩ := ht
  obtain ⟨e, he⟩ := (hs.stored h).mp ⟨b, hb⟩
  obtain ⟨-, coinbase, rest, hok⟩ := (validateBlock_eq_ok b).mp (hs.entryOf h b e hb he).1
  exact hok.fits tx hmem

/-- Every output of a cached view is an output of a confirmed transaction. -/
theorem Sound.confirmed_of_view {s : NodeState} (hs : s.Sound) (h : BlockHash)
    (e : ChainIndexEntry) (u : UtxoSet) (o : OutPoint) (x : Utxo) (he : s.chain.get h = some e)
    (hu : s.utxoSnapshots.get h = some u) (hx : u.get o = some x) :
    ∃ tx ∈ s.confirmed, tx.id = o.txid ∧ tx.outputs[o.vout.toNat]? = some x.output := by
  refine hs.view_induct (fun _ u => ∀ x, u.get o = some x → ∃ tx ∈ s.confirmed, tx.id = o.txid ∧
    tx.outputs[o.vout.toNat]? = some x.output) ?_ ?_ e.height h e u he rfl hu x hx
  · intro x hx
    cases hx
  · intro h e b v u _ hb hv ha x hx
    obtain ⟨rfl, hfits⟩ := applyBlock_eq_afterAll v u b e.height ha
    rcases UtxoSet.get_afterAll e.height _ v o x hfits hx with hold | ⟨tx, ht, hid, hout⟩
    · exact hv x hold
    · exact ⟨tx, ⟨h, b, hb, (applicationOrder_perm _).mem_iff.mp ht⟩, hid, hout⟩

/-- In a cached view every record sits under its own outpoint. -/
theorem Sound.keyed_of_view {s : NodeState} (hs : s.Sound) (h : BlockHash) (u : UtxoSet)
    (hu : s.utxoSnapshots.get h = some u) : u.Keyed := by
  obtain ⟨e, -, -, he, -⟩ := hs.views h u hu
  refine hs.view_induct (fun _ u => u.Keyed) ?_ ?_ e.height h e u he rfl hu
  · intro o x hx
    cases hx
  · intro h e b v u _ _ hv ha
    obtain ⟨rfl, hfits⟩ := applyBlock_eq_afterAll v u b e.height ha
    exact hv.afterAll e.height _ v hfits

theorem Sound.confirmed_of_parentView {s : NodeState} (hs : s.Sound)
    (parent : Option BlockHash) (v : UtxoSet) (o : OutPoint) (x : Utxo)
    (hp : s.parentView parent = .ok v) (hx : v.get o = some x) :
    ∃ tx ∈ s.confirmed, tx.id = o.txid ∧ tx.outputs[o.vout.toNat]? = some x.output := by
  rcases (s.parentView_eq_ok _ _).mp hp with ⟨-, rfl⟩ | ⟨p, -, hv⟩
  · cases hx
  · obtain ⟨e, -, -, he, -⟩ := hs.views p v hv
    exact hs.confirmed_of_view p e v o x he hv hx

/-- No transaction of the block, its coinbase apart, makes the outpoint anew. -/
def MadeBefore (o : OutPoint) (b : Block) : Prop :=
  ∀ tx ∈ b.transactions, ¬tx.isCoinbase → tx.id ≠ o.txid

/-- The block `b` takes the outpoint `o` with the given output out of its parent's view. -/
structure OwnerSpends (s : NodeState) (b : Block) (o : OutPoint) (output : TxOut) : Prop where
  spent : ∃ tx ∈ b.transactions, ¬tx.isCoinbase ∧ o ∈ tx.spends
  perTransaction : ∀ tx ∈ b.transactions, tx.spends.count o ≤ 1
  once : MadeBefore o b → (b.transactions.flatMap Transaction.spends).count o = 1
  signed : MadeBefore o b ∨ NoCollision s.confirmed → ∀ tx ∈ b.transactions,
    ∀ input ∈ tx.inputs, input.previousOutput = o → SignedFor output tx input

/-- A transaction that makes an outpoint of the parent's view anew makes it with the same output. -/
theorem Sound.output_eq {s : NodeState} (hs : s.Sound) (hsha : NoCollision s.confirmed)
    (parent : Option BlockHash) (v : UtxoSet) (o : OutPoint) (x : Utxo)
    (hp : s.parentView parent = .ok v) (hx : v.get o = some x) (tx : Transaction)
    (ht : tx ∈ s.confirmed) (hid : tx.id = o.txid) (output : TxOut)
    (hout : tx.outputs[o.vout.toNat]? = some output) : output = x.output := by
  obtain ⟨tx', ht', hid', hout'⟩ := hs.confirmed_of_parentView parent v o x hp hx
  obtain rfl := hsha.eq_of_id ht ht' (hs.confirmed_fits tx ht) (hs.confirmed_fits tx' ht')
    (hid.trans hid'.symm)
  exact Option.some.inj (hout.symm.trans hout')

/-- Whatever a stored block takes from its parent's view, it takes with the owner's signature. -/
theorem owner_spends (s : NodeState) [Profile] (hr : s.Reachable) (h : BlockHash)
    (e : ChainIndexEntry) (b : Block) (v u : UtxoSet) (o : OutPoint) (x : Utxo)
    (he : s.chain.get h = some e) (hb : s.blocks.get h = some b)
    (hp : s.parentView e.parent = .ok v) (hu : s.utxoSnapshots.get h = some u)
    (hx : v.get o = some x) (hn : u.get o = none) : s.OwnerSpends b o x.output := by
  have hs := hr.sound
  obtain ⟨e', b', v', he', hb', hp', ha⟩ := hs.views h u hu
  obtain rfl : e = e' := Option.some.inj (he.symm.trans he')
  obtain rfl : b = b' := Option.some.inj (hb.symm.trans hb')
  obtain rfl : v = v' := Except.ok.inj (hp.symm.trans hp')
  obtain ⟨coinbase, rest, htxs, hfirst, hnot, happ⟩ := applyBlock_split v u b e.height ha
  have hin : ∀ tx ∈ rest, tx ∈ b.transactions := fun tx ht => by
    rw [htxs]
    exact List.mem_cons_of_mem _ ht
  have hcases : ∀ tx ∈ b.transactions, tx = coinbase ∨ tx ∈ rest := fun tx ht =>
    List.mem_cons.mp (htxs ▸ ht)
  obtain ⟨spender, hspender, hspends⟩ := UtxoSet.spent_of_applied happ hfirst o x hx hn
  refine ⟨⟨spender, hin _ hspender, hnot _ hspender, hspends⟩, ?_, ?_, ?_⟩
  · intro tx ht
    rcases hcases tx ht with rfl | ht
    · rw [hfirst]
      exact Nat.zero_le 1
    · exact List.nodup_iff_count_le_one.mp
        (UtxoSet.nodup_of_allValid e.height rest v happ.valid tx ht) o
  · intro hmade
    have hle := UtxoSet.count_spends_le_one e.height rest v o happ.valid
      fun tx ht => hmade tx (hin tx ht) (hnot tx ht)
    rw [hx, if_neg (Option.some_ne_none x)] at hle
    have hpos : 0 < (rest.flatMap Transaction.spends).count o :=
      List.count_pos_iff.mpr (List.mem_flatMap.mpr ⟨spender, hspender, hspends⟩)
    have hcount : (b.transactions.flatMap Transaction.spends).count o =
        (rest.flatMap Transaction.spends).count o := by
      rw [htxs, List.flatMap_cons, hfirst, List.nil_append]
    rw [hcount]
    omega
  · intro hwhen tx ht input hi ho
    have hnew : ∀ t ∈ rest, ∀ output, t.id = o.txid →
        t.outputs[o.vout.toNat]? = some output → output = x.output := by
      intro t ht output hid hout
      rcases hwhen with hmade | hsha
      · exact absurd hid (hmade t (hin t ht) (hnot t ht))
      · exact hs.output_eq hsha e.parent v o x hp hx t ⟨h, b, hb, hin t ht⟩ hid output hout
    rcases hcases tx ht with rfl | ht
    · have hmem : o ∈ tx.spends := ho ▸ List.mem_map_of_mem hi
      rw [hfirst] at hmem
      cases hmem
    · obtain ⟨output, rfl, hsigned⟩ := UtxoSet.signedFor_of_allValid e.height rest v o
        (· = x.output) happ.valid (fun y hy => by rw [Option.some.inj (hy.symm.trans hx)]) hnew
        tx ht input hi ho
      exact hsigned

end Owner

section SampleOwner

attribute [local instance] sampleCrypto sampleProfile

theorem sampleState_owner :
    sampleState.OwnerSpends sampleBlock ⟨sampleCoinbase.id, 0⟩ ⟨50, sampleLock⟩ :=
  owner_spends sampleState sampleState_okReachable.reachable sampleBlock.header.blockHash
    ⟨sampleBlock.header.blockHash, 1, 4, some sampleGenesis.header.blockHash⟩ sampleBlock
    sampleChain.activeUtxos sampleState.activeUtxos ⟨sampleCoinbase.id, 0⟩
    ⟨⟨sampleCoinbase.id, 0⟩, ⟨50, sampleLock⟩, 0, true⟩
    (by decide +kernel) (by decide +kernel) (by decide +kernel) (by decide +kernel)
    (by decide +kernel) (by decide +kernel)

end SampleOwner

section DoubleTake

def firstTakeSignature : Nat :=
  0x770852d20d450e42fedae1ff781285ded6815d99015860247cb2b8d51258e8ba * 2^256 +
    0xb15df0d47ddd5749f9553e73794850ef746e925a58c15d0f6f2ac2bdda388203

def secondTakeSignature : Nat :=
  0xb1a785440011be7a20fecf7014978559ff2c0e3762a5454aa75cf0412cbe8904 * 2^256 +
    0x275c7c4f026cf73795f0a35134b54367bfe9fd0ba4ddcbe54949d0dac9ce5303

def changeTakeSignature : Nat :=
  0xc69dc73d1631fe39f400a95c06d97995d0ed3e7bf6bd0674299283437d175b42 * 2^256 +
    0x1d062d011f603a83787751aba481b77b014156434419f2128d1660202d1bb50e

def takeSignatures : List Signed := [
  ⟨sampleKey, 0xd0b8affeea5e05b1a49e9da87a6e354df5fb079bc4250fec30d42a905337c5d5,
    firstTakeSignature⟩,
  ⟨sampleKey, 0xcab2f2770d3cab61a93a0de67f69917c51e7c72d883c52cda8e34dd2f4b854d2,
    secondTakeSignature⟩,
  ⟨sampleKey, 0x9baf4dd10a7da036f520e5c4128514be90f2f5ba40be0ac02887ea58d6455077,
    changeTakeSignature⟩]

def samplePaymentId : Nat := 0xe61b9b7a4bfa2fecceaaf80383fe94be4e0d48ca1f79515ff1e5591be079b09d

def firstTake : Transaction :=
  sampleSpend samplePaymentId firstTakeSignature [⟨30, sampleLock⟩]

def secondTake : Transaction :=
  sampleSpend samplePaymentId secondTakeSignature [⟨20, sampleLock⟩]

/-- Spends the other output of the payment. -/
def changeTake : Transaction :=
  ⟨1, [⟨⟨⟨beBytes 32 samplePaymentId⟩, 1⟩, (beBytes 64 changeTakeSignature).toList⟩],
    [⟨15, sampleLock⟩], 0⟩

/-- Repeats the coinbase of genesis, next to a payment that spends it. -/
def repeatBlock : Block where
  header :=
    { version := 1
      prevBlockhash := ⟨beBytes 32 0x7b19c99f8caab2757d8cb267141745ad2a6556bfeabce6052088a664ea92f5d1⟩
      merkleRoot := beBytes 32 0xbe27d70128d86eb2d21f5652f41ad98e4398d9d19e93b434ac27838bc24c052d
      time := 0
      bits := 0x207fffff
      nonce := 0 }
  transactions := [sampleCoinbase, samplePayment]

/-- Spends the payment, makes it again and spends it again. -/
def doubleTakeBlock : Block where
  header :=
    { version := 1
      prevBlockhash := ⟨beBytes 32 0x49ca116ae04d3e0933f87c44ce91035b5ed71fcfdf2a510956c961e722116317⟩
      merkleRoot := beBytes 32 0xe005db37f0a27fa4a01f5fdcef2a35d375de0b0ccce45af2b3c2d3518d61ab88
      time := 0
      bits := 0x207fffff
      nonce := 0 }
  transactions := [sampleCoinbase, firstTake, samplePayment, secondTake]

def takeDigests : List Digest := [
  ⟨firstTake.encoding false,
    0xb49ea71a463cd13e50fddd5aeca7620721c2a006b6d38c63a38f67545908f8ec,
    0xd0b8affeea5e05b1a49e9da87a6e354df5fb079bc4250fec30d42a905337c5d5⟩,
  ⟨secondTake.encoding false,
    0xafeed0568d0db5008c10a3fbc5cd2fa565bcbabe153c2a5aa23d82303efdf70e,
    0xcab2f2770d3cab61a93a0de67f69917c51e7c72d883c52cda8e34dd2f4b854d2⟩,
  ⟨(beBytes 32 0xac3bfda99da3beb4120b0e4073c483fb09259ed8c73600c01e2c4160fe3f67b5).toList ++
      (beBytes 32 0xe61b9b7a4bfa2fecceaaf80383fe94be4e0d48ca1f79515ff1e5591be079b09d).toList,
    0xcc29476f4d8aaf84599a1f7a2bab362f3a03e7e71d77a046ac6d837311f4c611,
    0xbe27d70128d86eb2d21f5652f41ad98e4398d9d19e93b434ac27838bc24c052d⟩,
  ⟨repeatBlock.header.encode,
    0x8610d6d1242c9db3ff60a1cfbb1a59208b4218a119c391923c8756bc79b94ce6,
    0x49ca116ae04d3e0933f87c44ce91035b5ed71fcfdf2a510956c961e722116317⟩,
  ⟨firstTake.encoding true,
    0x151f0570ca57965783df068f5a67445f326342a31194693a13f041a7c3daf919,
    0xafb159c0b1db10cd2e384c0e0e97acf04497fb1e56766a1e41437f1c8fc26dbc⟩,
  ⟨secondTake.encoding true,
    0xdb00e5b9a4a867b8821b2c04c9bb25d87723da225416142e8741d3d3e753bb29,
    0x50e87b188fbf2af7f41c6617f27140b406c6664aa5e0c6a35a56bd8baf3017e8⟩,
  ⟨(beBytes 32 0xac3bfda99da3beb4120b0e4073c483fb09259ed8c73600c01e2c4160fe3f67b5).toList ++
      (beBytes 32 0xafb159c0b1db10cd2e384c0e0e97acf04497fb1e56766a1e41437f1c8fc26dbc).toList,
    0xf5cb71c0a1ab21a648951f37cef9558cf04ad2abcca39f9371f14aecf1f72f5d,
    0xb0ea9c68b2b91ab458919acc88dfe2f352065d2a416a7f3ac77ddce44b9932cc⟩,
  ⟨(beBytes 32 0xe61b9b7a4bfa2fecceaaf80383fe94be4e0d48ca1f79515ff1e5591be079b09d).toList ++
      (beBytes 32 0x50e87b188fbf2af7f41c6617f27140b406c6664aa5e0c6a35a56bd8baf3017e8).toList,
    0x34aed873f84d09b6ff9c32184ccb1a72c6682eebd49bf3418e7ccf0c19c3d740,
    0x87e9d9326c9f36c0082877c2be3873e846700d22a28a48d20d2d261c3042dba9⟩,
  ⟨(beBytes 32 0xb0ea9c68b2b91ab458919acc88dfe2f352065d2a416a7f3ac77ddce44b9932cc).toList ++
      (beBytes 32 0x87e9d9326c9f36c0082877c2be3873e846700d22a28a48d20d2d261c3042dba9).toList,
    0xe309f4f0caca7e036ada7b039698eae360dd218ce759b6f9d829456d11b490bd,
    0xe005db37f0a27fa4a01f5fdcef2a35d375de0b0ccce45af2b3c2d3518d61ab88⟩,
  ⟨doubleTakeBlock.header.encode,
    0x45d88ccfc5cafd98aa1f26a94eb4e31b5b5963030d48dca4eeb8d9ab86fb195e,
    0x1b17d26632543879ca07fe3bf66ae14a9012b789e40aaa8192fe882cfc969c79⟩,
  ⟨changeTake.encoding false,
    0x4422afa1cc865de019cd3fb73bbebc7763f2647fb16d35e8c4eacf7ef60ed421,
    0x9baf4dd10a7da036f520e5c4128514be90f2f5ba40be0ac02887ea58d6455077⟩,
  ⟨changeTake.encoding true,
    0x76266641714ea63ae6adfb931cc4cc65fcb8ced6c4c90dd3702bba071e8ecfc2,
    0xc53d5654a06b8f0a37ae64187a8d8a6fc732acf666351f5ae4a43a656ccc3091⟩]

@[reducible] def takeCrypto : Crypto :=
  recordedCrypto (sampleDigests ++ takeDigests) (sampleSignatures ++ takeSignatures)

attribute [local instance] takeCrypto

/-- The node that has accepted genesis, the repeated coinbase and the block after it. -/
def takeState : NodeState :=
  (((new.acceptBlock sampleGenesis).1.acceptBlock repeatBlock).1.acceptBlock doubleTakeBlock).1

/-- The output is in the parent's view and not in the block's, and two transactions spend it. -/
theorem doubleTakeBlock_spends_twice :
    (new.acceptBlock sampleGenesis).2 = .ok () ∧
    ((new.acceptBlock sampleGenesis).1.acceptBlock repeatBlock).2 = .ok () ∧
    (((new.acceptBlock sampleGenesis).1.acceptBlock repeatBlock).1.acceptBlock
      doubleTakeBlock).2 = .ok () ∧
    (takeState.utxoSnapshots.get repeatBlock.header.blockHash).bind
      (HashMap.get · ⟨samplePayment.id, 0⟩) =
        some ⟨⟨samplePayment.id, 0⟩, ⟨30, sampleLock⟩, 1, false⟩ ∧
    (takeState.utxoSnapshots.get doubleTakeBlock.header.blockHash).map
      (HashMap.get · ⟨samplePayment.id, 0⟩) = some none ∧
    firstTake ≠ secondTake ∧
    doubleTakeBlock.transactions.filter (fun tx => ⟨samplePayment.id, 0⟩ ∈ tx.spends) =
      [firstTake, secondTake] := by
  decide +kernel

/-- Genesis and the block whose outputs the takes spend. -/
def takeChain : NodeState := ((new.acceptBlock sampleGenesis).1.acceptBlock sampleBlock).1

theorem takeChain_okReachable : takeChain.OkReachable := by
  have hgenesis : OkStep new (new.acceptBlock sampleGenesis).1 :=
    .acceptBlock sampleGenesis (by decide +kernel)
  have hblock : OkStep (new.acceptBlock sampleGenesis).1 takeChain :=
    .acceptBlock sampleBlock (by decide +kernel)
  exact (Relation.ReflTransGen.single hgenesis).tail hblock

/-- Each of the three outputs is spent by one pending transaction. -/
def takePending : NodeState :=
  (((takeChain.submitTransaction samplePending).1.submitTransaction changeTake).1.submitTransaction
    firstTake).1

theorem takePending_okReachable : takePending.OkReachable := by
  have hfirst : OkStep takeChain (takeChain.submitTransaction samplePending).1 :=
    .submitTransaction samplePending (Res.returned_of_ok samplePendingId (by decide +kernel))
  have hsecond : OkStep (takeChain.submitTransaction samplePending).1
      ((takeChain.submitTransaction samplePending).1.submitTransaction changeTake).1 :=
    .submitTransaction changeTake (Res.returned_of_ok changeTake.id (by decide +kernel))
  have hthird : OkStep ((takeChain.submitTransaction samplePending).1.submitTransaction changeTake).1
      takePending :=
    .submitTransaction firstTake (Res.returned_of_ok firstTake.id (by decide +kernel))
  exact ((takeChain_okReachable.tail hfirst).tail hsecond).tail hthird

end DoubleTake

end NodeState

end Wobble
