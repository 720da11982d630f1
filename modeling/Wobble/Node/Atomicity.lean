import Wobble.Node.Runs
import Wobble.Data.RecordedCrypto

namespace Wobble

open Rust

namespace NodeState

section Atomicity

variable [Crypto]

/-- The index takes the block in as a new one, but its view cannot be made: the parent has no
cached view, or the block does not apply to it. -/
def FailsAfterIndexing (s : NodeState) (block : Block) : Prop :=
  validateBlock block = .ok () ∧ s.chain.get block.header.blockHash = none ∧
    ∃ entry, s.chain.link block = .ok entry ∧
      ((∃ p, entry.parent = some p ∧ s.utxoSnapshots.get p = none) ∨
        ∃ v e, s.parentView entry.parent = .ok v ∧
          applyBlock v block entry.height = .error (.err e))

theorem Sound.acceptBlock_of_failsAfterIndexing {s : NodeState} (hs : s.Sound) (block : Block)
    (h : s.FailsAfterIndexing block) :
    (∃ e, (s.acceptBlock block).2 = .error (.err e)) ∧ (s.acceptBlock block).1 ≠ s := by
  obtain ⟨hv, hg, entry, hlink, hfail⟩ := h
  have hl := (ChainIndex.link_eq_ok _ _ _).mp hlink
  have hn : s.chain.get entry.blockHash = none := hl.blockHash ▸ hg
  have hens := hs.ensureSnapshot_withBlock block entry hn
  have herr : ∃ e, (s.withBlock entry block).ensureSnapshot entry.blockHash entry.parent
      entry.height = .error (.err e) := by
    rw [hens]
    rcases hfail with ⟨p, hp, hnone⟩ | ⟨v, e, hp, ha⟩
    · exact ⟨.missingParentState p, by rw [hp, parentView, hnone]; rfl⟩
    · exact ⟨.consensus e, by rw [hp, Res.ok_bind, ha]; rfl⟩
  obtain ⟨e, he⟩ := herr
  have hset : s.acceptBlock block = (s.withBlock entry block, .error (.err e)) := by
    rw [hs.acceptBlock_of_links block entry hv hg hl, settle, he]
  rw [hset]
  refine ⟨⟨e, rfl⟩, fun heq => ?_⟩
  -- the failed call has left the block in the index
  have hget : (s.withBlock entry block).chain.get entry.blockHash = some entry :=
    (s.chain.get_extend entry entry.blockHash).trans (if_pos rfl)
  rw [show s.withBlock entry block = s from heq, hn] at hget
  cases hget

/-- In every reachable state, a failing `accept_block` leaves everything as it was, unless the
failure comes after the block has been indexed. -/
theorem acceptBlock_unchanged_iff [Profile] (s : NodeState) (hr : s.Reachable) (block : Block) :
    (∀ e, (s.acceptBlock block).2 = .error (.err e) → (s.acceptBlock block).1 = s) ↔
      ¬ s.FailsAfterIndexing block := by
  have hs := hr.sound
  constructor
  · intro h hfail
    obtain ⟨⟨e, he⟩, hne⟩ := hs.acceptBlock_of_failsAfterIndexing block hfail
    exact hne (h e he)
  · intro hno e he
    have hacc := hs.acceptBlock_accepts block
    generalize s.acceptBlock block = result at hacc he
    cases hacc with
    | rejected e' => cases e' <;> rfl
    | side entry t t' u hi hv ht => cases he
    | tip entry t t' u pool hi hv ht hp => cases he
    | unapplied entry t e' hi hn hens =>
      cases hi with
      | known hv hg => rfl
      | added hv hg hl =>
        exfalso
        obtain rfl : e' = .err e := Except.error.inj he
        rw [hs.ensureSnapshot_withBlock block entry (hl.blockHash ▸ hg)] at hens
        refine hno ⟨hv, hg, entry, (ChainIndex.link_eq_ok _ _ _).mpr hl, ?_⟩
        rcases (Res.bind_eq_error _ _ _).mp hens with hp | ⟨v, hp, hens⟩
        · left
          cases hpar : entry.parent with
          | none =>
            rw [hpar] at hp
            cases hp
          | some p =>
            rw [hpar, parentView, Res.okOr_eq_error] at hp
            exact ⟨p, rfl, hp.1⟩
        · right
          rcases (Res.bind_eq_error _ _ _).mp hens with ha | ⟨u, -, ha⟩
          · obtain ⟨e'', ha, -⟩ := (Res.mapErr_eq_err _ _ _).mp ha
            exact ⟨v, e'', hp, ha⟩
          · cases ha

end Atomicity

section GreedyGenesis

def greedyCoinbase : Transaction := ⟨1, [], [⟨51, []⟩], 0⟩

/-- A genesis block that pays out one more than the subsidy. -/
def greedyGenesis : Block where
  header :=
    { version := 1
      prevBlockhash := BlockHash.default
      merkleRoot := beBytes 32 0x4c0800cb0ece6dd5f4cacee46e19475e4ca36d9642b547f96fec9e1377b11f6b
      time := 0
      bits := 0x207fffff
      nonce := 2 }
  transactions := [greedyCoinbase]

def greedyHash : BlockHash :=
  ⟨beBytes 32 0x6d2d3728e8f46f45e177b938e0c685489ca12638fb98102527f86c978004bef4⟩

def greedyDigests : List Digest := [
  ⟨greedyCoinbase.encoding true,
    0x02546dde9c5a3a2fd25456fc7f2514de1e0049376933924fa52d04875507ceb1,
    0x4c0800cb0ece6dd5f4cacee46e19475e4ca36d9642b547f96fec9e1377b11f6b⟩,
  ⟨greedyGenesis.header.encode,
    0x6eb1936a09a7093dab587b469e168101aadc81723523e890676b4435c64922a7,
    0x6d2d3728e8f46f45e177b938e0c685489ca12638fb98102527f86c978004bef4⟩]

local instance greedyCrypto : Crypto := recordedCrypto greedyDigests []

local instance greedyProfile : Profile := ⟨true⟩

/-- A fresh node that was offered the block. -/
def greedyTip : NodeState := (new.acceptBlock greedyGenesis).1

/-- Offered once more the block is refused again, and now nothing changes. -/
theorem acceptBlock_unchanged_greedyGenesis :
    (greedyTip.acceptBlock greedyGenesis).2 =
        .error (.err (.consensus (.coinbaseRewardTooLarge 50 51))) ∧
      ¬ greedyTip.FailsAfterIndexing greedyGenesis ∧
      (greedyTip.acceptBlock greedyGenesis).1 = greedyTip := by
  have herror : (new.acceptBlock greedyGenesis).2 =
      .error (.err (.consensus (.coinbaseRewardTooLarge 50 51))) := by decide +kernel
  have hreach : greedyTip.Reachable := by
    refine Relation.ReflTransGen.single (.acceptBlock greedyGenesis fun m hm => ?_)
    cases herror.symm.trans hm
  have hagain : (greedyTip.acceptBlock greedyGenesis).2 =
      .error (.err (.consensus (.coinbaseRewardTooLarge 50 51))) := by decide +kernel
  have hknown : ¬ greedyTip.FailsAfterIndexing greedyGenesis := by
    have hsome : (greedyTip.chain.get greedyGenesis.header.blockHash).isSome = true := by
      decide +kernel
    intro hfails
    rw [hfails.2.1] at hsome
    cases hsome
  exact ⟨hagain, hknown,
    (acceptBlock_unchanged_iff greedyTip hreach greedyGenesis).mpr hknown _ hagain⟩

/-- The first block offered to a fresh node is refused, and is its best tip all the same. -/
theorem greedyGenesis_becomes_tip :
    new.Reachable ∧
      (new.acceptBlock greedyGenesis).2 =
        .error (.err (.consensus (.coinbaseRewardTooLarge 50 51))) ∧
      (new.acceptBlock greedyGenesis).1.chain.bestTip = some greedyHash ∧
      (new.acceptBlock greedyGenesis).1 ≠ new := by
  refine ⟨.refl, ?_⟩
  decide +kernel

end GreedyGenesis

end NodeState

end Wobble
