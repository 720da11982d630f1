import Wobble.Ledger.Consensus
import Wobble.Data.RecordedCrypto

namespace Wobble

open Rust

section Binding

variable [Crypto]

/-- The byte strings double-hashed on the way to a block's merkle root: each transaction's
encoding, then the pair under each inner node. -/
def Block.hashed (block : Block) : List Bytes :=
  block.transactions.map (Transaction.encoding true) ++
    (Merkle.combined merkleNode block.transactions.length
      (block.transactions.map fun tx => tx.id.bytes)).map fun p => p.1.toList ++ p.2.toList

/-- Two different byte strings hashed for the two blocks have one double hash. -/
def Collision (b b' : Block) : Prop :=
  ∃ x ∈ b.hashed ++ b'.hashed, ∃ y ∈ b.hashed ++ b'.hashed, x ≠ y ∧
    doubleSha256 x = doubleSha256 y

instance (b b' : Block) : Decidable (Collision b b') := by
  unfold Collision
  infer_instance

theorem eq_of_not_collision (b b' : Block) (hc : ¬ Collision b b') (x y : Bytes)
    (hx : x ∈ b.hashed) (hy : y ∈ b'.hashed) (h : doubleSha256 x = doubleSha256 y) : x = y := by
  by_contra hne
  exact hc ⟨x, List.mem_append_left _ hx, y, List.mem_append_right _ hy, hne, h⟩

theorem encoding_mem_hashed (b : Block) (tx : Transaction) (h : tx ∈ b.transactions) :
    tx.encoding true ∈ b.hashed :=
  List.mem_append_left _ (List.mem_map_of_mem h)

theorem pair_mem_hashed (b : Block) (p : Bytes32 × Bytes32)
    (h : p ∈ Merkle.combined merkleNode b.transactions.length
      (b.transactions.map fun tx => tx.id.bytes)) : p.1.toList ++ p.2.toList ∈ b.hashed :=
  List.mem_append_right _ (List.mem_map_of_mem (f := fun p => p.1.toList ++ p.2.toList) h)

/-- Without a collision, equal ids in equal places mean equal transactions. -/
theorem transactions_eq_of_ids (b b' : Block) (hc : ¬ Collision b b')
    (xs ys : List Transaction) (hx : ∀ tx ∈ xs, tx ∈ b.transactions ∧ tx.Fits true)
    (hy : ∀ tx ∈ ys, tx ∈ b'.transactions ∧ tx.Fits true)
    (h : (xs.map fun tx => tx.id.bytes) = ys.map fun tx => tx.id.bytes) : xs = ys := by
  induction xs generalizing ys with
  | nil => exact (List.map_eq_nil_iff.mp h.symm).symm
  | cons s xs ih =>
    cases ys with
    | nil => simp at h
    | cons t ys =>
      simp only [List.map_cons, List.cons.injEq] at h
      obtain ⟨⟨hs, hsf⟩, hx⟩ := List.forall_mem_cons.mp hx
      obtain ⟨⟨ht, htf⟩, hy⟩ := List.forall_mem_cons.mp hy
      have henc := eq_of_not_collision b b' hc _ _ (encoding_mem_hashed b s hs)
        (encoding_mem_hashed b' t ht) h.1
      rw [Transaction.encoding_inj s t hsf htf henc, ih ys hx hy h.2]

theorem ids_eq_of_root (b b' : Block) (hc : ¬ Collision b b')
    (hn : b.transactions ≠ []) (hl : b.transactions.length = b'.transactions.length)
    (h : merkleRootOf b.transactions = merkleRootOf b'.transactions) :
    (b.transactions.map fun tx => tx.id.bytes) = b'.transactions.map fun tx => tx.id.bytes := by
  have hn' : b'.transactions ≠ [] := by
    rwa [← List.length_pos_iff, ← hl, List.length_pos_iff]
  have hone : ∀ txs : List Transaction, txs ≠ [] →
      Merkle.reduce merkleNode txs.length (txs.map fun tx => tx.id.bytes) =
        [merkleRootOf txs] := by
    intro txs hne
    obtain ⟨r, hr⟩ := List.length_eq_one_iff.mp (Merkle.reduce_length merkleNode txs.length
      (txs.map fun tx => tx.id.bytes) (by simpa using hne) (by simp))
    simp [merkleRootOf, hne, hr]
  have hred := (hone _ hn).trans ((congrArg (fun r => [r]) h).trans (hone _ hn').symm)
  rw [← hl] at hred
  refine Merkle.reduce_inj merkleNode _ _ _ (by simpa using hl) ?_ hred
  intro p hp q hq hnode
  have hpq := eq_of_not_collision b b' hc _ _ (pair_mem_hashed b p hp)
    (pair_mem_hashed b' q (hl ▸ hq)) hnode
  obtain ⟨h1, h2⟩ := List.append_inj hpq (by rw [p.1.toList_length, q.1.toList_length])
  exact Prod.ext (List.Vector.toList_injective h1) (List.Vector.toList_injective h2)

/-- The header commits to the transactions of a valid block as far as their number goes. -/
theorem sameHeader_transactions_iff (b b' : Block) (hh : b.header = b'.header)
    (hv : validateBlock b = .ok ()) (hv' : validateBlock b' = .ok ()) :
    (b.transactions = b'.transactions ∨ Collision b b') ↔
      (b.transactions.length = b'.transactions.length ∨ Collision b b') := by
  obtain ⟨-, coinbase, rest, hb⟩ := (validateBlock_eq_ok b).mp hv
  obtain ⟨-, coinbase', rest', hb'⟩ := (validateBlock_eq_ok b').mp hv'
  constructor
  · exact Or.imp_left (congrArg List.length)
  · rintro (hl | hc)
    · by_cases hc : Collision b b'
      · exact .inr hc
      · refine .inl (transactions_eq_of_ids b b' hc _ _ (fun tx h => ⟨h, hb.fits tx h⟩)
          (fun tx h => ⟨h, hb'.fits tx h⟩) ?_)
        refine ids_eq_of_root b b' hc (by simp [hb.transactions]) hl ?_
        rw [← hb.root, ← hb'.root, hh]
    · exact .inr hc

end Binding

section MutatedBody

def coinbaseOf50 : Transaction := ⟨1, [], [⟨50, []⟩], 0⟩

def spendOf (vout : UInt32) : Transaction := ⟨1, [⟨⟨⟨zeroBytes⟩, vout⟩, []⟩], [], 0⟩

def mutationHeader : BlockHeader where
  version := 1
  prevBlockhash := BlockHash.default
  merkleRoot := beBytes 32 0x7187bbe05e45d0e14441906928162b5b23d4eaaeeb3d2b55f9d5411867c88432
  time := 0
  bits := 0x207fffff
  nonce := 1

def originalBlock : Block := ⟨mutationHeader, [coinbaseOf50, spendOf 0, spendOf 1]⟩

/-- The last transaction stands twice, as its id does in the padded level. -/
def mutatedBlock : Block := ⟨mutationHeader, [coinbaseOf50, spendOf 0, spendOf 1, spendOf 1]⟩

def mutationDigests : List Digest := [
  ⟨coinbaseOf50.encoding true,
    0x06d71c1708ca8c9dee8c0732e15d720a069b79802ddad7028b18b2d134d11775,
    0xe594a0c986e8590b848420080452547fb42fd287f22c55a5bebb518ef7c266f1⟩,
  ⟨(spendOf 0).encoding true,
    0x29f7734ba3f53bb1fa3440af589b14b3a8f7ccb12a16cc9f840affe036de0ed8,
    0x4c26724e1c223ba6be051780afebac071a0ba79aeef865cf1d07a15eb4799893⟩,
  ⟨(spendOf 1).encoding true,
    0x1fc0ba2cbd54dc1bec43dc48d874bb674d6a5aedeee52d7c8866285a6c89404f,
    0x8c51eee380639f89c624b02f9af44eff37b3ae6a4d679cba0d04e817975b6680⟩,
  ⟨(beBytes 32 0xe594a0c986e8590b848420080452547fb42fd287f22c55a5bebb518ef7c266f1).toList ++
      (beBytes 32 0x4c26724e1c223ba6be051780afebac071a0ba79aeef865cf1d07a15eb4799893).toList,
    0x9bf1e1b742188b4279eda970fceadb875bf0bb9964191d2d11f1187ba2bd03d4,
    0x5d2bb73662f06191cc7f1181038ddccd0f9a8abbbbb7a5dc607723351c94c826⟩,
  ⟨(beBytes 32 0x8c51eee380639f89c624b02f9af44eff37b3ae6a4d679cba0d04e817975b6680).toList ++
      (beBytes 32 0x8c51eee380639f89c624b02f9af44eff37b3ae6a4d679cba0d04e817975b6680).toList,
    0x88d44d67d303b684fe8b5fe98621b60525dd5a2c4fd5b31e612af5ff1ff0eeb9,
    0xa6b6759d6f004d0ab5b471c3b8956dce0ec3f2fbaa42da903e3808c635e4ec6a⟩,
  ⟨(beBytes 32 0x5d2bb73662f06191cc7f1181038ddccd0f9a8abbbbb7a5dc607723351c94c826).toList ++
      (beBytes 32 0xa6b6759d6f004d0ab5b471c3b8956dce0ec3f2fbaa42da903e3808c635e4ec6a).toList,
    0xd38fc16354f541e9ed2403b4f6e2340b839d92a138e3031032ca0f76d8328729,
    0x7187bbe05e45d0e14441906928162b5b23d4eaaeeb3d2b55f9d5411867c88432⟩,
  ⟨mutationHeader.encode,
    0x1486ec0aa464978537b81c92f24620925a260c362c0ab478e95555fa3f8b1280,
    0x635a4c2595f377c3705328ecde3eef4a71954a74e874d3cce6eaabc9d76a821e⟩]

local instance mutationCrypto : Crypto := recordedCrypto mutationDigests []

/-- Of two lengths and without a collision, the lists differ. -/
theorem sameHeader_transactions_mutated :
    ¬ (originalBlock.transactions.length = mutatedBlock.transactions.length ∨
        Collision originalBlock mutatedBlock) ∧
      ¬ (originalBlock.transactions = mutatedBlock.transactions ∨
        Collision originalBlock mutatedBlock) := by
  have hiff := sameHeader_transactions_iff originalBlock mutatedBlock rfl (by decide +kernel)
    (by decide +kernel)
  have hlength : ¬ (originalBlock.transactions.length = mutatedBlock.transactions.length ∨
      Collision originalBlock mutatedBlock) := by
    decide +kernel
  exact ⟨hlength, fun h => hlength (hiff.mp h)⟩

/-- One header over two valid lists of transactions, with no collision among what was hashed. -/
theorem mutatedBlock_sameHeader :
    originalBlock.header = mutatedBlock.header ∧ validateBlock originalBlock = .ok () ∧
      validateBlock mutatedBlock = .ok () ∧
      originalBlock.transactions ≠ mutatedBlock.transactions ∧
      ¬ Collision originalBlock mutatedBlock := by
  decide +kernel

end MutatedBody

end Wobble
