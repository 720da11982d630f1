import Wobble.Ledger.Consensus
import Wobble.Framework.GrowingTree

namespace Wobble

open Rust

inductive ChainError where
  | invalidBlock (e : ConsensusError)
  | missingParent (parent : BlockHash)
  | genesisHasParent
  | workOverflow
  deriving DecidableEq

/-- Known blocks keyed by hash, with the tip of most cumulative work. -/
@[ext] structure ChainIndex where
  entries : HashMap BlockHash ChainIndexEntry
  bestTip : Option BlockHash
  deriving DecidableEq

def blockWork (block : Block) : Res ChainError Nat := do
  let target ← Res.okOr (.invalidBlock .invalidPowTarget)
    (PowTarget.fromCompact block.header.bits)
  .ok target.work

namespace ChainIndex

def new : ChainIndex := ⟨HashMap.new, none⟩

def get (index : ChainIndex) (hash : BlockHash) : Option ChainIndexEntry := index.entries.get hash

def len (index : ChainIndex) : Nat := index.entries.len

def nonHeads (index : ChainIndex) : List BlockHash :=
  index.entries.iter.filterMap fun (_, entry) => entry.parent

def branchHeads (index : ChainIndex) : Finset BlockHash :=
  index.entries.keys.filter fun hash => hash ∉ index.nonHeads

def branchCount (index : ChainIndex) : Nat := index.branchHeads.card

def updateBestTip (index : ChainIndex) (candidateHash : BlockHash) :
    Res ChainError ChainIndex := do
  let candidate ← Res.expect "candidate entry was inserted" (index.get candidateHash)
  let shouldReplace ← match index.bestTip with
    | none => .ok true
    | some currentHash => do
      let current ← Res.expect "best tip must exist in entries" (index.get currentHash)
      .ok (decide (current.cumulativeWork < candidate.cumulativeWork))
  .ok (if shouldReplace then { index with bestTip := some candidateHash } else index)

section Model

variable [Crypto]

/-- The entry that `insert_block` makes for a block it has not seen. -/
def link (index : ChainIndex) (block : Block) : Res ChainError ChainIndexEntry := do
  let parentHash := block.header.prevBlockhash
  let work ← blockWork block
  if index.entries.isEmpty then
    if parentHash ≠ BlockHash.default then .error (.err .genesisHasParent)
    else .ok ⟨block.header.blockHash, 0, work, none⟩
  else do
    let parent ← Res.okOr (.missingParent parentHash) (index.get parentHash)
    if parent.cumulativeWork + work ≤ PowTarget.u128Max then
      .ok ⟨block.header.blockHash, parent.height + 1, parent.cumulativeWork + work,
        some parentHash⟩
    else .error (.err .workOverflow)

/-- The index after the call, and what the call returns. -/
def insertBlock (index : ChainIndex) (block : Block) :
    ChainIndex × Res ChainError ChainIndexEntry :=
  match (validateBlock block).mapErr ChainError.invalidBlock with
  | .error e => (index, .error e)
  | .ok () =>
    match index.get block.header.blockHash with
    | some entry => (index, .ok entry)
    | none =>
      match index.link block with
      | .error e => (index, .error e)
      | .ok entry =>
        let inserted := { index with entries := index.entries.insert block.header.blockHash entry }
        match inserted.updateBestTip block.header.blockHash with
        | .error e => (inserted, .error e)
        | .ok index' => (index', .ok entry)

end Model

end ChainIndex

def entryView : GrowingTree.View ChainIndexEntry BlockHash where
  key := ChainIndexEntry.blockHash
  height := ChainIndexEntry.height
  work := ChainIndexEntry.cumulativeWork
  parent := ChainIndexEntry.parent

/-- `best_chain_entries`; `none` when the loop would never leave. One more step than there are
entries is enough to tell. -/
def ChainIndex.bestChainEntries (index : ChainIndex) : Option (List ChainIndexEntry) :=
  (GrowingTree.walkUp entryView index.get (index.len + 1) index.bestTip).map List.reverse

theorem ChainIndex.mem_branchHeads (index : ChainIndex) (h : BlockHash) :
    h ∈ index.branchHeads ↔ (∃ e, index.get h = some e) ∧
      ∀ h' e, index.get h' = some e → e.parent ≠ some h := by
  rw [branchHeads, Finset.mem_filter, HashMap.mem_keys]
  refine and_congr Iff.rfl ?_
  simp only [nonHeads, List.mem_filterMap, Prod.exists, HashMap.mem_iter, not_exists, not_and]
  rfl

theorem PowTarget.work_pos (target : PowTarget) : 0 < target.work := by
  have hmax : 0 < u128Max := by decide
  have hlt := Codec.ofBeBytes_lt (target.bytes.toList.drop 16)
  rw [List.length_drop, List.Vector.toList_length] at hlt
  have htrail : Codec.ofBeBytes (target.bytes.toList.drop 16) ≤ u128Max := by
    unfold u128Max
    omega
  unfold PowTarget.work
  dsimp only
  generalize Codec.ofBeBytes (target.bytes.toList.take 16) = leading
  generalize Codec.ofBeBytes (target.bytes.toList.drop 16) = trailing at htrail
  split_ifs with hcase hl hl
  · rw [Nat.div_one]
    omega
  · exact absurd hcase.1 hl
  · rwa [Nat.div_one]
  · exact Nat.div_pos (min_le_right _ _) (by omega)

theorem blockWork_eq_ok (block : Block) (w : Nat) :
    blockWork block = .ok w ↔
      ∃ target, PowTarget.fromCompact block.header.bits = some target ∧ target.work = w := by
  simp [blockWork, Res.bind_eq_ok]

theorem blockWork_pos (block : Block) (w : Nat) (h : blockWork block = .ok w) : 0 < w := by
  obtain ⟨target, -, rfl⟩ := (blockWork_eq_ok block w).mp h
  exact target.work_pos

namespace ChainIndex

/-- The tip names an indexed block. -/
def TipIndexed (index : ChainIndex) : Prop :=
  ∀ h, index.bestTip = some h → ∃ e, index.get h = some e

/-- The index with one more entry; the tip moves only to strictly more work. -/
def extend (index : ChainIndex) (entry : ChainIndexEntry) : ChainIndex where
  entries := index.entries.insert entry.blockHash entry
  bestTip :=
    match index.bestTip.bind index.get with
    | none => some entry.blockHash
    | some current =>
      if current.cumulativeWork < entry.cumulativeWork then some entry.blockHash
      else index.bestTip

theorem get_extend (index : ChainIndex) (entry : ChainIndexEntry) (h : BlockHash) :
    (index.extend entry).get h = if h = entry.blockHash then some entry else index.get h := by
  simp [get, extend]

theorem get_mk_insert (m : HashMap BlockHash ChainIndexEntry) (tip : Option BlockHash)
    (entry : ChainIndexEntry) (h : BlockHash) :
    (⟨m.insert entry.blockHash entry, tip⟩ : ChainIndex).get h =
      if h = entry.blockHash then some entry else m.get h := by
  simp [get]

theorem updateBestTip_inserted (index : ChainIndex) (ht : index.TipIndexed)
    (entry : ChainIndexEntry) (hn : index.get entry.blockHash = none) :
    updateBestTip { index with entries := index.entries.insert entry.blockHash entry }
      entry.blockHash = .ok (index.extend entry) := by
  unfold updateBestTip extend
  cases htip : index.bestTip with
  | none => simp [get_mk_insert]
  | some tip =>
    obtain ⟨current, hc⟩ := ht tip htip
    have hne : tip ≠ entry.blockHash := by
      rintro rfl
      simp [hn] at hc
    have hc' : index.entries.get tip = some current := hc
    by_cases hlt : current.cumulativeWork < entry.cumulativeWork <;>
      simp [get_mk_insert, hne, hc, hc', hlt]

section Insertion

variable [Crypto]

/-- The entry a new block gets: as genesis of an empty index, or below an indexed parent. -/
inductive Links (index : ChainIndex) (block : Block) : ChainIndexEntry → Prop where
  | genesis (w : Nat) (he : ∀ h, index.get h = none)
      (hp : block.header.prevBlockhash = BlockHash.default) (hw : blockWork block = .ok w) :
      Links index block ⟨block.header.blockHash, 0, w, none⟩
  | child (parent : ChainIndexEntry) (w : Nat)
      (hp : index.get block.header.prevBlockhash = some parent) (hw : blockWork block = .ok w)
      (hle : parent.cumulativeWork + w ≤ PowTarget.u128Max) :
      Links index block ⟨block.header.blockHash, parent.height + 1, parent.cumulativeWork + w,
        some block.header.prevBlockhash⟩

theorem link_eq_ok (index : ChainIndex) (block : Block) (entry : ChainIndexEntry) :
    index.link block = .ok entry ↔ index.Links block entry := by
  have hempty := HashMap.isEmpty_iff index.entries
  unfold link
  constructor
  · intro h
    obtain ⟨w, hw, h⟩ := (Res.bind_eq_ok _ _ _).mp h
    split_ifs at h with he hp
    · cases h
      exact .genesis w (hempty.mp he) (not_not.mp hp) hw
    · obtain ⟨parent, hp, h⟩ := (Res.bind_eq_ok _ _ _).mp h
      rw [Res.okOr_eq_ok] at hp
      split_ifs at h with hle
      cases h
      exact .child parent w hp hw hle
  · rintro (⟨w, he, hp, hw⟩ | ⟨parent, w, hp, hw, hle⟩)
    · rw [hw, Res.ok_bind, if_pos (hempty.mpr he), if_neg (not_not.mpr hp)]
    · have hne : ¬ index.entries.isEmpty = true := by
        intro he
        have hnone := hempty.mp he block.header.prevBlockhash
        simp [get, hnone] at hp
      rw [hw, Res.ok_bind, if_neg hne, hp]
      simp only [Res.okOr, Res.ok_bind, if_pos hle]

theorem Links.blockHash {index : ChainIndex} {block : Block} {entry : ChainIndexEntry}
    (h : index.Links block entry) : entry.blockHash = block.header.blockHash := by
  cases h <;> rfl

theorem insertBlock_of_invalid (index : ChainIndex) (block : Block) (e : Fault ConsensusError)
    (h : validateBlock block = .error e) :
    ∃ e', index.insertBlock block = (index, .error e') := by
  unfold insertBlock
  rw [h]
  cases e <;> exact ⟨_, rfl⟩

theorem insertBlock_of_known (index : ChainIndex) (block : Block) (entry : ChainIndexEntry)
    (hv : validateBlock block = .ok ()) (hg : index.get block.header.blockHash = some entry) :
    index.insertBlock block = (index, .ok entry) := by
  unfold insertBlock
  rw [hv, Res.mapErr_ok]
  simp only [hg]

theorem insertBlock_of_links (index : ChainIndex) (ht : index.TipIndexed) (block : Block)
    (entry : ChainIndexEntry) (hv : validateBlock block = .ok ())
    (hg : index.get block.header.blockHash = none) (hl : index.Links block entry) :
    index.insertBlock block = (index.extend entry, .ok entry) := by
  have hup := index.updateBestTip_inserted ht entry (hl.blockHash ▸ hg)
  rw [hl.blockHash] at hup
  unfold insertBlock
  rw [hv, Res.mapErr_ok]
  simp only [hg, (link_eq_ok index block entry).mpr hl, hup]

/-- Everything an insertion can do. -/
inductive Inserted (index : ChainIndex) (block : Block) :
    ChainIndex × Res ChainError ChainIndexEntry → Prop where
  | rejected (e : Fault ChainError) : Inserted index block (index, .error e)
  | known (entry : ChainIndexEntry) (hv : validateBlock block = .ok ())
      (hg : index.get block.header.blockHash = some entry) :
      Inserted index block (index, .ok entry)
  | added (entry : ChainIndexEntry) (hv : validateBlock block = .ok ())
      (hg : index.get block.header.blockHash = none) (hl : index.Links block entry) :
      Inserted index block (index.extend entry, .ok entry)

theorem insertBlock_inserted (index : ChainIndex) (ht : index.TipIndexed) (block : Block) :
    index.Inserted block (index.insertBlock block) := by
  cases hv : validateBlock block with
  | error e =>
    obtain ⟨e', he'⟩ := index.insertBlock_of_invalid block e hv
    exact he' ▸ .rejected e'
  | ok u =>
    cases hg : index.get block.header.blockHash with
    | some entry =>
      rw [index.insertBlock_of_known block entry hv hg]
      exact .known entry hv hg
    | none =>
      cases hl : index.link block with
      | error e =>
        have heq : index.insertBlock block = (index, .error e) := by
          unfold insertBlock
          rw [hv, Res.mapErr_ok]
          simp only [hg, hl]
        exact heq ▸ .rejected e
      | ok entry =>
        have hl := (link_eq_ok index block entry).mp hl
        rw [index.insertBlock_of_links ht block entry hv hg hl]
        exact .added entry hv hg hl

end Insertion

end ChainIndex

end Wobble
