import Wobble.Node.Ownership
import Wobble.Node.Replay

namespace Wobble

open Rust GrowingTree

namespace NodeState

section Tips

/-- The cumulative work of the best tip. -/
def tipWork (s : NodeState) : Option Nat :=
  (s.chain.bestTip.bind s.chain.get).map ChainIndexEntry.cumulativeWork

/-- The block has more cumulative work than any other. -/
def SoleMax (s : NodeState) (h : BlockHash) : Prop :=
  ∃ e, s.chain.get h = some e ∧
    ∀ h' e', s.chain.get h' = some e' → h' ≠ h → e'.cumulativeWork < e.cumulativeWork

theorem tipWork_eq (s : NodeState) (log : List ChainIndexEntry) (hi : s.chain.Indexes log) :
    s.tipWork = (log.argmax ChainIndexEntry.cumulativeWork).map
      ChainIndexEntry.cumulativeWork := by
  rw [tipWork, hi.tip]
  cases hm : log.argmax ChainIndexEntry.cumulativeWork with
  | none => rfl
  | some m => rw [Option.map_some, Option.bind_some, hi.get_mem m (List.argmax_mem hm)]

theorem SoleMax.bestTip {s : NodeState} {h : BlockHash} (hm : s.SoleMax h)
    (log : List ChainIndexEntry) (hi : s.chain.Indexes log) : s.chain.bestTip = some h := by
  obtain ⟨e, he, hmax⟩ := hm
  obtain ⟨hmem, hkey⟩ := (hi.get h e).mp he
  cases htop : log.argmax ChainIndexEntry.cumulativeWork with
  | none =>
    rw [List.argmax_eq_none.mp htop] at hmem
    cases hmem
  | some m =>
    refine (hi.tip_eq_some h).mpr ⟨m, htop, ?_⟩
    by_contra hne
    have hlt := hmax m.blockHash m (hi.get_mem m (List.argmax_mem htop)) hne
    have hle := List.le_of_mem_argmax hmem htop
    omega

end Tips

section Order

variable [Crypto]

/-- The state holds exactly the given blocks, each under its own hash. -/
structure Holds (s : NodeState) (blocks : List Block) : Prop where
  complete : s.Complete
  stored : ∀ b ∈ blocks, s.blocks.get b.header.blockHash = some b
  known : ∀ h e, s.chain.get h = some e → ∃ b ∈ blocks, b.header.blockHash = h

theorem new_holds : new.Holds [] where
  complete := new_complete
  stored := by simp
  known := by simp [new, ChainIndex.new, ChainIndex.get]

/-- A block that was indexed for the first time is stored, and nothing else changes in the
index and among the blocks. -/
theorem Accepts.added {s t : NodeState} {block : Block} (hacc : s.Accepts block (t, .ok ()))
    (hn : s.chain.get block.header.blockHash = none) :
    ∃ entry, entry.blockHash = block.header.blockHash ∧ t.chain = s.chain.extend entry ∧
      t.blocks = s.blocks.insert block.header.blockHash block := by
  have hadded : ∀ {entry t₁}, s.Indexed block entry t₁ → s.chain.Links block entry ∧
      t₁ = s.withBlock entry block := by
    intro entry t₁ hi
    cases hi with
    | known hv hg =>
      rw [hn] at hg
      cases hg
    | added hv hg hl => exact ⟨hl, rfl⟩
  generalize hresult : (t, (.ok () : Res NodeStateError Unit)) = result at hacc
  cases hacc with
  | rejected e => cases e <;> cases hresult
  | unapplied entry t₁ e hi _ _ => cases hresult
  | side entry t₁ t₂ u hi hv _ =>
    obtain ⟨rfl, -⟩ := Prod.mk.inj hresult
    obtain ⟨hl, rfl⟩ := hadded hi
    refine ⟨entry, hl.blockHash, hv.chain, ?_⟩
    rw [← hl.blockHash]
    cases hv <;> rfl
  | tip entry t₁ t₂ u pool hi hv _ _ =>
    obtain ⟨rfl, -⟩ := Prod.mk.inj hresult
    obtain ⟨hl, rfl⟩ := hadded hi
    refine ⟨entry, hl.blockHash, hv.chain, ?_⟩
    rw [← hl.blockHash]
    cases hv <;> rfl

theorem Holds.accept {s t : NodeState} {blocks : List Block} (hs : s.Holds blocks)
    (block : Block) (hn : block.header.blockHash ∉ blocks.map fun b => b.header.blockHash)
    (hacc : s.acceptBlock block = (t, .ok ())) : t.Holds (blocks ++ [block]) := by
  have hnone : s.chain.get block.header.blockHash = none := by
    cases hget : s.chain.get block.header.blockHash with
    | none => rfl
    | some e =>
      obtain ⟨b, hb, hhash⟩ := hs.known _ e hget
      exact absurd (List.mem_map.mpr ⟨b, hb, hhash⟩) hn
  have haccepts := hs.complete.sound.acceptBlock_accepts block
  rw [hacc] at haccepts
  obtain ⟨entry, hkey, hchain, hblocks⟩ := haccepts.added hnone
  have hcomplete := hs.complete.acceptBlock block (by rw [hacc])
  rw [hacc] at hcomplete
  refine ⟨hcomplete, ?_, ?_⟩
  · intro b hb
    rw [hblocks, HashMap.get_insert]
    rcases List.mem_append.mp hb with hb | hb
    · have hne : b.header.blockHash ≠ block.header.blockHash := fun he =>
        hn (he ▸ List.mem_map_of_mem hb)
      rw [if_neg hne, hs.stored b hb]
    · obtain rfl : b = block := by simpa using hb
      exact if_pos rfl
  · intro h e he
    rw [hchain, ChainIndex.get_extend] at he
    split_ifs at he with hh
    · exact ⟨block, by simp, (hh.trans hkey).symm⟩
    · obtain ⟨b, hb, hhash⟩ := hs.known h e he
      exact ⟨b, List.mem_append_left _ hb, hhash⟩

theorem acceptAll_concat (s t : NodeState) (blocks : List Block) (block : Block)
    (h : s.acceptAll (blocks ++ [block]) = .ok t) :
    ∃ r, s.acceptAll blocks = .ok r ∧ r.acceptBlock block = (t, .ok ()) := by
  induction blocks generalizing s with
  | nil =>
    refine ⟨s, rfl, ?_⟩
    rw [List.nil_append, acceptAll] at h
    split at h
    · next r hr =>
      cases h
      exact hr
    · cases h
  | cons b rest ih =>
    rw [List.cons_append, acceptAll] at h
    split at h
    · next r hr =>
      obtain ⟨q, hq, hacc⟩ := ih r h
      refine ⟨q, ?_, hacc⟩
      rw [acceptAll, hr]
      exact hq
    · cases h

/-- A run of blocks with distinct hashes stores them all and indexes no other. -/
theorem holds_of_acceptAll (s : NodeState) (blocks : List Block)
    (hn : (blocks.map fun b => b.header.blockHash).Nodup)
    (hrun : new.acceptAll blocks = .ok s) : s.Holds blocks := by
  induction blocks using List.reverseRecOn generalizing s with
  | nil =>
    cases hrun
    exact new_holds
  | append_singleton blocks block ih =>
    obtain ⟨r, hr, hacc⟩ := acceptAll_concat new s blocks block hrun
    rw [List.map_append, List.nodup_append] at hn
    refine (ih r hn.1 hr).accept block ?_ hacc
    intro hmem
    exact hn.2.2 _ hmem _ (by simp) rfl

/-- The hash a block was indexed below. -/
def parentOf (s : NodeState) (b : Block) : Option BlockHash :=
  (s.chain.get b.header.blockHash).bind ChainIndexEntry.parent

/-- No block stands before its parent. -/
def ParentsFirst (s : NodeState) (order : List Block) : Prop :=
  order.Pairwise fun a b => s.parentOf a ≠ some b.header.blockHash

/-- In the entries of such an order parents come first. -/
theorem Holds.entries_grown {s : NodeState} {blocks order : List Block} (hs : s.Holds blocks)
    (hn : (blocks.map fun b => b.header.blockHash).Nodup) (hperm : order.Perm blocks)
    (hfirst : s.ParentsFirst order) (log : List ChainIndexEntry)
    (hlog : order.map (fun b => s.chain.get b.header.blockHash) = log.map some) :
    Grown entryView log := by
  have hsound := hs.complete.sound
  obtain ⟨all, hi⟩ := hsound.index
  have hsub : ∀ e ∈ log, s.chain.get e.blockHash = some e := by
    intro e he
    have hmem : some e ∈ log.map some := List.mem_map_of_mem he
    rw [← hlog] at hmem
    obtain ⟨b, -, hb⟩ := List.mem_map.mp hmem
    rw [hsound.key _ e hb, hb]
  have hkeys : log.map ChainIndexEntry.blockHash = order.map fun b => b.header.blockHash := by
    refine List.map_injective_iff.mpr (Option.some_injective _) ?_
    have hbs := congrArg (List.map (Option.map ChainIndexEntry.blockHash)) hlog
    rw [List.map_map, List.map_map] at hbs
    rw [List.map_map, List.map_map]
    refine hbs.symm.trans (List.map_congr_left fun b hb => ?_)
    obtain ⟨e, he⟩ := (hsound.stored b.header.blockHash).mp ⟨b, hs.stored b (hperm.mem_iff.mp hb)⟩
    rw [Function.comp_apply, he, Option.map_some, hsound.key _ e he]
    rfl
  refine hi.grown.of_linear_order log (fun e he => ((hi.get _ _).mp (hsub e he)).1) ?_ ?_
  · change (log.map ChainIndexEntry.blockHash).Nodup
    rw [hkeys]
    exact (hperm.map _).nodup_iff.mpr hn
  · intro before e after horder p hp
    have he := hsub e (by simp [horder])
    rw [horder, List.map_append, List.map_cons, List.map_eq_append_iff] at hlog
    obtain ⟨l₁, l₂, rfl, h₁, h₂⟩ := hlog
    obtain ⟨b, l₃, rfl, hb, h₃⟩ := List.map_eq_cons_iff.mp h₂
    -- the parent is one of the blocks; it is not this one and does not come later
    obtain ⟨parent, hpar, hheight⟩ := hsound.parent_entry _ p e he hp
    obtain ⟨b', hb', hhash⟩ := hs.known p parent hpar
    have hparent : s.parentOf b = some b'.header.blockHash := by
      rw [parentOf, hb, Option.bind_some, hhash]
      exact hp
    rw [ParentsFirst, List.pairwise_append, List.pairwise_cons] at hfirst
    rcases List.mem_append.mp (hperm.mem_iff.mpr hb') with hmem | hmem
    · have hget : some parent ∈ before.map some := by
        rw [← h₁, ← hpar, ← hhash]
        exact List.mem_map.mpr ⟨b', hmem, rfl⟩
      obtain ⟨q, hq, heq⟩ := List.mem_map.mp hget
      obtain rfl := Option.some.inj heq
      exact ⟨q, hq, hsound.key p q hpar⟩
    · rcases List.mem_cons.mp hmem with rfl | hmem
      · rw [hhash, hpar] at hb
        obtain rfl := Option.some.inj hb
        omega
      · exact absurd hparent (hfirst.2.1.1 b' hmem)

theorem Holds.entries_of_order {s : NodeState} {blocks order : List Block} (hs : s.Holds blocks)
    (hsub : ∀ b ∈ order, b ∈ blocks) :
    ∃ log, order.map (fun b => s.chain.get b.header.blockHash) = log.map some ∧
      s.blocksOf log = order := by
  induction order with
  | nil => exact ⟨[], rfl, rfl⟩
  | cons b rest ih =>
    obtain ⟨hb, hrest⟩ := List.forall_mem_cons.mp hsub
    obtain ⟨log, hlog, hblocks⟩ := ih hrest
    have hstored := hs.stored b hb
    obtain ⟨e, he⟩ := (hs.complete.sound.stored b.header.blockHash).mp ⟨b, hstored⟩
    refine ⟨e :: log, by rw [List.map_cons, List.map_cons, he, hlog], ?_⟩
    rw [blocksOf, List.filterMap_cons, hs.complete.sound.key _ e he, hstored]
    exact congrArg (List.cons b) hblocks

/-- The order in which blocks arrive is not seen in what is stored, and in the choice of the tip
only when several blocks have the most work. -/
theorem arrival_order (blocks order : List Block) (s : NodeState)
    (hn : (blocks.map fun b => b.header.blockHash).Nodup)
    (hrun : new.acceptAll blocks = .ok s) (hperm : order.Perm blocks)
    (hfirst : s.ParentsFirst order) :
    ∃ t, new.acceptAll order = .ok t ∧ t.chain.entries = s.chain.entries ∧
      t.blocks = s.blocks ∧ t.utxoSnapshots = s.utxoSnapshots ∧ t.tipWork = s.tipWork ∧
      ∀ h, s.SoleMax h → s.chain.bestTip = some h ∧ t.chain.bestTip = some h ∧
        t.activeUtxos = s.activeUtxos := by
  have hs := holds_of_acceptAll s blocks hn hrun
  have hsound := hs.complete.sound
  obtain ⟨all, hi⟩ := hsound.index
  obtain ⟨log, hlog, hblocks⟩ := hs.entries_of_order fun b hb => hperm.mem_iff.mp hb
  have hgrown := hs.entries_grown hn hperm hfirst log hlog
  have hmem : ∀ h e, s.chain.get h = some e ↔ e ∈ log ∧ e.blockHash = h := by
    intro h e
    constructor
    · intro he
      obtain ⟨b, hb, rfl⟩ := hs.known h e he
      have hin : some e ∈ log.map some := by
        rw [← hlog, ← he]
        exact List.mem_map.mpr ⟨b, hperm.mem_iff.mpr hb, rfl⟩
      obtain ⟨e', he', heq⟩ := List.mem_map.mp hin
      exact ⟨Option.some.inj heq ▸ he', hsound.key _ e he⟩
    · intro h
      obtain ⟨he, rfl⟩ := h
      have hin : some e ∈ log.map some := List.mem_map_of_mem he
      rw [← hlog] at hin
      obtain ⟨b, -, hb⟩ := List.mem_map.mp hin
      rw [hsound.key _ e hb, hb]
  obtain ⟨t, hrun', hr⟩ := hs.complete.replay log hgrown fun e he => (hmem _ e).mpr ⟨he, rfl⟩
  rw [hblocks] at hrun'
  obtain ⟨hentries, hstored, hviews⟩ := hr.maps_eq hsound hmem
  refine ⟨t, hrun', hentries, hstored, hviews, ?_, ?_⟩
  · have hsame : log.Perm all := by
      refine (List.perm_ext_iff_of_nodup (List.Nodup.of_map _ hgrown.keys_nodup)
        (List.Nodup.of_map _ hi.hashes_nodup)).mpr fun e => ?_
      have h₁ := hmem e.blockHash e
      have h₂ := hi.get e.blockHash e
      simp only [and_true] at h₁ h₂
      exact h₁.symm.trans h₂
    rw [t.tipWork_eq log hr.index, s.tipWork_eq all hi, argmax_perm _ _ _ hsame]
  · intro h hmax
    have htip := hmax.bestTip all hi
    have hmax' : t.SoleMax h := by
      obtain ⟨e, he, hlt⟩ := hmax
      have hget : ∀ h', t.chain.get h' = s.chain.get h' := fun h' =>
        congrArg (fun m : HashMap BlockHash ChainIndexEntry => m.get h') hentries
      exact ⟨e, (hget h).trans he, fun h' e' he' => hlt h' e' ((hget h').symm.trans he')⟩
    have htip' := hmax'.bestTip log hr.index
    exact ⟨htip, htip', hs.complete.active_eq hr.complete (htip'.trans htip.symm) hviews⟩

theorem acceptAll_cons (s : NodeState) (block : Block) (rest : List Block)
    (h : (s.acceptBlock block).2 = .ok ()) :
    s.acceptAll (block :: rest) = (s.acceptBlock block).1.acceptAll rest := by
  rw [acceptAll]
  generalize s.acceptBlock block = result at h
  obtain ⟨t, r⟩ := result
  obtain rfl : r = .ok () := h
  rfl

end Order

section ForkOrder

attribute [local instance] takeCrypto

theorem forkBlocks_order :
    ∃ s t, new.acceptAll [sampleGenesis, sampleBlock, repeatBlock] = .ok s ∧
      new.acceptAll [sampleGenesis, repeatBlock, sampleBlock] = .ok t ∧
      t.chain.entries = s.chain.entries ∧ t.blocks = s.blocks ∧
      t.utxoSnapshots = s.utxoSnapshots ∧ t.tipWork = s.tipWork ∧
      ∀ h, s.SoleMax h → s.chain.bestTip = some h ∧ t.chain.bestTip = some h ∧
        t.activeUtxos = s.activeUtxos := by
  have hrun : new.acceptAll [sampleGenesis, sampleBlock, repeatBlock] =
      .ok (((new.acceptBlock sampleGenesis).1.acceptBlock sampleBlock).1.acceptBlock
        repeatBlock).1 := by
    rw [acceptAll_cons _ _ _ (by decide +kernel), acceptAll_cons _ _ _ (by decide +kernel),
      acceptAll_cons _ _ _ (by decide +kernel), acceptAll]
  obtain ⟨t, ht⟩ := arrival_order [sampleGenesis, sampleBlock, repeatBlock]
    [sampleGenesis, repeatBlock, sampleBlock] _ (by decide +kernel) hrun
    (List.Perm.cons _ (List.Perm.swap _ _ _)) (by rw [ParentsFirst]; decide +kernel)
  exact ⟨_, t, hrun, ht⟩

end ForkOrder

end NodeState

end Wobble
