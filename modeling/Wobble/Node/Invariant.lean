import Wobble.Node.NodeState

namespace Wobble

open Rust

namespace NodeState

/-- The state with one more block indexed and stored. -/
def withBlock (s : NodeState) (entry : ChainIndexEntry) (block : Block) : NodeState :=
  { s with
    chain := s.chain.extend entry
    blocks := s.blocks.insert entry.blockHash block }

/-- The state with one more cached view. -/
def withView (s : NodeState) (hash : BlockHash) (utxos : UtxoSet) : NodeState :=
  { s with utxoSnapshots := s.utxoSnapshots.insert hash utxos }

theorem parentView_eq_ok (s : NodeState) (parent : Option BlockHash) (v : UtxoSet) :
    s.parentView parent = .ok v ↔
      (parent = none ∧ v = HashMap.new) ∨ ∃ p, parent = some p ∧ s.utxoSnapshots.get p = some v := by
  cases parent with
  | none => simp [parentView, eq_comm]
  | some p => simp [parentView]

theorem parentView_withView (s : NodeState) (hash : BlockHash) (u v : UtxoSet)
    (parent : Option BlockHash) (hn : s.utxoSnapshots.get hash = none)
    (h : s.parentView parent = .ok v) : (s.withView hash u).parentView parent = .ok v := by
  rw [parentView_eq_ok] at h ⊢
  rcases h with h | ⟨p, hp, hv⟩
  · exact .inl h
  · have hne : p ≠ hash := by
      intro he
      rw [he, hn] at hv
      cases hv
    exact .inr ⟨p, hp, by rw [withView, HashMap.get_insert, if_neg hne, hv]⟩

variable [Crypto]

/-- What holds in every state the node can be in. Blocks and index name the same hashes, a cached
view is what its block makes of its parent's view, and the active view is a cached one. -/
structure Sound (s : NodeState) : Prop where
  index : ∃ log, s.chain.Indexes log
  stored : ∀ h, (∃ b, s.blocks.get h = some b) ↔ ∃ e, s.chain.get h = some e
  entryOf : ∀ h b e, s.blocks.get h = some b → s.chain.get h = some e →
    validateBlock b = .ok () ∧ s.chain.EntryOf b e
  views : ∀ h u, s.utxoSnapshots.get h = some u →
    ∃ e b v, s.chain.get h = some e ∧ s.blocks.get h = some b ∧
      s.parentView e.parent = .ok v ∧ applyBlock v b e.height = .ok u
  active : s.activeUtxos = HashMap.new ∨ ∃ h, s.utxoSnapshots.get h = some s.activeUtxos
  pool : s.mempool.Consistent s.activeUtxos

theorem new_sound : new.Sound where
  index := ⟨[], ChainIndex.new_indexes⟩
  stored := by simp [new, ChainIndex.new, ChainIndex.get]
  entryOf := by simp [new]
  views := by simp [new]
  active := .inl rfl
  pool := Mempool.new_consistent _

namespace Sound

variable {s : NodeState}

theorem key (hs : s.Sound) (h : BlockHash) (e : ChainIndexEntry) (he : s.chain.get h = some e) :
    e.blockHash = h := by
  obtain ⟨log, hi⟩ := hs.index
  exact ((hi.get h e).mp he).2

theorem tipIndexed (hs : s.Sound) : s.chain.TipIndexed := by
  obtain ⟨log, hi⟩ := hs.index
  exact hi.tipIndexed

theorem block_of_entry (hs : s.Sound) (h : BlockHash) (e : ChainIndexEntry)
    (he : s.chain.get h = some e) : ∃ b, s.blocks.get h = some b ∧ b.header.blockHash = h ∧
      validateBlock b = .ok () ∧ s.chain.EntryOf b e := by
  obtain ⟨b, hb⟩ := (hs.stored h).mpr ⟨e, he⟩
  obtain ⟨hv, hof⟩ := hs.entryOf h b e hb he
  exact ⟨b, hb, hof.hash.symm.trans (hs.key h e he), hv, hof⟩

theorem height_of_root (hs : s.Sound) (h : BlockHash) (e : ChainIndexEntry)
    (he : s.chain.get h = some e) (hp : e.parent = none) : e.height = 0 := by
  obtain ⟨log, hi⟩ := hs.index
  exact hi.grown.height_eq_zero e ((hi.get h e).mp he).1 hp

theorem parent_entry (hs : s.Sound) (h p : BlockHash) (e : ChainIndexEntry)
    (he : s.chain.get h = some e) (hp : e.parent = some p) :
    ∃ parent, s.chain.get p = some parent ∧ e.height = parent.height + 1 := by
  obtain ⟨log, hi⟩ := hs.index
  obtain ⟨parent, hmem, hkey, hb⟩ := hi.grown.below_of_parent e ((hi.get h e).mp he).1 p hp
  exact ⟨parent, (hi.get p parent).mpr ⟨hmem, hkey⟩, hb.height⟩

/-- Views are built block by block: what holds of the empty view and passes from a parent's
view to its child's holds of every cached view. -/
theorem view_induct (hs : s.Sound) (P : Nat → UtxoSet → Prop) (hnew : P 0 HashMap.new)
    (hstep : ∀ h e b v u, s.chain.get h = some e → s.blocks.get h = some b → P e.height v →
      applyBlock v b e.height = .ok u → P (e.height + 1) u)
    (n : Nat) (h : BlockHash) (e : ChainIndexEntry) (u : UtxoSet) (he : s.chain.get h = some e)
    (hn : e.height = n) (hu : s.utxoSnapshots.get h = some u) : P (n + 1) u := by
  induction n using Nat.strong_induction_on generalizing h e u with
  | _ n ih =>
    obtain ⟨e', b, v, he', hb, hp, ha⟩ := hs.views h u hu
    obtain rfl : e = e' := Option.some.inj (he.symm.trans he')
    have hparent : P e.height v := by
      rcases (s.parentView_eq_ok _ _).mp hp with ⟨hroot, rfl⟩ | ⟨p, hpar, hv⟩
      · rw [hs.height_of_root h e he hroot]
        exact hnew
      · obtain ⟨parent, hget, hheight⟩ := hs.parent_entry h p e he hpar
        rw [hheight]
        exact ih parent.height (by omega) p parent v hget rfl hv
    rw [← hn]
    exact hstep h e b v u he hb hparent ha

theorem withBlock (hs : s.Sound) (block : Block) (entry : ChainIndexEntry)
    (hv : validateBlock block = .ok ()) (hg : s.chain.get block.header.blockHash = none)
    (hl : s.chain.Links block entry) : (s.withBlock entry block).Sound := by
  have hn : s.chain.get entry.blockHash = none := hl.blockHash ▸ hg
  have hget : ∀ h, (s.withBlock entry block).chain.get h =
      if h = entry.blockHash then some entry else s.chain.get h := s.chain.get_extend entry
  have hblk : ∀ h, (s.withBlock entry block).blocks.get h =
      if h = entry.blockHash then some block else s.blocks.get h :=
    fun h => s.blocks.get_insert _ h _
  refine ⟨?_, ?_, ?_, ?_, hs.active, hs.pool⟩
  · obtain ⟨log, hi⟩ := hs.index
    exact ⟨_, hi.extend entry (hi.grown_of_links block entry hg hl)⟩
  · intro h
    rw [hget, hblk]
    by_cases he : h = entry.blockHash
    · simp [he]
    · simp only [if_neg he]
      exact hs.stored h
  · intro h b e hb he
    rw [hblk] at hb
    rw [hget] at he
    by_cases hh : h = entry.blockHash
    · rw [if_pos hh] at hb he
      cases hb
      cases he
      exact ⟨hv, hl.entryOf hg⟩
    · rw [if_neg hh] at hb he
      obtain ⟨hval, hof⟩ := hs.entryOf h b e hb he
      exact ⟨hval, hof.extend entry hn⟩
  · intro h u hu
    obtain ⟨e, b, v, he, hb, hp, ha⟩ := hs.views h u hu
    have hne : h ≠ entry.blockHash := by
      intro hh
      rw [hh, hn] at he
      cases he
    exact ⟨e, b, v, by rw [hget, if_neg hne, he], by rw [hblk, if_neg hne, hb], hp, ha⟩

theorem withView (hs : s.Sound) (h : BlockHash) (e : ChainIndexEntry) (b : Block)
    (v u : UtxoSet) (he : s.chain.get h = some e) (hb : s.blocks.get h = some b)
    (hn : s.utxoSnapshots.get h = none) (hp : s.parentView e.parent = .ok v)
    (ha : applyBlock v b e.height = .ok u) : (s.withView h u).Sound := by
  have hget : ∀ h', (s.withView h u).utxoSnapshots.get h' =
      if h' = h then some u else s.utxoSnapshots.get h' :=
    fun h' => s.utxoSnapshots.get_insert _ h' _
  refine ⟨hs.index, hs.stored, hs.entryOf, ?_, ?_, hs.pool⟩
  · intro h' u' hu'
    rw [hget] at hu'
    by_cases hh : h' = h
    · rw [if_pos hh] at hu'
      cases hu'
      rw [hh]
      exact ⟨e, b, v, he, hb, s.parentView_withView h u v _ hn hp, ha⟩
    · rw [if_neg hh] at hu'
      obtain ⟨e', b', v', he', hb', hp', ha'⟩ := hs.views h' u' hu'
      exact ⟨e', b', v', he', hb', s.parentView_withView h u v' _ hn hp', ha'⟩
  · rcases hs.active with hnew | ⟨h', hh'⟩
    · exact .inl hnew
    · have hne : h' ≠ h := by
        intro he'
        rw [he', hn] at hh'
        cases hh'
      exact .inr ⟨h', by rw [hget, if_neg hne]; exact hh'⟩

theorem withPool (hs : s.Sound) (mempool : Mempool) (hc : mempool.Consistent s.activeUtxos) :
    Sound { s with mempool := mempool } :=
  ⟨hs.index, hs.stored, hs.entryOf, hs.views, hs.active, hc⟩

theorem withActive (hs : s.Sound) (h : BlockHash) (u : UtxoSet) (mempool : Mempool)
    (hu : s.utxoSnapshots.get h = some u) (hc : mempool.Consistent u) :
    Sound { s with activeUtxos := u, mempool := mempool } :=
  ⟨hs.index, hs.stored, hs.entryOf, hs.views, .inr ⟨h, hu⟩, hc⟩

end Sound

end NodeState

end Wobble
