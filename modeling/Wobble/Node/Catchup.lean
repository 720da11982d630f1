import Wobble.Chain.Work
import Wobble.Node.ArrivalOrder
import Wobble.Store.BestChain

namespace Wobble

open Rust GrowingTree

namespace NodeState

/-- The two states have the same entry, block and view under a hash. -/
structure AgreeAt (s t : NodeState) (h : BlockHash) : Prop where
  entry : s.chain.get h = t.chain.get h
  block : s.blocks.get h = t.blocks.get h
  view : s.utxoSnapshots.get h = t.utxoSnapshots.get h

theorem AgreeAt.trans {s t u : NodeState} {h : BlockHash} (hst : s.AgreeAt t h)
    (htu : t.AgreeAt u h) : s.AgreeAt u h :=
  ⟨hst.entry.trans htu.entry, hst.block.trans htu.block, hst.view.trans htu.view⟩

theorem AgreeAt.parentView {s t : NodeState} {p : BlockHash} (h : s.AgreeAt t p) :
    s.parentView (some p) = t.parentView (some p) := by
  rw [NodeState.parentView, NodeState.parentView, h.view]

/-- A local and a remote node that can be synchronised: equal hashes stand for equal blocks, there
are not two different roots, and no block of the remote node has the zero hash, which headers use
for the parent of the root. -/
structure Kindred (ours theirs : NodeState) : Prop where
  blocks : ∀ h b b', ours.blocks.get h = some b → theirs.blocks.get h = some b' → b = b'
  genesis : ∀ h e h' e', ours.chain.get h = some e → e.parent = none →
    theirs.chain.get h' = some e' → e'.parent = none → h = h'
  nonzero : theirs.blocks.get BlockHash.default = none

section Catchup

variable [Crypto] {ours theirs : NodeState}

/-- A node with a block has a root. -/
theorem Sound.exists_root {s : NodeState} (hs : s.Sound) (h : BlockHash) (e : ChainIndexEntry)
    (he : s.chain.get h = some e) : ∃ h' r, s.chain.get h' = some r ∧ r.parent = none := by
  obtain ⟨log, hi⟩ := hs.index
  obtain ⟨r, hhead, hroot, -⟩ := hi.grown.head_root (List.ne_nil_of_mem ((hi.get h e).mp he).1)
  exact ⟨r.blockHash, r, hi.get_mem r (List.mem_of_mem_head? hhead), hroot⟩

/-- A block and the entry of its parent determine its entry. -/
theorem entryOf_unique {index index' : ChainIndex} {b : Block} {e e' : ChainIndexEntry}
    (h : index.EntryOf b e) (h' : index'.EntryOf b e') (hparent : e.parent = e'.parent)
    (hget : ∀ p, e.parent = some p → index.get p = index'.get p) : e = e' := by
  obtain ⟨w, hw, -, hlink⟩ := h.work
  obtain ⟨w', hw', -, hlink'⟩ := h'.work
  obtain rfl : w = w' := Except.ok.inj (hw.symm.trans hw')
  have hhash := h.hash.trans h'.hash.symm
  obtain ⟨hash, height, work, parent⟩ := e
  obtain ⟨hash', height', work', parent'⟩ := e'
  obtain rfl : hash = hash' := hhash
  obtain rfl : parent = parent' := hparent
  cases parent with
  | none =>
    obtain ⟨-, rfl, rfl⟩ := hlink
    obtain ⟨-, rfl, rfl⟩ := hlink'
    rfl
  | some p =>
    obtain ⟨-, q, hq, hheight, hwork, hle, -⟩ := hlink
    obtain ⟨-, q', hq', hheight', hwork', hle', -⟩ := hlink'
    obtain rfl : q = q' := Option.some.inj (hq.symm.trans ((hget p rfl).trans hq'))
    dsimp only at hheight hheight' hwork hwork' hle hle'
    obtain rfl : height = height' := by omega
    obtain rfl : work = work' := by omega
    rfl

/-- The view of a block comes from its parent's. -/
theorem view_unique (ho : ours.Complete) (ht : theirs.Complete) {h : BlockHash} {b : Block}
    {e : ChainIndexEntry} (he : ours.chain.get h = some e) (he' : theirs.chain.get h = some e)
    (hb : ours.blocks.get h = some b) (hb' : theirs.blocks.get h = some b)
    (hparent : ours.parentView e.parent = theirs.parentView e.parent) :
    ours.utxoSnapshots.get h = theirs.utxoSnapshots.get h := by
  obtain ⟨u, hu⟩ := ho.viewed h e he
  obtain ⟨u', hu'⟩ := ht.viewed h e he'
  obtain ⟨e₁, b₁, v, he₁, hb₁, hp, ha⟩ := ho.sound.views h u hu
  obtain ⟨e₂, b₂, v', he₂, hb₂, hp', ha'⟩ := ht.sound.views h u' hu'
  obtain rfl : e = e₁ := Option.some.inj (he.symm.trans he₁)
  obtain rfl : e = e₂ := Option.some.inj (he'.symm.trans he₂)
  obtain rfl : b = b₁ := Option.some.inj (hb.symm.trans hb₁)
  obtain rfl : b = b₂ := Option.some.inj (hb'.symm.trans hb₂)
  obtain rfl : v = v' := Except.ok.inj (hp.symm.trans (hparent.trans hp'))
  obtain rfl : u = u' := Except.ok.inj (ha.symm.trans ha')
  rw [hu, hu']

theorem Sound.nonzero {s : NodeState} (hs : s.Sound)
    (hzero : ∀ h b, s.blocks.get h = some b → b.header.blockHash ≠ BlockHash.default) :
    s.blocks.get BlockHash.default = none := by
  cases hb : s.blocks.get BlockHash.default with
  | none => rfl
  | some b =>
    obtain ⟨e, he⟩ := (hs.stored _).mp ⟨b, hb⟩
    obtain ⟨b', hb', hhash, -⟩ := hs.block_of_entry _ e he
    obtain rfl : b = b' := Option.some.inj (hb.symm.trans hb')
    exact absurd hhash (hzero _ b hb)

/-- The parent of a block that is not the root is named by its header, and is not the zero hash. -/
theorem Kindred.parent_ne_default (hk : Kindred ours theirs) (ht : theirs.Sound) {b : Block}
    {e : ChainIndexEntry} (hof : theirs.chain.EntryOf b e) {p : BlockHash}
    (hp : e.parent = some p) :
    b.header.prevBlockhash = p ∧ b.header.prevBlockhash ≠ BlockHash.default := by
  obtain ⟨w, -, -, hlink⟩ := hof.work
  rw [hp] at hlink
  obtain ⟨hprev, q, hq, -⟩ := hlink
  refine ⟨hprev.symm, fun hdefault => ?_⟩
  obtain ⟨b', hb', -⟩ := ht.block_of_entry p q hq
  rw [hprev, hdefault, hk.nonzero] at hb'
  cases hb'

/-- A block both nodes have is a root in both or in neither. -/
theorem Kindred.parent_eq (hk : Kindred ours theirs) (ho : ours.Sound) (ht : theirs.Sound)
    {h : BlockHash} {b : Block} {e e' : ChainIndexEntry} (he : ours.chain.get h = some e)
    (he' : theirs.chain.get h = some e') (hof : ours.chain.EntryOf b e)
    (hof' : theirs.chain.EntryOf b e') : e.parent = e'.parent := by
  obtain ⟨w, -, -, hlink⟩ := hof.work
  obtain ⟨w', -, -, hlink'⟩ := hof'.work
  cases hp : e.parent with
  | none =>
    cases hp' : e'.parent with
    | none => rfl
    | some p' =>
      rw [hp] at hlink
      exact absurd hlink.1 (hk.parent_ne_default ht hof' hp').2
  | some p =>
    cases hp' : e'.parent with
    | none =>
      obtain ⟨root, r, hr, hroot⟩ := ho.exists_root h e he
      obtain rfl := hk.genesis root r h e' hr hroot he' hp'
      obtain rfl : r = e := Option.some.inj (hr.symm.trans he)
      cases hroot.symm.trans hp
    | some p' =>
      rw [hp] at hlink
      rw [hp'] at hlink'
      rw [hlink.1, hlink'.1]

/-- Where both nodes know a block, they agree. -/
theorem Kindred.agreeAt (hk : Kindred ours theirs) (ho : ours.Complete) (ht : theirs.Complete)
    (n : Nat) (h : BlockHash) (e e' : ChainIndexEntry) (hn : e'.height = n)
    (he : ours.chain.get h = some e) (he' : theirs.chain.get h = some e') :
    ours.AgreeAt theirs h := by
  induction n using Nat.strong_induction_on generalizing h e e' with
  | _ n ih =>
    obtain ⟨b, hb, -, -, hof⟩ := ho.sound.block_of_entry h e he
    obtain ⟨b', hb', -, -, hof'⟩ := ht.sound.block_of_entry h e' he'
    obtain rfl := hk.blocks h b b' hb hb'
    have hparent := hk.parent_eq ho.sound ht.sound he he' hof hof'
    have hagree : ∀ p, e.parent = some p → ours.AgreeAt theirs p := by
      intro p hp
      obtain ⟨q, hq, -⟩ := ho.sound.parent_entry h p e he hp
      obtain ⟨q', hq', hheight⟩ := ht.sound.parent_entry h p e' he' (hparent ▸ hp)
      exact ih q'.height (by omega) p q q' rfl hq hq'
    obtain rfl := entryOf_unique hof hof' hparent fun p hp => (hagree p hp).entry
    refine ⟨he.trans he'.symm, hb.trans hb'.symm, view_unique ho ht he he' hb hb' ?_⟩
    cases hp : e.parent with
    | none => rfl
    | some p => exact (hagree p hp).parentView

/-- The blocks of a chain of `theirs` that are not in `ours`. -/
def lacking (ours theirs : NodeState) (es : List ChainIndexEntry) : List Block :=
  (theirs.blocksOf es).filter fun block => (ours.blocks.get block.header.blockHash).isNone

theorem lacking_concat (ht : theirs.Sound) (es : List ChainIndexEntry) (e : ChainIndexEntry)
    {b : Block} (he : theirs.chain.get e.blockHash = some e)
    (hb : theirs.blocks.get e.blockHash = some b) :
    lacking ours theirs (es ++ [e]) = lacking ours theirs es ++
      if (ours.blocks.get e.blockHash).isNone then [b] else [] := by
  obtain ⟨b', hb', hhash, -⟩ := ht.block_of_entry _ e he
  obtain rfl : b = b' := Option.some.inj (hb.symm.trans hb')
  rw [lacking, blocksOf_append, List.filter_append, theirs.blocksOf_singleton e b hb]
  simp [lacking, List.filter_cons, hhash]

theorem lacking_concat_new (ht : theirs.Sound) (es : List ChainIndexEntry) (e : ChainIndexEntry)
    {b : Block} (he : theirs.chain.get e.blockHash = some e)
    (hb : theirs.blocks.get e.blockHash = some b) (hn : ours.blocks.get e.blockHash = none) :
    lacking ours theirs (es ++ [e]) = lacking ours theirs es ++ [b] := by
  rw [lacking_concat ht es e he hb, hn, Option.isNone_none, if_pos rfl]

/-- A node that knows the end of a chain knows all of it. -/
theorem Kindred.knows_path (hk : Kindred ours theirs) (ho : ours.Complete) (ht : theirs.Complete)
    {start : Option BlockHash} {es : List ChainIndexEntry}
    (hp : Path entryView theirs.chain.get start es)
    (hstart : ∀ h, start = some h → ∃ e, ours.chain.get h = some e) :
    lacking ours theirs es = [] := by
  induction hp with
  | nil => rfl
  | @snoc h e es he hes ih =>
    obtain ⟨x, hx⟩ := hstart h rfl
    have hagree := hk.agreeAt ho ht _ h x e rfl hx he
    obtain rfl := ht.sound.key h e he
    obtain ⟨b, hb, -⟩ := ht.sound.block_of_entry _ e he
    rw [lacking_concat ht.sound es e he hb, hagree.block, hb, ih]
    · rfl
    · intro p hp
      obtain ⟨q, hq, -⟩ := ho.sound.parent_entry _ p e (hagree.entry.trans he) hp
      exact ⟨q, hq⟩

/-- What is lacking is one piece of the chain, and the block at the end of the chain is the last
of it. -/
theorem Kindred.lacking_linked (hk : Kindred ours theirs) (ho : ours.Complete)
    (ht : theirs.Complete) {start : Option BlockHash} {es : List ChainIndexEntry}
    (hp : Path entryView theirs.chain.get start es) :
    (lacking ours theirs es).IsChain (fun b b' => b'.header.prevBlockhash = b.header.blockHash) ∧
      ∀ b ∈ (lacking ours theirs es).getLast?, start = some b.header.blockHash := by
  induction hp with
  | nil => simp [lacking, blocksOf]
  | @snoc h e es he hes ih =>
    have hpath : Path entryView theirs.chain.get (some h) (es ++ [e]) := .snoc he hes
    obtain rfl := ht.sound.key h e he
    obtain ⟨b, hb, hhash, -, hof⟩ := ht.sound.block_of_entry _ e he
    cases hknown : ours.blocks.get e.blockHash with
    | some b' =>
      obtain ⟨x, hx⟩ := (ho.sound.stored _).mp ⟨b', hknown⟩
      rw [hk.knows_path ho ht hpath (by rintro _ ⟨⟩; exact ⟨x, hx⟩)]
      simp
    | none =>
      rw [lacking_concat_new ht.sound es e he hb hknown]
      refine ⟨List.isChain_append.mpr ⟨ih.1, .singleton b, ?_⟩, by simp [hhash]⟩
      intro c hc d hd
      obtain rfl : b = d := by simpa using hd
      exact (hk.parent_ne_default ht.sound hof (ih.2 c hc)).1

/-- `now` is `ours` with the blocks of `es` added that it lacked, and agrees with `theirs` on
all of `es`. -/
structure CaughtUp (ours theirs now : NodeState) (es : List ChainIndexEntry) : Prop where
  complete : now.Complete
  keeps : ∀ h e, ours.chain.get h = some e → now.AgreeAt ours h
  only : ∀ h e, now.chain.get h = some e →
    (∃ x, ours.chain.get h = some x) ∨ ∃ x ∈ es, x.blockHash = h
  shares : ∀ e ∈ es, now.AgreeAt theirs e.blockHash

theorem caughtUp_nil (ho : ours.Complete) : CaughtUp ours theirs ours [] where
  complete := ho
  keeps _ _ _ := ⟨rfl, rfl, rfl⟩
  only _ e he := .inl ⟨e, he⟩
  shares := by simp

section Step

variable {now : NodeState} {es : List ChainIndexEntry} {e : ChainIndexEntry}

/-- A block that was known is shared already. -/
theorem CaughtUp.known (hc : CaughtUp ours theirs now es) (hk : Kindred ours theirs)
    (ho : ours.Complete) (ht : theirs.Complete) {x : ChainIndexEntry}
    (hx : ours.chain.get e.blockHash = some x) (he : theirs.chain.get e.blockHash = some e) :
    CaughtUp ours theirs now (es ++ [e]) where
  complete := hc.complete
  keeps := hc.keeps
  only h y hy := (hc.only h y hy).imp_right fun hmem => by
    obtain ⟨z, hz, rfl⟩ := hmem
    exact ⟨z, List.mem_append_left _ hz, rfl⟩
  shares y hy := by
    rcases List.mem_append.mp hy with hy | hy
    · exact hc.shares y hy
    · obtain rfl : y = e := by simpa using hy
      exact (hc.keeps _ x hx).trans (hk.agreeAt ho ht _ _ x y rfl hx he)

/-- The blocks of a chain have different hashes. -/
theorem Sound.path_fresh {s : NodeState} (hs : s.Sound) (he : s.chain.get e.blockHash = some e)
    (hp : Path entryView s.chain.get e.parent es) (x : ChainIndexEntry) (hx : x ∈ es) :
    x.blockHash ≠ e.blockHash := by
  intro hsame
  obtain ⟨log, hi⟩ := hs.index
  have hpath : Path entryView s.chain.get (some e.blockHash) (es ++ [e]) := .snoc he hp
  have hinc := hpath.work_increasing hi.work_lt
  have hlt := (List.pairwise_append.mp hinc).2.2 x hx e (List.mem_singleton_self e)
  have hget := hs.path_get hp x hx
  rw [hsame, he] at hget
  obtain rfl := Option.some.inj hget
  exact absurd hlt (lt_irrefl _)

/-- The parent of the next block is shared by now. -/
theorem CaughtUp.parent_agrees (hc : CaughtUp ours theirs now es) (ht : theirs.Complete)
    (he : theirs.chain.get e.blockHash = some e)
    (hp : Path entryView theirs.chain.get e.parent es) (p : BlockHash) (hpar : e.parent = some p) :
    now.AgreeAt theirs p := by
  obtain ⟨q, hq, -⟩ := ht.sound.parent_entry _ p e he hpar
  have hlast : es.getLast? = some q := by
    rw [hp.getLast?, hpar, Option.bind_some, hq]
  have hagree := hc.shares q (List.mem_of_mem_getLast? hlast)
  rwa [ht.sound.key p q hq] at hagree

/-- The root is lacking only in a node that has nothing. -/
theorem CaughtUp.empty_of_root (hc : CaughtUp ours theirs now es) (hk : Kindred ours theirs)
    (ho : ours.Sound) (he : theirs.chain.get e.blockHash = some e)
    (hp : Path entryView theirs.chain.get e.parent es) (hn : ours.chain.get e.blockHash = none)
    (hroot : e.parent = none) (h : BlockHash) : now.chain.get h = none := by
  rw [hroot] at hp
  cases hp
  cases hget : now.chain.get h with
  | none => rfl
  | some y =>
    obtain ⟨x, hx⟩ | ⟨x, hx, -⟩ := hc.only h y hget
    · obtain ⟨root, r, hr, hr'⟩ := ho.exists_root h x hx
      obtain rfl := hk.genesis root r e.blockHash e hr hr' he hroot
      cases hn.symm.trans hr
    · cases hx

theorem CaughtUp.unknown (hc : CaughtUp ours theirs now es) (ht : theirs.Sound)
    (he : theirs.chain.get e.blockHash = some e)
    (hp : Path entryView theirs.chain.get e.parent es)
    (hn : ours.chain.get e.blockHash = none) : now.chain.get e.blockHash = none := by
  cases hget : now.chain.get e.blockHash with
  | none => rfl
  | some y =>
    obtain ⟨x, hx⟩ | ⟨x, hx, hhash⟩ := hc.only _ y hget
    · cases hn.symm.trans hx
    · exact absurd hhash (ht.path_fresh he hp x hx)

/-- One more block is shared, and nothing else changes. -/
theorem CaughtUp.extend (hc : CaughtUp ours theirs now es) (ht : theirs.Sound)
    (he : theirs.chain.get e.blockHash = some e)
    (hp : Path entryView theirs.chain.get e.parent es)
    (hn : ours.chain.get e.blockHash = none) {now' : NodeState} (hcomplete : now'.Complete)
    (hframe : ∀ h, h ≠ e.blockHash → now'.AgreeAt now h)
    (hnew : now'.AgreeAt theirs e.blockHash) : CaughtUp ours theirs now' (es ++ [e]) where
  complete := hcomplete
  keeps h x hx := by
    refine (hframe h ?_).trans (hc.keeps h x hx)
    rintro rfl
    cases hn.symm.trans hx
  only h y hy := by
    by_cases hne : h = e.blockHash
    · exact .inr ⟨e, List.mem_append_right _ (List.mem_singleton_self e), hne.symm⟩
    · rw [(hframe h hne).entry] at hy
      refine (hc.only h y hy).imp_right fun hmem => ?_
      obtain ⟨z, hz, rfl⟩ := hmem
      exact ⟨z, List.mem_append_left _ hz, rfl⟩
  shares y hy := by
    rcases List.mem_append.mp hy with hy | hy
    · exact (hframe _ (ht.path_fresh he hp y hy)).trans (hc.shares y hy)
    · obtain rfl : y = e := by simpa using hy
      exact hnew

/-- A block that was lacking is accepted: it links to the chain as it did at the other node, and its
parent has the same view. -/
theorem CaughtUp.step (hc : CaughtUp ours theirs now es) (hk : Kindred ours theirs)
    (ho : ours.Complete) (ht : theirs.Complete) (he : theirs.chain.get e.blockHash = some e)
    (hp : Path entryView theirs.chain.get e.parent es) {b : Block}
    (hb : theirs.blocks.get e.blockHash = some b) (hn : ours.chain.get e.blockHash = none) :
    ∃ now', now.acceptBlock b = (now', .ok ()) ∧ CaughtUp ours theirs now' (es ++ [e]) := by
  have hunknown := hc.unknown ht.sound he hp hn
  have hparent := hc.parent_agrees ht he hp
  have hlinks : now.chain.Links b e := ht.sound.links_of_entry e b he hb
    (hc.empty_of_root hk ho.sound he hp hn) fun p hpar => (hparent p hpar).entry
  have hview : now.parentView e.parent = theirs.parentView e.parent := by
    cases hpar : e.parent with
    | none => rfl
    | some p => exact (hparent p hpar).parentView
  obtain ⟨b', hb', hhash, hv, -⟩ := ht.sound.block_of_entry _ e he
  obtain rfl : b = b' := Option.some.inj (hb.symm.trans hb')
  obtain ⟨u, hu⟩ := ht.viewed _ e he
  obtain ⟨e', b', v, he', hb', hpv, ha⟩ := ht.sound.views _ u hu
  obtain rfl : e = e' := Option.some.inj (he.symm.trans he')
  obtain rfl : b = b' := Option.some.inj (hb.symm.trans hb')
  obtain ⟨now', hacc, hchain, hblocks, hsnap, -⟩ := hc.complete.sound.acceptBlock_fresh b e v u hv
    (hhash ▸ hunknown) hlinks (hview.trans hpv) ha
  have hcomplete := hc.complete.acceptBlock b (by rw [hacc])
  rw [hacc] at hcomplete
  refine ⟨now', hacc, hc.extend ht.sound he hp hn hcomplete (fun h hne => ⟨?_, ?_, ?_⟩)
    ⟨?_, ?_, ?_⟩⟩
  · rw [hchain, ChainIndex.get_extend, if_neg hne]
  · rw [hblocks, HashMap.get_insert, if_neg hne]
  · rw [hsnap, HashMap.get_insert, if_neg hne]
  · rw [hchain, ChainIndex.get_extend, if_pos rfl, he]
  · rw [hblocks, HashMap.get_insert, if_pos rfl, hb]
  · rw [hsnap, HashMap.get_insert, if_pos rfl, hu]

end Step

theorem Sound.le_tipWork {s : NodeState} (hs : s.Sound) {h : BlockHash} {e : ChainIndexEntry}
    (he : s.chain.get h = some e) : ∃ work ∈ s.tipWork, e.cumulativeWork ≤ work := by
  obtain ⟨log, hi⟩ := hs.index
  have hmem := ((hi.get h e).mp he).1
  cases hm : log.argmax ChainIndexEntry.cumulativeWork with
  | none =>
    rw [List.argmax_eq_none.mp hm] at hmem
    cases hmem
  | some m =>
    refine ⟨m.cumulativeWork, ?_, List.le_of_mem_argmax hmem hm⟩
    rw [s.tipWork_eq log hi, hm]
    rfl

/-- Once the chain to the other node's tip is taken, the tip is as the other node has it, and the
best tip is no worse. -/
theorem CaughtUp.at_tip {now : NodeState} {es : List ChainIndexEntry}
    (hc : CaughtUp ours theirs now es) (ht : theirs.Complete)
    (hp : Path entryView theirs.chain.get theirs.chain.bestTip es) :
    (∀ tip, theirs.chain.bestTip = some tip → ∃ entry block utxos,
        theirs.chain.get tip = some entry ∧ theirs.blocks.get tip = some block ∧
          theirs.utxoSnapshots.get tip = some utxos ∧ now.AgreeAt theirs tip) ∧
      ∀ work ∈ theirs.tipWork, ∃ work' ∈ now.tipWork, work ≤ work' := by
  cases htip : theirs.chain.bestTip with
  | none => simp [tipWork, htip]
  | some tip =>
    rw [htip] at hp
    cases hp with
    | @snoc _ entry es he hes =>
      have hkey := ht.sound.key tip entry he
      obtain ⟨block, hb, -⟩ := ht.sound.block_of_entry tip entry he
      obtain ⟨utxos, hu⟩ := ht.viewed tip entry he
      have hagree : now.AgreeAt theirs tip :=
        hkey ▸ hc.shares entry (List.mem_append_right _ (List.mem_singleton_self entry))
      refine ⟨?_, ?_⟩
      · rintro _ ⟨⟩
        exact ⟨entry, block, utxos, he, hb, hu, hagree⟩
      · intro work hwork
        obtain rfl : entry.cumulativeWork = work := by simpa [tipWork, htip, he] using hwork
        exact hc.complete.sound.le_tipWork (hagree.entry.trans he)

end Catchup

end NodeState

end Wobble
