import Wobble.Chain.ChainIndex

namespace Wobble

open Rust GrowingTree

namespace ChainIndex

/-- The index holds exactly the entries of `log`, a tree in order of insertion, and its tip is
the first entry of maximal work. -/
structure Indexes (index : ChainIndex) (log : List ChainIndexEntry) : Prop where
  grown : Grown entryView log
  get : ∀ h e, index.get h = some e ↔ e ∈ log ∧ e.blockHash = h
  tip : index.bestTip = (log.argmax ChainIndexEntry.cumulativeWork).map ChainIndexEntry.blockHash

theorem new_indexes : new.Indexes [] where
  grown := .empty
  get := by simp [ChainIndex.get, new]
  tip := by simp [new]

namespace Indexes

variable {index : ChainIndex} {log : List ChainIndexEntry}

theorem get_mem (hi : index.Indexes log) (e : ChainIndexEntry) (he : e ∈ log) :
    index.get e.blockHash = some e :=
  (hi.get _ _).mpr ⟨he, rfl⟩

theorem tip_eq_some (hi : index.Indexes log) (h : BlockHash) :
    index.bestTip = some h ↔
      ∃ e, log.argmax ChainIndexEntry.cumulativeWork = some e ∧ e.blockHash = h := by
  rw [hi.tip, Option.map_eq_some_iff]

theorem tip_eq_none (hi : index.Indexes log) : index.bestTip = none ↔ log = [] := by
  rw [hi.tip, Option.map_eq_none_iff, List.argmax_eq_none]

theorem tip_of_get (hi : index.Indexes log) {h : BlockHash} {e : ChainIndexEntry}
    (he : index.get h = some e) : ∃ tip, index.bestTip = some tip := by
  cases ht : index.bestTip with
  | some tip => exact ⟨tip, rfl⟩
  | none =>
    have hmem := ((hi.get h e).mp he).1
    rw [hi.tip_eq_none.mp ht] at hmem
    cases hmem

theorem tipIndexed (hi : index.Indexes log) : index.TipIndexed := by
  intro h ht
  obtain ⟨e, he, rfl⟩ := (hi.tip_eq_some h).mp ht
  exact ⟨e, hi.get_mem e (List.argmax_mem he)⟩

theorem hashes_nodup (hi : index.Indexes log) : (log.map ChainIndexEntry.blockHash).Nodup :=
  hi.grown.keys_nodup

theorem len_eq (hi : index.Indexes log) : index.len = log.length := by
  have hkeys : index.entries.keys = (log.map ChainIndexEntry.blockHash).toFinset := by
    ext h
    rw [HashMap.mem_keys, List.mem_toFinset, List.mem_map]
    exact exists_congr fun e => hi.get h e
  rw [len, HashMap.len, hkeys, List.toFinset_card_of_nodup hi.hashes_nodup, List.length_map]

theorem get_eq_none (hi : index.Indexes log) (hn : log = []) (h : BlockHash) :
    index.get h = none := by
  cases hg : index.get h with
  | none => rfl
  | some e => simp [hn, hi.get] at hg

/-- The tip of the extended index is again the first entry of maximal work. -/
theorem extend_bestTip (hi : index.Indexes log) (e : ChainIndexEntry) :
    (index.extend e).bestTip =
      ((log ++ [e]).argmax ChainIndexEntry.cumulativeWork).map ChainIndexEntry.blockHash := by
  rw [List.argmax_concat]
  cases hm : log.argmax ChainIndexEntry.cumulativeWork with
  | none =>
    have htip : index.bestTip = none := by rw [hi.tip, hm, Option.map_none]
    simp [extend, htip]
  | some m =>
    have htip : index.bestTip = some m.blockHash := by rw [hi.tip, hm, Option.map_some]
    have hget := hi.get_mem m (List.argmax_mem hm)
    simp only [extend, htip, Option.bind_some, hget]
    split_ifs <;> rfl

theorem extend (hi : index.Indexes log) (e : ChainIndexEntry)
    (hg : Grown entryView (log ++ [e])) : (index.extend e).Indexes (log ++ [e]) where
  grown := hg
  tip := hi.extend_bestTip e
  get := by
    have hfresh : ∀ e' ∈ log, e'.blockHash ≠ e.blockHash := by
      have hnd := hg.keys_nodup
      rw [List.map_append, List.nodup_append] at hnd
      exact fun e' he' => hnd.2.2 _ (List.mem_map_of_mem he') _ (List.mem_singleton_self _)
    intro h e'
    rw [get_extend, List.mem_append, List.mem_singleton]
    split_ifs with hh
    · subst hh
      rw [Option.some.injEq]
      constructor
      · rintro rfl
        exact ⟨.inr rfl, rfl⟩
      · rintro ⟨he' | rfl, hh⟩
        · exact absurd hh (hfresh e' he')
        · rfl
    · rw [hi.get]
      constructor
      · rintro ⟨he', hh'⟩
        exact ⟨.inl he', hh'⟩
      · rintro ⟨he' | rfl, hh'⟩
        · exact ⟨he', hh'⟩
        · exact absurd hh'.symm hh

theorem walkUp_of_get (hi : index.Indexes log) (e : ChainIndexEntry) (he : e ∈ log) :
    ∃ above, walkUp entryView index.get (index.len + 1) (some e.blockHash) = some above ∧
      above.map ChainIndexEntry.height = (List.range (e.height + 1)).reverse ∧
      above.head? = some e ∧ above.getLast? = log.head? := by
  have hlt := hi.grown.height_lt_length e he
  obtain ⟨above, hw, hh, hmem, hhead, hlast⟩ := hi.grown.walkUp_heights index.get
    (fun e he => hi.get_mem e he) e.height e he rfl (index.len + 1) (by
      rw [hi.len_eq]
      exact Nat.lt_succ_of_lt hlt)
  refine ⟨above, hw, hh, hhead, ?_⟩
  have hne : above ≠ [] := by
    rintro rfl
    simp at hhead
  have hl := List.getLast?_eq_some_getLast hne
  rw [hl]
  exact ((hi.grown.parent_none_iff _ (hmem _ (List.getLast_mem hne))).mp (hlast _ hl)).symm

theorem bestChainEntries_eq (hi : index.Indexes log) :
    ∃ chain, index.bestChainEntries = some chain ∧
      chain.getLast?.map ChainIndexEntry.blockHash = index.bestTip ∧
      ∀ tip, chain.getLast? = some tip →
        chain.map ChainIndexEntry.height = List.range (tip.height + 1) := by
  cases hm : log.argmax ChainIndexEntry.cumulativeWork with
  | none =>
    have htip : index.bestTip = none := by rw [hi.tip, hm, Option.map_none]
    exact ⟨[], by simp [bestChainEntries, htip, walkUp], by simp [htip], by simp⟩
  | some m =>
    have htip : index.bestTip = some m.blockHash := by rw [hi.tip, hm, Option.map_some]
    obtain ⟨above, hw, hh, hhead, -⟩ := hi.walkUp_of_get m (List.argmax_mem hm)
    refine ⟨above.reverse, by rw [bestChainEntries, htip, hw, Option.map_some], ?_, ?_⟩
    · rw [List.getLast?_reverse, hhead, htip, Option.map_some]
    · intro tip ht
      rw [List.getLast?_reverse, hhead] at ht
      cases ht
      rw [List.map_reverse, hh, List.reverse_reverse]

/-- Every indexed hash has its path from genesis. -/
theorem exists_path (hi : index.Indexes log) (h : BlockHash) (e : ChainIndexEntry)
    (he : index.get h = some e) :
    ∃ es, Path entryView index.get (some h) es ∧ es.length = e.height + 1 := by
  obtain ⟨hmem, rfl⟩ := (hi.get h e).mp he
  obtain ⟨es, hes, hlen, -⟩ := hi.grown.exists_path index.get hi.get_mem e.height e hmem rfl
  exact ⟨es, hes, hlen⟩

/-- The best chain is the path to the tip. -/
theorem bestChain_path (hi : index.Indexes log) :
    ∃ es, Path entryView index.get index.bestTip es ∧ index.bestChainEntries = some es := by
  cases ht : index.bestTip with
  | none => exact ⟨[], .nil, by rw [bestChainEntries, ht]; rfl⟩
  | some tip =>
    obtain ⟨e, he⟩ := hi.tipIndexed tip ht
    obtain ⟨es, hes, hlen⟩ := hi.exists_path tip e he
    have hlt := hi.grown.height_lt_length e ((hi.get tip e).mp he).1
    change e.height < log.length at hlt
    refine ⟨es, hes, ?_⟩
    rw [bestChainEntries, ht, hes.walkUp _ (by rw [hi.len_eq]; omega), Option.map_some,
      List.reverse_reverse]

theorem tip_isHead (hi : index.Indexes log) (h : BlockHash) (ht : index.bestTip = some h) :
    h ∈ index.branchHeads := by
  obtain ⟨m, hm, rfl⟩ := (hi.tip_eq_some h).mp ht
  have hmem := List.argmax_mem hm
  rw [mem_branchHeads]
  refine ⟨⟨m, hi.get_mem m hmem⟩, fun h' e he => ?_⟩
  exact hi.grown.no_child_of_max m hmem (fun a ha => List.le_of_mem_argmax ha hm) e
    ((hi.get _ _).mp he).1

variable [Crypto]

/-- A linked entry is the root of an empty tree or hangs below its parent. -/
theorem grown_of_links (hi : index.Indexes log) (block : Block) (e : ChainIndexEntry)
    (hn : index.get block.header.blockHash = none) (hl : index.Links block e) :
    Grown entryView (log ++ [e]) := by
  have hfresh : ∀ e' ∈ log, e'.blockHash ≠ e.blockHash := by
    intro e' he' hk
    have hget := hi.get_mem e' he'
    rw [hk, hl.blockHash, hn] at hget
    cases hget
  cases hl with
  | genesis w he hp hw =>
    have hnil : log = [] := by
      refine List.eq_nil_iff_forall_not_mem.mpr fun e' he' => ?_
      have hget := hi.get_mem e' he'
      rw [he] at hget
      cases hget
    subst hnil
    exact .root _ rfl rfl
  | child parent w hp hw hle =>
    obtain ⟨hmem, hhash⟩ := (hi.get _ _).mp hp
    refine .child _ hi.grown hmem hfresh ⟨?_, rfl, ?_⟩
    · exact congrArg some hhash.symm
    · have hpos := blockWork_pos block w hw
      change parent.cumulativeWork < parent.cumulativeWork + w
      omega

end Indexes

section Runs

variable [Crypto]

/-- One call of `insert_block`, with a record of the blocks that got an entry. -/
def insertLogged (run : ChainIndex × List (Block × ChainIndexEntry)) (block : Block) :
    ChainIndex × List (Block × ChainIndexEntry) :=
  match run.1.insertBlock block with
  | (index, .ok entry) =>
    (index, if run.1.entries.containsKey entry.blockHash then run.2
      else run.2 ++ [(block, entry)])
  | (index, .error _) => (index, run.2)

def insertRun (blocks : List Block) : ChainIndex × List (Block × ChainIndexEntry) :=
  blocks.foldl insertLogged (new, [])

/-- What ties an entry to its block: its hash, its parent, and the work it adds to the
parent's. -/
structure EntryOf (index : ChainIndex) (block : Block) (e : ChainIndexEntry) : Prop where
  hash : e.blockHash = block.header.blockHash
  work : ∃ w, blockWork block = .ok w ∧ 0 < w ∧
    match e.parent with
    | none => block.header.prevBlockhash = BlockHash.default ∧ e.height = 0 ∧
        e.cumulativeWork = w
    | some p => p = block.header.prevBlockhash ∧ ∃ parent, index.get p = some parent ∧
        e.height = parent.height + 1 ∧ parent.cumulativeWork = e.cumulativeWork - w ∧
        w ≤ e.cumulativeWork ∧ e.cumulativeWork ≤ PowTarget.u128Max

/-- The record of a run explains the index it ends in. -/
structure Recorded (index : ChainIndex) (log : List (Block × ChainIndexEntry)) : Prop where
  indexes : index.Indexes (log.map Prod.snd)
  entryOf : ∀ block e, (block, e) ∈ log → index.EntryOf block e

theorem EntryOf.extend {index : ChainIndex} {block : Block} {e : ChainIndexEntry}
    (h : index.EntryOf block e) (new : ChainIndexEntry)
    (hn : index.get new.blockHash = none) : (index.extend new).EntryOf block e where
  hash := h.hash
  work := by
    obtain ⟨w, hw, hpos, hp⟩ := h.work
    refine ⟨w, hw, hpos, ?_⟩
    cases hpar : e.parent with
    | none => simpa only [hpar] using hp
    | some p =>
      simp only [hpar] at hp
      obtain ⟨hprev, parent, hget, hrest⟩ := hp
      have hne : p ≠ new.blockHash := by
        intro he
        rw [he, hn] at hget
        cases hget
      exact ⟨hprev, parent, by rw [get_extend, if_neg hne, hget], hrest⟩

theorem Links.entryOf {index : ChainIndex} {block : Block} {e : ChainIndexEntry}
    (hl : index.Links block e) (hn : index.get block.header.blockHash = none) :
    (index.extend e).EntryOf block e where
  hash := hl.blockHash
  work := by
    cases hl with
    | genesis w _ hp hw => exact ⟨w, hw, blockWork_pos block w hw, hp, rfl, rfl⟩
    | child parent w hp hw hle =>
      have hne : block.header.prevBlockhash ≠ block.header.blockHash := by
        intro heq
        simp [heq, hn] at hp
      refine ⟨w, hw, blockWork_pos block w hw, rfl, parent, ?_, rfl, ?_, ?_, hle⟩
      · rw [get_extend, if_neg hne, hp]
      · exact (Nat.add_sub_cancel _ _).symm
      · exact Nat.le_add_left _ _

theorem insertLogged_recorded (run : ChainIndex × List (Block × ChainIndexEntry))
    (h : Recorded run.1 run.2) (block : Block) :
    Recorded (insertLogged run block).1 (insertLogged run block).2 := by
  obtain ⟨index, log⟩ := run
  have hins := index.insertBlock_inserted h.indexes.tipIndexed block
  unfold insertLogged
  generalize index.insertBlock block = result at hins
  cases hins with
  | rejected e => exact h
  | known entry hv hg =>
    have hkey : index.entries.containsKey entry.blockHash = true := by
      rw [HashMap.containsKey_eq_true]
      exact ⟨entry, h.indexes.get_mem entry ((h.indexes.get _ _).mp hg).1⟩
    simpa only [hkey, if_true] using h
  | added entry hv hg hl =>
    have hn : index.get entry.blockHash = none := hl.blockHash ▸ hg
    have hkey : index.entries.containsKey entry.blockHash = false := by
      rw [HashMap.containsKey_eq_false]
      exact hn
    simp only [hkey, Bool.false_eq_true, if_false]
    constructor
    · rw [List.map_append]
      exact h.indexes.extend entry (h.indexes.grown_of_links block entry hg hl)
    · intro b e he
      rcases List.mem_append.mp he with he | he
      · exact (h.entryOf b e he).extend entry hn
      · obtain ⟨rfl, rfl⟩ : b = block ∧ e = entry := by simpa using he
        exact hl.entryOf hg

theorem insertRun_recorded (blocks : List Block) :
    Recorded (insertRun blocks).1 (insertRun blocks).2 := by
  induction blocks using List.reverseRecOn with
  | nil => exact ⟨new_indexes, by simp [insertRun]⟩
  | append_singleton blocks block ih =>
    rw [insertRun, List.foldl_append]
    exact insertLogged_recorded _ ih block

/-- A single tree with its first insertion at the root and the best tip at the first entry of
maximal work. -/
structure ForkTree (index : ChainIndex) (log : List (Block × ChainIndexEntry)) : Prop where
  entries : ∀ h e, index.get h = some e ↔ e.blockHash = h ∧ ∃ block, (block, e) ∈ log
  once : (log.map fun inserted => inserted.2.blockHash).Nodup
  entryOf : ∀ block e, (block, e) ∈ log → index.EntryOf block e
  root : ∀ genesis, log.head? = some genesis → genesis.2.parent = none ∧ genesis.2.height = 0 ∧
    ∀ h e, index.get h = some e → e.parent = none → e = genesis.2
  walk : ∀ h e, index.get h = some e →
    ∃ above, walkUp entryView index.get (index.len + 1) (some h) = some above ∧
      above.map ChainIndexEntry.height = (List.range (e.height + 1)).reverse ∧
      above.getLast? = log.head?.map Prod.snd
  bestChain : ∃ chain, index.bestChainEntries = some chain ∧
    chain.getLast?.map ChainIndexEntry.blockHash = index.bestTip ∧
    ∀ tip, chain.getLast? = some tip →
      chain.map ChainIndexEntry.height = List.range (tip.height + 1)
  noTip : index.bestTip = none ↔ index.entries.isEmpty = true
  tip : ∀ h, index.bestTip = some h →
    ∃ before block e after, log = before ++ (block, e) :: after ∧ e.blockHash = h ∧
      (∀ inserted ∈ before, inserted.2.cumulativeWork < e.cumulativeWork) ∧
      ∀ inserted ∈ after, inserted.2.cumulativeWork ≤ e.cumulativeWork
  tipIsHead : ∀ h, index.bestTip = some h → h ∈ index.branchHeads

/-- Every sequence of `insert_block` calls, failing ones included, grows one tree. -/
theorem insertRun_forkTree (blocks : List Block) :
    ForkTree (insertRun blocks).1 (insertRun blocks).2 := by
  have hrec := insertRun_recorded blocks
  generalize insertRun blocks = run at hrec
  obtain ⟨index, log⟩ := run
  have hi := hrec.indexes
  refine ⟨?_, ?_, hrec.entryOf, ?_, ?_, hi.bestChainEntries_eq, ?_, ?_, hi.tip_isHead⟩
  · intro h e
    rw [hi.get]
    simp [and_comm]
  · have hnd := hi.hashes_nodup
    rwa [List.map_map] at hnd
  · intro genesis hg
    have hhead : (log.map Prod.snd).head? = some genesis.2 := by
      rw [List.head?_map, hg, Option.map_some]
    have hmem := List.mem_of_mem_head? hhead
    have hpar := (hi.grown.parent_none_iff _ hmem).mpr hhead
    refine ⟨hpar, hi.grown.height_eq_zero _ hmem hpar, fun h e he hp => ?_⟩
    have he := (hi.grown.parent_none_iff e ((hi.get _ _).mp he).1).mp hp
    exact Option.some.inj (he.symm.trans hhead)
  · intro h e he
    obtain ⟨hmem, rfl⟩ := (hi.get _ _).mp he
    obtain ⟨above, hw, hh, -, hlast⟩ := hi.walkUp_of_get e hmem
    exact ⟨above, hw, hh, by rw [hlast, List.head?_map]⟩
  · rw [hi.tip_eq_none, HashMap.isEmpty_iff]
    constructor
    · exact fun hn => hi.get_eq_none hn
    · intro hn
      refine List.eq_nil_iff_forall_not_mem.mpr fun e he => ?_
      have hget := hi.get_mem e he
      rw [ChainIndex.get, hn] at hget
      cases hget
  · intro h ht
    obtain ⟨m, hm, rfl⟩ := (hi.tip_eq_some h).mp ht
    obtain ⟨before, after, hsplit, hb, ha⟩ := argmax_split _ _ m hm
    obtain ⟨l₁, l₂, rfl, rfl, hl₂⟩ := List.map_eq_append_iff.mp hsplit
    obtain ⟨⟨block, e⟩, l₃, rfl, rfl, rfl⟩ := List.map_eq_cons_iff.mp hl₂
    exact ⟨l₁, block, e, l₃, rfl, rfl, fun x hx => hb _ (List.mem_map_of_mem hx),
      fun x hx => ha _ (List.mem_map_of_mem hx)⟩

end Runs

end ChainIndex

end Wobble
