import Wobble.Node.Mining
import Wobble.Server.Server

namespace Wobble

open Rust

inductive Posted where
  | mine (command : MinerCommand)
  | stop
  deriving DecidableEq

def Posted.Numbered (number : Nat) : Posted → Prop
  | .mine (.submit generation _) | .mine (.cancel generation) => generation = UInt64.ofNat number
  | .stop => True

/-- Where the worker is in its loop. -/
inductive WorkerPhase where
  -- at the top, where it waits for a command if it has no candidate
  | top
  -- about to compare generations
  | check
  -- about to validate the candidate
  | attempt
  -- in the loop that empties the channel, with the flag `replace_current`
  | drain (replaceCurrent : Bool)
  -- past that loop, having found the channel empty
  | settle (replaceCurrent : Bool)
  | stopped
  deriving DecidableEq

structure MinerSystem where
  -- the counter both threads see
  generation : UInt64
  -- the command a call has counted and not sent yet
  calling : Option Posted
  channel : List Posted
  -- every command sent
  issued : List Posted
  phase : WorkerPhase
  current : Option (UInt64 × Block)
  -- every solved block, with the generation it was mined for
  reported : List (UInt64 × Block)

def cancelCheckInterval : UInt32 := 4096

namespace MinerSystem

def start : MinerSystem := ⟨0, none, [], [], .top, none, []⟩

/-- `fetch_add` on the counter. -/
def begin (s : MinerSystem) (command : UInt64 → Posted) : MinerSystem :=
  { s with generation := s.generation + 1, calling := some (command (s.generation + 1)) }

def send (s : MinerSystem) (posted : Posted) : MinerSystem :=
  { s with calling := none, channel := s.channel ++ [posted], issued := s.issued ++ [posted] }

def take (s : MinerSystem) (posted : Posted) (rest : List Posted) (next : WorkerPhase) :
    MinerSystem :=
  match posted with
  | .mine (.submit generation candidate) =>
    { s with channel := rest, current := some (generation, candidate), phase := next }
  | .mine (.cancel _) => { s with channel := rest, current := none, phase := next }
  | .stop => { s with channel := rest, current := none, phase := .stopped }

section Steps

variable [Crypto]

/-- One step of one of the two threads. A validation that panics ends the worker where it is. -/
inductive Step (s : MinerSystem) : MinerSystem → Prop where
  | submit (candidate : Block) (hc : s.calling = none) :
      Step s (s.begin fun generation => .mine (.submit generation candidate))
  | cancel (hc : s.calling = none) : Step s (s.begin fun generation => .mine (.cancel generation))
  | stop (hc : s.calling = none) : Step s (s.begin fun _ => .stop)
  | send (posted : Posted) (hc : s.calling = some posted) : Step s (s.send posted)
  -- `recv` without a candidate
  | wait (posted : Posted) (rest : List Posted) (hp : s.phase = .top) (hn : s.current = none)
      (hq : s.channel = posted :: rest) : Step s (s.take posted rest .top)
  | enter (job : UInt64 × Block) (hp : s.phase = .top) (hs : s.current = some job) :
      Step s { s with phase := .check }
  | superseded (generation : UInt64) (candidate : Block) (hp : s.phase = .check)
      (hs : s.current = some (generation, candidate)) (hg : s.generation ≠ generation) :
      Step s { s with phase := .drain true }
  | upToDate (generation : UInt64) (candidate : Block) (hp : s.phase = .check)
      (hs : s.current = some (generation, candidate)) (hg : s.generation = generation) :
      Step s { s with phase := .attempt }
  | solved (generation : UInt64) (candidate : Block) (hp : s.phase = .attempt)
      (hs : s.current = some (generation, candidate)) (hv : validateBlock candidate = .ok ()) :
      Step s { s with
        phase := .drain false
        current := none
        reported := s.reported ++ [(generation, candidate)] }
  | unsolved (generation : UInt64) (candidate : Block) (e : ConsensusError)
      (hp : s.phase = .attempt) (hs : s.current = some (generation, candidate))
      (hv : validateBlock candidate = .error (.err e)) :
      Step s { s with
        phase := if (candidate.advanceNonce 1).header.nonce % cancelCheckInterval = 0
          then .drain false else .check
        current := some (generation, candidate.advanceNonce 1) }
  -- `try_recv`
  | take (posted : Posted) (rest : List Posted) (replaceCurrent : Bool)
      (hp : s.phase = .drain replaceCurrent) (hq : s.channel = posted :: rest) :
      Step s (s.take posted rest (.drain false))
  | drained (replaceCurrent : Bool) (hp : s.phase = .drain replaceCurrent) (hq : s.channel = []) :
      Step s { s with phase := .settle replaceCurrent }
  | settle (replaceCurrent : Bool) (hp : s.phase = .settle replaceCurrent) :
      Step s { s with phase := .top, current := if replaceCurrent then none else s.current }

def Run (s : MinerSystem) : Prop := Relation.ReflTransGen Step start s

end Steps

def begun (s : MinerSystem) : Nat := s.issued.length + s.calling.toList.length

/-- The latest command: the one a call is about to send, or else the last one sent. -/
def latest (s : MinerSystem) : Option Posted := s.calling.or s.issued.getLast?

/-- The worker neither loses the latest candidate nor mines a cancelled one, and no candidate is
reported twice. -/
structure Reliable (s : MinerSystem) : Prop where
  kept : ∀ generation candidate, s.latest = some (.mine (.submit generation candidate)) →
    generation ∉ s.reported.map Prod.fst →
      s.calling = some (.mine (.submit generation candidate)) ∨
      .mine (.submit generation candidate) ∈ s.channel ∨
      ∃ steps, s.current = some (generation, candidate.advanceNonce steps)
  cancelled : ∀ generation, s.latest = some (.mine (.cancel generation)) → s.calling = none →
    s.channel = [] → s.current = none
  once : (s.reported.map Prod.fst).Nodup

/-- The commands the worker has taken, and what follows from them for its candidate. A candidate
is that of the last command taken; it is gone once it is reported or a later call has begun. -/
structure Kept (s : MinerSystem) (taken : List Posted) : Prop where
  issued : s.issued = taken ++ s.channel
  counter : s.generation = UInt64.ofNat s.begun
  calling : ∀ posted : Posted, s.calling = some posted → posted.Numbered (s.issued.length + 1)
  numbered : ∀ (i : Nat) (posted : Posted), s.issued[i]? = some posted → posted.Numbered (i + 1)
  current : ∀ generation candidate, s.current = some (generation, candidate) →
    ∃ before submitted steps, taken = before ++ [.mine (.submit generation submitted)] ∧
      candidate = submitted.advanceNonce steps
  gone : ∀ before generation submitted, taken = before ++ [.mine (.submit generation submitted)] →
    s.current = none → generation ∈ s.reported.map Prod.fst ∨ taken.length < s.begun
  replacing : s.phase = .drain true ∨ s.phase = .settle true → taken.length < s.begun
  reported : ∀ generation ∈ s.reported.map Prod.fst, ∃ number, generation = UInt64.ofNat number ∧
    number ≤ taken.length ∧ (s.current ≠ none → number < taken.length)
  once : (s.reported.map Prod.fst).Nodup

variable {s : MinerSystem} {taken : List Posted}

theorem Kept.start : start.Kept [] := by
  constructor <;> simp [MinerSystem.start, begun]

theorem Kept.length_le (hs : s.Kept taken) : taken.length ≤ s.issued.length := by
  rw [hs.issued, List.length_append]
  exact Nat.le_add_right _ _

/-- A candidate's generation is the number of commands taken. -/
theorem Kept.generation (hs : s.Kept taken) {generation : UInt64} {candidate : Block}
    (hc : s.current = some (generation, candidate)) :
    generation = UInt64.ofNat taken.length := by
  obtain ⟨before, submitted, -, rfl, -⟩ := hs.current _ _ hc
  have hget : s.issued[before.length]? = some (.mine (.submit generation submitted)) := by
    rw [hs.issued]
    simp
  rw [List.length_append]
  exact hs.numbered _ _ hget

theorem Kept.begin (hs : s.Kept taken) (hc : s.calling = none) (command : UInt64 → Posted)
    (hn : ∀ number, (command (UInt64.ofNat number)).Numbered number) :
    (s.begin command).Kept taken := by
  have hbegun : s.begun = s.issued.length := by simp [begun, hc]
  have hbegun' : (s.begin command).begun = s.issued.length + 1 := rfl
  have hcounter : s.generation + 1 = UInt64.ofNat (s.issued.length + 1) := by
    rw [hs.counter, hbegun, UInt64.ofNat_add]
    rfl
  have hlt : taken.length < (s.begin command).begun := Nat.lt_succ_of_le hs.length_le
  refine { hs with
    counter := ?_, calling := ?_, gone := fun _ _ _ _ _ => .inr hlt, replacing := fun _ => hlt }
  · exact hcounter
  · intro posted hp
    obtain rfl := Option.some.inj hp
    rw [hcounter]
    exact hn _

theorem Kept.send (hs : s.Kept taken) {posted : Posted} (hc : s.calling = some posted) :
    (s.send posted).Kept taken := by
  have hbegun : (s.send posted).begun = s.begun := by
    simp [begun, MinerSystem.send, hc]
  refine { hs with
    issued := ?_, counter := hs.counter.trans (congrArg _ hbegun.symm),
    calling := fun posted hp => (nomatch hp), numbered := ?_, gone := ?_, replacing := ?_ }
  · change s.issued ++ [posted] = taken ++ (s.channel ++ [posted])
    rw [hs.issued, List.append_assoc]
  · intro i p hp
    rw [MinerSystem.send, List.getElem?_append] at hp
    split at hp
    · exact hs.numbered i p hp
    · rename_i hi
      obtain ⟨hi', rfl⟩ := List.getElem?_eq_some_iff.mp hp
      obtain rfl : i = s.issued.length := by
        rw [List.length_singleton] at hi'
        omega
      simpa using hs.calling posted hc
  · rw [hbegun]
    exact hs.gone
  · rw [hbegun]
    exact hs.replacing

theorem Kept.take (hs : s.Kept taken) {posted : Posted} {rest : List Posted}
    {next : WorkerPhase} (hq : s.channel = posted :: rest)
    (hnext : next ≠ .drain true ∧ next ≠ .settle true) :
    (s.take posted rest next).Kept (taken ++ [posted]) := by
  have hissued : s.issued = taken ++ [posted] ++ rest := by
    rw [hs.issued, hq, List.append_assoc]
    rfl
  have hreported : ∀ generation ∈ s.reported.map Prod.fst, ∃ number,
      generation = UInt64.ofNat number ∧ number < (taken ++ [posted]).length := by
    intro generation hmem
    obtain ⟨number, hg, hle, -⟩ := hs.reported generation hmem
    exact ⟨number, hg, by rw [List.length_append]; exact Nat.lt_succ_of_le hle⟩
  cases posted with
  | mine command =>
    cases command with
    | submit generation candidate =>
      refine { hs with
        issued := hissued, current := ?_, gone := ?_, replacing := ?_, reported := ?_ }
      · intro g c hc
        cases hc
        exact ⟨taken, candidate, 0, rfl, (advanceNonce_zero _).symm⟩
      · intro before g c heq hc
        cases hc
      · exact fun h => absurd h (not_or.mpr hnext)
      · intro g hmem
        obtain ⟨number, hg, hlt⟩ := hreported g hmem
        exact ⟨number, hg, hlt.le, fun _ => hlt⟩
    | cancel generation =>
      refine { hs with
        issued := hissued, current := ?_, gone := ?_, replacing := ?_, reported := ?_ }
      · intro g c hc
        cases hc
      · intro before g c heq hc
        obtain ⟨-, hlast⟩ := List.append_inj' heq rfl
        cases hlast
      · exact fun h => absurd h (not_or.mpr hnext)
      · intro g hmem
        obtain ⟨number, hg, hlt⟩ := hreported g hmem
        exact ⟨number, hg, hlt.le, fun _ => hlt⟩
  | stop =>
    refine { hs with issued := hissued, current := ?_, gone := ?_, replacing := ?_, reported := ?_ }
    · intro g c hc
      cases hc
    · intro before g c heq hc
      obtain ⟨-, hlast⟩ := List.append_inj' heq rfl
      cases hlast
    · intro h
      rcases h with h | h <;> cases h
    · intro g hmem
      obtain ⟨number, hg, hlt⟩ := hreported g hmem
      exact ⟨number, hg, hlt.le, fun _ => hlt⟩

/-- The worker's own steps on the candidate it has. -/
theorem Kept.solved (hs : s.Kept taken) (hcount : s.begun < 2^64) {generation : UInt64}
    {candidate : Block} (hc : s.current = some (generation, candidate)) :
    Kept { s with
      phase := .drain false
      current := none
      reported := s.reported ++ [(generation, candidate)] } taken := by
  have hg := hs.generation hc
  have hbound : taken.length < UInt64.size :=
    (hs.length_le.trans (Nat.le_add_right _ _)).trans_lt hcount
  refine { hs with
    current := fun g c h => (nomatch h), gone := ?_, replacing := ?_, reported := ?_, once := ?_ }
  · intro before g submitted heq _
    obtain ⟨before', submitted', -, heq', -⟩ := hs.current _ _ hc
    obtain ⟨-, hlast⟩ := List.append_inj' (heq.symm.trans heq') rfl
    cases hlast
    exact .inl (by simp)
  · intro h
    rcases h with h | h <;> cases h
  · intro g hmem
    rw [List.map_append] at hmem
    rcases List.mem_append.mp hmem with hmem | hmem
    · obtain ⟨number, hnumber, hle, -⟩ := hs.reported g hmem
      exact ⟨number, hnumber, hle, fun h => absurd rfl h⟩
    · obtain rfl := List.mem_singleton.mp hmem
      exact ⟨taken.length, hg, le_rfl, fun h => absurd rfl h⟩
  · rw [List.map_append]
    refine List.nodup_append.mpr ⟨hs.once, List.nodup_singleton _, ?_⟩
    rintro g hmem _ hmem' rfl
    obtain rfl := List.mem_singleton.mp hmem'
    -- what has been reported before has a smaller number
    obtain ⟨number, hnumber, -, hlt⟩ := hs.reported _ hmem
    have hlt := hlt (by simp [hc])
    have heq := congrArg UInt64.toNat (hnumber.symm.trans hg)
    rw [UInt64.toNat_ofNat_of_lt' (hlt.trans hbound), UInt64.toNat_ofNat_of_lt' hbound] at heq
    exact hlt.ne heq

section Steps

variable [Crypto]

theorem Step.begun_le {s s' : MinerSystem} (h : Step s s') : s.begun ≤ s'.begun := by
  have hbegin : ∀ command, s.calling = none → s.begun ≤ (s.begin command).begun := by
    intro command hc
    simp [begun, MinerSystem.begin, hc]
  have htake : ∀ posted rest next, (s.take posted rest next).begun = s.begun := by
    intro posted rest next
    rcases posted with (_ | _) | _ <;> rfl
  cases h with
  | submit candidate hc => exact hbegin _ hc
  | cancel hc => exact hbegin _ hc
  | stop hc => exact hbegin _ hc
  | send posted hc => simp [begun, MinerSystem.send, hc]
  | wait posted rest hp hn hq => exact (htake _ _ _).ge
  | take posted rest r hp hq => exact (htake _ _ _).ge
  | _ => exact le_rfl

theorem Kept.step {s' : MinerSystem} (hs : s.Kept taken) (hcount : s.begun < 2^64)
    (h : Step s s') : ∃ taken', s'.Kept taken' := by
  cases h with
  | submit candidate hc => exact ⟨taken, hs.begin hc _ fun _ => rfl⟩
  | cancel hc => exact ⟨taken, hs.begin hc _ fun _ => rfl⟩
  | stop hc => exact ⟨taken, hs.begin hc _ fun _ => trivial⟩
  | send posted hc => exact ⟨taken, hs.send hc⟩
  | wait posted rest hp hn hq =>
    exact ⟨_, hs.take hq ⟨fun h => (nomatch h), fun h => (nomatch h)⟩⟩
  | enter job hp hc =>
    exact ⟨taken, { hs with replacing := fun h => by rcases h with h | h <;> cases h }⟩
  | superseded generation candidate hp hc hg =>
    refine ⟨taken, { hs with replacing := fun _ => ?_ }⟩
    have hle : taken.length ≤ s.begun := hs.length_le.trans (Nat.le_add_right _ _)
    refine hle.lt_of_ne fun heq => hg ?_
    rw [hs.counter, ← heq, hs.generation hc]
  | upToDate generation candidate hp hc hg =>
    exact ⟨taken, { hs with replacing := fun h => by rcases h with h | h <;> cases h }⟩
  | solved generation candidate hp hc hv => exact ⟨taken, hs.solved hcount hc⟩
  | unsolved generation candidate e hp hc hv =>
    refine ⟨taken, { hs with
      current := ?_, gone := fun _ _ _ _ h => (nomatch h), replacing := ?_, reported := ?_ }⟩
    · intro g c heq
      cases heq
      obtain ⟨before, submitted, steps, htaken, rfl⟩ := hs.current _ _ hc
      exact ⟨before, submitted, steps + 1, htaken, advanceNonce_add _ _ _⟩
    · intro h
      dsimp only at h
      split at h <;> rcases h with h | h <;> cases h
    · intro g hmem
      obtain ⟨number, hg, hle, hlt⟩ := hs.reported g hmem
      exact ⟨number, hg, hle, fun _ => hlt (by simp [hc])⟩
  | take posted rest replaceCurrent hp hq =>
    exact ⟨_, hs.take hq ⟨fun h => (nomatch h), fun h => (nomatch h)⟩⟩
  | drained replaceCurrent hp hq =>
    refine ⟨taken, { hs with replacing := fun h => hs.replacing (.inl ?_) }⟩
    rcases h with h | h
    · cases h
    · cases h
      exact hp
  | settle replaceCurrent hp =>
    cases replaceCurrent with
    | false =>
      exact ⟨taken, { hs with replacing := fun h => by rcases h with h | h <;> cases h }⟩
    | true =>
      refine ⟨taken, { hs with
        current := fun g c h => (nomatch h)
        gone := fun _ _ _ _ _ => .inr (hs.replacing (.inr hp))
        replacing := fun h => by rcases h with h | h <;> cases h
        reported := ?_ }⟩
      intro g hmem
      obtain ⟨number, hg, hle, -⟩ := hs.reported g hmem
      exact ⟨number, hg, hle, fun h => absurd rfl h⟩

end Steps

theorem Kept.reliable (hs : s.Kept taken) : s.Reliable where
  kept := by
    intro generation candidate hlatest hnew
    cases hc : s.calling with
    | some posted =>
      rw [latest, hc] at hlatest
      exact .inl hlatest
    | none =>
      rw [latest, hc, Option.none_or] at hlatest
      obtain ⟨before, hissued⟩ := List.getLast?_eq_some_iff.mp hlatest
      refine .inr ?_
      rcases List.eq_nil_or_concat' s.channel with hnil | ⟨front, last, hchannel⟩
      · -- everything sent has been taken, and no other call has begun
        have htaken := hissued.symm.trans (hs.issued.trans (by rw [hnil, List.append_nil]))
        have hbegun : s.begun = taken.length := by
          rw [begun, hc, hissued, htaken]
          rfl
        cases hcurrent : s.current with
        | none =>
          rcases hs.gone _ _ _ htaken.symm hcurrent with hreported | hlt
          · exact absurd hreported hnew
          · omega
        | some job =>
          obtain ⟨before', submitted, steps, htaken', hcandidate⟩ := hs.current _ _ hcurrent
          obtain ⟨-, hlast⟩ := List.append_inj' (htaken.trans htaken') rfl
          cases hlast
          exact .inr ⟨steps, congrArg some (Prod.ext rfl hcandidate)⟩
      · have hend := hissued.symm.trans hs.issued
        rw [hchannel, ← List.append_assoc] at hend
        obtain ⟨-, hlast⟩ := List.append_inj' hend rfl
        cases hlast
        exact .inl (by rw [hchannel]; simp)
  cancelled := by
    intro generation hlatest hc hnil
    rw [latest, hc, Option.none_or] at hlatest
    obtain ⟨before, hissued⟩ := List.getLast?_eq_some_iff.mp hlatest
    rw [hs.issued, hnil, List.append_nil] at hissued
    cases hcurrent : s.current with
    | none => rfl
    | some job =>
      obtain ⟨before', submitted, steps, htaken, -⟩ := hs.current _ _ hcurrent
      obtain ⟨-, hlast⟩ := List.append_inj' (hissued.symm.trans htaken) rfl
      cases hlast
  once := hs.once

/-- In every interleaving of fewer than 2^64 calls with the worker. -/
theorem worker_reliable [Crypto] (s : MinerSystem) (h : Run s) (hcount : s.begun < 2^64) :
    s.Reliable := by
  have hkept : ∃ taken, s.Kept taken := by
    induction h with
    | refl => exact ⟨[], Kept.start⟩
    | tail _ hstep ih =>
      have hbefore := hstep.begun_le.trans_lt hcount
      obtain ⟨taken, hs⟩ := ih hbefore
      exact hs.step hbefore hstep
  obtain ⟨taken, hs⟩ := hkept
  exact hs.reliable

section SampleWork

attribute [local instance] NodeState.sampleCrypto

/-- A candidate is mined, and a cancelled one is not. -/
theorem worker_reliable_sample : ∃ s, Run s ∧ s.begun < 2^64 ∧ s.Reliable ∧
    s.issued = [.mine (.submit 1 NodeState.sampleGenesis), .mine (.submit 2 NodeState.sampleBlock),
      .mine (.cancel 3)] ∧
    s.channel = [] ∧ s.current = none ∧ s.reported = [(1, NodeState.sampleGenesis)] := by
  have hfirst := ((((((Relation.ReflTransGen.refl (r := Step) (a := start)).tail
    (.submit NodeState.sampleGenesis rfl)).tail (.send _ rfl)).tail (.wait _ _ rfl rfl rfl)).tail
    (.enter _ rfl rfl)).tail (.upToDate _ _ rfl rfl rfl)).tail
    (.solved _ _ rfl rfl (by decide +kernel))
  -- the worker takes the second candidate, and finds it out of date
  have hsecond := (((((hfirst.tail (.submit NodeState.sampleBlock rfl)).tail (.send _ rfl)).tail
    (.take _ _ _ rfl rfl)).tail (.drained _ rfl rfl)).tail (.settle _ rfl)).tail (.enter _ rfl rfl)
  have hthird := ((((hsecond.tail (.cancel rfl)).tail (.superseded _ _ rfl rfl (by decide))).tail
    (.send _ rfl)).tail (.take _ _ _ rfl rfl))
  refine ⟨_, hthird, ?_, worker_reliable _ hthird ?_, rfl, rfl, rfl, rfl⟩
  · exact Nat.lt_of_lt_of_le (show 3 < 4 by decide) (by norm_num)
  · exact Nat.lt_of_lt_of_le (show 3 < 4 by decide) (by norm_num)

end SampleWork

end MinerSystem

end Wobble
