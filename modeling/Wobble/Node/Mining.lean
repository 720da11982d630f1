import Wobble.Ledger.Consensus

namespace Wobble

open Rust

/-- The candidate with its nonce advanced by `steps`, wrapping. -/
def Block.advanceNonce (block : Block) (steps : UInt32) : Block :=
  { block with header := { block.header with nonce := block.header.nonce + steps } }

theorem advanceNonce_zero (block : Block) : block.advanceNonce 0 = block := by
  simp [Block.advanceNonce]

theorem advanceNonce_add (block : Block) (m n : UInt32) :
    (block.advanceNonce m).advanceNonce n = block.advanceNonce (m + n) := by
  simp [Block.advanceNonce, UInt32.add_assoc]

section Model

variable [Crypto]

def coinbaseTransaction (reward : UInt64) (minerVerifyingKey : VerifyingKey)
    (uniqueness : UInt32) : Transaction where
  version := 1
  inputs := []
  outputs := [⟨reward, (verifyingKeyBytes minerVerifyingKey).toList⟩]
  lockTime := uniqueness

def buildCandidate {ε : Type} (prevBlockhash : BlockHash) (reward : UInt64)
    (minerVerifyingKey : VerifyingKey) (uniqueness bits : UInt32)
    (transactions : List Transaction) : Res ε Block := do
  let block : Block :=
    { header := ⟨1, prevBlockhash, zeroBytes, 1, bits, 0⟩
      transactions := coinbaseTransaction reward minerVerifyingKey uniqueness :: transactions }
  let merkleRoot ← block.merkleRoot
  return { block with header := { block.header with merkleRoot := merkleRoot } }

/-- The loop of `solve_candidate`, for a number of rounds. -/
def solveWithin {ε : Type} : Nat → Block → Option (Res ε Block)
  | 0, _ => none
  | rounds + 1, candidate =>
    match validateBlock candidate with
    | .ok () => some (.ok candidate)
    | .error (.err _) => solveWithin rounds (candidate.advanceNonce 1)
    | .error (.panic m) => some (.error (.panic m))

/-- `none` when the loop goes on for ever: after 2^32 rounds the nonce has come back to where
it started. -/
def solveCandidate {ε : Type} (candidate : Block) : Option (Res ε Block) :=
  solveWithin (2^32) candidate

def Mining.mineBlock {ε : Type} (prevBlockhash : BlockHash) (reward : UInt64)
    (minerVerifyingKey : VerifyingKey) (uniqueness bits : UInt32)
    (transactions : List Transaction) : Option (Res ε Block) :=
  match buildCandidate prevBlockhash reward minerVerifyingKey uniqueness bits transactions with
  | .ok candidate => solveCandidate candidate
  | .error e => some (.error e)

/-- Background mining configuration; the poll interval plays no part in building a block. -/
structure MiningConfig where
  minerVerifyingKey : VerifyingKey
  maxTransactions : Nat
  bits : UInt32
  nextUniqueness : UInt32

structure MinePendingRequest where
  reward : UInt64
  minerPublicKey : Bytes
  uniqueness : UInt32
  bits : UInt32
  maxTransactions : Nat

def MiningConfig.nextRequest (config : MiningConfig) : MiningConfig × MinePendingRequest :=
  ({ config with nextUniqueness := config.nextUniqueness + 1 },
    ⟨blockSubsidy, (verifyingKeyBytes config.minerVerifyingKey).toList, config.nextUniqueness,
      config.bits, config.maxTransactions⟩)

end Model

section Search

variable [Crypto] {ε : Type}

/-- A block the search returns is the candidate under another nonce, and valid. -/
theorem solveWithin_ok (rounds : Nat) (candidate block : Block)
    (h : solveWithin rounds candidate = some (.ok block : Res ε Block)) :
    validateBlock block = .ok () ∧ ∃ steps, block = candidate.advanceNonce steps := by
  induction rounds generalizing candidate with
  | zero => cases h
  | succ rounds ih =>
    rw [solveWithin] at h
    rcases hv : validateBlock candidate with (e | m) | u
    · rw [hv] at h
      obtain ⟨hok, steps, hs⟩ := ih _ h
      exact ⟨hok, 1 + steps, by rw [hs, advanceNonce_add]⟩
    · rw [hv] at h
      cases h
    · rw [hv] at h
      cases h
      exact ⟨hv, 0, (advanceNonce_zero _).symm⟩

theorem solveWithin_eq_none (rounds : Nat) (candidate : Block) :
    (solveWithin rounds candidate : Option (Res ε Block)) = none ↔
      ∀ i < rounds, ∃ e, validateBlock (candidate.advanceNonce (UInt32.ofNat i)) =
        .error (.err e) := by
  induction rounds generalizing candidate with
  | zero => simp [solveWithin]
  | succ rounds ih =>
    have hstep : ∀ i, (candidate.advanceNonce 1).advanceNonce (UInt32.ofNat i) =
        candidate.advanceNonce (UInt32.ofNat (i + 1)) := by
      intro i
      rw [advanceNonce_add, UInt32.ofNat_add, UInt32.add_comm]
      rfl
    have hsplit : (∀ i < rounds + 1, ∃ e,
          validateBlock (candidate.advanceNonce (UInt32.ofNat i)) = .error (.err e)) ↔
        (∃ e, validateBlock candidate = .error (.err e)) ∧ ∀ i < rounds, ∃ e,
          validateBlock ((candidate.advanceNonce 1).advanceNonce (UInt32.ofNat i)) =
            .error (.err e) := by
      rw [Nat.forall_lt_succ_left]
      simp only [hstep]
      rw [show UInt32.ofNat 0 = 0 from rfl, advanceNonce_zero]
    rw [solveWithin, hsplit, ← ih]
    rcases hv : validateBlock candidate with (e | m) | u <;> simp

/-- The search never ends exactly when no nonce at all makes the candidate valid. -/
theorem solveCandidate_eq_none (candidate : Block) :
    (solveCandidate candidate : Option (Res ε Block)) = none ↔
      ∀ steps, ∃ e, validateBlock (candidate.advanceNonce steps) = .error (.err e) := by
  rw [solveCandidate, solveWithin_eq_none]
  constructor
  · intro h steps
    have hs := h steps.toNat steps.toNat_lt
    rwa [UInt32.ofNat_toNat] at hs
  · intro h i _
    exact h _

end Search

end Wobble
