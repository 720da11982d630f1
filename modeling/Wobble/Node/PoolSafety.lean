import Wobble.Node.Runs

namespace Wobble

open Rust

namespace NodeState

section Pool

variable [Crypto]

/-- A submission can only panic while its own id is computed. -/
theorem Sound.submitTransaction_panic {s : NodeState} (hs : s.Sound) (tx : Transaction)
    (m : String) (h : (s.submitTransaction tx).2 = .error (.panic m)) :
    (tx.txid : Res MempoolError Txid) = .error (.panic m) := by
  apply hs.pool.submit_panic tx m
  unfold NodeState.submitTransaction at h
  rcases hsub : s.mempool.submit s.activeUtxos tx with (e | m') | r
  · rw [hsub] at h
    cases h
  · rw [hsub] at h
    cases h
    rfl
  · rw [hsub] at h
    cases h

/-- The pool invariant holds in every reachable state, and with it no `expect` in `submit` and
its helpers fails. -/
theorem reachable_pool [Profile] (s : NodeState) (hr : s.Reachable) :
    s.mempool.Consistent s.activeUtxos ∧
    ∀ tx m, (s.submitTransaction tx).2 = .error (.panic m) →
      (tx.txid : Res MempoolError Txid) = .error (.panic m) :=
  ⟨hr.sound.pool, hr.sound.submitTransaction_panic⟩

end Pool

section SamplePool

attribute [local instance] sampleCrypto sampleProfile

theorem sampleState_pool :
    sampleState.mempool.Consistent sampleState.activeUtxos ∧
    ∀ tx m, (sampleState.submitTransaction tx).2 = .error (.panic m) →
      (tx.txid : Res MempoolError Txid) = .error (.panic m) :=
  reachable_pool sampleState sampleState_okReachable.reachable

end SamplePool

end NodeState

end Wobble
