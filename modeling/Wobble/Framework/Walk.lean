import Mathlib.Data.Fintype.EquivFin
import Mathlib.Logic.Relation

namespace Walk

variable {α : Type} {next : α → Option α} {a b : α}

/-- One step of a walk that goes on as long as `next` has an answer. -/
def Leads (next : α → Option α) (a b : α) : Prop := next a = some b

/-- The walk from `a` comes to a place it comes back to. -/
def Cyclic (next : α → Option α) (a : α) : Prop :=
  ∃ b, Relation.ReflTransGen (Leads next) a b ∧ Relation.TransGen (Leads next) b b

theorem Cyclic.of_leads (h : Leads next a b) (hc : Cyclic next b) : Cyclic next a := by
  obtain ⟨c, hbc, hcc⟩ := hc
  exact ⟨c, hbc.head h, hcc⟩

/-- Such a walk goes on from everywhere. -/
theorem Cyclic.exists_leads (hc : Cyclic next a) : ∃ b, Leads next a b ∧ Cyclic next b := by
  obtain ⟨c, hac, hcc⟩ := hc
  rcases Relation.ReflTransGen.cases_head hac with rfl | ⟨b, hab, hbc⟩
  · obtain ⟨b, hab, hba⟩ := Relation.TransGen.head'_iff.mp hcc
    exact ⟨b, hab, a, hba, hcc⟩
  · exact ⟨b, hab, c, hbc, hcc⟩

/-- On a finite type a walk without a cycle ends: what every place inherits from the next one
holds where the walk starts. -/
theorem induct [Finite α] (P : α → Prop) (hc : ¬ Cyclic next a)
    (step : ∀ b, ¬ Cyclic next b → (∀ c, Leads next b c → P c) → P b) : P a := by
  have hwf : WellFounded fun x y : { b // ¬ Cyclic next b } =>
      Relation.TransGen (Leads next) y.1 x.1 := by
    have htrans : IsTrans { b // ¬ Cyclic next b } fun x y =>
        Relation.TransGen (Leads next) y.1 x.1 := ⟨fun _ _ _ hxy hyz => hyz.trans hxy⟩
    have hirrefl : Std.Irrefl fun x y : { b // ¬ Cyclic next b } =>
        Relation.TransGen (Leads next) y.1 x.1 := ⟨fun x hx => x.2 ⟨x.1, .refl, hx⟩⟩
    exact Finite.wellFounded_of_trans_of_irrefl _
  refine hwf.induction (C := fun x => P x.1) ⟨a, hc⟩ ?_
  intro x ih
  exact step x.1 x.2 fun c hxc => ih ⟨c, fun hcc => x.2 (hcc.of_leads hxc)⟩ (.single hxc)

end Walk
