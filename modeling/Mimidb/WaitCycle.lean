import Mathlib.Data.Fintype.EquivFin
import Mathlib.Logic.Relation
import Mathlib.Order.Defs.Unbundled
import Mathlib.Order.WellFounded

/-!
# Waiting in an order

Workers hold resources and each waits for at most one. Where every worker
waits for a resource that is below all it holds, no cycle of workers waits
for itself (`no_cycle`). Where the waiting is a relation of its own, a rank
that goes up along it excludes cycles (`cycle_free`), and a chain of finitely
many workers ends at one that does not wait (`chain_ends`).
-/

namespace Mimidb

section
variable {W R : Type*} (wants : W → Option R) (holds : W → List R)

/-- `w` holds something and waits for something that `w'` holds. -/
def WaitsFor (w w' : W) : Prop := holds w ≠ [] ∧ ∃ r, wants w = some r ∧ r ∈ holds w'

variable {wants holds} {lt : R → R → Prop}

/-- Along a chain of waiting workers the resources waited for go up. -/
theorem waited_lt [IsTrans R lt] (h : ∀ w r, wants w = some r → ∀ r' ∈ holds w, lt r r') {w w' : W}
    (hc : Relation.TransGen (WaitsFor wants holds) w w') {r' : R} (hr' : wants w' = some r') :
    ∃ r, wants w = some r ∧ lt r' r := by
  induction hc generalizing r' with
  | single hw =>
    obtain ⟨-, r, hr, hm⟩ := hw
    exact ⟨r, hr, h _ r' hr' r hm⟩
  | tail _ hw ih =>
    obtain ⟨-, r, hr, hm⟩ := hw
    obtain ⟨r0, hr0, hlt⟩ := ih hr
    exact ⟨r0, hr0, trans_of lt (h _ r' hr' r hm) hlt⟩

theorem no_cycle [IsTrans R lt] [Std.Irrefl lt] (h : ∀ w r, wants w = some r → ∀ r' ∈ holds w, lt r r') (w : W) :
    ¬ Relation.TransGen (WaitsFor wants holds) w w := by
  intro hc
  obtain ⟨w', hw, -⟩ := Relation.TransGen.head'_iff.1 hc
  obtain ⟨-, r, hr, -⟩ := hw
  obtain ⟨r0, hr0, hlt⟩ := waited_lt h hc hr
  rw [hr] at hr0
  cases hr0
  exact irrefl_of lt r hlt

end

section
variable {W R : Type*} {waits : W → W → Prop} {rank : W → Option R} {lt : R → R → Prop}

/-- Along a chain the ranks go up. -/
theorem rank_lt [IsTrans R lt] (h : ∀ w v b, waits w v → rank v = some b → ∃ a, rank w = some a ∧ lt a b) {w v : W}
    (hc : Relation.TransGen waits w v) {b : R} (hb : rank v = some b) : ∃ a, rank w = some a ∧ lt a b := by
  induction hc generalizing b with
  | single hw => exact h _ _ _ hw hb
  | tail _ hw ih =>
    obtain ⟨c, hc, hcb⟩ := h _ _ _ hw hb
    obtain ⟨a, ha, hac⟩ := ih hc
    exact ⟨a, ha, trans_of lt hac hcb⟩

theorem cycle_free [IsTrans R lt] [Std.Irrefl lt]
    (h : ∀ w v b, waits w v → rank v = some b → ∃ a, rank w = some a ∧ lt a b)
    (hr : ∀ w v, waits w v → rank w ≠ none) (w : W) : ¬ Relation.TransGen waits w w := by
  intro hc
  obtain ⟨v, hw, -⟩ := Relation.TransGen.head'_iff.1 hc
  obtain ⟨b, hb⟩ := Option.ne_none_iff_exists'.1 (hr w v hw)
  obtain ⟨a, ha, hab⟩ := rank_lt h hc hb
  rw [hb] at ha
  cases ha
  exact irrefl_of lt b hab

theorem chain_ends [Finite W] (h : ∀ w, ¬ Relation.TransGen waits w w) (w : W) :
    ∃ v, Relation.ReflTransGen waits w v ∧ ∀ u, ¬ waits v u := by
  have : Std.Irrefl (flip (Relation.TransGen waits)) := ⟨fun w => h w⟩
  have : IsTrans W (flip (Relation.TransGen waits)) := ⟨fun _ _ _ hab hbc => Relation.TransGen.trans hbc hab⟩
  have hwf := Finite.wellFounded_of_trans_of_irrefl (flip (Relation.TransGen waits))
  induction w using hwf.induction with
  | _ w ih =>
    by_cases hu : ∃ u, waits w u
    · obtain ⟨u, hu⟩ := hu
      obtain ⟨v, huv, hv⟩ := ih u (.single hu)
      exact ⟨v, .head hu huv, hv⟩
    · exact ⟨w, .refl, fun u hwu => hu ⟨u, hwu⟩⟩

end

end Mimidb
