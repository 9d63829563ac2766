import Biunify.Proofs.BoundTable.Bounds
import Mathlib.Data.Set.Finite.Lattice
import Mathlib.Order.Interval.Finset.Nat

/-! The parts of types. A type has finitely many, each smaller than the type, and a table
holds finitely many types. -/

namespace Biunify

namespace Ty

theorem size_le_sizeElems {c : Ty} {ts : List Ty} (h : c ∈ ts) : c.size ≤ sizeElems ts := by
  induction ts with
  | nil => cases h
  | cons t ts ih =>
    rw [sizeElems]
    rcases List.mem_cons.mp h with rfl | h
    · exact Nat.le_add_right _ _
    · exact (ih h).trans (Nat.le_add_left _ _)

theorem size_le_sizeFields {c : Ty} {fs : List (String × Ty)} (h : c ∈ fs.map Prod.snd) :
    c.size ≤ sizeFields fs := by
  induction fs with
  | nil => cases h
  | cons f fs ih =>
    rw [sizeFields]
    rcases List.mem_cons.mp h with rfl | h
    · exact Nat.le_add_right _ _
    · exact (ih h).trans (Nat.le_add_left _ _)

theorem size_lt_of_mem_children {c t : Ty} (h : c ∈ t.children) : c.size < t.size := by
  cases t with
  | base | var => cases h
  | arrow n p r =>
    have hc : c = p ∨ c = r := by simpa [children] using h
    rw [size]
    rcases hc with rfl | rfl <;> omega
  | tuple n ts => exact Nat.lt_succ_of_le (size_le_sizeElems h)
  | record n fs => exact Nat.lt_succ_of_le (size_le_sizeFields h)

abbrev PartOf : Ty → Ty → Prop := Relation.ReflTransGen fun c t => c ∈ t.children

theorem finite_partOf (t : Ty) : {a | PartOf a t}.Finite := by
  induction hn : t.size using Nat.strong_induction_on generalizing t with
  | h n ih =>
    have hparts : {a | PartOf a t} ⊆ insert t (⋃ c ∈ {c | c ∈ t.children}, {a | PartOf a c}) := by
      intro a ha
      rcases Relation.ReflTransGen.cases_tail ha with rfl | ⟨c, hac, hc⟩
      · exact Set.mem_insert _ _
      · exact Set.mem_insert_of_mem _ (Set.mem_biUnion hc hac)
    refine Set.Finite.subset (Set.Finite.insert t (Set.Finite.biUnion ?_ fun c hc => ?_)) hparts
    · exact List.finite_toSet t.children
    · exact ih c.size (hn ▸ size_lt_of_mem_children hc) c rfl

end Ty

theorem BoundTable.finite_bounds (t : BoundTable) : {b | ∃ p v, b ∈ t.bounds p v}.Finite := by
  have hside : ∀ p, (⋃ i ∈ Set.Iio t.size, {b | b ∈ t.bounds p ⟨i, 0⟩}).Finite :=
    fun p => Set.Finite.biUnion (Set.finite_Iio _) fun i _ => List.finite_toSet _
  refine ((hside .positive).union (hside .negative)).subset ?_
  rintro b ⟨p, v, hb⟩
  have hv : v.id ∈ Set.Iio t.size := lt_size_of_mem_bounds hb
  have hb' : b ∈ t.bounds p ⟨v.id, 0⟩ := by
    rw [t.bounds_congr p (show (⟨v.id, 0⟩ : Var).id = v.id from rfl)]
    exact hb
  cases p with
  | positive => exact .inl (Set.mem_biUnion hv hb')
  | negative => exact .inr (Set.mem_biUnion hv hb')

end Biunify
