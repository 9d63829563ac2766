import Biunify.Proofs.BoundTable.Bounds
import Biunify.Proofs.VarMap
import Biunify.Reach
import Mathlib.Algebra.BigOperators.Fin
import Mathlib.Algebra.Order.BigOperators.Group.Finset

/-! The two searches through a table come to an end, whatever cycles the bounds have. A turn takes
one variable or one type off what a search has listed, and lists what it leads to. It lists what a
variable leads to only when it meets the variable for the first time, so what is listed and what
may still be listed shrinks. The turns that a search is given are enough for it. -/

namespace Biunify

theorem ended_iterate {σ : Type} {turn : σ → σ} (Ended : σ → Prop) {measure : σ → Nat}
    (hstay : ∀ s, Ended s → Ended (turn s)) (hless : ∀ s, ¬Ended s → measure (turn s) < measure s)
    {n : Nat} {s : σ} (hn : measure s ≤ n) : Ended (turn^[n] s) := by
  induction n generalizing s with
  | zero =>
    by_contra hs
    have := hless s hs
    omega
  | succ n ih =>
    rw [Function.iterate_succ_apply]
    by_cases hs : Ended s
    · exact Function.Iterate.rec Ended (hstay s hs) hstay n
    · have := hless s hs
      exact ih (by omega)

theorem repeat_eq_iterate {σ : Type} (turn : σ → σ) (n : Nat) (s : σ) :
    Nat.repeat turn n s = turn^[n] s := by
  induction n with
  | zero => rfl
  | succ n ih => rw [Nat.repeat, ih, Function.iterate_succ_apply']

namespace VarSet

theorem contains_congr (s : VarSet) {v w : Var} (h : v.id = w.id) :
    s.contains v = s.contains w := by
  unfold contains
  rw [h]

def costLeft (seen : VarSet) (cost : Nat → Nat) (n : Nat) : Nat :=
  ∑ i ∈ Finset.range n with seen.contains ⟨i, 0⟩ = false, cost i

theorem add_costLeft_insert (cost : Nat → Nat) {n : Nat} {seen : VarSet} {v : Var}
    (hfree : n ≤ v.id → cost v.id = 0) (hv : seen.contains v = false) :
    cost v.id + (seen.insert v).costLeft cost n = seen.costLeft cost n := by
  have hmet : ∀ i, (seen.insert v).contains ⟨i, 0⟩ = false ↔
      seen.contains ⟨i, 0⟩ = false ∧ i ≠ v.id := by
    intro i
    rw [contains_insert, Bool.or_eq_false_iff, beq_eq_false_iff_ne, and_comm]
  unfold costLeft
  simp only [hmet, ← Finset.filter_filter, Finset.filter_ne']
  by_cases hlt : v.id < n
  · have hmem : v.id ∈ {i ∈ Finset.range n | seen.contains ⟨i, 0⟩ = false} := by
      have hcontains : seen.contains ⟨v.id, 0⟩ = false := (seen.contains_congr rfl).trans hv
      simp [hlt, hcontains]
    exact Finset.add_sum_erase _ cost hmem
  · rw [hfree (Nat.not_lt.mp hlt), Finset.erase_eq_of_notMem (by simp [hlt])]
    exact Nat.zero_add _

theorem costLeft_le_sum (seen : VarSet) (cost : Nat → Nat) (n : Nat) :
    seen.costLeft cost n ≤ ∑ i ∈ Finset.range n, cost i :=
  Finset.sum_le_sum_of_subset (Finset.filter_subset ..)

end VarSet

namespace Ty

theorem length_le_sizeElems (tys : List Ty) : tys.length ≤ sizeElems tys := by
  induction tys with
  | nil => exact Nat.le_refl _
  | cons ty tys ih =>
    have hty : 0 < ty.size := by cases ty <;> simp [size]
    simp only [List.length_cons, sizeElems]
    omega

theorem sizeElems_append (tys us : List Ty) :
    sizeElems (tys ++ us) = sizeElems tys + sizeElems us := by
  induction tys with
  | nil => rw [List.nil_append, sizeElems, Nat.zero_add]
  | cons ty tys ih => rw [List.cons_append, sizeElems, ih, sizeElems, Nat.add_assoc]

theorem sizeElems_reverse (tys : List Ty) : sizeElems tys.reverse = sizeElems tys := by
  induction tys with
  | nil => rfl
  | cons ty tys ih =>
    rw [List.reverse_cons, sizeElems_append, ih]
    simp only [sizeElems]
    omega

theorem size_eq (ty : Ty) : ty.size = sizeElems ty.children + 1 := by
  cases ty with
  | base | var => rfl
  | arrow n q r => simp only [size, children, sizeElems, Nat.add_zero]
  | tuple n ts => rw [size, children]
  | record n fs =>
    have hfields : ∀ gs : List (String × Ty), sizeFields gs = sizeElems (gs.map Prod.snd) := by
      intro gs
      induction gs with
      | nil => rfl
      | cons g gs ih => rw [sizeFields, ih, List.map_cons, sizeElems]
    rw [size, children, hfields]

end Ty

namespace BoundTable

variable {t : BoundTable} {p : Polarity}

theorem weight_eq_sum (t : BoundTable) :
    t.weight = ∑ i ∈ Finset.range t.size,
      (Ty.sizeElems (t.lower ⟨i, 0⟩) + Ty.sizeElems (t.upper ⟨i, 0⟩)) := by
  have hsum : t.weight =
      (t.entries.toList.map fun e => Ty.sizeElems e.lower + Ty.sizeElems e.upper).sum := by
    rw [weight, ← Array.foldl_toList, List.sum_eq_foldl, List.foldl_map]
    simp only [Nat.add_assoc]
  rw [hsum, ← Fin.sum_univ_fun_getElem, Finset.sum_range]
  apply Finset.sum_congr rfl
  intro i _
  have hentry : t.entry ⟨i, 0⟩ = t.entries.toList[i.val] := by simp [entry, Array.getD]
  rw [lower, upper, hentry]

section Follow

def linksLeft (t : BoundTable) (p : Polarity) (seen : VarSet) : Nat :=
  seen.costLeft (fun i => (t.links p ⟨i, 0⟩).length) t.size

theorem links_congr (t : BoundTable) (p : Polarity) {v w : Var} (h : v.id = w.id) :
    t.links p v = t.links p w := by
  unfold links
  rw [t.bounds_congr p h]

theorem length_links_add_linksLeft {seen : VarSet} {v : Var} (hv : seen.contains v = false) :
    (t.links p v).length + t.linksLeft p (seen.insert v) = t.linksLeft p seen := by
  have hfree : t.size ≤ v.id → (t.links p ⟨v.id, 0⟩).length = 0 := by
    intro hsize
    rw [links, bounds_of_size_le (v := ⟨v.id, 0⟩) hsize]
    rfl
  rw [t.links_congr p (show v.id = (⟨v.id, 0⟩ : Var).id from rfl)]
  exact VarSet.add_costLeft_insert (fun i => (t.links p ⟨i, 0⟩).length) hfree hv

theorem linksLeft_le_weight (t : BoundTable) (p : Polarity) (seen : VarSet) :
    t.linksLeft p seen ≤ t.weight := by
  rw [weight_eq_sum]
  calc t.linksLeft p seen
      ≤ ∑ i ∈ Finset.range t.size, (t.links p ⟨i, 0⟩).length := VarSet.costLeft_le_sum ..
    _ ≤ ∑ i ∈ Finset.range t.size,
          (Ty.sizeElems (t.lower ⟨i, 0⟩) + Ty.sizeElems (t.upper ⟨i, 0⟩)) := by
        apply Finset.sum_le_sum
        intro i _
        have hlinks : (t.links p ⟨i, 0⟩).length ≤ Ty.sizeElems (t.bounds p ⟨i, 0⟩) :=
          (List.length_filterMap_le ..).trans (Ty.length_le_sizeElems _)
        cases p with
        | positive => exact hlinks.trans (Nat.le_add_right ..)
        | negative => exact hlinks.trans (Nat.le_add_left ..)

def followLeft (t : BoundTable) (p : Polarity) (s : List Var × VarSet) : Nat :=
  s.1.length + t.linksLeft p s.2

theorem followLeft_followTurn_lt {s : List Var × VarSet} (hs : ¬s.1 = []) :
    t.followLeft p (t.followTurn p s) < t.followLeft p s := by
  fun_cases followTurn t p s with
  | case1 seen => exact absurd rfl hs
  | case2 v todo seen hseen =>
    simp only [followLeft, List.length_cons]
    omega
  | case3 v todo seen hseen =>
    have hleft := length_links_add_linksLeft (t := t) (p := p) (Bool.eq_false_of_not_eq_true hseen)
    have hnew := List.length_filter_le (fun w => !(seen.insert v).contains w) (t.links p v)
    simp only [followLeft, List.length_cons, List.length_append, List.length_reverse]
    omega

theorem followTurn_ended {s : List Var × VarSet} {n : Nat} (hn : t.followLeft p s ≤ n) :
    ((t.followTurn p)^[n] s).1 = [] := by
  refine ended_iterate (fun s : List Var × VarSet => s.1 = []) ?_
    (fun _ => followLeft_followTurn_lt) hn
  rintro ⟨todo, seen⟩ rfl
  rfl

theorem followTurn_iterate (t : BoundTable) (p : Polarity) (v : Var) :
    (t.followTurn p)^[t.weight + 1] ([v], .empty) = ([], t.linkedVars p v) := by
  refine Prod.ext (followTurn_ended ?_) ?_
  · have hleft := t.linksLeft_le_weight p .empty
    simp only [followLeft, List.length_singleton]
    omega
  · rw [linkedVars, repeat_eq_iterate]

theorem followTurn_iterate_add (t : BoundTable) (p : Polarity) (v : Var) (more : Nat) :
    (t.followTurn p)^[t.weight + 1 + more] ([v], .empty) = ([], t.linkedVars p v) := by
  rw [Nat.add_comm, Function.iterate_add_apply, followTurn_iterate, Function.iterate_fixed rfl]

end Follow

section Explore

def boundsLeft (t : BoundTable) (seen : VarSet) : Nat :=
  seen.costLeft (fun i => Ty.sizeElems (t.lower ⟨i, 0⟩) + Ty.sizeElems (t.upper ⟨i, 0⟩)) t.size

theorem sizeElems_bounds_add_boundsLeft {seen : VarSet} {v : Var} (hv : seen.contains v = false) :
    Ty.sizeElems (t.lower v) + Ty.sizeElems (t.upper v) + t.boundsLeft (seen.insert v) =
      t.boundsLeft seen := by
  have hlower : t.lower v = t.lower ⟨v.id, 0⟩ := t.bounds_congr .positive rfl
  have hupper : t.upper v = t.upper ⟨v.id, 0⟩ := t.bounds_congr .negative rfl
  rw [hlower, hupper]
  refine VarSet.add_costLeft_insert
    (fun i => Ty.sizeElems (t.lower ⟨i, 0⟩) + Ty.sizeElems (t.upper ⟨i, 0⟩))
    (fun hsize => ?_) hv
  have hnone : ∀ q, t.bounds q ⟨v.id, 0⟩ = [] := bounds_of_size_le hsize
  rw [show t.lower ⟨v.id, 0⟩ = [] from hnone .positive,
    show t.upper ⟨v.id, 0⟩ = [] from hnone .negative, Ty.sizeElems]

theorem boundsLeft_le_weight (t : BoundTable) (seen : VarSet) : t.boundsLeft seen ≤ t.weight := by
  rw [weight_eq_sum]
  exact VarSet.costLeft_le_sum ..

/-- A turn that only turns the back of the queue to its front is counted as half a turn. -/
def exploreLeft (t : BoundTable) (s : List Ty × List Ty × VarSet) : Nat :=
  2 * (Ty.sizeElems s.1 + Ty.sizeElems s.2.1 + t.boundsLeft s.2.2) + s.1.isEmpty.toNat

theorem exploreLeft_exploreTurn_lt {s : List Ty × List Ty × VarSet}
    (hs : ¬(s.1 = [] ∧ s.2.1 = [])) : t.exploreLeft (t.exploreTurn s) < t.exploreLeft s := by
  fun_cases exploreTurn t s with
  | case1 back seen =>
    -- the queue is not empty, so its new front is not
    have hback : back.reverse.isEmpty = false := by simpa using hs
    simp only [exploreLeft, Ty.sizeElems_reverse, Ty.sizeElems, hback, List.isEmpty_nil,
      Bool.toNat_true, Bool.toNat_false]
    omega
  | case2 v front back seen hseen =>
    have hempty := Bool.toNat_le front.isEmpty
    simp only [exploreLeft, Ty.sizeElems, Ty.size, List.isEmpty_cons, Bool.toNat_false]
    omega
  | case3 v front back seen hseen =>
    have hempty := Bool.toNat_le front.isEmpty
    have hleft := sizeElems_bounds_add_boundsLeft (t := t) (Bool.eq_false_of_not_eq_true hseen)
    simp only [exploreLeft, Ty.sizeElems_append, Ty.sizeElems_reverse, Ty.sizeElems, Ty.size,
      List.isEmpty_cons, Bool.toNat_false]
    omega
  | case4 ty front back seen hty =>
    have hempty := Bool.toNat_le front.isEmpty
    simp only [exploreLeft, Ty.sizeElems_append, Ty.sizeElems_reverse, Ty.sizeElems, ty.size_eq,
      List.isEmpty_cons, Bool.toNat_false]
    omega

theorem exploreTurn_ended {s : List Ty × List Ty × VarSet} {n : Nat} (hn : t.exploreLeft s ≤ n) :
    (t.exploreTurn^[n] s).1 = [] ∧ (t.exploreTurn^[n] s).2.1 = [] := by
  refine ended_iterate (fun s : List Ty × List Ty × VarSet => s.1 = [] ∧ s.2.1 = []) ?_
    (fun _ => exploreLeft_exploreTurn_lt) hn
  rintro ⟨front, back, seen⟩ ⟨rfl, rfl⟩
  exact ⟨rfl, rfl⟩

theorem exploreTurn_iterate (t : BoundTable) (ty : Ty) :
    t.exploreTurn^[2 * (ty.size + t.weight) + 1] ([ty], [], .empty) = ([], [], t.reachable ty) := by
  have hn : t.exploreLeft ([ty], [], .empty) ≤ 2 * (ty.size + t.weight) + 1 := by
    have hleft := t.boundsLeft_le_weight .empty
    simp only [exploreLeft, Ty.sizeElems, List.isEmpty_cons, Bool.toNat_false]
    omega
  obtain ⟨hfront, hback⟩ := exploreTurn_ended hn
  refine Prod.ext hfront (Prod.ext hback ?_)
  rw [reachable, repeat_eq_iterate]

end Explore

end BoundTable
end Biunify
