import Biunify.Proofs.BundleGraph.Merging
import Biunify.Proofs.Reading.Lattice
import Mathlib.Order.ConditionallyCompleteLattice.Basic

/-! A graph and its reduction say the same. Read in a bounded lattice, to any number of
recursions, each is below the other once the variables of the other are given other elements. -/

namespace Biunify

universe u

variable {α : Type u} [Lattice α] [BoundedOrder α]

namespace BundleGraph

variable {g : BundleGraph}

/-- The elements of merged variables can be made one without a place getting above what it was:
the join of both at the polarity at which they stand side by side. -/
theorem Merged.blends {cls : Nat → Nat} (h : g.Merged cls) (ρ : Nat → α) :
    ∃ ρ' : Nat → α, (∀ x y, cls x = cls y → ρ' x = ρ' y) ∧
      ∀ p b, g.Occurs p b → p.orient (· ≤ ·) (p.join (b.layer.vars.items.map fun v => ρ' v.id))
        (p.join (b.layer.vars.items.map fun v => ρ v.id)) := by
  induction h with
  | refl => exact ⟨ρ, fun x y hxy => congrArg ρ hxy, fun p b _ => p.orient_le_refl _⟩
  | @merge cls v w p _ hv hw ih =>
    obtain ⟨ρ', hconst, hplace⟩ := ih
    refine ⟨fun x => if joinClasses cls v w x = cls v then p.join [ρ' v, ρ' w] else ρ' x,
      fun x y hxy => ?_, fun q b hb => Polarity.orient_le_trans ?_ (hplace q b hb)⟩
    · beta_reduce
      rw [hxy]
      split_ifs with hy
      · rfl
      have hx := hxy ▸ hy
      rw [joinClasses_eq_iff, not_or] at hx hy
      rw [joinClasses_of_ne hx.2, joinClasses_of_ne hy.2] at hxy
      exact hconst x y hxy
    refine Polarity.join_le_iff.mpr fun a ha => ?_
    obtain ⟨u, hu, rfl⟩ := List.mem_map.mp ha
    have hself := Polarity.le_join (p := q) (List.mem_map_of_mem (f := fun v => ρ' v.id) hu)
    show q.orient (· ≤ ·) (if joinClasses cls v w u.id = cls v then p.join [ρ' v, ρ' w] else _) _
    split_ifs with hclass
    swap
    · exact hself
    rw [joinClasses_eq_iff] at hclass
    by_cases hq : q = p
    · -- Both variables stand here, so the join of both is in the join of all.
      subst hq
      have hboth : b.layer.Has v ∧ b.layer.Has w := by
        rcases hclass with hclass | hclass
        · have hhas := hv b hb ⟨u, hu, hclass⟩
          exact ⟨hw b hb (hhas.touches cls), hhas⟩
        · have hhas := hw b hb ⟨u, hu, hclass⟩
          exact ⟨hhas, hv b hb (hhas.touches cls)⟩
      have hin : ∀ x, b.layer.Has x → q.orient (· ≤ ·) (ρ' x)
          (q.join (b.layer.vars.items.map fun v => ρ' v.id)) := by
        rintro x ⟨y, hy, rfl⟩
        exact Polarity.le_join (List.mem_map_of_mem hy)
      exact Polarity.join_le_iff.mpr (by simpa using ⟨hin v hboth.1, hin w hboth.2⟩)
    · obtain rfl : q = p.flip := by cases p <;> cases q <;> simp_all [Polarity.flip]
      refine Polarity.orient_le_trans ?_ hself
      rw [Polarity.orient_flip]
      rcases hclass with hclass | hclass
      · rw [hconst u.id v hclass]
        exact Polarity.le_join (by simp)
      · rw [hconst u.id w hclass]
        exact Polarity.le_join (by simp)

theorem Idle.exists_element {x : Nat} (h : g.Idle x) (R : LatticeReading α) :
    ∃ d : α, ∀ p b, g.Occurs p b → b.layer.Has x →
      p.orient (· ≤ ·) d (p.join (R.bases b.layer)) := by
  cases h with
  | onePolarity p h =>
    refine ⟨p.join [], fun q b hb hx => ?_⟩
    rw [h q b hb hx]
    exact Polarity.join_le_iff.mpr fun _ hy => absurd hy List.not_mem_nil
  | base a h =>
    refine ⟨R.build (.base a), fun p b hb hx => Polarity.le_join ?_⟩
    exact List.mem_map_of_mem ((BaseSet.mem_toList _ a).mpr (h p b hb hx))

theorem Tidy.free (hg : g.Tidy) {p : Polarity} {b : Bundle} (hb : g.Occurs p b) {u v : Var}
    (hu : u ∈ b.layer.vars.items) (hfree : g.cycles.contains u = false)
    (hv : v ∈ b.layer.vars.items) : g.cycles.find? v = none := by
  by_contra hsome
  have hcycle : g.cycles.contains v = true := Option.isSome_iff_ne_none.mpr hsome
  obtain rfl := hg.alone hb hv hcycle
  obtain rfl : u = v := List.mem_singleton.mp hu
  rw [hcycle] at hfree
  cases hfree

end BundleGraph

namespace LatticeReading

variable {R : LatticeReading α} {g : BundleGraph}

def unrolled (R : LatticeReading α) (vars : Nat → Polarity → List Var → List α) (body : Bundle)
    (p : Polarity) : Nat → α
  | 0 => p.join []
  | n + 1 => R.readBundle (vars n) body p

theorem readVar_eq (cycles : VarMap Bundle) (ρ : Nat → α) (n : Nat) (v : Var) (p : Polarity) :
    R.readVar cycles ρ n v p = match cycles.find? v with
      | some body => R.unrolled (fun n p vs => vs.map (R.readVar cycles ρ n · p)) body p n
      | none => ρ v.id := by
  cases n with
  | zero => cases h : cycles.find? v <;> simp [readVar, VarMap.contains, h, unrolled]
  | succ n => cases h : cycles.find? v <;> simp [readVar, h, unrolled]

theorem readBundle_le_of_unrolled {xs ys : Nat → Polarity → List Var → List α}
    (h : ∀ n p b, g.Occurs p b → (∀ v ∈ b.layer.vars.items, ∀ body, g.cycles.find? v = some body →
        p.orient (· ≤ ·) (R.unrolled xs body p n) (R.unrolled ys body p n)) →
      p.orient (· ≤ ·) (p.join (xs n p b.layer.vars.items))
        (p.join (ys n p b.layer.vars.items ++ R.bases b.layer)))
    (n : Nat) {p : Polarity} {b : Bundle} (hb : g.Occurs p b) :
    p.orient (· ≤ ·) (R.readBundle (xs n) b p) (R.readBundle (ys n) b p) := by
  induction n generalizing p b with
  | zero =>
    refine readBundle_le (fun hb hc => hb.child hc) (fun p b hb => ?_) hb
    exact h 0 p b hb fun v _ body _ => p.orient_le_refl _
  | succ n ih =>
    refine readBundle_le (fun hb hc => hb.child hc) (fun p b hb => ?_) hb
    exact h (n + 1) p b hb fun v hv body hbody => ih (hb.body hv hbody)

theorem readBundle_onBundle (r : Reduction) (vars : Polarity → List Var → List α) (b : Bundle) :
    R.readBundle vars (r.onBundle b) =
      R.readBundle (fun p vs => vars p (VarSet.ofList (vs.filterMap r.onVar)).items) b := by
  induction b with
  | node l ih =>
    rw [r.onBundle_node, readBundle_eq, readBundle_eq]
    have hmap := (Layer.map_map r.onBundle (R.readBundle vars) l).trans (Layer.map_congr .positive (ih .positive))
    rw [← hmap]
    rfl

theorem unrolled_onBundle (r : Reduction) (vars : Nat → Polarity → List Var → List α)
    (body : Bundle) (p : Polarity) (n : Nat) : R.unrolled vars (r.onBundle body) p n =
      R.unrolled (fun n p vs => vars n p (VarSet.ofList (vs.filterMap r.onVar)).items) body p n := by
  cases n with
  | zero => rfl
  | succ n => rw [unrolled, unrolled, readBundle_onBundle]

def readVars (R : LatticeReading α) (cycles : VarMap Bundle) (ρ : Nat → α) (n : Nat) (p : Polarity)
    (vs : List Var) : List α :=
  vs.map (R.readVar cycles ρ n · p)

def readReduced (R : LatticeReading α) (r : Reduction) (g : BundleGraph) (ρ : Nat → α) (n : Nat)
    (p : Polarity) (vs : List Var) : List α :=
  R.readVars (r.onGraph g).cycles ρ n p (VarSet.ofList (vs.filterMap r.onVar)).items

section Place

variable {live : Nat → Prop} {cls : Nat → Nat} {r : Reduction} {p : Polarity} {b : Bundle} {v : Var}
  (hg : g.Tidy) (h : r.Consistent g live cls) (hb : g.Occurs p b)
  (hv : v ∈ b.layer.vars.items)

include hg h hb hv

theorem readVar_of_body {body : Bundle} (hbody : g.cycles.find? v = some body) (ρ : Nat → α)
    (n : Nat) : r.onVar v = some v ∧
      R.readVar (r.onGraph g).cycles ρ n v p = R.unrolled (R.readReduced r g ρ) body p n := by
  have hcycle : g.cycles.contains v = true := Option.isSome_iff_exists.mpr ⟨body, hbody⟩
  have hmet : r.bodies.contains v = true := by rw [h.bodies, hg.contains_bodies hb hv, hcycle]
  refine ⟨h.onVar_of_body hmet, ?_⟩
  rw [readVar_eq, h.find?_cycles hg hb hv, hbody]
  exact unrolled_onBundle r _ body p n

theorem readVar_of_free (hfree : g.cycles.find? v = none) {x : Var} (hx : r.onVar v = some x)
    (ρ : Nat → α) (n : Nat) :
    cls v.id = cls x.id ∧ R.readVar (r.onGraph g).cycles ρ n x p = ρ x.id := by
  have hcycle : g.cycles.contains v = false := by rw [VarMap.contains, hfree]; rfl
  have hmet : r.bodies.contains v = false := by rw [h.bodies, hg.contains_bodies hb hv, hcycle]
  obtain ⟨hcls, hxfree⟩ := h.onVar_of_free hmet hx
  have hnone : r.bodies.find? x = none := by simpa [VarMap.contains] using hxfree
  refine ⟨hcls, ?_⟩
  rw [readVar_eq, Reduction.onGraph, VarMap.find?_map, hnone]
  rfl

end Place

theorem readReduced_le {live : Nat → Prop} {cls : Nat → Nat} {r : Reduction} (hg : g.Tidy)
    (h : r.Consistent g live cls) {ρ ρ' : Nat → α} (hconst : ∀ x y, cls x = cls y → ρ' x = ρ' y)
    {p : Polarity} {b : Bundle} (hb : g.Occurs p b)
    (hle : p.orient (· ≤ ·) (p.join (b.layer.vars.items.map fun v => ρ' v.id))
      (p.join (b.layer.vars.items.map fun v => ρ v.id))) {n : Nat}
    (hbody : ∀ v ∈ b.layer.vars.items, ∀ body, g.cycles.find? v = some body →
      p.orient (· ≤ ·) (R.unrolled (R.readReduced r g ρ') body p n)
        (R.unrolled (R.readVars g.cycles ρ) body p n)) :
    p.orient (· ≤ ·) (p.join (R.readReduced r g ρ' n p b.layer.vars.items))
      (p.join (R.readVars g.cycles ρ n p b.layer.vars.items ++ R.bases b.layer)) := by
  refine Polarity.join_le_iff.mpr fun a ha => ?_
  obtain ⟨x, hx, rfl⟩ := List.mem_map.mp ha
  obtain ⟨v, hv, hvx⟩ := List.mem_filterMap.mp (VarSet.mem_ofList hx)
  refine Polarity.orient_le_trans ?_ (Polarity.join_le_append _ _)
  cases hcycle : g.cycles.find? v with
  | some body =>
    obtain ⟨hself, hread⟩ := readVar_of_body (R := R) hg h hb hv hcycle ρ' n
    obtain rfl : v = x := Option.some.inj (hself.symm.trans hvx)
    refine Polarity.orient_le_trans ?_ (Polarity.le_join (List.mem_map_of_mem hv))
    rw [hread, readVar_eq, hcycle]
    exact hbody v hv body hcycle
  | none =>
    obtain ⟨hcls, hread⟩ := readVar_of_free (R := R) hg h hb hv hcycle hvx ρ' n
    have hfree : g.cycles.contains v = false := by rw [VarMap.contains, hcycle]; rfl
    have hplain : R.readVars g.cycles ρ n p b.layer.vars.items =
        b.layer.vars.items.map fun v => ρ v.id := by
      refine List.map_congr_left fun u hu => ?_
      rw [readVar_eq, hg.free hb hv hfree hu]
    rw [hread, ← hconst v.id x.id hcls, hplain]
    exact Polarity.orient_le_trans
      (Polarity.le_join (List.mem_map_of_mem (f := fun v => ρ' v.id) hv)) hle

theorem le_readReduced {live : Nat → Prop} {cls : Nat → Nat} {r : Reduction} (hg : g.Tidy)
    (h : r.Consistent g live cls) {ρ ρ' : Nat → α} {p : Polarity} {b : Bundle}
    (hb : g.Occurs p b)
    (hkept : ∀ v ∈ b.layer.vars.items, ∀ x, r.onVar v = some x → ρ v.id = ρ' x.id)
    (hgone : ∀ v ∈ b.layer.vars.items, r.onVar v = none →
      p.orient (· ≤ ·) (ρ v.id) (p.join (R.bases b.layer))) {n : Nat}
    (hbody : ∀ v ∈ b.layer.vars.items, ∀ body, g.cycles.find? v = some body →
      p.orient (· ≤ ·) (R.unrolled (R.readVars g.cycles ρ) body p n)
        (R.unrolled (R.readReduced r g ρ') body p n)) :
    p.orient (· ≤ ·) (p.join (R.readVars g.cycles ρ n p b.layer.vars.items))
      (p.join (R.readReduced r g ρ' n p b.layer.vars.items ++ R.bases b.layer)) := by
  have hin : ∀ v ∈ b.layer.vars.items, ∀ x, r.onVar v = some x → p.orient (· ≤ ·)
      (R.readVar (r.onGraph g).cycles ρ' n x p)
      (p.join (R.readReduced r g ρ' n p b.layer.vars.items ++ R.bases b.layer)) := by
    intro v hv x hx
    have hmem := VarSet.contains_ofList.mpr ⟨x, List.mem_filterMap.mpr ⟨v, hv, hx⟩, rfl⟩
    obtain ⟨y, hy, hid⟩ := VarSet.contains_iff.mp hmem
    have hsame : R.readVar (r.onGraph g).cycles ρ' n y p = R.readVar (r.onGraph g).cycles ρ' n x p := by
      rw [readVar_eq, readVar_eq, VarMap.find?_congr _ hid, hid]
    rw [← hsame]
    exact Polarity.le_join (List.mem_append_left _ (List.mem_map_of_mem hy))
  refine Polarity.join_le_iff.mpr fun a ha => ?_
  obtain ⟨v, hv, rfl⟩ := List.mem_map.mp ha
  cases hcycle : g.cycles.find? v with
  | some body =>
    obtain ⟨hself, hread⟩ := readVar_of_body (R := R) hg h hb hv hcycle ρ' n
    refine Polarity.orient_le_trans ?_ (hin v hv v hself)
    rw [hread, readVar_eq, hcycle]
    exact hbody v hv body hcycle
  | none =>
    rw [readVar_eq, hcycle]
    cases hx : r.onVar v with
    | some x =>
      obtain ⟨-, hread⟩ := readVar_of_free (R := R) hg h hb hv hcycle hx ρ' n
      have hle := hin v hv x hx
      rw [hread] at hle
      rwa [hkept v hv x hx]
    | none =>
      refine Polarity.orient_le_trans (hgone v hv hx) (Polarity.join_le_iff.mpr fun a ha => ?_)
      exact Polarity.le_join (List.mem_append_right _ ha)

/-- Every assignment of the graph has one of its reduction whose reading is not above, and the
other way round. -/
theorem readGraph_reduce (R : LatticeReading α) {g : BundleGraph} (hg : g.Tidy) :
    (∀ ρ, ∃ ρ', ∀ n, R.readGraph ρ' n g.reduce ≤ R.readGraph ρ n g) ∧
      ∀ ρ', ∃ ρ, ∀ n, R.readGraph ρ n g ≤ R.readGraph ρ' n g.reduce := by
  obtain ⟨live, cls, h⟩ := Reduction.ofGraph_consistent hg
  have hreduced : ∀ ρ n, R.readGraph ρ n g.reduce =
      R.readBundle (R.readReduced (.ofGraph g) g ρ n) g.root .positive := by
    intro ρ n
    rw [readGraph, BundleGraph.reduce, Reduction.onGraph, readBundle_onBundle]
    rfl
  have hplain : ∀ ρ n, R.readGraph ρ n g =
      R.readBundle (R.readVars g.cycles ρ n) g.root .positive := fun _ _ => rfl
  constructor
  · intro ρ
    obtain ⟨ρ', hconst, hplace⟩ := h.merged.blends ρ
    refine ⟨ρ', fun n => ?_⟩
    rw [hreduced, hplain]
    exact readBundle_le_of_unrolled (fun n p b hb hbody =>
      readReduced_le hg h hconst hb (hplace p b hb) hbody) n .root
  · intro ρ'
    have hidle : ∀ x, ∃ d : α, g.Idle x → ∀ p b, g.Occurs p b → b.layer.Has x →
        p.orient (· ≤ ·) d (p.join (R.bases b.layer)) := by
      intro x
      by_cases hx : g.Idle x
      · obtain ⟨d, hd⟩ := hx.exists_element R
        exact ⟨d, fun _ => hd⟩
      · exact ⟨⊥, fun h => absurd h hx⟩
    choose d hd using hidle
    -- A variable that was replaced is what replaced it, one that was removed is what it idles as.
    have hρ : ∀ v : Var, (((Reduction.ofGraph g).onVar ⟨v.id, 0⟩).map Var.id).elim (d v.id) ρ' =
        (((Reduction.ofGraph g).onVar v).map Var.id).elim (d v.id) ρ' := by
      intro v
      rw [Reduction.onVar_congr _ (show (⟨v.id, 0⟩ : Var).id = v.id from rfl)]
    refine ⟨fun x => (((Reduction.ofGraph g).onVar ⟨x, 0⟩).map Var.id).elim (d x) ρ', fun n => ?_⟩
    rw [hreduced, hplain]
    refine readBundle_le_of_unrolled (p := .positive) (fun n p b hb hbody => ?_) n .root
    refine le_readReduced hg h hb (fun v hv x hx => ?_) (fun v hv hx => ?_) hbody
    · rw [hρ, hx]
      rfl
    · rw [hρ, hx]
      exact hd v.id (h.idle_of_onVar hx) p b hb ⟨v, hv, rfl⟩

end LatticeReading

def inhabitation : LatticeReading Prop where
  build
    | .base _ => True
    | .arrow p r => p → r
    | .tuple xs => ∀ x ∈ xs, x
    | .record fs => ∀ f ∈ fs, f.2
  arrow hp hr := fun h q => hr (h (hp q))
  tuple h := by
    intro hxs y hy
    obtain ⟨x, hx, hxy⟩ := forall₂_exists_left h hy
    exact hxy (hxs x hx)
  record h := by
    intro hfs g hg
    obtain ⟨f, hf, hfg⟩ := forall₂_exists_left h hg
    exact hfg.2 (hfs f hf)

namespace BundleGraph

theorem readGraph_reduce_sharedStream : sharedStream.Tidy ∧
    (∀ ρ, ∃ ρ', ∀ n, inhabitation.readGraph ρ' n sharedStream.reduce ≤
      inhabitation.readGraph ρ n sharedStream) ∧
    ∀ ρ', ∃ ρ, ∀ n, inhabitation.readGraph ρ n sharedStream ≤
      inhabitation.readGraph ρ' n sharedStream.reduce :=
  ⟨sharedStream_tidy, inhabitation.readGraph_reduce sharedStream_tidy⟩

end BundleGraph
end Biunify
