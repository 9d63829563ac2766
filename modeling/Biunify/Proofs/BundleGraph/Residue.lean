import Biunify.Proofs.BundleGraph.Orderly
import Biunify.Proofs.BundleGraph.Turns

/-! What a reduction leaves. A variable that is kept is read at both polarities, and no base type
stands beside it everywhere. But a variable that goes for a base type can come back: the variables
that became it before it went, or after, still become it. It then stands where they stood. -/

namespace Biunify
namespace BundleGraph

def ReadAt (g : BundleGraph) (p : Polarity) (x : Nat) : Prop := ∃ b, g.Occurs p b ∧ b.layer.Has x

def Carries (g : BundleGraph) (x : Nat) (a : BaseTy) : Prop :=
  ∀ p b, g.Occurs p b → b.layer.Has x → b.layer.bases.contains a = true

/-- An older variable without a body that is read at both polarities and at one of them stands
exactly where `x` does. -/
structure Shadows (g : BundleGraph) (w x : Nat) : Prop where
  older : w < x
  free : g.cycles.contains ⟨w, 0⟩ = false
  read : ∀ p, g.ReadAt p w
  same : ∃ p, ∀ b, g.Occurs p b → (b.layer.Has x ↔ b.layer.Has w)

variable {g : BundleGraph} {p : Polarity} {v : Var} {a : BaseTy}

theorem Tidy.readAt_iff (hg : g.Tidy) :
    g.ReadAt p v.id ↔ ∃ os, (Census.take g).beside.find? p v = some os :=
  (Census.take_contains_iff hg.onePolarity).symm.trans PolarMap.contains_iff

theorem Tidy.readAt_of_whole (hg : g.Tidy) (hv : g.Whole v) (h : g.ReadAt p v.id)
    (q : Polarity) : g.ReadAt q v.id := by
  by_cases hq : q = p
  · exact hq ▸ h
  · obtain rfl : q = p.flip := by cases p <;> cases q <;> simp_all [Polarity.flip]
    have hsome := hv p (Option.isSome_iff_exists.mpr (hg.readAt_iff.mp h))
    exact hg.readAt_iff.mpr (Option.isSome_iff_exists.mp hsome)

end BundleGraph

namespace Reduction

open BundleGraph

variable {g : BundleGraph} {live : Nat → Prop} {cls : Nat → Nat} {r : Reduction} {p : Polarity}
  {v w : Var} {a : BaseTy} {rest : List Var}

theorem Consistent.open (hg : g.Tidy) (h : r.Consistent g live cls)
    (hfree : r.bodies.contains v = false) : r.Open v := by
  refine ⟨hfree, fun p w hw => ?_⟩
  obtain ⟨os, hos, hcontains⟩ := hw
  obtain ⟨u, hu, hid⟩ := contains_var_iff.mp hcontains
  rw [r.beside.find?_congr p hid.symm, h.isSome_beside]
  exact h.isSome_of_beside hg hos hu

theorem Consistent.has_of_lists (hg : g.Tidy) (h : r.Consistent g live cls)
    (hw : r.Lists p v (.var w)) {b : Bundle} (hb : g.Occurs p b) (hv : b.layer.Has v.id) :
    b.layer.Has w.id := by
  obtain ⟨os, hos, hcontains⟩ := hw
  obtain ⟨u, hu, hid⟩ := contains_var_iff.mp hcontains
  obtain ⟨os', hos', hsub⟩ := h.sub_beside hos
  obtain ⟨ws, hws, hall⟩ := hg.counts hb hv rfl
  obtain rfl := Option.some.inj (hos'.symm.trans hws)
  rw [← hid]
  exact Census.contains_ofLayer_var.mp (hall _ (hsub _ hu))

theorem Consistent.readAt_of_lists (hg : g.Tidy) (h : r.Consistent g live cls) {o : Occurrence}
    (ho : r.Lists p v o) : g.ReadAt p v.id := by
  obtain ⟨os, hos, -⟩ := ho
  obtain ⟨os', hos', -⟩ := h.sub_beside hos
  exact hg.readAt_iff.mpr ⟨os', hos'⟩

theorem lists_of_carries (hg : g.Tidy)
    (hsame : r.beside.find? p v = (Census.take g).beside.find? p v) (hread : g.ReadAt p v.id)
    (ha : g.Carries v.id a) : r.Lists p v (.base a) := by
  obtain ⟨os, hos⟩ := hg.readAt_iff.mp hread
  refine ⟨os, hsame.trans hos, (Census.take_fits g).complete hos fun b hb hv => ?_⟩
  exact Census.contains_ofLayer_base.mpr (ha p b hb hv)

/-- The state of a reduction when the variables of `rest` have not had their turn. Their lists are
those of the census. A variable only becomes one that has had its turn, and of those no two that
are kept can still be merged. One that is kept with a base type beside it everywhere took in
another that lacks it somewhere. -/
structure Progress (g : BundleGraph) (rest : List Var) (r : Reduction) : Prop where
  todo : ∀ {u}, (∃ x ∈ rest, x.id = u.id) → ∀ p,
    r.beside.find? p u = (Census.take g).beside.find? p u
  merged : ∀ {w u}, r.subst.find? w = some (some u) → g.Shadows w.id u.id ∧
    (∀ p, g.ReadAt p u.id) ∧ (∀ x ∈ rest, x.id ≠ u.id) ∧
      (r.subst.find? u = none ∨ r.subst.find? u = some none)
  settled : ∀ {u w}, (∀ x ∈ rest, x.id ≠ u.id) → u.id ≠ w.id → r.subst.find? u = none →
    r.subst.find? w = none → r.bodies.contains u = false → r.bodies.contains w = false →
      ∀ p, ¬ r.Mutual p u w
  bare : ∀ {u a}, (∀ x ∈ rest, x.id ≠ u.id) → r.subst.find? u = none →
    r.bodies.contains u = false → (∃ p, g.ReadAt p u.id) → g.Carries u.id a →
      ∃ w u', r.subst.find? w = some (some u') ∧ u'.id = u.id ∧ ¬ g.Carries w.id a

theorem Progress.skip (h : r.Progress g (v :: rest))
    (hv : r.subst.find? v = none → r.bodies.contains v = false → False) : r.Progress g rest := by
  have hdone : ∀ {u}, (∀ x ∈ rest, x.id ≠ u.id) → r.subst.find? u = none →
      r.bodies.contains u = false → ∀ x ∈ v :: rest, x.id ≠ u.id := by
    intro u hu hnone hfree
    refine List.forall_mem_cons.mpr ⟨fun hid => hv ?_ ?_, hu⟩
    · exact (r.subst.find?_congr hid).trans hnone
    · exact (r.bodies.contains_congr hid).trans hfree
  refine ⟨fun hu => h.todo ?_, fun hw => ?_, fun hu hne hnone hw hfree => ?_,
    fun hu hnone hfree => h.bare (hdone hu hnone hfree) hnone hfree⟩
  · obtain ⟨x, hx, hid⟩ := hu
    exact ⟨x, List.mem_cons_of_mem v hx, hid⟩
  · obtain ⟨hshadows, hread, hother, hself⟩ := h.merged hw
    exact ⟨hshadows, hread, (List.forall_mem_cons.mp hother).2, hself⟩
  · exact h.settled (hdone hu hnone hfree) hne hnone hw hfree

section Turn

variable {r' : Reduction} (hg : g.Tidy) (hc : r.Consistent g live cls)
  (h : r.Progress g (v :: rest)) (hrest : ∀ x ∈ rest, x.id < v.id) (hv : r.Open v)
  (hnone : r.subst.find? v = none) (hadv : Advances v r r')
  (hall : ∀ p o, r'.Lists p v o → r'.Weighed v p o)

theorem Advances.self_cases (hnone : r.subst.find? v = none) (hadv : Advances v r r') :
    r'.subst.find? v = none ∨ r'.subst.find? v = some none :=
  hadv.self.imp (·.trans hnone) id

section

include h hadv hall

theorem Progress.settled_turn {u : Var} (hu : ∀ x ∈ rest, x.id ≠ u.id) (hne : u.id ≠ w.id)
    (hunone : r'.subst.find? u = none) (hwnone : r'.subst.find? w = none)
    (hufree : r'.bodies.contains u = false) (hwfree : r'.bodies.contains w = false) (p : Polarity) :
    ¬ r'.Mutual p u w := by
  intro hm
  by_cases hid : u.id = v.id
  · have hm' : r'.Mutual p v w := (hm.symm.congr hid.symm).symm
    rcases hall p _ hm'.1 with hself | hbody | hdecided | hmutual
    · exact hne (hid.trans hself.symm)
    · cases hbody.symm.trans hwfree
    · exact hdecided hwnone
    · exact hmutual hm'
  · rw [hadv.bodies] at hufree hwfree
    exact h.settled (List.forall_mem_cons.mpr ⟨Ne.symm hid, hu⟩) hne (hadv.decided hunone)
      (hadv.decided hwnone) hufree hwfree p (hadv.mutual_of hm)

end

include h hv hnone

theorem Progress.mem_rest (hw : r.subst.find? w = none) (hwfree : r.bodies.contains w = false)
    (hne : w.id ≠ v.id) (hm : r.Mutual p v w) : ∃ x ∈ rest, x.id = w.id := by
  by_contra hdone
  simp only [not_exists, not_and] at hdone
  exact h.settled (List.forall_mem_cons.mpr ⟨hne.symm, hdone⟩) hne hw hnone hwfree hv.free p hm.symm

include hg hc hrest

theorem Progress.shadows (hw : r.subst.find? w = none) (hwfree : r.bodies.contains w = false)
    (hne : w.id ≠ v.id) (hm : r.Mutual p v w) : g.Shadows w.id v.id := by
  obtain ⟨x, hx, hid⟩ := h.mem_rest hv hnone hw hwfree hne hm
  have hread := hc.readAt_of_lists hg hm.2
  refine ⟨hid ▸ hrest x hx, ?_, hg.readAt_of_whole (hc.whole hw hwfree) hread, p, fun b hb => ?_⟩
  · obtain ⟨b, hb, u, hu, huw⟩ := hread
    rw [g.cycles.contains_congr (show (⟨w.id, 0⟩ : Var).id = u.id from huw.symm),
      ← hg.contains_bodies hb hu, ← hc.bodies, r.bodies.contains_congr huw, hwfree]
  · exact ⟨hc.has_of_lists hg hm.1 hb, hc.has_of_lists hg hm.2 hb⟩

include hadv

theorem Progress.merged_turn {u : Var} (hw : r'.subst.find? w = some (some u)) :
    g.Shadows w.id u.id ∧ (∀ p, g.ReadAt p u.id) ∧ (∀ x ∈ rest, x.id ≠ u.id) ∧
      (r'.subst.find? u = none ∨ r'.subst.find? u = some none) := by
  have hself := hadv.self_cases hnone
  have hne : w.id ≠ v.id := by
    intro hid
    rw [r'.subst.find?_congr hid] at hw
    rcases hself with hself | hself <;> cases hself.symm.trans hw
  rcases hadv.merged hne with hsame | ⟨hwnone, hnew, hwfree, q, hm⟩
  · obtain ⟨hshadows, hread, hother, hu⟩ := h.merged (hsame.symm.trans hw)
    obtain ⟨huv, hother⟩ := List.forall_mem_cons.mp hother
    refine ⟨hshadows, hread, hother, ?_⟩
    rcases hadv.merged huv.symm with hsame | ⟨hunone, -, hufree, q, hm⟩
    · rwa [hsame]
    · -- `u` had its turn, so it is settled and cannot become `v`.
      obtain ⟨x, hx, hid⟩ := h.mem_rest hv hnone hunone hufree huv.symm hm
      exact absurd hid (hother x hx)
  · obtain rfl : v = u := Option.some.inj (Option.some.inj (hnew.symm.trans hw))
    have hread := hg.readAt_of_whole (hc.whole hnone hv.free) (hc.readAt_of_lists hg hm.1)
    exact ⟨h.shadows hg hc hrest hv hnone hwnone hwfree hne hm, hread,
      fun x hx => (hrest x hx).ne, hself⟩

include hall

theorem Progress.gone_of_carries (hread : g.ReadAt p v.id) (ha : g.Carries v.id a)
    (hothers : ∀ w, r'.subst.find? w = some (some v) → g.Carries w.id a) :
    r'.subst.find? v = some none := by
  have hlists : ∀ p, r'.Lists p v (.base a) := by
    refine hadv.common (fun q => ?_) fun w hne hwnone hnew q => ?_
    · exact lists_of_carries hg (h.todo ⟨v, List.mem_cons_self, rfl⟩ q)
        (hg.readAt_of_whole (hc.whole hnone hv.free) hread q) ha
    · rcases hadv.merged hne with hsame | ⟨-, -, hwfree, _, hm⟩
      · cases (hwnone.symm.trans hsame.symm).trans hnew
      · obtain ⟨x, hx, hxw⟩ := h.mem_rest hv hnone hwnone hwfree hne hm
        have hshadows := h.shadows hg hc hrest hv hnone hwnone hwfree hne hm
        exact lists_of_carries hg (h.todo ⟨x, List.mem_cons_of_mem v hx, hxw⟩ q)
          (hshadows.read q) (hothers w hnew)
  rcases hall .positive _ (hlists .positive) with hgone | ⟨q, hq⟩
  · exact hgone
  · exact absurd (hlists q) hq

theorem Progress.bare_turn {u : Var} (hu : ∀ x ∈ rest, x.id ≠ u.id)
    (hunone : r'.subst.find? u = none) (hufree : r'.bodies.contains u = false)
    (hread : ∃ p, g.ReadAt p u.id) (ha : g.Carries u.id a) :
    ∃ w u', r'.subst.find? w = some (some u') ∧ u'.id = u.id ∧ ¬ g.Carries w.id a := by
  by_cases hid : u.id = v.id
  · -- Otherwise the base type survives every merge of this turn, and `v` goes for it.
    by_contra hothers
    simp only [not_exists, not_and, not_not] at hothers
    rw [hid] at hread ha
    obtain ⟨p, hread⟩ := hread
    have hgone := h.gone_of_carries hg hc hrest hv hnone hadv hall hread ha
      fun w hw => hothers w v hw hid.symm
    rw [r'.subst.find?_congr hid, hgone] at hunone
    cases hunone
  · obtain ⟨w, u', hw, hu', hnot⟩ := h.bare (List.forall_mem_cons.mpr ⟨Ne.symm hid, hu⟩)
      (hadv.decided hunone) (hadv.bodies ▸ hufree) hread ha
    have hne : w.id ≠ v.id := by
      intro hwv
      rw [r.subst.find?_congr hwv, hnone] at hw
      cases hw
    rcases hadv.merged hne with hsame | ⟨hwnone, -⟩
    · exact ⟨w, u', hsame.trans hw, hu', hnot⟩
    · cases hw.symm.trans hwnone

theorem Progress.turn : r'.Progress g rest := by
  refine ⟨?_, h.merged_turn hg hc hrest hv hnone hadv, h.settled_turn hadv hall,
    h.bare_turn hg hc hrest hv hnone hadv hall⟩
  rintro u ⟨x, hx, hid⟩ p
  rw [hadv.other (hid ▸ (hrest x hx).ne)]
  exact h.todo ⟨x, List.mem_cons_of_mem v hx, hid⟩ p

end Turn

theorem Progress.unify (hg : g.Tidy) (hc : r.Consistent g live cls)
    (h : r.Progress g (v :: rest)) (hrest : ∀ x ∈ rest, x.id < v.id) :
    (r.unify v).Progress g rest := by
  cases hnone : r.subst.find? v with
  | some a =>
    have hskip : r.unify v = r := by
      rw [Reduction.unify, VarMap.contains, hnone]
      rfl
    rw [hskip]
    exact h.skip fun hn => by cases hnone.symm.trans hn
  | none =>
    cases hbody : r.bodies.contains v with
    | true =>
      have hskip : r.unify v = r := by
        have hv : (Census.take g).bodies.contains v = true := hc.bodies ▸ hbody
        rw [Reduction.unify, VarMap.contains, hnone, List.foldl_cons, List.foldl_cons,
          hc.weighSide_of_body hg hv, hc.weighSide_of_body hg hv]
        rfl
      rw [hskip]
      exact h.skip fun _ hfree => by cases hbody.symm.trans hfree
    | false =>
      have hopen := hc.open hg hbody
      obtain ⟨hadv, hall⟩ := unify_advances hopen hnone
      exact h.turn hg hc hrest hopen hnone hadv hall

theorem Progress.foldl_unify (hg : g.Tidy) (hc : ∃ live cls, r.Consistent g live cls)
    (h : r.Progress g rest) (hrest : rest.Pairwise fun u v => v.id < u.id) :
    (rest.foldl Reduction.unify r).Progress g [] := by
  induction rest generalizing r with
  | nil => exact h
  | cons v rest ih =>
    obtain ⟨hv, hrest⟩ := List.pairwise_cons.mp hrest
    have hc' := unify_consistent hg v hc
    obtain ⟨live, cls, hc⟩ := hc
    exact ih hc' (h.unify hg hc hv) hrest

theorem dropped_progress (hg : g.Tidy) :
    ((Census.take g).vars.items.reverse.foldl dropPolar (ofCensus (Census.take g))).Progress g
      (Census.take g).vars.items.reverse := by
  -- a variable that was never listed is not read, so there is nothing to do about it
  obtain ⟨-, hbeside, hsubst⟩ :=
    foldl_dropPolar (Census.take g).vars.items.reverse (ofCensus (Census.take g))
  have hlisted : ∀ {p u os}, (Census.take g).beside.find? p u = some os →
      ¬∀ x ∈ (Census.take g).vars.items.reverse, x.id ≠ u.id := by
    intro p u os hos hall
    obtain ⟨x, hx, hid⟩ := VarSet.contains_iff.mp ((Census.take_fits g).listed hos)
    exact hall x (List.mem_reverse.mpr hx) hid
  refine ⟨fun _ p => ?_, fun {w u} hw => ?_, fun hu _ _ _ _ _ p hm => ?_, fun hu _ _ hread _ => ?_⟩
  · rw [hbeside]
    rfl
  · rcases (hsubst w).2 with hsame | ⟨-, hgone⟩
    · cases hsame.symm.trans hw
    · cases hgone.symm.trans hw
  · obtain ⟨⟨os, hos, -⟩, -⟩ := hm
    rw [hbeside] at hos
    exact absurd hu (hlisted hos)
  · obtain ⟨p, hread⟩ := hread
    obtain ⟨os, hos⟩ := hg.readAt_iff.mp hread
    exact absurd hu (hlisted hos)

theorem ofGraph_progress (hg : g.Tidy) : (ofGraph g).Progress g [] :=
  (dropped_progress hg).foldl_unify hg ⟨_, _, dropped_consistent hg⟩
    (List.pairwise_reverse.mpr (Census.take g).vars.ascending)

section Reduced

variable {b : Bundle}

theorem has_onBundle {x : Nat} : (r.onBundle b).layer.Has x ↔
    ∃ u ∈ b.layer.vars.items, (r.onVar u).map Var.id = some x := by
  rcases b with ⟨l⟩
  have hset : (VarSet.ofList (l.vars.items.filterMap r.onVar)).contains ⟨x, 0⟩ = true ↔ _ :=
    VarSet.contains_ofList
  rw [VarSet.contains_iff] at hset
  rw [onBundle_node]
  refine hset.trans ?_
  simp only [List.mem_filterMap, Option.map_eq_some_iff]
  constructor
  · rintro ⟨y, ⟨u, hu, hy⟩, hid⟩
    exact ⟨u, hu, y, hy, hid⟩
  · rintro ⟨u, hu, y, hy, hid⟩
    exact ⟨y, ⟨u, hu, hy⟩, hid⟩

theorem bases_onBundle : (r.onBundle b).layer.bases = b.layer.bases := by
  rcases b with ⟨l⟩
  rw [onBundle_node]
  rfl

theorem onBundle_child {q : Polarity} {c : Bundle} (h : b.layer.Child p q c) :
    (r.onBundle b).layer.Child p q (r.onBundle c) := by
  rcases b with ⟨l⟩
  rw [onBundle_node]
  exact (h.map r.onBundle).with_vars _

theorem Consistent.onGraph_occurs (hg : g.Tidy) (h : r.Consistent g live cls)
    (hb : g.Occurs p b) : (r.onGraph g).Occurs p (r.onBundle b) := by
  induction hb with
  | root => exact .root
  | child _ hc ih => exact ih.child (onBundle_child hc)
  | @body p b body v hb hv hbody ih =>
    -- A variable with a body stays where it stands, so its body is still read there.
    have hmet : r.bodies.contains v = true := by
      rw [h.bodies, hg.contains_bodies hb hv]
      exact VarMap.contains_of_find? hbody rfl
    have hhas : (r.onBundle b).layer.Has v.id :=
      has_onBundle.mpr ⟨v, hv, by rw [h.onVar_of_body hmet]; rfl⟩
    obtain ⟨u, hu, hid⟩ := hhas
    refine ih.body hu ?_
    rw [VarMap.find?_congr _ hid, h.find?_cycles hg hb hv, hbody]
    rfl

theorem Consistent.exists_reduced (hg : g.Tidy) (h : r.Consistent g live cls) {x : Var}
    (hx : r.onVar v = some x) (hb : g.Occurs p b) (hv : b.layer.Has v.id) :
    (r.onGraph g).Occurs p (r.onBundle b) ∧ (r.onBundle b).layer.Has x.id := by
  obtain ⟨u, hu, hid⟩ := hv
  refine ⟨h.onGraph_occurs hg hb, has_onBundle.mpr ⟨u, hu, ?_⟩⟩
  rw [r.onVar_congr hid, hx]
  rfl

theorem Consistent.readAt_reduced (hg : g.Tidy) (h : r.Consistent g live cls) {x : Var}
    (hx : r.onVar v = some x) (hv : g.ReadAt p v.id) : (r.onGraph g).ReadAt p x.id := by
  obtain ⟨b, hb, hv⟩ := hv
  exact ⟨_, h.exists_reduced hg hx hb hv⟩

theorem Consistent.carries_of_reduced (hg : g.Tidy) (h : r.Consistent g live cls) {x : Var}
    (hx : r.onVar v = some x) (ha : (r.onGraph g).Carries x.id a) : g.Carries v.id a := by
  intro p b hb hv
  obtain ⟨hocc, hhas⟩ := h.exists_reduced hg hx hb hv
  rw [← bases_onBundle (r := r)]
  exact ha p _ hocc hhas

theorem onVar_of_replaced {x : Var} (h : r.subst.find? v = some (some x)) : r.onVar v = some x := by
  rw [onVar, h]
  rfl

theorem onVar_of_kept (h : r.subst.find? v = none) : r.onVar v = some v := by
  rw [onVar, h]
  rfl

theorem Progress.not_carries (hg : g.Tidy) (hc : r.Consistent g live cls) (h : r.Progress g [])
    (hnone : r.subst.find? v = none) (hfree : r.bodies.contains v = false)
    (hread : g.ReadAt p v.id) : ¬ (r.onGraph g).Carries v.id a := by
  intro ha
  obtain ⟨w, u, hw, hid, hnot⟩ := h.bare (fun _ hx => absurd hx List.not_mem_nil) hnone hfree
    ⟨p, hread⟩ (hc.carries_of_reduced hg (onVar_of_kept hnone) ha)
  exact hnot (hc.carries_of_reduced hg (onVar_of_replaced hw) (hid ▸ ha))

theorem Consistent.carries_of_removed (h : r.Consistent g live cls)
    (hv : r.subst.find? v = some none) (hread : ∀ p, g.ReadAt p v.id) :
    ∃ a, g.Carries v.id a := by
  cases h.removed hv with
  | base a ha => exact ⟨a, ha⟩
  | onePolarity p hp =>
    obtain ⟨b, hb, hhas⟩ := hread p.flip
    exact absurd (hp _ b hb hhas) p.flip_ne

end Reduced

end Reduction

namespace BundleGraph

theorem Tidy.reduce_residue {g : BundleGraph} (hg : g.Tidy) {x : Nat} {p : Polarity}
    (hfree : g.reduce.cycles.contains ⟨x, 0⟩ = false) (hx : g.reduce.ReadAt p x) :
    g.reduce.ReadAt p.flip x ∧ ∀ a, g.reduce.Carries x a →
      (∃ a', g.Carries x a') ∧ ∃ w, g.Shadows w x ∧ g.Carries w a := by
  obtain ⟨live, cls, hc⟩ := Reduction.ofGraph_consistent hg
  have hprogress := Reduction.ofGraph_progress hg
  obtain ⟨b', hb', hhas⟩ := hx
  obtain ⟨b, hb, rfl⟩ := hc.occurs_onGraph hg hb'
  obtain ⟨u, hu, honVar⟩ := Reduction.has_onBundle.mp hhas
  obtain ⟨y, hy, rfl⟩ := Option.map_eq_some_iff.mp honVar
  have hbodies : (Reduction.ofGraph g).bodies.contains y = false := by
    have hid : (⟨y.id, 0⟩ : Var).id = y.id := rfl
    rw [VarMap.contains_congr _ hid, VarMap.contains, reduce, Reduction.onGraph, VarMap.find?_map,
      Option.isSome_map] at hfree
    exact hfree
  have hread : g.ReadAt p u.id := ⟨b, hb, u, hu, rfl⟩
  cases hs : (Reduction.ofGraph g).subst.find? u with
  | none =>
    obtain rfl : u = y := Option.some.inj ((Reduction.onVar_of_kept hs).symm.trans hy)
    have hflip := hg.readAt_of_whole (hc.whole hs hbodies) hread p.flip
    exact ⟨hc.readAt_reduced hg hy hflip, fun a ha =>
      absurd ha (hprogress.not_carries hg hc hs hbodies hread)⟩
  | some target =>
    obtain rfl : target = some y := by
      rw [Reduction.onVar, hs] at hy
      exact hy
    obtain ⟨hshadows, hready, -, hself⟩ := hprogress.merged hs
    refine ⟨hc.readAt_reduced hg hy (hshadows.read p.flip), fun a ha => ?_⟩
    -- `u` became `y`, which may have gone for a base type: only then can one be left.
    rcases hself with hkept | hgone
    · exact absurd ha (hprogress.not_carries hg hc hkept hbodies (hready p))
    · exact ⟨hc.carries_of_removed hgone hready, u.id, hshadows, hc.carries_of_reduced hg hy ha⟩

/-- In the reduced graph of a type over the table no variable without a body is read at one
polarity only. None has a base type beside it everywhere, unless it had one already in the graph
that was reduced and an older variable, which had one too, stood at one polarity exactly where it
did. -/
theorem reduce_ofTy_exhaustive {s : Session} {ty : Ty} (hs : s.table.Scoped fun _ => True)
    (hty : ty.InScope s.table) :
    ∃ g s', s.Settles (fun fuel => ofTy fuel ty) (.ok g) s' ∧
      ∀ x p, g.reduce.cycles.contains ⟨x, 0⟩ = false → g.reduce.ReadAt p x →
        g.reduce.ReadAt p.flip x ∧ ∀ a, g.reduce.Carries x a →
          (∃ a', g.Carries x a') ∧ ∃ w, g.Shadows w x ∧ g.Carries w a := by
  obtain ⟨g, s', hsettles, -, horderly⟩ := ofTy_orderly hs hty
  exact ⟨g, s', hsettles, fun x p hfree hx => horderly.toTidy.reduce_residue hfree hx⟩

def twinInts : BoundTable :=
  (((((BoundTable.empty.addVar 0).addVar 1).addBound .positive ⟨0, 0⟩ (.base .int)).addBound
    .negative ⟨0, 0⟩ (.base .int)).addBound .positive ⟨1, 1⟩ (.var ⟨0, 0⟩)).addBound .negative
    ⟨1, 1⟩ (.var ⟨0, 0⟩)

theorem twinInts_scoped : twinInts.Scoped fun _ => True := by
  have hempty := BoundTable.scoped_empty fun _ => True
  unfold twinInts
  refine (((((hempty.addVar 0).addVar 1).addBound ?_ ?_ .positive).addBound ?_ ?_
    .negative).addBound ?_ ?_ .positive).addBound ?_ ?_ .negative
  · rfl
  · trivial
  · rfl
  · trivial
  all_goals rfl

def twinIntsTy : Ty := .arrow 0 (.var ⟨1, 1⟩) (.var ⟨1, 1⟩)

theorem reduce_ofTy_exhaustive_twinInts :
    twinInts.Scoped (fun _ => True) ∧ twinIntsTy.InScope twinInts ∧
      ∃ g s', Session.Settles ⟨twinInts, 1, []⟩ (fun fuel => ofTy fuel twinIntsTy) (.ok g) s' ∧
        ∀ x p, g.reduce.cycles.contains ⟨x, 0⟩ = false → g.reduce.ReadAt p x →
          g.reduce.ReadAt p.flip x ∧ ∀ a, g.reduce.Carries x a →
            (∃ a', g.Carries x a') ∧ ∃ w, g.Shadows w x ∧ g.Carries w a := by
  have hty : twinIntsTy.InScope twinInts := ⟨rfl, rfl⟩
  exact ⟨twinInts_scoped, hty,
    reduce_ofTy_exhaustive (s := ⟨twinInts, 1, []⟩) twinInts_scoped hty⟩

def besideInt (vars : List Var) : Bundle :=
  .node { vars := .ofList vars, bases := .insert .empty .int }

def twinIntsGraph (vars : List Var) : BundleGraph :=
  ⟨.node { func := some (besideInt vars, besideInt vars) }, .empty⟩

theorem twinIntsGraph_occurs {vars : List Var} {p : Polarity} {b : Bundle}
    (h : (twinIntsGraph vars).Occurs p b) : b = (twinIntsGraph vars).root ∨ b = besideInt vars := by
  induction h with
  | root => exact .inl rfl
  | child _ hc ih =>
    rcases ih with rfl | rfl
    · cases hc with
      | elem h _ | field h _ => cases h
      | param h | result h => cases h; exact .inr rfl
    · cases hc with
      | elem h _ | field h _ | param h | result h => cases h
  | body _ _ hbody _ => cases hbody

theorem twinIntsGraph_readAt {vars : List Var} {x : Nat} (hx : (besideInt vars).layer.Has x)
    (p : Polarity) : (twinIntsGraph vars).ReadAt p x := by
  have hfunc : (twinIntsGraph vars).root.layer.func = some (besideInt vars, besideInt vars) := rfl
  refine ⟨besideInt vars, ?_, hx⟩
  cases p with
  | positive => exact Occurs.root.child (.result hfunc)
  | negative => exact Occurs.root.child (.param hfunc)

theorem twinIntsGraph_carries (vars : List Var) (x : Nat) :
    (twinIntsGraph vars).Carries x .int := by
  intro p b hb hx
  rcases twinIntsGraph_occurs hb with rfl | rfl
  · obtain ⟨v, hv, -⟩ := hx
    cases hv
  · rfl

/-- The first variable becomes the second, which then goes for `int`. The first is replaced only
once, so the second is back and `int` is still beside it. -/
theorem reduce_twinInts_carries :
    twinInts.Scoped (fun _ => True) ∧ twinIntsTy.InScope twinInts ∧
      ∃ g s', Session.Settles ⟨twinInts, 1, []⟩ (fun fuel => ofTy fuel twinIntsTy) (.ok g) s' ∧
        g.reduce.cycles.contains ⟨1, 0⟩ = false ∧ (∀ p, g.reduce.ReadAt p 1) ∧
          g.reduce.Carries 1 .int := by
  have hrun : ∃ s', ∀ fuel, Session.perform ⟨twinInts, 1, []⟩ (ofTy (fuel + 3) twinIntsTy) =
      (.ok (twinIntsGraph [⟨0, 0⟩, ⟨1, 1⟩]), s') := ⟨_, fun _ => rfl⟩
  have hreduce : (twinIntsGraph [⟨0, 0⟩, ⟨1, 1⟩]).reduce = twinIntsGraph [⟨1, 1⟩] := rfl
  obtain ⟨s', hrun⟩ := hrun
  refine ⟨twinInts_scoped, ⟨rfl, rfl⟩, twinIntsGraph [⟨0, 0⟩, ⟨1, 1⟩], s',
    ⟨fun h => ?_, 3, fun more hmore => ?_⟩, ?_⟩
  · cases h
  · obtain ⟨fuel, rfl⟩ := Nat.exists_eq_add_of_le' hmore
    exact hrun fuel
  · rw [hreduce]
    have hhas : (besideInt [⟨1, 1⟩]).layer.Has 1 := ⟨⟨1, 1⟩, List.mem_singleton_self _, rfl⟩
    exact ⟨rfl, twinIntsGraph_readAt hhas, twinIntsGraph_carries _ 1⟩

end BundleGraph
end Biunify
