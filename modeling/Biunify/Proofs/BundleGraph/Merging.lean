import Biunify.BundleGraph.Reduce
import Biunify.Proofs.BundleGraph.Census

/-! Why the variables of a graph may be merged and removed. Two classes of variables become one
only if, at one polarity, members of both stand wherever a member of either does; what goes is
read at one polarity only, or stands beside a base type wherever it occurs. Bodies, and the
variables that have one, are left as they are. -/

namespace Biunify

def Layer.Touches {α : Type} (l : Layer α) (cls : Nat → Nat) (k : Nat) : Prop :=
  ∃ v ∈ l.vars.items, cls v.id = k

theorem Layer.Has.touches {α : Type} {l : Layer α} {x : Nat} (h : l.Has x) (cls : Nat → Nat) :
    l.Touches cls (cls x) := by
  obtain ⟨v, hv, rfl⟩ := h
  exact ⟨v, hv, rfl⟩

def joinClasses (cls : Nat → Nat) (v w x : Nat) : Nat := if cls x = cls w then cls v else cls x

theorem joinClasses_left (cls : Nat → Nat) (v w : Nat) : joinClasses cls v w v = cls v := by
  rw [joinClasses]
  split_ifs <;> rfl

theorem joinClasses_of_ne {cls : Nat → Nat} {v w x : Nat} (h : cls x ≠ cls w) :
    joinClasses cls v w x = cls x := if_neg h

theorem joinClasses_eq_iff {cls : Nat → Nat} {v w x : Nat} :
    joinClasses cls v w x = cls v ↔ cls x = cls v ∨ cls x = cls w := by
  rw [joinClasses]
  split_ifs with hx
  · simp [hx]
  · simp [hx]

theorem touches_of_joinClasses {α : Type} {l : Layer α} {cls : Nat → Nat} {v w : Nat}
    (h : l.Touches (joinClasses cls v w) (joinClasses cls v w v)) :
    l.Touches cls (cls v) ∨ l.Touches cls (cls w) := by
  obtain ⟨x, hx, heq⟩ := h
  rw [joinClasses_left, joinClasses_eq_iff] at heq
  exact heq.imp (fun h => ⟨x, hx, h⟩) fun h => ⟨x, hx, h⟩

namespace BundleGraph

inductive Merged (g : BundleGraph) : (Nat → Nat) → Prop
  | refl : g.Merged id
  | merge {cls : Nat → Nat} {v w : Nat} (p : Polarity) (h : g.Merged cls)
    (hv : ∀ b, g.Occurs p b → b.layer.Touches cls (cls v) → b.layer.Has w)
    (hw : ∀ b, g.Occurs p b → b.layer.Touches cls (cls w) → b.layer.Has v) :
    g.Merged (joinClasses cls v w)

/-- The variable says nothing that the rest of the graph does not say. -/
inductive Idle (g : BundleGraph) (x : Nat) : Prop
  | onePolarity (p : Polarity) (h : ∀ q b, g.Occurs q b → b.layer.Has x → q = p)
  | base (a : BaseTy) (h : ∀ p b, g.Occurs p b → b.layer.Has x → b.layer.bases.contains a = true)

def Whole (g : BundleGraph) (v : Var) : Prop :=
  ∀ p, ((Census.take g).beside.find? p v).isSome = true →
    ((Census.take g).beside.find? p.flip v).isSome = true

variable {g : BundleGraph} {p : Polarity} {b : Bundle}

theorem Tidy.counts (hg : g.Tidy) (hb : g.Occurs p b) {x : Nat} (hx : b.layer.Has x) {v : Var}
    (hv : v.id = x) : (Census.take g).Counts p b.layer v :=
  Census.take_counts hg.onePolarity hb (hv ▸ hx)

theorem Tidy.contains_bodies (hg : g.Tidy) (hb : g.Occurs p b) {v : Var}
    (hv : v ∈ b.layer.vars.items) :
    (Census.take g).bodies.contains v = g.cycles.contains v := by
  obtain ⟨-, henters, -⟩ := Census.take_covers hg.onePolarity hb
  refine Bool.eq_iff_iff.mpr ⟨fun h => ?_, henters v hv⟩
  obtain ⟨body, hbody⟩ := Option.isSome_iff_exists.mp h
  obtain ⟨d, hd, -⟩ := (Census.take_fits g).bodies hbody
  exact Option.isSome_iff_exists.mpr ⟨d, hd⟩

end BundleGraph

namespace Reduction

open BundleGraph

def Shown {α : Type} (live : Nat → Prop) (v : Nat) (l : Layer α) : Occurrence → Prop
  | .var w => live w.id → w.id ≠ v → l.Has w.id
  | .base a => l.bases.contains a = true

theorem Shown.of_contains {α : Type} {live : Nat → Prop} {v : Nat} {l : Layer α}
    {os : List Occurrence} (h : ∀ o ∈ os, Shown live v l o) {o : Occurrence}
    (ho : os.contains o = true) : Shown live v l o := by
  rw [List.contains_eq_any_beq, List.any_eq_true] at ho
  obtain ⟨o', ho', heq⟩ := ho
  have hshown := h o' ho'
  cases o with
  | var w =>
    cases o' with
    | var w' =>
      have hid : w.id = w'.id := by simpa using heq
      rw [Shown, hid]
      exact hshown
    | base a => cases heq
  | base a =>
    cases o' with
    | var w' => cases heq
    | base a' =>
      obtain rfl : a = a' := by simpa using heq
      exact hshown

theorem Shown.mono {α : Type} {live live' : Nat → Prop} {v : Nat} {l : Layer α} {o : Occurrence}
    (h : Shown live v l o) (hlive : ∀ x, live' x → live x) : Shown live' v l o := by
  cases o with
  | var w => exact fun hw => h (hlive _ hw)
  | base a => exact h

theorem shown_of_contains_ofLayer {α : Type} {live : Nat → Prop} {v : Nat} {l : Layer α}
    {o : Occurrence} (h : (Census.ofLayer l).contains o = true) : Shown live v l o := by
  cases o with
  | var w => exact fun _ _ => Census.contains_ofLayer_var.mp h
  | base a => exact Census.contains_ofLayer_base.mp h

/-- A state of the reduction, where the variables that are still `live` stand for their classes. -/
structure Consistent (g : BundleGraph) (live : Nat → Prop) (cls : Nat → Nat) (r : Reduction) :
    Prop where
  bodies : r.bodies = (Census.take g).bodies
  isSome_beside : ∀ p v,
    (r.beside.find? p v).isSome = ((Census.take g).beside.find? p v).isSome
  sub_beside : ∀ {p v os}, r.beside.find? p v = some os →
    ∃ os', (Census.take g).beside.find? p v = some os' ∧ ∀ o ∈ os, o ∈ os'
  free : ∀ {v}, r.subst.contains v = true → r.bodies.contains v = false
  replaced : ∀ {v w}, r.subst.find? v = some (some w) →
    cls v.id = cls w.id ∧ r.bodies.contains w = false
  occurs : ∀ {v w}, r.subst.find? v = some (some w) → ∃ p b, g.Occurs p b ∧ b.layer.Has w.id
  removed : ∀ {v}, r.subst.find? v = some none → g.Idle v.id
  unmerged : ∀ {v}, r.subst.find? v = none → live v.id
  whole : ∀ {v}, r.subst.find? v = none → r.bodies.contains v = false → g.Whole v
  separate : ∀ {x y}, live x → live y → cls x = cls y → x = y
  shown : ∀ {p v os b}, r.beside.find? p v = some os → live v.id → g.Occurs p b →
    b.layer.Touches cls (cls v.id) → ∀ o ∈ os, Shown live v.id b.layer o
  merged : g.Merged cls

variable {g : BundleGraph} {live : Nat → Prop} {cls : Nat → Nat} {r : Reduction}

theorem mergeable_iff {v w : Var} {p : Polarity} : r.mergeable v w p = true ↔
    w.id ≠ v.id ∧ r.subst.find? w = none ∧ r.bodies.contains v = r.bodies.contains w ∧
      ∀ os, r.beside.find? p w = some os → os.contains (.var v) = true := by
  rw [mergeable]
  cases r.beside.find? p w <;> simp [VarMap.contains, and_assoc]

theorem mergeInto_eq {v w : Var} {p : Polarity} (hfree : r.bodies.contains v = false)
    (hm : r.mergeable v w p = true) : r.mergeInto v w p = ⟨r.bodies,
      shareBeside v w p.flip r.beside, r.subst.insert w (some v), .unified w v :: r.events⟩ := by
  obtain ⟨-, -, hbodies, -⟩ := mergeable_iff.mp hm
  have hfree' : r.bodies.contains w = false := hbodies.symm.trans hfree
  have hnone : r.bodies.find? w = none := by simpa [VarMap.contains] using hfree'
  have hkeep : joinBodies v w p r.bodies = r.bodies := by
    rw [joinBodies, hnone]
    exact VarMap.erase_eq hnone
  rw [mergeInto, if_pos hm, hkeep, hfree']
  rfl

theorem find?_shareBeside {v w : Var} {p : Polarity} {beside : PolarMap (List Occurrence)}
    {vs ws : List Occurrence} (hv : beside.find? p v = some vs) (hw : beside.find? p w = some ws)
    (q : Polarity) (u : Var) : (shareBeside v w p beside).find? q u =
      if u.id = v.id ∧ q = p then some (vs.filter fun o => o == .var v || ws.contains o)
      else beside.find? q u := by
  rw [shareBeside, hv, hw]
  exact PolarMap.find?_insert ..

theorem Consistent.isSome_of_beside (hg : g.Tidy) (h : r.Consistent g live cls) {p : Polarity}
    {v w : Var} {os : List Occurrence} (hos : r.beside.find? p v = some os) (hw : .var w ∈ os) :
    ((Census.take g).beside.find? p w).isSome = true := by
  obtain ⟨os', hos', hsub⟩ := h.sub_beside hos
  obtain ⟨b, hb, -, hl⟩ := (Census.take_fits g).occurs hos'
  have hhas := Census.contains_ofLayer_var.mp (hl _ (hsub _ hw))
  obtain ⟨ws, hws, -⟩ := hg.counts hb hhas rfl
  exact Option.isSome_iff_exists.mpr ⟨ws, hws⟩

structure Pair (g : BundleGraph) (live : Nat → Prop) (cls : Nat → Nat) (r : Reduction)
    (v w : Var) (p : Polarity) : Prop where
  ne : w.id ≠ v.id
  kept : live v.id
  merged : live w.id
  has_merged : ∀ b, g.Occurs p b → b.layer.Touches cls (cls v.id) → b.layer.Has w.id
  has_kept : ∀ b, g.Occurs p b → b.layer.Touches cls (cls w.id) → b.layer.Has v.id
  beside_kept : ∃ vs, r.beside.find? p.flip v = some vs
  beside_merged : ∃ ws, r.beside.find? p.flip w = some ws

theorem Consistent.pair (hg : g.Tidy) (h : r.Consistent g live cls) {v w : Var} {p : Polarity}
    {os : List Occurrence} (hos : r.beside.find? p v = some os) (hw : .var w ∈ os)
    (hv : live v.id) (hwhole : g.Whole v) (hfree : r.bodies.contains v = false)
    (hm : r.mergeable v w p = true) : r.Pair g live cls v w p := by
  obtain ⟨hne, hsubst, hbodies, hmutual⟩ := mergeable_iff.mp hm
  have hlive := h.unmerged hsubst
  have hwsome := h.isSome_of_beside hg hos hw
  have hwflip := h.whole hsubst (hbodies.symm.trans hfree) p hwsome
  rw [← h.isSome_beside] at hwsome hwflip
  obtain ⟨ws, hws⟩ := Option.isSome_iff_exists.mp hwsome
  have hvflip := hwhole p (by rw [← h.isSome_beside, hos]; rfl)
  rw [← h.isSome_beside] at hvflip
  refine ⟨hne, hv, hlive, fun b hb ht => ?_, fun b hb ht => ?_,
    Option.isSome_iff_exists.mp hvflip, Option.isSome_iff_exists.mp hwflip⟩
  · exact h.shown hos hv hb ht (.var w) hw hlive hne
  · exact Shown.of_contains (h.shown hws hlive hb ht) (hmutual ws hws) hv hne.symm

section Merge

variable {v w : Var} {p : Polarity} (h : r.Consistent g live cls) (hp : r.Pair g live cls v w p)

include h hp

theorem Consistent.separate_merge {x y : Nat} (hx : live x ∧ x ≠ w.id) (hy : live y ∧ y ≠ w.id)
    (heq : joinClasses cls v.id w.id x = joinClasses cls v.id w.id y) : x = y := by
  rw [joinClasses_of_ne fun hc => hx.2 (h.separate hx.1 hp.merged hc),
    joinClasses_of_ne fun hc => hy.2 (h.separate hy.1 hp.merged hc)] at heq
  exact h.separate hx.1 hy.1 heq

theorem Consistent.touches_other {u : Nat} (hu : live u ∧ u ≠ w.id) (hne : u ≠ v.id) {b : Bundle}
    (ht : b.layer.Touches (joinClasses cls v.id w.id) (joinClasses cls v.id w.id u)) :
    b.layer.Touches cls (cls u) := by
  obtain ⟨x, hx, heq⟩ := ht
  rw [joinClasses_of_ne fun hc => hu.2 (h.separate hu.1 hp.merged hc), joinClasses] at heq
  split_ifs at heq with hxw
  · exact absurd (h.separate hu.1 hp.kept heq.symm) hne
  · exact ⟨x, hx, heq⟩

theorem Consistent.shown_merge {q : Polarity} {u : Var} {os : List Occurrence} {b : Bundle}
    (hos : (shareBeside v w p.flip r.beside).find? q u = some os) (hu : live u.id ∧ u.id ≠ w.id)
    (hb : g.Occurs q b)
    (ht : b.layer.Touches (joinClasses cls v.id w.id) (joinClasses cls v.id w.id u.id)) :
    ∀ o ∈ os, Shown (fun x => live x ∧ x ≠ w.id) u.id b.layer o := by
  obtain ⟨vs, hvs⟩ := hp.beside_kept
  obtain ⟨ws, hws⟩ := hp.beside_merged
  rw [find?_shareBeside hvs hws] at hos
  intro o ho
  by_cases hid : u.id = v.id
  · rw [hid] at ht ⊢
    split_ifs at hos with hq
    · -- At the other polarity only what stands beside both is left.
      obtain ⟨-, rfl⟩ := hq
      cases hos
      obtain ⟨hovs, ho⟩ := List.mem_filter.mp ho
      rcases touches_of_joinClasses ht with ht | ht
      · exact (h.shown hvs hp.kept hb ht o hovs).mono fun _ => And.left
      · cases o with
        | var x =>
          rintro ⟨hx, hxw⟩ hxv
          have hmem : ws.contains (.var x) = true := by simpa [hxv] using ho
          exact Shown.of_contains (h.shown hws hp.merged hb ht) hmem hx hxw
        | base a =>
          have hmem : ws.contains (.base a) = true := by
            rcases Bool.or_eq_true_iff.mp ho with ho | ho
            · cases ho
            · exact ho
          exact Shown.of_contains (h.shown hws hp.merged hb ht) hmem
    · have hqp : q = p := by
        cases p <;> cases q <;> simp_all [Polarity.flip]
      subst hqp
      have htv : b.layer.Touches cls (cls v.id) := by
        rcases touches_of_joinClasses ht with ht | ht
        · exact ht
        · exact (hp.has_kept b hb ht).touches cls
      rw [r.beside.find?_congr q hid] at hos
      exact (h.shown hos hp.kept hb htv o ho).mono fun _ => And.left
  · rw [if_neg fun hq => hid hq.1] at hos
    exact (h.shown hos hu.1 hb (h.touches_other hp hu hid ht) o ho).mono fun _ => And.left

end Merge

theorem Consistent.mergeInto (h : r.Consistent g live cls) {v w : Var} {p : Polarity}
    (hp : r.Pair g live cls v w p) (hfree : r.bodies.contains v = false)
    (hm : r.mergeable v w p = true) : (r.mergeInto v w p).Consistent g
      (fun x => live x ∧ x ≠ w.id) (joinClasses cls v.id w.id) := by
  obtain ⟨-, hsubst, hbodies, -⟩ := mergeable_iff.mp hm
  have hfree' : r.bodies.contains w = false := hbodies.symm.trans hfree
  obtain ⟨vs, hvs⟩ := hp.beside_kept
  obtain ⟨ws, hws⟩ := hp.beside_merged
  have hbeside := find?_shareBeside hvs hws
  rw [mergeInto_eq hfree hm]
  constructor
  case bodies => exact h.bodies
  case isSome_beside =>
    intro q u
    rw [hbeside, ← h.isSome_beside]
    split_ifs with hu
    · rw [hu.2, r.beside.find?_congr _ hu.1, hvs]
      rfl
    · rfl
  case sub_beside =>
    intro q u os hos
    rw [hbeside] at hos
    split_ifs at hos with hu
    · obtain ⟨os', hos', hsub⟩ := h.sub_beside hvs
      cases hos
      rw [hu.2, PolarMap.find?_congr _ _ hu.1]
      exact ⟨os', hos', fun o ho => hsub o (List.mem_filter.mp ho).1⟩
    · exact h.sub_beside hos
  case free =>
    intro u hu
    rw [VarMap.contains_insert, Bool.or_eq_true, beq_iff_eq] at hu
    rcases hu with hid | hu
    · exact (r.bodies.contains_congr hid).trans hfree'
    · exact h.free hu
  case replaced =>
    intro u x hu
    rw [VarMap.find?_insert] at hu
    split_ifs at hu with hid
    · cases hu
      rw [hid, joinClasses_left, joinClasses, if_pos rfl]
      exact ⟨rfl, hfree⟩
    · obtain ⟨hcls, hx⟩ := h.replaced hu
      rw [joinClasses, joinClasses, hcls]
      exact ⟨rfl, hx⟩
  case occurs =>
    intro u x hu
    rw [VarMap.find?_insert] at hu
    split_ifs at hu
    · cases hu
      obtain ⟨os, hos, -⟩ := h.sub_beside hvs
      obtain ⟨b, hb, hhas, -⟩ := (Census.take_fits g).occurs hos
      exact ⟨p.flip, b, hb, hhas⟩
    · exact h.occurs hu
  case removed =>
    intro u hu
    rw [VarMap.find?_insert] at hu
    split_ifs at hu
    · cases hu
    · exact h.removed hu
  case unmerged =>
    intro u hu
    rw [VarMap.find?_insert] at hu
    split_ifs at hu with hid
    exact ⟨h.unmerged hu, hid⟩
  case whole =>
    intro u hu
    rw [VarMap.find?_insert] at hu
    split_ifs at hu with hid
    exact h.whole hu
  case separate => exact h.separate_merge hp
  case shown => exact h.shown_merge hp
  case merged => exact .merge p h.merged hp.has_merged hp.has_kept

theorem Consistent.remove (h : r.Consistent g live cls) {v : Var} (e : Event)
    (hfree : r.bodies.contains v = false) (hidle : g.Idle v.id) :
    (r.remove v e).Consistent g live cls := by
  have hfind : ∀ u, (r.remove v e).subst.find? u =
      if u.id = v.id then some none else r.subst.find? u := fun u => r.subst.find?_insert v u none
  refine { h with
    free := ?_, replaced := ?_, occurs := ?_, removed := ?_, unmerged := ?_, whole := ?_ }
  · intro u hu
    rw [VarMap.contains, hfind] at hu
    split_ifs at hu with hid
    · exact (r.bodies.contains_congr hid).trans hfree
    · exact h.free hu
  · intro u w hu
    rw [hfind] at hu
    split_ifs at hu
    · cases hu
    · exact h.replaced hu
  · intro u w hu
    rw [hfind] at hu
    split_ifs at hu
    · cases hu
    · exact h.occurs hu
  · intro u hu
    rw [hfind] at hu
    split_ifs at hu with hid
    · rwa [hid]
    · exact h.removed hu
  · intro u hu
    rw [hfind] at hu
    split_ifs at hu
    exact h.unmerged hu
  · intro u hu
    rw [hfind] at hu
    split_ifs at hu
    exact h.whole hu

structure Turn (g : BundleGraph) (v : Var) (p : Polarity) (os : List Occurrence) (r : Reduction) :
    Prop where
  consistent : ∃ live cls, r.Consistent g live cls ∧ live v.id
  beside : r.beside.find? p v = some os

theorem Consistent.idle_of_base (h : r.Consistent g live cls) {v : Var} (hv : live v.id)
    {p : Polarity} {a : BaseTy} {os os' : List Occurrence} (hos : r.beside.find? p v = some os)
    (ha : .base a ∈ os) (hos' : r.beside.find? p.flip v = some os')
    (ha' : os'.contains (.base a) = true) : g.Idle v.id := by
  refine .base a fun q b hb hhas => ?_
  have ht := hhas.touches cls
  by_cases hq : q = p
  · subst hq
    exact h.shown hos hv hb ht _ ha
  · obtain rfl : q = p.flip := by cases p <;> cases q <;> simp_all [Polarity.flip]
    exact Shown.of_contains (h.shown hos' hv hb ht) ha'

theorem Turn.weigh (hg : g.Tidy) {v : Var} {p : Polarity} {os : List Occurrence}
    (hwhole : g.Whole v) (hfree : (Census.take g).bodies.contains v = false)
    (ht : r.Turn g v p os) {o : Occurrence} (ho : o ∈ os) : (r.weigh v p o).Turn g v p os := by
  obtain ⟨⟨live, cls, h, hv⟩, hos⟩ := ht
  have hfree' : r.bodies.contains v = false := by rw [h.bodies, hfree]
  cases o with
  | var w =>
    by_cases hm : r.mergeable v w p = true
    · have hp := h.pair hg hos ho hv hwhole hfree' hm
      have h' := h.mergeInto hp hfree' hm
      refine ⟨⟨_, _, h', hv, hp.ne.symm⟩, ?_⟩
      obtain ⟨vs, hvs⟩ := hp.beside_kept
      obtain ⟨ws, hws⟩ := hp.beside_merged
      have hne : p ≠ p.flip := p.flip_ne.symm
      rw [Reduction.weigh, mergeInto_eq hfree' hm]
      show (shareBeside v w p.flip r.beside).find? p v = some os
      rw [find?_shareBeside hvs hws, if_neg fun hq => hne hq.2, hos]
    · rw [Reduction.weigh, Reduction.mergeInto, if_neg hm]
      exact ⟨⟨live, cls, h, hv⟩, hos⟩
  | base a =>
    rw [Reduction.weigh]
    cases hos' : r.beside.find? p.flip v with
    | none => exact ⟨⟨live, cls, h, hv⟩, hos⟩
    | some os' =>
      show (if os'.contains (.base a) then r.remove v (.equivalent v a) else r).Turn g v p os
      split_ifs with ha
      · have hidle := h.idle_of_base hv hos ho hos' ha
        exact ⟨⟨live, cls, h.remove _ hfree' hidle, hv⟩, hos⟩
      · exact ⟨⟨live, cls, h, hv⟩, hos⟩

theorem weighSide_consistent (hg : g.Tidy) {v : Var} (hwhole : g.Whole v)
    (hfree : (Census.take g).bodies.contains v = false) (p : Polarity)
    (h : ∃ live cls, r.Consistent g live cls ∧ live v.id) :
    ∃ live cls, (r.weighSide v p).Consistent g live cls ∧ live v.id := by
  rw [weighSide]
  cases hos : r.beside.find? p v with
  | none => exact h
  | some os =>
    have hturn : r.Turn g v p os := ⟨h, hos⟩
    exact (List.foldlRecOn (motive := Turn g v p os) os (weigh v p) hturn
      fun r' ht o ho => ht.weigh hg hwhole hfree ho).consistent

theorem Consistent.weighSide_of_body (hg : g.Tidy) (h : r.Consistent g live cls) {v : Var}
    (hv : (Census.take g).bodies.contains v = true) (p : Polarity) : r.weighSide v p = r := by
  rw [weighSide]
  cases hos : r.beside.find? p v with
  | none => rfl
  | some os =>
    obtain ⟨os', hos', hsub⟩ := h.sub_beside hos
    obtain ⟨b, hb, ⟨u, hu, hid⟩, hl⟩ := (Census.take_fits g).occurs hos'
    have hcycle : g.cycles.contains u = true := by
      rw [← hg.contains_bodies hb hu, VarMap.contains_congr _ hid, hv]
    obtain rfl := hg.alone hb hu hcycle
    have hself : ∀ o ∈ os, r.weigh v p o = r := by
      intro o ho
      have hshown := hl o (hsub o ho)
      cases o with
      | var w =>
        obtain ⟨x, hx, hxw⟩ := Census.contains_ofLayer_var.mp hshown
        obtain rfl : x = u := List.mem_singleton.mp hx
        have hne : r.mergeable v w p = false := by
          rw [← Bool.not_eq_true, mergeable_iff]
          exact fun hm => hm.1 (hxw.symm.trans hid)
        rw [Reduction.weigh, Reduction.mergeInto, hne]
        rfl
      | base a =>
        have hbase := Census.contains_ofLayer_base.mp hshown
        rw [Bundle.ofVar, Bundle.layer, BaseSet.contains_empty] at hbase
        cases hbase
    exact List.foldlRecOn (motive := fun r' => r' = r) os (Reduction.weigh v p) rfl
      fun r' hr o ho => hr ▸ hself o ho

theorem unify_consistent (hg : g.Tidy) (v : Var) (h : ∃ live cls, r.Consistent g live cls) :
    ∃ live cls, (r.unify v).Consistent g live cls := by
  obtain ⟨live, cls, h⟩ := h
  rw [unify]
  split_ifs with hsubst
  · exact ⟨live, cls, h⟩
  have hnone : r.subst.find? v = none := by simpa [VarMap.contains] using hsubst
  cases hv : (Census.take g).bodies.contains v with
  | true =>
    refine ⟨live, cls, ?_⟩
    rw [List.foldl_cons, List.foldl_cons, h.weighSide_of_body hg hv, h.weighSide_of_body hg hv]
    exact h
  | false =>
    have hwhole := h.whole hnone (h.bodies ▸ hv)
    obtain ⟨live', cls', h', -⟩ := weighSide_consistent hg hwhole hv .negative
      (weighSide_consistent hg hwhole hv .positive ⟨live, cls, h, h.unmerged hnone⟩)
    exact ⟨live', cls', h'⟩

def OneSided (r : Reduction) (v : Var) : Prop :=
  r.bodies.contains v = false ∧
    ∃ p, (r.beside.find? p v).isSome = true ∧ (r.beside.find? p.flip v).isSome = false

theorem OneSided.congr {v w : Var} (h : r.OneSided v) (hid : w.id = v.id) : r.OneSided w := by
  obtain ⟨hfree, p, hp, hflip⟩ := h
  refine ⟨(r.bodies.contains_congr hid).trans hfree, p, ?_, ?_⟩
  · rwa [r.beside.find?_congr p hid]
  · rwa [r.beside.find?_congr p.flip hid]

theorem dropPolar_cases (r : Reduction) (v : Var) :
    (r.OneSided v ∧ ∃ e, r.dropPolar v = r.remove v e) ∨ (¬r.OneSided v ∧ r.dropPolar v = r) := by
  rw [dropPolar]
  split_ifs with hbody
  · exact .inr ⟨fun h => by simp [h.1] at hbody, rfl⟩
  have hfree : r.bodies.contains v = false := by simpa using hbody
  have hside : ∀ p, r.beside.contains p v = (r.beside.find? p v).isSome := fun _ => rfl
  cases hp : r.beside.contains .positive v <;> cases hn : r.beside.contains .negative v
  case false.true => exact .inl ⟨⟨hfree, .negative, hn, hp⟩, _, rfl⟩
  case true.false => exact .inl ⟨⟨hfree, .positive, hp, hn⟩, _, rfl⟩
  all_goals
    refine .inr ⟨fun ⟨_, p, h, h'⟩ => ?_, rfl⟩
    rw [← hside] at h h'
    cases p <;> simp_all [Polarity.flip]

theorem foldl_dropPolar (vs : List Var) (r : Reduction) :
    (vs.foldl dropPolar r).bodies = r.bodies ∧ (vs.foldl dropPolar r).beside = r.beside ∧
      ∀ v, (r.OneSided v → (∃ u ∈ vs, u.id = v.id) →
          (vs.foldl dropPolar r).subst.find? v = some none) ∧
        ((vs.foldl dropPolar r).subst.find? v = r.subst.find? v ∨
          r.OneSided v ∧ (vs.foldl dropPolar r).subst.find? v = some none) := by
  induction vs generalizing r with
  | nil => exact ⟨rfl, rfl, fun v => ⟨fun _ ⟨_, hu, _⟩ => (nomatch hu), .inl rfl⟩⟩
  | cons u us ih =>
    rw [List.foldl_cons]
    rcases dropPolar_cases r u with ⟨hone, e, heq⟩ | ⟨hone, heq⟩
    · rw [heq]
      obtain ⟨hbodies, hbeside, hsubst⟩ := ih (r.remove u e)
      have hfind : ∀ v, (r.remove u e).subst.find? v =
          if v.id = u.id then some none else r.subst.find? v :=
        fun v => r.subst.find?_insert u v none
      refine ⟨hbodies, hbeside, fun v => ⟨fun hv hmem => ?_, ?_⟩⟩
      · obtain ⟨hgone, hrest⟩ := hsubst v
        obtain ⟨w, hw, hid⟩ := hmem
        rcases List.mem_cons.mp hw with rfl | hw
        · rcases hrest with hrest | hrest
          · rw [hrest, hfind, if_pos hid.symm]
          · exact hrest.2
        · exact hgone hv ⟨w, hw, hid⟩
      · rcases (hsubst v).2 with hrest | hrest
        · rw [hrest, hfind]
          split_ifs with hid
          · exact .inr ⟨hone.congr hid, rfl⟩
          · exact .inl rfl
        · exact .inr hrest
    · rw [heq]
      obtain ⟨hbodies, hbeside, hsubst⟩ := ih r
      refine ⟨hbodies, hbeside, fun v => ⟨fun hv hmem => ?_, (hsubst v).2⟩⟩
      obtain ⟨w, hw, hid⟩ := hmem
      rcases List.mem_cons.mp hw with rfl | hw
      · exact absurd (hv.congr hid) hone
      · exact (hsubst v).1 hv ⟨w, hw, hid⟩

theorem dropped_consistent (hg : g.Tidy) :
    ((Census.take g).vars.items.reverse.foldl dropPolar (ofCensus (Census.take g))).Consistent g
      (fun _ => True) id := by
  obtain ⟨hbodies, hbeside, hsubst⟩ :=
    foldl_dropPolar (Census.take g).vars.items.reverse (ofCensus (Census.take g))
  have hgone : ∀ v a, ((Census.take g).vars.items.reverse.foldl dropPolar
      (ofCensus (Census.take g))).subst.find? v = some a →
      (ofCensus (Census.take g)).OneSided v ∧ a = none := by
    intro v a hv
    rcases (hsubst v).2 with hrest | ⟨hone, hrest⟩
    · rw [hrest] at hv
      cases hv
    · rw [hrest] at hv
      cases hv
      exact ⟨hone, rfl⟩
  constructor
  case bodies => exact hbodies
  case isSome_beside => exact fun p v => by rw [hbeside, ofCensus]
  case sub_beside =>
    intro p v os hos
    rw [hbeside] at hos
    exact ⟨os, hos, fun _ => id⟩
  case free =>
    intro v hv
    obtain ⟨a, ha⟩ := Option.isSome_iff_exists.mp hv
    rw [hbodies]
    exact (hgone v a ha).1.1
  case replaced =>
    intro v w hv
    cases (hgone v _ hv).2
  case occurs =>
    intro v w hv
    cases (hgone v _ hv).2
  case removed =>
    intro v hv
    obtain ⟨-, p, -, hflip⟩ := (hgone v _ hv).1
    refine .onePolarity p fun q b hb hhas => ?_
    obtain ⟨os, hos, -⟩ := hg.counts hb hhas rfl
    by_contra hq
    obtain rfl : q = p.flip := by cases p <;> cases q <;> simp_all [Polarity.flip]
    rw [ofCensus, hos] at hflip
    cases hflip
  case unmerged => exact fun _ => trivial
  case whole =>
    intro v hv hfree p hp
    by_contra hflip
    obtain ⟨os, hos⟩ := Option.isSome_iff_exists.mp hp
    obtain ⟨u, hu, hid⟩ := VarSet.contains_iff.mp ((Census.take_fits g).listed hos)
    have hone : (ofCensus (Census.take g)).OneSided v :=
      ⟨hbodies ▸ hfree, p, hp, Bool.eq_false_iff.mpr hflip⟩
    rw [(hsubst v).1 hone ⟨u, List.mem_reverse.mpr hu, hid⟩] at hv
    cases hv
  case separate => exact fun _ _ heq => heq
  case shown =>
    intro p v os b hos _ hb ht o ho
    rw [hbeside] at hos
    obtain ⟨u, hu, hid⟩ := ht
    obtain ⟨os', hos', hl⟩ := hg.counts hb ⟨u, hu, hid⟩ (v := v) rfl
    rw [ofCensus, hos'] at hos
    cases hos
    exact shown_of_contains_ofLayer (hl o ho)
  case merged => exact .refl

theorem ofGraph_consistent (hg : g.Tidy) : ∃ live cls, (ofGraph g).Consistent g live cls := by
  have hstart := dropped_consistent hg
  exact List.foldlRecOn (motive := fun r : Reduction => ∃ live cls, r.Consistent g live cls) _ unify
    ⟨_, _, hstart⟩ fun r h v _ => unify_consistent hg v h

theorem onBundle_node (r : Reduction) (l : Layer Bundle) : r.onBundle (.node l) =
    .node { l.map r.onBundle with vars := .ofList (l.vars.items.filterMap r.onVar) } := by
  rw [onBundle, Bundle.fold_node, Layer.map_map]
  rfl

theorem Consistent.find?_cycles (hg : g.Tidy) (h : r.Consistent g live cls) {p : Polarity}
    {b : Bundle} (hb : g.Occurs p b) {v : Var} (hv : v ∈ b.layer.vars.items) :
    (r.onGraph g).cycles.find? v = (g.cycles.find? v).map r.onBundle := by
  have hmet := hg.contains_bodies hb hv
  rw [onGraph, VarMap.find?_map, h.bodies]
  cases hbody : (Census.take g).bodies.find? v with
  | some body =>
    obtain ⟨d, hd, rfl⟩ := (Census.take_fits g).bodies hbody
    rw [hd]
    rfl
  | none =>
    rw [VarMap.contains, VarMap.contains, hbody] at hmet
    rw [Option.isSome_eq_false_iff.mp hmet.symm |> Option.isNone_iff_eq_none.mp]
    rfl

theorem Consistent.onVar_of_body (h : r.Consistent g live cls) {v : Var}
    (hv : r.bodies.contains v = true) : r.onVar v = some v := by
  have hnone : r.subst.find? v = none := by
    by_contra hsome
    rw [h.free (Option.isSome_iff_ne_none.mpr hsome)] at hv
    cases hv
  rw [onVar, hnone]
  rfl

theorem Consistent.onVar_of_free (h : r.Consistent g live cls) {v x : Var}
    (hfree : r.bodies.contains v = false) (hx : r.onVar v = some x) :
    cls v.id = cls x.id ∧ r.bodies.contains x = false := by
  rw [onVar] at hx
  cases hv : r.subst.find? v with
  | none =>
    rw [hv] at hx
    cases hx
    exact ⟨rfl, hfree⟩
  | some a =>
    rw [hv] at hx
    obtain rfl : a = some x := hx
    exact h.replaced hv

theorem Consistent.idle_of_onVar (h : r.Consistent g live cls) {v : Var} (hv : r.onVar v = none) :
    g.Idle v.id := by
  rw [onVar] at hv
  cases hs : r.subst.find? v with
  | none =>
    rw [hs] at hv
    cases hv
  | some a =>
    rw [hs] at hv
    obtain rfl : a = none := hv
    exact h.removed hs

theorem onVar_congr (r : Reduction) {v w : Var} (hid : v.id = w.id) :
    (r.onVar v).map Var.id = (r.onVar w).map Var.id := by
  rw [onVar, onVar, r.subst.find?_congr hid]
  cases r.subst.find? w with
  | none => exact congrArg some hid
  | some a => rfl

end Reduction
end Biunify
