import Biunify.Proofs.BundleGraph.Growth

/-! What growing a bundle does to a session, wherever it stops. Two things change on the way: a
mark without a variable gets the next one, and the variable of a mark gets a body. An invariant
that both keep holds of whatever is left. -/

namespace Biunify
namespace BundleGraph

def Maintains {α : Type} (inv : Growth → Session → Prop) (x : GrowM α) : Prop :=
  ∀ g s r s', inv g s → s.perform (x.run g) = (r, s') →
    ∃ g', inv g' s' ∧ ∀ a g'', r = .ok (a, g'') → g'' = g'

variable {α β : Type} {inv : Growth → Session → Prop}

namespace Maintains

theorem of_ok {x : GrowM α}
    (h : ∀ g s, inv g s → ∃ a g' s', s.perform (x.run g) = (.ok (a, g'), s') ∧ inv g' s') :
    Maintains inv x := by
  intro g s r s' hs hrun
  obtain ⟨a, g₁, s₁, hx, hs₁⟩ := h g s hs
  obtain ⟨rfl, rfl⟩ := Prod.mk.inj (hx.symm.trans hrun)
  refine ⟨g₁, hs₁, fun b g₂ hok => ?_⟩
  injection hok with hpair
  exact (Prod.mk.inj hpair).2.symm

theorem pure (a : α) : Maintains inv (Pure.pure a) :=
  of_ok fun g s hs => ⟨a, g, s, rfl, hs⟩

theorem outOfFuel : Maintains inv (throw .outOfFuel : GrowM α) := by
  intro g s r s' hs hrun
  obtain ⟨rfl, rfl⟩ := Prod.mk.inj ((Session.perform_throw s .outOfFuel).symm.trans hrun)
  refine ⟨g, hs, fun a g' hok => ?_⟩
  cases hok

theorem table : Maintains inv (liftM SessionM.table) :=
  of_ok fun g s hs => ⟨s.table, g, s, rfl, hs⟩

theorem bind {x : GrowM α} {f : α → GrowM β} (hx : Maintains inv x)
    (hf : ∀ a, Maintains inv (f a)) : Maintains inv (x >>= f) := by
  intro g s r s' hs hrun
  rw [StateT.run_bind, Session.perform_bind] at hrun
  rcases hfirst : s.perform (x.run g) with ⟨first, s₁⟩
  obtain ⟨g₁, hs₁, hg₁⟩ := hx g s first s₁ hs hfirst
  rw [hfirst] at hrun
  cases first with
  | error e =>
    cases hrun
    refine ⟨g₁, hs₁, fun b g₂ hok => ?_⟩
    cases hok
  | ok out =>
    obtain rfl := hg₁ out.1 out.2 rfl
    exact hf out.1 out.2 s₁ r s' hs₁ hrun

theorem mapM {f : α → GrowM β} (h : ∀ a, Maintains inv (f a)) (as : List α) :
    Maintains inv (as.mapM f) := by
  induction as with
  | nil => exact pure []
  | cons a as ih =>
    rw [List.mapM_cons]
    exact (h a).bind fun b => ih.bind fun bs => pure (b :: bs)

theorem optionMapM {f : α → GrowM β} (h : ∀ a, Maintains inv (f a)) (o : Option α) :
    Maintains inv (o.mapM f) := by
  cases o with
  | none => exact pure none
  | some a =>
    rw [Option.mapM_some, map_eq_pure_bind]
    exact (h a).bind fun b => pure (some b)

end Maintains

theorem growLayer_maintains {below : Polarity → Bundle → GrowM Bundle}
    (h : ∀ p b, Maintains inv (below p b)) (p : Polarity) (l : Layer Bundle) :
    Maintains inv (growLayer below p l) := by
  have htuple : ∀ elems : List Bundle, Maintains inv (elems.mapM (below p)) := Maintains.mapM (h p)
  have hrecord : ∀ fields : List (String × Bundle),
      Maintains inv (fields.mapM fun f => return (f.1, ← below p f.2)) :=
    Maintains.mapM fun f => (h p f.2).bind fun b => .pure (f.1, b)
  have hfunc : ∀ f : Bundle × Bundle,
      Maintains inv (do return (← below p.flip f.1, ← below p f.2)) :=
    fun f => (h p.flip f.1).bind fun param => (h p f.2).bind fun result => .pure (param, result)
  unfold growLayer
  exact (Maintains.optionMapM htuple l.tuple).bind fun tuple =>
    (Maintains.optionMapM hrecord l.record).bind fun record =>
      (Maintains.optionMapM hfunc l.func).bind fun func => .pure _

section Steps

variable (hname : ∀ g s mark log, inv g s → g.nameOf? mark = none →
    inv (g.withName mark (s.table.nextVar 0)) { s with table := s.table.addVar 0, log := log })
  (hbody : ∀ g s mark v body, inv g s → g.nameOf? mark = some v →
    inv { g with cycles := g.cycles.insert v body } s)

include hname in
theorem cycleVar_maintains (mark : Mark) : Maintains inv (cycleVar mark) := by
  apply Maintains.of_ok
  intro g s hs
  rw [cycleVar, Session.perform_copy_bind_of_ok (Session.perform_copy_get s g)]
  cases hmark : g.nameOf? mark with
  | some v => exact ⟨v, g, s, rfl, hs⟩
  | none => exact ⟨s.table.nextVar 0, _, _, rfl, hname g s mark _ hs hmark⟩

include hbody in
theorem settle_maintains (mark : Mark) (grown : Bundle) : Maintains inv (settle mark grown) := by
  apply Maintains.of_ok
  intro g s hs
  rw [settle, Session.perform_copy_bind_of_ok (Session.perform_copy_get s g)]
  cases hmark : g.nameOf? mark with
  | some v => exact ⟨.ofVar v, _, s, rfl, hbody g s mark v grown hs hmark⟩
  | none => exact ⟨grown, g, s, rfl, hs⟩

include hname hbody in
theorem grow_maintains (fuel : Nat) (path : List Mark) (p : Polarity) (b : Bundle) :
    Maintains inv (grow fuel path p b) := by
  induction fuel generalizing path p b with
  | zero => exact .outOfFuel
  | succ fuel ih =>
    by_cases hempty : b.isEmpty = true
    · rw [grow_of_isEmpty hempty]
      exact .pure b
    rw [Bool.not_eq_true] at hempty
    by_cases hmem : (b.key, p) ∈ path
    · rw [grow_of_mem hempty hmem]
      exact (cycleVar_maintains hname _).bind fun v => .pure (Bundle.ofVar v)
    · rw [grow_of_notMem hempty hmem]
      refine Maintains.table.bind fun t => ?_
      refine (growLayer_maintains (fun q c => ih _ q c) p _).bind fun l => ?_
      exact settle_maintains hbody _ _

end Steps

theorem grow_addsVars (t : BoundTable) (fuel : Nat) (path : List Mark) (p : Polarity) (b : Bundle) :
    Maintains (fun _ s => t.AddsVars s.table) (grow fuel path p b) :=
  grow_maintains (fun _ s _ _ h _ => h.trans (.addVar s.table 0)) (fun _ _ _ _ _ h _ => h)
    fuel path p b

end BundleGraph
end Biunify
