import Biunify.Proofs.Reach.Termination
import Mathlib.Logic.Relation
import Mathlib.Tactic.Tauto

/-! The two searches through a table find exactly what can be reached. Both list nodes, and
remember by a variable where they have been: the search for linked variables has variables for
nodes, the search for reachable variables has types, of which it remembers only those that are
variables. In what order a search goes through its list does not matter for what it finds. -/

namespace Biunify

/-- The set has exactly the variables asked for. Variables of one id count as one. -/
structure VarSet.Exactly (s : VarSet) (P : Var → Prop) : Prop where
  sound : ∀ v ∈ s.items, P v
  complete : ∀ v, P v → s.contains v = true

/-- Where a search goes on to from a node, and the variable by which it remembers the node. A node
without one is gone through each time it is met. -/
structure SearchGraph (α : Type) where
  mark? : α → Option Var
  next : α → List α
  next_congr : ∀ {a b : α} {v w : Var}, mark? a = some v → mark? b = some w → v.id = w.id →
    next a = next b

namespace SearchGraph

variable {α : Type} {g : SearchGraph α} {start a : α} {pending pending' rest : List α}
  {seen seen' : VarSet} {v : Var}

abbrev Leads (g : SearchGraph α) : α → α → Prop := Relation.ReflTransGen fun a b => b ∈ g.next a

inductive Covered (g : SearchGraph α) (pending : List α) (seen : VarSet) : α → Prop
  | pending {a : α} (h : a ∈ pending) : Covered g pending seen a
  | seen {a : α} {v : Var} (hmark : g.mark? a = some v) (h : seen.contains v = true) :
    Covered g pending seen a
  | through {a : α} (hmark : g.mark? a = none) (h : ∀ b ∈ g.next a, Covered g pending seen b) :
    Covered g pending seen a

theorem Covered.imp (h : g.Covered pending seen a)
    (hpending : ∀ b ∈ pending, g.Covered pending' seen' b)
    (hseen : ∀ v, seen.contains v = true → seen'.contains v = true) :
    g.Covered pending' seen' a := by
  induction h with
  | pending h => exact hpending _ h
  | seen hmark h => exact .seen hmark (hseen _ h)
  | through hmark _ ih => exact .through hmark ih

/-- What holds throughout a search from a node: what is listed or remembered can be reached, and
nothing that a remembered node leads to is lost. -/
structure Searching (g : SearchGraph α) (start : α) (pending : List α) (seen : VarSet) : Prop where
  leads : ∀ a ∈ pending, g.Leads start a
  met : ∀ v ∈ seen.items, ∃ a, g.mark? a = some v ∧ g.Leads start a
  covers : g.Covered pending seen start
  closed : ∀ {a : α} {v : Var}, g.mark? a = some v → seen.contains v = true →
    ∀ b ∈ g.next a, g.Covered pending seen b

namespace Searching

theorem init (g : SearchGraph α) (start : α) : g.Searching start [start] .empty where
  leads a ha := by rw [List.mem_singleton.mp ha]
  met v hv := by cases hv
  covers := .pending (List.mem_singleton_self start)
  closed _ h := by cases h

theorem relist (h : g.Searching start pending seen) (hleads : ∀ a ∈ pending', g.Leads start a)
    (hcovered : ∀ a ∈ pending, g.Covered pending' seen a) : g.Searching start pending' seen :=
  ⟨hleads, h.met, h.covers.imp hcovered fun _ => id,
    fun hmark hv b hb => (h.closed hmark hv b hb).imp hcovered fun _ => id⟩

theorem prune (h : g.Searching start pending seen) (hsub : ∀ a ∈ pending', a ∈ pending)
    (hkept : ∀ a ∈ pending, a ∈ pending' ∨ ∃ v, g.mark? a = some v ∧ seen.contains v = true) :
    g.Searching start pending' seen := by
  refine h.relist (fun a ha => h.leads a (hsub a ha)) fun a ha => ?_
  rcases hkept a ha with ha | ⟨v, hmark, hv⟩
  · exact .pending ha
  · exact .seen hmark hv

theorem congr (h : g.Searching start pending seen) (hmem : ∀ a, a ∈ pending ↔ a ∈ pending') :
    g.Searching start pending' seen :=
  h.prune (fun a => (hmem a).mpr) fun a ha => .inl ((hmem a).mp ha)

theorem skip (h : g.Searching start (a :: rest) seen) (hmark : g.mark? a = some v)
    (hv : seen.contains v = true) : g.Searching start rest seen := by
  refine h.prune (fun b => List.mem_cons_of_mem a) fun b hb => ?_
  rcases List.mem_cons.mp hb with rfl | hb
  · exact .inr ⟨v, hmark, hv⟩
  · exact .inl hb

theorem leads_of_mem (h : g.Searching start (a :: rest) seen) :
    ∀ b ∈ g.next a ++ rest, g.Leads start b := by
  intro b hb
  rcases List.mem_append.mp hb with hb | hb
  · exact (h.leads a List.mem_cons_self).tail hb
  · exact h.leads b (List.mem_cons_of_mem a hb)

theorem pass (h : g.Searching start (a :: rest) seen) (hmark : g.mark? a = none) :
    g.Searching start (g.next a ++ rest) seen := by
  refine h.relist h.leads_of_mem fun b hb => ?_
  rcases List.mem_cons.mp hb with rfl | hb
  · exact .through hmark fun c hc => .pending (List.mem_append_left _ hc)
  · exact .pending (List.mem_append_right _ hb)

theorem enter (h : g.Searching start (a :: rest) seen) (hmark : g.mark? a = some v) :
    g.Searching start (g.next a ++ rest) (seen.insert v) := by
  have hkeeps : ∀ w, seen.contains w = true → (seen.insert v).contains w = true := by
    intro w hw
    rw [VarSet.contains_insert, hw, Bool.or_true]
  have hcovered : ∀ b ∈ a :: rest, g.Covered (g.next a ++ rest) (seen.insert v) b := by
    intro b hb
    rcases List.mem_cons.mp hb with rfl | hb
    · exact .seen hmark (by rw [VarSet.contains_insert, beq_self_eq_true, Bool.true_or])
    · exact .pending (List.mem_append_right _ hb)
  refine ⟨h.leads_of_mem, fun w hw => ?_, h.covers.imp hcovered hkeeps, fun {c w} hc hw b hb => ?_⟩
  · rcases VarSet.mem_insert hw with rfl | hw
    · exact ⟨a, hmark, h.leads a List.mem_cons_self⟩
    · exact h.met w hw
  · rw [VarSet.contains_insert, Bool.or_eq_true, beq_iff_eq] at hw
    rcases hw with hid | hw
    · -- a node that is now remembered leads where the entered one does
      rw [g.next_congr hc hmark hid] at hb
      exact .pending (List.mem_append_left _ hb)
    · exact (h.closed hc hw b hb).imp hcovered hkeeps

theorem covered (h : g.Searching start [] seen) (ha : g.Leads start a) : g.Covered [] seen a := by
  induction ha with
  | refl => exact h.covers
  | tail _ hb ih =>
    cases ih with
    | pending h => cases h
    | seen hmark hv => exact h.closed hmark hv _ hb
    | through _ hnext => exact hnext _ hb

theorem exactly (h : g.Searching start [] seen) {P : Var → Prop}
    (hP : ∀ v, P v ↔ ∃ a, g.mark? a = some v ∧ g.Leads start a) : seen.Exactly P := by
  refine ⟨fun v hv => (hP v).mpr (h.met v hv), fun v hv => ?_⟩
  obtain ⟨a, hmark, ha⟩ := (hP v).mp hv
  cases h.covered ha with
  | pending h => cases h
  | seen hmark' hv =>
    obtain rfl := Option.some.inj (hmark.symm.trans hmark')
    exact hv
  | through hmark' =>
    rw [hmark] at hmark'
    cases hmark'

end Searching
end SearchGraph

namespace BoundTable

variable {t : BoundTable} {p : Polarity} {v w : Var}

section Links

abbrev LinksTo (t : BoundTable) (p : Polarity) : Var → Var → Prop :=
  Relation.ReflTransGen fun v w => .var w ∈ t.bounds p v

def linkGraph (t : BoundTable) (p : Polarity) : SearchGraph Var where
  mark? := some
  next := t.links p
  next_congr hv hw hid := by
    cases hv
    cases hw
    exact t.links_congr p hid

theorem leads_linkGraph (t : BoundTable) (p : Polarity) : (t.linkGraph p).Leads = t.LinksTo p := by
  have hstep : (fun v w => w ∈ (t.linkGraph p).next v) = fun v w => .var w ∈ t.bounds p v := by
    funext v w
    exact propext mem_links
  rw [SearchGraph.Leads, hstep]

theorem searching_followTurn {start : Var} {s : List Var × VarSet}
    (h : (t.linkGraph p).Searching start s.1 s.2) :
    (t.linkGraph p).Searching start (t.followTurn p s).1 (t.followTurn p s).2 := by
  fun_cases followTurn t p s with
  | case1 seen => exact h
  | case2 v todo seen hseen => exact h.skip rfl hseen
  | case3 v todo seen hseen =>
    refine (h.enter rfl).prune (fun w hw => ?_) fun w hw => ?_
    · simp only [List.mem_append, List.mem_reverse, List.mem_filter] at hw
      exact List.mem_append.mpr (hw.imp_left And.left)
    · simp only [List.mem_append, List.mem_reverse, List.mem_filter]
      by_cases hmet : (seen.insert v).contains w = true
      · exact .inr ⟨w, rfl, hmet⟩
      · refine .inl ((List.mem_append.mp hw).imp_left fun hw => ⟨hw, ?_⟩)
        simpa using hmet

theorem searching_linkedVars (t : BoundTable) (p : Polarity) (v : Var) :
    (t.linkGraph p).Searching v [] (t.linkedVars p v) := by
  have hrun := Function.Iterate.rec (a := ([v], .empty))
    (fun s : List Var × VarSet => (t.linkGraph p).Searching v s.1 s.2)
    (.init _ v) (fun _ => searching_followTurn) (t.weight + 1)
  rwa [followTurn_iterate] at hrun

theorem linkedVars_exactly (t : BoundTable) (p : Polarity) (v : Var) :
    (t.linkedVars p v).Exactly (t.LinksTo p v) := by
  refine (t.searching_linkedVars p v).exactly fun w => ?_
  rw [leads_linkGraph]
  simp [linkGraph]

end Links

section Reachable

inductive LeadsOn (t : BoundTable) : Ty → Ty → Prop
  | part {ty c : Ty} (h : c ∈ ty.children) : LeadsOn t ty c
  | bound {p : Polarity} {v : Var} {b : Ty} (h : b ∈ t.bounds p v) : LeadsOn t (.var v) b

abbrev Leads (t : BoundTable) : Ty → Ty → Prop := Relation.ReflTransGen t.LeadsOn

def exits (t : BoundTable) : Ty → List Ty
  | .var v => t.lower v ++ t.upper v
  | ty => ty.children

theorem exits_congr {v w : Var} (h : v.id = w.id) : t.exits (.var v) = t.exits (.var w) := by
  show t.bounds .positive v ++ t.bounds .negative v = t.bounds .positive w ++ t.bounds .negative w
  rw [t.bounds_congr .positive h, t.bounds_congr .negative h]

theorem mem_exits {a b : Ty} : b ∈ t.exits a ↔ t.LeadsOn a b := by
  constructor
  · intro h
    cases a with
    | var v =>
      rcases List.mem_append.mp h with h | h
      · exact .bound (p := .positive) h
      · exact .bound (p := .negative) h
    | _ => exact .part h
  · intro h
    cases h with
    | part h =>
      cases a with
      | var v => cases h
      | _ => exact h
    | @bound p v b h =>
      cases p with
      | positive => exact List.mem_append_left _ h
      | negative => exact List.mem_append_right _ h

def typeGraph (t : BoundTable) : SearchGraph Ty where
  mark? := Ty.asVar?
  next := t.exits
  next_congr ha hb hid := by
    rw [Ty.asVar?_eq_some.mp ha, Ty.asVar?_eq_some.mp hb]
    exact exits_congr hid

theorem leads_typeGraph (t : BoundTable) : t.typeGraph.Leads = t.Leads := by
  have hstep : (fun a b => b ∈ t.typeGraph.next a) = t.LeadsOn := by
    funext a b
    exact propext mem_exits
  rw [SearchGraph.Leads, hstep]

theorem searching_exploreTurn {start : Ty} {s : List Ty × List Ty × VarSet}
    (h : t.typeGraph.Searching start (s.1 ++ s.2.1) s.2.2) :
    t.typeGraph.Searching start ((t.exploreTurn s).1 ++ (t.exploreTurn s).2.1)
      (t.exploreTurn s).2.2 := by
  fun_cases exploreTurn t s with
  | case1 back seen => exact h.congr fun a => by simp
  | case2 v front back seen hseen => exact h.skip rfl hseen
  | case3 v front back seen hseen =>
    have hlisted : t.typeGraph.Searching start (.var v :: (front ++ back)) seen := h
    refine (hlisted.enter rfl).congr fun a => ?_
    simp only [typeGraph, exits, List.mem_append, List.mem_reverse]
    tauto
  | case4 ty front back seen hty =>
    have hlisted : t.typeGraph.Searching start (ty :: (front ++ back)) seen := h
    have hparts : ty.asVar? = none ∧ t.exits ty = ty.children := by
      cases ty with
      | var v => exact absurd rfl (hty v)
      | _ => exact ⟨rfl, rfl⟩
    refine (hlisted.pass hparts.1).congr fun a => ?_
    simp only [typeGraph, hparts.2, List.mem_append, List.mem_reverse]
    tauto

theorem searching_reachable (t : BoundTable) (ty : Ty) :
    t.typeGraph.Searching ty [] (t.reachable ty) := by
  have hrun := Function.Iterate.rec (a := ([ty], [], .empty))
    (fun s : List Ty × List Ty × VarSet => t.typeGraph.Searching ty (s.1 ++ s.2.1) s.2.2)
    (.init _ ty) (fun _ => searching_exploreTurn) (2 * (ty.size + t.weight) + 1)
  rwa [exploreTurn_iterate] at hrun

theorem reachable_exactly (t : BoundTable) (ty : Ty) :
    (t.reachable ty).Exactly fun v => t.Leads ty (.var v) := by
  refine (t.searching_reachable ty).exactly fun v => ?_
  rw [leads_typeGraph]
  simp [typeGraph, Ty.asVar?_eq_some]

end Reachable

/-- Whatever cycles the bounds have, both searches come to an end with nothing listed any more. The
one from a variable has then found exactly the variables that the bounds of one side link it to; the
one from a type, in ascending order, exactly the variables that parts of types and bounds of either
side lead to. -/
theorem searches_exact (t : BoundTable) :
    (∀ (p : Polarity) (v : Var),
      (t.followTurn p)^[t.weight + 1] ([v], .empty) = ([], t.linkedVars p v) ∧
      (t.linkedVars p v).Exactly (t.LinksTo p v)) ∧
    ∀ ty : Ty,
      t.exploreTurn^[2 * (ty.size + t.weight) + 1] ([ty], [], .empty) = ([], [], t.reachable ty) ∧
      (t.reachable ty).items.Pairwise (fun v w => v.id < w.id) ∧
      (t.reachable ty).Exactly fun v => t.Leads ty (.var v) := by
  refine ⟨fun p v => ⟨t.followTurn_iterate p v, t.linkedVars_exactly p v⟩, fun ty => ?_⟩
  exact ⟨t.exploreTurn_iterate ty, (t.reachable ty).ascending, t.reachable_exactly ty⟩

end BoundTable
end Biunify
