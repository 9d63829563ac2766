import Biunify.Proofs.Bundle.Structure
import Biunify.Proofs.BundleGraph.Census
import Mathlib.Order.Hom.Basic

/-! Giving variables other ids in the same order. Sets and maps of variables are kept in order
of ids, so all that is done with them carries over from the old ids to the new ones. -/

namespace Biunify

variable (ρ : Nat ↪o Nat)

def Var.renumber (v : Var) : Var := ⟨ρ v.id, v.level⟩

theorem Var.renumber_id_eq_iff {v w : Var} : (v.renumber ρ).id = (w.renumber ρ).id ↔ v.id = w.id :=
  ρ.injective.eq_iff

namespace VarSet

def renumber (s : VarSet) : VarSet :=
  ⟨s.items.map (Var.renumber ρ),
    List.pairwise_map.mpr (s.ascending.imp fun hlt => ρ.strictMono hlt)⟩

theorem eq_of_items_eq {s t : VarSet} (h : s.items = t.items) : s = t := by
  cases s
  cases t
  congr

theorem renumber_insert (s : VarSet) (v : Var) :
    (s.insert v).renumber ρ = (s.renumber ρ).insert (v.renumber ρ) := by
  have hitems : Ordered.insertWith Var.id (fun old _ => old) (v.renumber ρ)
      (s.items.map (Var.renumber ρ)) =
        (Ordered.insertWith Var.id (fun old _ => old) v s.items).map (Var.renumber ρ) :=
    Ordered.insertWith_map ρ.lt_iff_lt (by intro; rfl) (by intros; rfl) v s.items
  exact eq_of_items_eq hitems.symm

theorem renumber_ofList (vs : List Var) :
    (ofList vs).renumber ρ = ofList (vs.map (Var.renumber ρ)) := by
  have hfold : ∀ s : VarSet, (vs.foldl insert s).renumber ρ =
      (vs.map (Var.renumber ρ)).foldl insert (s.renumber ρ) := by
    induction vs with
    | nil => exact fun _ => rfl
    | cons v vs ih =>
      intro s
      rw [List.foldl_cons, ih, renumber_insert, List.map_cons, List.foldl_cons]
  exact hfold empty

end VarSet

namespace VarMap

variable {α β : Type} (f : α → β)

def renumber (m : VarMap α) : VarMap β :=
  ⟨m.items.map fun entry => (entry.1.renumber ρ, f entry.2),
    List.pairwise_map.mpr (m.ascending.imp fun hlt => ρ.strictMono hlt)⟩

theorem eq_of_items_eq {m n : VarMap α} (h : m.items = n.items) : m = n := by
  cases m
  cases n
  congr

@[simp] theorem find?_renumber (m : VarMap α) (v : Var) :
    (m.renumber ρ f).find? (v.renumber ρ) = (m.find? v).map f := by
  have hitems : Ordered.find? (fun entry : Var × β => entry.1.id) (ρ v.id)
      (m.items.map fun entry => (entry.1.renumber ρ, f entry.2)) =
        (Ordered.find? (fun entry : Var × α => entry.1.id) v.id m.items).map
          fun entry => (entry.1.renumber ρ, f entry.2) :=
    Ordered.find?_map ρ.lt_iff_lt (by intro; rfl) v.id m.items
  rw [find?, find?, Option.map_map]
  exact (congrArg (Option.map Prod.snd) hitems).trans (Option.map_map ..)

@[simp] theorem contains_renumber (m : VarMap α) (v : Var) :
    (m.renumber ρ f).contains (v.renumber ρ) = m.contains v := by
  rw [contains, find?_renumber, Option.isSome_map, contains]

theorem renumber_insert (m : VarMap α) (v : Var) (a : α) :
    (m.insert v a).renumber ρ f = (m.renumber ρ f).insert (v.renumber ρ) (f a) := by
  have hitems : Ordered.insertWith (fun entry : Var × β => entry.1.id)
      (fun old new => (old.1, new.2)) (v.renumber ρ, f a)
      (m.items.map fun entry => (entry.1.renumber ρ, f entry.2)) =
        (Ordered.insertWith (fun entry : Var × α => entry.1.id) (fun old new => (old.1, new.2))
          (v, a) m.items).map fun entry => (entry.1.renumber ρ, f entry.2) :=
    Ordered.insertWith_map (f := fun entry : Var × α => (entry.1.renumber ρ, f entry.2))
      ρ.lt_iff_lt (by intro; rfl) (by intros; rfl) (v, a) m.items
  exact eq_of_items_eq hitems.symm

theorem renumber_erase (m : VarMap α) (v : Var) :
    (m.erase v).renumber ρ f = (m.renumber ρ f).erase (v.renumber ρ) := by
  refine eq_of_items_eq ?_
  show _ = (m.items.map _).filter _
  rw [List.filter_map]
  refine congrArg (List.map _) (List.filter_congr fun entry _ => ?_)
  simp [Var.renumber, bne]

theorem size_renumber (m : VarMap α) : (m.renumber ρ f).size = m.size := List.length_map _

theorem keys_renumber (m : VarMap α) :
    (m.renumber ρ f).keys = m.keys.map (Var.renumber ρ) := by
  simp [keys, renumber]

end VarMap

namespace PolarMap

variable {α β : Type} (f : α → β)

def renumber (m : PolarMap α) : PolarMap β := ⟨m.positive.renumber ρ f, m.negative.renumber ρ f⟩

@[simp] theorem find?_renumber (m : PolarMap α) (p : Polarity) (v : Var) :
    (m.renumber ρ f).find? p (v.renumber ρ) = (m.find? p v).map f := by
  cases p <;> exact VarMap.find?_renumber ρ f _ v

theorem renumber_insert (m : PolarMap α) (p : Polarity) (v : Var) (a : α) :
    (m.insert p v a).renumber ρ f = (m.renumber ρ f).insert p (v.renumber ρ) (f a) := by
  cases p <;> simp [renumber, insert, VarMap.renumber_insert]

end PolarMap

def Layer.renumber {α β : Type*} (f : α → β) (l : Layer α) : Layer β :=
  { l.map f with vars := l.vars.renumber ρ }

namespace Bundle

def renumber : Bundle → Bundle := fold fun l => node ((l.map Prod.snd).renumber ρ id)

theorem renumber_node (l : Layer Bundle) :
    (node l).renumber ρ = node (l.renumber ρ (renumber ρ)) := by
  rw [renumber, fold_node, Layer.map_map]
  simp only [Layer.renumber, Layer.map_map]
  rfl

theorem layer_renumber (b : Bundle) : (b.renumber ρ).layer = b.layer.renumber ρ (renumber ρ) := by
  rcases b with ⟨l⟩
  rw [renumber_node]
  rfl

theorem renumber_ofVar (v : Var) : (ofVar v).renumber ρ = ofVar (v.renumber ρ) := by
  rw [ofVar, renumber_node]
  rfl

end Bundle

def BundleGraph.renumber (g : BundleGraph) : BundleGraph :=
  ⟨g.root.renumber ρ, g.cycles.renumber ρ (Bundle.renumber ρ)⟩

end Biunify
