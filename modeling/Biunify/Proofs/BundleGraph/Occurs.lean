import Biunify.Bundle.Basic
import Biunify.Proofs.Bundle.Structure
import Biunify.Proofs.VarMap

/-! The bundles of a graph, with the polarities they are read at. A body is read as its variable
is. In the graph of a type a variable with a body stands alone, and is read at one polarity. -/

namespace Biunify

def Layer.Has {α : Type} (l : Layer α) (id : Nat) : Prop := ∃ v ∈ l.vars.items, v.id = id

namespace BundleGraph

/-- The bundle occurs in the graph and is read at the polarity. -/
inductive Occurs (g : BundleGraph) : Polarity → Bundle → Prop
  | root : g.Occurs .positive g.root
  | child {p q : Polarity} {b c : Bundle} (h : g.Occurs p b) (hc : b.layer.Child p q c) :
    g.Occurs q c
  | body {p : Polarity} {b body : Bundle} {v : Var} (h : g.Occurs p b)
    (hv : v ∈ b.layer.vars.items) (hbody : g.cycles.find? v = some body) : g.Occurs p body

def OnePolarity (g : BundleGraph) : Prop :=
  ∀ {p q b c v}, g.Occurs p b → g.Occurs q c → b.layer.Has v → c.layer.Has v →
    g.cycles.contains ⟨v, 0⟩ = true → p = q

/-- A variable with a body stands alone, and is read at one polarity. -/
structure Tidy (g : BundleGraph) : Prop where
  alone : ∀ {p b v}, g.Occurs p b → v ∈ b.layer.vars.items → g.cycles.contains v = true →
    b = .ofVar v
  onePolarity : g.OnePolarity

def sharedElement : Bundle := .node { vars := .ofList [⟨0, 0⟩, ⟨1, 0⟩] }

def sharedBody : Bundle :=
  .node { record := some [("head", sharedElement), ("tail", .ofVar ⟨2, 0⟩)] }

def sharedStream : BundleGraph where
  root := .node { func := some (sharedElement, .ofVar ⟨2, 0⟩) }
  cycles := VarMap.empty.insert ⟨2, 0⟩ sharedBody

theorem sharedStream_occurs {p : Polarity} {b : Bundle} (h : sharedStream.Occurs p b) :
    p = .positive ∧ (b = sharedStream.root ∨ b = .ofVar ⟨2, 0⟩ ∨ b = sharedBody) ∨
      b = sharedElement := by
  induction h with
  | root => exact .inl ⟨rfl, .inl rfl⟩
  | child _ hc ih =>
    rcases ih with ⟨rfl, rfl | rfl | rfl⟩ | rfl
    · cases hc with
      | elem h _ | field h _ => cases h
      | param h => cases h; exact .inr rfl
      | result h => cases h; exact .inl ⟨rfl, .inr (.inl rfl)⟩
    · cases hc with
      | elem h _ | field h _ | param h | result h => cases h
    · cases hc with
      | elem h _ | param h | result h => cases h
      | field h hf =>
        cases h
        rcases List.mem_pair.mp hf with rfl | rfl
        · exact .inr rfl
        · exact .inl ⟨rfl, .inr (.inl rfl)⟩
    · cases hc with
      | elem h _ | field h _ | param h | result h => cases h
  | body _ hv hbody ih =>
    rcases ih with ⟨rfl, rfl | rfl | rfl⟩ | rfl
    · cases hv
    · obtain rfl := List.mem_singleton.mp hv
      cases hbody
      exact .inl ⟨rfl, .inr (.inr rfl)⟩
    · cases hv
    · rcases List.mem_pair.mp hv with rfl | rfl <;> cases hbody

theorem sharedStream_tidy : sharedStream.Tidy := by
  have hfree : ∀ v ∈ sharedElement.layer.vars.items, sharedStream.cycles.contains v = false := by
    intro v hv
    rcases List.mem_pair.mp hv with rfl | rfl <;> rfl
  constructor
  · intro p b v hb hv hcycle
    rcases sharedStream_occurs hb with ⟨-, rfl | rfl | rfl⟩ | rfl
    · cases hv
    · rw [List.mem_singleton.mp hv]
    · cases hv
    · rw [hfree v hv] at hcycle
      cases hcycle
  · intro p q b c v hb hc hbv hcv hcycle
    have hside : ∀ {p b}, sharedStream.Occurs p b → b.layer.Has v → p = .positive := by
      rintro p b hb ⟨u, hu, rfl⟩
      rcases sharedStream_occurs hb with ⟨hp, -⟩ | rfl
      · exact hp
      · rw [VarMap.contains_congr _ (show (⟨u.id, 0⟩ : Var).id = u.id from rfl), hfree u hu] at hcycle
        cases hcycle
    rw [hside hb hbv, hside hc hcv]

end BundleGraph
end Biunify
