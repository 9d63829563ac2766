import Biunify.Ordered
import Biunify.Polarity

/-! Type variables, with sets and maps of them in order of creation. -/

namespace Biunify

/-- A type variable: its place in the order of creation and the depth of `let`
nesting it was created at. -/
structure Var where
  id : Nat
  level : Nat
deriving DecidableEq

namespace Var

def dump (v : Var) : String := "α" ++ v.id.repr

def render (v : Var) : String := v.dump ++ String.join (List.replicate v.level "'")

end Var

structure VarSet where
  items : List Var
  ascending : Ordered.Ascending Var.id items
deriving DecidableEq

namespace VarSet

def empty : VarSet := ⟨[], List.Pairwise.nil⟩

def singleton (v : Var) : VarSet := ⟨[v], List.pairwise_singleton _ _⟩

def contains (s : VarSet) (v : Var) : Bool := (Ordered.find? Var.id v.id s.items).isSome

def insert (s : VarSet) (v : Var) : VarSet :=
  ⟨Ordered.insert Var.id v s.items, s.ascending.insertWith Nat.lt_trans fun _ _ => rfl⟩

def ofList (vs : List Var) : VarSet := vs.foldl insert empty

def union (s t : VarSet) : VarSet := t.items.foldl insert s

def isEmpty (s : VarSet) : Bool := s.items.isEmpty

def size (s : VarSet) : Nat := s.items.length

end VarSet

structure VarMap (α : Type) where
  items : List (Var × α)
  ascending : Ordered.Ascending (fun entry : Var × α => entry.1.id) items

namespace VarMap

variable {α : Type}

def empty : VarMap α := ⟨[], List.Pairwise.nil⟩

def find? (m : VarMap α) (v : Var) : Option α :=
  (Ordered.find? (fun entry : Var × α => entry.1.id) v.id m.items).map Prod.snd

def contains (m : VarMap α) (v : Var) : Bool := (m.find? v).isSome

def insert (m : VarMap α) (v : Var) (a : α) : VarMap α :=
  ⟨Ordered.insertWith _ (fun old new => (old.1, new.2)) (v, a) m.items,
    m.ascending.insertWith Nat.lt_trans fun _ _ => rfl⟩

def erase (m : VarMap α) (v : Var) : VarMap α :=
  ⟨m.items.filter fun entry => entry.1.id != v.id, m.ascending.sublist List.filter_sublist⟩

def map {β : Type} (f : α → β) (m : VarMap α) : VarMap β :=
  ⟨m.items.map fun entry => (entry.1, f entry.2),
    by simpa only [Ordered.Ascending, List.pairwise_map] using m.ascending⟩

def override (m n : VarMap α) : VarMap α :=
  n.items.foldl (fun acc entry => acc.insert entry.1 entry.2) m

def keys (m : VarMap α) : List Var := m.items.map Prod.fst

def size (m : VarMap α) : Nat := m.items.length

end VarMap

structure PolarMap (α : Type) where
  positive : VarMap α
  negative : VarMap α

namespace PolarMap

variable {α : Type}

def empty : PolarMap α := ⟨.empty, .empty⟩

def side (m : PolarMap α) : Polarity → VarMap α
  | .positive => m.positive
  | .negative => m.negative

def find? (m : PolarMap α) (p : Polarity) (v : Var) : Option α := (m.side p).find? v

def contains (m : PolarMap α) (p : Polarity) (v : Var) : Bool := (m.side p).contains v

def insert (m : PolarMap α) (p : Polarity) (v : Var) (a : α) : PolarMap α :=
  match p with
  | .positive => { m with positive := m.positive.insert v a }
  | .negative => { m with negative := m.negative.insert v a }

end PolarMap
end Biunify
