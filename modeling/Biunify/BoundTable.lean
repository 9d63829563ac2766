import Biunify.Ty.Basic

/-! The variables of a session with their bounds. A variable's id is its index, and
variables are never removed. Bounds stand newest first. -/

namespace Biunify

structure VarEntry where
  level : Nat
  lower : List Ty := []
  upper : List Ty := []

structure BoundTable where
  entries : Array VarEntry

namespace BoundTable

def empty : BoundTable := ⟨#[]⟩

def size (t : BoundTable) : Nat := t.entries.size

def entry (t : BoundTable) (v : Var) : VarEntry := t.entries.getD v.id { level := v.level }

def lower (t : BoundTable) (v : Var) : List Ty := (t.entry v).lower

def upper (t : BoundTable) (v : Var) : List Ty := (t.entry v).upper

/-- What a variable stands for where it is read at the given polarity: its lower
bounds join, its upper bounds meet. -/
def bounds (t : BoundTable) : Polarity → Var → List Ty
  | .positive, v => t.lower v
  | .negative, v => t.upper v

def nextVar (t : BoundTable) (level : Nat) : Var := ⟨t.size, level⟩

def addVar (t : BoundTable) (level : Nat) : BoundTable := ⟨t.entries.push { level }⟩

def setBounds (t : BoundTable) (p : Polarity) (v : Var) (tys : List Ty) : BoundTable :=
  ⟨t.entries.modify v.id fun entry =>
    match p with
    | .positive => { entry with lower := tys }
    | .negative => { entry with upper := tys }⟩

def addBound (t : BoundTable) (p : Polarity) (v : Var) (ty : Ty) : BoundTable :=
  ⟨t.entries.modify v.id fun entry =>
    match p with
    | .positive => { entry with lower := ty :: entry.lower }
    | .negative => { entry with upper := ty :: entry.upper }⟩

@[simp] theorem size_addVar (t : BoundTable) (level : Nat) :
    (t.addVar level).size = t.size + 1 := by
  simp [addVar, size]

@[simp] theorem size_setBounds (t : BoundTable) (p : Polarity) (v : Var) (tys : List Ty) :
    (t.setBounds p v tys).size = t.size := by
  simp [setBounds, size]

@[simp] theorem size_addBound (t : BoundTable) (p : Polarity) (v : Var) (ty : Ty) :
    (t.addBound p v ty).size = t.size := by
  simp [addBound, size]

def weight (t : BoundTable) : Nat :=
  t.entries.foldl (fun n entry => n + Ty.sizeElems entry.lower + Ty.sizeElems entry.upper) 0

end BoundTable
end Biunify
