import Biunify.BaseTy
import Biunify.Ordered
import Biunify.Var

/-! A bundle groups everything that occurs together at one place of a type: some
variables, some base types, and at most one tuple, one record and one function. It is
read as a union where the place is positive and as an intersection where it is
negative; the bundle itself does not say which. -/

namespace Biunify

universe u v

/-- One place of a type, with `α` for what stands at the places below it. The fields
of a record ascend by name. -/
structure Layer (α : Type u) where
  vars : VarSet := .empty
  bases : BaseSet := .empty
  tuple : Option (List α) := none
  record : Option (List (String × α)) := none
  func : Option (α × α) := none
  /-- The parts have no common supertype, so their union is everything. -/
  top : Bool := false

inductive Bundle where
  | node (layer : Layer Bundle)

namespace Layer

variable {α : Type u} {β : Type v}

def map (f : α → β) (l : Layer α) : Layer β :=
  { vars := l.vars
    bases := l.bases
    tuple := l.tuple.map (List.map f)
    record := l.record.map (List.map fun entry => (entry.1, f entry.2))
    func := l.func.map fun parts => (f parts.1, f parts.2)
    top := l.top }

def isEmpty (l : Layer α) : Bool :=
  l.vars.isEmpty && l.bases.isEmpty && l.tuple.isNone && l.record.isNone && l.func.isNone && !l.top

end Layer

namespace Fields

variable {α : Type}

def find? (fields : List (String × α)) (name : String) : Option α :=
  (Ordered.find? Prod.fst name fields).map Prod.snd

def insert (fields : List (String × α)) (name : String) (a : α) : List (String × α) :=
  Ordered.insertWith Prod.fst (fun _ new => new) (name, a) fields

/-- The fields by name; of several with one name the last counts. -/
def ofList (entries : List (String × α)) : List (String × α) :=
  entries.foldl (fun fields entry => insert fields entry.1 entry.2) []

end Fields

namespace Bundle

def layer : Bundle → Layer Bundle
  | node l => l

def empty : Bundle := node {}

def ofVar (v : Var) : Bundle := node { vars := .singleton v }

def ofBase (b : BaseTy) : Bundle := node { bases := .singleton b }

def isEmpty (b : Bundle) : Bool := b.layer.isEmpty

section Fold

variable {α : Type u} (step : Layer (Bundle × α) → α)

mutual

def fold : Bundle → α
  | node ⟨vars, bases, tuple, record, func, top⟩ =>
    step ⟨vars, bases, foldTuple tuple, foldRecord record, foldFunc func, top⟩

def foldTuple : Option (List Bundle) → Option (List (Bundle × α))
  | none => none
  | some elems => some (foldElems elems)

def foldElems : List Bundle → List (Bundle × α)
  | [] => []
  | b :: rest => (b, fold b) :: foldElems rest

def foldRecord : Option (List (String × Bundle)) → Option (List (String × Bundle × α))
  | none => none
  | some fields => some (foldFields fields)

def foldFields : List (String × Bundle) → List (String × Bundle × α)
  | [] => []
  | (name, b) :: rest => (name, b, fold b) :: foldFields rest

def foldFunc : Option (Bundle × Bundle) → Option ((Bundle × α) × (Bundle × α))
  | none => none
  | some (param, result) => some ((param, fold param), (result, fold result))

end

theorem foldElems_eq (elems : List Bundle) :
    foldElems step elems = elems.map fun b => (b, fold step b) := by
  induction elems with
  | nil => rfl
  | cons b rest ih => rw [foldElems, ih, List.map_cons]

theorem foldFields_eq (fields : List (String × Bundle)) :
    foldFields step fields = fields.map fun f => (f.1, f.2, fold step f.2) := by
  induction fields with
  | nil => rfl
  | cons f rest ih => rw [foldFields, ih, List.map_cons]

theorem fold_node (l : Layer Bundle) :
    fold step (node l) = step (l.map fun b => (b, fold step b)) := by
  obtain ⟨vars, bases, tuple, record, func, top⟩ := l
  cases tuple <;> cases record <;> cases func <;>
    simp [fold, foldTuple, foldRecord, foldFunc, foldElems_eq, foldFields_eq, Layer.map]

end Fold

def agree {α : Type} (tests : List (α → Bool)) (xs : List α) : Bool :=
  tests.length == xs.length && (List.zipWith (· ·) tests xs).all id

def sameLayer (l : Layer (Bundle → Bool)) (r : Layer Bundle) : Bool :=
  l.vars == r.vars && l.bases == r.bases && l.top == r.top
    && (match l.tuple, r.tuple with
      | some ls, some rs => agree ls rs
      | none, none => true
      | _, _ => false)
    && (match l.record, r.record with
      | some ls, some rs => ls.map Prod.fst == rs.map Prod.fst
          && agree (ls.map Prod.snd) (rs.map Prod.snd)
      | none, none => true
      | _, _ => false)
    && (match l.func, r.func with
      | some f, some g => f.1 g.1 && f.2 g.2
      | none, none => true
      | _, _ => false)

def same : Bundle → Bundle → Bool := fold fun l r => sameLayer (l.map Prod.snd) r.layer

instance : BEq Bundle := ⟨same⟩

end Bundle

/-- A bundle together with the bodies of the variables that cut its cycles. -/
structure BundleGraph where
  root : Bundle
  cycles : VarMap Bundle

namespace BundleGraph

def same (g h : BundleGraph) : Bool :=
  g.root == h.root && g.cycles.items == h.cycles.items

instance : BEq BundleGraph := ⟨same⟩

end BundleGraph
end Biunify
