import Biunify.BundleGraph.ToTypeExpr
import Mathlib.Data.List.Basic

/-! When a type expression is well formed. Each recursive type has a binder of its own, which
occurs inside it only and there below a function, a record or a tuple; unions stand where a type
is produced and intersections where one is consumed, with two or more members in a fixed order. -/

namespace Biunify
namespace TypeExpr

mutual

def binders : TypeExpr → List Nat
  | top | bottom | base _ | var _ => []
  | arrow param result => binders param ++ binders result
  | tuple ts | union ts | inter ts => bindersList ts
  | record fields => bindersFields fields
  | recursive binder body => binder :: binders body

def bindersList : List TypeExpr → List Nat
  | [] => []
  | t :: rest => binders t ++ bindersList rest

def bindersFields : List (String × TypeExpr) → List Nat
  | [] => []
  | (_, t) :: rest => binders t ++ bindersFields rest

end

theorem bindersList_eq (ts : List TypeExpr) : bindersList ts = ts.flatMap binders := by
  induction ts with
  | nil => rfl
  | cons t ts ih => rw [bindersList, ih, List.flatMap_cons]

theorem bindersFields_eq (fields : List (String × TypeExpr)) :
    bindersFields fields = fields.flatMap fun f => f.2.binders := by
  induction fields with
  | nil => rfl
  | cons f fields ih => rw [bindersFields, ih, List.flatMap_cons]

inductive Free (x : Nat) : TypeExpr → Prop
  | var : Free x (var x)
  | child {e c : TypeExpr} (hc : c ∈ e.children) (hbinder : ∀ body, e ≠ recursive x body)
    (h : Free x c) : Free x e

/-- The variable occurs free, and not below a function, a record or a tuple. -/
inductive Exposed (x : Nat) : TypeExpr → Prop
  | var : Exposed x (var x)
  | union {ms : List TypeExpr} {m : TypeExpr} (hm : m ∈ ms) (h : Exposed x m) :
    Exposed x (union ms)
  | inter {ms : List TypeExpr} {m : TypeExpr} (hm : m ∈ ms) (h : Exposed x m) :
    Exposed x (inter ms)
  | recursive {k : Nat} {body : TypeExpr} (hk : k ≠ x) (h : Exposed x body) :
    Exposed x (recursive k body)

/-- Variables in ascending order, then base types ordered by name, then at most one record, one
tuple and one function. -/
def Members (ms : List TypeExpr) : Prop :=
  ∃ (ids : List Nat) (bases : List BaseTy) (fields : Option (List (String × TypeExpr)))
    (elems : Option (List TypeExpr)) (func : Option (TypeExpr × TypeExpr)),
    ms = ids.map var ++ bases.map base ++ (fields.map record).toList ++ (elems.map tuple).toList
      ++ (func.map fun f => arrow f.1 f.2).toList ∧
    ids.Pairwise (· < ·) ∧ bases.Pairwise (·.name < ·.name)

/-- The shape of an expression that is read at a polarity. -/
inductive Shaped : Polarity → TypeExpr → Prop
  | top {p : Polarity} : Shaped p top
  | bottom : Shaped .positive bottom
  | base {p : Polarity} {b : BaseTy} : Shaped p (base b)
  | var {p : Polarity} {x : Nat} : Shaped p (var x)
  | arrow {p : Polarity} {param result : TypeExpr} (hparam : Shaped p.flip param)
    (hresult : Shaped p result) : Shaped p (arrow param result)
  | tuple {p : Polarity} {ts : List TypeExpr} (h : ∀ t ∈ ts, Shaped p t) : Shaped p (tuple ts)
  | record {p : Polarity} {fields : List (String × TypeExpr)} (h : ∀ f ∈ fields, Shaped p f.2) :
    Shaped p (record fields)
  | union {ms : List TypeExpr} (htwo : 2 ≤ ms.length) (hms : Members ms)
    (h : ∀ m ∈ ms, Shaped .positive m) : Shaped .positive (union ms)
  | inter {ms : List TypeExpr} (htwo : 2 ≤ ms.length) (hms : Members ms)
    (h : ∀ m ∈ ms, Shaped .negative m) : Shaped .negative (inter ms)
  | recursive {p : Polarity} {k : Nat} {body : TypeExpr} (hguard : ¬body.Exposed k)
    (h : Shaped p body) : Shaped p (recursive k body)

structure WellFormed (e : TypeExpr) : Prop where
  nodup : e.binders.Nodup
  inside : ∀ k ∈ e.binders, ¬e.Free k
  shaped : e.Shaped .positive

theorem free_recursive {x k : Nat} {body : TypeExpr} (h : (recursive k body).Free x) :
    x ≠ k ∧ body.Free x := by
  cases h with
  | child hc hbinder h =>
    obtain rfl := List.mem_singleton.mp hc
    refine ⟨?_, h⟩
    rintro rfl
    exact hbinder _ rfl

section OfParts

open BundleGraph

variable {p : Polarity} {parts : List TypeExpr} {x : Nat}

theorem binders_ofParts (p : Polarity) (parts : List TypeExpr) :
    (ofParts p parts).binders = parts.flatMap binders := by
  rcases parts with - | ⟨e, - | ⟨e', es⟩⟩
  · cases p <;> rfl
  · cases p <;> exact (List.append_nil _).symm
  · cases p <;> exact bindersList_eq _

theorem free_ofParts (h : (ofParts p parts).Free x) : ∃ m ∈ parts, m.Free x := by
  rcases parts with - | ⟨e, - | ⟨e', es⟩⟩
  · cases p <;> cases h with | child hc => cases hc
  · cases p <;> exact ⟨e, List.mem_singleton_self e, h⟩
  · cases p <;> cases h with | child hc _ h => exact ⟨_, hc, h⟩

theorem exposed_ofParts (h : (ofParts p parts).Exposed x) : ∃ m ∈ parts, m.Exposed x := by
  rcases parts with - | ⟨e, - | ⟨e', es⟩⟩
  · cases p <;> cases h
  · cases p <;> exact ⟨e, List.mem_singleton_self e, h⟩
  · cases p
    · cases h with | union hm h => exact ⟨_, hm, h⟩
    · cases h with | inter hm h => exact ⟨_, hm, h⟩

theorem shaped_ofParts (hms : Members parts) (h : ∀ m ∈ parts, m.Shaped p) :
    (ofParts p parts).Shaped p := by
  rcases parts with - | ⟨e, - | ⟨e', es⟩⟩
  · cases p
    · exact .bottom
    · exact .top
  · cases p <;> exact h e (List.mem_singleton_self e)
  · have htwo : 2 ≤ (e :: e' :: es).length := by simp
    cases p
    · exact .union htwo hms h
    · exact .inter htwo hms h

end OfParts

end TypeExpr
end Biunify
