import Biunify.BaseTy
import Biunify.Var

/-! Types during inference. What a variable stands for is not part of the type; its
bounds are kept in a table. Every arrow, tuple and record is stamped with the node it
was created as, so that a type met again can be told from an equal type built anew. -/

namespace Biunify

inductive Ty where
  | base (b : BaseTy)
  | var (v : Var)
  | arrow (node : Nat) (param result : Ty)
  | tuple (node : Nat) (elems : List Ty)
  | record (node : Nat) (fields : List (String × Ty))

namespace Ty

mutual

def level : Ty → Nat
  | base _ => 0
  | var v => v.level
  | arrow _ param result => max param.level result.level
  | tuple _ elems => levelElems elems
  | record _ fields => levelFields fields

def levelElems : List Ty → Nat
  | [] => 0
  | t :: rest => max t.level (levelElems rest)

def levelFields : List (String × Ty) → Nat
  | [] => 0
  | (_, t) :: rest => max t.level (levelFields rest)

end

mutual

def size : Ty → Nat
  | base _ | var _ => 1
  | arrow _ param result => param.size + result.size + 1
  | tuple _ elems => sizeElems elems + 1
  | record _ fields => sizeFields fields + 1

def sizeElems : List Ty → Nat
  | [] => 0
  | t :: rest => t.size + sizeElems rest

def sizeFields : List (String × Ty) → Nat
  | [] => 0
  | (_, t) :: rest => t.size + sizeFields rest

end

def children : Ty → List Ty
  | base _ | var _ => []
  | arrow _ param result => [param, result]
  | tuple _ elems => elems
  | record _ fields => fields.map Prod.snd

def asVar? : Ty → Option Var
  | var v => some v
  | _ => none

theorem asVar?_eq_some {t : Ty} {v : Var} : t.asVar? = some v ↔ t = var v := by
  cases t <;> simp [asVar?]

def isVar (t : Ty) : Bool := t.asVar?.isSome

def fieldNamed? (name : String) (fields : List (String × Ty)) : Option Ty :=
  (fields.find? fun f => f.1 == name).map Prod.snd

mutual

def equal : Ty → Ty → Bool
  | base a, base b => a == b
  | var v, var w => v == w
  | arrow m p r, arrow n q s => m == n && equal p q && equal r s
  | tuple m ts, tuple n us => m == n && equalElems ts us
  | record m fs, record n gs => m == n && equalFields fs gs
  | _, _ => false

def equalElems : List Ty → List Ty → Bool
  | [], [] => true
  | t :: ts, u :: us => equal t u && equalElems ts us
  | _, _ => false

def equalFields : List (String × Ty) → List (String × Ty) → Bool
  | [], [] => true
  | (x, t) :: fs, (y, u) :: gs => x == y && equal t u && equalFields fs gs
  | _, _ => false

end

/-- The same object: one base type, one variable, or one node met again. -/
def same : Ty → Ty → Bool
  | var v, var w => v.id == w.id
  | t, u => equal t u

mutual

theorem eq_of_equal : ∀ {t u : Ty}, equal t u = true → t = u
  | base _, base _, h => by simpa [equal] using h
  | var _, var _, h => by simpa [equal] using h
  | arrow .., arrow .., h => by
    simp only [equal, Bool.and_eq_true, beq_iff_eq] at h
    rw [h.1.1, eq_of_equal h.1.2, eq_of_equal h.2]
  | tuple .., tuple .., h => by
    simp only [equal, Bool.and_eq_true, beq_iff_eq] at h
    rw [h.1, eq_of_equalElems h.2]
  | record .., record .., h => by
    simp only [equal, Bool.and_eq_true, beq_iff_eq] at h
    rw [h.1, eq_of_equalFields h.2]
  | base _, var _, h | base _, arrow .., h | base _, tuple .., h | base _, record .., h => by
    simp [equal] at h
  | var _, base _, h | var _, arrow .., h | var _, tuple .., h | var _, record .., h => by
    simp [equal] at h
  | arrow .., base _, h | arrow .., var _, h | arrow .., tuple .., h | arrow .., record .., h => by
    simp [equal] at h
  | tuple .., base _, h | tuple .., var _, h | tuple .., arrow .., h | tuple .., record .., h => by
    simp [equal] at h
  | record .., base _, h | record .., var _, h | record .., arrow .., h
  | record .., tuple .., h => by simp [equal] at h

theorem eq_of_equalElems : ∀ {ts us : List Ty}, equalElems ts us = true → ts = us
  | [], [], _ => rfl
  | _ :: _, _ :: _, h => by
    simp only [equalElems, Bool.and_eq_true] at h
    rw [eq_of_equal h.1, eq_of_equalElems h.2]
  | [], _ :: _, h | _ :: _, [], h => by simp [equalElems] at h

theorem eq_of_equalFields : ∀ {fs gs : List (String × Ty)}, equalFields fs gs = true → fs = gs
  | [], [], _ => rfl
  | (_, _) :: _, (_, _) :: _, h => by
    simp only [equalFields, Bool.and_eq_true, beq_iff_eq] at h
    rw [h.1.1, eq_of_equal h.1.2, eq_of_equalFields h.2]
  | [], _ :: _, h | _ :: _, [], h => by simp [equalFields] at h

end

end Ty
end Biunify
