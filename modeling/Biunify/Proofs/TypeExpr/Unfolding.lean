import Biunify.BundleGraph.ToTypeExpr
import Mathlib.Logic.Function.Iterate

/-! The tree that a type expression is a finite writing of, down to a depth. The depth is counted
in functions, records and tuples, or in all nodes of the tree. A recursive type is no node: it is
put in place of its binder as often as the depth asks. -/

namespace Biunify

/-- A type without binders, with `cut` for what is too deep. -/
inductive TypeTree where
  | cut
  | top
  | bottom
  | base (b : BaseTy)
  | var (id : Nat)
  | arrow (param result : TypeTree)
  | tuple (elems : List TypeTree)
  | record (fields : List (String × TypeTree))
  | union (members : List TypeTree)
  | inter (members : List TypeTree)

def TypeTree.ofParts : Polarity → List TypeTree → TypeTree
  | .positive, [] => .bottom
  | .negative, [] => .top
  | _, [part] => part
  | .positive, parts => .union parts
  | .negative, parts => .inter parts

/-- What counts as a level of a tree: functions, records and tuples only, or unions and
intersections too. -/
inductive TypeTree.Counting where
  | constructors
  | nodes

def TypeTree.Counting.below : Counting → Nat → Nat
  | constructors, n => n + 1
  | nodes, n => n

namespace TypeExpr

open TypeTree (Counting)

mutual

def unfold (count : Counting) (env : Nat → Nat → TypeTree) : TypeExpr → Nat → TypeTree
  | _, 0 => .cut
  | top, _ + 1 => .top
  | bottom, _ + 1 => .bottom
  | base b, _ + 1 => .base b
  | var x, n + 1 => env x (n + 1)
  | arrow param result, n + 1 => .arrow (unfold count env param n) (unfold count env result n)
  | tuple ts, n + 1 => .tuple (unfoldList count env ts n)
  | record fields, n + 1 => .record (unfoldFields count env fields n)
  | union ts, n + 1 => .union (unfoldList count env ts (count.below n))
  | inter ts, n + 1 => .inter (unfoldList count env ts (count.below n))
  | recursive binder body, n + 1 =>
    (fun tree => unfold count (Function.update env binder tree) body)^[n + 1]
      (fun _ => .cut) (n + 1)

def unfoldList (count : Counting) (env : Nat → Nat → TypeTree) :
    List TypeExpr → Nat → List TypeTree
  | [], _ => []
  | t :: rest, n => unfold count env t n :: unfoldList count env rest n

def unfoldFields (count : Counting) (env : Nat → Nat → TypeTree) :
    List (String × TypeExpr) → Nat → List (String × TypeTree)
  | [], _ => []
  | (name, t) :: rest, n => (name, unfold count env t n) :: unfoldFields count env rest n

end

variable (count : Counting) (env : Nat → Nat → TypeTree)

@[simp] theorem unfold_zero (e : TypeExpr) : e.unfold count env 0 = .cut := by
  cases e <;> rfl

theorem unfoldList_eq (ts : List TypeExpr) (n : Nat) :
    unfoldList count env ts n = ts.map (unfold count env · n) := by
  induction ts with
  | nil => rfl
  | cons t ts ih => rw [unfoldList, ih, List.map_cons]

theorem unfoldFields_eq (fields : List (String × TypeExpr)) (n : Nat) :
    unfoldFields count env fields n = fields.map fun f => (f.1, unfold count env f.2 n) := by
  induction fields with
  | nil => rfl
  | cons f fields ih => rw [unfoldFields, ih, List.map_cons]

/-- A recursive type reads as the tree that its body reads as, wherever the binder does so at every
smaller depth. -/
theorem unfold_recursive {k : Nat} {body : TypeExpr} {n : Nat} (tree : Nat → TypeTree)
    (hbody : ∀ i ≤ n, ∀ approx : Nat → TypeTree, (∀ j < i, approx j = tree j) →
      body.unfold count (Function.update env k approx) i = tree i) :
    (recursive k body).unfold count env n = tree n := by
  have hzero : TypeTree.cut = tree 0 := by
    have hcut := hbody 0 (Nat.zero_le n) tree fun _ _ => rfl
    rwa [unfold_zero] at hcut
  -- after `m` rounds the tree is right down to depth `m`
  have hrounds : ∀ m, ∀ i ≤ m, i ≤ n →
      (fun tree => body.unfold count (Function.update env k tree))^[m] (fun _ => .cut) i =
        tree i := by
    intro m
    induction m with
    | zero =>
      intro i hi _
      rw [Nat.le_zero.mp hi, ← hzero]
      rfl
    | succ m ih =>
      intro i hi hin
      rw [Function.iterate_succ_apply']
      exact hbody i hin _ fun j hj => ih j (by omega) (by omega)
  cases n with
  | zero => rw [unfold_zero, hzero]
  | succ n =>
    rw [unfold]
    exact hrounds (n + 1) (n + 1) (Nat.le_refl _) (Nat.le_refl _)

theorem unfold_ofParts (p : Polarity) (parts : List TypeExpr) (n : Nat) :
    (BundleGraph.ofParts p parts).unfold .constructors env (n + 1) =
      .ofParts p (parts.map (unfold .constructors env · (n + 1))) := by
  rcases parts with - | ⟨e, - | ⟨e', es⟩⟩
  · cases p <;> rfl
  · cases p <;> rfl
  · cases p <;>
      simp [BundleGraph.ofParts, TypeTree.ofParts, unfold, unfoldList_eq, Counting.below]

end TypeExpr
end Biunify
