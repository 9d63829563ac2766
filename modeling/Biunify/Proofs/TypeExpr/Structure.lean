import Biunify.TypeExpr.Basic
import Mathlib.Data.List.Basic

/-! Type expressions by their structure: induction over the parts of an expression, and the
variables of a list of parts. -/

namespace Biunify
namespace TypeExpr

@[elab_as_elim, induction_eliminator]
theorem structural {motive : TypeExpr → Prop} (top : motive top) (bottom : motive bottom)
    (base : ∀ b, motive (base b)) (var : ∀ x, motive (var x))
    (arrow : ∀ param result, motive param → motive result → motive (arrow param result))
    (tuple : ∀ ts, (∀ t ∈ ts, motive t) → motive (tuple ts))
    (record : ∀ fields, (∀ f ∈ fields, motive f.2) → motive (record fields))
    (union : ∀ ts, (∀ t ∈ ts, motive t) → motive (union ts))
    (inter : ∀ ts, (∀ t ∈ ts, motive t) → motive (inter ts))
    (recursive : ∀ k body, motive body → motive (recursive k body)) (e : TypeExpr) : motive e :=
  @TypeExpr.rec motive (fun ts => ∀ t ∈ ts, motive t) (fun fields => ∀ f ∈ fields, motive f.2)
    (fun f => motive f.2) top bottom base var arrow tuple record union inter recursive
    (List.forall_mem_nil _) (fun _ _ h hs => List.forall_mem_cons.mpr ⟨h, hs⟩)
    (List.forall_mem_nil _) (fun _ _ h hs => List.forall_mem_cons.mpr ⟨h, hs⟩) (fun _ _ h => h) e

theorem occurrencesList_eq (ts : List TypeExpr) : occurrencesList ts = ts.flatMap occurrences := by
  induction ts with
  | nil => rfl
  | cons t ts ih => rw [occurrencesList, ih, List.flatMap_cons]

theorem occurrencesFields_eq (fields : List (String × TypeExpr)) :
    occurrencesFields fields = fields.flatMap fun f => f.2.occurrences := by
  induction fields with
  | nil => rfl
  | cons f fields ih => rw [occurrencesFields, ih, List.flatMap_cons]

theorem mem_vars {e : TypeExpr} {x : Nat} : x ∈ e.vars ↔ x ∈ e.occurrences :=
  List.mem_eraseDups

def Inner : TypeExpr → Prop
  | var _ | recursive .. => False
  | _ => True

theorem occurrences_of_inner {e : TypeExpr} (h : e.Inner) :
    e.occurrences = e.children.flatMap occurrences := by
  cases e with
  | top | bottom | base => rfl
  | var | recursive => exact h.elim
  | arrow param result => simp [occurrences, children]
  | tuple ts | union ts | inter ts => exact occurrencesList_eq ts
  | record fields => rw [occurrences, occurrencesFields_eq, children, List.flatMap_map]

theorem inner_induction {motive : TypeExpr → Prop} (var : ∀ x, motive (var x))
    (inner : ∀ e : TypeExpr, e.Inner → (∀ c ∈ e.children, motive c) → motive e)
    (recursive : ∀ k body, motive body → motive (recursive k body)) (e : TypeExpr) : motive e := by
  induction e with
  | top => exact inner .top trivial (List.forall_mem_nil _)
  | bottom => exact inner .bottom trivial (List.forall_mem_nil _)
  | base b => exact inner (.base b) trivial (List.forall_mem_nil _)
  | var x => exact var x
  | arrow param result hparam hresult =>
    exact inner (.arrow param result) trivial
      (List.forall_mem_cons.mpr ⟨hparam, List.forall_mem_singleton.mpr hresult⟩)
  | tuple ts ih => exact inner (.tuple ts) trivial ih
  | record fields ih => exact inner (.record fields) trivial (List.forall_mem_map.mpr ih)
  | union ts ih => exact inner (.union ts) trivial ih
  | inter ts ih => exact inner (.inter ts) trivial ih
  | recursive k body ih => exact recursive k body ih

end TypeExpr
end Biunify
