import Biunify.Proofs.Ty.Key
import Biunify.Proofs.TypeExpr.Renaming

/-! Parentheses have two uses in the text of a type: they enclose the elements of a tuple, and they
group what binds too weakly for its place. A tuple of one element uses them both ways, so where its
element would be grouped it prints as the element alone does. Taking such tuples away changes
neither the text nor the variables. -/

namespace Biunify
namespace TypeExpr

def prec? : TypeExpr → Option Nat
  | arrow .. => some arrowPrec
  | union _ => some unionPrec
  | inter _ => some interPrec
  | _ => none

def grouped (outer : Nat) (e : TypeExpr) : Bool := e.prec?.any (· < outer)

def tupleIn (outer : Nat) : List TypeExpr → TypeExpr
  | [t] => if t.grouped outer then t else tuple [t]
  | ts => tuple ts

mutual

/-- The expression without the tuples that print as their one element does. -/
def ungroup (outer : Nat) : TypeExpr → TypeExpr
  | top => top
  | bottom => bottom
  | base b => base b
  | var x => var x
  | arrow param result => arrow (ungroup (arrowPrec + 1) param) (ungroup arrowPrec result)
  | tuple ts => tupleIn outer (ungroupList 0 ts)
  | record fields => record (ungroupFields fields)
  | union ts => union (ungroupList unionPrec ts)
  | inter ts => inter (ungroupList interPrec ts)
  | recursive binder body => recursive binder (ungroup recursivePrec body)

def ungroupList (outer : Nat) : List TypeExpr → List TypeExpr
  | [] => []
  | t :: rest => ungroup outer t :: ungroupList outer rest

def ungroupFields : List (String × TypeExpr) → List (String × TypeExpr)
  | [] => []
  | (name, t) :: rest => (name, ungroup 0 t) :: ungroupFields rest

end

variable {e t : TypeExpr} {outer : Nat}

theorem ungroupList_eq (outer : Nat) (ts : List TypeExpr) :
    ungroupList outer ts = ts.map (ungroup outer) := by
  induction ts with
  | nil => rfl
  | cons t ts ih => rw [ungroupList, ih, List.map_cons]

theorem ungroupFields_eq (fields : List (String × TypeExpr)) :
    ungroupFields fields = fields.map fun f => (f.1, f.2.ungroup 0) := by
  induction fields with
  | nil => rfl
  | cons f fields ih => rw [ungroupFields, ih, List.map_cons]

theorem grouped_iff : e.grouped outer = true ↔ ∃ p, e.prec? = some p ∧ p < outer := by
  rw [grouped, Option.any_eq_true]
  simp only [decide_eq_true_eq]

@[simp] theorem grouped_zero (e : TypeExpr) : e.grouped 0 = false := by
  rw [Bool.eq_false_iff, ne_eq, grouped_iff]
  rintro ⟨p, -, hp⟩
  exact Nat.not_lt_zero p hp

theorem tupleIn_zero (ts : List TypeExpr) : tupleIn 0 ts = tuple ts := by
  rcases ts with - | ⟨t, - | ⟨u, ts⟩⟩
  · rfl
  · rw [tupleIn, grouped_zero, if_neg Bool.false_ne_true]
  · rfl

theorem prec?_ungroup_zero (e : TypeExpr) : (e.ungroup 0).prec? = e.prec? := by
  cases e with
  | tuple ts => rw [ungroup, tupleIn_zero]; rfl
  | _ => rfl

theorem renderAt_eq (name : Nat → String) (outer : Nat) (e : TypeExpr) :
    e.renderAt name outer = parensIf (e.grouped outer) (e.renderAt name 0) := by
  cases e <;> rfl

theorem renderAt_tupleIn (name : Nat → String) (outer : Nat) (ts : List TypeExpr) :
    (tupleIn outer ts).renderAt name outer = parens (commaSep (ts.map (renderAt name 0))) := by
  rcases ts with - | ⟨t, - | ⟨u, ts⟩⟩
  · rfl
  · rw [tupleIn]
    split
    case isTrue h => rw [renderAt_eq, h]; rfl
    case isFalse => rfl
  · rw [tupleIn, renderAt, renderList_eq]
    simp

theorem renderAt_ungroup (name : Nat → String) (e : TypeExpr) (outer : Nat) :
    (e.ungroup outer).renderAt name outer = e.renderAt name outer := by
  induction e generalizing outer with
  | top | bottom | base | var => rfl
  | arrow param result hparam hresult => rw [ungroup, renderAt, hparam, hresult, renderAt]
  | tuple ts ih =>
    rw [ungroup, renderAt_tupleIn, ungroupList_eq, List.map_map, renderAt, renderList_eq,
      List.map_congr_left]
    exact fun t ht => ih t ht 0
  | record fields ih =>
    rw [ungroup, renderAt, renderAt, ungroupFields_eq, renderFields_eq, renderFields_eq,
      List.map_map, List.map_congr_left]
    exact fun f hf => congrArg (labelled f.1) (ih f hf 0)
  | union ts ih | inter ts ih =>
    rw [ungroup, renderAt, renderAt, ungroupList_eq, renderList_eq, renderList_eq, List.map_map,
      List.map_congr_left]
    exact fun t ht => ih t ht _
  | recursive k body ih => rw [ungroup, renderAt, ih, renderAt]

theorem occurrences_tupleIn (outer : Nat) (ts : List TypeExpr) :
    (tupleIn outer ts).occurrences = ts.flatMap occurrences := by
  rcases ts with - | ⟨t, - | ⟨u, ts⟩⟩
  · rfl
  · rw [tupleIn]
    split <;> simp [occurrences, occurrencesList]
  · exact occurrencesList_eq _

theorem occurrences_ungroup (e : TypeExpr) (outer : Nat) :
    (e.ungroup outer).occurrences = e.occurrences := by
  induction e generalizing outer with
  | top | bottom | base | var => rfl
  | arrow param result hparam hresult => rw [ungroup, occurrences, hparam, hresult, occurrences]
  | tuple ts ih =>
    rw [ungroup, occurrences_tupleIn, ungroupList_eq, List.flatMap_map, occurrences,
      occurrencesList_eq]
    exact List.flatMap_congr fun t ht => ih t ht 0
  | record fields ih =>
    rw [ungroup, occurrences, occurrences, ungroupFields_eq, occurrencesFields_eq,
      occurrencesFields_eq, List.flatMap_map]
    exact List.flatMap_congr fun f hf => ih f hf 0
  | union ts ih | inter ts ih =>
    rw [ungroup, occurrences, occurrences, ungroupList_eq, occurrencesList_eq, occurrencesList_eq,
      List.flatMap_map]
    exact List.flatMap_congr fun t ht => ih t ht _
  | recursive k body ih => rw [ungroup, occurrences, ih, occurrences]

theorem vars_ungroup (e : TypeExpr) (outer : Nat) : (e.ungroup outer).vars = e.vars := by
  rw [vars, occurrences_ungroup, vars]

theorem render_ungroup (e : TypeExpr) : (e.ungroup 0).render = e.render := by
  rw [render, render, vars_ungroup, renderAt_ungroup]

theorem grouped_rename (f : Nat → Nat) (outer : Nat) (e : TypeExpr) :
    (e.rename f).grouped outer = e.grouped outer := by
  cases e <;> rfl

theorem rename_tupleIn (f : Nat → Nat) (outer : Nat) (ts : List TypeExpr) :
    (tupleIn outer ts).rename f = tupleIn outer (ts.map (rename f)) := by
  rcases ts with - | ⟨t, - | ⟨u, ts⟩⟩
  · rfl
  · rw [List.map_cons, List.map_nil, tupleIn, tupleIn, grouped_rename]
    split <;> rfl
  · rw [tupleIn, rename, renameList_eq]
    · rfl
    · simp

theorem ungroup_rename (f : Nat → Nat) (e : TypeExpr) (outer : Nat) :
    (e.rename f).ungroup outer = (e.ungroup outer).rename f := by
  induction e generalizing outer with
  | top | bottom | base | var => rfl
  | arrow param result hparam hresult => rw [rename, ungroup, hparam, hresult, ungroup, rename]
  | tuple ts ih =>
    rw [rename, ungroup, ungroup, rename_tupleIn, renameList_eq, ungroupList_eq, ungroupList_eq,
      List.map_map, List.map_map, List.map_congr_left]
    exact fun t ht => ih t ht 0
  | record fields ih =>
    rw [rename, ungroup, ungroup, rename, renameFields_eq, ungroupFields_eq, ungroupFields_eq,
      renameFields_eq, List.map_map, List.map_map, List.map_congr_left]
    exact fun e he => congrArg (Prod.mk e.1) (ih e he 0)
  | union ts ih | inter ts ih =>
    rw [rename, ungroup, ungroup, rename, renameList_eq, ungroupList_eq, ungroupList_eq,
      renameList_eq, List.map_map, List.map_map, List.map_congr_left]
    exact fun t ht => ih t ht _
  | recursive k body ih => rw [rename, ungroup, ih, ungroup, rename]

/-- Unions and intersections have two members or more and none of their own kind, and records have
plain field names. -/
inductive Flat : TypeExpr → Prop
  | top : Flat top
  | bottom : Flat bottom
  | base (b : BaseTy) : Flat (base b)
  | var (x : Nat) : Flat (var x)
  | arrow {param result : TypeExpr} (hparam : Flat param) (hresult : Flat result) :
    Flat (arrow param result)
  | tuple {ts : List TypeExpr} (h : ∀ t ∈ ts, Flat t) : Flat (tuple ts)
  | record {fields : List (String × TypeExpr)} (hnames : ∀ f ∈ fields, Ty.PlainName f.1)
    (h : ∀ f ∈ fields, Flat f.2) : Flat (record fields)
  | union {ts : List TypeExpr} (htwo : 2 ≤ ts.length) (hkind : ∀ us, union us ∉ ts)
    (h : ∀ t ∈ ts, Flat t) : Flat (union ts)
  | inter {ts : List TypeExpr} (htwo : 2 ≤ ts.length) (hkind : ∀ us, inter us ∉ ts)
    (h : ∀ t ∈ ts, Flat t) : Flat (inter ts)
  | recursive {body : TypeExpr} (k : Nat) (h : Flat body) : Flat (recursive k body)

theorem Flat.rename (h : e.Flat) (f : Nat → Nat) : (e.rename f).Flat := by
  induction h with
  | top => exact .top
  | bottom => exact .bottom
  | base b => exact .base b
  | var x => exact .var _
  | arrow _ _ hparam hresult => exact .arrow hparam hresult
  | tuple _ ih =>
    rw [TypeExpr.rename, renameList_eq]
    exact .tuple (List.forall_mem_map.mpr ih)
  | record hnames _ ih =>
    rw [TypeExpr.rename, renameFields_eq]
    exact .record (List.forall_mem_map.mpr hnames) (List.forall_mem_map.mpr ih)
  | union htwo hkind _ ih =>
    rw [TypeExpr.rename, renameList_eq]
    refine .union (by simpa using htwo) (fun us hus => ?_) (List.forall_mem_map.mpr ih)
    obtain ⟨t, ht, heq⟩ := List.mem_map.mp hus
    cases t <;> simp [TypeExpr.rename] at heq
    exact hkind _ ht
  | inter htwo hkind _ ih =>
    rw [TypeExpr.rename, renameList_eq]
    refine .inter (by simpa using htwo) (fun us hus => ?_) (List.forall_mem_map.mpr ih)
    obtain ⟨t, ht, heq⟩ := List.mem_map.mp hus
    cases t <;> simp [TypeExpr.rename] at heq
    exact hkind _ ht
  | recursive k _ ih => exact .recursive _ ih

end TypeExpr
end Biunify
