import Biunify.Proofs.TypeExpr.Structure
import Biunify.TypeExpr.Printer
import Mathlib.Data.List.Basic
import Mathlib.Data.Set.Function

/-! Renaming the variables of a type expression, binders included. As the printer names variables
in order of first occurrence, a renaming that keeps them apart does not show. -/

namespace Biunify
namespace TypeExpr

variable {e t u : TypeExpr} (f g : Nat → Nat)

theorem renameList_eq (ts : List TypeExpr) : renameList f ts = ts.map (rename f) := by
  induction ts with
  | nil => rfl
  | cons t ts ih => rw [renameList, ih, List.map_cons]

theorem renameFields_eq (fields : List (String × TypeExpr)) :
    renameFields f fields = fields.map fun e => (e.1, e.2.rename f) := by
  induction fields with
  | nil => rfl
  | cons e fields ih => rw [renameFields, ih, List.map_cons]

theorem renderList_eq (name : Nat → String) (outer : Nat) (ts : List TypeExpr) :
    renderList name outer ts = ts.map (renderAt name outer) := by
  induction ts with
  | nil => rfl
  | cons t ts ih => rw [renderList, ih, List.map_cons]

theorem renderFields_eq (name : Nat → String) (fields : List (String × TypeExpr)) :
    renderFields name fields = fields.map fun e => labelled e.1 (e.2.renderAt name 0) := by
  induction fields with
  | nil => rfl
  | cons e fields ih => rw [renderFields, ih, List.map_cons]

theorem occurrences_rename (e : TypeExpr) : (e.rename f).occurrences = e.occurrences.map f := by
  induction e with
  | top | bottom | base | var => rfl
  | arrow param result hparam hresult =>
    rw [rename, occurrences, hparam, hresult, occurrences, List.map_append]
  | tuple ts ih | union ts ih | inter ts ih =>
    rw [rename, occurrences, occurrences, renameList_eq, occurrencesList_eq, occurrencesList_eq,
      List.flatMap_map, List.map_flatMap]
    exact List.flatMap_congr ih
  | record fields ih =>
    rw [rename, occurrences, occurrences, renameFields_eq, occurrencesFields_eq,
      occurrencesFields_eq, List.flatMap_map, List.map_flatMap]
    exact List.flatMap_congr ih
  | recursive k body ih => rw [rename, occurrences, ih, occurrences, List.map_cons]

theorem rename_rename (e : TypeExpr) : (e.rename f).rename g = e.rename (g ∘ f) := by
  induction e with
  | top | bottom | base | var => rfl
  | arrow param result hparam hresult => rw [rename, rename, hparam, hresult, rename]
  | tuple ts ih | union ts ih | inter ts ih =>
    rw [rename, rename, rename, renameList_eq, renameList_eq, renameList_eq, List.map_map]
    exact congrArg _ (List.map_congr_left ih)
  | record fields ih =>
    rw [rename, rename, rename, renameFields_eq, renameFields_eq, renameFields_eq, List.map_map]
    exact congrArg _ (List.map_congr_left fun f hf => congrArg (Prod.mk f.1) (ih f hf))
  | recursive k body ih => rw [rename, rename, ih, rename, Function.comp_apply]

theorem renderAt_rename (name : Nat → String) (e : TypeExpr) (outer : Nat) :
    (e.rename f).renderAt name outer = e.renderAt (name ∘ f) outer := by
  induction e generalizing outer with
  | top | bottom | base | var => rfl
  | arrow param result hparam hresult => rw [rename, renderAt, hparam, hresult, renderAt]
  | tuple ts ih | union ts ih | inter ts ih =>
    rw [rename, renderAt, renderAt, renameList_eq, renderList_eq, renderList_eq, List.map_map,
      List.map_congr_left]
    exact fun t ht => ih t ht _
  | record fields ih =>
    rw [rename, renderAt, renderAt, renameFields_eq, renderFields_eq, renderFields_eq,
      List.map_map, List.map_congr_left]
    exact fun f hf => congrArg (labelled f.1) (ih f hf 0)
  | recursive k body ih => rw [rename, renderAt, ih, renderAt, Function.comp_apply]

variable {f g}

theorem rename_congr (h : ∀ x ∈ e.occurrences, f x = g x) : e.rename f = e.rename g := by
  induction e with
  | top | bottom | base => rfl
  | var x => exact congrArg var (h x List.mem_cons_self)
  | arrow param result hparam hresult =>
    rw [rename, rename, hparam fun x hx => h x (List.mem_append_left _ hx),
      hresult fun x hx => h x (List.mem_append_right _ hx)]
  | tuple ts ih | union ts ih | inter ts ih =>
    rw [occurrences, occurrencesList_eq] at h
    rw [rename, rename, renameList_eq, renameList_eq, List.map_congr_left]
    exact fun t ht => ih t ht fun x hx => h x (List.mem_flatMap_of_mem ht hx)
  | record fields ih =>
    rw [occurrences, occurrencesFields_eq] at h
    rw [rename, rename, renameFields_eq, renameFields_eq, List.map_congr_left]
    exact fun e he => congrArg (Prod.mk e.1)
      (ih e he fun x hx => h x (List.mem_flatMap_of_mem he hx))
  | recursive k body ih =>
    rw [rename, rename, h k List.mem_cons_self, ih fun x hx => h x (List.mem_cons_of_mem k hx)]

theorem renderAt_congr {name name' : Nat → String} (outer : Nat)
    (h : ∀ x ∈ e.occurrences, name x = name' x) :
    e.renderAt name outer = e.renderAt name' outer := by
  induction e generalizing outer with
  | top | bottom | base => rfl
  | var x => exact h x List.mem_cons_self
  | arrow param result hparam hresult =>
    rw [renderAt, renderAt, hparam _ fun x hx => h x (List.mem_append_left _ hx),
      hresult _ fun x hx => h x (List.mem_append_right _ hx)]
  | tuple ts ih | union ts ih | inter ts ih =>
    rw [occurrences, occurrencesList_eq] at h
    rw [renderAt, renderAt, renderList_eq, renderList_eq, List.map_congr_left]
    exact fun t ht => ih t ht _ fun x hx => h x (List.mem_flatMap_of_mem ht hx)
  | record fields ih =>
    rw [occurrences, occurrencesFields_eq] at h
    rw [renderAt, renderAt, renderFields_eq, renderFields_eq, List.map_congr_left]
    exact fun e he => congrArg (labelled e.1)
      (ih e he 0 fun x hx => h x (List.mem_flatMap_of_mem he hx))
  | recursive k body ih =>
    rw [renderAt, renderAt, h k List.mem_cons_self,
      ih _ fun x hx => h x (List.mem_cons_of_mem k hx)]

theorem rename_eq_self (h : ∀ x ∈ e.occurrences, f x = x) : e.rename f = e := by
  have hid : e.rename id = e := by
    clear h
    induction e with
    | top | bottom | base | var => rfl
    | arrow param result hparam hresult => rw [rename, hparam, hresult]
    | tuple ts ih | union ts ih | inter ts ih =>
      rw [rename, renameList_eq, List.map_congr_left ih, List.map_id']
    | record fields ih =>
      rw [rename, renameFields_eq, List.map_congr_left fun e he => congrArg (Prod.mk e.1) (ih e he),
        List.map_id']
    | recursive k body ih => rw [rename, ih, id]
  rw [rename_congr h]
  exact hid

theorem eraseDups_map : ∀ {xs : List Nat}, Set.InjOn f {x | x ∈ xs} →
    (xs.map f).eraseDups = xs.eraseDups.map f
  | [], _ => rfl
  | x :: xs, hf => by
    have hfilter : (xs.map f).filter (fun y => !y == f x) = (xs.filter fun y => !y == x).map f := by
      rw [List.filter_map, List.filter_congr]
      intro y hy
      rw [Function.comp_apply, Bool.eq_iff_iff, Bool.not_eq_true', Bool.not_eq_true',
        beq_eq_false_iff_ne, beq_eq_false_iff_ne,
        (hf.eq_iff (List.mem_cons_of_mem x hy) List.mem_cons_self).ne]
    have hrest : Set.InjOn f {y | y ∈ xs.filter fun y => !y == x} :=
      hf.mono fun y hy => List.mem_cons_of_mem x (List.mem_of_mem_filter hy)
    rw [List.map_cons, List.eraseDups_cons, hfilter, eraseDups_map hrest, List.eraseDups_cons,
      List.map_cons]
termination_by xs => xs.length
decreasing_by exact Nat.lt_succ_of_le (List.length_filter_le ..)

theorem vars_rename (hf : Set.InjOn f {x | x ∈ e.vars}) : (e.rename f).vars = e.vars.map f := by
  rw [vars, occurrences_rename, eraseDups_map, vars]
  exact hf.mono fun x hx => mem_vars.mpr hx

theorem idxOf_map : ∀ {xs : List Nat}, Set.InjOn f {x | x ∈ xs} → ∀ {x : Nat}, x ∈ xs →
    (xs.map f).idxOf (f x) = xs.idxOf x
  | y :: xs, hf, x, hx => by
    by_cases hyx : y = x
    · rw [hyx, List.map_cons, List.idxOf_cons_self, List.idxOf_cons_self]
    · have hne : f y ≠ f x := fun h => hyx (hf List.mem_cons_self hx h)
      have hxs : x ∈ xs := (List.mem_cons.mp hx).resolve_left fun h => hyx h.symm
      rw [List.map_cons, List.idxOf_cons_ne _ hne, List.idxOf_cons_ne _ hyx,
        idxOf_map (hf.mono fun z hz => List.mem_cons_of_mem y hz) hxs]

theorem injOn_idxOf (xs : List Nat) : Set.InjOn (fun x => xs.idxOf x) {x | x ∈ xs} :=
  fun _ hx _ _ h => (List.idxOf_inj hx).mp h

theorem renumber_rename (hf : Set.InjOn f {x | x ∈ e.vars}) :
    (e.rename f).renumber = e.renumber := by
  rw [renumber, vars_rename hf, rename_rename, renumber, rename_congr]
  exact fun x hx => idxOf_map hf (mem_vars.mpr hx)

theorem renumber_renumber (e : TypeExpr) : e.renumber.renumber = e.renumber :=
  renumber_rename (injOn_idxOf e.vars)

theorem render_eq (e : TypeExpr) : e.render = e.renumber.renderAt varName 0 := by
  rw [render, renumber, renderAt_rename, renderAt_congr]
  intro x hx
  have hfound := List.isSome_idxOf?.mpr (mem_vars.mpr hx)
  obtain ⟨i, hi⟩ := Option.isSome_iff_exists.mp hfound
  rw [nameAmong, hi, Function.comp_apply, List.idxOf_eq_getD_idxOf?, hi, Option.getD_some]

theorem render_rename (hf : Set.InjOn f {x | x ∈ e.vars}) : (e.rename f).render = e.render := by
  rw [render_eq, renumber_rename hf, render_eq]

theorem exists_rename_of_rename_eq (h : t.rename f = u.rename g)
    (hf : Set.InjOn f {x | x ∈ t.vars}) (hg : Set.InjOn g {x | x ∈ u.vars}) :
    ∃ k, Set.InjOn k {x | x ∈ t.vars} ∧ u = t.rename k := by
  -- what one renaming does is undone by an inverse of the other
  let back := Function.invFunOn g {x | x ∈ u.vars}
  have hback : ∀ x ∈ t.vars, g (back (f x)) = f x := by
    intro x hx
    have hmem : f x ∈ u.occurrences.map g := by
      rw [← occurrences_rename, ← h, occurrences_rename]
      exact List.mem_map_of_mem (mem_vars.mp hx)
    obtain ⟨y, hy, hyx⟩ := List.mem_map.mp hmem
    exact Function.invFunOn_eq ⟨y, mem_vars.mpr hy, hyx⟩
  refine ⟨back ∘ f, fun x hx y hy hxy => hf hx hy ?_, ?_⟩
  · rw [← hback x hx, ← hback y hy]
    exact congrArg g hxy
  · rw [← rename_rename, h, rename_rename, rename_eq_self]
    exact fun x hx => hg.leftInvOn_invFunOn (mem_vars.mpr hx)

theorem exists_rename_of_renumber_eq (h : t.renumber = u.renumber) :
    ∃ k, Set.InjOn k {x | x ∈ t.vars} ∧ u = t.rename k :=
  exists_rename_of_rename_eq h (injOn_idxOf t.vars) (injOn_idxOf u.vars)

theorem relabel_pairs (k : Nat → Nat) {xs : List Nat} {x : Nat} (hx : x ∈ xs) :
    relabel (xs.map fun x => (x, k x)) x = k x := by
  have hmem : (x, k x) ∈ (xs.map fun x => (x, k x)).reverse :=
    List.mem_reverse.mpr (List.mem_map_of_mem hx)
  have hsome : ((xs.map fun x => (x, k x)).reverse.find? fun p => p.1 == x).isSome :=
    List.find?_isSome.mpr ⟨(x, k x), hmem, beq_self_eq_true x⟩
  obtain ⟨p, hp⟩ := Option.isSome_iff_exists.mp hsome
  have hpx := List.find?_some hp
  obtain ⟨y, -, rfl⟩ := List.mem_map.mp (List.mem_reverse.mp (List.mem_of_find?_eq_some hp))
  rw [relabel, hp, Option.map_some, Option.getD_some]
  exact congrArg k (beq_iff_eq.mp hpx)

/-- Numbering the variables decides whether two expressions differ in their variables only, it is
seen in what is printed, and a second numbering changes nothing. -/
theorem renumber_canonical (t u : TypeExpr) :
    (t.renumber = u.renumber ↔ ∃ pairs : List (Nat × Nat),
      Set.InjOn (relabel pairs) {x | x ∈ t.vars} ∧ u = t.rename (relabel pairs)) ∧
    (t.renumber = u.renumber → t.render = u.render) ∧ t.renumber.renumber = t.renumber := by
  refine ⟨⟨fun h => ?_, ?_⟩, fun h => ?_, t.renumber_renumber⟩
  · obtain ⟨k, hk, hu⟩ := exists_rename_of_renumber_eq h
    have hpairs : ∀ x ∈ t.vars, relabel (t.vars.map fun x => (x, k x)) x = k x :=
      fun x hx => relabel_pairs k hx
    refine ⟨t.vars.map fun x => (x, k x), hk.congr fun x hx => (hpairs x hx).symm, ?_⟩
    rw [hu]
    exact rename_congr fun x hx => (hpairs x (mem_vars.mpr hx)).symm
  · rintro ⟨pairs, hinj, rfl⟩
    exact (renumber_rename hinj).symm
  · rw [render_eq, h, render_eq]

end TypeExpr
end Biunify
