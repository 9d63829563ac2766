import Biunify.Proofs.Bundle.Material
import Biunify.Proofs.VarMap

/-! Sets of variables, sets of base types and the fields of records, by what is found in them.
A list in order of its keys is settled by its lookups, so unions and the fields of combined
records are compared key by key. -/

namespace Biunify

namespace Ordered

variable {α κ : Type} [LT κ] [DecidableLT κ] {key : α → κ}

theorem find?_eq_none_of_lt {k : κ} {xs : List α} (h : ∀ x ∈ xs, k < key x) :
    find? key k xs = none := by
  cases xs with
  | nil => rfl
  | cons x xs => exact find?_cons_lt xs (h x List.mem_cons_self)

theorem Ascending.insertAll (ord : Linear κ) {xs : List α} (h : Ascending key xs) (ys : List α) :
    Ascending key (ys.foldl (fun acc y => insert key y acc) xs) :=
  List.foldlRecOn ys _ h fun _ hacc _ _ => hacc.insertWith ord.trans fun _ _ => rfl

theorem find?_insertAll [DecidableEq κ] (ord : Linear κ) {xs ys : List α} (hx : Ascending key xs)
    (hy : Ascending key ys) (k : κ) :
    find? key k (ys.foldl (fun acc y => insert key y acc) xs) =
      (find? key k xs).or (find? key k ys) := by
  induction ys generalizing xs with
  | nil => simp [find?]
  | cons y ys ih =>
    obtain ⟨hlt, hys⟩ := List.pairwise_cons.mp hy
    have hinsert : Ascending key (insert key y xs) := hx.insertWith ord.trans fun _ _ => rfl
    have hfind := find?_insertWith ord (fun old _ => old) (fun _ _ => rfl) k y hx
    rw [List.foldl_cons, ih hinsert hys, insert, hfind]
    rcases ord.trichotomy k (key y) with hk | hk | hk
    · rw [if_neg (ord.ne hk), find?_cons_lt ys hk,
        find?_eq_none_of_lt fun z hz => ord.trans hk (hlt z hz)]
    · rw [if_pos hk, find?_cons_eq ord ys hk]
      cases find? key k xs <;> rfl
    · rw [if_neg (ord.ne hk).symm, find?_cons_gt ord ys hk]

end Ordered

def Var.unleveled (v : Var) : Var := ⟨v.id, 0⟩

namespace VarSet

theorem find?_union (s t : VarSet) (k : Nat) : Ordered.find? Var.id k (s.union t).items =
    (Ordered.find? Var.id k s.items).or (Ordered.find? Var.id k t.items) := by
  have hitems : ∀ (vs : List Var) (u : VarSet), (vs.foldl insert u).items =
      vs.foldl (fun acc v => Ordered.insert Var.id v acc) u.items := by
    intro vs
    induction vs with
    | nil => exact fun _ => rfl
    | cons v vs ih => exact fun u => ih (u.insert v)
  rw [union, hitems]
  exact Ordered.find?_insertAll Ordered.linear_nat s.ascending t.ascending k

theorem ext_find? {s t : VarSet}
    (h : ∀ k, Ordered.find? Var.id k s.items = Ordered.find? Var.id k t.items) : s = t := by
  cases s with
  | mk items hs =>
    cases t with
    | mk items' ht =>
      obtain rfl : items = items' := hs.ext Ordered.linear_nat ht h
      rfl

theorem union_assoc (s t u : VarSet) : (s.union t).union u = s.union (t.union u) :=
  ext_find? fun k => by simp only [find?_union, Option.or_assoc]

@[simp] theorem union_self (s : VarSet) : s.union s = s :=
  ext_find? fun k => by simp only [find?_union, Option.or_self]

@[simp] theorem union_empty (s : VarSet) : s.union .empty = s := rfl

@[simp] theorem empty_union (s : VarSet) : VarSet.empty.union s = s :=
  ext_find? fun k => by rw [find?_union, empty, Ordered.find?, Option.none_or]

theorem union_comm {s t : VarSet} (h : ∀ v ∈ s.items, ∀ w ∈ t.items, v.id = w.id → v = w) :
    s.union t = t.union s := by
  refine ext_find? fun k => ?_
  rw [find?_union, find?_union]
  cases hs : Ordered.find? Var.id k s.items with
  | none => rw [Option.none_or, Option.or_none]
  | some v =>
    cases ht : Ordered.find? Var.id k t.items with
    | none => rfl
    | some w =>
      obtain ⟨hv, hvk⟩ := (Ordered.find?_eq_some_iff Ordered.linear_nat s.ascending).mp hs
      obtain ⟨hw, hwk⟩ := (Ordered.find?_eq_some_iff Ordered.linear_nat t.ascending).mp ht
      rw [h v hv w hw (hvk.trans hwk.symm)]

def unleveled (s : VarSet) : VarSet :=
  ⟨s.items.map Var.unleveled, List.pairwise_map.mpr s.ascending⟩

theorem unleveled_union (s t : VarSet) :
    (s.union t).unleveled = s.unleveled.union t.unleveled := by
  have hfind : ∀ (u : VarSet) (k : Nat), Ordered.find? Var.id k u.unleveled.items =
      (Ordered.find? Var.id k u.items).map Var.unleveled :=
    fun u k => Ordered.find?_map (f := Var.unleveled) (σ := id) Iff.rfl (by intro; rfl) k u.items
  refine ext_find? fun k => ?_
  rw [hfind, find?_union, find?_union, hfind, hfind, Option.map_or]

end VarSet

namespace BaseSet

theorem union_comm (s t : BaseSet) : s.union t = t.union s := by
  simp [union, Bool.or_comm]

theorem union_assoc (s t u : BaseSet) : (s.union t).union u = s.union (t.union u) := by
  simp [union, Bool.or_assoc]

@[simp] theorem union_self (s : BaseSet) : s.union s = s := by
  simp [union]

@[simp] theorem union_empty (s : BaseSet) : s.union .empty = s := by
  simp [union, empty]

@[simp] theorem empty_union (s : BaseSet) : BaseSet.empty.union s = s := by
  simp [union, empty]

end BaseSet

namespace Fields

variable {α β : Type} {xs ys : List (String × α)}

theorem ordered_find?_eq (hx : Ordered.Ascending Prod.fst xs) (k : String) :
    Ordered.find? Prod.fst k xs = (find? xs k).map fun a => (k, a) := by
  rw [find?]
  cases h : Ordered.find? Prod.fst k xs with
  | none => rfl
  | some entry =>
    obtain ⟨-, rfl⟩ := (Ordered.find?_eq_some_iff Ordered.linear_string hx).mp h
    rfl

theorem ext_find? (hx : Ordered.Ascending Prod.fst xs) (hy : Ordered.Ascending Prod.fst ys)
    (h : ∀ k, find? xs k = find? ys k) : xs = ys :=
  hx.ext Ordered.linear_string hy fun k => by rw [ordered_find?_eq hx, ordered_find?_eq hy, h]

theorem find?_eq_none_of_lt {k : String} (h : ∀ f ∈ xs, k < f.1) : find? xs k = none := by
  rw [find?, Ordered.find?_eq_none_of_lt h, Option.map_none]

theorem find?_cons_self (f : String × α) (fs : List (String × α)) :
    find? (f :: fs) f.1 = some f.2 := by
  rw [find?, Ordered.find?_cons_eq Ordered.linear_string fs rfl, Option.map_some]

theorem find?_cons_gt {f : String × α} {k : String} (h : f.1 < k) (fs : List (String × α)) :
    find? (f :: fs) k = find? fs k := by
  rw [find?, Ordered.find?_cons_gt Ordered.linear_string fs h, find?]

theorem find?_filterMap (g : String → α → Option β) (hx : Ordered.Ascending Prod.fst xs)
    (k : String) :
    find? (xs.filterMap fun f => (g f.1 f.2).map fun b => (f.1, b)) k =
      (find? xs k).bind (g k) := by
  have ord := Ordered.linear_string
  induction xs with
  | nil => rfl
  | cons f fs ih =>
    obtain ⟨hlt, hfs⟩ := List.pairwise_cons.mp hx
    have hrest := ih hfs
    rcases ord.trichotomy k f.1 with hk | hk | hk
    · -- The name comes before all others, so neither list has it.
      have hall : ∀ f' ∈ f :: fs, k < f'.1 :=
        List.forall_mem_cons.mpr ⟨hk, fun f' hf' => ord.trans hk (hlt f' hf')⟩
      rw [find?_eq_none_of_lt hall, Option.bind_none, find?_eq_none_of_lt]
      intro e he
      obtain ⟨f', hf', hmap⟩ := List.mem_filterMap.mp he
      obtain ⟨b, -, rfl⟩ := Option.map_eq_some_iff.mp hmap
      exact hall f' hf'
    · subst hk
      rw [find?_cons_self, Option.bind_some]
      cases hg : g f.1 f.2 with
      | none =>
        rw [List.filterMap_cons_none (by rw [hg, Option.map_none]), hrest,
          find?_eq_none_of_lt hlt, Option.bind_none]
      | some b =>
        rw [List.filterMap_cons_some (by rw [hg, Option.map_some])]
        exact find?_cons_self (f.1, b) _
    · rw [find?_cons_gt hk, ← hrest]
      cases hg : g f.1 f.2 with
      | none => rw [List.filterMap_cons_none (by rw [hg, Option.map_none])]
      | some b =>
        rw [List.filterMap_cons_some (by rw [hg, Option.map_some])]
        exact find?_cons_gt (f := (f.1, b)) hk _

theorem ascending_map (g : String → α → β) (hx : Ordered.Ascending Prod.fst xs) :
    Ordered.Ascending Prod.fst (xs.map fun f => (f.1, g f.1 f.2)) :=
  List.pairwise_map.mpr hx

theorem find?_map (g : String → α → β) (hx : Ordered.Ascending Prod.fst xs) (k : String) :
    find? (xs.map fun f => (f.1, g f.1 f.2)) k = (find? xs k).map (g k) := by
  have hmap : xs.map (fun f => (f.1, g f.1 f.2)) =
      xs.filterMap fun f => (some (g f.1 f.2)).map fun b => (f.1, b) := by
    rw [← List.filterMap_eq_map]
    rfl
  rw [hmap, find?_filterMap (fun name a => some (g name a)) hx, Option.map_eq_bind]
  rfl

end Fields

end Biunify
