import Biunify.Proofs.BoundTable.Bounds
import Mathlib.Order.Basic

/-! Types read in a preorder. A reading gives every constructor an element for the elements
of its parts, monotone as subtyping is: the widening of base types, arrows against the
order in the parameter, tuples of one length part by part, records by width and by depth.
An exact reading relates built elements in no other way. -/

namespace Biunify

universe u

theorem Polarity.orient_le_refl {α : Type u} [Preorder α] (p : Polarity) (x : α) :
    p.orient (· ≤ ·) x x := by
  cases p <;> exact le_refl x

theorem Polarity.orient_le_trans {α : Type u} [Preorder α] {p : Polarity} {x y z : α}
    (h : p.orient (· ≤ ·) x y) (h' : p.orient (· ≤ ·) y z) : p.orient (· ≤ ·) x z := by
  cases p with
  | positive => exact le_trans (show x ≤ y from h) h'
  | negative => exact le_trans (show z ≤ y from h') h

inductive Shape (α : Type u) where
  | base (b : BaseTy)
  | arrow (param result : α)
  | tuple (elems : List α)
  | record (fields : List (String × α))

namespace Shape

variable {α : Type u}

def Distinct : Shape α → Prop
  | record fields => (fields.map Prod.fst).Nodup
  | _ => True

inductive Below (le : α → α → Prop) : Shape α → Shape α → Prop
  | base {a b : BaseTy} (h : a.below b = true) : Below le (base a) (base b)
  | arrow {p q r s : α} (hp : le q p) (hr : le r s) : Below le (arrow p r) (arrow q s)
  | tuple {xs ys : List α} (h : List.Forall₂ le xs ys) : Below le (tuple xs) (tuple ys)
  | record {fs gs : List (String × α)} (h : ∀ g ∈ gs, ∃ f ∈ fs, f.1 = g.1 ∧ le f.2 g.2) :
    Below le (record fs) (record gs)

namespace Below

variable {le le' : α → α → Prop} {x y z : Shape α}

theorem imp (h : Below le x y) (hle : ∀ a b, le a b → le' a b) : Below le' x y := by
  cases h with
  | base h => exact .base h
  | arrow hp hr => exact .arrow (hle _ _ hp) (hle _ _ hr)
  | tuple h => exact .tuple (h.imp hle)
  | record h =>
    refine .record fun g hg => ?_
    obtain ⟨f, hf, hname, hfg⟩ := h g hg
    exact ⟨f, hf, hname, hle _ _ hfg⟩

theorem refl (hle : ∀ a, le a a) (x : Shape α) : Below le x x := by
  cases x with
  | base b => exact .base b.below_refl
  | arrow p r => exact .arrow (hle p) (hle r)
  | tuple xs => exact .tuple (List.forall₂_same.mpr fun a _ => hle a)
  | record fs => exact .record fun f hf => ⟨f, hf, rfl, hle f.2⟩

theorem trans (hle : ∀ a b c, le a b → le b c → le a c) (h : Below le x y) (h' : Below le y z) :
    Below le x z := by
  cases h with
  | base h =>
    cases h' with
    | base h' => exact .base (BaseTy.below_trans h h')
  | arrow hp hr =>
    cases h' with
    | arrow hp' hr' => exact .arrow (hle _ _ _ hp' hp) (hle _ _ _ hr hr')
  | tuple h =>
    cases h' with
    | tuple h' => exact .tuple (forall₂_trans_of_mem h h' fun a _ b _ c => hle a b c)
  | record h =>
    cases h' with
    | record h' =>
      refine .record fun k hk => ?_
      obtain ⟨g, hg, hname', hgk⟩ := h' k hk
      obtain ⟨f, hf, hname, hfg⟩ := h g hg
      exact ⟨f, hf, hname.trans hname', hle _ _ _ hfg hgk⟩

end Below
end Shape

/-- A preorder with type constructors that are monotone as subtyping is. -/
structure Reading (α : Type u) [Preorder α] where
  build : Shape α → α
  mono : ∀ {x y : Shape α}, x.Distinct → y.Distinct → Shape.Below (· ≤ ·) x y →
    build x ≤ build y

/-- A reading in which the subtyping rules are the only reason for built elements to be
related; elements built by different constructors are not. -/
structure ExactReading (α : Type u) [Preorder α] extends Reading α where
  exact : ∀ {x y : Shape α}, x.Distinct → y.Distinct → build x ≤ build y →
    Shape.Below (· ≤ ·) x y

namespace Reading

variable {α : Type u} [Preorder α] (R : Reading α)

mutual

def read (ρ : Nat → α) : Ty → α
  | .base b => R.build (.base b)
  | .var v => ρ v.id
  | .arrow _ param result => R.build (.arrow (read ρ param) (read ρ result))
  | .tuple _ elems => R.build (.tuple (readElems ρ elems))
  | .record _ fields => R.build (.record (readFields ρ fields))

def readElems (ρ : Nat → α) : List Ty → List α
  | [] => []
  | t :: rest => read ρ t :: readElems ρ rest

def readFields (ρ : Nat → α) : List (String × Ty) → List (String × α)
  | [] => []
  | (name, t) :: rest => (name, read ρ t) :: readFields ρ rest

end

def Satisfies (ρ : Nat → α) (t : BoundTable) : Prop :=
  ∀ v, (∀ l ∈ t.lower v, R.read ρ l ≤ ρ v.id) ∧ ∀ u ∈ t.upper v, ρ v.id ≤ R.read ρ u

variable {R} {ρ ρ' : Nat → α}

theorem readElems_eq (ts : List Ty) : R.readElems ρ ts = ts.map (R.read ρ) := by
  induction ts with
  | nil => rfl
  | cons t ts ih => rw [readElems, ih, List.map_cons]

theorem readFields_eq (fs : List (String × Ty)) :
    R.readFields ρ fs = fs.map fun f => (f.1, R.read ρ f.2) := by
  induction fs with
  | nil => rfl
  | cons f fs ih => rw [readFields, ih, List.map_cons]

theorem read_base (b : BaseTy) : R.read ρ (.base b) = R.build (.base b) := by rw [read]

theorem read_var (v : Var) : R.read ρ (.var v) = ρ v.id := by rw [read]

theorem read_arrow (n : Nat) (p r : Ty) :
    R.read ρ (.arrow n p r) = R.build (.arrow (R.read ρ p) (R.read ρ r)) := by rw [read]

theorem read_tuple (n : Nat) (ts : List Ty) :
    R.read ρ (.tuple n ts) = R.build (.tuple (ts.map (R.read ρ))) := by
  rw [read, readElems_eq]

theorem read_record (n : Nat) (fs : List (String × Ty)) :
    R.read ρ (.record n fs) = R.build (.record (fs.map fun f => (f.1, R.read ρ f.2))) := by
  rw [read, readFields_eq]

theorem distinct_of_names {fs : List (String × Ty)} (h : (Ty.names fs).Nodup) :
    (Shape.record (fs.map fun f => (f.1, R.read ρ f.2))).Distinct := by
  rw [Shape.Distinct, List.map_map]
  exact h

def layer (R : Reading α) (ρ : Nat → α) : Ty → Option (Shape α)
  | .base b => some (.base b)
  | .var _ => none
  | .arrow _ p r => some (.arrow (R.read ρ p) (R.read ρ r))
  | .tuple _ ts => some (.tuple (ts.map (R.read ρ)))
  | .record _ fs => some (.record (fs.map fun f => (f.1, R.read ρ f.2)))

theorem layer_spec {P : Var → Prop} {t : Ty} {x : Shape α} (ht : t.Forall P List.Nodup)
    (h : R.layer ρ t = some x) : R.read ρ t = R.build x ∧ x.Distinct := by
  cases t with
  | var => cases h
  | base b =>
    cases h
    exact ⟨read_base b, trivial⟩
  | arrow n p r =>
    cases h
    exact ⟨read_arrow n p r, trivial⟩
  | tuple n ts =>
    cases h
    exact ⟨read_tuple n ts, trivial⟩
  | record n fs =>
    cases h
    exact ⟨read_record n fs, distinct_of_names ht.1⟩

theorem exists_layer (R : Reading α) (ρ : Nat → α) {t : Ty} (h : t.isVar = false) :
    ∃ x, R.layer ρ t = some x := by
  cases t with
  | var => cases h
  | _ => exact ⟨_, rfl⟩

def LayersBelow (R : Reading α) (ρ : Nat → α) (t u : Ty) : Prop :=
  ∃ x y, R.layer ρ t = some x ∧ R.layer ρ u = some y ∧ Shape.Below (· ≤ ·) x y

theorem LayersBelow.le {P : Var → Prop} {t u : Ty} (h : R.LayersBelow ρ t u)
    (ht : t.Forall P List.Nodup) (hu : u.Forall P List.Nodup) : R.read ρ t ≤ R.read ρ u := by
  obtain ⟨x, y, hx, hy, hxy⟩ := h
  obtain ⟨hx, hdx⟩ := layer_spec ht hx
  obtain ⟨hy, hdy⟩ := layer_spec hu hy
  rw [hx, hy]
  exact R.mono hdx hdy hxy

theorem LayersBelow.trans {t u w : Ty} (h : R.LayersBelow ρ t u) (h' : R.LayersBelow ρ u w) :
    R.LayersBelow ρ t w := by
  obtain ⟨x, y, hx, hy, hxy⟩ := h
  obtain ⟨y', z, hy', hz, hyz⟩ := h'
  obtain rfl := Option.some.inj (hy.symm.trans hy')
  exact ⟨x, z, hx, hz, hxy.trans (fun _ _ _ => le_trans) hyz⟩

theorem Satisfies.le {t : BoundTable} (h : R.Satisfies ρ t) {p : Polarity} {v : Var} {b : Ty}
    (hb : b ∈ t.bounds p v) : p.orient (· ≤ ·) (R.read ρ b) (ρ v.id) := by
  cases p with
  | positive => exact (h v).1 b hb
  | negative => exact (h v).2 b hb

theorem satisfies_iff {t : BoundTable} :
    R.Satisfies ρ t ↔ ∀ p v, ∀ b ∈ t.bounds p v, p.orient (· ≤ ·) (R.read ρ b) (ρ v.id) :=
  ⟨fun h _ _ _ => h.le, fun h v => ⟨h .positive v, h .negative v⟩⟩

theorem le_of_image {rel : Polarity → Var → Var → Prop} {p : Polarity} {P : Var → Prop}
    {t u : Ty} (h : Ty.Image rel p t u) (ht : t.Forall P List.Nodup)
    (hr : ∀ q v w, rel q v w → q.orient (· ≤ ·) (ρ v.id) (ρ' w.id)) :
    p.orient (· ≤ ·) (R.read ρ t) (R.read ρ' u) := by
  induction t generalizing p u with
  | base a =>
    rw [h.base_left, read_base, read_base]
    exact p.orient_le_refl _
  | var v =>
    obtain ⟨w, rfl, hw⟩ := h.var_left
    rw [read_var, read_var]
    exact hr p v w hw
  | arrow m q r ihq ihr =>
    obtain ⟨n, s, t, rfl, hq, hr'⟩ := h.arrow_left
    rw [read_arrow, read_arrow]
    have hq := ihq hq ht.1
    have hr' := ihr hr' ht.2
    cases p with
    | positive => exact R.mono trivial trivial (.arrow hq hr')
    | negative => exact R.mono trivial trivial (.arrow hq hr')
  | tuple m ts ih =>
    obtain ⟨n, us, rfl, hts⟩ := h.tuple_left
    rw [Ty.forall_tuple] at ht
    rw [read_tuple, read_tuple]
    have hts := forall₂_imp_of_mem hts fun t hm u _ htu => ih t hm htu (ht t hm)
    cases p with
    | positive =>
      refine R.mono trivial trivial (.tuple ?_)
      rw [List.forall₂_map_left_iff, List.forall₂_map_right_iff]
      exact hts
    | negative =>
      refine R.mono trivial trivial (.tuple ?_)
      rw [List.forall₂_map_left_iff, List.forall₂_map_right_iff]
      exact List.Forall₂.flip hts
  | record m fs ih =>
    obtain ⟨n, gs, rfl, hfs⟩ := h.record_left
    rw [Ty.forall_record] at ht
    have hg : (Ty.names gs).Nodup := Ty.names_eq_of_forall₂ hfs ▸ ht.1
    rw [read_record, read_record]
    have hfs := forall₂_imp_of_mem hfs fun f hm g _ hfg =>
      And.intro hfg.1 (ih f hm hfg.2 (ht.2 f hm))
    cases p with
    | positive =>
      refine R.mono (distinct_of_names ht.1) (distinct_of_names hg) (.record fun g' hg' => ?_)
      obtain ⟨g, hg, rfl⟩ := List.mem_map.mp hg'
      obtain ⟨f, hf, hfg⟩ := forall₂_exists_left hfs hg
      exact ⟨_, List.mem_map_of_mem hf, hfg⟩
    | negative =>
      refine R.mono (distinct_of_names hg) (distinct_of_names ht.1) (.record fun f' hf' => ?_)
      obtain ⟨f, hf, rfl⟩ := List.mem_map.mp hf'
      obtain ⟨g, hg, hfg⟩ := forall₂_exists_right hfs hf
      exact ⟨_, List.mem_map_of_mem hg, hfg.1.symm, hfg.2⟩

theorem layersBelow_of_image {rel : Polarity → Var → Var → Prop} {P : Var → Prop} {t u : Ty}
    (h : Ty.Image rel .positive t u) (hn : t.isVar = false) (ht : t.Forall P List.Nodup)
    (hr : ∀ q v w, rel q v w → q.orient (· ≤ ·) (ρ v.id) (ρ w.id)) : R.LayersBelow ρ t u := by
  cases t with
  | var => cases hn
  | base a =>
    rw [h.base_left]
    exact ⟨_, _, rfl, rfl, .refl le_refl _⟩
  | arrow m q r =>
    obtain ⟨n, s, t, rfl, hq, hr'⟩ := h.arrow_left
    exact ⟨_, _, rfl, rfl, .arrow (le_of_image hq ht.1 hr) (le_of_image hr' ht.2 hr)⟩
  | tuple m ts =>
    obtain ⟨n, us, rfl, hts⟩ := h.tuple_left
    rw [Ty.forall_tuple] at ht
    refine ⟨_, _, rfl, rfl, .tuple ?_⟩
    rw [List.forall₂_map_left_iff, List.forall₂_map_right_iff]
    exact forall₂_imp_of_mem hts fun t hm u _ htu => le_of_image htu (ht t hm) hr
  | record m fs =>
    obtain ⟨n, gs, rfl, hfs⟩ := h.record_left
    rw [Ty.forall_record] at ht
    refine ⟨_, _, rfl, rfl, .record fun g' hg' => ?_⟩
    obtain ⟨g, hg, rfl⟩ := List.mem_map.mp hg'
    obtain ⟨f, hf, hname, hfg⟩ := forall₂_exists_left hfs hg
    exact ⟨_, List.mem_map_of_mem hf, hname, le_of_image hfg (ht.2 f hf) hr⟩

theorem read_eq_of_image {rel : Polarity → Var → Var → Prop} {p : Polarity} {t u : Ty}
    (h : Ty.Image rel p t u) (hr : ∀ q v w, rel q v w → ρ v.id = ρ' w.id) :
    R.read ρ t = R.read ρ' u := by
  induction t generalizing p u with
  | base a => rw [h.base_left, read_base, read_base]
  | var v =>
    obtain ⟨w, rfl, hw⟩ := h.var_left
    rw [read_var, read_var, hr p v w hw]
  | arrow m q r ihq ihr =>
    obtain ⟨n, s, t, rfl, hq, hr'⟩ := h.arrow_left
    rw [read_arrow, read_arrow, ihq hq, ihr hr']
  | tuple m ts ih =>
    obtain ⟨n, us, rfl, hts⟩ := h.tuple_left
    have heq : ts.map (R.read ρ) = us.map (R.read ρ') := by
      rw [← List.forall₂_eq_eq_eq, List.forall₂_map_left_iff, List.forall₂_map_right_iff]
      exact forall₂_imp_of_mem hts fun t hm u _ htu => ih t hm htu
    rw [read_tuple, read_tuple, heq]
  | record m fs ih =>
    obtain ⟨n, gs, rfl, hfs⟩ := h.record_left
    have heq : (fs.map fun f => (f.1, R.read ρ f.2)) = gs.map fun g => (g.1, R.read ρ' g.2) := by
      rw [← List.forall₂_eq_eq_eq, List.forall₂_map_left_iff, List.forall₂_map_right_iff]
      exact forall₂_imp_of_mem hfs fun f hm g _ hfg => Prod.ext hfg.1 (ih f hm hfg.2)
    rw [read_record, read_record, heq]

theorem read_eq_of_alike {t u : Ty} (h : t.Alike u) : R.read ρ t = R.read ρ u :=
  read_eq_of_image (h .positive) fun _ _ _ hvw => hvw ▸ rfl

theorem layersBelow_of_alike {P : Var → Prop} {t u : Ty} (h : t.Alike u) (hn : t.isVar = false)
    (ht : t.Forall P List.Nodup) : R.LayersBelow ρ t u := by
  refine layersBelow_of_image (h .positive) hn ht fun q v w hvw => ?_
  exact hvw ▸ q.orient_le_refl _

theorem read_congr {P : Var → Prop} {Q : List String → Prop} {t : Ty} (ht : t.Forall P Q)
    (hr : ∀ v, P v → ρ v.id = ρ' v.id) : R.read ρ t = R.read ρ' t := by
  have h : Ty.Image (fun _ v w => v = w ∧ P v) .positive t t :=
    Ty.Image.refl_of_forall ht fun _ _ hv => ⟨rfl, hv⟩
  exact read_eq_of_image h fun _ _ _ h => h.1 ▸ hr _ h.2

end Reading
end Biunify
