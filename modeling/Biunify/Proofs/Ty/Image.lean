import Biunify.Ty.Basic
import Mathlib.Data.List.Forall2

/-! Types by their structure. `Ty.Forall` asks something of every variable and of the
field names of every record. `Ty.Image` compares two types of one structure whose
variables are related at the polarity they occur at; the stamps of the nodes play no
part. Copies, types with equal keys and types read alike are all images of each other. -/

namespace Biunify

theorem forall₂_imp_of_mem {α β : Type} {R S : α → β → Prop} {xs : List α} {ys : List β}
    (h : List.Forall₂ R xs ys) (hi : ∀ x ∈ xs, ∀ y ∈ ys, R x y → S x y) :
    List.Forall₂ S xs ys := by
  induction h with
  | nil => exact .nil
  | cons hxy _ ih =>
    refine .cons (hi _ List.mem_cons_self _ List.mem_cons_self hxy) (ih fun x hx y hy => ?_)
    exact hi x (List.mem_cons_of_mem _ hx) y (List.mem_cons_of_mem _ hy)

theorem forall₂_trans_of_mem {α β γ : Type*} {R : α → β → Prop} {S : β → γ → Prop}
    {T : α → γ → Prop} {xs : List α} {ys : List β} {zs : List γ} (h : List.Forall₂ R xs ys)
    (h' : List.Forall₂ S ys zs) (ht : ∀ x ∈ xs, ∀ y ∈ ys, ∀ z, R x y → S y z → T x z) :
    List.Forall₂ T xs zs := by
  induction h generalizing zs with
  | nil => cases h'; exact .nil
  | cons hxy _ ih =>
    obtain ⟨z, zs, hyz, hrest, rfl⟩ := List.forall₂_cons_left_iff.mp h'
    refine .cons (ht _ List.mem_cons_self _ List.mem_cons_self _ hxy hyz) ?_
    refine ih hrest fun x hx y hy => ?_
    exact ht x (List.mem_cons_of_mem _ hx) y (List.mem_cons_of_mem _ hy)

theorem forall₂_exists_left {α β : Type*} {R : α → β → Prop} {xs : List α} {ys : List β}
    (h : List.Forall₂ R xs ys) {y : β} (hy : y ∈ ys) : ∃ x ∈ xs, R x y := by
  induction h with
  | nil => cases hy
  | cons hxy _ ih =>
    rcases List.mem_cons.mp hy with rfl | hy
    · exact ⟨_, List.mem_cons_self, hxy⟩
    · obtain ⟨x, hx, hr⟩ := ih hy
      exact ⟨x, List.mem_cons_of_mem _ hx, hr⟩

theorem forall₂_exists_right {α β : Type*} {R : α → β → Prop} {xs : List α} {ys : List β}
    (h : List.Forall₂ R xs ys) {x : α} (hx : x ∈ xs) : ∃ y ∈ ys, R x y :=
  forall₂_exists_left (List.Forall₂.flip h) hx

theorem map_eq_of_forall₂ {α β γ : Type*} {R : α → β → Prop} {xs : List α} {ys : List β}
    {f : α → γ} {g : β → γ} (h : List.Forall₂ R xs ys) (hfg : ∀ x ∈ xs, ∀ y, R x y → f x = g y) :
    xs.map f = ys.map g := by
  induction h with
  | nil => rfl
  | cons hxy _ ih =>
    rw [List.map_cons, List.map_cons, hfg _ List.mem_cons_self _ hxy,
      ih fun x hx => hfg x (List.mem_cons_of_mem _ hx)]

namespace Ty

@[elab_as_elim, induction_eliminator]
theorem structural {motive : Ty → Prop} (base : ∀ b, motive (base b))
    (var : ∀ v, motive (var v))
    (arrow : ∀ node param result, motive param → motive result →
      motive (arrow node param result))
    (tuple : ∀ node elems, (∀ t ∈ elems, motive t) → motive (tuple node elems))
    (record : ∀ node fields, (∀ f ∈ fields, motive f.2) → motive (record node fields)) :
    ∀ ty, motive ty
  | .base b => base b
  | .var v => var v
  | .arrow node param result =>
    arrow node param result (structural base var arrow tuple record param)
      (structural base var arrow tuple record result)
  | .tuple node elems =>
    tuple node elems fun t _ => structural base var arrow tuple record t
  | .record node fields =>
    record node fields fun f _ => structural base var arrow tuple record f.2
termination_by ty => sizeOf ty
decreasing_by
  · rw [Ty.arrow.sizeOf_spec]
    omega
  · rw [Ty.arrow.sizeOf_spec]
    omega
  · have := List.sizeOf_lt_of_mem ‹_›
    rw [Ty.tuple.sizeOf_spec]
    omega
  · have := List.sizeOf_lt_of_mem ‹_›
    rcases f with ⟨name, t⟩
    rw [Prod.mk.sizeOf_spec] at this
    rw [Ty.record.sizeOf_spec]
    show sizeOf t < 1 + sizeOf node + sizeOf fields
    omega

def names (fields : List (String × Ty)) : List String := fields.map Prod.fst

mutual

/-- Every variable and the field names of every record are as asked for. -/
def Forall (onVar : Var → Prop) (onNames : List String → Prop) : Ty → Prop
  | base _ => True
  | var v => onVar v
  | arrow _ param result => Forall onVar onNames param ∧ Forall onVar onNames result
  | tuple _ elems => ForallElems onVar onNames elems
  | record _ fields => onNames (names fields) ∧ ForallFields onVar onNames fields

def ForallElems (onVar : Var → Prop) (onNames : List String → Prop) : List Ty → Prop
  | [] => True
  | t :: rest => Forall onVar onNames t ∧ ForallElems onVar onNames rest

def ForallFields (onVar : Var → Prop) (onNames : List String → Prop) :
    List (String × Ty) → Prop
  | [] => True
  | (_, t) :: rest => Forall onVar onNames t ∧ ForallFields onVar onNames rest

end

mutual

/-- The second type has the structure of the first, and at each place of a variable a
variable that is related to it at the polarity of the place. -/
def Image (rel : Polarity → Var → Var → Prop) (p : Polarity) : Ty → Ty → Prop
  | base a, base b => a = b
  | var v, var w => rel p v w
  | arrow _ q r, arrow _ s t => Image rel p.flip q s ∧ Image rel p r t
  | tuple _ ts, tuple _ us => ImageElems rel p ts us
  | record _ fs, record _ gs => ImageFields rel p fs gs
  | _, _ => False

def ImageElems (rel : Polarity → Var → Var → Prop) (p : Polarity) : List Ty → List Ty → Prop
  | [], [] => True
  | t :: ts, u :: us => Image rel p t u ∧ ImageElems rel p ts us
  | _, _ => False

def ImageFields (rel : Polarity → Var → Var → Prop) (p : Polarity) :
    List (String × Ty) → List (String × Ty) → Prop
  | [], [] => True
  | (x, t) :: fs, (y, u) :: gs => (x = y ∧ Image rel p t u) ∧ ImageFields rel p fs gs
  | _, _ => False

end

section Forall

variable {P P' : Var → Prop} {Q Q' : List String → Prop}

@[simp] theorem forall_base (b : BaseTy) : (base b).Forall P Q := trivial

@[simp] theorem forall_var (v : Var) : (var v).Forall P Q ↔ P v := Iff.rfl

@[simp] theorem forall_arrow (n : Nat) (p r : Ty) :
    (arrow n p r).Forall P Q ↔ p.Forall P Q ∧ r.Forall P Q := Iff.rfl

theorem forallElems_iff (ts : List Ty) : ForallElems P Q ts ↔ ∀ t ∈ ts, t.Forall P Q := by
  induction ts with
  | nil => simp [ForallElems]
  | cons t rest ih => simp [ForallElems, ih]

theorem forallFields_iff (fs : List (String × Ty)) :
    ForallFields P Q fs ↔ ∀ f ∈ fs, f.2.Forall P Q := by
  induction fs with
  | nil => simp [ForallFields]
  | cons f rest ih => simp [ForallFields, ih]

@[simp] theorem forall_tuple (n : Nat) (ts : List Ty) :
    (tuple n ts).Forall P Q ↔ ∀ t ∈ ts, t.Forall P Q := forallElems_iff ts

@[simp] theorem forall_record (n : Nat) (fs : List (String × Ty)) :
    (record n fs).Forall P Q ↔ Q (names fs) ∧ ∀ f ∈ fs, f.2.Forall P Q :=
  and_congr_right fun _ => forallFields_iff fs

theorem Forall.imp {ty : Ty} (h : ty.Forall P Q) (hv : ∀ v, P v → P' v)
    (hn : ∀ ns, Q ns → Q' ns) : ty.Forall P' Q' := by
  induction ty with
  | base b => trivial
  | var v => exact hv v h
  | arrow n p r ihp ihr => exact ⟨ihp h.1, ihr h.2⟩
  | tuple n ts ih =>
    rw [forall_tuple] at h ⊢
    exact fun t ht => ih t ht (h t ht)
  | record n fs ih =>
    rw [forall_record] at h ⊢
    exact ⟨hn _ h.1, fun f hf => ih f hf (h.2 f hf)⟩

theorem Forall.and {ty : Ty} (h : ty.Forall P Q) (h' : ty.Forall P' Q') :
    ty.Forall (fun v => P v ∧ P' v) Q := by
  induction ty with
  | base b => trivial
  | var v => exact ⟨h, h'⟩
  | arrow n p r ihp ihr => exact ⟨ihp h.1 h'.1, ihr h.2 h'.2⟩
  | tuple n ts ih =>
    rw [forall_tuple] at h h' ⊢
    exact fun t ht => ih t ht (h t ht) (h' t ht)
  | record n fs ih =>
    rw [forall_record] at h h' ⊢
    exact ⟨h.1, fun f hf => ih f hf (h.2 f hf) (h'.2 f hf)⟩

end Forall

section Image

variable {rel rel' : Polarity → Var → Var → Prop} {p : Polarity}

@[simp] theorem image_base (a b : BaseTy) : Image rel p (base a) (base b) ↔ a = b := Iff.rfl

@[simp] theorem image_var (v w : Var) : Image rel p (var v) (var w) ↔ rel p v w := Iff.rfl

@[simp] theorem image_arrow (m n : Nat) (q r s t : Ty) :
    Image rel p (arrow m q r) (arrow n s t) ↔ Image rel p.flip q s ∧ Image rel p r t := Iff.rfl

theorem imageElems_iff (ts us : List Ty) :
    ImageElems rel p ts us ↔ List.Forall₂ (Image rel p) ts us := by
  induction ts generalizing us with
  | nil => cases us <;> simp [ImageElems]
  | cons t ts ih => cases us <;> simp [ImageElems, ih]

theorem imageFields_iff (fs gs : List (String × Ty)) :
    ImageFields rel p fs gs ↔
      List.Forall₂ (fun f g => f.1 = g.1 ∧ Image rel p f.2 g.2) fs gs := by
  induction fs generalizing gs with
  | nil => cases gs <;> simp [ImageFields]
  | cons f fs ih => cases gs <;> simp [ImageFields, ih]

@[simp] theorem image_tuple (m n : Nat) (ts us : List Ty) :
    Image rel p (tuple m ts) (tuple n us) ↔ List.Forall₂ (Image rel p) ts us :=
  imageElems_iff ts us

@[simp] theorem image_record (m n : Nat) (fs gs : List (String × Ty)) :
    Image rel p (record m fs) (record n gs) ↔
      List.Forall₂ (fun f g => f.1 = g.1 ∧ Image rel p f.2 g.2) fs gs :=
  imageFields_iff fs gs

theorem Image.base_left {a : BaseTy} {u : Ty} (h : Image rel p (base a) u) : u = base a := by
  cases u <;> simp_all [Image]

theorem Image.var_left {v : Var} {u : Ty} (h : Image rel p (var v) u) :
    ∃ w, u = var w ∧ rel p v w := by
  cases u <;> simp_all [Image]

theorem Image.arrow_left {m : Nat} {q r u : Ty} (h : Image rel p (arrow m q r) u) :
    ∃ n s t, u = arrow n s t ∧ Image rel p.flip q s ∧ Image rel p r t := by
  cases u <;> simp_all [Image]

theorem Image.tuple_left {m : Nat} {ts : List Ty} {u : Ty} (h : Image rel p (tuple m ts) u) :
    ∃ n us, u = tuple n us ∧ List.Forall₂ (Image rel p) ts us := by
  cases u with
  | tuple n us => exact ⟨n, us, rfl, (image_tuple m n ts us).mp h⟩
  | _ => simp [Image] at h

theorem Image.record_left {m : Nat} {fs : List (String × Ty)} {u : Ty}
    (h : Image rel p (record m fs) u) :
    ∃ n gs, u = record n gs ∧
      List.Forall₂ (fun f g => f.1 = g.1 ∧ Image rel p f.2 g.2) fs gs := by
  cases u with
  | record n gs => exact ⟨n, gs, rfl, (image_record m n fs gs).mp h⟩
  | _ => simp [Image] at h

theorem Image.isVar_eq {t u : Ty} (h : Image rel p t u) : t.isVar = u.isVar := by
  cases t <;> cases u <;> first | rfl | exact h.elim

theorem names_eq_of_forall₂ {R : Ty → Ty → Prop} {fs gs : List (String × Ty)}
    (h : List.Forall₂ (fun f g => f.1 = g.1 ∧ R f.2 g.2) fs gs) : names fs = names gs :=
  map_eq_of_forall₂ h fun _ _ _ => And.left

theorem Image.imp_of_forall {P P' : Var → Prop} {Q Q' : List String → Prop} {t u : Ty}
    (h : Image rel p t u) (ht : t.Forall P Q) (hu : u.Forall P' Q')
    (hr : ∀ q v w, P v → P' w → rel q v w → rel' q v w) : Image rel' p t u := by
  induction t generalizing p u with
  | base a => rw [h.base_left, image_base]
  | var v =>
    obtain ⟨w, rfl, hw⟩ := h.var_left
    exact hr p v w ht hu hw
  | arrow m q r ihq ihr =>
    obtain ⟨n, s, t, rfl, hq, hr⟩ := h.arrow_left
    exact ⟨ihq hq ht.1 hu.1, ihr hr ht.2 hu.2⟩
  | tuple m ts ih =>
    obtain ⟨n, us, rfl, hts⟩ := h.tuple_left
    rw [forall_tuple] at ht hu
    rw [image_tuple]
    exact forall₂_imp_of_mem hts fun t hm u hn htu => ih t hm htu (ht t hm) (hu u hn)
  | record m fs ih =>
    obtain ⟨n, gs, rfl, hfs⟩ := h.record_left
    rw [forall_record] at ht hu
    rw [image_record]
    exact forall₂_imp_of_mem hfs fun f hm g hn hfg =>
      ⟨hfg.1, ih f hm hfg.2 (ht.2 f hm) (hu.2 g hn)⟩

theorem forall_trivial (t : Ty) : t.Forall (fun _ => True) (fun _ => True) := by
  induction t with
  | base | var => trivial
  | arrow n p r ihp ihr => exact ⟨ihp, ihr⟩
  | tuple n ts ih => exact (forall_tuple n ts).mpr ih
  | record n fs ih => exact (forall_record n fs).mpr ⟨trivial, ih⟩

theorem Image.imp {t u : Ty} (h : Image rel p t u)
    (hr : ∀ q v w, rel q v w → rel' q v w) : Image rel' p t u :=
  h.imp_of_forall (forall_trivial t) (forall_trivial u) fun q v w _ _ => hr q v w

theorem Image.refl_of_forall {P : Var → Prop} {Q : List String → Prop} {t : Ty}
    (h : t.Forall P Q) (hr : ∀ q v, P v → rel q v v) : Image rel p t t := by
  induction t generalizing p with
  | base a => exact (image_base a a).mpr rfl
  | var v => exact hr p v h
  | arrow n q r ihq ihr => exact ⟨ihq h.1, ihr h.2⟩
  | tuple n ts ih =>
    rw [forall_tuple] at h
    rw [image_tuple, List.forall₂_same]
    exact fun t ht => ih t ht (h t ht)
  | record n fs ih =>
    rw [forall_record] at h
    rw [image_record, List.forall₂_same]
    exact fun f hf => ⟨rfl, ih f hf (h.2 f hf)⟩

theorem Image.repolarize {rel : Var → Var → Prop} {t u : Ty} (h : Image (fun _ => rel) p t u)
    (q : Polarity) : Image (fun _ => rel) q t u := by
  induction t generalizing p q u with
  | base a => rw [h.base_left, image_base]
  | var v =>
    obtain ⟨w, rfl, hw⟩ := h.var_left
    exact hw
  | arrow m a b iha ihb =>
    obtain ⟨n, c, d, rfl, ha, hb⟩ := h.arrow_left
    exact ⟨iha ha q.flip, ihb hb q⟩
  | tuple m ts ih =>
    obtain ⟨n, us, rfl, hts⟩ := h.tuple_left
    rw [image_tuple]
    exact forall₂_imp_of_mem hts fun t ht u _ htu => ih t ht htu q
  | record m fs ih =>
    obtain ⟨n, gs, rfl, hfs⟩ := h.record_left
    rw [image_record]
    exact forall₂_imp_of_mem hfs fun f hf g _ hfg => ⟨hfg.1, ih f hf hfg.2 q⟩

theorem Image.symm {t u : Ty} (h : Image rel p t u)
    (hr : ∀ q v w, rel q v w → rel' q w v) : Image rel' p u t := by
  induction t generalizing p u with
  | base a => rw [h.base_left, image_base]
  | var v =>
    obtain ⟨w, rfl, hw⟩ := h.var_left
    exact hr p v w hw
  | arrow m q r ihq ihr =>
    obtain ⟨n, s, t, rfl, hq, hr⟩ := h.arrow_left
    exact ⟨ihq hq, ihr hr⟩
  | tuple m ts ih =>
    obtain ⟨n, us, rfl, hts⟩ := h.tuple_left
    rw [image_tuple]
    exact List.Forall₂.flip (forall₂_imp_of_mem hts fun t ht u _ htu => ih t ht htu)
  | record m fs ih =>
    obtain ⟨n, gs, rfl, hfs⟩ := h.record_left
    rw [image_record]
    exact List.Forall₂.flip
      (forall₂_imp_of_mem hfs fun f hf g _ hfg => ⟨hfg.1.symm, ih f hf hfg.2⟩)

theorem Image.comp {rel'' : Polarity → Var → Var → Prop} {t u w : Ty} (h : Image rel p t u)
    (h' : Image rel' p u w) (hr : ∀ q x y z, rel q x y → rel' q y z → rel'' q x z) :
    Image rel'' p t w := by
  induction t generalizing p u w with
  | base a =>
    rw [h.base_left] at h'
    rw [h'.base_left, image_base]
  | var v =>
    obtain ⟨x, rfl, hx⟩ := h.var_left
    obtain ⟨y, rfl, hy⟩ := h'.var_left
    exact hr p v x y hx hy
  | arrow m q r ihq ihr =>
    obtain ⟨_, _, _, rfl, hq, hr⟩ := h.arrow_left
    obtain ⟨_, _, _, rfl, hq', hr'⟩ := h'.arrow_left
    exact ⟨ihq hq hq', ihr hr hr'⟩
  | tuple m ts ih =>
    obtain ⟨_, us, rfl, hts⟩ := h.tuple_left
    obtain ⟨_, ws, rfl, hus⟩ := h'.tuple_left
    rw [image_tuple]
    exact forall₂_trans_of_mem hts hus fun t ht u _ w htu huw => ih t ht htu huw
  | record m fs ih =>
    obtain ⟨_, gs, rfl, hfs⟩ := h.record_left
    obtain ⟨_, ks, rfl, hgs⟩ := h'.record_left
    rw [image_record]
    exact forall₂_trans_of_mem hfs hgs fun f hf g _ k hfg hgk =>
      ⟨hfg.1.trans hgk.1, ih f hf hfg.2 hgk.2⟩

theorem Image.forall_right {P P' : Var → Prop} {Q : List String → Prop} {t u : Ty}
    (h : Image rel p t u) (ht : t.Forall P Q) (hr : ∀ q v w, P v → rel q v w → P' w) :
    u.Forall P' Q := by
  induction t generalizing p u with
  | base a => rw [h.base_left]; trivial
  | var v =>
    obtain ⟨w, rfl, hw⟩ := h.var_left
    exact hr p v w ht hw
  | arrow m q r ihq ihr =>
    obtain ⟨_, _, _, rfl, hq, hr⟩ := h.arrow_left
    exact ⟨ihq hq ht.1, ihr hr ht.2⟩
  | tuple m ts ih =>
    obtain ⟨_, us, rfl, hts⟩ := h.tuple_left
    rw [forall_tuple] at ht ⊢
    intro u hu
    obtain ⟨t, hm, htu⟩ := forall₂_exists_left hts hu
    exact ih t hm htu (ht t hm)
  | record m fs ih =>
    obtain ⟨_, gs, rfl, hfs⟩ := h.record_left
    rw [forall_record] at ht ⊢
    refine ⟨names_eq_of_forall₂ hfs ▸ ht.1, fun g hg => ?_⟩
    obtain ⟨f, hm, hfg⟩ := forall₂_exists_left hfs hg
    exact ih f hm hfg.2 (ht.2 f hm)

end Image

section Level

theorem levelElems_le_iff (ts : List Ty) (k : Nat) :
    levelElems ts ≤ k ↔ ∀ t ∈ ts, t.level ≤ k := by
  induction ts with
  | nil => simp [levelElems]
  | cons t ts ih => rw [levelElems, Nat.max_le, ih, List.forall_mem_cons]

theorem levelFields_le_iff (fs : List (String × Ty)) (k : Nat) :
    levelFields fs ≤ k ↔ ∀ f ∈ fs, f.2.level ≤ k := by
  induction fs with
  | nil => simp [levelFields]
  | cons f fs ih => rw [levelFields, Nat.max_le, ih, List.forall_mem_cons]

theorem level_le_iff (t : Ty) (k : Nat) :
    t.level ≤ k ↔ t.Forall (fun v => v.level ≤ k) (fun _ => True) := by
  induction t with
  | base b => simp [level]
  | var v => simp [level]
  | arrow n p r ihp ihr => rw [level, Nat.max_le, ihp, ihr, forall_arrow]
  | tuple n ts ih =>
    rw [level, levelElems_le_iff, forall_tuple]
    exact forall₂_congr ih
  | record n fs ih =>
    rw [level, levelFields_le_iff, forall_record, true_and]
    exact forall₂_congr ih

theorem Image.level_le {rel : Polarity → Var → Var → Prop} {p : Polarity} {t u : Ty} {k : Nat}
    (h : Image rel p t u) (hr : ∀ q v w, rel q v w → w.level ≤ k) : u.level ≤ k :=
  (level_le_iff u k).mpr (h.forall_right (forall_trivial t) fun q v w _ => hr q v w)

end Level

def Alike (t u : Ty) : Prop := ∀ p, Image (fun _ v w => v = w) p t u

theorem Alike.refl (t : Ty) : t.Alike t :=
  fun _ => Image.refl_of_forall (forall_trivial t) fun _ _ _ => rfl

theorem Alike.level_le {t u : Ty} {k : Nat} (h : t.Alike u) (ht : t.level ≤ k) : u.level ≤ k :=
  (level_le_iff u k).mpr
    ((h .positive).forall_right ((level_le_iff t k).mp ht) fun _ _ _ hv hvw => hvw ▸ hv)

theorem Alike.image {rel : Polarity → Var → Var → Prop} {p : Polarity} {t u w : Ty}
    (h : t.Alike u) (h' : Image rel p u w) : Image rel p t w :=
  (h p).comp h' fun _ _ _ _ hxy hyz => hxy ▸ hyz

end Ty
end Biunify
