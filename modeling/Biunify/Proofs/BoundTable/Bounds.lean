import Biunify.BoundTable
import Biunify.Proofs.Ty.Image

/-! What the writers of a table do to the bounds that can be read from it, and the two
conditions that every session keeps: bounds speak of variables of the table, and no bound
lies deeper than its variable. -/

namespace Biunify

/-- A bound on the positive side stands below its variable, one on the negative side above:
`p.orient f b x` is `f` of the lower and the upper one. -/
def Polarity.orient {α β : Type*} (p : Polarity) (f : α → α → β) (b x : α) : β :=
  match p with
  | .positive => f b x
  | .negative => f x b

theorem Polarity.orient_flip {α β : Type*} (p : Polarity) (f : α → α → β) (b x : α) :
    p.flip.orient f b x = p.orient f x b := by
  cases p <;> rfl

namespace VarEntry

def side (e : VarEntry) : Polarity → List Ty
  | .positive => e.lower
  | .negative => e.upper

end VarEntry

namespace BoundTable

def Owns (t : BoundTable) (v : Var) : Prop := t.entries[v.id]?.map VarEntry.level = some v.level

theorem Owns.lt_size {t : BoundTable} {v : Var} (h : t.Owns v) : v.id < t.size := by
  obtain ⟨e, he, -⟩ := Option.map_eq_some_iff.mp h
  exact (Array.getElem?_eq_some_iff.mp he).1

theorem Owns.eq {t : BoundTable} {v w : Var} (hv : t.Owns v) (hw : t.Owns w)
    (h : v.id = w.id) : v = w := by
  have hl : some v.level = some w.level := by rw [← hv, ← hw, h]
  cases v
  cases w
  simp_all

theorem exists_owns {t : BoundTable} {i : Nat} (h : i < t.size) : ∃ v, t.Owns v ∧ v.id = i :=
  ⟨⟨i, t.entries[i].level⟩, by simp [Owns, Array.getElem?_eq_getElem h], rfl⟩

theorem bounds_eq (t : BoundTable) (p : Polarity) (v : Var) :
    t.bounds p v = (t.entries[v.id]?.map (·.side p)).getD [] := by
  have he : t.entry v = t.entries[v.id]?.getD { level := v.level } := by
    simp [entry]
  cases p <;> simp only [bounds, lower, upper, he] <;> cases t.entries[v.id]? <;> rfl

theorem bounds_congr (t : BoundTable) (p : Polarity) {v w : Var} (h : v.id = w.id) :
    t.bounds p v = t.bounds p w := by
  rw [bounds_eq, bounds_eq, h]

theorem lt_size_of_mem_bounds {t : BoundTable} {p : Polarity} {v : Var} {b : Ty}
    (h : b ∈ t.bounds p v) : v.id < t.size := by
  rw [bounds_eq] at h
  cases he : t.entries[v.id]? with
  | none => simp [he] at h
  | some e => exact (Array.getElem?_eq_some_iff.mp he).1

theorem bounds_of_size_le {t : BoundTable} {v : Var} (h : t.size ≤ v.id) (p : Polarity) :
    t.bounds p v = [] :=
  List.eq_nil_iff_forall_not_mem.mpr fun _ hb =>
    absurd (lt_size_of_mem_bounds hb) (Nat.not_lt.mpr h)

theorem notMem_bounds_empty (p : Polarity) (v : Var) (b : Ty) : b ∉ empty.bounds p v :=
  fun hb => Nat.not_lt_zero _ (lt_size_of_mem_bounds hb)

@[simp] theorem owns_addVar (t : BoundTable) (level : Nat) (v : Var) :
    (t.addVar level).Owns v ↔ t.Owns v ∨ v = t.nextVar level := by
  rcases v with ⟨i, l⟩
  simp only [Owns, addVar, nextVar, size, Array.getElem?_push, Var.mk.injEq]
  split
  case isTrue h => subst h; simp [eq_comm]
  case isFalse h => simp [h]

@[simp] theorem bounds_addVar (t : BoundTable) (level : Nat) (p : Polarity) (v : Var) :
    (t.addVar level).bounds p v = t.bounds p v := by
  rw [bounds_eq, bounds_eq, addVar, Array.getElem?_push]
  split
  case isTrue h =>
    rw [h, Array.getElem?_eq_none (Nat.le_refl _)]
    cases p <;> rfl
  case isFalse => rfl

@[simp] theorem owns_addBound (t : BoundTable) (p : Polarity) (w : Var) (b : Ty) (v : Var) :
    (t.addBound p w b).Owns v ↔ t.Owns v := by
  simp only [Owns, addBound, Array.getElem?_modify]
  split <;> cases t.entries[v.id]? <;> cases p <;> simp

@[simp] theorem owns_setBounds (t : BoundTable) (p : Polarity) (w : Var) (bs : List Ty)
    (v : Var) : (t.setBounds p w bs).Owns v ↔ t.Owns v := by
  simp only [Owns, setBounds, Array.getElem?_modify]
  split <;> cases t.entries[v.id]? <;> cases p <;> simp

theorem bounds_addBound {t : BoundTable} {w : Var} (hw : t.Owns w) (p q : Polarity) (b : Ty)
    (v : Var) : (t.addBound q w b).bounds p v =
      if v.id = w.id ∧ p = q then b :: t.bounds p v else t.bounds p v := by
  rw [bounds_eq, bounds_eq, addBound, Array.getElem?_modify]
  obtain ⟨e, he, -⟩ := Option.map_eq_some_iff.mp hw
  by_cases h : v.id = w.id
  · rw [h, he]
    cases p <;> cases q <;> simp [VarEntry.side]
  · simp [h, Ne.symm h]

theorem bounds_setBounds {t : BoundTable} {w : Var} (hw : t.Owns w) (p q : Polarity)
    (bs : List Ty) (v : Var) : (t.setBounds q w bs).bounds p v =
      if v.id = w.id ∧ p = q then bs else t.bounds p v := by
  rw [bounds_eq, bounds_eq, setBounds, Array.getElem?_modify]
  obtain ⟨e, he, -⟩ := Option.map_eq_some_iff.mp hw
  by_cases h : v.id = w.id
  · rw [h, he]
    cases p <;> cases q <;> simp [VarEntry.side]
  · simp [h, Ne.symm h]

/-- Every bound speaks of variables of the table, and its records have field names as asked. -/
def Scoped (t : BoundTable) (names : List String → Prop) : Prop :=
  ∀ p v, ∀ b ∈ t.bounds p v, b.Forall t.Owns names

theorem Scoped.imp {t : BoundTable} {names names' : List String → Prop} (h : t.Scoped names)
    (hi : ∀ ns, names ns → names' ns) : t.Scoped names' :=
  fun p v b hb => (h p v b hb).imp (fun _ => id) hi

def Leveled (t : BoundTable) : Prop := ∀ p v, t.Owns v → ∀ b ∈ t.bounds p v, b.level ≤ v.level

/-- The second table has the variables of the first, each with the bounds it had behind
newer ones. -/
structure Extends (t t' : BoundTable) : Prop where
  owns : ∀ {v}, t.Owns v → t'.Owns v
  suffix : ∀ p v, t.bounds p v <:+ t'.bounds p v

namespace Extends

theorem refl (t : BoundTable) : Extends t t := ⟨id, fun _ _ => List.suffix_refl _⟩

theorem trans {t t' t'' : BoundTable} (h : Extends t t') (h' : Extends t' t'') :
    Extends t t'' :=
  ⟨h'.owns ∘ h.owns, fun p v => (h.suffix p v).trans (h'.suffix p v)⟩

theorem mem {t t' : BoundTable} (h : Extends t t') {p : Polarity} {v : Var} {b : Ty}
    (hb : b ∈ t.bounds p v) : b ∈ t'.bounds p v := (h.suffix p v).subset hb

theorem size_le {t t' : BoundTable} (h : Extends t t') : t.size ≤ t'.size := by
  by_contra hlt
  obtain ⟨v, hv, hid⟩ := exists_owns (Nat.lt_of_not_le hlt)
  exact absurd (h.owns hv).lt_size (Nat.not_lt.mpr (Nat.le_of_eq hid.symm))

theorem addVar (t : BoundTable) (level : Nat) : Extends t (t.addVar level) :=
  ⟨fun hv => (owns_addVar t level _).mpr (.inl hv),
    fun p v => (bounds_addVar t level p v).symm ▸ List.suffix_refl _⟩

theorem addBound {t : BoundTable} {w : Var} (hw : t.Owns w) (p : Polarity) (b : Ty) :
    Extends t (t.addBound p w b) := by
  refine ⟨(owns_addBound t p w b _).mpr, fun q v => ?_⟩
  rw [bounds_addBound hw]
  split
  · exact List.suffix_cons _ _
  · exact List.suffix_refl _

end Extends

theorem scoped_empty (names : List String → Prop) : empty.Scoped names :=
  fun p v b hb => absurd hb (notMem_bounds_empty p v b)

theorem leveled_empty : empty.Leveled :=
  fun p v _ b hb => absurd hb (notMem_bounds_empty p v b)

theorem Scoped.addVar {t : BoundTable} {names : List String → Prop} (h : t.Scoped names)
    (level : Nat) : (t.addVar level).Scoped names := by
  intro p v b hb
  rw [bounds_addVar] at hb
  exact (h p v b hb).imp (fun _ => (Extends.addVar t level).owns) fun _ => id

theorem Scoped.addBound {t : BoundTable} {names : List String → Prop} (h : t.Scoped names)
    {w : Var} (hw : t.Owns w) {b : Ty} (hb : b.Forall t.Owns names) (p : Polarity) :
    (t.addBound p w b).Scoped names := by
  intro q v c hc
  have ho : ∀ x, t.Owns x → (t.addBound p w b).Owns x := fun x => (owns_addBound t p w b x).mpr
  rw [bounds_addBound hw] at hc
  split at hc
  case isTrue =>
    rcases List.mem_cons.mp hc with rfl | hc
    · exact hb.imp ho fun _ => id
    · exact (h q v c hc).imp ho fun _ => id
  case isFalse => exact (h q v c hc).imp ho fun _ => id

theorem Leveled.addVar {t : BoundTable} (h : t.Leveled) (level : Nat) :
    (t.addVar level).Leveled := by
  intro p v hv b hb
  rw [bounds_addVar] at hb
  rcases (owns_addVar t level v).mp hv with hv | rfl
  · exact h p v hv b hb
  · exact absurd (lt_size_of_mem_bounds hb) (Nat.lt_irrefl _)

theorem Leveled.addBound {t : BoundTable} (h : t.Leveled) {w : Var} (hw : t.Owns w) {b : Ty}
    (hb : b.level ≤ w.level) (p : Polarity) : (t.addBound p w b).Leveled := by
  intro q v hv c hc
  replace hv := (owns_addBound t p w b v).mp hv
  rw [bounds_addBound hw] at hc
  split at hc
  case isTrue hid =>
    rcases List.mem_cons.mp hc with rfl | hc
    · rw [hv.eq hw hid.1]
      exact hb
    · exact h q v hv c hc
  case isFalse => exact h q v hv c hc

def BoundsMeet (rel : Ty → Ty → Prop) (t : BoundTable) : Prop :=
  ∀ v, ∀ l ∈ t.lower v, ∀ u ∈ t.upper v, rel l u

theorem boundsMeet_iff {rel : Ty → Ty → Prop} {t : BoundTable} (p : Polarity) :
    t.BoundsMeet rel ↔ ∀ v, ∀ b ∈ t.bounds p v, ∀ x ∈ t.bounds p.flip v, p.orient rel b x := by
  cases p with
  | positive => exact Iff.rfl
  | negative => exact ⟨fun h v b hb x hx => h v x hx b hb, fun h v l hl u hu => h v u hu l hl⟩

theorem BoundsMeet.addBound {rel : Ty → Ty → Prop} {t : BoundTable} (h : t.BoundsMeet rel)
    {p : Polarity} {v : Var} (hv : t.Owns v) {b : Ty}
    (hb : ∀ x ∈ t.bounds p.flip v, p.orient rel b x) : (t.addBound p v b).BoundsMeet rel := by
  rw [boundsMeet_iff p] at h ⊢
  intro w c hc x hx
  rw [bounds_addBound hv, if_neg fun h => p.flip_ne h.2] at hx
  rw [bounds_addBound hv] at hc
  split at hc
  case isTrue hid =>
    rcases List.mem_cons.mp hc with rfl | hc
    · exact hb x (t.bounds_congr p.flip hid.1 ▸ hx)
    · exact h w c hc x hx
  case isFalse => exact h w c hc x hx

def AddsVars (t t' : BoundTable) : Prop := ∃ levels : List Nat, t' = levels.foldl addVar t

namespace AddsVars

theorem refl (t : BoundTable) : AddsVars t t := ⟨[], rfl⟩

theorem trans {t t' t'' : BoundTable} (h : AddsVars t t') (h' : AddsVars t' t'') :
    AddsVars t t'' := by
  obtain ⟨ls, rfl⟩ := h
  obtain ⟨ls', rfl⟩ := h'
  exact ⟨ls ++ ls', (List.foldl_append ..).symm⟩

theorem addVar (t : BoundTable) (level : Nat) : AddsVars t (t.addVar level) := ⟨[level], rfl⟩

theorem keeps {P : BoundTable → Prop} (step : ∀ t level, P t → P (t.addVar level))
    {t t' : BoundTable} (h : AddsVars t t') (ht : P t) : P t' := by
  obtain ⟨ls, rfl⟩ := h
  induction ls generalizing t with
  | nil => exact ht
  | cons l ls ih => exact ih (step t l ht)

theorem size_le {t t' : BoundTable} (h : AddsVars t t') : t.size ≤ t'.size :=
  h.keeps (P := fun t' => t.size ≤ t'.size)
    (fun _ _ ht' => Nat.le_trans ht' (by simp [BoundTable.addVar, size])) (Nat.le_refl _)

theorem bounds_eq {t t' : BoundTable} (h : AddsVars t t') (p : Polarity) (v : Var) :
    t'.bounds p v = t.bounds p v := by
  refine h.keeps (P := fun t' => t'.bounds p v = t.bounds p v) (fun t' level ht' => ?_) rfl
  rw [bounds_addVar, ht']

end AddsVars
end BoundTable

structure BoundTable.Sound (t : BoundTable) : Prop where
  inScope : t.Scoped fun _ => True
  leveled : t.Leveled

theorem BoundTable.Sound.addVar {t : BoundTable} (h : t.Sound) (level : Nat) :
    (t.addVar level).Sound :=
  ⟨h.inScope.addVar level, h.leveled.addVar level⟩

abbrev Ty.InScope (ty : Ty) (t : BoundTable) : Prop := ty.Forall t.Owns fun _ => True

theorem BoundTable.Sound.addBound {t : BoundTable} (h : t.Sound) {w : Var} (hw : t.Owns w) {b : Ty}
    (hb : b.InScope t) (hle : b.level ≤ w.level) (p : Polarity) : (t.addBound p w b).Sound :=
  ⟨h.inScope.addBound hw hb p, h.leveled.addBound hw hle p⟩

theorem BoundTable.Extends.inScope {t t' : BoundTable} (h : t.Extends t') {ty : Ty}
    (hty : ty.InScope t) : ty.InScope t' :=
  hty.imp (fun _ => h.owns) fun _ => id

end Biunify
