import Biunify.Proofs.Relate.Derivation

/-! What a lower and an upper bound of one variable owe each other. Two structures must fit
at their heads. A structure and a variable are matched by a bound of that variable of the
same shape. Two variables are linked by an edge, or by two edges that lead up and then
down again. -/

namespace Biunify
namespace Ty

def SameShape (t u : Ty) : Prop := Image (fun _ _ _ => True) .positive t u

theorem Image.sameShape {rel : Polarity → Var → Var → Prop} {p : Polarity} {t u : Ty}
    (h : Image rel p t u) : t.SameShape u :=
  (h.imp fun _ _ _ _ => trivial).repolarize .positive

theorem SameShape.refl (t : Ty) : t.SameShape t := ((Alike.refl t) .positive).sameShape

theorem SameShape.symm {t u : Ty} (h : t.SameShape u) : u.SameShape t :=
  Image.symm h fun _ _ _ _ => trivial

theorem SameShape.trans {t u w : Ty} (h : t.SameShape u) (h' : u.SameShape w) : t.SameShape w :=
  Image.comp h h' fun _ _ _ _ _ _ => trivial

/-- A value of the first type fits where one of the second is expected, as far as the
outermost constructors tell. -/
def Compatible : Ty → Ty → Prop
  | .base a, .base b => a.below b = true
  | .arrow .., .arrow .. => True
  | .tuple _ ts, .tuple _ us => ts.length = us.length
  | .record _ fs, .record _ gs => ∀ name ∈ names gs, name ∈ names fs
  | _, _ => False

theorem Compatible.congr {a a' b b' : Ty} (h : a.Compatible b) (ha : a.SameShape a')
    (hb : b.SameShape b') : a'.Compatible b' := by
  cases a <;> cases b <;> try (exact h.elim)
  case base.base =>
    rw [ha.base_left, hb.base_left]
    exact h
  case arrow.arrow =>
    obtain ⟨_, _, _, rfl, -⟩ := ha.arrow_left
    obtain ⟨_, _, _, rfl, -⟩ := hb.arrow_left
    trivial
  case tuple.tuple =>
    obtain ⟨_, ts, rfl, hts⟩ := ha.tuple_left
    obtain ⟨_, us, rfl, hus⟩ := hb.tuple_left
    exact hts.length_eq.symm.trans (h.trans hus.length_eq)
  case record.record =>
    obtain ⟨_, fs, rfl, hfs⟩ := ha.record_left
    obtain ⟨_, gs, rfl, hgs⟩ := hb.record_left
    rw [Compatible, ← names_eq_of_forall₂ hfs, ← names_eq_of_forall₂ hgs]
    exact h

theorem Compatible.refl {t : Ty} (h : t.isVar = false) : t.Compatible t := by
  cases t with
  | base b => exact b.below_refl
  | var => cases h
  | arrow => trivial
  | tuple => exact rfl
  | record => exact fun _ => id

end Ty

namespace BoundTable

def Linked (t : BoundTable) (x y : Var) : Prop :=
  x = y ∨ .var y ∈ t.upper x ∨ .var x ∈ t.lower y ∨ ∃ z, .var z ∈ t.upper x ∧ .var z ∈ t.lower y

/-- What holds between a lower bound and an upper bound of one variable. -/
def Joined (t : BoundTable) : Ty → Ty → Prop
  | .var x, .var y => t.Linked x y
  | .var x, u => ∃ b ∈ t.upper x, b.SameShape u
  | l, .var y => ∃ b ∈ t.lower y, b.SameShape l
  | l, u => l.Compatible u

variable {t t' : BoundTable}

theorem joined_of_not_isVar {l u : Ty} (hl : l.isVar = false) (hu : u.isVar = false) :
    t.Joined l u ↔ l.Compatible u := by
  cases l <;> cases u <;> first | exact Iff.rfl | (cases hl; done) | cases hu

theorem orient_joined_var (p : Polarity) {b : Ty} (hb : b.isVar = false) (x : Var) :
    p.orient t.Joined b (.var x) ↔ ∃ b' ∈ t.bounds p x, b'.SameShape b := by
  cases p <;> cases b <;> first | exact Iff.rfl | cases hb

theorem orient_joined_vars (p : Polarity) (y x : Var) :
    p.orient t.Joined (.var y) (.var x) ↔ y = x ∨ .var y ∈ t.bounds p x ∨
      .var x ∈ t.bounds p.flip y ∨ ∃ z, .var z ∈ t.bounds p x ∧ .var z ∈ t.bounds p.flip y := by
  cases p with
  | positive =>
    refine or_congr_right (Iff.trans (or_left_comm) (or_congr_right (or_congr_right ?_)))
    exact exists_congr fun _ => and_comm
  | negative => exact or_congr_left eq_comm

theorem Extends.joined_var (h : t.Extends t') {p : Polarity} {b : Ty} {x : Var}
    (hb : b.isVar = false) (hj : p.orient t.Joined b (.var x)) :
    p.orient t'.Joined b (.var x) := by
  obtain ⟨b', hb', hs⟩ := (orient_joined_var p hb x).mp hj
  exact (orient_joined_var p hb x).mpr ⟨b', h.mem hb', hs⟩

theorem Extends.joined (h : t.Extends t') {l u : Ty} (hj : t.Joined l u) : t'.Joined l u := by
  rcases l.var_or_isVar_eq_false with ⟨x, rfl⟩ | hl
  · rcases u.var_or_isVar_eq_false with ⟨y, rfl⟩ | hu
    · rcases hj with rfl | hj | hj | ⟨z, hz, hz'⟩
      · exact .inl rfl
      · exact .inr (.inl ((h.suffix .negative x).subset hj))
      · exact .inr (.inr (.inl ((h.suffix .positive y).subset hj)))
      · exact .inr (.inr (.inr
          ⟨z, (h.suffix .negative x).subset hz, (h.suffix .positive y).subset hz'⟩))
    · have hj : Polarity.negative.orient t.Joined u (.var x) := hj
      exact h.joined_var hu hj
  · rcases u.var_or_isVar_eq_false with ⟨y, rfl⟩ | hu
    · have hj : Polarity.positive.orient t.Joined l (.var y) := hj
      exact h.joined_var hl hj
    · rw [joined_of_not_isVar hl hu] at hj ⊢
      exact hj

end BoundTable

namespace Goal

def Joined (t : BoundTable) : Goal → Prop
  | .relate l u => t.Joined l u
  | .lacking .. => False

variable {t : BoundTable}

theorem joined_orient (p : Polarity) (b x : Ty) :
    (p.orient relate b x).Joined t ↔ p.orient t.Joined b x := by
  cases p <;> exact Iff.rfl

theorem Parts.compatible {a b : Ty} {goals : List Goal} (h : Parts a b goals)
    (hg : ∀ g ∈ goals, g.Joined t) : a.Compatible b := by
  cases h with
  | base h => exact h
  | arrow => trivial
  | tuple m n hl => exact hl
  | record m n fs gs =>
    intro name hname
    obtain ⟨g, hmem, rfl⟩ := List.mem_map.mp hname
    have hj := hg _ (List.mem_map_of_mem hmem)
    rw [field] at hj
    split at hj
    case h_1 ty hty => exact List.mem_map.mpr ⟨_, mem_of_fieldNamed? hty, rfl⟩
    case h_2 => exact hj.elim

theorem Derived.joined {g : Goal} (h : Derived t g) : g.Joined t := by
  induction h with
  | @alike a b h =>
    rcases a.var_or_isVar_eq_false with ⟨x, rfl⟩ | ha
    · obtain ⟨y, rfl, rfl⟩ := (h .positive).var_left
      exact .inl rfl
    · have hb := (h .positive).isVar_eq.symm.trans ha
      exact (BoundTable.joined_of_not_isVar ha hb).mpr
        ((Ty.Compatible.refl ha).congr (.refl a) (h .positive).sameShape)
  | parts h _ ih =>
    have hv := h.isVar_eq_false
    exact (BoundTable.joined_of_not_isVar hv.1 hv.2).mpr (h.compatible ih)
  | @bound p b c v hb h =>
    rw [joined_orient]
    rcases c.var_or_isVar_eq_false with ⟨y, rfl⟩ | hc
    · obtain ⟨y, rfl, rfl⟩ := (h .positive).var_left
      exact (BoundTable.orient_joined_vars p _ v).mpr (.inr (.inl hb))
    · exact (BoundTable.orient_joined_var p hc v).mpr ⟨b, hb, (h .positive).sameShape.symm⟩
  | standIn p hv hi _ ih =>
    have hv' := hi.isVar_eq.symm.trans hv
    rw [joined_orient, BoundTable.orient_joined_var p hv'] at ih
    rw [joined_orient, BoundTable.orient_joined_var p hv]
    obtain ⟨b, hb, hs⟩ := ih
    exact ⟨b, hb, hs.trans hi.sameShape.symm⟩

end Goal
end Biunify
