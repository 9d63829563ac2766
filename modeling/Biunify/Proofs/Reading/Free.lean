import Biunify.Proofs.Reading.Basic

/-! Types themselves as a preorder: structural subtyping, where a variable is below itself
only. This is an exact reading. An assignment is then a substitution, and a type is read
as its instance. -/

namespace Biunify

namespace Ty

inductive Sub : Ty → Ty → Prop
  | var (v : Var) : Sub (.var v) (.var v)
  | base {a b : BaseTy} (h : a.below b = true) : Sub (.base a) (.base b)
  | arrow (m n : Nat) {p q r s : Ty} (hp : Sub q p) (hr : Sub r s) :
    Sub (.arrow m p r) (.arrow n q s)
  | tuple (m n : Nat) {ts us : List Ty} (hl : ts.length = us.length)
    (h : ∀ t u, (t, u) ∈ ts.zip us → Sub t u) : Sub (.tuple m ts) (.tuple n us)
  | record (m n : Nat) {fs gs : List (String × Ty)} (pick : String × Ty → String × Ty)
    (hp : ∀ g ∈ gs, pick g ∈ fs ∧ (pick g).1 = g.1) (h : ∀ g ∈ gs, Sub (pick g).2 g.2) :
    Sub (.record m fs) (.record n gs)

namespace Sub

theorem tuple_iff {m n : Nat} {ts us : List Ty} :
    Sub (.tuple m ts) (.tuple n us) ↔ List.Forall₂ Sub ts us := by
  rw [List.forall₂_iff_zip]
  constructor
  · rintro (_ | _ | _ | ⟨_, _, hl, h⟩)
    exact ⟨hl, h _ _⟩
  · rintro ⟨hl, h⟩
    exact .tuple m n hl fun _ _ => h

theorem record_iff {m n : Nat} {fs gs : List (String × Ty)} :
    Sub (.record m fs) (.record n gs) ↔ ∀ g ∈ gs, ∃ f ∈ fs, f.1 = g.1 ∧ Sub f.2 g.2 := by
  constructor
  · rintro (_ | _ | _ | _ | ⟨_, _, pick, hp, h⟩) g hg
    exact ⟨pick g, (hp g hg).1, (hp g hg).2, h g hg⟩
  · intro h
    choose! pick hp using h
    exact .record m n pick (fun g hg => ⟨(hp g hg).1, (hp g hg).2.1⟩) fun g hg => (hp g hg).2.2

theorem refl (t : Ty) : Sub t t := by
  induction t with
  | base b => exact .base b.below_refl
  | var v => exact .var v
  | arrow n p r ihp ihr => exact .arrow n n ihp ihr
  | tuple n ts ih => exact tuple_iff.mpr (List.forall₂_same.mpr ih)
  | record n fs ih => exact record_iff.mpr fun f hf => ⟨f, hf, rfl, ih f hf⟩

theorem trans {a b c : Ty} (h : Sub a b) (h' : Sub b c) : Sub a c := by
  -- on the middle type, since the parameters of arrows are compared the other way round
  induction b generalizing a c with
  | base b =>
    cases h with
    | base h =>
      cases h' with
      | base h' => exact .base (BaseTy.below_trans h h')
  | var v =>
    cases h
    exact h'
  | arrow n p r ihp ihr =>
    cases h with
    | arrow _ _ hp hr =>
      cases h' with
      | arrow _ _ hp' hr' => exact .arrow _ _ (ihp hp' hp) (ihr hr hr')
  | tuple n us ih =>
    cases h with
    | tuple m _ hl h =>
      cases h' with
      | tuple _ k hl' h' =>
        have hts := tuple_iff.mp (.tuple m n hl h)
        have hus := tuple_iff.mp (.tuple n k hl' h')
        exact tuple_iff.mpr
          (forall₂_trans_of_mem hts hus fun t _ u hu w htu huw => ih u hu htu huw)
  | record n gs ih =>
    cases h with
    | record m _ pick hp h =>
      cases h' with
      | record _ k pick' hp' h' =>
        refine .record m k (pick ∘ pick') (fun g hg => ?_) fun g hg => ?_
        · have hmid := hp' g hg
          exact ⟨(hp _ hmid.1).1, (hp _ hmid.1).2.trans hmid.2⟩
        · have hmid := (hp' g hg).1
          exact ih _ hmid (h _ hmid) (h' g hg)

end Sub

instance : Preorder Ty where
  le := Sub
  le_refl := Sub.refl
  le_trans _ _ _ := Sub.trans

def ofShape : Shape Ty → Ty
  | .base b => .base b
  | .arrow p r => .arrow 0 p r
  | .tuple ts => .tuple 0 ts
  | .record fs => .record 0 fs

theorem ofShape_inj {x y : Shape Ty} (h : ofShape x = ofShape y) : x = y := by
  cases x <;> cases y <;> simp_all [ofShape]

theorem ofShape_ne_var (x : Shape Ty) (v : Var) : ofShape x ≠ .var v := by
  cases x <;> simp [ofShape]

theorem ofShape_le_iff {x y : Shape Ty} : ofShape x ≤ ofShape y ↔ Shape.Below (· ≤ ·) x y := by
  constructor
  · intro h
    cases x <;> cases y <;> try (cases h; done)
    case base.base =>
      cases h with
      | base h => exact .base h
    case arrow.arrow =>
      cases h with
      | arrow _ _ hp hr => exact .arrow hp hr
    case tuple.tuple => exact .tuple (Sub.tuple_iff.mp h)
    case record.record => exact .record (Sub.record_iff.mp h)
  · rintro (h | ⟨hp, hr⟩ | h | h)
    · exact .base h
    · exact .arrow 0 0 hp hr
    · exact Sub.tuple_iff.mpr h
    · exact Sub.record_iff.mpr h

def free : ExactReading Ty where
  build := ofShape
  mono _ _ := ofShape_le_iff.mpr
  exact _ _ := ofShape_le_iff.mp

end Ty
end Biunify
