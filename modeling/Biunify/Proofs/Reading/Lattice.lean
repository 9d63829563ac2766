import Biunify.Proofs.BundleGraph.Occurs
import Biunify.Proofs.Reading.Basic
import Mathlib.Order.BoundedOrder.Lattice

/-! Bundle graphs read in a bounded lattice. A place is the join of its parts where it is
positive and their meet where it is negative, and everything where its parts have no common
supertype. The variables with a body are read as their bodies, down to a depth; below that stands
the least element or the greatest. -/

namespace Biunify

universe u

/-- A bounded lattice with type constructors, which are monotone in their parts, and against the
order in the parameter of an arrow. -/
structure LatticeReading (α : Type u) [Lattice α] [BoundedOrder α] where
  build : Shape α → α
  arrow : ∀ {p q r s : α}, q ≤ p → r ≤ s → build (.arrow p r) ≤ build (.arrow q s)
  tuple : ∀ {xs ys : List α}, List.Forall₂ (· ≤ ·) xs ys → build (.tuple xs) ≤ build (.tuple ys)
  record : ∀ {fs gs : List (String × α)}, List.Forall₂ (fun f g => f.1 = g.1 ∧ f.2 ≤ g.2) fs gs →
    build (.record fs) ≤ build (.record gs)

namespace Polarity

variable {α : Type u} [Lattice α] [BoundedOrder α]

def join (p : Polarity) (xs : List α) : α :=
  match p with
  | .positive => xs.foldr (· ⊔ ·) ⊥
  | .negative => xs.foldr (· ⊓ ·) ⊤

theorem join_le_iff {p : Polarity} {xs : List α} {y : α} :
    p.orient (· ≤ ·) (p.join xs) y ↔ ∀ x ∈ xs, p.orient (· ≤ ·) x y := by
  cases p with
  | positive =>
    induction xs with
    | nil => simp [join, orient]
    | cons x xs ih => simpa [join, orient] using fun _ => ih
  | negative =>
    induction xs with
    | nil => simp [join, orient]
    | cons x xs ih => simpa [join, orient] using fun _ => ih

theorem le_join {p : Polarity} {xs : List α} {x : α} (h : x ∈ xs) :
    p.orient (· ≤ ·) x (p.join xs) :=
  join_le_iff.mp (p.orient_le_refl _) x h

theorem join_le_append {p : Polarity} (xs ys : List α) :
    p.orient (· ≤ ·) (p.join xs) (p.join (xs ++ ys)) :=
  join_le_iff.mpr fun _ hx => le_join (List.mem_append_left ys hx)

end Polarity

namespace LatticeReading

variable {α : Type u} [Lattice α] [BoundedOrder α] (R : LatticeReading α)

def bases {β : Type*} (l : Layer β) : List α := l.bases.toList.map fun b => R.build (.base b)

def parts {β : Type*} (read : Polarity → β → α) (p : Polarity) (l : Layer β) : List α :=
  (l.record.map fun fields => R.build (.record (fields.map fun f => (f.1, read p f.2)))).toList
    ++ (l.tuple.map fun elems => R.build (.tuple (elems.map (read p)))).toList
    ++ (l.func.map fun f => R.build (.arrow (read p.flip f.1) (read p f.2))).toList

def readLayer (vars : Polarity → List Var → List α) (l : Layer (Polarity → α)) (p : Polarity) : α :=
  if l.top then ⊤
  else p.join (vars p l.vars.items ++ R.bases l ++ R.parts (fun q read => read q) p l)

def readBundle (vars : Polarity → List Var → List α) : Bundle → Polarity → α :=
  Bundle.fold fun l => R.readLayer vars (l.map Prod.snd)

/-- A variable with a body is read as the body, so many times on a path. -/
def readVar (cycles : VarMap Bundle) (ρ : Nat → α) : Nat → Var → Polarity → α
  | 0, v, p => if cycles.contains v then p.join [] else ρ v.id
  | depth + 1, v, p =>
    match cycles.find? v with
    | some body => R.readBundle (fun p vs => vs.map (readVar cycles ρ depth · p)) body p
    | none => ρ v.id

def readGraph (ρ : Nat → α) (depth : Nat) (g : BundleGraph) : α :=
  R.readBundle (fun p vs => vs.map (R.readVar g.cycles ρ depth · p)) g.root .positive

variable {R}

theorem readBundle_eq (vars : Polarity → List Var → List α) (l : Layer Bundle) :
    R.readBundle vars (.node l) = R.readLayer vars (l.map (R.readBundle vars)) := by
  rw [readBundle, Bundle.fold_node, Layer.map_map]

theorem readBundle_node (vars : Polarity → List Var → List α) (l : Layer Bundle) (p : Polarity) :
    R.readBundle vars (.node l) p =
      if l.top then ⊤
      else p.join (vars p l.vars.items ++ R.bases l
        ++ R.parts (fun q b => R.readBundle vars b q) p l) := by
  have hparts : R.parts (fun q read => read q) p (l.map (R.readBundle vars)) =
      R.parts (fun q b => R.readBundle vars b q) p l := by
    simp [parts, Layer.map, Function.comp_def]
  rw [readBundle_eq, readLayer, hparts]
  rfl

theorem parts_le {β : Type} (read read' : Polarity → β → α) {p : Polarity} {l : Layer β}
    (h : ∀ q b, l.Child p q b → q.orient (· ≤ ·) (read q b) (read' q b)) :
    ∀ x ∈ R.parts read p l, ∃ y ∈ R.parts read' p l, p.orient (· ≤ ·) x y := by
  have hrecord : ∀ fields, l.record = some fields → p.orient (· ≤ ·)
      (R.build (.record (fields.map fun f => (f.1, read p f.2))))
      (R.build (.record (fields.map fun f => (f.1, read' p f.2)))) := by
    intro fields hr
    have hfields : ∀ f ∈ fields, p.orient (· ≤ ·) (read p f.2) (read' p f.2) :=
      fun f hf => h p f.2 (.field hr hf)
    cases p with
    | positive =>
      refine R.record (List.forall₂_map_left_iff.mpr (List.forall₂_map_right_iff.mpr ?_))
      exact List.forall₂_same.mpr fun f hf => ⟨rfl, hfields f hf⟩
    | negative =>
      refine R.record (List.forall₂_map_left_iff.mpr (List.forall₂_map_right_iff.mpr ?_))
      exact List.forall₂_same.mpr fun f hf => ⟨rfl, hfields f hf⟩
  have htuple : ∀ elems, l.tuple = some elems → p.orient (· ≤ ·)
      (R.build (.tuple (elems.map (read p)))) (R.build (.tuple (elems.map (read' p)))) := by
    intro elems ht
    have helems : ∀ b ∈ elems, p.orient (· ≤ ·) (read p b) (read' p b) :=
      fun b hb => h p b (.elem ht hb)
    cases p with
    | positive =>
      refine R.tuple (List.forall₂_map_left_iff.mpr (List.forall₂_map_right_iff.mpr ?_))
      exact List.forall₂_same.mpr helems
    | negative =>
      refine R.tuple (List.forall₂_map_left_iff.mpr (List.forall₂_map_right_iff.mpr ?_))
      exact List.forall₂_same.mpr helems
  have hfunc : ∀ f, l.func = some f → p.orient (· ≤ ·)
      (R.build (.arrow (read p.flip f.1) (read p f.2)))
      (R.build (.arrow (read' p.flip f.1) (read' p f.2))) := by
    intro f hf
    have hparam := h p.flip f.1 (.param hf)
    have hresult := h p f.2 (.result hf)
    cases p with
    | positive => exact R.arrow hparam hresult
    | negative => exact R.arrow hparam hresult
  intro x hx
  simp only [parts, List.mem_append, Option.mem_toList,
    Option.map_eq_some_iff] at hx ⊢
  rcases hx with (⟨fields, hr, rfl⟩ | ⟨elems, ht, rfl⟩) | ⟨f, hf, rfl⟩
  · exact ⟨_, .inl (.inl ⟨fields, hr, rfl⟩), hrecord fields hr⟩
  · exact ⟨_, .inl (.inr ⟨elems, ht, rfl⟩), htuple elems ht⟩
  · exact ⟨_, .inr ⟨f, hf, rfl⟩, hfunc f hf⟩

theorem readBundle_le {vars vars' : Polarity → List Var → List α} {met : Polarity → Bundle → Prop}
    (hdown : ∀ {p b q c}, met p b → b.layer.Child p q c → met q c)
    (hvars : ∀ p b, met p b → p.orient (· ≤ ·) (p.join (vars p b.layer.vars.items))
      (p.join (vars' p b.layer.vars.items ++ R.bases b.layer)))
    {p : Polarity} {b : Bundle} (hb : met p b) :
    p.orient (· ≤ ·) (R.readBundle vars b p) (R.readBundle vars' b p) := by
  induction b generalizing p with
  | node l ih =>
    rw [readBundle_node, readBundle_node]
    split_ifs
    · exact p.orient_le_refl _
    have hparts := parts_le (R := R) (fun q b => R.readBundle vars b q)
      (fun q b => R.readBundle vars' b q) fun q c hc => ih p q c hc (hdown hb hc)
    refine Polarity.join_le_iff.mpr fun x hx => ?_
    rcases List.mem_append.mp hx with hx | hx
    · refine Polarity.orient_le_trans ?_ (Polarity.join_le_append _ _)
      rcases List.mem_append.mp hx with hx | hx
      · exact Polarity.orient_le_trans (Polarity.le_join hx) (hvars p _ hb)
      · exact Polarity.le_join (List.mem_append_right _ hx)
    · obtain ⟨y, hy, hxy⟩ := hparts x hx
      exact Polarity.orient_le_trans hxy (Polarity.le_join (List.mem_append_right _ hy))

end LatticeReading
end Biunify
