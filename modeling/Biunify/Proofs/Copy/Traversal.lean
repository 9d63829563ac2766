import Biunify.Proofs.BoundTable.Bounds
import Biunify.Proofs.Perform
import Biunify.Proofs.Ty.CopyOf

/-! Copying always returns a copy of the type, given what copying one variable does. What a
variable's copy does to the record of copies and to the table is a `Law`; the traversal only
passes it on. -/

namespace Biunify

namespace BoundTable

/-- The type mentions the variable, or a bound of a variable that it reaches does; only
variables above the limit are gone through. -/
inductive Reaches (t : BoundTable) (limit : Nat) (ty : Ty) : Var → Prop
  | mention {p q : Polarity} {v : Var} (h : ty.Mentions p q v) (hlt : limit < v.level) :
    Reaches t limit ty v
  | bound {p q r : Polarity} {v w : Var} {b : Ty} (hv : Reaches t limit ty v)
    (hb : b ∈ t.bounds p v) (h : b.Mentions q r w) (hlt : limit < w.level) :
    Reaches t limit ty w

/-- The same for a type that is read at a polarity: of a variable that is met at a polarity,
only the bounds on that side are gone through, and they are read at it. -/
inductive ReachesAt (t : BoundTable) (limit : Nat) (p : Polarity) (ty : Ty) : Polarity → Var → Prop
  | mention {q : Polarity} {v : Var} (h : ty.Mentions p q v) (hlt : limit < v.level) :
    ReachesAt t limit p ty q v
  | bound {q r : Polarity} {v w : Var} {b : Ty} (hv : ReachesAt t limit p ty q v)
    (hb : b ∈ t.bounds q v) (h : b.Mentions q r w) (hlt : limit < w.level) :
    ReachesAt t limit p ty r w

variable {t : BoundTable} {limit : Nat} {ty : Ty} {v : Var}

theorem Reaches.owns (hv : t.Reaches limit ty v) (ht : t.Scoped fun _ => True)
    (hty : ty.InScope t) : t.Owns v := by
  cases hv with
  | mention h _ => exact h.of_forall hty
  | bound _ hb h _ => exact h.of_forall (ht _ _ _ hb)

theorem ReachesAt.reaches {p q : Polarity} (hv : t.ReachesAt limit p ty q v) :
    t.Reaches limit ty v := by
  induction hv with
  | mention h hlt => exact .mention h hlt
  | bound _ hb h hlt ih => exact .bound ih hb h hlt

end BoundTable

namespace Copy

/-- How copies of variables are made: when, with which effect, and with which result. -/
structure Law (κ : Type) where
  ready : κ → BoundTable → Prop
  grows : κ → BoundTable → κ → BoundTable → Prop
  within : BoundTable → Polarity → Var → Prop
  image : κ → Polarity → Var → Var → Prop
  refl : ∀ m t, grows m t m t
  trans : ∀ {m t m' t' m'' t''}, ready m t → grows m t m' t' → grows m' t' m'' t'' →
    grows m t m'' t''
  ready_of_grows : ∀ {m t m' t'}, ready m t → grows m t m' t' → ready m' t'
  within_of_grows : ∀ {m t m' t' p v}, grows m t m' t' → within t p v → within t' p v
  image_of_grows : ∀ {m t m' t' p v c}, grows m t m' t' → image m p v c → image m' p v c

namespace Law

variable {κ : Type} (law : Law κ)

def Serves (limit : Nat) (visit : Polarity → Var → CopyM κ Ty) : Prop :=
  ∀ p v m (s : Session), law.ready m s.table → law.within s.table p v → limit < v.level →
    ∃ c m' s', s.perform ((visit p v).run m) = (.ok (.var c, m'), s') ∧
      law.grows m s.table m' s'.table ∧ law.image m' p v c

def Copies {α : Type} (R : κ → α → Prop) (m : κ) (s : Session) (run : CopyM κ α) : Prop :=
  ∃ a m' s', s.perform (run.run m) = (.ok (a, m'), s') ∧
    law.grows m s.table m' s'.table ∧ R m' a

variable {law} {limit : Nat} {visit : Polarity → Var → CopyM κ Ty}

theorem Copies.bind {α β : Type} {R : κ → α → Prop} {R' : κ → β → Prop} {m : κ} {s : Session}
    {run : CopyM κ α} {next : α → CopyM κ β} (hm : law.ready m s.table)
    (h : law.Copies R m s run)
    (h' : ∀ a m' (s' : Session), law.ready m' s'.table → law.grows m s.table m' s'.table →
      R m' a → law.Copies R' m' s' (next a)) : law.Copies R' m s (run >>= next) := by
  obtain ⟨a, m₁, s₁, hrun, hg₁, ha⟩ := h
  obtain ⟨b, m₂, s₂, hnext, hg₂, hb⟩ := h' a m₁ s₁ (law.ready_of_grows hm hg₁) hg₁ ha
  refine ⟨b, m₂, s₂, ?_, law.trans hm hg₁ hg₂, hb⟩
  rw [Session.perform_copy_bind_of_ok hrun, hnext]

theorem Copies.pure {α : Type} {R : κ → α → Prop} {m : κ} {s : Session} {a : α} (h : R m a) :
    law.Copies R m s (pure a) := ⟨a, m, s, rfl, law.refl _ _, h⟩

theorem Copies.lift {α : Type} {R : κ → α → Prop} {m : κ} {s : Session} {x : SessionM α}
    (ht : (x.run s).2.table = s.table) (h : R m (x.run s).1) : law.Copies R m s (liftM x) := by
  refine ⟨(x.run s).1, m, (x.run s).2, rfl, ?_, h⟩
  rw [ht]
  exact law.refl _ _

def Covers (law : Law κ) (t : BoundTable) (p : Polarity) (ty : Ty) : Prop :=
  ∀ q v, ty.Mentions p q v → law.within t q v

theorem Covers.of_grows {m m' : κ} {t t' : BoundTable} {p : Polarity} {ty : Ty}
    (hty : law.Covers t p ty) (h : law.grows m t m' t') : law.Covers t' p ty :=
  fun q v hm => law.within_of_grows h (hty q v hm)

theorem copyOf_of_grows {m m' : κ} {t t' : BoundTable} {p : Polarity} {ty u : Ty}
    (h : law.grows m t m' t') (hc : Ty.CopyOf limit (law.image m) p ty u) :
    Ty.CopyOf limit (law.image m') p ty u :=
  hc.imp fun _ _ _ _ => law.image_of_grows h

def Copyable (law : Law κ) (limit : Nat) (visit : Polarity → Var → CopyM κ Ty) (ty : Ty) : Prop :=
  ∀ p m s, law.ready m s.table → law.Covers s.table p ty →
    law.Copies (fun m => Ty.CopyOf limit (law.image m) p ty) m s (above limit visit p ty)

theorem copies_elems {p : Polarity} {ts : List Ty} (ih : ∀ t ∈ ts, Copyable law limit visit t)
    {m : κ} {s : Session} (hm : law.ready m s.table)
    (hts : ∀ t ∈ ts, law.Covers s.table p t) :
    law.Copies (fun m => List.Forall₂ (Ty.CopyOf limit (law.image m) p) ts) m s
      (aboveElems limit visit p ts) := by
  induction ts generalizing m s with
  | nil => exact Copies.pure .nil
  | cons t ts ihts =>
    rw [aboveElems]
    refine (ih t List.mem_cons_self p m s hm (hts t List.mem_cons_self)).bind hm
      fun t' m₁ s₁ hm₁ hg₁ ht' => ?_
    have hts₁ : ∀ u ∈ ts, law.Covers s₁.table p u :=
      fun u hu => (hts u (List.mem_cons_of_mem _ hu)).of_grows hg₁
    refine (ihts (fun u hu => ih u (List.mem_cons_of_mem _ hu)) hm₁ hts₁).bind hm₁
      fun ts' m₂ s₂ _ hg₂ hts' => Copies.pure (.cons ?_ hts')
    exact copyOf_of_grows hg₂ ht'

theorem copies_fields {p : Polarity} {fs : List (String × Ty)}
    (ih : ∀ f ∈ fs, Copyable law limit visit f.2) {m : κ} {s : Session}
    (hm : law.ready m s.table) (hfs : ∀ f ∈ fs, law.Covers s.table p f.2) :
    law.Copies
      (fun m => List.Forall₂ (fun f g => f.1 = g.1 ∧ Ty.CopyOf limit (law.image m) p f.2 g.2) fs)
      m s (aboveFields limit visit p fs) := by
  induction fs generalizing m s with
  | nil => exact Copies.pure .nil
  | cons f fs ihfs =>
    rw [aboveFields]
    refine (ih f List.mem_cons_self p m s hm (hfs f List.mem_cons_self)).bind hm
      fun t' m₁ s₁ hm₁ hg₁ ht' => ?_
    have hfs₁ : ∀ g ∈ fs, law.Covers s₁.table p g.2 :=
      fun g hg => (hfs g (List.mem_cons_of_mem _ hg)).of_grows hg₁
    refine (ihfs (fun g hg => ih g (List.mem_cons_of_mem _ hg)) hm₁ hfs₁).bind hm₁
      fun fs' m₂ s₂ _ hg₂ hfs' => Copies.pure (.cons ⟨rfl, ?_⟩ hfs')
    exact copyOf_of_grows hg₂ ht'

theorem copyable_of_serves (hv : law.Serves limit visit) (ty : Ty) :
    Copyable law limit visit ty := by
  induction ty with
  | base b =>
    intro p m s _ _
    exact Copies.pure (.shared (Nat.zero_le _))
  | var v =>
    intro p m s hm hty
    rw [above]
    split
    case isTrue hle => exact Copies.pure (.shared hle)
    case isFalse hlt =>
      have hlt := Nat.lt_of_not_le hlt
      obtain ⟨c, m', s', hrun, hg, hi⟩ := hv p v m s hm (hty p v .var) hlt
      exact ⟨.var c, m', s', hrun, hg, (Ty.copyOf_var hlt).mpr ⟨c, rfl, hi⟩⟩
  | arrow n q r ihq ihr =>
    intro p m s hm hty
    rw [above]
    split
    case isTrue hle => exact Copies.pure (.shared hle)
    case isFalse hlt =>
      have hr : law.Covers s.table p r := fun x v hx => hty x v (.result hx)
      refine (ihq p.flip m s hm fun x v hx => hty x v (.param hx)).bind hm
        fun q' m₁ s₁ hm₁ hg₁ hq => ?_
      refine (ihr p m₁ s₁ hm₁ (hr.of_grows hg₁)).bind hm₁
        fun r' m₂ s₂ _ hg₂ hr => Copies.lift rfl ?_
      exact (Ty.copyOf_arrow (Nat.lt_of_not_le hlt)).mpr
        ⟨_, q', r', rfl, copyOf_of_grows hg₂ hq, hr⟩
  | tuple n ts ih =>
    intro p m s hm hty
    rw [above]
    split
    case isTrue hle => exact Copies.pure (.shared hle)
    case isFalse hlt =>
      refine (copies_elems ih hm fun t ht x v hx => hty x v (.elem ht hx)).bind hm
        fun ts' m₁ s₁ _ _ hts => Copies.lift rfl ?_
      exact (Ty.copyOf_tuple (Nat.lt_of_not_le hlt)).mpr ⟨_, ts', rfl, hts⟩
  | record n fs ih =>
    intro p m s hm hty
    rw [above]
    split
    case isTrue hle => exact Copies.pure (.shared hle)
    case isFalse hlt =>
      refine (copies_fields ih hm fun f hf x v hx => hty x v (.field hf hx)).bind hm
        fun fs' m₁ s₁ _ _ hfs => Copies.lift rfl ?_
      exact (Ty.copyOf_record (Nat.lt_of_not_le hlt)).mpr ⟨_, fs', rfl, hfs⟩

end Law
end Copy
end Biunify
