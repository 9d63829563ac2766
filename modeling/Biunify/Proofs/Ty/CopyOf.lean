import Biunify.Proofs.Ty.Image

/-! What a copy of a type above a level is. What lies up to the level is shared with the copy,
down to the stamps of the nodes; above it there are nodes of the same structure, and each
variable is replaced by one that is related to it at the polarity of its place. -/

namespace Biunify
namespace Ty

inductive Mentions : Ty → Polarity → Polarity → Var → Prop
  | var {p : Polarity} {v : Var} : Mentions (.var v) p p v
  | param {n : Nat} {param result : Ty} {p q : Polarity} {v : Var}
    (h : Mentions param p.flip q v) : Mentions (.arrow n param result) p q v
  | result {n : Nat} {param result : Ty} {p q : Polarity} {v : Var}
    (h : Mentions result p q v) : Mentions (.arrow n param result) p q v
  | elem {n : Nat} {elems : List Ty} {t : Ty} {p q : Polarity} {v : Var} (ht : t ∈ elems)
    (h : Mentions t p q v) : Mentions (.tuple n elems) p q v
  | field {n : Nat} {fields : List (String × Ty)} {f : String × Ty} {p q : Polarity} {v : Var}
    (hf : f ∈ fields) (h : Mentions f.2 p q v) : Mentions (.record n fields) p q v

theorem Mentions.of_forall {t : Ty} {p q : Polarity} {v : Var} (h : t.Mentions p q v)
    {P : Var → Prop} {Q : List String → Prop} (ht : t.Forall P Q) : P v := by
  induction h with
  | var => exact ht
  | param _ ih => exact ih ht.1
  | result _ ih => exact ih ht.2
  | elem hmem _ ih => exact ih ((forall_tuple ..).mp ht _ hmem)
  | field hmem _ ih => exact ih (((forall_record ..).mp ht).2 _ hmem)

mutual

/-- The second type is a copy of the first above the limit. -/
def CopyOf (limit : Nat) (rel : Polarity → Var → Var → Prop) (p : Polarity) : Ty → Ty → Prop
  | base b, u => u = base b
  | var v, u => if v.level ≤ limit then u = var v else ∃ c, u = var c ∧ rel p v c
  | arrow n param result, u =>
    if (arrow n param result).level ≤ limit then u = arrow n param result
    else ∃ n' param' result', u = arrow n' param' result' ∧
      CopyOf limit rel p.flip param param' ∧ CopyOf limit rel p result result'
  | tuple n elems, u =>
    if (tuple n elems).level ≤ limit then u = tuple n elems
    else ∃ n' elems', u = tuple n' elems' ∧ CopyElems limit rel p elems elems'
  | record n fields, u =>
    if (record n fields).level ≤ limit then u = record n fields
    else ∃ n' fields', u = record n' fields' ∧ CopyFields limit rel p fields fields'

def CopyElems (limit : Nat) (rel : Polarity → Var → Var → Prop) (p : Polarity) :
    List Ty → List Ty → Prop
  | [], us => us = []
  | t :: ts, us => ∃ u us', us = u :: us' ∧ CopyOf limit rel p t u ∧ CopyElems limit rel p ts us'

def CopyFields (limit : Nat) (rel : Polarity → Var → Var → Prop) (p : Polarity) :
    List (String × Ty) → List (String × Ty) → Prop
  | [], gs => gs = []
  | (name, t) :: fs, gs =>
    ∃ u gs', gs = (name, u) :: gs' ∧ CopyOf limit rel p t u ∧ CopyFields limit rel p fs gs'

end

section Copies

variable {limit : Nat} {rel rel' : Polarity → Var → Var → Prop} {p : Polarity}

theorem copyElems_iff (ts us : List Ty) :
    CopyElems limit rel p ts us ↔ List.Forall₂ (CopyOf limit rel p) ts us := by
  induction ts generalizing us with
  | nil => simp [CopyElems]
  | cons t ts ih =>
    rw [CopyElems, List.forall₂_cons_left_iff]
    simp only [ih]
    constructor
    · rintro ⟨u, us', rfl, ht, hts⟩
      exact ⟨u, us', ht, hts, rfl⟩
    · rintro ⟨u, us', ht, hts, rfl⟩
      exact ⟨u, us', rfl, ht, hts⟩

theorem copyFields_iff (fs gs : List (String × Ty)) :
    CopyFields limit rel p fs gs ↔
      List.Forall₂ (fun f g => f.1 = g.1 ∧ CopyOf limit rel p f.2 g.2) fs gs := by
  induction fs generalizing gs with
  | nil => simp [CopyFields]
  | cons f fs ih =>
    rw [CopyFields, List.forall₂_cons_left_iff]
    simp only [ih]
    constructor
    · rintro ⟨u, gs', rfl, ht, hfs⟩
      exact ⟨(f.1, u), gs', ⟨rfl, ht⟩, hfs, rfl⟩
    · rintro ⟨⟨name, u⟩, gs', ⟨rfl, ht⟩, hfs, rfl⟩
      exact ⟨u, gs', rfl, ht, hfs⟩

theorem copyOf_of_level_le {t u : Ty} (h : t.level ≤ limit) :
    CopyOf limit rel p t u ↔ u = t := by
  cases t with
  | base b => rw [CopyOf]
  | var v =>
    rw [level] at h
    rw [CopyOf, if_pos h]
  | arrow n q r => rw [CopyOf, if_pos h]
  | tuple n ts => rw [CopyOf, if_pos h]
  | record n fs => rw [CopyOf, if_pos h]

theorem CopyOf.shared {t : Ty} (h : t.level ≤ limit) : CopyOf limit rel p t t :=
  (copyOf_of_level_le h).mpr rfl

theorem copyOf_var {v : Var} {u : Ty} (h : limit < v.level) :
    CopyOf limit rel p (var v) u ↔ ∃ c, u = var c ∧ rel p v c := by
  rw [CopyOf, if_neg (Nat.not_le.mpr h)]

theorem copyOf_arrow {n : Nat} {q r u : Ty} (h : limit < (arrow n q r).level) :
    CopyOf limit rel p (arrow n q r) u ↔ ∃ n' q' r', u = arrow n' q' r' ∧
      CopyOf limit rel p.flip q q' ∧ CopyOf limit rel p r r' := by
  rw [CopyOf, if_neg (Nat.not_le.mpr h)]

theorem copyOf_tuple {n : Nat} {ts : List Ty} {u : Ty} (h : limit < (tuple n ts).level) :
    CopyOf limit rel p (tuple n ts) u ↔ ∃ n' us, u = tuple n' us ∧
      List.Forall₂ (CopyOf limit rel p) ts us := by
  rw [CopyOf, if_neg (Nat.not_le.mpr h)]
  simp only [copyElems_iff]

theorem copyOf_record {n : Nat} {fs : List (String × Ty)} {u : Ty}
    (h : limit < (record n fs).level) :
    CopyOf limit rel p (record n fs) u ↔ ∃ n' gs, u = record n' gs ∧
      List.Forall₂ (fun f g => f.1 = g.1 ∧ CopyOf limit rel p f.2 g.2) fs gs := by
  rw [CopyOf, if_neg (Nat.not_le.mpr h)]
  simp only [copyFields_iff]

theorem CopyOf.structural {motive : Polarity → Ty → Ty → Prop}
    (shared : ∀ p t, t.level ≤ limit → motive p t t)
    (var : ∀ p v c, limit < v.level → rel p v c → motive p (var v) (var c))
    (arrow : ∀ p n n' q q' r r', limit < (Ty.arrow n q r).level → motive p.flip q q' →
      motive p r r' → motive p (arrow n q r) (arrow n' q' r'))
    (tuple : ∀ p n n' ts us, limit < (Ty.tuple n ts).level → List.Forall₂ (motive p) ts us →
      motive p (tuple n ts) (tuple n' us))
    (record : ∀ p n n' fs gs, limit < (Ty.record n fs).level →
      List.Forall₂ (fun f g => f.1 = g.1 ∧ motive p f.2 g.2) fs gs →
      motive p (record n fs) (record n' gs))
    {t u : Ty} (h : CopyOf limit rel p t u) : motive p t u := by
  induction t generalizing p u with
  | base b =>
    rw [CopyOf] at h
    rw [h]
    exact shared p _ (Nat.zero_le _)
  | var v =>
    rcases (Nat.lt_or_ge limit v.level).symm with hle | hlt
    · rw [(copyOf_of_level_le (t := .var v) hle).mp h]
      exact shared p _ hle
    · obtain ⟨c, rfl, hc⟩ := (copyOf_var hlt).mp h
      exact var p v c hlt hc
  | arrow n q r ihq ihr =>
    rcases (Nat.lt_or_ge limit (Ty.arrow n q r).level).symm with hle | hlt
    · rw [(copyOf_of_level_le hle).mp h]
      exact shared p _ hle
    · obtain ⟨n', q', r', rfl, hq, hr⟩ := (copyOf_arrow hlt).mp h
      exact arrow p n n' q q' r r' hlt (ihq hq) (ihr hr)
  | tuple n ts ih =>
    rcases (Nat.lt_or_ge limit (Ty.tuple n ts).level).symm with hle | hlt
    · rw [(copyOf_of_level_le hle).mp h]
      exact shared p _ hle
    · obtain ⟨n', us, rfl, hts⟩ := (copyOf_tuple hlt).mp h
      exact tuple p n n' ts us hlt (forall₂_imp_of_mem hts fun t ht u _ htu => ih t ht htu)
  | record n fs ih =>
    rcases (Nat.lt_or_ge limit (Ty.record n fs).level).symm with hle | hlt
    · rw [(copyOf_of_level_le hle).mp h]
      exact shared p _ hle
    · obtain ⟨n', gs, rfl, hfs⟩ := (copyOf_record hlt).mp h
      exact record p n n' fs gs hlt
        (forall₂_imp_of_mem hfs fun f hf g _ hfg => ⟨hfg.1, ih f hf hfg.2⟩)

theorem CopyOf.imp {t u : Ty} (h : CopyOf limit rel p t u)
    (hr : ∀ q v c, limit < v.level → rel q v c → rel' q v c) : CopyOf limit rel' p t u := by
  apply h.structural
  case shared =>
    intro p t hle
    exact .shared hle
  case var =>
    intro p v c hlt hc
    exact (copyOf_var hlt).mpr ⟨c, rfl, hr p v c hlt hc⟩
  case arrow =>
    intro p n n' q q' r r' hlt hq hr
    exact (copyOf_arrow hlt).mpr ⟨n', q', r', rfl, hq, hr⟩
  case tuple =>
    intro p n n' ts us hlt hts
    exact (copyOf_tuple hlt).mpr ⟨n', us, rfl, hts⟩
  case record =>
    intro p n n' fs gs hlt hfs
    exact (copyOf_record hlt).mpr ⟨n', gs, rfl, hfs⟩

theorem CopyOf.repolarize {rel : Var → Var → Prop} {t u : Ty}
    (h : CopyOf limit (fun _ => rel) p t u) : ∀ q, CopyOf limit (fun _ => rel) q t u := by
  refine h.structural (motive := fun _ t u => ∀ q, CopyOf limit (fun _ => rel) q t u)
    ?shared ?var ?arrow ?tuple ?record
  case shared =>
    intro p t hle q
    exact .shared hle
  case var =>
    intro p v c hlt hc q
    exact (copyOf_var hlt).mpr ⟨c, rfl, hc⟩
  case arrow =>
    intro p n n' a a' b b' hlt ha hb q
    exact (copyOf_arrow hlt).mpr ⟨n', a', b', rfl, ha q.flip, hb q⟩
  case tuple =>
    intro p n n' ts us hlt hts q
    exact (copyOf_tuple hlt).mpr ⟨n', us, rfl, hts.imp fun _ _ htu => htu q⟩
  case record =>
    intro p n n' fs gs hlt hfs q
    exact (copyOf_record hlt).mpr ⟨n', gs, rfl, hfs.imp fun _ _ hfg => ⟨hfg.1, hfg.2 q⟩⟩

def Kept (limit : Nat) (rel : Polarity → Var → Var → Prop) (p : Polarity) (v c : Var) : Prop :=
  v.level ≤ limit ∧ c = v ∨ limit < v.level ∧ rel p v c

theorem CopyOf.image {t u : Ty} (h : CopyOf limit rel p t u) : Image (Kept limit rel) p t u := by
  apply h.structural
  case shared =>
    intro p t hle
    exact Image.refl_of_forall ((level_le_iff t limit).mp hle) fun _ _ hv => .inl ⟨hv, rfl⟩
  case var =>
    intro p v c hlt hc
    exact .inr ⟨hlt, hc⟩
  case arrow =>
    intro p n n' q q' r r' _ hq hr
    exact ⟨hq, hr⟩
  case tuple =>
    intro p n n' ts us _ hts
    exact (image_tuple ..).mpr hts
  case record =>
    intro p n n' fs gs _ hfs
    exact (image_record ..).mpr hfs

theorem CopyOf.exists_of_mentions {t u : Ty} (h : CopyOf limit rel p t u) {q : Polarity} {v : Var}
    (hlt : limit < v.level) : t.Mentions p q v → ∃ c, rel q v c := by
  refine h.structural (motive := fun p t _ => t.Mentions p q v → ∃ c, rel q v c)
    ?shared ?var ?arrow ?tuple ?record
  case shared =>
    intro p t hle hm
    exact absurd (hm.of_forall ((level_le_iff t limit).mp hle)) (Nat.not_le.mpr hlt)
  case var =>
    rintro p v c _ hc ⟨⟩
    exact ⟨c, hc⟩
  case arrow =>
    intro p n n' a a' b b' _ iha ihb hm
    cases hm with
    | param hm => exact iha hm
    | result hm => exact ihb hm
  case tuple =>
    intro p n n' ts us _ ih hm
    cases hm with
    | elem ht hm =>
      obtain ⟨_, -, ih⟩ := forall₂_exists_right ih ht
      exact ih hm
  case record =>
    intro p n n' fs gs _ ih hm
    cases hm with
    | field hf hm =>
      obtain ⟨_, -, -, ih⟩ := forall₂_exists_right ih hf
      exact ih hm

end Copies

end Ty
end Biunify
