import Biunify.Proofs.Relate.Soundness
import Biunify.Proofs.Typing.Discipline
import Mathlib.Logic.Function.Basic

/-! The typing rules, with subsumption, for terms without `let`, over the elements of a
reading. Since subsumption can be used anywhere, a derivation does not follow its term; the
inversion lemmas say what a typing of each kind of term comes from. -/

namespace Biunify

universe u

/-- The types that a term has, given those of its names. -/
inductive HasType {α : Type u} [Preorder α] (R : Reading α) :
    (String → Option α) → Term → α → Prop
  | literal {Γ : String → Option α} (value : Literal) :
    HasType R Γ (.literal value) (R.build (.base value.baseTy))
  | var {Γ : String → Option α} {name : String} {a : α} (h : Γ name = some a) :
    HasType R Γ (.var name) a
  | lambda {Γ : String → Option α} {param : String} {body : Term} {a b : α}
    (h : HasType R (Function.update Γ param (some a)) body b) :
    HasType R Γ (.lambda param body) (R.build (.arrow a b))
  | apply {Γ : String → Option α} {fn arg : Term} {a b : α}
    (hf : HasType R Γ fn (R.build (.arrow a b))) (ha : HasType R Γ arg a) :
    HasType R Γ (.apply fn arg) b
  | record {Γ : String → Option α} {fields : List (String × Term)} {as : List (String × α)}
    (hnames : fields.map Prod.fst = as.map Prod.fst)
    (h : ∀ p ∈ fields.zip as, HasType R Γ p.1.2 p.2.2) :
    HasType R Γ (.record fields) (R.build (.record as))
  | select {Γ : String → Option α} {receiver : Term} {field : String} {a : α}
    (h : HasType R Γ receiver (R.build (.record [(field, a)]))) :
    HasType R Γ (.select receiver field) a
  | tuple {Γ : String → Option α} {elems : List Term} {as : List α}
    (hlength : elems.length = as.length) (h : ∀ p ∈ elems.zip as, HasType R Γ p.1 p.2) :
    HasType R Γ (.tuple elems) (R.build (.tuple as))
  | sub {Γ : String → Option α} {term : Term} {a b : α} (h : HasType R Γ term a) (hle : a ≤ b) :
    HasType R Γ term b

namespace HasType

variable {α : Type u} [Preorder α] {R : Reading α} {Γ : String → Option α} {m : α}

theorem tuple_of_forall₂ {elems : List Term} {as : List α}
    (h : List.Forall₂ (HasType R Γ) elems as) :
    HasType R Γ (.tuple elems) (R.build (.tuple as)) := by
  rw [List.forall₂_iff_zip] at h
  exact .tuple h.1 fun p hp => h.2 hp

theorem record_of_forall₂ {fields : List (String × Term)} {as : List (String × α)}
    (h : List.Forall₂ (fun f a => f.1 = a.1 ∧ HasType R Γ f.2 a.2) fields as) :
    HasType R Γ (.record fields) (R.build (.record as)) := by
  have hnames : fields.map Prod.fst = as.map Prod.fst :=
    map_eq_of_forall₂ h fun _ _ _ => And.left
  rw [List.forall₂_iff_zip] at h
  exact .record hnames fun p hp => (h.2 hp).2

theorem literal_inv {value : Literal} (h : HasType R Γ (.literal value) m) :
    R.build (.base value.baseTy) ≤ m := by
  generalize hterm : Term.literal value = term at h
  induction h with
  | literal => cases hterm; exact le_rfl
  | sub _ hle ih => exact (ih hterm).trans hle
  | _ => cases hterm

theorem var_inv {name : String} (h : HasType R Γ (.var name) m) :
    ∃ a, Γ name = some a ∧ a ≤ m := by
  generalize hterm : Term.var name = term at h
  induction h with
  | var h => cases hterm; exact ⟨_, h, le_rfl⟩
  | sub _ hle ih =>
    obtain ⟨a, ha, ham⟩ := ih hterm
    exact ⟨a, ha, ham.trans hle⟩
  | _ => cases hterm

theorem lambda_inv {param : String} {body : Term} (h : HasType R Γ (.lambda param body) m) :
    ∃ a b, HasType R (Function.update Γ param (some a)) body b ∧ R.build (.arrow a b) ≤ m := by
  generalize hterm : Term.lambda param body = term at h
  induction h with
  | lambda h => cases hterm; exact ⟨_, _, h, le_rfl⟩
  | sub _ hle ih =>
    obtain ⟨a, b, hbody, ham⟩ := ih hterm
    exact ⟨a, b, hbody, ham.trans hle⟩
  | _ => cases hterm

theorem apply_inv {fn arg : Term} (h : HasType R Γ (.apply fn arg) m) :
    ∃ a b, HasType R Γ fn (R.build (.arrow a b)) ∧ HasType R Γ arg a ∧ b ≤ m := by
  generalize hterm : Term.apply fn arg = term at h
  induction h with
  | apply hf ha => cases hterm; exact ⟨_, _, hf, ha, le_rfl⟩
  | sub _ hle ih =>
    obtain ⟨a, b, hf, ha, hbm⟩ := ih hterm
    exact ⟨a, b, hf, ha, hbm.trans hle⟩
  | _ => cases hterm

theorem record_inv {fields : List (String × Term)} (h : HasType R Γ (.record fields) m) :
    ∃ as, List.Forall₂ (fun f a => f.1 = a.1 ∧ HasType R Γ f.2 a.2) fields as ∧
      R.build (.record as) ≤ m := by
  generalize hterm : Term.record fields = term at h
  induction h with
  | @record Γ fields' as hnames h =>
    cases hterm
    have hlength : fields.length = as.length := by simpa using congrArg List.length hnames
    rw [← List.forall₂_eq_eq_eq, List.forall₂_map_left_iff, List.forall₂_map_right_iff,
      List.forall₂_iff_zip] at hnames
    exact ⟨as, List.forall₂_iff_zip.mpr ⟨hlength, fun hp => ⟨hnames.2 hp, h _ hp⟩⟩, le_rfl⟩
  | sub _ hle ih =>
    obtain ⟨as, has, ham⟩ := ih hterm
    exact ⟨as, has, ham.trans hle⟩
  | _ => cases hterm

theorem select_inv {receiver : Term} {field : String} (h : HasType R Γ (.select receiver field) m) :
    ∃ a, HasType R Γ receiver (R.build (.record [(field, a)])) ∧ a ≤ m := by
  generalize hterm : Term.select receiver field = term at h
  induction h with
  | select h => cases hterm; exact ⟨_, h, le_rfl⟩
  | sub _ hle ih =>
    obtain ⟨a, hreceiver, ham⟩ := ih hterm
    exact ⟨a, hreceiver, ham.trans hle⟩
  | _ => cases hterm

theorem tuple_inv {elems : List Term} (h : HasType R Γ (.tuple elems) m) :
    ∃ as, List.Forall₂ (HasType R Γ) elems as ∧ R.build (.tuple as) ≤ m := by
  generalize hterm : Term.tuple elems = term at h
  induction h with
  | tuple hlength h =>
    cases hterm
    exact ⟨_, List.forall₂_iff_zip.mpr ⟨hlength, fun hp => h _ hp⟩, le_rfl⟩
  | sub _ hle ih =>
    obtain ⟨as, has, ham⟩ := ih hterm
    exact ⟨as, has, ham.trans hle⟩
  | _ => cases hterm

end HasType

/-- No `let` occurs in the term; the fields of a record have different names, and all field
names are plain. -/
inductive Term.LetFree : Term → Prop
  | literal (value : Literal) : LetFree (.literal value)
  | var (name : String) : LetFree (.var name)
  | lambda (param : String) {body : Term} (h : LetFree body) : LetFree (.lambda param body)
  | apply {fn arg : Term} (hf : LetFree fn) (ha : LetFree arg) : LetFree (.apply fn arg)
  | record {fields : List (String × Term)} (hnames : Ty.FieldNames (fields.map Prod.fst))
    (h : ∀ f ∈ fields, LetFree f.2) : LetFree (.record fields)
  | select {receiver : Term} {field : String} (hname : Ty.PlainName field)
    (h : LetFree receiver) : LetFree (.select receiver field)
  | tuple {elems : List Term} (h : ∀ t ∈ elems, LetFree t) : LetFree (.tuple elems)

end Biunify
