import Biunify.Proofs.Copy.Instances
import Biunify.Proofs.Relate.Steps
import Biunify.Proofs.Typing.Discipline

/-! What typing a term does to a session, whether it succeeds or not: bounds are only added,
they stay in scope, and none comes to lie deeper than its variable. A type that is returned
lies no deeper than the level it was asked for. -/

namespace Biunify

theorem Session.Keeps.relate_of_steps {inv : BoundTable → Prop} {names : List String → Prop}
    {s : Session} {lhs rhs : Ty} (fuel : Nat)
    (hst : inv s.table → (Goal.start s.table lhs rhs).Scoped names)
    (hadd : ∀ t level, inv t → inv (t.addVar level))
    (hstep : ∀ st, inv s.table → Goal.Steps (Goal.start s.table lhs rhs) st → inv st.table) :
    s.Keeps inv (relate fuel lhs rhs) fun _ _ => True := by
  intro hs r s' h
  obtain ⟨st, hsteps, hends⟩ := relate_runs (hst hs) h
  have hadds := hends.addsVars
  refine ⟨?_, hadds.keeps hadd (hstep st hs hsteps), fun _ _ => trivial⟩
  exact hadds.keeps (fun t level h => h.trans (.addVar t level)) (hsteps.toExtends (hst hs))

abbrev Session.Safe {α : Type} (s : Session) (x : CheckM α) (post : α → BoundTable → Prop) : Prop :=
  s.Keeps BoundTable.Sound x post

namespace Session.Safe

variable {s : Session}

theorem relate (fuel : Nat) {lhs rhs : Ty} (hl : lhs.InScope s.table) (hr : rhs.InScope s.table) :
    s.Safe (Biunify.relate fuel lhs rhs) fun _ _ => True := by
  have hst : s.table.Sound → (Goal.start s.table lhs rhs).Scoped fun _ => True :=
    fun hs => Goal.start_scoped hs.inScope hl hr
  apply Session.Keeps.relate_of_steps fuel hst fun _ level h => h.addVar level
  intro st hs hsteps
  exact ⟨(hsteps.inScope (hst hs)).table, hsteps.leveled (hst hs) hs.leveled⟩

theorem specialize {scheme : Scheme} {level : Nat} (hb : scheme.body.InScope s.table)
    (hle : ∀ p, scheme = .poly p → p.level ≤ level) :
    s.Safe (scheme.specialize level) fun ty t => ty.InScope t ∧
      ((∀ ty, scheme = .mono ty → ty.level ≤ level) → ty.level ≤ level) := by
  cases scheme with
  | mono ty => exact .pure ⟨hb, fun h => h ty rfl⟩
  | poly p =>
    intro hs r s' h
    obtain ⟨ty, m, s₁, hrun, hi, himage, -⟩ := p.specialize_performs hs.inScope hb level
    cases h.symm.trans hrun
    have hle := hle p rfl
    refine ⟨hi.toExtends, ⟨hi.inScope hs.inScope, hi.leveled hle hs.leveled⟩, fun _ hty => ?_⟩
    cases hty
    exact ⟨hi.copy_forall himage hb, fun _ => hi.copy_level_le hle himage⟩

end Session.Safe

namespace Context

structure Fits (ctx : Context) (t : BoundTable) (level : Nat) : Prop where
  inScope : ∀ {name scheme}, ctx.find? name = some scheme → scheme.body.InScope t
  poly_le : ∀ {name p}, ctx.find? name = some (.poly p) → p.level ≤ level

def MonoWithin (ctx : Context) (level : Nat) : Prop :=
  ∀ {name ty}, ctx.find? name = some (.mono ty) → ty.level ≤ level

variable {ctx : Context} {t t' : BoundTable} {level : Nat}

theorem Fits.extend (h : ctx.Fits t level) (hx : t.Extends t') {level' : Nat}
    (hle : level ≤ level') : ctx.Fits t' level' :=
  ⟨fun hf => hx.inScope (h.inScope hf), fun hf => (h.poly_le hf).trans hle⟩

theorem Fits.insert (h : ctx.Fits t level) {scheme : Scheme} (hb : scheme.body.InScope t)
    (hle : ∀ p, scheme = .poly p → p.level ≤ level) (name : String) :
    (ctx.insert name scheme).Fits t level := by
  constructor
  · intro other found hf
    rw [find?_insert] at hf
    split at hf
    case isTrue =>
      cases hf
      exact hb
    case isFalse => exact h.inScope hf
  · intro other p hf
    rw [find?_insert] at hf
    split at hf
    case isTrue => exact hle p (Option.some.inj hf)
    case isFalse => exact h.poly_le hf

end Context

def Context.Types (ctx : Context) (level : Nat) (ty : Ty) (t : BoundTable) : Prop :=
  ty.InScope t ∧ (ctx.MonoWithin level → ty.level ≤ level)

theorem Context.Types.extend {ctx : Context} {level : Nat} {ty : Ty} {t t' : BoundTable}
    (h : ctx.Types level ty t) (hx : t.Extends t') : ctx.Types level ty t' :=
  ⟨hx.inScope h.1, h.2⟩

def Scheme.Usable (bounded : Prop) (level : Nat) (t : BoundTable) : Scheme → Prop
  | .mono ty => ty.InScope t ∧ (bounded → ty.level ≤ level)
  | .poly p => p.body.InScope t ∧ p.level ≤ level

namespace Discipline

theorem forall_leveled_iff {bounded : Prop} {level : Nat} {t : BoundTable} {ty : Ty} :
    ty.Forall (fun v => t.Owns v ∧ (bounded → v.level ≤ level)) (fun _ => True) ↔
      ty.InScope t ∧ (bounded → ty.level ≤ level) := by
  rw [Ty.level_le_iff]
  constructor
  · intro h
    refine ⟨h.imp (fun _ => And.left) fun _ => id, fun hb => ?_⟩
    exact h.imp (fun _ hv => hv.2 hb) fun _ => id
  · rintro ⟨hscope, hlevel⟩
    by_cases hb : bounded
    · exact (hscope.and (hlevel hb)).imp (fun _ hv => ⟨hv.1, fun _ => hv.2⟩) fun _ => id
    · exact hscope.imp (fun _ hv => ⟨hv, fun h => absurd h hb⟩) fun _ => id

/-- Bounds stay in scope and no deeper than their variables. Types stay in scope and, if that
is asked for, up to the level. -/
def leveled (bounded : Prop) : Discipline where
  inv := BoundTable.Sound
  var level t v := t.Owns v ∧ (bounded → v.level ≤ level)
  scheme := Scheme.Usable bounded
  var_extend hx hv := ⟨hx.owns hv.1, hv.2⟩
  scheme_extend {_ _ _ sc} hx h := by
    cases sc with
    | mono ty => exact ⟨hx.inScope h.1, h.2⟩
    | poly p => exact ⟨hx.inScope h.1, h.2⟩
  scheme_deeper {_ _ sc} h := by
    cases sc with
    | mono ty => exact ⟨h.1, fun hb => (h.2 hb).trans (Nat.le_succ _)⟩
    | poly p => exact ⟨h.1, h.2.trans (Nat.le_succ _)⟩
  mono := forall_leveled_iff.mp
  poly h := ⟨(forall_leveled_iff.mp h).1, le_rfl⟩
  newVar level h := ⟨h.addVar level, (BoundTable.owns_addVar ..).mpr (.inr rfl), fun _ => le_rfl⟩
  relate fuel hl hr := Session.Safe.relate fuel (forall_leveled_iff.mp hl).1
    (forall_leveled_iff.mp hr).1
  specialize {level s sc} h := by
    cases sc with
    | mono ty => exact .pure (forall_leveled_iff.mpr h)
    | poly p =>
      have hspec : s.Safe ((Scheme.poly p).specialize level) _ :=
        Session.Safe.specialize h.1 fun _ hp => by cases hp; exact h.2
      refine hspec.mono fun ty t hty => forall_leveled_iff.mpr ⟨hty.1, fun _ => hty.2 ?_⟩
      exact fun _ hm => by cases hm

theorem leveled_fits {ctx : Context} {t : BoundTable} {level : Nat} (h : ctx.Fits t level) :
    (leveled (ctx.MonoWithin level)).Fits ctx level t := by
  intro name sc hf
  cases sc with
  | mono ty => exact ⟨h.inScope hf, fun hmono => hmono hf⟩
  | poly p => exact ⟨h.inScope hf, h.poly_le hf⟩

end Discipline

section Typing

variable {fuel : Nat} {ctx : Context} {level : Nat} {s : Session}

theorem typeOf_safe (term : Term) (ctx : Context) (level : Nat) (s : Session)
    (hctx : ctx.Fits s.table level) :
    s.Safe (typeOf fuel ctx level term) (ctx.Types level) := by
  have hgoverns := (Discipline.leveled (ctx.MonoWithin level)).governs fuel term ctx level s
  exact (hgoverns (Discipline.leveled_fits hctx)).mono fun _ _ => Discipline.forall_leveled_iff.mp

end Typing

end Biunify
