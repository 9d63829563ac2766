import Biunify.Typing
import Biunify.Proofs.BoundTable.Bounds
import Biunify.Proofs.Perform
import Biunify.Proofs.Term.Structure

/-! What typing a term keeps, whatever its outcome. A discipline says which tables it is
about, which variables a type may mention at a level, and which schemes may be used there.
If making variables, relating types and specializing schemes keep to it, then so does typing
a term of any kind. -/

namespace Biunify

/-- From a table with the invariant the computation leads to an extension with the invariant,
and what it returns is as asked. -/
def Session.Keeps {α : Type} (inv : BoundTable → Prop) (s : Session) (x : CheckM α)
    (post : α → BoundTable → Prop) : Prop :=
  inv s.table → ∀ r s', s.perform x = (r, s') →
    s.table.Extends s'.table ∧ inv s'.table ∧ ∀ a, r = .ok a → post a s'.table

namespace Session.Keeps

variable {α β : Type} {inv : BoundTable → Prop} {s : Session} {post : α → BoundTable → Prop}
  {post' : β → BoundTable → Prop}

theorem bind {x : CheckM α} {f : α → CheckM β} (hx : s.Keeps inv x post)
    (hf : ∀ a (s' : Session), s.table.Extends s'.table → post a s'.table →
      s'.Keeps inv (f a) post') : s.Keeps inv (x >>= f) post' := by
  intro hs r s' h
  rw [perform_bind] at h
  rcases hr : s.perform x with ⟨r₁, s₁⟩
  obtain ⟨he, hs₁, hp⟩ := hx hs r₁ s₁ hr
  rw [hr] at h
  cases r₁ with
  | error e =>
    cases h
    exact ⟨he, hs₁, fun _ h => by cases h⟩
  | ok a =>
    obtain ⟨he', hs', hp'⟩ := hf a s₁ he (hp a rfl) hs₁ r s' h
    exact ⟨he.trans he', hs', hp'⟩

theorem mono {x : CheckM α} {post' : α → BoundTable → Prop} (hx : s.Keeps inv x post)
    (h : ∀ a t, post a t → post' a t) : s.Keeps inv x post' := by
  intro hs r s' hr
  obtain ⟨he, hs', hp⟩ := hx hs r s' hr
  exact ⟨he, hs', fun a ha => h a s'.table (hp a ha)⟩

theorem pure {a : α} (h : post a s.table) : s.Keeps inv (Pure.pure a) post := by
  intro hs r s' hr
  cases hr
  exact ⟨.refl _, hs, fun _ ha => by cases ha; exact h⟩

theorem throw (e : Stop) : s.Keeps inv (MonadExcept.throw e : CheckM α) post := by
  intro hs r s' hr
  cases hr
  exact ⟨.refl _, hs, fun _ ha => by cases ha⟩

theorem lift {x : SessionM α} (ht : (x.run s).2.table = s.table) (h : post (x.run s).1 s.table) :
    s.Keeps inv (liftM x) post := by
  intro hs r s' hr
  rw [perform_lift] at hr
  obtain ⟨rfl, rfl⟩ := Prod.mk.inj hr
  rw [ht]
  exact ⟨.refl _, hs, fun _ ha => by cases ha; exact h⟩

end Session.Keeps

theorem Context.find?_insert (ctx : Context) (name other : String) (scheme : Scheme) :
    (ctx.insert name scheme).find? other =
      if other = name then some scheme else ctx.find? other := by
  rw [find?, find?, insert, List.find?_cons]
  by_cases h : other = name
  · simp [h]
  · have hne : (name == other) = false := beq_eq_false_iff_ne.mpr (Ne.symm h)
    have hfind : (ctx.entries.filter fun entry => entry.1 != name).find?
        (fun entry => entry.1 == other) = ctx.entries.find? fun entry => entry.1 == other := by
      rw [List.find?_filter]
      congr 1
      funext entry
      by_cases he : entry.1 = other <;> simp [he, h]
    rw [if_neg h, hne, ← hfind]

/-- What typing keeps to. -/
structure Discipline where
  /-- The tables that are kept to. -/
  inv : BoundTable → Prop
  /-- The variables that a type may mention at a level. -/
  var : Nat → BoundTable → Var → Prop
  /-- The schemes that may be specialized at a level. -/
  scheme : Nat → BoundTable → Scheme → Prop
  var_extend : ∀ {level t t' v}, t.Extends t' → var level t v → var level t' v
  scheme_extend : ∀ {level t t' sc}, t.Extends t' → scheme level t sc → scheme level t' sc
  scheme_deeper : ∀ {level t sc}, scheme level t sc → scheme (level + 1) t sc
  mono : ∀ {level t ty}, ty.Forall (var level t) (fun _ => True) → scheme level t (.mono ty)
  poly : ∀ {level t ty}, ty.Forall (var (level + 1) t) (fun _ => True) →
    scheme level t (.poly ⟨level, ty⟩)
  newVar : ∀ {t} level, inv t → inv (t.addVar level) ∧ var level (t.addVar level) (t.nextVar level)
  relate : ∀ {level} {s : Session} {lhs rhs : Ty} fuel,
    lhs.Forall (var level s.table) (fun _ => True) →
    rhs.Forall (var level s.table) (fun _ => True) →
    s.Keeps inv (Biunify.relate fuel lhs rhs) fun _ _ => True
  specialize : ∀ {level} {s : Session} {sc : Scheme}, scheme level s.table sc →
    s.Keeps inv (sc.specialize level) fun ty t => ty.Forall (var level t) fun _ => True

namespace Discipline

variable (d : Discipline)

abbrev Types (level : Nat) (ty : Ty) (t : BoundTable) : Prop :=
  ty.Forall (d.var level t) fun _ => True

def Fits (ctx : Context) (level : Nat) (t : BoundTable) : Prop :=
  ∀ name sc, ctx.find? name = some sc → d.scheme level t sc

def Governs (fuel : Nat) (term : Term) : Prop :=
  ∀ (ctx : Context) (level : Nat) (s : Session), d.Fits ctx level s.table →
    s.Keeps d.inv (typeOf fuel ctx level term) (d.Types level)

variable {d} {fuel level : Nat} {ctx : Context} {t t' : BoundTable} {s : Session}

theorem Types.extend {ty : Ty} (h : d.Types level ty t) (hx : t.Extends t') :
    d.Types level ty t' :=
  h.imp (fun _ => d.var_extend hx) fun _ => id

theorem Fits.extend (h : d.Fits ctx level t) (hx : t.Extends t') : d.Fits ctx level t' :=
  fun name sc hf => d.scheme_extend hx (h name sc hf)

theorem Fits.deeper (h : d.Fits ctx level t) : d.Fits ctx (level + 1) t :=
  fun name sc hf => d.scheme_deeper (h name sc hf)

theorem Fits.insert (h : d.Fits ctx level t) {sc : Scheme} (hsc : d.scheme level t sc)
    (name : String) : d.Fits (ctx.insert name sc) level t := by
  intro other found hf
  rw [Context.find?_insert] at hf
  split at hf
  case isTrue => exact Option.some.inj hf ▸ hsc
  case isFalse => exact h other found hf

theorem newVar_keeps (d : Discipline) (s : Session) (level : Nat) :
    s.Keeps d.inv (liftM (SessionM.newVar level)) fun v t => d.var level t v := by
  intro hs r s' hr
  cases hr
  obtain ⟨hinv, hvar⟩ := d.newVar level hs
  refine ⟨.addVar s.table level, hinv, fun v hv => ?_⟩
  cases hv
  exact hvar

theorem typeElems_keeps {terms : List Term} (ih : ∀ t ∈ terms, d.Governs fuel t)
    (hctx : d.Fits ctx level s.table) :
    s.Keeps d.inv (typeElems fuel ctx level terms) fun tys t => ∀ ty ∈ tys, d.Types level ty t := by
  induction terms generalizing s with
  | nil => exact .pure (List.forall_mem_nil _)
  | cons term terms ihs =>
    rw [List.forall_mem_cons] at ih
    refine (ih.1 ctx level s hctx).bind fun ty s₁ hx₁ hty => ?_
    refine (ihs ih.2 (hctx.extend hx₁)).bind fun tys s₂ hx₂ htys => ?_
    exact .pure (List.forall_mem_cons.mpr ⟨hty.extend hx₂, htys⟩)

theorem typeFields_keeps {fields : List (String × Term)} (ih : ∀ f ∈ fields, d.Governs fuel f.2)
    (hctx : d.Fits ctx level s.table) :
    s.Keeps d.inv (typeFields fuel ctx level fields)
      fun fs t => ∀ f ∈ fs, d.Types level f.2 t := by
  induction fields generalizing s with
  | nil => exact .pure (List.forall_mem_nil _)
  | cons field fields ihs =>
    rw [List.forall_mem_cons] at ih
    refine (ih.1 ctx level s hctx).bind fun ty s₁ hx₁ hty => ?_
    refine (ihs ih.2 (hctx.extend hx₁)).bind fun fs s₂ hx₂ hfs => ?_
    exact .pure (List.forall_mem_cons.mpr ⟨hty.extend hx₂, hfs⟩)

theorem bindingScheme_keeps {rhs : Term} (ih : d.Governs fuel rhs)
    (hctx : d.Fits ctx level s.table) (name : String) (recursive : Bool) :
    s.Keeps d.inv (bindingScheme fuel ctx level name recursive fun ctx =>
        typeOf fuel ctx (level + 1) rhs)
      fun p t => p.level = level ∧ d.Types (level + 1) p.body t := by
  unfold bindingScheme
  split
  · refine (d.newVar_keeps s (level + 1)).bind fun v s₁ hx₁ hv => ?_
    have hself : d.Types (level + 1) (.var v) s₁.table := hv
    have hctx₁ := (hctx.extend hx₁).deeper.insert (d.mono hself) name
    refine (ih _ _ s₁ hctx₁).bind fun ty s₂ hx₂ hty => ?_
    refine (d.relate fuel hty (hself.extend hx₂)).bind fun _ s₃ hx₃ _ => ?_
    exact .pure ⟨rfl, (hself.extend hx₂).extend hx₃⟩
  · refine (ih ctx _ s hctx.deeper).bind fun ty s₁ _ hty => ?_
    exact .pure ⟨rfl, hty⟩

theorem demand_keeps {ty : Ty} {v : Var} {expected : SessionM Ty} (hty : d.Types level ty s.table)
    (hv : d.var level s.table v) (ht : (expected.run s).2.table = s.table)
    (he : d.Types level (expected.run s).1 s.table) :
    s.Keeps d.inv (do Biunify.relate fuel ty (← expected); return Ty.var v) (d.Types level) := by
  have hbuilt : s.Keeps d.inv (liftM expected) (d.Types level) := .lift ht he
  refine hbuilt.bind fun e s₁ hx₁ he => ?_
  refine (d.relate fuel (hty.extend hx₁) he).bind fun _ s₂ hx₂ _ => ?_
  exact .pure (d.var_extend hx₂ (d.var_extend hx₁ hv))

theorem governs (d : Discipline) (fuel : Nat) (term : Term) : d.Governs fuel term := by
  induction term with
  | literal value =>
    intro ctx level s hctx
    exact .pure trivial
  | var name =>
    intro ctx level s hctx
    rw [typeOf]
    split
    case h_1 sc hf => exact d.specialize (hctx name sc hf)
    case h_2 => exact .throw _
  | lambda param body ih =>
    intro ctx level s hctx
    rw [typeOf]
    refine (d.newVar_keeps s level).bind fun v s₁ hx₁ hv => ?_
    have hparam : d.Types level (.var v) s₁.table := hv
    have hctx₁ := (hctx.extend hx₁).insert (d.mono hparam) param
    refine (ih _ level s₁ hctx₁).bind fun ty s₂ hx₂ hty => ?_
    exact .lift rfl ⟨hparam.extend hx₂, hty⟩
  | apply fn arg ihf iha =>
    intro ctx level s hctx
    rw [typeOf]
    refine (ihf ctx level s hctx).bind fun fnTy s₁ hx₁ hfn => ?_
    refine (iha ctx level s₁ (hctx.extend hx₁)).bind fun argTy s₂ hx₂ harg => ?_
    refine (d.newVar_keeps s₂ level).bind fun v s₃ hx₃ hv => ?_
    exact demand_keeps ((hfn.extend hx₂).extend hx₃) hv rfl ⟨harg.extend hx₃, hv⟩
  | record fields ih =>
    intro ctx level s hctx
    rw [typeOf]
    refine (typeFields_keeps ih hctx).bind fun fs s₁ _ hfs => ?_
    exact .lift rfl ((Ty.forall_record ..).mpr ⟨trivial, hfs⟩)
  | select receiver field ih =>
    intro ctx level s hctx
    rw [typeOf]
    refine (ih ctx level s hctx).bind fun ty s₁ hx₁ hty => ?_
    refine (d.newVar_keeps s₁ level).bind fun v s₂ hx₂ hv => ?_
    exact demand_keeps (hty.extend hx₂) hv rfl ⟨trivial, hv, trivial⟩
  | tuple elems ih =>
    intro ctx level s hctx
    rw [typeOf]
    refine (typeElems_keeps ih hctx).bind fun tys s₁ _ htys => ?_
    exact .lift rfl ((Ty.forall_tuple ..).mpr htys)
  | letIn name recursive rhs body ihr ihb =>
    intro ctx level s hctx
    rw [typeOf]
    refine (bindingScheme_keeps ihr hctx name recursive).bind fun p s₁ hx₁ hp => ?_
    obtain ⟨level', ty⟩ := p
    obtain ⟨rfl, hty⟩ := hp
    exact ihb _ _ s₁ ((hctx.extend hx₁).insert (d.poly hty) name)

theorem emit_keeps (d : Discipline) (s : Session) (e : Event) :
    s.Keeps d.inv (liftM (SessionM.emit e)) fun _ _ => True := .lift rfl trivial

theorem infer_keeps (hctx : d.Fits ctx 0 s.table) (term : Term) :
    s.Keeps d.inv (infer fuel ctx term) (d.Types 0) := by
  refine (d.governs fuel term ctx 0 s hctx).bind fun ty s₁ _ hty => ?_
  refine (d.emit_keeps s₁ _).bind fun _ s₂ hx₂ _ => ?_
  exact .pure (hty.extend hx₂)

theorem inferDefinitions_keeps (defs : List Definition) (hctx : d.Fits ctx 0 s.table) :
    s.Keeps d.inv (inferDefinitions fuel ctx defs) fun _ _ => True := by
  induction defs generalizing ctx s with
  | nil => exact .pure trivial
  | cons def₀ defs ih =>
    rw [inferDefinitions]
    have hrhs := d.governs fuel def₀.rhs
    refine (bindingScheme_keeps hrhs hctx def₀.name def₀.recursive).bind fun p s₁ hx₁ hp => ?_
    refine (d.emit_keeps s₁ _).bind fun _ s₂ hx₂ _ => ?_
    obtain ⟨level', ty⟩ := p
    obtain ⟨rfl, hty⟩ := hp
    have hfits := (hctx.extend (hx₁.trans hx₂)).insert (d.poly (hty.extend hx₂)) def₀.name
    exact (ih hfits).bind fun _ _ _ _ => .pure trivial

end Discipline
end Biunify
