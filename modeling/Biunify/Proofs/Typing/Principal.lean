import Biunify.Proofs.Copy.Instances
import Biunify.Proofs.Relate.Completeness
import Biunify.Proofs.Relate.Termination
import Biunify.Proofs.Typing.HasType

/-! Typing terms without `let` is sound and principal. Whatever assignment satisfies the
bounds in the end, the returned type is one that the typing rules give the term. And whatever
type the rules give it under an assignment of the variables so far, typing succeeds and the
assignment extends to the new variables so that the returned type lies below that type. -/

namespace Biunify

universe u

abbrev Ty.Plain (ty : Ty) (t : BoundTable) : Prop := ty.Forall t.Owns Ty.FieldNames

theorem BoundTable.Extends.plain {t t' : BoundTable} (h : t.Extends t') {ty : Ty}
    (hty : ty.Plain t) : ty.Plain t' :=
  hty.imp (fun _ => h.owns) fun _ => id

structure BoundTable.Plain (t : BoundTable) : Prop where
  inScope : t.Scoped Ty.FieldNames
  leveled : t.Leveled

theorem BoundTable.Plain.addVar {t : BoundTable} (h : t.Plain) (level : Nat) :
    (t.addVar level).Plain :=
  ⟨h.inScope.addVar level, h.leveled.addVar level⟩

namespace Context

def Monomorphic (ctx : Context) (t : BoundTable) : Prop :=
  ∀ name sc, ctx.find? name = some sc → ∃ ty, sc = .mono ty ∧ ty.Plain t

theorem Monomorphic.extend {ctx : Context} {t t' : BoundTable} (h : ctx.Monomorphic t)
    (hx : t.Extends t') : ctx.Monomorphic t' := by
  intro name sc hf
  obtain ⟨ty, rfl, hty⟩ := h name sc hf
  exact ⟨ty, rfl, hx.plain hty⟩

theorem Monomorphic.insert {ctx : Context} {t : BoundTable} (h : ctx.Monomorphic t) {ty : Ty}
    (hty : ty.Plain t) (name : String) : (ctx.insert name (.mono ty)).Monomorphic t := by
  intro other sc hf
  rw [find?_insert] at hf
  split at hf
  case isTrue => exact ⟨ty, (Option.some.inj hf).symm, hty⟩
  case isFalse => exact h other sc hf

variable {α : Type u} [Preorder α] {R : Reading α} {ρ ρ' : Nat → α} {ctx : Context}

def read (R : Reading α) (ρ : Nat → α) (ctx : Context) : String → Option α :=
  fun name => (ctx.find? name).map fun sc => R.read ρ sc.body

theorem read_insert (name : String) (ty : Ty) :
    (ctx.insert name (.mono ty)).read R ρ =
      Function.update (ctx.read R ρ) name (some (R.read ρ ty)) := by
  funext other
  rw [read, find?_insert, Function.update_apply]
  split
  case isTrue => rfl
  case isFalse => rfl

theorem read_congr {t : BoundTable} (h : ctx.Monomorphic t) (hρ : ∀ i < t.size, ρ i = ρ' i) :
    ctx.read R ρ = ctx.read R ρ' := by
  funext name
  rw [read, read]
  cases hf : ctx.find? name with
  | none => rfl
  | some sc =>
    obtain ⟨ty, rfl, hty⟩ := h name sc hf
    exact congrArg some (Reading.read_congr hty fun v hv => hρ v.id hv.lt_size)

end Context

theorem Reading.Satisfies.anti {α : Type u} [Preorder α] {R : Reading α} {ρ : Nat → α}
    {t t' : BoundTable} (h : R.Satisfies ρ t') (hx : t.Extends t') : R.Satisfies ρ t :=
  Reading.satisfies_iff.mpr fun _ _ _ hb => h.le (hx.mem hb)

section Soundness

variable {α : Type u} [Preorder α] {R : Reading α} {fuel level : Nat} {ctx : Context} {s : Session}

namespace Session.Keeps

theorem newVar_plain (s : Session) (level : Nat) :
    s.Keeps BoundTable.Plain (liftM (SessionM.newVar level)) fun v t => (Ty.var v).Plain t := by
  intro hs r s' hr
  cases hr
  refine ⟨.addVar s.table level, hs.addVar level, fun v hv => ?_⟩
  cases hv
  exact (BoundTable.owns_addVar ..).mpr (.inr rfl)

theorem relate_holds (R : Reading α) (fuel : Nat) {lhs rhs : Ty} (hl : lhs.Plain s.table)
    (hr : rhs.Plain s.table) :
    s.Keeps BoundTable.Plain (relate fuel lhs rhs) fun _ t =>
      ∀ ρ, R.Satisfies ρ t → R.read ρ lhs ≤ R.read ρ rhs := by
  intro hs r s' h
  have hst := Goal.start_scoped hs.inScope hl hr
  obtain ⟨st, hsteps, hends⟩ := relate_runs hst h
  have hplain : st.table.Plain := ⟨(hsteps.inScope hst).table, hsteps.leveled hst hs.leveled⟩
  have hadds := hends.addsVars
  refine ⟨?_, hadds.keeps (fun _ level h => h.addVar level) hplain, fun _ hok ρ hρ => ?_⟩
  · exact hadds.keeps (fun t level h => h.trans (.addVar t level)) (hsteps.toExtends hst)
  · subst hok
    exact (relate_finishes hst h).holds hst (Goal.memoSound_nil _ _) hρ _ List.mem_cons_self

end Session.Keeps

def Term.Typed (R : Reading α) (ctx : Context) (term : Term) (ty : Ty) (t : BoundTable) : Prop :=
  ty.Plain t ∧ ∀ ρ, R.Satisfies ρ t → HasType R (ctx.read R ρ) term (R.read ρ ty)

theorem Term.Typed.extend {term : Term} {ty : Ty} {t t' : BoundTable} (h : term.Typed R ctx ty t)
    (hx : t.Extends t') : term.Typed R ctx ty t' :=
  ⟨hx.plain h.1, fun ρ hρ => h.2 ρ (hρ.anti hx)⟩

def Term.TypesSoundly (R : Reading α) (fuel : Nat) (term : Term) : Prop :=
  ∀ (ctx : Context) (level : Nat) (s : Session), ctx.Monomorphic s.table →
    s.Keeps BoundTable.Plain (typeOf fuel ctx level term) (term.Typed R ctx)

theorem typeElems_sound {terms : List Term} (ih : ∀ t ∈ terms, t.TypesSoundly R fuel)
    (hctx : ctx.Monomorphic s.table) :
    s.Keeps BoundTable.Plain (typeElems fuel ctx level terms) fun tys t =>
      List.Forall₂ (fun term ty => term.Typed R ctx ty t) terms tys := by
  induction terms generalizing s with
  | nil => exact .pure .nil
  | cons term terms ihs =>
    rw [List.forall_mem_cons] at ih
    refine (ih.1 ctx level s hctx).bind fun ty s₁ hx₁ hty => ?_
    refine (ihs ih.2 (hctx.extend hx₁)).bind fun tys s₂ hx₂ htys => ?_
    exact .pure (.cons (hty.extend hx₂) htys)

theorem typeFields_sound {fields : List (String × Term)}
    (ih : ∀ f ∈ fields, f.2.TypesSoundly R fuel) (hctx : ctx.Monomorphic s.table) :
    s.Keeps BoundTable.Plain (typeFields fuel ctx level fields) fun fs t =>
      List.Forall₂ (fun field f => field.1 = f.1 ∧ field.2.Typed R ctx f.2 t) fields fs := by
  induction fields generalizing s with
  | nil => exact .pure .nil
  | cons field fields ihs =>
    rw [List.forall_mem_cons] at ih
    refine (ih.1 ctx level s hctx).bind fun ty s₁ hx₁ hty => ?_
    refine (ihs ih.2 (hctx.extend hx₁)).bind fun fs s₂ hx₂ hfs => ?_
    exact .pure (.cons ⟨rfl, hty.extend hx₂⟩ hfs)

theorem demand_sound {ty e result : Ty} {expected : SessionM Ty} (hty : ty.Plain s.table)
    (he : e.Plain s.table) (hbuilt : (expected.run s).1 = e)
    (ht : (expected.run s).2.table = s.table) :
    s.Keeps BoundTable.Plain (do relate fuel ty (← expected); return result) fun found t =>
      found = result ∧ s.table.Extends t ∧ ∀ ρ, R.Satisfies ρ t → R.read ρ ty ≤ R.read ρ e := by
  have hlift : s.Keeps BoundTable.Plain (liftM expected) fun found t => found = e ∧ t = s.table :=
    .lift ht ⟨hbuilt, rfl⟩
  refine hlift.bind fun found s₁ hx₁ ⟨hfound, ht₁⟩ => ?_
  subst hfound
  rw [← ht₁] at hty he
  refine (Session.Keeps.relate_holds R fuel hty he).bind fun _ s₂ hx₂ hle => ?_
  exact .pure ⟨rfl, hx₁.trans hx₂, hle⟩

theorem typeOf_sound {term : Term} (h : term.LetFree) : term.TypesSoundly R fuel := by
  induction h with
  | literal value =>
    intro ctx level s hctx
    refine .pure ⟨trivial, fun ρ _ => ?_⟩
    rw [Reading.read_base]
    exact .literal value
  | var name =>
    intro ctx level s hctx
    rw [typeOf]
    split
    case h_1 sc hf =>
      obtain ⟨ty, rfl, hty⟩ := hctx name sc hf
      refine .pure ⟨hty, fun ρ _ => .var ?_⟩
      rw [Context.read, hf]
      rfl
    case h_2 => exact .throw _
  | lambda param h ih =>
    intro ctx level s hctx
    rw [typeOf]
    refine (Session.Keeps.newVar_plain s level).bind fun v s₁ hx₁ hv => ?_
    have hctx₁ := (hctx.extend hx₁).insert hv param
    refine (ih _ level s₁ hctx₁).bind fun ty s₂ hx₂ hty => ?_
    refine .lift rfl ⟨⟨hx₂.plain hv, hty.1⟩, fun ρ hρ => ?_⟩
    show HasType R _ _ (R.read ρ (.arrow s₂.nextNode (.var v) ty))
    have hbody := hty.2 ρ hρ
    rw [Context.read_insert] at hbody
    rw [Reading.read_arrow]
    exact .lambda hbody
  | apply hf ha ihf iha =>
    intro ctx level s hctx
    rw [typeOf]
    refine (ihf ctx level s hctx).bind fun fnTy s₁ hx₁ hfn => ?_
    refine (iha ctx level s₁ (hctx.extend hx₁)).bind fun argTy s₂ hx₂ harg => ?_
    refine (Session.Keeps.newVar_plain s₂ level).bind fun v s₃ hx₃ hv => ?_
    have hfn₃ := (hfn.extend hx₂).extend hx₃
    have harg₃ := harg.extend hx₃
    have hexpected : (Ty.arrow s₃.nextNode argTy (.var v)).Plain s₃.table := ⟨harg₃.1, hv⟩
    refine (demand_sound (R := R) hfn₃.1 hexpected rfl rfl).mono ?_
    rintro _ t ⟨rfl, hx, hle⟩
    refine ⟨hx.plain hv, fun ρ hρ => ?_⟩
    have hfnTyped := (hfn₃.2 ρ (hρ.anti hx)).sub (hle ρ hρ)
    rw [Reading.read_arrow] at hfnTyped
    exact .apply hfnTyped (harg₃.2 ρ (hρ.anti hx))
  | @record fields hnames h ih =>
    intro ctx level s hctx
    rw [typeOf]
    refine (typeFields_sound ih hctx).bind fun fs s₁ _ hfs => ?_
    refine .lift rfl ⟨?_, fun ρ hρ => ?_⟩
    · have hsame : fields.map Prod.fst = Ty.names fs :=
        map_eq_of_forall₂ hfs fun _ _ _ => And.left
      refine (Ty.forall_record ..).mpr ⟨hsame ▸ hnames, fun f hf => ?_⟩
      obtain ⟨field, -, hfield⟩ := forall₂_exists_left hfs hf
      exact hfield.2.1
    · show HasType R _ _ (R.read ρ (.record s₁.nextNode fs))
      rw [Reading.read_record]
      refine .record_of_forall₂ (List.forall₂_map_right_iff.mpr ?_)
      exact hfs.imp fun _ _ h => ⟨h.1, h.2.2 ρ hρ⟩
  | @select receiver field hname h ih =>
    intro ctx level s hctx
    rw [typeOf]
    refine (ih ctx level s hctx).bind fun ty s₁ hx₁ hty => ?_
    refine (Session.Keeps.newVar_plain s₁ level).bind fun v s₂ hx₂ hv => ?_
    have hnames : Ty.FieldNames [field] :=
      ⟨List.nodup_singleton field, List.forall_mem_singleton.mpr hname⟩
    have hty₂ := hty.extend hx₂
    have hexpected : (Ty.record s₂.nextNode [(field, .var v)]).Plain s₂.table :=
      ⟨hnames, hv, trivial⟩
    refine (demand_sound (R := R) hty₂.1 hexpected rfl rfl).mono ?_
    rintro _ t ⟨rfl, hx, hle⟩
    refine ⟨hx.plain hv, fun ρ hρ => ?_⟩
    have htyped := (hty₂.2 ρ (hρ.anti hx)).sub (hle ρ hρ)
    rw [Reading.read_record] at htyped
    exact .select htyped
  | tuple h ih =>
    intro ctx level s hctx
    rw [typeOf]
    refine (typeElems_sound ih hctx).bind fun tys s₁ _ htys => ?_
    refine .lift rfl ⟨?_, fun ρ hρ => ?_⟩
    · refine (Ty.forall_tuple ..).mpr fun ty hty => ?_
      obtain ⟨term, -, hterm⟩ := forall₂_exists_left htys hty
      exact hterm.1
    · show HasType R _ _ (R.read ρ (.tuple s₁.nextNode tys))
      rw [Reading.read_tuple]
      refine .tuple_of_forall₂ (List.forall₂_map_right_iff.mpr ?_)
      exact htys.imp fun _ _ h => h.2 ρ hρ

end Soundness

/-- From a session and an assignment for it to later ones: old variables keep their elements,
and the new bounds are satisfied too. -/
structure Reading.Advances {α : Type u} [Preorder α] (R : Reading α) (s : Session) (ρ : Nat → α)
    (s' : Session) (ρ' : Nat → α) : Prop where
  toExtends : s.table.Extends s'.table
  plain : s'.table.Plain
  agrees : ∀ i < s.table.size, ρ' i = ρ i
  satisfies : R.Satisfies ρ' s'.table

section Completeness

variable {α : Type u} [Preorder α] {s s₁ s' : Session} {ρ ρ₁ ρ' : Nat → α}

namespace Reading.Advances

variable {R : Reading α}

theorem refl (hs : s.table.Plain) (hρ : R.Satisfies ρ s.table) : R.Advances s ρ s ρ :=
  ⟨.refl _, hs, fun _ _ => rfl, hρ⟩

theorem trans (h : R.Advances s ρ s₁ ρ₁) (h' : R.Advances s₁ ρ₁ s' ρ') : R.Advances s ρ s' ρ' where
  toExtends := h.toExtends.trans h'.toExtends
  plain := h'.plain
  agrees i hi := (h'.agrees i (hi.trans_le h.toExtends.size_le)).trans (h.agrees i hi)
  satisfies := h'.satisfies

theorem read_eq (h : R.Advances s ρ s' ρ') {ty : Ty} (hty : ty.Plain s.table) :
    R.read ρ' ty = R.read ρ ty :=
  Reading.read_congr hty fun v hv => h.agrees v.id hv.lt_size

theorem context_read_eq (h : R.Advances s ρ s' ρ') {ctx : Context}
    (hctx : ctx.Monomorphic s.table) : ctx.read R ρ' = ctx.read R ρ :=
  Context.read_congr hctx h.agrees

theorem of_table_eq (h : R.Advances s ρ s₁ ρ₁) (ht : s'.table = s₁.table) :
    R.Advances s ρ s' ρ₁ :=
  ⟨ht ▸ h.toExtends, ht ▸ h.plain, h.agrees, ht ▸ h.satisfies⟩

end Reading.Advances

theorem newVar_advances {R : Reading α} (hs : s.table.Plain) (hρ : R.Satisfies ρ s.table)
    (level : Nat) (a : α) :
    ∃ v s' ρ', s.Settles (fun _ => liftM (SessionM.newVar level)) (.ok v) s' ∧
      R.Advances s ρ s' ρ' ∧ (Ty.var v).Plain s'.table ∧ R.read ρ' (.var v) = a := by
  have hold : ∀ i < s.table.size, Function.update ρ s.table.size a i = ρ i :=
    fun i hi => Function.update_of_ne hi.ne a ρ
  refine ⟨s.table.nextVar level, { s with table := s.table.addVar level },
    Function.update ρ s.table.size a, .of_forall fun _ => rfl,
    ⟨.addVar s.table level, hs.addVar level, hold, ?_⟩, ?_, ?_⟩
  · rw [Reading.satisfies_iff]
    intro p v b hb
    rw [BoundTable.bounds_addVar] at hb
    rw [Reading.read_congr (hs.inScope p v b hb) fun w hw => hold w.id hw.lt_size,
      hold v.id (BoundTable.lt_size_of_mem_bounds hb)]
    exact hρ.le hb
  · exact (BoundTable.owns_addVar ..).mpr (.inr rfl)
  · rw [Reading.read_var]
    exact Function.update_self ..

variable {R : ExactReading α}

theorem relate_advances (hs : s.table.Plain) (hρ : R.Satisfies ρ s.table) {lhs rhs : Ty}
    (hl : lhs.Plain s.table) (hr : rhs.Plain s.table) (hle : R.read ρ lhs ≤ R.read ρ rhs) :
    ∃ s' ρ', s.Settles (relate · lhs rhs) (.ok ()) s' ∧ R.Advances s ρ s' ρ' := by
  have hnodup : ∀ ns, Ty.FieldNames ns → ns.Nodup := fun _ h => h.1
  have hst := Goal.start_scoped (hs.inScope.imp hnodup) (hl.imp (fun _ => id) hnodup)
    (hr.imp (fun _ => id) hnodup)
  have hsound : s.table.Sound := ⟨hs.inScope.imp fun _ _ => trivial, hs.leveled⟩
  have hscope : (Goal.start s.table lhs rhs).Scoped fun _ => True :=
    Goal.start_scoped hsound.inScope (hl.imp (fun _ => id) fun _ _ => trivial)
      (hr.imp (fun _ => id) fun _ _ => trivial)
  obtain ⟨r, s', hsettles⟩ := relate_settles hsound hscope
  obtain ⟨fuel, hfuel⟩ := hsettles.enough
  have hrun := hfuel fuel le_rfl
  obtain ⟨st, hsteps, hends⟩ := relate_runs hst hrun
  have hstart : (Goal.start s.table lhs rhs).Solvable R.toReading s.table.size ρ :=
    ⟨ρ, fun _ _ => rfl, hρ, List.forall_mem_singleton.mpr hle⟩
  obtain ⟨ρ', hagrees, hsatisfies, hgoals⟩ := hsteps.solvable hst hstart
  obtain ⟨hextends, hplain, -⟩ := Session.Keeps.relate_holds R.toReading fuel hl hr hs r s' hrun
  match r with
  | .ok () => exact ⟨s', ρ', hsettles, hextends, hplain, hagrees, hends.2 ▸ hsatisfies⟩
  | .error .outOfFuel => exact absurd rfl hsettles.answers
  | .error (.failed e) =>
    obtain ⟨-, g, hg, hrefused⟩ := hends
    have hscope := (hsteps.inScope hst).goals g hg
    exact absurd (hgoals g hg) (Goal.not_holds_of_refused hscope hrefused)

theorem demand_advances (hs : s.table.Plain) (hρ : R.Satisfies ρ s.table) {ty e : Ty} (result : Ty)
    (expected : SessionM Ty) (hty : ty.Plain s.table) (he : e.Plain s.table)
    (hle : R.read ρ ty ≤ R.read ρ e) (hbuilt : (expected.run s).1 = e)
    (ht : (expected.run s).2.table = s.table) :
    ∃ s' ρ', s.Settles (fun fuel => do relate fuel ty (← expected); return result) (.ok result) s' ∧
      R.Advances s ρ s' ρ' := by
  have hlift : s.Settles (fun _ => liftM expected) (.ok e) (expected.run s).2 :=
    .of_forall fun _ => by rw [Session.perform_lift, hbuilt]
  rw [← ht] at hs hρ hty he
  obtain ⟨s', ρ', hsettles, hadv⟩ := relate_advances hs hρ hty he hle
  refine ⟨s', ρ', hlift.bind (hsettles.bind (.of_forall fun _ => rfl)), ?_⟩
  exact ⟨ht ▸ hadv.toExtends, hadv.plain, ht ▸ hadv.agrees, hadv.satisfies⟩

/-- Whatever type the rules give the term, typing returns one below it. -/
def Term.TypesPrincipally (R : ExactReading α) (term : Term) : Prop :=
  ∀ (ctx : Context) (level : Nat) (s : Session) (ρ : Nat → α) (m : α), s.table.Plain →
    ctx.Monomorphic s.table → R.Satisfies ρ s.table →
    HasType R.toReading (ctx.read R.toReading ρ) term m →
    ∃ ty s' ρ', s.Settles (typeOf · ctx level term) (.ok ty) s' ∧ R.Advances s ρ s' ρ' ∧
      ty.Plain s'.table ∧ R.read ρ' ty ≤ m

variable {ctx : Context}

theorem typeElems_principal {terms : List Term} (ih : ∀ t ∈ terms, t.TypesPrincipally R)
    (hs : s.table.Plain) (hctx : ctx.Monomorphic s.table) (hρ : R.Satisfies ρ s.table) {ms : List α}
    (h : List.Forall₂ (HasType R.toReading (ctx.read R.toReading ρ)) terms ms) (level : Nat) :
    ∃ tys s' ρ', s.Settles (typeElems · ctx level terms) (.ok tys) s' ∧ R.Advances s ρ s' ρ' ∧
      List.Forall₂ (fun ty m => ty.Plain s'.table ∧ R.read ρ' ty ≤ m) tys ms := by
  induction terms generalizing s ρ ms with
  | nil =>
    cases h
    exact ⟨[], s, ρ, .of_forall fun _ => by rw [typeElems]; rfl, .refl hs hρ, .nil⟩
  | cons term terms ihs =>
    obtain ⟨m, ms, hterm, hterms, rfl⟩ := List.forall₂_cons_left_iff.mp h
    rw [List.forall_mem_cons] at ih
    obtain ⟨ty, s₁, ρ₁, hset₁, hadv₁, hty, hle⟩ := ih.1 ctx level s ρ m hs hctx hρ hterm
    rw [← hadv₁.context_read_eq hctx] at hterms
    obtain ⟨tys, s₂, ρ₂, hset₂, hadv₂, htys⟩ := ihs ih.2 hadv₁.plain
      (hctx.extend hadv₁.toExtends) hadv₁.satisfies hterms
    refine ⟨ty :: tys, s₂, ρ₂, ?_, hadv₁.trans hadv₂, .cons ⟨?_, ?_⟩ htys⟩
    · simp only [typeElems]
      exact hset₁.bind (hset₂.bind (.of_forall fun _ => rfl))
    · exact hadv₂.toExtends.plain hty
    · exact (hadv₂.read_eq hty).trans_le hle

theorem typeFields_principal {fields : List (String × Term)}
    (ih : ∀ f ∈ fields, f.2.TypesPrincipally R) (hs : s.table.Plain)
    (hctx : ctx.Monomorphic s.table) (hρ : R.Satisfies ρ s.table) {ms : List (String × α)}
    (h : List.Forall₂ (fun f m => f.1 = m.1 ∧
      HasType R.toReading (ctx.read R.toReading ρ) f.2 m.2) fields ms) (level : Nat) :
    ∃ fs s' ρ', s.Settles (typeFields · ctx level fields) (.ok fs) s' ∧ R.Advances s ρ s' ρ' ∧
      List.Forall₂ (fun f m => f.1 = m.1 ∧ f.2.Plain s'.table ∧ R.read ρ' f.2 ≤ m.2) fs ms := by
  induction fields generalizing s ρ ms with
  | nil =>
    cases h
    exact ⟨[], s, ρ, .of_forall fun _ => by rw [typeFields]; rfl, .refl hs hρ, .nil⟩
  | cons field fields ihs =>
    obtain ⟨m, ms, hfield, hfields, rfl⟩ := List.forall₂_cons_left_iff.mp h
    rw [List.forall_mem_cons] at ih
    obtain ⟨ty, s₁, ρ₁, hset₁, hadv₁, hty, hle⟩ := ih.1 ctx level s ρ m.2 hs hctx hρ hfield.2
    rw [← hadv₁.context_read_eq hctx] at hfields
    obtain ⟨fs, s₂, ρ₂, hset₂, hadv₂, hfs⟩ := ihs ih.2 hadv₁.plain
      (hctx.extend hadv₁.toExtends) hadv₁.satisfies hfields
    refine ⟨(field.1, ty) :: fs, s₂, ρ₂, ?_, hadv₁.trans hadv₂, .cons ⟨hfield.1, ?_, ?_⟩ hfs⟩
    · simp only [typeFields]
      exact hset₁.bind (hset₂.bind (.of_forall fun _ => rfl))
    · exact hadv₂.toExtends.plain hty
    · exact (hadv₂.read_eq hty).trans_le hle

theorem typeOf_principal {term : Term} (h : term.LetFree) : term.TypesPrincipally R := by
  induction h with
  | literal value =>
    intro ctx level s ρ m hs hctx hρ htyped
    refine ⟨.base value.baseTy, s, ρ, .of_forall fun _ => by rw [typeOf]; rfl, .refl hs hρ,
      trivial, ?_⟩
    rw [Reading.read_base]
    exact htyped.literal_inv
  | var name =>
    intro ctx level s ρ m hs hctx hρ htyped
    obtain ⟨a, ha, hle⟩ := htyped.var_inv
    obtain ⟨sc, hf, rfl⟩ := Option.map_eq_some_iff.mp ha
    obtain ⟨ty, rfl, hty⟩ := hctx name sc hf
    refine ⟨ty, s, ρ, .of_forall fun _ => ?_, .refl hs hρ, hty, hle⟩
    rw [typeOf, hf]
    rfl
  | lambda param h ih =>
    intro ctx level s ρ m hs hctx hρ htyped
    obtain ⟨a, b, hbody, hle⟩ := htyped.lambda_inv
    obtain ⟨v, s₁, ρ₁, hset₁, hadv₁, hv, hva⟩ := newVar_advances hs hρ level a
    have hctx₁ := (hctx.extend hadv₁.toExtends).insert hv param
    rw [← hadv₁.context_read_eq hctx, ← hva, ← Context.read_insert] at hbody
    obtain ⟨ty, s₂, ρ₂, hset₂, hadv₂, hty, htyle⟩ :=
      ih _ level s₁ ρ₁ b hadv₁.plain hctx₁ hadv₁.satisfies hbody
    refine ⟨.arrow s₂.nextNode (.var v) ty, { s₂ with nextNode := s₂.nextNode + 1 }, ρ₂, ?_,
      (hadv₁.trans hadv₂).of_table_eq rfl, ⟨hadv₂.toExtends.plain hv, hty⟩, ?_⟩
    · simp only [typeOf]
      exact hset₁.bind (hset₂.bind (.of_forall fun _ => rfl))
    · have hbelow : R.build (.arrow a (R.read ρ₂ ty)) ≤ R.build (.arrow a b) :=
        R.mono trivial trivial (.arrow le_rfl htyle)
      rw [Reading.read_arrow, hadv₂.read_eq hv, hva]
      exact hbelow.trans hle
  | apply hf ha ihf iha =>
    intro ctx level s ρ m hs hctx hρ htyped
    obtain ⟨a, b, hfn, harg, hle⟩ := htyped.apply_inv
    obtain ⟨fnTy, s₁, ρ₁, hset₁, hadv₁, hfnTy, hfnle⟩ := ihf ctx level s ρ _ hs hctx hρ hfn
    rw [← hadv₁.context_read_eq hctx] at harg
    obtain ⟨argTy, s₂, ρ₂, hset₂, hadv₂, hargTy, hargle⟩ := iha ctx level s₁ ρ₁ a hadv₁.plain
      (hctx.extend hadv₁.toExtends) hadv₁.satisfies harg
    obtain ⟨v, s₃, ρ₃, hset₃, hadv₃, hv, hvb⟩ := newVar_advances hadv₂.plain hadv₂.satisfies level b
    have hadv₁₃ := hadv₂.trans hadv₃
    have hexpected : (Ty.arrow s₃.nextNode argTy (.var v)).Plain s₃.table :=
      ⟨hadv₃.toExtends.plain hargTy, hv⟩
    have hdemand : R.read ρ₃ fnTy ≤ R.read ρ₃ (.arrow s₃.nextNode argTy (.var v)) := by
      rw [hadv₁₃.read_eq hfnTy, Reading.read_arrow, hadv₃.read_eq hargTy, hvb]
      exact hfnle.trans (R.mono trivial trivial (.arrow hargle le_rfl))
    obtain ⟨s₄, ρ₄, hset₄, hadv₄⟩ := demand_advances hadv₃.plain hadv₃.satisfies (.var v)
      (SessionM.newArrow argTy (.var v)) (hadv₁₃.toExtends.plain hfnTy) hexpected hdemand rfl rfl
    refine ⟨.var v, s₄, ρ₄, ?_, (hadv₁.trans hadv₁₃).trans hadv₄, hadv₄.toExtends.plain hv, ?_⟩
    · simp only [typeOf]
      exact hset₁.bind (hset₂.bind (hset₃.bind hset₄))
    · rw [hadv₄.read_eq hv, hvb]
      exact hle
  | @record fields hnames h ih =>
    intro ctx level s ρ m hs hctx hρ htyped
    obtain ⟨ms, hms, hle⟩ := htyped.record_inv
    obtain ⟨fs, s₁, ρ₁, hset, hadv, hfs⟩ := typeFields_principal ih hs hctx hρ hms level
    have hsame : fields.map Prod.fst = ms.map Prod.fst :=
      map_eq_of_forall₂ hms fun _ _ _ => And.left
    have hfsnames : Ty.names fs = ms.map Prod.fst :=
      map_eq_of_forall₂ hfs fun _ _ _ => And.left
    refine ⟨.record s₁.nextNode fs, { s₁ with nextNode := s₁.nextNode + 1 }, ρ₁, ?_,
      hadv.of_table_eq rfl, (Ty.forall_record ..).mpr ⟨?_, fun f hf => ?_⟩, ?_⟩
    · simp only [typeOf]
      exact hset.bind (.of_forall fun _ => rfl)
    · rw [hfsnames, ← hsame]
      exact hnames
    · obtain ⟨m, -, hm⟩ := forall₂_exists_right hfs hf
      exact hm.2.1
    · have hdistinct : (ms.map Prod.fst).Nodup := hsame ▸ hnames.1
      have hbelow : R.build (.record (fs.map fun f => (f.1, R.read ρ₁ f.2))) ≤
          R.build (.record ms) := by
        refine R.mono (Reading.distinct_of_names (hfsnames ▸ hdistinct)) hdistinct (.record ?_)
        intro m hm
        obtain ⟨f, hf, hfm⟩ := forall₂_exists_left hfs hm
        exact ⟨_, List.mem_map_of_mem hf, hfm.1, hfm.2.2⟩
      rw [Reading.read_record]
      exact hbelow.trans hle
  | @select receiver field hname h ih =>
    intro ctx level s ρ m hs hctx hρ htyped
    obtain ⟨a, hreceiver, hle⟩ := htyped.select_inv
    obtain ⟨ty, s₁, ρ₁, hset₁, hadv₁, hty, htyle⟩ := ih ctx level s ρ _ hs hctx hρ hreceiver
    obtain ⟨v, s₂, ρ₂, hset₂, hadv₂, hv, hva⟩ := newVar_advances hadv₁.plain hadv₁.satisfies level a
    have hnames : Ty.FieldNames [field] :=
      ⟨List.nodup_singleton field, List.forall_mem_singleton.mpr hname⟩
    have hexpected : (Ty.record s₂.nextNode [(field, .var v)]).Plain s₂.table :=
      ⟨hnames, hv, trivial⟩
    have hdemand : R.read ρ₂ ty ≤ R.read ρ₂ (.record s₂.nextNode [(field, .var v)]) := by
      rw [hadv₂.read_eq hty, Reading.read_record, List.map_singleton, hva]
      exact htyle
    obtain ⟨s₃, ρ₃, hset₃, hadv₃⟩ := demand_advances hadv₂.plain hadv₂.satisfies (.var v)
      (SessionM.newRecord [(field, .var v)]) (hadv₂.toExtends.plain hty) hexpected hdemand rfl rfl
    refine ⟨.var v, s₃, ρ₃, ?_, (hadv₁.trans hadv₂).trans hadv₃, hadv₃.toExtends.plain hv, ?_⟩
    · simp only [typeOf]
      exact hset₁.bind (hset₂.bind hset₃)
    · rw [hadv₃.read_eq hv, hva]
      exact hle
  | tuple h ih =>
    intro ctx level s ρ m hs hctx hρ htyped
    obtain ⟨ms, hms, hle⟩ := htyped.tuple_inv
    obtain ⟨tys, s₁, ρ₁, hset, hadv, htys⟩ := typeElems_principal ih hs hctx hρ hms level
    refine ⟨.tuple s₁.nextNode tys, { s₁ with nextNode := s₁.nextNode + 1 }, ρ₁, ?_,
      hadv.of_table_eq rfl, (Ty.forall_tuple ..).mpr fun ty hty => ?_, ?_⟩
    · simp only [typeOf]
      exact hset.bind (.of_forall fun _ => rfl)
    · obtain ⟨m, -, hm⟩ := forall₂_exists_right htys hty
      exact hm.1
    · have hbelow : R.build (.tuple (tys.map (R.read ρ₁))) ≤ R.build (.tuple ms) :=
        R.mono trivial trivial (.tuple (List.forall₂_map_left_iff.mpr (htys.imp fun _ _ h => h.2)))
      rw [Reading.read_tuple]
      exact hbelow.trans hle

end Completeness

section Infer

variable {α : Type u} [Preorder α] {s : Session} {ctx : Context} {term : Term}

theorem infer_sound {R : Reading α} (hctx : ctx.Monomorphic s.table) (hterm : term.LetFree)
    (fuel : Nat) : s.Keeps BoundTable.Plain (infer fuel ctx term) (term.Typed R ctx) := by
  refine (typeOf_sound (R := R) hterm ctx 0 s hctx).bind fun ty s₁ _ hty => ?_
  have hemit : s₁.Keeps BoundTable.Plain (liftM (SessionM.emit (.typed term ty)))
      fun _ t => t = s₁.table := .lift rfl rfl
  refine hemit.bind fun _ s₂ _ ht => ?_
  exact .pure (ht ▸ hty)

/-- What is inferred for a term without `let` is a type of the term under every assignment
that satisfies the bounds in the end. And if the typing rules give the term a type under an
assignment that satisfies the bounds so far, then inference succeeds, and the assignment
extends to the new variables so that it satisfies the bounds in the end and what is inferred
lies below that type. -/
theorem infer_principal (R : ExactReading α) (hs : s.table.Plain)
    (hctx : ctx.Monomorphic s.table) (hterm : term.LetFree) :
    (∀ fuel ty s', s.perform (infer fuel ctx term) = (.ok ty, s') →
      ∀ ρ, R.Satisfies ρ s'.table →
        HasType R.toReading (ctx.read R.toReading ρ) term (R.read ρ ty)) ∧
    ∀ ρ₀ m, R.Satisfies ρ₀ s.table → HasType R.toReading (ctx.read R.toReading ρ₀) term m →
      ∃ ty s' ρ, s.Settles (infer · ctx term) (.ok ty) s' ∧
        (∀ i < s.table.size, ρ i = ρ₀ i) ∧ R.Satisfies ρ s'.table ∧ R.read ρ ty ≤ m := by
  constructor
  · intro fuel ty s' hrun ρ hρ
    obtain ⟨-, -, htyped⟩ := infer_sound (R := R.toReading) hctx hterm fuel hs _ s' hrun
    exact (htyped ty rfl).2 ρ hρ
  · intro ρ₀ m hρ₀ hm
    obtain ⟨ty, s₁, ρ, hsettles, hadv, -, hle⟩ :=
      typeOf_principal hterm ctx 0 s ρ₀ m hs hctx hρ₀ hm
    have hemit : s₁.Settles (fun _ => do SessionM.emit (.typed term ty); return ty) (.ok ty)
        { s₁ with log := .typed term ty :: s₁.log } := .of_forall fun _ => rfl
    exact ⟨ty, _, ρ, hsettles.bind hemit, hadv.agrees, hadv.satisfies, hle⟩

end Infer

def selection : Term :=
  .apply (.lambda "r" (.select (.var "r") "x")) (.record [("x", .var "y")])

def deepName : Context := .ofList [("y", .mono (.var ⟨1, 1⟩))]

theorem selection_letFree : selection.LetFree := by
  have hx : Ty.PlainName "x" := by decide
  have hnames : Ty.FieldNames ["x"] := ⟨List.nodup_singleton _, List.forall_mem_singleton.mpr hx⟩
  refine .apply (.lambda _ (.select hx (.var _))) (.record hnames ?_)
  exact List.forall_mem_singleton.mpr (.var _)

theorem deepName_monomorphic : deepName.Monomorphic twoLevels.table := by
  intro name sc hf
  rw [deepName, Context.ofList, List.foldl_cons, List.foldl_nil, Context.find?_insert] at hf
  split at hf
  case isTrue => exact ⟨_, (Option.some.inj hf).symm, rfl⟩
  case isFalse => cases hf

theorem selection_float : HasType Ty.free.toReading (deepName.read Ty.free.toReading floatOverInt)
    selection (.base .float) := by
  have hint : Ty.free.build (.base .int) ≤ (.base .float : Ty) := .base rfl
  have hrecord : HasType Ty.free.toReading (deepName.read Ty.free.toReading floatOverInt)
      (.record [("x", .var "y")]) (Ty.free.build (.record [("x", .base .int)])) :=
    .record rfl (List.forall_mem_singleton.mpr (.var rfl))
  exact .sub (.apply (.lambda (.select (.var (Function.update_self ..)))) hrecord) hint

theorem infer_principal_selection :
    selection.LetFree ∧ deepName.Monomorphic twoLevels.table ∧
      ∃ ty s' ρ, twoLevels.Settles (infer · deepName selection) (.ok ty) s' ∧
        (∀ i < 2, ρ i = floatOverInt i) ∧ Ty.free.Satisfies ρ s'.table ∧
        Ty.free.read ρ ty ≤ .base .float := by
  have hplain : twoLevels.table.Plain := by
    refine ⟨twoLevels_scoped _, fun p v _ b hb => ?_⟩
    rw [twoLevels_bounds] at hb
    cases hb
  have hρ : Ty.free.Satisfies floatOverInt twoLevels.table := by
    rw [Reading.satisfies_iff]
    intro p v b hb
    rw [twoLevels_bounds] at hb
    cases hb
  have hprincipal := infer_principal Ty.free hplain deepName_monomorphic selection_letFree
  exact ⟨selection_letFree, deepName_monomorphic,
    hprincipal.2 floatOverInt _ hρ selection_float⟩

end Biunify
