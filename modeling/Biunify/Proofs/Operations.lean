import Biunify.Proofs.BundleGraph.Runs
import Biunify.Proofs.Display.Stability
import Biunify.Proofs.Typing.Safe

/-! What is on record stays on record. Whatever is done in a session, and wherever it stops, the
bounds that a variable had are still there in their order, behind those that were added since.
Copying a scheme and showing a type add none to a variable that was there before: what they record
is recorded of variables of their own. -/

namespace Biunify

theorem BoundTable.AddsVars.toExtends {t t' : BoundTable} (h : t.AddsVars t') : t.Extends t' :=
  h.keeps (fun t' level hx => hx.trans (.addVar t' level)) (.refl t)

theorem Session.Keeps.discard {α : Type} {inv : BoundTable → Prop} {s : Session} {x : CheckM α}
    {post : α → BoundTable → Prop} (h : s.Keeps inv x post) :
    s.Keeps inv (do let _ ← x) fun _ _ => True :=
  h.bind fun _ _ _ _ => .pure trivial

section Showing

variable (t : BoundTable) (s : Session) (fuel : Nat)

theorem Session.Keeps.of_addsVars {α : Type} {x : CheckM α}
    (h : ∀ r s', s.perform x = (r, s') → s.table.AddsVars s'.table) :
    s.Keeps t.AddsVars x fun _ _ => True := by
  intro hs r s' hrun
  have hadds := h r s' hrun
  exact ⟨hadds.toExtends, hs.trans hadds, fun _ _ => trivial⟩

theorem Session.Keeps.emit (e : Event) :
    s.Keeps t.AddsVars (liftM (SessionM.emit e)) fun _ _ => True :=
  .lift rfl trivial

namespace BundleGraph

theorem ofTy_keeps (ty : Ty) : s.Keeps t.AddsVars (ofTy fuel ty) fun _ _ => True := by
  unfold ofTy
  have htable : s.Keeps t.AddsVars (liftM SessionM.table) fun _ _ => True := .lift rfl trivial
  refine htable.bind fun table s₁ _ _ => ?_
  have hgrow : s₁.Keeps t.AddsVars
      ((grow fuel [] .positive (.ofTy table .positive ty)).run ⟨[], .empty⟩) fun _ _ => True := by
    apply Session.Keeps.of_addsVars
    intro r s' hrun
    obtain ⟨_, hadds, -⟩ := grow_addsVars s₁.table fuel _ _ _ _ s₁ r s' (.refl s₁.table) hrun
    exact hadds
  exact hgrow.bind fun _ s₂ _ _ => .pure trivial

theorem toTypeExpr_keeps (g : BundleGraph) : s.Keeps t.AddsVars g.toTypeExpr fun _ _ => True := by
  apply Session.Keeps.of_addsVars
  intro r s' hrun
  obtain ⟨e, s₁, hread, hadds, -⟩ := toTypeExpr_visits g s
  cases hread.symm.trans hrun
  exact hadds

end BundleGraph

theorem display_keeps (ty : Ty) : s.Keeps t.AddsVars (display fuel ty) fun _ _ => True := by
  unfold display
  refine (Session.Keeps.emit t s _).bind fun _ s₁ _ _ => ?_
  refine (BundleGraph.ofTy_keeps t s₁ fuel ty).bind fun g s₂ _ _ => ?_
  refine (Session.Keeps.emit t s₂ _).bind fun _ s₃ _ _ => ?_
  have hreduce : s₃.Keeps t.AddsVars (liftM g.reduceLogged) fun _ _ => True := .lift rfl trivial
  refine hreduce.bind fun reduced s₄ _ _ => ?_
  refine (Session.Keeps.emit t s₄ _).bind fun _ s₅ _ _ => ?_
  refine (BundleGraph.toTypeExpr_keeps t s₅ reduced).bind fun e s₆ _ _ => ?_
  exact (Session.Keeps.emit t s₆ _).bind fun _ s₇ _ _ => .pure trivial

theorem Query.ask_keeps (q : Query) : s.Keeps t.AddsVars (q.ask fuel) fun _ _ => True := by
  cases q with
  | newVar level =>
    have hnew : s.Keeps t.AddsVars (liftM (SessionM.newVar level)) fun _ _ => True := by
      apply Session.Keeps.of_addsVars
      intro r s' hrun
      cases hrun
      exact .addVar s.table level
    exact hnew.discard
  | graph ty => exact (BundleGraph.ofTy_keeps t s fuel ty).discard
  | expression g => exact (BundleGraph.toTypeExpr_keeps t s g).discard
  | display ty => exact (display_keeps t s fuel ty).discard

end Showing

theorem expandBounds_keeps (t : BoundTable) (s : Session) (p : Polarity) (ty : Ty) :
    s.Keeps t.AddsVars (expandBounds p ty) fun _ _ => True := by
  apply Session.Keeps.of_addsVars
  intro r s' hrun
  obtain ⟨e, s₁, hexpand, hadds⟩ := expandBounds_performs p ty s
  cases hexpand.symm.trans hrun
  exact hadds

theorem Session.Keeps.relate_scoped {s : Session} (fuel : Nat) {lhs rhs : Ty}
    (hl : lhs.InScope s.table) (hr : rhs.InScope s.table) :
    s.Keeps (·.Scoped fun _ => True) (relate fuel lhs rhs) fun _ _ => True := by
  have hst : (s.table.Scoped fun _ => True) → (Goal.start s.table lhs rhs).Scoped fun _ => True :=
    fun hs => Goal.start_scoped hs hl hr
  apply relate_of_steps fuel hst fun _ level h => h.addVar level
  intro st hs hsteps
  exact (hsteps.inScope (hst hs)).table

def Discipline.scoped : Discipline where
  inv t := t.Scoped fun _ => True
  var _ t v := t.Owns v
  scheme _ t sc := sc.body.InScope t
  var_extend hx hv := hx.owns hv
  scheme_extend hx h := hx.inScope h
  scheme_deeper h := h
  mono h := h
  poly h := h
  newVar level h := ⟨h.addVar level, (BoundTable.owns_addVar ..).mpr (.inr rfl)⟩
  relate fuel hl hr := Session.Keeps.relate_scoped fuel hl hr
  specialize {level s sc} h := by
    cases sc with
    | mono ty => exact .pure h
    | poly p =>
      intro hs r s' hrun
      obtain ⟨ty, m, s₁, hcopy, hi, himage, -⟩ := p.specialize_performs hs h level
      cases hrun.symm.trans hcopy
      refine ⟨hi.toExtends, hi.inScope hs, fun found hfound => ?_⟩
      cases hfound
      exact hi.copy_forall himage h

/-- What can be done in a session: relating two types, using a scheme, typing a term or a program,
saying what a type was when it is refused, and asking for what a type looks like. -/
inductive Operation where
  | relate (lhs rhs : Ty)
  | specialize (scheme : Scheme) (level : Nat)
  | infer (ctx : Context) (term : Term)
  | inferProgram (ctx : Context) (program : Program)
  | explain (p : Polarity) (ty : Ty)
  | ask (query : Query)

namespace Operation

def run (fuel : Nat) : Operation → CheckM Unit
  | relate lhs rhs => Biunify.relate fuel lhs rhs
  | specialize scheme level => do
    let _ ← scheme.specialize level
  | infer ctx term => do
    let _ ← Biunify.infer fuel ctx term
  | inferProgram ctx program => do
    let _ ← Biunify.inferProgram fuel ctx program
  | explain p ty => do
    let _ ← expandBounds p ty
  | ask query => query.ask fuel

def InScope (t : BoundTable) : Operation → Prop
  | relate lhs rhs => lhs.InScope t ∧ rhs.InScope t
  | specialize scheme _ => scheme.body.InScope t
  | infer ctx _ | inferProgram ctx _ =>
    ∀ name scheme, ctx.find? name = some scheme → scheme.body.InScope t
  | explain .. | ask _ => True

def Reads : Operation → Prop
  | relate .. | infer .. | inferProgram .. => False
  | specialize .. | explain .. | ask _ => True

variable {s s' : Session} {op : Operation} {fuel : Nat} {r : Except Stop Unit}

theorem extends_of_run (hs : s.table.Scoped fun _ => True) (hop : op.InScope s.table)
    (h : s.perform (op.run fuel) = (r, s')) : s.table.Extends s'.table := by
  have hself : s.table.AddsVars s.table := .refl s.table
  cases op with
  | relate lhs rhs => exact (Session.Keeps.relate_scoped fuel hop.1 hop.2 hs r s' h).1
  | specialize scheme level =>
    have hcopy : s.Keeps Discipline.scoped.inv (scheme.specialize level) _ :=
      Discipline.scoped.specialize hop
    exact (hcopy.discard hs r s' h).1
  | infer ctx term =>
    have hfits : Discipline.scoped.Fits ctx 0 s.table := hop
    have hinfer : s.Keeps Discipline.scoped.inv (Biunify.infer fuel ctx term) _ :=
      Discipline.infer_keeps hfits term
    exact (hinfer.discard hs r s' h).1
  | inferProgram ctx program =>
    have hfits : Discipline.scoped.Fits ctx 0 s.table := hop
    have hinfer : s.Keeps Discipline.scoped.inv (Biunify.inferProgram fuel ctx program) _ :=
      Discipline.inferDefinitions_keeps program.definitions hfits
    exact (hinfer.discard hs r s' h).1
  | explain p ty => exact ((expandBounds_keeps s.table s p ty).discard hself r s' h).1
  | ask query => exact (query.ask_keeps s.table s fuel hself r s' h).1

theorem bounds_eq_of_reads (hs : s.table.Scoped fun _ => True) (hop : op.InScope s.table)
    (hreads : op.Reads) (h : s.perform (op.run fuel) = (r, s')) {v : Var} (hv : s.table.Owns v)
    (p : Polarity) : s'.table.bounds p v = s.table.bounds p v := by
  have hself : s.table.AddsVars s.table := .refl s.table
  cases op with
  | relate | infer | inferProgram => cases hreads
  | specialize scheme level =>
    cases scheme with
    | mono ty =>
      cases h
      rfl
    | poly scheme =>
      obtain ⟨ty, m, s₁, hcopy, hi, -, -⟩ := scheme.specialize_performs hs hop level
      have hrun : s.perform ((specialize (.poly scheme) level).run fuel) = (.ok (), s₁) :=
        Session.perform_bind_of_ok hcopy
      cases hrun.symm.trans h
      exact hi.bounds hv p
  | explain q ty =>
    obtain ⟨-, hadds, -⟩ := (expandBounds_keeps s.table s q ty).discard hself r s' h
    exact hadds.bounds_eq p v
  | ask query =>
    obtain ⟨-, hadds, -⟩ := query.ask_keeps s.table s fuel hself r s' h
    exact hadds.bounds_eq p v

/-- After any operation, whatever its outcome, each side of a variable's bounds ends with what it
was before, and it is what it was before if the operation only reads. -/
theorem bounds_recorded (hs : s.table.Scoped fun _ => True) (hop : op.InScope s.table)
    (h : s.perform (op.run fuel) = (r, s')) {v : Var} (hv : s.table.Owns v) (p : Polarity) :
    s.table.bounds p v <:+ s'.table.bounds p v ∧
      (op.Reads → s'.table.bounds p v = s.table.bounds p v) :=
  ⟨(extends_of_run hs hop h).suffix p v, fun hreads => bounds_eq_of_reads hs hop hreads h hv p⟩

theorem bounds_recorded_intStream :
    (∃ e s', Session.perform ⟨intStream, 2, []⟩ ((relate (.var ⟨1, 0⟩) (.base .bool)).run 9) =
        (.error (.failed e), s') ∧ s'.table.upper ⟨1, 0⟩ = [.base .bool] ∧
      ∀ p, intStream.bounds p ⟨1, 0⟩ <:+ s'.table.bounds p ⟨1, 0⟩) ∧
    ∃ fuel s', Session.perform ⟨intStream, 2, []⟩ ((ask (.display (.var ⟨0, 0⟩))).run fuel) =
        (.ok (), s') ∧ ∀ p, s'.table.bounds p ⟨0, 0⟩ = intStream.bounds p ⟨0, 0⟩ := by
  let s : Session := ⟨intStream, 2, []⟩
  have hs : s.table.Scoped fun _ => True := intStream_scoped trivial
  have hrefused : ∃ e s', s.perform ((relate (.var ⟨1, 0⟩) (.base .bool)).run 9) =
      (.error (.failed e), s') ∧ s'.table.upper ⟨1, 0⟩ = [.base .bool] := ⟨_, _, rfl, rfl⟩
  obtain ⟨e, s₁, hrelate, hupper⟩ := hrefused
  obtain ⟨s₂, hshown, -⟩ := Query.ask_settles (.display (.var ⟨0, 0⟩)) s
  obtain ⟨fuel, hfuel⟩ := hshown.enough
  have hshow := hfuel fuel le_rfl
  have hscope : (relate (.var ⟨1, 0⟩) (.base .bool)).InScope s.table := ⟨rfl, trivial⟩
  have hasked : (ask (.display (.var ⟨0, 0⟩))).InScope s.table := trivial
  have hstream : s.table.Owns ⟨0, 0⟩ := rfl
  have helement : s.table.Owns ⟨1, 0⟩ := rfl
  refine ⟨⟨e, s₁, hrelate, hupper, fun p => ?_⟩, fuel, s₂, hshow, fun p => ?_⟩
  · exact (bounds_recorded hs hscope hrelate helement p).1
  · exact (bounds_recorded hs hasked hshow hstream p).2 trivial

end Operation
end Biunify
