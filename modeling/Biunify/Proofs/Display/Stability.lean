import Biunify.Proofs.Display.WellFormed
import Biunify.Proofs.Renumbering.Growth
import Biunify.Proofs.Renumbering.Reading
import Biunify.Proofs.Renumbering.Reduction

/-! A type is shown the same way twice. Showing a type makes new variables, and so does what may
be asked for in between, so the second time the variables that cut cycles have other ids. The ids
keep their order, hence each pass does the same under the new ids, and the ids themselves are not
shown: variables are named in the order in which they are met. -/

namespace Biunify

namespace BundleGraph

variable {s s' : Session} {ty : Ty} {g : BundleGraph}

theorem ofTy_plainNames (hs : s.table.Scoped fun ns => ∀ n ∈ ns, Ty.PlainName n)
    (hty : ty.Forall s.table.Owns fun ns => ∀ n ∈ ns, Ty.PlainName n)
    (h : s.Settles (fun fuel => ofTy fuel ty) (.ok g) s') : g.PlainNames := by
  obtain ⟨root, growth, s₁, depth, hsettles, hsound, hroot⟩ := ofTy_settles s ty
  obtain ⟨hg, -⟩ := h.unique hsettles
  cases hg
  intro p b' hb' fields hfields f hf
  obtain ⟨b, depth, hb, hstands⟩ := stands_of_occurs hsound (fun p b q c hb hc => hb.down hc)
    (fun p b hb => Bundle.lt_size_of_meets hs hty hb) .start hroot hb'
  cases depth with
  | zero => cases hstands
  | succ depth =>
    rcases hstands with ⟨v, -, rfl⟩ | hrel
    · cases hfields
    · obtain ⟨fields₀, f₀, hfields₀, hf₀, hname, -⟩ := hrel.field hfields hf
      exact hname ▸ Bundle.names_of_meets hs hty hb id hfields₀ f₀ hf₀

theorem PlainNames.reduce (h : g.PlainNames) (hg : g.Tidy) : g.reduce.PlainNames := by
  obtain ⟨live, cls, hr⟩ := Reduction.ofGraph_consistent hg
  intro p b' hb' fields hfields f hf
  obtain ⟨⟨l⟩, hb, rfl⟩ := hr.occurs_onGraph hg hb'
  rw [Reduction.onBundle_node] at hfields
  obtain ⟨fields₀, hfields₀, rfl⟩ := Option.map_eq_some_iff.mp hfields
  obtain ⟨f₀, hf₀, rfl⟩ := List.mem_map.mp hf
  exact h p _ hb fields₀ hfields₀ f₀ hf₀

theorem ofTy_addsVars (hs : s.table.Scoped fun ns => ∀ n ∈ ns, Ty.PlainName n)
    (hty : ty.Forall s.table.Owns fun ns => ∀ n ∈ ns, Ty.PlainName n) {s₁ : Session}
    (h : s.Settles (fun fuel => ofTy fuel ty) (.ok g) s₁) (hadds : s.table.AddsVars s'.table) :
    ∃ (ρ : Nat ↪o Nat) (s₁' : Session),
      s'.Settles (fun fuel => ofTy fuel ty) (.ok (g.renumber ρ)) s₁' ∧
      ∀ e n e' n', g.reduce.Visits [] s₁.table.size [(.positive, .bundle g.reduce.root)] [e] [] n →
        (g.renumber ρ).reduce.Visits [] s₁'.table.size
          [(.positive, .bundle (g.renumber ρ).reduce.root)] [e'] [] n' → e' = e.rename ρ := by
  obtain ⟨ρ, hρ, hshift⟩ := Session.exists_shifted hadds
  obtain ⟨s₁', h', hshift'⟩ := ofTy_shifted hs hty hρ hshift h
  obtain ⟨g₀, s₀, h₀, -, hg⟩ := ofTy_orderly hs hty
  obtain ⟨hg₀, rfl⟩ := h.unique h₀
  cases hg₀
  refine ⟨ρ, s₁', h', fun e n e' n' hvisit hvisit' => ?_⟩
  have hfresh : ∀ k, s₁.table.size ≤ k → ρ (k + 1) = ρ k + 1 := by
    intro k hk
    obtain ⟨d, rfl⟩ := Nat.exists_eq_add_of_le hk
    rw [hshift'.fresh, Nat.add_assoc, hshift'.fresh, Nat.add_assoc]
  -- Both graphs are read with binders from the first id that is free after growing them.
  have hstart : ρ s₁.table.size = s₁'.table.size := hshift'.fresh 0
  have hplain : g.reduce.PlainNames := (ofTy_plainNames hs hty h).reduce hg.toTidy
  have hoccurs : ∀ x ∈ [(Polarity.positive, Item.bundle g.reduce.root)],
      x.2.Occurs g.reduce x.1 := by
    intro x hx
    obtain rfl := List.mem_singleton.mp hx
    exact Occurs.root
  obtain ⟨_, hmirror, -⟩ := hvisit.renumber hplain hfresh (Nat.le_refl _) hoccurs .nil
  rw [hstart] at hmirror
  rw [reduce_renumber hg.toTidy] at hvisit'
  obtain ⟨hes, -, -⟩ := hvisit'.unique hmirror
  exact List.head_eq_of_cons_eq hes

end BundleGraph

open BundleGraph

variable {s s' s₁ : Session} {ty : Ty} {e : TypeExpr}

theorem render_display_addsVars (hs : s.table.Scoped fun ns => ∀ n ∈ ns, Ty.PlainName n)
    (hty : ty.Forall s.table.Owns fun ns => ∀ n ∈ ns, Ty.PlainName n)
    (h : s.Settles (fun fuel => display fuel ty) (.ok e) s₁) (hadds : s.table.AddsVars s'.table) :
    ∃ e' s₁', s'.Settles (fun fuel => display fuel ty) (.ok e') s₁' ∧ e'.render = e.render := by
  let logged : Session → Session := fun s => ⟨s.table, s.nextNode, .inferred ty :: s.log⟩
  obtain ⟨root, growth, s₂, -, hgraph, -, -⟩ := ofTy_settles (logged s) ty
  have hadds' : (logged s).table.AddsVars (logged s').table := hadds
  obtain ⟨ρ, s₂', hgraph', hsame⟩ := ofTy_addsVars (s := logged s) hs hty hgraph hadds'
  obtain ⟨e₀, _, hshown, -, hvisit⟩ := display_settles hgraph
  obtain ⟨e', s₁', hshown', -, hvisit'⟩ := display_settles hgraph'
  obtain ⟨he, -⟩ := h.unique hshown
  cases he
  obtain rfl := hsame e _ e' _ hvisit hvisit'
  exact ⟨_, s₁', hshown', TypeExpr.render_rename ρ.injective.injOn⟩

inductive Query where
  | newVar (level : Nat)
  | graph (ty : Ty)
  | expression (g : BundleGraph)
  | display (ty : Ty)

namespace Query

def ask (fuel : Nat) : Query → CheckM Unit
  | newVar level => do
    let _ ← SessionM.newVar level
  | graph ty => do
    let _ ← BundleGraph.ofTy fuel ty
  | expression g => do
    let _ ← g.toTypeExpr
  | display ty => do
    let _ ← Biunify.display fuel ty

theorem ask_settles (q : Query) (s : Session) :
    ∃ s', s.Settles (fun fuel => q.ask fuel) (.ok ()) s' ∧ s.table.AddsVars s'.table := by
  cases q with
  | newVar level =>
    exact ⟨_, .bind (.of_forall fun _ => Session.perform_lift s _) (.of_forall fun _ => rfl),
      .addVar s.table level⟩
  | graph ty =>
    obtain ⟨root, growth, s', -, hgraph, hsound, -⟩ := ofTy_settles s ty
    exact ⟨s', hgraph.bind (.of_forall fun _ => rfl), hsound.table⟩
  | expression g =>
    obtain ⟨e, s', hread, htable, -⟩ := toTypeExpr_visits g s
    exact ⟨s', .bind (.of_forall fun _ => hread) (.of_forall fun _ => rfl), htable⟩
  | display ty =>
    obtain ⟨root, growth, s₁, -, hgraph, hsound, -⟩ := ofTy_settles
      ⟨s.table, s.nextNode, .inferred ty :: s.log⟩ ty
    obtain ⟨e, s', hshown, htable, -⟩ := display_settles hgraph
    exact ⟨s', hshown.bind (.of_forall fun _ => rfl), hsound.table.trans htable⟩

theorem forM_ask_settles (qs : List Query) (s : Session) :
    ∃ s', s.Settles (fun fuel => qs.forM (ask fuel)) (.ok ()) s' ∧ s.table.AddsVars s'.table := by
  induction qs generalizing s with
  | nil => exact ⟨s, .of_forall fun _ => rfl, .refl s.table⟩
  | cons q qs ih =>
    obtain ⟨s₁, hq, hadds⟩ := q.ask_settles s
    obtain ⟨s', hqs, hadds'⟩ := ih s₁
    exact ⟨s', hq.bind hqs, hadds.trans hadds'⟩

end Query

/-- A type is shown with the same text again, whatever was asked for in between. -/
theorem display_stable (hs : s.table.Scoped fun ns => ∀ n ∈ ns, Ty.PlainName n)
    (hty : ty.Forall s.table.Owns fun ns => ∀ n ∈ ns, Ty.PlainName n) (qs : List Query) :
    ∃ text s', s.Settles (fun fuel => do
      let first ← display fuel ty
      qs.forM (Query.ask fuel)
      let second ← display fuel ty
      return (first.render, second.render)) (.ok (text, text)) s' := by
  obtain ⟨root, growth, s₁, -, hgraph, hsound, -⟩ := ofTy_settles
    ⟨s.table, s.nextNode, .inferred ty :: s.log⟩ ty
  obtain ⟨e, s₂, hfirst, htable, -⟩ := display_settles hgraph
  obtain ⟨s₃, hqueries, hadds⟩ := Query.forM_ask_settles qs s₂
  obtain ⟨e', s₄, hsecond, htext⟩ := render_display_addsVars hs hty hfirst
    ((hsound.table.trans htable).trans hadds)
  refine ⟨e.render, s₄, hfirst.bind (hqueries.bind (hsecond.bind ?_))⟩
  rw [htext]
  exact .of_forall fun _ => rfl

theorem display_stable_intStream :
    (intStream.Scoped fun ns => ∀ n ∈ ns, Ty.PlainName n) ∧
      (Ty.arrow 1 (.var ⟨1, 0⟩) (.var ⟨0, 0⟩)).Forall intStream.Owns
        (fun ns => ∀ n ∈ ns, Ty.PlainName n) ∧
      ∃ text s', Session.Settles ⟨intStream, 2, []⟩ (fun fuel => do
        let first ← display fuel (.arrow 1 (.var ⟨1, 0⟩) (.var ⟨0, 0⟩))
        [Query.display (.var ⟨0, 0⟩), .newVar 1, .graph (.var ⟨0, 0⟩)].forM (Query.ask fuel)
        let second ← display fuel (.arrow 1 (.var ⟨1, 0⟩) (.var ⟨0, 0⟩))
        return (first.render, second.render)) (.ok (text, text)) s' := by
  have hscoped : intStream.Scoped fun ns => ∀ n ∈ ns, Ty.PlainName n :=
    intStream_scoped (by decide)
  have hty : (Ty.arrow 1 (.var ⟨1, 0⟩) (.var ⟨0, 0⟩)).Forall intStream.Owns
      (fun ns => ∀ n ∈ ns, Ty.PlainName n) := ⟨rfl, rfl⟩
  exact ⟨hscoped, hty, display_stable (s := ⟨intStream, 2, []⟩) hscoped hty
    [.display (.var ⟨0, 0⟩), .newVar 1, .graph (.var ⟨0, 0⟩)]⟩

end Biunify
