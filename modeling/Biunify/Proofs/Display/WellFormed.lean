import Biunify.Display
import Biunify.Proofs.BundleGraph.ReadShape
import Biunify.Proofs.BundleGraph.Unfolding
import Biunify.Proofs.BundleGraph.Visits

/-! Every type is shown, and what is shown is well formed, whatever cycles run through the bounds.
The search for linked variables comes to an end. Growing a graph only meets bundles made of what
the table and the type hold, of which there are finitely many. Reading a graph enters each cycle at
most once for each polarity on a path. -/

namespace Biunify

open BundleGraph

/-- Every search for linked variables has nothing left on its list after the turns it is given, the
graph of every type is found, and every graph is read, also one with a body that is a bare variable
again. -/
theorem display_terminates :
    (∀ (t : BoundTable) (p : Polarity) (v : Var) (more : Nat),
      (t.followTurn p)^[t.weight + 1 + more] ([v], .empty) = ([], t.linkedVars p v)) ∧
    (∀ (s : Session) (ty : Ty), ∃ g s', s.Settles (fun fuel => ofTy fuel ty) (.ok g) s') ∧
    ∀ (s : Session) (g : BundleGraph), ∃ e s', s.perform g.toTypeExpr = (.ok e, s') := by
  refine ⟨BoundTable.followTurn_iterate_add, fun s ty => ?_, fun s g => ?_⟩
  · obtain ⟨root, growth, s', -, hsettles, -, -⟩ := ofTy_settles s ty
    exact ⟨⟨root, growth.cycles⟩, s', hsettles⟩
  · obtain ⟨e, s', hread, -, -⟩ := toTypeExpr_visits g s
    exact ⟨e, s', hread⟩

theorem display_settles {s s₁ : Session} {ty : Ty} {g : BundleGraph}
    (h : Session.Settles ⟨s.table, s.nextNode, .inferred ty :: s.log⟩ (fun fuel => ofTy fuel ty)
      (.ok g) s₁) :
    ∃ e s', s.Settles (fun fuel => display fuel ty) (.ok e) s' ∧ s₁.table.AddsVars s'.table ∧
      g.reduce.Visits [] s₁.table.size [(.positive, .bundle g.reduce.root)] [e] []
        s'.table.size := by
  let s₂ : Session := ⟨s₁.table, s₁.nextNode, .reduced g.reduce.root ::
    ((Reduction.ofGraph g).events.reverse.reverse ++ .expanded g.root :: s₁.log)⟩
  obtain ⟨e, s₃, hread, htable, hvisit⟩ := toTypeExpr_visits g.reduce s₂
  refine ⟨e, ⟨s₃.table, s₃.nextNode, .displayed e :: s₃.log⟩, ?_, htable, hvisit⟩
  refine .bind (.of_forall fun _ => Session.perform_lift s _) (h.bind ?_)
  refine .bind (.of_forall fun _ => Session.perform_lift s₁ _) ?_
  refine .bind (.of_forall fun _ => Session.perform_lift _ _) ?_
  refine .bind (.of_forall fun _ => Session.perform_lift _ _) ?_
  refine .bind (.of_forall fun _ => hread) ?_
  exact .bind (.of_forall fun _ => Session.perform_lift s₃ _) (.of_forall fun _ => rfl)

/-- Every type over the table is shown, as a well-formed expression. -/
theorem display_wellFormed {s : Session} {ty : Ty} {names : List String → Prop}
    (hs : s.table.Scoped names) (hty : ty.Forall s.table.Owns names) :
    ∃ e s', s.Settles (fun fuel => display fuel ty) (.ok e) s' ∧ e.WellFormed := by
  obtain ⟨g, s₁, hgraph, -, hg⟩ := ofTy_orderly
    (s := ⟨s.table, s.nextNode, .inferred ty :: s.log⟩) hs hty
  obtain ⟨e, s', hshown, -, hvisit⟩ := display_settles hgraph
  exact ⟨e, s', hshown, wellFormed_of_visits hg.reduce hvisit⟩

def intStream : BoundTable :=
  (((BoundTable.empty.addVar 0).addVar 0).addBound .positive ⟨0, 0⟩
    (.record 0 [("head", .var ⟨1, 0⟩), ("tail", .var ⟨0, 0⟩)])).addBound .positive ⟨1, 0⟩
    (.base .int)

theorem intStream_scoped {names : List String → Prop} (h : names ["head", "tail"]) :
    intStream.Scoped names := by
  have hempty := BoundTable.scoped_empty names
  unfold intStream
  refine (((hempty.addVar 0).addVar 0).addBound ?_ ?_ .positive).addBound ?_ ?_ .positive
  · rfl
  · exact ⟨h, rfl, rfl, trivial⟩
  · rfl
  · trivial

theorem display_wellFormed_intStream :
    intStream.Scoped (fun _ => True) ∧
      (Ty.arrow 1 (.var ⟨1, 0⟩) (.var ⟨0, 0⟩)).Forall intStream.Owns (fun _ => True) ∧
      ∃ e s', Session.Settles ⟨intStream, 2, []⟩
        (fun fuel => display fuel (.arrow 1 (.var ⟨1, 0⟩) (.var ⟨0, 0⟩))) (.ok e) s' ∧
          e.WellFormed := by
  have hty : (Ty.arrow 1 (.var ⟨1, 0⟩) (.var ⟨0, 0⟩)).Forall intStream.Owns (fun _ => True) :=
    ⟨rfl, rfl⟩
  have hscoped : intStream.Scoped fun _ => True := intStream_scoped trivial
  exact ⟨hscoped, hty, display_wellFormed (s := ⟨intStream, 2, []⟩) hscoped hty⟩

end Biunify
