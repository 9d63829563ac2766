import Biunify.Proofs.Flow.Closure
import Biunify.Proofs.Relate.Soundness

/-! No ill-typed flow without an error. Flow follows recorded edges, each of which stands at
one of its two ends only. Where an edge recorded above its start meets one recorded below
its end, the closure of bounds gives a shorter way round, or one that goes up before it
comes down; so every path from a lower bound to an upper bound shrinks to one variable. -/

namespace Biunify
namespace BoundTable

def Flow (t : BoundTable) (v w : Var) : Prop := .var w ∈ t.upper v ∨ .var v ∈ t.lower w

inductive Path (t : BoundTable) : Nat → Var → Var → Prop
  | nil (v : Var) : Path t 0 v v
  | cons {n : Nat} {v w x : Var} (h : t.Flow v w) (hp : Path t n w x) : Path t (n + 1) v x

inductive Climb (t : BoundTable) : Nat → Var → Var → Prop
  | nil (v : Var) : Climb t 0 v v
  | snoc {n : Nat} {v w x : Var} (hp : Climb t n v w) (h : .var w ∈ t.lower x) :
    Climb t (n + 1) v x

variable {t : BoundTable}

theorem exists_path {v w : Var} (h : Relation.ReflTransGen t.Flow v w) : ∃ n, t.Path n v w := by
  induction h using Relation.ReflTransGen.head_induction_on with
  | refl => exact ⟨0, .nil w⟩
  | head h _ ih =>
    obtain ⟨n, hp⟩ := ih
    exact ⟨n + 1, .cons h hp⟩

theorem Climb.cons {n : Nat} {v w x : Var} (h : .var v ∈ t.lower w) (hc : t.Climb n w x) :
    t.Climb (n + 1) v x := by
  induction hc with
  | nil w => exact .snoc (.nil v) h
  | snoc _ h' ih => exact .snoc (ih h) h'

theorem Climb.append {m n : Nat} {v w x : Var} (hc : t.Climb m v w) (hp : t.Path n w x) :
    t.Path (m + n) v x := by
  induction hc generalizing n with
  | nil => rwa [Nat.zero_add]
  | @snoc k v w x hc h ih =>
    have hp := ih (.cons (.inr h) hp)
    rwa [Nat.add_right_comm, Nat.add_assoc]

theorem Path.climb_or {n : Nat} {v w : Var} (h : t.Path n v w) :
    t.Climb n v w ∨ ∃ j k x y, n = j + (k + 1) ∧ t.Climb j v x ∧ .var y ∈ t.upper x ∧
      t.Path k y w := by
  induction h with
  | nil v => exact .inl (.nil v)
  | @cons n v w x h hp ih =>
    rcases h with h | h
    · exact .inr ⟨0, n, v, w, (Nat.zero_add _).symm, .nil v, h, hp⟩
    · rcases ih with hc | ⟨j, k, y, z, rfl, hc, hz, hp⟩
      · exact .inl (hc.cons h)
      · exact .inr ⟨j + 1, k, y, z, by omega, hc.cons h, hz, hp⟩

def FitsAt (t : BoundTable) (n : Nat) : Prop :=
  ∀ v w l u, t.Path n v w → l ∈ t.lower v → u ∈ t.upper w → l.isVar = false →
    u.isVar = false → l.Compatible u

theorem Closed.fits_of_climb (h : t.Closed) {n : Nat} (ih : ∀ m < n, t.FitsAt m) {v w : Var}
    {l u : Ty} (hc : t.Climb n v w) (hl : l ∈ t.lower v) (hu : u ∈ t.upper w)
    (hnl : l.isVar = false) (hnu : u.isVar = false) : l.Compatible u := by
  cases hc with
  | nil => exact (joined_of_not_isVar hnl hnu).mp (h v l hl u hu)
  | @snoc n _ x _ hc hx =>
    obtain ⟨b, hb, hs⟩ := (orient_joined_var .negative hnu x).mp (h w (.var x) hx u hu)
    have hnb : b.isVar = false := Ty.Image.isVar_eq hs ▸ hnu
    have hfit := ih n (Nat.lt_succ_self n) v x l b (hc.append (.nil x)) hl hb hnl hnb
    exact hfit.congr (.refl l) hs

/-- Turning a path upwards where it first can be: the climb before the turn gets shorter,
or the whole path does. -/
theorem Closed.fits_of_turn (h : t.Closed) {n : Nat} (ih : ∀ m < n, t.FitsAt m) {v w : Var}
    {l u : Ty} (hl : l ∈ t.lower v) (hu : u ∈ t.upper w) (hnl : l.isVar = false)
    (hnu : u.isVar = false) {j k : Nat} {x y : Var} (hn : n = j + (k + 1)) (hc : t.Climb j v x)
    (hy : .var y ∈ t.upper x) (hp : t.Path k y w) : l.Compatible u := by
  induction j generalizing k x y with
  | zero =>
    cases hc
    obtain ⟨b, hb, hs⟩ := (orient_joined_var .positive hnl y).mp (h v l hl (.var y) hy)
    have hnb : b.isVar = false := Ty.Image.isVar_eq hs ▸ hnl
    exact (ih k (by omega) y w b u hp hb hu hnb hnu).congr hs (.refl u)
  | succ j ihj =>
    cases hc with
    | @snoc _ _ x' _ hc hx =>
      rcases h x (.var x') hx (.var y) hy with rfl | hlink | hlink | ⟨z, hz, hz'⟩
      · exact ih (j + k) (by omega) v w l u (hc.append hp) hl hu hnl hnu
      · have hp := hc.append (.cons (.inl hlink) hp)
        exact ih (j + (k + 1)) (by omega) v w l u hp hl hu hnl hnu
      · have hp := hc.append (.cons (.inr hlink) hp)
        exact ih (j + (k + 1)) (by omega) v w l u hp hl hu hnl hnu
      · exact ihj (by omega) hc hz (.cons (.inr hz') hp)

theorem Closed.fitsAt (h : t.Closed) (n : Nat) : t.FitsAt n := by
  induction n using Nat.strong_induction_on with
  | h n ih =>
    intro v w l u hp hl hu hnl hnu
    rcases hp.climb_or with hc | ⟨j, k, x, y, hn, hc, hy, hp⟩
    · exact h.fits_of_climb ih hc hl hu hnl hnu
    · exact h.fits_of_turn ih hl hu hnl hnu hn hc hy hp

end BoundTable

/-- The sessions that an empty one leads to by new variables and nodes, by constraints that
are accepted, and by instances at levels not below their schemes. -/
inductive ErrorFree : Session → Prop
  | empty : ErrorFree .empty
  | newVar {s : Session} (h : ErrorFree s) (level : Nat) :
    ErrorFree (StateT.run (SessionM.newVar level) s).2
  | newNode {s : Session} (h : ErrorFree s) : ErrorFree (StateT.run SessionM.newNode s).2
  | relate {s s' : Session} {fuel : Nat} {lhs rhs : Ty} (h : ErrorFree s)
    (hl : lhs.Forall s.table.Owns Ty.FieldNames) (hr : rhs.Forall s.table.Owns Ty.FieldNames)
    (hrun : s.perform (relate fuel lhs rhs) = (.ok (), s')) : ErrorFree s'
  | specialize {s s' : Session} {scheme : Scheme} {level : Nat} {r : Except Stop Ty}
    (h : ErrorFree s) (hs : scheme.body.Forall s.table.Owns Ty.FieldNames)
    (hle : scheme.level ≤ level) (hrun : s.perform (scheme.specialize level) = (r, s')) :
    ErrorFree s'

structure FlowInvariant (t : BoundTable) : Prop where
  inScope : t.Scoped Ty.FieldNames
  leveled : t.Leveled
  closed : t.Closed

theorem FlowInvariant.empty : FlowInvariant .empty where
  inScope := BoundTable.scoped_empty _
  leveled := BoundTable.leveled_empty
  closed := fun v l hl => absurd hl (BoundTable.notMem_bounds_empty .positive v l)

theorem FlowInvariant.relate {s s' : Session} {fuel : Nat} {lhs rhs : Ty}
    (h : FlowInvariant s.table) (hl : lhs.Forall s.table.Owns Ty.FieldNames)
    (hr : rhs.Forall s.table.Owns Ty.FieldNames)
    (hrun : s.perform (relate fuel lhs rhs) = (.ok (), s')) : FlowInvariant s'.table := by
  have hst := Goal.start_scoped h.inScope hl hr
  have hf := relate_finishes hst hrun
  refine ⟨hf.inScope hst, ?_, ?_⟩
  · obtain ⟨memo, hsteps⟩ := hf
    exact hsteps.leveled hst h.leveled
  · refine hf.closed (fun _ h => h.2) hst (Goal.memoSound_nil _ _) ?_
    exact (hf.toExtends hst).joinedIn h.closed

theorem FlowInvariant.specialize {s s' : Session} {scheme : Scheme} {level : Nat}
    {r : Except Stop Ty} (h : FlowInvariant s.table)
    (hs : scheme.body.Forall s.table.Owns Ty.FieldNames)
    (hle : scheme.level ≤ level) (hrun : s.perform (scheme.specialize level) = (r, s')) :
    FlowInvariant s'.table := by
  cases scheme with
  | mono ty =>
    cases hrun
    exact h
  | poly p =>
    have hin : s.table.Scoped fun _ => True := h.inScope.imp fun _ _ => trivial
    obtain ⟨ty, m, s₁, hrun₁, hi, -⟩ :=
      p.specialize_performs hin (hs.imp (fun _ => id) fun _ _ => trivial) level
    cases hrun.symm.trans hrun₁
    exact ⟨hi.inScope h.inScope, hi.leveled hle h.leveled, hi.closed hin h.leveled h.closed⟩

theorem ErrorFree.flowInvariant {s : Session} (h : ErrorFree s) : FlowInvariant s.table := by
  induction h with
  | empty => exact .empty
  | newVar _ level ih =>
    exact ⟨ih.inScope.addVar level, ih.leveled.addVar level, ih.closed.addVar level⟩
  | newNode _ ih => exact ih
  | relate _ hl hr hrun ih => exact ih.relate hl hr hrun
  | specialize _ hs hle hrun ih => exact ih.specialize hs hle hrun

/-- In a session without errors, a structure that flows into a variable fits every structure
that is expected where the variable's values may go. -/
theorem ErrorFree.compatible_of_flow {s : Session} (h : ErrorFree s) {v w : Var}
    (hpath : Relation.ReflTransGen s.table.Flow v w) {l u : Ty} (hl : l ∈ s.table.lower v)
    (hnl : l.isVar = false) (hu : u ∈ s.table.upper w) (hnu : u.isVar = false) :
    l.Compatible u := by
  obtain ⟨n, hp⟩ := BoundTable.exists_path hpath
  exact h.flowInvariant.closed.fitsAt n v w l u hp hl hu hnl hnu

namespace RecordFlow

def start : Session :=
  (StateT.run (SessionM.newVar 0) (StateT.run (SessionM.newVar 0) .empty).2).2

def linked : Session := (start.perform (relate 9 (.var ⟨0, 0⟩) (.var ⟨1, 0⟩))).2

def provided : Ty := .record 0 [("x", .base .int), ("y", .base .bool)]

def fed : Session := (linked.perform (relate 9 provided (.var ⟨0, 0⟩))).2

def expected : Ty := .record 1 [("x", .base .float)]

def finish : Session := (fed.perform (relate 9 (.var ⟨1, 0⟩) expected)).2

theorem finish_errorFree : ErrorFree finish := by
  have hlinked : start.perform (relate 9 (.var ⟨0, 0⟩) (.var ⟨1, 0⟩)) = (.ok (), linked) := rfl
  have hfed : linked.perform (relate 9 provided (.var ⟨0, 0⟩)) = (.ok (), fed) := rfl
  have hfinish : fed.perform (relate 9 (.var ⟨1, 0⟩) expected) = (.ok (), finish) := rfl
  have hprovided : provided.Forall linked.table.Owns Ty.FieldNames :=
    ⟨by decide, trivial, trivial, trivial⟩
  have hexpected : expected.Forall fed.table.Owns Ty.FieldNames :=
    ⟨by decide, trivial, trivial⟩
  have hstart : ErrorFree start := .newVar (.newVar .empty 0) 0
  have h₁ := hstart.relate (by exact rfl) (by exact rfl) hlinked
  have h₂ := h₁.relate hprovided (by exact rfl) hfed
  exact h₂.relate (by exact rfl) hexpected hfinish

end RecordFlow

theorem compatible_of_flow_records :
    Relation.ReflTransGen RecordFlow.finish.table.Flow ⟨0, 0⟩ ⟨1, 0⟩ ∧
      RecordFlow.provided.Compatible RecordFlow.expected := by
  have hpath : Relation.ReflTransGen RecordFlow.finish.table.Flow ⟨0, 0⟩ ⟨1, 0⟩ :=
    .single (.inl (.head _))
  have hfree := RecordFlow.finish_errorFree
  exact ⟨hpath, hfree.compatible_of_flow hpath (.head _) rfl (.head _) rfl⟩

end Biunify
