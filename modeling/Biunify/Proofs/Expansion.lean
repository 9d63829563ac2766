import Biunify.Expansion
import Biunify.Proofs.BoundTable.Bounds
import Biunify.Proofs.Perform
import Mathlib.Data.List.Nodup
import Mathlib.Data.List.Perm.Subperm
import Mathlib.Data.List.ProdSigma

/-! Writing a type out with its bounds, to report it, comes to an end in every table, cyclic
or not, and records no bound: the table only gains binders. -/

namespace Biunify

variable {α β : Type}

namespace Expansion

structure Closed (P : ∀ {γ : Type}, ExpandM γ → Prop) : Prop where
  pure : ∀ {γ : Type} (a : γ), P (Pure.pure a : ExpandM γ)
  bind : ∀ {γ δ : Type} {x : ExpandM γ} {f : γ → ExpandM δ}, P x → (∀ a, P (f a)) → P (x >>= f)

namespace Closed

variable {P : ∀ {γ : Type}, ExpandM γ → Prop} {visit : Polarity → Var → ExpandM TypeExpr}

theorem ofElems (hP : Closed P) {ts : List Ty} (h : ∀ ty ∈ ts, ∀ p, P (ofTy visit p ty))
    (p : Polarity) : P (ofElems visit p ts) := by
  induction ts with
  | nil => exact hP.pure _
  | cons ty ts ih =>
    rw [List.forall_mem_cons] at h
    exact hP.bind (h.1 p) fun _ => hP.bind (ih h.2) fun _ => hP.pure _

theorem ofFields (hP : Closed P) {fs : List (String × Ty)}
    (h : ∀ f ∈ fs, ∀ p, P (ofTy visit p f.2)) (p : Polarity) : P (ofFields visit p fs) := by
  induction fs with
  | nil => exact hP.pure _
  | cons f fs ih =>
    rw [List.forall_mem_cons] at h
    exact hP.bind (h.1 p) fun _ => hP.bind (ih h.2) fun _ => hP.pure _

theorem ofTy (hP : Closed P) {Q : Var → Prop} (hv : ∀ p v, Q v → P (visit p v)) {ty : Ty}
    (h : ty.Forall Q fun _ => True) (p : Polarity) : P (ofTy visit p ty) := by
  induction ty generalizing p with
  | base b => exact hP.pure _
  | var v => exact hv p v h
  | arrow n q r ihq ihr =>
    exact hP.bind (ihq h.1 p.flip) fun _ => hP.bind (ihr h.2 p) fun _ => hP.pure _
  | tuple n ts ih =>
    rw [Ty.forall_tuple] at h
    exact hP.bind (hP.ofElems (fun ty hty => ih ty hty (h ty hty)) p) fun _ => hP.pure _
  | record n fs ih =>
    rw [Ty.forall_record] at h
    exact hP.bind (hP.ofFields (fun f hf => ih f hf (h.2 f hf)) p) fun _ => hP.pure _

end Closed

/-- From every table that is `t` with more variables, the computation returns and leaves
such a table. -/
def Returns (t : BoundTable) (x : ExpandM α) : Prop :=
  ∀ (m : PolarMap Var) (s : Session), t.AddsVars s.table →
    ∃ a m' s', s.perform (x.run m) = (.ok (a, m'), s') ∧ t.AddsVars s'.table

namespace Returns

variable {t : BoundTable}

theorem pure (a : α) : Returns t (Pure.pure a : ExpandM α) :=
  fun m s hs => ⟨a, m, s, rfl, hs⟩

theorem bind {x : ExpandM α} {f : α → ExpandM β} (hx : Returns t x)
    (hf : ∀ a, Returns t (f a)) : Returns t (x >>= f) := by
  intro m s hs
  obtain ⟨a, m₁, s₁, hrun, hs₁⟩ := hx m s hs
  obtain ⟨b, m₂, s₂, hrun', hs₂⟩ := hf a m₁ s₁ hs₁
  refine ⟨b, m₂, s₂, ?_, hs₂⟩
  rw [StateT.run_bind, Session.perform_bind_of_ok hrun, hrun']

theorem closed : Closed (Returns t) := ⟨pure, bind⟩

theorem get : Returns t (MonadState.get : ExpandM (PolarMap Var)) :=
  fun m s hs => ⟨m, m, s, rfl, hs⟩

theorem table {f : BoundTable → ExpandM α} (hf : ∀ t', t.AddsVars t' → Returns t (f t')) :
    Returns t (liftM SessionM.table >>= f) :=
  fun m s hs => hf s.table hs m s hs

end Returns

variable {t : BoundTable}

theorem binderFor_returns (p : Polarity) (v : Var) : Returns t (binderFor p v) := by
  refine Returns.get.bind fun m => ?_
  cases m.find? p v with
  | some binder => exact .pure _
  | none => exact fun _ s hs => ⟨_, _, _, rfl, hs.trans (.addVar s.table 0)⟩

theorem path_length_le {path : List (Polarity × Nat)} {n : Nat} (hd : path.Nodup)
    (hp : ∀ e ∈ path, e.2 < n) : path.length ≤ 2 * n := by
  have hsub : path ⊆ [Polarity.positive, .negative] ×ˢ List.range n := by
    intro e he
    rw [List.mem_product, List.mem_range]
    exact ⟨by cases e.1 <;> simp, hp e he⟩
  have hle := (List.subperm_of_subset hd hsub).length_le
  rwa [List.length_product, List.length_range] at hle

theorem ofVar_returns {fuel : Nat} {path : List (Polarity × Nat)} (hd : path.Nodup)
    (hp : ∀ e ∈ path, e.2 < t.size) (hf : 2 * t.size + 1 ≤ fuel + path.length)
    (p : Polarity) (v : Var) : Returns t (ofVar fuel path p v) := by
  induction fuel generalizing path p v with
  | zero =>
    have hle := path_length_le hd hp
    omega
  | succ fuel ih =>
    rw [ofVar]
    split
    case isTrue => exact (binderFor_returns p v).bind fun _ => .pure _
    case isFalse hmem =>
      -- a variable that is not of the table has no bounds, so the path only grows inside it
      have hbounds : ∀ b ∈ t.bounds p v, ∀ q,
          Returns t (ofTy (ofVar fuel ((p, v.id) :: path)) q b) := by
        intro b hb q
        have hv := BoundTable.lt_size_of_mem_bounds hb
        have hd' : ((p, v.id) :: path).Nodup := List.nodup_cons.mpr ⟨by simpa using hmem, hd⟩
        have hp' : ∀ e ∈ (p, v.id) :: path, e.2 < t.size := List.forall_mem_cons.mpr ⟨hv, hp⟩
        refine Returns.closed.ofTy (fun q w _ => ih hd' hp' ?_ q w) b.forall_trivial q
        rw [List.length_cons]
        omega
      refine .table fun t' ht => ?_
      rw [ht.bounds_eq p v]
      refine (Returns.closed.ofElems hbounds p).bind fun _ => Returns.get.bind fun m => ?_
      cases m.find? p v <;> exact .pure _

theorem ofTy_returns (t : BoundTable) (p : Polarity) (ty : Ty) :
    Returns t (ofTy (ofVar (2 * t.size + 1) []) p ty) :=
  Returns.closed.ofTy (fun q v _ => ofVar_returns List.nodup_nil (List.forall_mem_nil _)
    (Nat.le_refl _) q v) ty.forall_trivial p

end Expansion

theorem perform_expandBounds {p : Polarity} {ty : Ty} {s s' : Session} {e : TypeExpr}
    {m : PolarMap Var}
    (h : s.perform ((Expansion.ofTy (Expansion.ofVar (2 * s.table.size + 1) []) p ty).run .empty) =
      (.ok (e, m), s')) : s.perform (expandBounds p ty) = (.ok e, s') := by
  rw [expandBounds, Session.perform_bind_of_ok (Session.perform_lift ..)]
  exact Session.perform_bind_of_ok h

theorem expandBounds_performs (p : Polarity) (ty : Ty) (s : Session) :
    ∃ e s', s.perform (expandBounds p ty) = (.ok e, s') ∧ s.table.AddsVars s'.table := by
  obtain ⟨e, m, s', hrun, hs'⟩ := Expansion.ofTy_returns s.table p ty .empty s (.refl _)
  exact ⟨e, s', perform_expandBounds hrun, hs'⟩

end Biunify
