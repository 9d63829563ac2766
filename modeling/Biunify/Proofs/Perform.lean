import Biunify.Copy.Basic

/-! Performing a computation on a session: what a computation ends in is the outcome of
its parts in turn, and an early stop keeps the session it stopped in. -/

namespace Biunify

def Session.perform {α : Type} (s : Session) (x : CheckM α) : Except Stop α × Session :=
  x.run.run s

namespace Session

variable {α β κ : Type}

@[simp] theorem perform_pure (s : Session) (a : α) : s.perform (pure a) = (.ok a, s) := rfl

@[simp] theorem perform_throw (s : Session) (e : Stop) :
    s.perform (throw e : CheckM α) = (.error e, s) := rfl

theorem perform_bind (s : Session) (x : CheckM α) (f : α → CheckM β) :
    s.perform (x >>= f) =
      match s.perform x with
      | (.ok a, s') => s'.perform (f a)
      | (.error e, s') => (.error e, s') := by
  simp only [perform, ExceptT.run_bind, StateT.run_bind]
  rcases h : (x.run.run s) with ⟨r, s'⟩
  cases r <;> rfl

theorem perform_bind_of_ok {s s' : Session} {x : CheckM α} {f : α → CheckM β} {a : α}
    (h : s.perform x = (.ok a, s')) : s.perform (x >>= f) = s'.perform (f a) := by
  rw [perform_bind, h]

theorem perform_bind_of_error {s s' : Session} {x : CheckM α} {f : α → CheckM β} {e : Stop}
    (h : s.perform x = (.error e, s')) : s.perform (x >>= f) = (.error e, s') := by
  rw [perform_bind, h]

@[simp] theorem perform_lift (s : Session) (x : SessionM α) :
    s.perform (liftM x) = (.ok (x.run s).1, (x.run s).2) := rfl

theorem perform_copy_bind_of_ok {s s' : Session} {m m' : κ} {x : CopyM κ α}
    {f : α → CopyM κ β} {a : α} (h : s.perform (x.run m) = (.ok (a, m'), s')) :
    s.perform ((x >>= f).run m) = s'.perform ((f a).run m') := by
  rw [StateT.run_bind, perform_bind_of_ok h]

@[simp] theorem perform_copy_pure (s : Session) (m : κ) (a : α) :
    s.perform ((pure a : CopyM κ α).run m) = (.ok (a, m), s) := rfl

@[simp] theorem perform_copy_lift (s : Session) (m : κ) (x : SessionM α) :
    s.perform ((liftM x : CopyM κ α).run m) = (.ok ((x.run s).1, m), (x.run s).2) := rfl

@[simp] theorem perform_copy_get (s : Session) (m : κ) :
    s.perform ((get : CopyM κ κ).run m) = (.ok (m, m), s) := rfl

@[simp] theorem perform_copy_modify (s : Session) (m : κ) (f : κ → κ) :
    s.perform ((modify f : CopyM κ Unit).run m) = (.ok ((), f m), s) := rfl

/-- With enough fuel the computation ends so, and it is not fuel that it stops for. -/
structure Settles (s : Session) (x : Nat → CheckM α) (r : Except Stop α) (s' : Session) : Prop where
  answers : r ≠ .error .outOfFuel
  enough : ∃ fuel, ∀ more, fuel ≤ more → s.perform (x more) = (r, s')

namespace Settles

variable {s s₁ s' : Session}

theorem of_forall {x : Nat → CheckM α} {a : α} (h : ∀ fuel, s.perform (x fuel) = (.ok a, s')) :
    s.Settles x (.ok a) s' :=
  ⟨nofun, 0, fun more _ => h more⟩

theorem bind {x : Nat → CheckM α} {f : Nat → α → CheckM β} {a : α} {r : Except Stop β}
    (hx : s.Settles x (.ok a) s₁) (hf : s₁.Settles (fun fuel => f fuel a) r s') :
    s.Settles (fun fuel => x fuel >>= f fuel) r s' := by
  obtain ⟨-, n, hn⟩ := hx
  obtain ⟨hr, k, hk⟩ := hf
  refine ⟨hr, max n k, fun more hmore => ?_⟩
  rw [perform_bind_of_ok (hn more (Nat.le_trans (Nat.le_max_left n k) hmore))]
  exact hk more (Nat.le_trans (Nat.le_max_right n k) hmore)

theorem bind_error {x : Nat → CheckM α} {f : Nat → α → CheckM β} {e : Stop}
    (hx : s.Settles x (.error e) s') : s.Settles (fun fuel => x fuel >>= f fuel) (.error e) s' := by
  obtain ⟨he, n, hn⟩ := hx
  refine ⟨fun h => he ?_, n, fun more hmore => perform_bind_of_error (hn more hmore)⟩
  cases h
  rfl

theorem unique {x : Nat → CheckM α} {r r' : Except Stop α} (h : s.Settles x r s')
    (h' : s.Settles x r' s₁) : r = r' ∧ s' = s₁ := by
  obtain ⟨-, n, hn⟩ := h
  obtain ⟨-, k, hk⟩ := h'
  have hrun := hn (max n k) (Nat.le_max_left n k)
  exact Prod.mk.inj (hrun.symm.trans (hk (max n k) (Nat.le_max_right n k)))

end Settles

end Session
end Biunify
