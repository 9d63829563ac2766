import Biunify.Proofs.Acceptance.Entailment

/-! Constraints on variables of one level. No bound is too deep for its variable there, so a
constraint is taken apart or recorded, and one between two variables is recorded above the left
one. Hence a run that finishes leaves a saturated table. -/

namespace Biunify

def BoundTable.Flat (level : Nat) (t : BoundTable) : Prop := ∀ v, t.Owns v → v.level = level

theorem BoundTable.Flat.level_le {level : Nat} {t : BoundTable} {names : List String → Prop}
    (h : t.Flat level) {ty : Ty} {v : Var} (hty : ty.Forall t.Owns names) (hv : t.Owns v) :
    ty.level ≤ v.level := by
  rw [Ty.level_le_iff, h v hv]
  exact hty.imp (fun w hw => (h w hw).le) fun _ _ => trivial

theorem BoundTable.Unlinked.addBound {t : BoundTable} (h : t.Unlinked) {p : Polarity} {v : Var}
    {b : Ty} (hv : t.Owns v) (hb : p = .positive → b.isVar = false) :
    (t.addBound p v b).Unlinked := by
  intro w l hl
  replace hl : l ∈ (t.addBound p v b).bounds .positive w := hl
  rw [bounds_addBound hv] at hl
  split at hl
  case isTrue hid =>
    rcases List.mem_cons.mp hl with rfl | hl
    · exact hb hid.2.symm
    · exact h w l hl
  case isFalse => exact h w l hl

namespace Goal

section Steps

variable {names : List String → Prop} {level : Nat} {t t' : BoundTable} {st st' : State}

theorem Split.cases_flat {g : Goal} {goals : List Goal} (h : Split t g goals t')
    (hk : t.Flat level) (hg : g.Forall t.Owns names) :
    (∃ a b, g = .relate a b ∧ Parts a b goals ∧ t' = t) ∨
      ∃ p b v, g = p.orient relate b (.var v) ∧
        goals = (t.bounds p.flip v).map (p.orient relate b) ∧ t' = t.addBound p v b := by
  cases h with
  | parts h => exact .inl ⟨_, _, rfl, h, rfl⟩
  | bound p => exact .inr ⟨p, _, _, rfl, rfl, rfl⟩
  | lowered p hn hlt =>
    obtain ⟨hb, hv⟩ := (forall_orient ..).mp hg
    exact absurd (hk.level_le hb hv) (Nat.not_le.mpr hlt)

theorem Step.flat (h : Step st st') (hst : st.Scoped names) (hk : st.table.Flat level) :
    st'.table.Flat level := by
  cases h with
  | known => exact hk
  | split hn h =>
    rcases h.cases_flat hk (hst.goals _ List.mem_cons_self) with
      ⟨a, b, -, -, rfl⟩ | ⟨p, b, v, -, -, rfl⟩
    · exact hk
    · intro w hw
      exact hk w ((BoundTable.owns_addBound ..).mp hw)

theorem Steps.flat (h : Steps st st') (hst : st.Scoped names) (hk : st.table.Flat level) :
    st'.table.Flat level := by
  induction h with
  | refl => exact hk
  | tail h hstep ih => exact hstep.flat (Steps.inScope h hst) ih

theorem Step.boundsMeet (hp : ∀ ns, names ns → ∀ n ∈ ns, Ty.PlainName n) (h : Step st st')
    (hf : Finishes st' t) (hst : st.Scoped names) (hm : MemoSound names t st.memo)
    (hk : st.table.Flat level)
    (hmeet : st.table.BoundsMeet fun l u => Derived t (.relate l u)) :
    st'.table.BoundsMeet fun l u => Derived t (.relate l u) := by
  have hderived := hf.derived hp (h.inScope hst) (h.memoSound hp hf hst hm)
  cases h with
  | known => exact hmeet
  | split hn h =>
    have hg := hst.goals _ List.mem_cons_self
    rcases h.cases_flat hk hg with ⟨a, b, -, -, rfl⟩ | ⟨p, b, v, rfl, rfl, rfl⟩
    · exact hmeet
    -- the goals that are left for the new bound are the pairs that it has yet to meet
    · refine hmeet.addBound ((forall_orient ..).mp hg).2 fun x hx => ?_
      have hgoal := hderived _ (List.mem_append_left _ (List.mem_map_of_mem hx))
      cases p with
      | positive => exact hgoal
      | negative => exact hgoal

theorem Finishes.boundsMeet (hp : ∀ ns, names ns → ∀ n ∈ ns, Ty.PlainName n) (hf : Finishes st t)
    (hst : st.Scoped names) (hm : MemoSound names t st.memo) (hk : st.table.Flat level)
    (hmeet : st.table.BoundsMeet fun l u => Derived t (.relate l u)) :
    t.BoundsMeet fun l u => Derived t (.relate l u) := by
  obtain ⟨memo, h⟩ := hf
  induction h using Relation.ReflTransGen.head_induction_on with
  | refl => exact hmeet
  | head hstep h ih =>
    have hf : Finishes _ t := ⟨memo, h⟩
    apply ih (hstep.inScope hst) (hstep.memoSound hp hf hst hm) (hstep.flat hst hk)
    exact hstep.boundsMeet hp hf hst hm hk hmeet

theorem Derived.mono {g : Goal} (h : Derived t g) (hx : t.Extends t') : Derived t' g := by
  induction h with
  | alike h => exact .alike h
  | parts h _ ih => exact .parts h ih
  | bound p hb h => exact .bound p (hx.mem hb) h
  | standIn p hn hi _ ih =>
    exact .standIn p hn (hi.imp fun q v c hc => hc.imp id hx.mem) ih

end Steps

section Unlinked

variable {level : Nat} {s s' : Session} {a b : Ty} {v : Var}

theorem split_of_var (h : b.level ≤ v.level) : split (.var v) b = boundAbove v b := by
  cases b with
  | var w => simp [split, show w.level ≤ v.level from h]
  | _ => simp [split, h]

theorem split_unlinked {goals : List Goal} (hk : s.table.Flat level)
    (hs : s.table.Scoped fun _ => True) (ha : a.InScope s.table) (hb : b.InScope s.table)
    (hu : s.table.Unlinked) (h : s.perform (split a b) = (.ok goals, s')) : s'.table.Unlinked := by
  rcases a.var_or_isVar_eq_false with ⟨v, rfl⟩ | hn
  · rw [split_of_var (hk.level_le hb ha), boundAbove_performs ha] at h
    cases h
    exact hu.addBound ha (by simp)
  · rcases split_splits hs ha hb with ⟨goals', s₁, hr, hsplit⟩ | ⟨e, s₁, hr, -⟩
    · cases hr.symm.trans h
      rcases hsplit.cases_flat hk ⟨ha, hb⟩ with ⟨x, y, -, -, ht⟩ | ⟨p, c, v, hg, -, ht⟩
      · exact ht ▸ hu
      · rw [ht]
        cases p with
        | positive =>
          cases hg
          exact hu.addBound hb fun _ => hn
        | negative =>
          cases hg
          cases hn
    · cases hr.symm.trans h

theorem step_unlinked {memo memo' : Memo} {g : Goal} {goals : List Goal}
    (hk : s.table.Flat level) (hs : s.table.Scoped fun _ => True)
    (hg : g.Forall s.table.Owns fun _ => True) (hu : s.table.Unlinked)
    (h : s.perform (g.step memo) = (.ok (goals, memo'), s')) : s'.table.Unlinked := by
  cases g with
  | lacking name record =>
    obtain ⟨e, s₁, hr, -⟩ := lacking_step_performs memo name record s
    cases hr.symm.trans h
  | relate a b =>
    rw [step] at h
    split at h
    case isTrue =>
      cases h
      exact hu
    case isFalse =>
      let s₁ : Session := { s with log := .constrained a b :: s.log }
      have hemit : s.perform (liftM (SessionM.emit (.constrained a b))) = (.ok (), s₁) := rfl
      rw [Session.perform_bind_of_ok hemit] at h
      rcases hr : s₁.perform (split a b) with ⟨r, s₂⟩
      cases r with
      | error e =>
        rw [Session.perform_bind_of_error hr] at h
        cases h
      | ok goals =>
        rw [Session.perform_bind_of_ok hr] at h
        cases h
        exact split_unlinked (s := s₁) hk hs hg.1 hg.2 hu hr

theorem solve_unlinked (fuel : Nat) {memo : Memo} {goals : List Goal} (hk : s.table.Flat level)
    (hst : State.Scoped (fun _ => True) ⟨memo, goals, s.table⟩) (hu : s.table.Unlinked)
    (h : s.perform (solve fuel memo goals) = (.ok (), s')) : s'.table.Unlinked := by
  induction fuel generalizing memo goals s with
  | zero =>
    cases goals with
    | nil =>
      cases h
      exact hu
    | cons g rest => cases h
  | succ fuel ih =>
    cases goals with
    | nil =>
      cases h
      exact hu
    | cons g rest =>
      rw [solve] at h
      have hg := hst.goals g List.mem_cons_self
      rcases step_performs memo hst.table hg with ⟨goals, memo', s₁, hr, hstep⟩ | ⟨e, s₁, hr, -⟩
      · rw [Session.perform_bind_of_ok hr] at h
        apply ih ((hstep rest).flat hst hk) ((hstep rest).inScope hst) _ h
        exact step_unlinked hk hst.table hg hu hr
      · rw [Session.perform_bind_of_error hr] at h
        cases h

end Unlinked

end Goal

/-- A table of plain types over variables of one level, whose bounds have met. -/
structure BoundTable.Uniform (level : Nat) (t : BoundTable) : Prop extends t.Saturated where
  inScope : t.Scoped Ty.FieldNames
  flat : t.Flat level

theorem BoundTable.Uniform.leveled {level : Nat} {t : BoundTable} (h : t.Uniform level) :
    t.Leveled :=
  fun p v hv b hb => h.flat.level_le (h.inScope p v b hb) hv

theorem relate_uniform {level fuel : Nat} {s s' : Session} {lhs rhs : Ty}
    (hs : s.table.Uniform level) (hl : lhs.Forall s.table.Owns Ty.FieldNames)
    (hr : rhs.Forall s.table.Owns Ty.FieldNames)
    (h : s.perform (relate fuel lhs rhs) = (.ok (), s')) :
    s.table.Extends s'.table ∧ s'.table.Uniform level ∧
      Goal.Derived s'.table (.relate lhs rhs) := by
  have hst := Goal.start_scoped hs.inScope hl hr
  have hf := relate_finishes hst h
  have hx := hf.toExtends hst
  have hmemo := Goal.memoSound_nil Ty.FieldNames s'.table
  have hplain : ∀ ns, Ty.FieldNames ns → ∀ n ∈ ns, Ty.PlainName n := fun _ h => h.2
  refine ⟨hx, ⟨⟨?_, ?_⟩, hf.inScope hst, ?_⟩, ?_⟩
  · refine Goal.solve_unlinked fuel hs.flat ⟨?_, fun g hg => ?_⟩ hs.unlinked h
    · exact hs.inScope.imp fun _ _ => trivial
    · exact (hst.goals g hg).imp_names fun _ _ => trivial
  · apply hf.boundsMeet hplain hst hmemo hs.flat
    exact fun v l hl u hu => (hs.met v l hl u hu).mono hx
  · obtain ⟨memo, hsteps⟩ := hf
    exact hsteps.flat hst hs.flat
  · exact hf.derived hplain hst hmemo _ List.mem_cons_self

end Biunify
