import Biunify.Proofs.Acceptance.OneLevel
import Biunify.Proofs.Typing.Principal

/-! The order of constraints does not matter. From fresh variables of one level, a list of
constraints is accepted exactly if some exact reading has a solution for all of them at once. If it
is accepted, the bounds in the end give such a reading; and where there is one, no constraint can be
refused. Neither side speaks of an order. -/

namespace Biunify

def relateAll (fuel : Nat) (cs : List (Ty × Ty)) : CheckM Unit :=
  cs.forM fun c => relate fuel c.1 c.2

/-- The constraints hold together, under one assignment in one exact reading. -/
def Solvable (cs : List (Ty × Ty)) : Prop :=
  ∃ (α : Type) (_ : Preorder α) (R : ExactReading α) (ρ : Nat → α),
    ∀ c ∈ cs, R.read ρ c.1 ≤ R.read ρ c.2

theorem Solvable.perm {cs cs' : List (Ty × Ty)} (h : Solvable cs) (hperm : cs.Perm cs') :
    Solvable cs' := by
  obtain ⟨α, _, R, ρ, hle⟩ := h
  exact ⟨α, _, R, ρ, fun c hc => hle c (hperm.mem_iff.mpr hc)⟩

variable {level : Nat} {s s' : Session} {cs cs' : List (Ty × Ty)}

theorem relateAll_settles (hs : s.table.Uniform level)
    (hcs : ∀ c ∈ cs, c.1.Plain s.table ∧ c.2.Plain s.table) :
    ∃ r s', s.Settles (relateAll · cs) r s' ∧
      (r = .ok () → s.table.Extends s'.table ∧ s'.table.Uniform level ∧
        ∀ c ∈ cs, Goal.Derived s'.table (.relate c.1 c.2)) := by
  induction cs generalizing s with
  | nil =>
    refine ⟨.ok (), s, .of_forall fun _ => rfl, fun _ => ⟨.refl s.table, hs, ?_⟩⟩
    exact List.forall_mem_nil _
  | cons c cs ih =>
    obtain ⟨⟨hl, hr⟩, hcs⟩ := List.forall_mem_cons.mp hcs
    have hsound : s.table.Sound := ⟨hs.inScope.imp fun _ _ => trivial, hs.leveled⟩
    have hst := Goal.start_scoped hsound.inScope (hl.imp (fun _ => id) fun _ _ => trivial)
      (hr.imp (fun _ => id) fun _ _ => trivial)
    obtain ⟨r, s₁, hc⟩ := relate_settles hsound hst
    cases r with
    | error e => exact ⟨.error e, s₁, hc.bind_error, fun h => by cases h⟩
    | ok =>
      obtain ⟨fuel, hfuel⟩ := hc.enough
      obtain ⟨hx, hs₁, hd⟩ := relate_uniform hs hl hr (hfuel fuel le_rfl)
      obtain ⟨r, s', hrest, hok⟩ := ih hs₁ fun c hc => (hcs c hc).imp hx.plain hx.plain
      refine ⟨r, s', hc.bind hrest, fun h => ?_⟩
      obtain ⟨hx', hs', hds⟩ := hok h
      exact ⟨hx.trans hx', hs', List.forall_mem_cons.mpr ⟨hd.mono hx', hds⟩⟩

theorem relateAll_accepts {α : Type} [Preorder α] {R : ExactReading α} {ρ : Nat → α}
    (hs : s.table.Plain) (hρ : R.Satisfies ρ s.table)
    (hcs : ∀ c ∈ cs, c.1.Plain s.table ∧ c.2.Plain s.table)
    (hle : ∀ c ∈ cs, R.read ρ c.1 ≤ R.read ρ c.2) :
    ∃ s', s.Settles (relateAll · cs) (.ok ()) s' := by
  -- the assignment changes on the way, since it has to cover the variables that are made
  induction cs generalizing s ρ with
  | nil => exact ⟨s, .of_forall fun _ => rfl⟩
  | cons c cs ih =>
    obtain ⟨⟨hl, hr⟩, hcs⟩ := List.forall_mem_cons.mp hcs
    obtain ⟨hc, hle⟩ := List.forall_mem_cons.mp hle
    obtain ⟨s₁, ρ₁, hsettles, hadv⟩ := relate_advances hs hρ hl hr hc
    have hx := hadv.toExtends
    have hcs₁ := fun c hc => (hcs c hc).imp hx.plain hx.plain
    obtain ⟨s', hrest⟩ := ih hadv.plain hadv.satisfies hcs₁ fun c hc => by
      rw [hadv.read_eq (hcs c hc).1, hadv.read_eq (hcs c hc).2]
      exact hle c hc
    exact ⟨s', hsettles.bind hrest⟩

theorem solvable_of_derived {t : BoundTable} (ht : t.Uniform level)
    (hcs : ∀ c ∈ cs, c.1.Plain t ∧ c.2.Plain t)
    (hd : ∀ c ∈ cs, Goal.Derived t (.relate c.1 c.2)) : Solvable cs := by
  have hnodup : ∀ ns, Ty.FieldNames ns → ns.Nodup := fun _ h => h.1
  have hscope := ht.inScope.imp hnodup
  refine ⟨t.Point, _, ht.exactReading hscope, BoundTable.Point.var, fun c hc => ?_⟩
  obtain ⟨hl, hr⟩ := hcs c hc
  apply (hd c hc).holds hscope ⟨?_, ?_⟩ t.reading_satisfies
  · exact hl.imp (fun _ => id) hnodup
  · exact hr.imp (fun _ => id) hnodup

section Fresh

variable {t : BoundTable} (hfresh : ∀ p v, t.bounds p v = [])
include hfresh

theorem notMem_bounds_of_fresh (p : Polarity) (v : Var) (b : Ty) : b ∉ t.bounds p v := by
  rw [hfresh]
  exact List.not_mem_nil

theorem uniform_of_fresh (hflat : t.Flat level) : t.Uniform level where
  unlinked v l hl := absurd hl (notMem_bounds_of_fresh hfresh .positive v l)
  met v l hl := absurd hl (notMem_bounds_of_fresh hfresh .positive v l)
  inScope p v b hb := absurd hb (notMem_bounds_of_fresh hfresh p v b)
  flat := hflat

theorem satisfies_of_fresh {α : Type} [Preorder α] (R : Reading α) (ρ : Nat → α) :
    R.Satisfies ρ t :=
  Reading.satisfies_iff.mpr fun p v b hb => absurd hb (notMem_bounds_of_fresh hfresh p v b)

end Fresh

theorem relateAll_ok_iff (hflat : s.table.Flat level) (hfresh : ∀ p v, s.table.bounds p v = [])
    (hcs : ∀ c ∈ cs, c.1.Plain s.table ∧ c.2.Plain s.table) {r : Except Stop Unit}
    (h : s.Settles (relateAll · cs) r s') : r = .ok () ↔ Solvable cs := by
  have hs := uniform_of_fresh hfresh hflat
  constructor
  · intro hr
    obtain ⟨r₁, s₁, h₁, hok⟩ := relateAll_settles hs hcs
    obtain ⟨rfl, rfl⟩ := h.unique h₁
    obtain ⟨hx, hs', hd⟩ := hok hr
    exact solvable_of_derived hs' (fun c hc => (hcs c hc).imp hx.plain hx.plain) hd
  · rintro ⟨α, _, R, ρ, hle⟩
    have hρ := satisfies_of_fresh hfresh R.toReading ρ
    obtain ⟨s₁, h₁⟩ := relateAll_accepts ⟨hs.inScope, hs.leveled⟩ hρ hcs hle
    exact (h.unique h₁).1

/-- Between fresh variables of one level, constraints that are accepted in one order are accepted in
every order. -/
theorem relateAll_perm (hflat : s.table.Flat level) (hfresh : ∀ p v, s.table.bounds p v = [])
    (hcs : ∀ c ∈ cs, c.1.Plain s.table ∧ c.2.Plain s.table) (hperm : cs.Perm cs') :
    ∃ r r' s₁ s₂, s.Settles (relateAll · cs) r s₁ ∧ s.Settles (relateAll · cs') r' s₂ ∧
      (r = .ok () ↔ r' = .ok ()) ∧ (r = .ok () ↔ Solvable cs) := by
  have hs := uniform_of_fresh hfresh hflat
  have hcs' : ∀ c ∈ cs', c.1.Plain s.table ∧ c.2.Plain s.table :=
    fun c hc => hcs c (hperm.mem_iff.mpr hc)
  obtain ⟨r, s₁, h, -⟩ := relateAll_settles hs hcs
  obtain ⟨r', s₂, h', -⟩ := relateAll_settles hs hcs'
  have hok := relateAll_ok_iff hflat hfresh hcs h
  have hok' := relateAll_ok_iff hflat hfresh hcs' h'
  refine ⟨r, r', s₁, s₂, h, h', ?_, hok⟩
  rw [hok, hok']
  exact ⟨fun hsolvable => hsolvable.perm hperm, fun hsolvable => hsolvable.perm hperm.symm⟩

def siblings : Session := ⟨(BoundTable.empty.addVar 1).addVar 1, 1, []⟩

def pipeline : List (Ty × Ty) :=
  [(.var ⟨0, 1⟩, .var ⟨1, 1⟩), (.record 0 [("x", .base .int)], .var ⟨0, 1⟩),
    (.var ⟨1, 1⟩, .record 1 [("x", .base .float)])]

theorem relateAll_perm_pipeline :
    siblings.table.Flat 1 ∧ (∀ p v, siblings.table.bounds p v = []) ∧
      (∀ c ∈ pipeline, c.1.Plain siblings.table ∧ c.2.Plain siblings.table) ∧
      pipeline.Perm pipeline.reverse ∧
      ∃ r r' s₁ s₂, siblings.Settles (relateAll · pipeline) r s₁ ∧
        siblings.Settles (relateAll · pipeline.reverse) r' s₂ ∧
        (r = .ok () ↔ r' = .ok ()) ∧ (r = .ok () ↔ Solvable pipeline) := by
  have hflat : siblings.table.Flat 1 := by
    intro v hv
    simp only [siblings, BoundTable.owns_addVar] at hv
    rcases hv with (hv | rfl) | rfl
    · exact absurd hv.lt_size (Nat.not_lt_zero _)
    · rfl
    · rfl
  have hfresh : ∀ p v, siblings.table.bounds p v = [] := by
    intro p v
    simp only [siblings, BoundTable.bounds_addVar]
    exact BoundTable.bounds_of_size_le (Nat.zero_le _) p
  have hplain : ∀ c ∈ pipeline, c.1.Plain siblings.table ∧ c.2.Plain siblings.table := by
    have hnames : Ty.FieldNames ["x"] := by decide
    simp only [pipeline, List.forall_mem_cons, Ty.Plain, Ty.forall_record]
    exact ⟨⟨rfl, rfl⟩, ⟨⟨hnames, by simp⟩, rfl⟩, ⟨rfl, hnames, by simp⟩, by simp⟩
  have hperm : pipeline.Perm pipeline.reverse := (List.reverse_perm pipeline).symm
  exact ⟨hflat, hfresh, hplain, hperm, relateAll_perm hflat hfresh hplain hperm⟩

end Biunify
