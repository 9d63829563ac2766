import Biunify.Proofs.Reading.Free
import Biunify.Proofs.Relate.Derivation

/-! No constraint is lost. A goal that follows from the bounds of a table holds under every
assignment that satisfies those bounds, in every reading; so a constraint that `relate`
accepts holds wherever the bounds it leaves behind do. -/

namespace Biunify

universe u

/-- No name occurs twice, and none holds a character that ends a name in a key. -/
def Ty.FieldNames (names : List String) : Prop := names.Nodup ∧ ∀ n ∈ names, Ty.PlainName n

instance (names : List String) : Decidable (Ty.FieldNames names) :=
  inferInstanceAs (Decidable (_ ∧ _))

theorem Reading.Satisfies.standIn_le {α : Type u} [Preorder α] {R : Reading α} {ρ : Nat → α}
    {t : BoundTable} (h : R.Satisfies ρ t) {p : Polarity} {v c : Var} (hc : t.StandIn p v c) :
    p.orient (· ≤ ·) (ρ v.id) (ρ c.id) := by
  rcases hc with rfl | hc
  · exact p.orient_le_refl _
  · have hle := h.le hc
    rwa [Polarity.orient_flip, read_var] at hle

namespace Goal

variable {α : Type u} [Preorder α] {R : Reading α} {ρ : Nat → α}

def Holds (R : Reading α) (ρ : Nat → α) : Goal → Prop
  | .relate a b => R.read ρ a ≤ R.read ρ b
  | .lacking .. => False

theorem holds_orient (p : Polarity) (b x : Ty) :
    (p.orient relate b x).Holds R ρ ↔ p.orient (· ≤ ·) (R.read ρ b) (R.read ρ x) := by
  cases p <;> exact Iff.rfl

theorem holds_field {record : Ty} {fs : List (String × Ty)} {g : String × Ty}
    (h : (field record fs g).Holds R ρ) :
    ∃ f ∈ fs, f.1 = g.1 ∧ R.read ρ f.2 ≤ R.read ρ g.2 := by
  rw [field] at h
  split at h
  case h_1 ty hty => exact ⟨(g.1, ty), mem_of_fieldNamed? hty, rfl, h⟩
  case h_2 => exact h.elim

theorem Parts.layersBelow {a b : Ty} {goals : List Goal} (h : Parts a b goals)
    (hg : ∀ g ∈ goals, g.Holds R ρ) : R.LayersBelow ρ a b := by
  cases h with
  | base h => exact ⟨_, _, rfl, rfl, .base h⟩
  | arrow m n p q r s =>
    rw [List.forall_mem_cons, List.forall_mem_singleton] at hg
    exact ⟨_, _, rfl, rfl, .arrow hg.1 hg.2⟩
  | tuple m n hl =>
    rw [forall_zipWith_relate hl] at hg
    refine ⟨_, _, rfl, rfl, .tuple ?_⟩
    rw [List.forall₂_map_left_iff, List.forall₂_map_right_iff]
    exact hg
  | record m n fs gs =>
    refine ⟨_, _, rfl, rfl, .record (List.forall_mem_map.mpr fun g hmem => ?_)⟩
    obtain ⟨f, hf, hname, hle⟩ := holds_field (hg _ (List.mem_map_of_mem hmem))
    exact ⟨_, List.mem_map_of_mem hf, hname, hle⟩

theorem Derived.holds {t : BoundTable} {g : Goal} (h : Derived t g)
    (ht : t.Scoped List.Nodup) (hg : g.Forall t.Owns List.Nodup) (hρ : R.Satisfies ρ t) :
    g.Holds R ρ := by
  induction h with
  | alike h => exact (Reading.read_eq_of_alike h).le
  | parts h _ ih =>
    have hgoals := fun g hmem => ih g hmem (h.forall hg.1 hg.2 g hmem)
    exact (h.layersBelow hgoals).le hg.1 hg.2
  | bound p hb h =>
    rw [holds_orient, Reading.read_eq_of_alike h, Reading.read_var]
    exact hρ.le hb
  | standIn p hv hi _ ih =>
    rw [forall_orient] at hg
    have hb' := hi.forall_right hg.1 fun q v c hv hc => hc.owns ht hv
    have hcopy : p.orient (· ≤ ·) (R.read ρ _) (R.read ρ _) :=
      Reading.le_of_image hi hg.1 fun q v c hc => hρ.standIn_le hc
    have hle := ih ((forall_orient ..).mpr ⟨hb', hg.2⟩)
    rw [holds_orient] at hle ⊢
    exact Polarity.orient_le_trans hcopy hle

theorem Finishes.holds {st : State} {t : BoundTable} (h : Finishes st t)
    (hst : st.Scoped Ty.FieldNames) (hm : MemoSound Ty.FieldNames t st.memo)
    (hρ : R.Satisfies ρ t) : ∀ g ∈ st.goals, g.Holds R ρ := by
  intro g hg
  have hnodup : ∀ ns, Ty.FieldNames ns → ns.Nodup := fun _ h => h.1
  have hderived := h.derived (fun _ h => h.2) hst hm g hg
  refine hderived.holds ((h.inScope hst).imp hnodup) ?_ hρ
  exact ((hst.goals g hg).imp fun _ => (h.toExtends hst).owns).imp_names hnodup

end Goal

/-- Whatever way `relate` discharged the constraint, every assignment that satisfies the
bounds it leaves satisfies the constraint. The levels of variables play no part. -/
theorem relate_sound {α : Type u} [Preorder α] (R : Reading α) {s s' : Session} {fuel : Nat}
    {lhs rhs : Ty} (hs : s.table.Scoped Ty.FieldNames)
    (hl : lhs.Forall s.table.Owns Ty.FieldNames) (hr : rhs.Forall s.table.Owns Ty.FieldNames)
    (h : s.perform (relate fuel lhs rhs) = (.ok (), s')) (ρ : Nat → α)
    (hρ : R.Satisfies ρ s'.table) : R.read ρ lhs ≤ R.read ρ rhs := by
  have hst := Goal.start_scoped hs hl hr
  have hf := relate_finishes hst h
  have hx := hf.toExtends hst
  have hnodup : ∀ ns, Ty.FieldNames ns → ns.Nodup := fun _ h => h.1
  have hd := hf.derived (fun _ h => h.2) hst (Goal.memoSound_nil _ _) _ List.mem_cons_self
  refine hd.holds ((hf.inScope hst).imp hnodup) ⟨?_, ?_⟩ hρ
  · exact hl.imp (fun _ => hx.owns) hnodup
  · exact hr.imp (fun _ => hx.owns) hnodup

def twoLevels : Session := ⟨(BoundTable.empty.addVar 0).addVar 1, 1, []⟩

def acceptsInner : Ty := .arrow 0 (.var ⟨1, 1⟩) (.base .int)

def floatOverInt : Nat → Ty
  | 0 => .arrow 0 (.base .float) (.base .int)
  | 1 => .base .int
  | _ => .base .float

theorem twoLevels_bounds (p : Polarity) (v : Var) : twoLevels.table.bounds p v = [] := by
  simp only [twoLevels, BoundTable.bounds_addVar]
  exact BoundTable.bounds_of_size_le (Nat.zero_le _) p

theorem twoLevels_scoped (names : List String → Prop) : twoLevels.table.Scoped names := by
  intro p v b hb
  rw [twoLevels_bounds] at hb
  cases hb

theorem outer_inScope (names : List String → Prop) :
    (Ty.var ⟨0, 0⟩).Forall twoLevels.table.Owns names := rfl

theorem acceptsInner_inScope (names : List String → Prop) :
    acceptsInner.Forall twoLevels.table.Owns names := ⟨rfl, trivial⟩

theorem relate_sound_twoLevels :
    (twoLevels.perform (relate 4 (.var ⟨0, 0⟩) acceptsInner)).1 = .ok () ∧
      Ty.free.read floatOverInt (.var ⟨0, 0⟩) ≤ Ty.free.read floatOverInt acceptsInner := by
  have hrun : twoLevels.perform (relate 4 (.var ⟨0, 0⟩) acceptsInner) =
      (.ok (), (twoLevels.perform (relate 4 (.var ⟨0, 0⟩) acceptsInner)).2) := rfl
  have hρ : Ty.free.Satisfies floatOverInt
      (twoLevels.perform (relate 4 (.var ⟨0, 0⟩) acceptsInner)).2.table := by
    rintro ⟨i, l⟩
    have ht : (twoLevels.perform (relate 4 (.var ⟨0, 0⟩) acceptsInner)).2.table =
      ⟨#[⟨0, [], [.arrow 1 (.var ⟨2, 0⟩) (.base .int)]⟩, ⟨1, [], [.var ⟨2, 0⟩]⟩,
        ⟨0, [], []⟩]⟩ := rfl
    rw [ht]
    match i with
    | 0 =>
      have hle := Ty.Sub.refl (.arrow 0 (.base .float) (.base .int))
      exact ⟨List.forall_mem_nil _, List.forall_mem_singleton.mpr hle⟩
    | 1 =>
      have hle : Ty.Sub (.base .int) (.base .float) := .base rfl
      exact ⟨List.forall_mem_nil _, List.forall_mem_singleton.mpr hle⟩
    | 2 => exact ⟨List.forall_mem_nil _, List.forall_mem_nil _⟩
    | n + 3 => exact ⟨List.forall_mem_nil _, List.forall_mem_nil _⟩
  exact ⟨rfl, relate_sound Ty.free.toReading (twoLevels_scoped _) (outer_inScope _)
    (acceptsInner_inScope _) hrun floatOverInt hρ⟩

end Biunify
