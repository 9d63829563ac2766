import Biunify.Proofs.Relate.Soundness

/-! `relate` asks for no more than it is told. In an exact reading, an assignment that
satisfies the bounds and the goals of a state satisfies those of the next one, once each
stand-in gets the element of the variable it stands for. Since no assignment makes a
refused goal true, a constraint that has a solution is not rejected. -/

namespace Biunify

universe u

theorem Ty.fieldNamed?_eq_some {fs : List (String × Ty)} (hn : (Ty.names fs).Nodup)
    {f : String × Ty} (hf : f ∈ fs) : Ty.fieldNamed? f.1 fs = some f.2 := by
  induction fs with
  | nil => cases hf
  | cons g fs ih =>
    obtain ⟨hg, hn⟩ := List.nodup_cons.mp hn
    rw [Ty.fieldNamed?, List.find?_cons]
    rcases List.mem_cons.mp hf with rfl | hf
    · simp
    · have hne : (g.1 == f.1) = false := by
        rw [beq_eq_false_iff_ne]
        exact fun heq => hg (heq ▸ List.mem_map_of_mem hf)
      rw [hne]
      exact ih hn hf

namespace ExactReading

variable {α : Type u} [Preorder α] {R : ExactReading α} {ρ : Nat → α} {P : Var → Prop}

theorem below_of_le {t u : Ty} {x y : Shape α} (ht : t.Forall P List.Nodup)
    (hu : u.Forall P List.Nodup) (hx : R.layer ρ t = some x) (hy : R.layer ρ u = some y)
    (hle : R.read ρ t ≤ R.read ρ u) : Shape.Below (· ≤ ·) x y := by
  obtain ⟨hx, hdx⟩ := Reading.layer_spec ht hx
  obtain ⟨hy, hdy⟩ := Reading.layer_spec hu hy
  rw [hx, hy] at hle
  exact R.exact hdx hdy hle

end ExactReading

namespace Goal

section Exact

variable {α : Type u} [Preorder α] {R : ExactReading α} {ρ : Nat → α} {P : Var → Prop}
  {a b : Ty} {goals : List Goal}

theorem Parts.holds_goals (h : Parts a b goals) (ha : a.Forall P List.Nodup)
    (hb : b.Forall P List.Nodup) (hle : R.read ρ a ≤ R.read ρ b) :
    ∀ g ∈ goals, g.Holds R.toReading ρ := by
  cases h with
  | base => exact List.forall_mem_nil _
  | arrow m n p q r s =>
    cases ExactReading.below_of_le ha hb rfl rfl hle with
    | arrow hp hr => exact List.forall_mem_cons.mpr ⟨hp, List.forall_mem_singleton.mpr hr⟩
  | tuple m n hl =>
    cases ExactReading.below_of_le ha hb rfl rfl hle with
    | tuple h =>
      rw [List.forall₂_map_left_iff, List.forall₂_map_right_iff] at h
      exact (forall_zipWith_relate hl).mpr h
  | record m n fs gs =>
    cases ExactReading.below_of_le ha hb rfl rfl hle with
    | record h =>
      rw [List.forall_mem_map] at h ⊢
      intro g hg
      obtain ⟨f', hf', hname, hle⟩ := h g hg
      obtain ⟨f, hf, rfl⟩ := List.mem_map.mp hf'
      rw [field, ← hname, Ty.fieldNamed?_eq_some ha.1 hf]
      exact hle

theorem exists_parts (hva : a.isVar = false) (hvb : b.isVar = false)
    (ha : a.Forall P List.Nodup) (hb : b.Forall P List.Nodup)
    (hle : R.read ρ a ≤ R.read ρ b) : ∃ goals, Parts a b goals := by
  obtain ⟨x, hx⟩ := R.toReading.exists_layer ρ hva
  obtain ⟨y, hy⟩ := R.toReading.exists_layer ρ hvb
  cases ExactReading.below_of_le ha hb hx hy hle with
  | base h =>
    cases a <;> cases hx
    cases b <;> cases hy
    exact ⟨_, .base h⟩
  | arrow =>
    cases a <;> cases hx
    cases b <;> cases hy
    exact ⟨_, .arrow ..⟩
  | tuple h =>
    cases a <;> cases hx
    cases b <;> cases hy
    exact ⟨_, .tuple _ _ (by simpa using h.length_eq)⟩
  | record =>
    cases a <;> cases hx
    cases b <;> cases hy
    exact ⟨_, .record ..⟩

theorem not_holds_of_refused {g : Goal} (hg : g.Forall P List.Nodup) (h : g.Refused) :
    ¬ g.Holds R.toReading ρ := by
  intro hh
  cases g with
  | lacking => exact hh
  | relate a b =>
    obtain ⟨goals, hp⟩ := exists_parts h.1 h.2.1 hg.1 hg.2 hh
    exact h.2.2 goals hp

end Exact
end Goal

namespace Copy.StandIns

variable {α : Type u} {limit : Nat} {m : PolarMap Var} {t t' : BoundTable}

structure Follows (m : PolarMap Var) (t : BoundTable) (ρ ρ' : Nat → α) : Prop where
  old : ∀ {i}, i < t.size → ρ' i = ρ i
  standIn : ∀ {p v c}, t.Owns v → m.find? p v = some c → ρ' c.id = ρ v.id

theorem exists_follows (h : StandIns limit .empty t m t') (ρ : Nat → α) :
    ∃ ρ', Follows m t ρ ρ' := by
  classical
  let source (i j : Nat) : Prop := ∃ p v c, t.Owns v ∧ m.find? p v = some c ∧ c.id = i ∧ v.id = j
  refine ⟨fun i => if hi : ∃ j, source i j then ρ hi.choose else ρ i, ?_, ?_⟩
  · intro i hlt
    refine dif_neg ?_
    rintro ⟨_, p, v, c, hv, hc, rfl, -⟩
    obtain ⟨_, -, -, -, hge, -⟩ := h.origin (PolarMap.find?_empty p v) hc
    exact absurd hlt (Nat.not_lt.mpr hge)
  · intro p v c hv hc
    have hi : ∃ j, source c.id j := ⟨v.id, p, v, c, hv, hc, rfl, rfl⟩
    obtain ⟨q, w, d, hw, hd, hid, hj⟩ := hi.choose_spec
    obtain rfl := (h.filled_of_find hw hd).2.owns.eq (h.filled_of_find hv hc).2.owns hid
    have hvw := (h.distinct (PolarMap.find?_empty p v) hc (PolarMap.find?_empty q w) hd).2
    rw [dif_pos hi, ← hj, hvw]

variable [Preorder α] {R : Reading α} {ρ ρ' : Nat → α} {names : List String → Prop}

theorem Follows.read_old (h : Follows m t ρ ρ') {b : Ty} (hb : b.Forall t.Owns names) :
    R.read ρ' b = R.read ρ b :=
  Reading.read_congr hb fun _ hv => h.old hv.lt_size

theorem Follows.read_copy (h : Follows m t ρ ρ') (hs : StandIns limit .empty t m t')
    {p : Polarity} {b b' : Ty} (hb : b.Forall t'.Owns names)
    (hi : Ty.Image (Replaced limit m) p b b') : R.read ρ' b' = R.read ρ' b := by
  have hi' : Ty.Image (fun _ v c => ρ' v.id = ρ' c.id) p b b' := by
    refine hi.imp_of_forall hb (Ty.forall_trivial b') fun q v c hv _ hc => ?_
    rcases hc with ⟨-, rfl⟩ | ⟨hlt, hc⟩
    · rfl
    · have hv := hs.owns_of_deep hv hlt
      rw [h.standIn hv hc, h.old hv.lt_size]
  exact (Reading.read_eq_of_image hi' fun _ _ _ heq => heq).symm

theorem satisfies (hs : StandIns limit .empty t m t') (ht : t.Scoped names)
    (hf : Follows m t ρ ρ') (hρ : R.Satisfies ρ t) : R.Satisfies ρ' t' := by
  have hold : ∀ p v b, t.Owns v → b ∈ t'.bounds p v →
      p.orient (· ≤ ·) (R.read ρ' b) (ρ' v.id) := by
    intro p v b hv hb
    rw [hs.bounds hv] at hb
    rcases List.mem_append.mp hb with hb | hb
    · obtain ⟨c, rfl, -, hc, -⟩ := hs.mem_gained hv hb
      rw [Reading.read_var, hf.standIn hv hc, hf.old hv.lt_size]
      exact p.orient_le_refl _
    · rw [hf.read_old (ht p v b hb), hf.old hv.lt_size]
      exact hρ.le hb
  rw [Reading.satisfies_iff]
  intro p v b hb
  obtain ⟨w, hw, hid⟩ := BoundTable.exists_owns (BoundTable.lt_size_of_mem_bounds hb)
  rw [← t'.bounds_congr p hid] at hb
  rw [← hid]
  rcases hs.bound_cases hb hw with ⟨hw, -⟩ | ⟨hw, -⟩ | ⟨x, hx, -, hc, -, b', hb', hi⟩
  · exact hold p w b hw hb
  · exact hold p w b hw hb
  · have hscope := hs.inScope (fun hc => by simp at hc) ht
    rw [hf.read_copy hs (hscope p x b' hb') hi, hf.standIn hx hc, ← hf.old hx.lt_size]
    exact hold p x b' hx hb'

end Copy.StandIns

namespace Goal

variable {α : Type u} [Preorder α] {R : ExactReading α}

def State.Solvable (R : Reading α) (n : Nat) (ρ : Nat → α) (st : State) : Prop :=
  ∃ ρ', (∀ i < n, ρ' i = ρ i) ∧ R.Satisfies ρ' st.table ∧ ∀ g ∈ st.goals, g.Holds R ρ'

theorem Holds.congr {ρ ρ' : Nat → α} {P : Var → Prop} {names : List String → Prop} {g : Goal}
    (hg : g.Forall P names) (hr : ∀ v, P v → ρ v.id = ρ' v.id) (h : g.Holds R.toReading ρ) :
    g.Holds R.toReading ρ' := by
  cases g with
  | lacking => exact h
  | relate a b =>
    have hle : R.read ρ a ≤ R.read ρ b := h
    rw [Reading.read_congr hg.1 hr, Reading.read_congr hg.2 hr] at hle
    exact hle

theorem satisfies_addBound {ρ : Nat → α} {t : BoundTable} {p : Polarity} {b : Ty} {v : Var}
    (hv : t.Owns v) (hρ : R.Satisfies ρ t)
    (h : (p.orient relate b (.var v)).Holds R.toReading ρ) :
    R.Satisfies ρ (t.addBound p v b) := by
  rw [holds_orient, Reading.read_var] at h
  rw [Reading.satisfies_iff]
  intro q w c hc
  rw [BoundTable.bounds_addBound hv] at hc
  split at hc
  case isTrue heq =>
    rcases List.mem_cons.mp hc with rfl | hc
    · rw [heq.1, heq.2]
      exact h
    · exact hρ.le hc
  case isFalse => exact hρ.le hc

theorem Split.solvable {ρ : Nat → α} {t t' : BoundTable} {g : Goal} {goals rest : List Goal}
    (h : Split t g goals t') (ht : t.Scoped List.Nodup)
    (hg : ∀ g' ∈ g :: rest, g'.Forall t.Owns List.Nodup) (hρ : R.Satisfies ρ t)
    (hh : ∀ g' ∈ g :: rest, g'.Holds R.toReading ρ) :
    ∃ ρ', (∀ i < t.size, ρ' i = ρ i) ∧ R.Satisfies ρ' t' ∧
      ∀ g' ∈ goals ++ rest, g'.Holds R.toReading ρ' := by
  rw [List.forall_mem_cons] at hg hh
  cases h with
  | parts h =>
    refine ⟨ρ, fun _ _ => rfl, hρ, List.forall_mem_append.mpr ⟨?_, hh.2⟩⟩
    exact h.holds_goals hg.1.1 hg.1.2 hh.1
  | bound p hle =>
    have hv := ((forall_orient ..).mp hg.1).2
    refine ⟨ρ, fun _ _ => rfl, satisfies_addBound hv hρ hh.1,
      List.forall_mem_append.mpr ⟨List.forall_mem_map.mpr fun x hx => ?_, hh.2⟩⟩
    have hb := (holds_orient ..).mp hh.1
    have hx := hρ.le hx
    rw [Polarity.orient_flip] at hx
    rw [Reading.read_var] at hb
    exact (holds_orient ..).mpr (Polarity.orient_le_trans hb hx)
  | lowered p hn hlt hs hi =>
    obtain ⟨ρ', hf⟩ := hs.exists_follows ρ
    refine ⟨ρ', fun _ => hf.old, hs.satisfies ht hf hρ,
      List.forall_mem_cons.mpr ⟨?_, fun g' hg' => ?_⟩⟩
    · obtain ⟨hb, hv⟩ := (forall_orient ..).mp hg.1
      have hb' := hb.imp (fun _ => hs.owns) fun _ => id
      have hh := (holds_orient ..).mp hh.1
      rw [holds_orient, hf.read_copy hs hb' hi, hf.read_old hb, hf.read_old hv]
      exact hh
    · exact (hh.2 g' hg').congr (hg.2 g' hg') fun v hv => (hf.old hv.lt_size).symm

theorem Step.solvable {n : Nat} {ρ : Nat → α} {st st' : State} (h : Step st st')
    (hst : st.Scoped List.Nodup) (hn : n ≤ st.table.size)
    (hs : st.Solvable R.toReading n ρ) : st'.Solvable R.toReading n ρ := by
  obtain ⟨ρ', hold, hρ, hh⟩ := hs
  cases h with
  | known => exact ⟨ρ', hold, hρ, fun g hg => hh g (List.mem_cons_of_mem _ hg)⟩
  | split _ h =>
    obtain ⟨ρ'', hext, hρ, hh⟩ := h.solvable hst.table hst.goals hρ hh
    refine ⟨ρ'', fun i hi => ?_, hρ, hh⟩
    rw [hext i (Nat.lt_of_lt_of_le hi hn), hold i hi]

theorem Steps.solvable {ρ : Nat → α} {st st' : State} (h : Steps st st')
    (hst : st.Scoped List.Nodup) (hs : st.Solvable R.toReading st.table.size ρ) :
    st'.Solvable R.toReading st.table.size ρ := by
  induction h with
  | refl => exact hs
  | tail h hstep ih => exact hstep.solvable (Steps.inScope h hst) (Steps.toExtends h hst).size_le ih

end Goal

/-- `relate` records nothing that the constraint does not force, and rejects only what has no
solution: an assignment that satisfies the bounds and the constraint extends to the new
variables so that it satisfies the bounds left behind, and then there is no type error. -/
theorem relate_complete {α : Type u} [Preorder α] (R : ExactReading α) {s s' : Session}
    {fuel : Nat} {lhs rhs : Ty} {r : Except Stop Unit} (hs : s.table.Scoped List.Nodup)
    (hl : lhs.Forall s.table.Owns List.Nodup) (hr : rhs.Forall s.table.Owns List.Nodup)
    (h : s.perform (relate fuel lhs rhs) = (r, s')) (ρ : Nat → α)
    (hρ : R.Satisfies ρ s.table) (hle : R.read ρ lhs ≤ R.read ρ rhs) :
    (r = .ok () → ∃ ρ', (∀ i < s.table.size, ρ' i = ρ i) ∧ R.Satisfies ρ' s'.table) ∧
      ∀ e, r ≠ .error (.failed e) := by
  have hst := Goal.start_scoped hs hl hr
  obtain ⟨st, hsteps, hends⟩ := relate_runs hst h
  have hstart : (Goal.start s.table lhs rhs).Solvable R.toReading s.table.size ρ :=
    ⟨ρ, fun _ _ => rfl, hρ, List.forall_mem_singleton.mpr hle⟩
  obtain ⟨ρ', hold, hρ', hgoals⟩ := hsteps.solvable hst hstart
  constructor
  · rintro rfl
    exact ⟨ρ', hold, hends.2 ▸ hρ'⟩
  · rintro e rfl
    obtain ⟨-, g, hg, href⟩ := hends
    exact Goal.not_holds_of_refused ((hsteps.inScope hst).goals g hg) href (hgoals g hg)

theorem relate_complete_twoLevels :
    ∃ ρ' : Nat → Ty, (∀ i < 2, ρ' i = floatOverInt i) ∧
      Ty.free.Satisfies ρ' (twoLevels.perform (relate 4 (.var ⟨0, 0⟩) acceptsInner)).2.table := by
  have hρ : Ty.free.Satisfies floatOverInt twoLevels.table := by
    rw [Reading.satisfies_iff]
    intro p v b hb
    rw [twoLevels_bounds] at hb
    cases hb
  have hle : Ty.free.read floatOverInt (.var ⟨0, 0⟩) ≤ Ty.free.read floatOverInt acceptsInner :=
    .arrow 0 0 (.base rfl) (.base rfl)
  exact (relate_complete Ty.free (twoLevels_scoped _) (outer_inScope _) (acceptsInner_inScope _)
    rfl floatOverInt hρ hle).1 rfl

end Biunify
