import Biunify.Proofs.Typing.Levels

/-! Variables that are out of reach. Typing at a level changes no bound of a variable that was
there before and lies deeper: such a variable belongs to a scheme, and schemes are copied
before use. The level alone does not say so, since a nested `let` works at the deeper level
too. What carries the proof is that no type in hand mentions a frozen variable, and no bound
of another variable does, so that nothing leads there. -/

namespace Biunify

abbrev Ty.Avoids (ty : Ty) (frozen : Var → Prop) : Prop :=
  ty.Forall (fun v => ¬ frozen v) fun _ => True

/-- Frozen variables have the bounds that they had in the first table, and the bounds of other
variables do not mention them. -/
structure BoundTable.Apart (t : BoundTable) (frozen : Var → Prop) (t₀ : BoundTable) : Prop where
  sound : t.Sound
  owns : ∀ {v}, frozen v → t.Owns v
  same : ∀ {v}, frozen v → ∀ p, t.bounds p v = t₀.bounds p v
  avoids : ∀ {v}, t.Owns v → ¬ frozen v → ∀ p, ∀ b ∈ t.bounds p v, b.Avoids frozen

namespace BoundTable.Apart

variable {frozen : Var → Prop} {t₀ t : BoundTable}

theorem not_frozen (h : t.Apart frozen t₀) {v : Var} (hv : t.size ≤ v.id) : ¬ frozen v :=
  fun hf => absurd (h.owns hf).lt_size (Nat.not_lt.mpr hv)

theorem not_frozen_of_reaches (h : t.Apart frozen t₀) {limit : Nat} {ty : Ty} {v : Var}
    (hscope : ty.InScope t) (hty : ty.Avoids frozen) (hr : t.Reaches limit ty v) :
    ¬ frozen v := by
  induction hr with
  | mention hm _ => exact hm.of_forall hty
  | bound hv hb hm _ ih =>
    exact hm.of_forall (h.avoids (hv.owns h.sound.inScope hscope) ih _ _ hb)

theorem addVar (h : t.Apart frozen t₀) (level : Nat) : (t.addVar level).Apart frozen t₀ where
  sound := h.sound.addVar level
  owns hf := (Extends.addVar t level).owns (h.owns hf)
  same hf p := by rw [bounds_addVar, h.same hf]
  avoids := by
    intro v hv hn p b hb
    rw [bounds_addVar] at hb
    rcases (owns_addVar ..).mp hv with hv | rfl
    · exact h.avoids hv hn p b hb
    · exact absurd (lt_size_of_mem_bounds hb) (Nat.lt_irrefl _)

theorem addBound (h : t.Apart frozen t₀) {v : Var} (hv : t.Owns v) (hn : ¬ frozen v) {b : Ty}
    (hb : b.InScope t) (havoids : b.Avoids frozen) (hle : b.level ≤ v.level) (p : Polarity) :
    (t.addBound p v b).Apart frozen t₀ where
  sound := h.sound.addBound hv hb hle p
  owns hf := (owns_addBound ..).mpr (h.owns hf)
  same := by
    intro w hf q
    have hne : w.id ≠ v.id := fun hid => hn ((h.owns hf).eq hv hid ▸ hf)
    rw [bounds_addBound hv, if_neg fun hw => hne hw.1, h.same hf]
  avoids := by
    intro w hw hwn q c hc
    replace hw := (owns_addBound ..).mp hw
    rw [bounds_addBound hv] at hc
    split at hc
    case isTrue =>
      rcases List.mem_cons.mp hc with rfl | hc
      · exact havoids
      · exact h.avoids hw hwn q c hc
    case isFalse => exact h.avoids hw hwn q c hc

end BoundTable.Apart

namespace Copy

variable {frozen : Var → Prop} {t₀ t t' : BoundTable} {limit level : Nat}

theorem StandIns.apart {m : PolarMap Var} (h : StandIns limit .empty t m t')
    (ht : t.Apart frozen t₀) (hm : ∀ q w c, t.Owns w → m.find? q w = some c → ¬ frozen w) :
    t'.Apart frozen t₀ ∧ ∀ q w c, m.find? q w = some c → ¬ frozen c := by
  have hnew : ∀ q w c, m.find? q w = some c → ¬ frozen c := by
    intro q w c hs
    obtain ⟨_, -, -, -, hsize, -⟩ := h.origin (PolarMap.find?_empty q w) hs
    exact ht.not_frozen hsize
  have hold : ∀ p v, t.Owns v → ¬ frozen v → ∀ b ∈ t'.bounds p v, b.Avoids frozen := by
    intro p v hv hn b hb
    rw [h.bounds hv] at hb
    rcases List.mem_append.mp hb with hb | hb
    · obtain ⟨c, rfl, -, hs, -⟩ := h.mem_gained hv hb
      exact hnew _ _ c hs
    · exact ht.avoids hv hn p b hb
  have hnone : ∀ {p v c}, (PolarMap.empty : PolarMap Var).find? p v = some c → False :=
    fun hs => by simp at hs
  refine ⟨⟨⟨?_, ?_⟩, fun hf => h.owns (ht.owns hf), fun {v} hf p => ?_, ?_⟩, hnew⟩
  · exact h.inScope (fun hs => (hnone hs).elim) ht.sound.inScope
  · exact h.leveled (fun hs => (hnone hs).elim) ht.sound.leveled
  · have hunmet : gained .empty m p v = [] :=
      gained_of_unmet fun c _ hs => hm _ v c (ht.owns hf) hs hf
    rw [h.bounds (ht.owns hf), hunmet, List.nil_append, ht.same hf]
  · intro v hv hn p b hb
    rcases h.bound_cases hb hv with ⟨hv, -⟩ | ⟨hv, -⟩ | ⟨w, hw, -, hs, -, b', hb', hi⟩
    · exact hold p v hv hn b hb
    · exact hold p v hv hn b hb
    · refine hi.forall_right (hold p w hw (hm p w v hw hs) b' hb') fun q x c hx hc => ?_
      rcases hc with ⟨-, rfl⟩ | ⟨-, hc⟩
      · exact hx
      · exact hnew q x c hc

theorem Instances.apart {m : VarMap Var} (h : Instances limit level t (fun _ => False) m t')
    (hle : limit ≤ level) (ht : t.Apart frozen t₀)
    (hshared : ∀ w c, t.Owns w → m.find? w = some c → ∀ p, ∀ b ∈ t.bounds p w,
      b.Forall (fun v => v.level ≤ limit → ¬ frozen v) fun _ => True) :
    t'.Apart frozen t₀ ∧ ∀ q b b',
      b.Forall (fun v => v.level ≤ limit → ¬ frozen v) (fun _ => True) →
      Ty.Image (fun _ => Instanced limit m) q b b' → b'.Avoids frozen := by
  have hcopy : ∀ q b b', b.Forall (fun v => v.level ≤ limit → ¬ frozen v) (fun _ => True) →
      Ty.Image (fun _ => Instanced limit m) q b b' → b'.Avoids frozen := by
    intro q b b' hb hi
    refine hi.forall_right hb fun _ x c hx hc => ?_
    rcases hc with ⟨hlevel, rfl⟩ | ⟨-, hc⟩
    · exact hx hlevel
    · obtain ⟨_, -, -, -, hsize, -⟩ := h.origin hc
      exact ht.not_frozen hsize
  refine ⟨⟨⟨h.inScope ht.sound.inScope, h.leveled hle ht.sound.leveled⟩,
    fun hf => h.owns (ht.owns hf), fun hf p => ?_, ?_⟩, hcopy⟩
  · rw [h.bounds (ht.owns hf), ht.same hf]
  · intro v hv hn p b hb
    rcases h.var_cases hv with hv | ⟨w, hw, -, hm, -, hc⟩
    · rw [h.bounds hv] at hb
      exact ht.avoids hv hn p b hb
    · obtain ⟨b', hb', hi⟩ := forall₂_exists_left (hc.images p p) hb
      exact hcopy p b' b (hshared w v hw hm p b' hb') hi

end Copy

namespace Goal

variable {frozen : Var → Prop} {t₀ t t' : BoundTable}

theorem Split.apart {g : Goal} {goals : List Goal} (h : Split t g goals t')
    (ht : t.Apart frozen t₀) (hscope : g.Forall t.Owns fun _ => True)
    (hg : g.Forall (fun v => ¬ frozen v) fun _ => True) :
    t'.Apart frozen t₀ ∧ ∀ g' ∈ goals, g'.Forall (fun v => ¬ frozen v) fun _ => True := by
  cases h with
  | parts h => exact ⟨ht, h.forall hg.1 hg.2⟩
  | @bound p b v hle =>
    obtain ⟨hb, hv⟩ := (forall_orient ..).mp hg
    obtain ⟨hbscope, hown⟩ := (forall_orient ..).mp hscope
    refine ⟨ht.addBound hown hv hbscope hb hle p, fun g' hg' => ?_⟩
    obtain ⟨x, hx, rfl⟩ := List.mem_map.mp hg'
    exact (forall_orient ..).mpr ⟨hb, ht.avoids hown hv _ x hx⟩
  | @lowered p b b' v m _ _ _ hs hi hr =>
    obtain ⟨hb, hv⟩ := (forall_orient ..).mp hg
    obtain ⟨hbscope, -⟩ := (forall_orient ..).mp hscope
    have hmet : ∀ q w c, t.Owns w → m.find? q w = some c → ¬ frozen w :=
      fun q w c hw hc => ht.not_frozen_of_reaches hbscope hb (hr q w c hw hc)
    obtain ⟨ht', hnew⟩ := hs.apart ht hmet
    refine ⟨ht', fun g' hg' => ?_⟩
    rw [List.mem_singleton.mp hg', forall_orient]
    refine ⟨hi.forall_right hb fun q w c hw hc => ?_, hv⟩
    rcases hc with ⟨-, rfl⟩ | ⟨-, hc⟩
    · exact hw
    · exact hnew q w c hc

structure State.Apart (frozen : Var → Prop) (t₀ : BoundTable) (st : State) : Prop where
  inScope : st.Scoped fun _ => True
  table : st.table.Apart frozen t₀
  goals : ∀ g ∈ st.goals, g.Forall (fun v => ¬ frozen v) fun _ => True

theorem Step.apart {st st' : State} (h : Step st st') (hst : st.Apart frozen t₀) :
    st'.Apart frozen t₀ := by
  have hscoped := h.inScope hst.inScope
  cases h with
  | known => exact ⟨hscoped, hst.table, fun g hg => hst.goals g (List.mem_cons_of_mem _ hg)⟩
  | split hn h =>
    obtain ⟨ht, hgoals⟩ := h.apart hst.table (hst.inScope.goals _ List.mem_cons_self)
      (hst.goals _ List.mem_cons_self)
    refine ⟨hscoped, ht, fun g hg => ?_⟩
    rcases List.mem_append.mp hg with hg | hg
    · exact hgoals g hg
    · exact hst.goals g (List.mem_cons_of_mem _ hg)

theorem Steps.apart {st st' : State} (h : Steps st st') (hst : st.Apart frozen t₀) :
    st'.Apart frozen t₀ := by
  induction h with
  | refl => exact hst
  | tail _ hstep ih => exact hstep.apart ih

end Goal

def Scheme.Apart (frozen : Var → Prop) (outer level : Nat) (t : BoundTable) : Scheme → Prop
  | .mono ty => ty.InScope t ∧ ty.Avoids frozen
  | .poly p => p.body.InScope t ∧ p.level ≤ level ∧ (p.level ≤ outer ∨ p.body.Avoids frozen)

namespace Session.Keeps

variable {frozen : Var → Prop} {t₀ : BoundTable} {s : Session}

theorem relate_apart (fuel : Nat) {lhs rhs : Ty}
    (hl : lhs.Forall (fun v => s.table.Owns v ∧ ¬ frozen v) fun _ => True)
    (hr : rhs.Forall (fun v => s.table.Owns v ∧ ¬ frozen v) fun _ => True) :
    s.Keeps (·.Apart frozen t₀) (relate fuel lhs rhs) fun _ _ => True := by
  have hst : s.table.Apart frozen t₀ → (Goal.start s.table lhs rhs).Scoped fun _ => True :=
    fun hs => Goal.start_scoped hs.sound.inScope (hl.imp (fun _ => And.left) fun _ => id)
      (hr.imp (fun _ => And.left) fun _ => id)
  have hgoal : (Goal.relate lhs rhs).Forall (fun v => ¬ frozen v) fun _ => True :=
    ⟨hl.imp (fun _ => And.right) fun _ => id, hr.imp (fun _ => And.right) fun _ => id⟩
  apply relate_of_steps fuel hst fun _ level h => h.addVar level
  intro st hs hsteps
  exact (hsteps.apart ⟨hst hs, hs, List.forall_mem_singleton.mpr hgoal⟩).table

theorem specialize_apart {outer level : Nat} (hdeep : ∀ {v}, frozen v → outer < v.level)
    {sc : Scheme} (h : sc.Apart frozen outer level s.table) :
    s.Keeps (·.Apart frozen t₀) (sc.specialize level) fun ty t =>
      ty.Forall (fun v => t.Owns v ∧ ¬ frozen v) fun _ => True := by
  cases sc with
  | mono ty => exact .pure (h.1.and h.2)
  | poly p =>
    intro hs r s' hrun
    obtain ⟨hscope, hle, hcases⟩ := h
    obtain ⟨ty, m, s₁, hrun₁, hi, himage, hreach⟩ :=
      p.specialize_performs hs.sound.inScope hscope level
    cases hrun.symm.trans hrun₁
    -- What lies up to the level of an outer scheme is not frozen; an inner one avoids it.
    have hshared : ∀ {b : Ty}, (¬ p.level ≤ outer → b.Avoids frozen) →
        b.Forall (fun v => v.level ≤ p.level → ¬ frozen v) fun _ => True := by
      intro b hb
      by_cases houter : p.level ≤ outer
      · refine (Ty.forall_trivial b).imp (fun v _ hv hf => ?_) fun _ => id
        exact absurd (hv.trans houter) (Nat.not_le.mpr (hdeep hf))
      · exact (hb houter).imp (fun _ hv _ => hv) fun _ => id
    obtain ⟨ht, hcopy⟩ := hi.apart hle hs fun w c hw hm q b hb => hshared fun hinner =>
      hs.avoids hw (hs.not_frozen_of_reaches hscope (hcases.resolve_left hinner) (hreach w c hw hm))
        q b hb
    refine ⟨hi.toExtends, ht, fun _ hty => ?_⟩
    cases hty
    exact (hi.copy_forall himage hscope).and (hcopy _ _ _ (hshared hcases.resolve_left) himage)

end Session.Keeps

def Discipline.apart (frozen : Var → Prop) (t₀ : BoundTable) (outer : Nat)
    (hdeep : ∀ {v}, frozen v → outer < v.level) : Discipline where
  inv t := t.Apart frozen t₀
  var _ t v := t.Owns v ∧ ¬ frozen v
  scheme := Scheme.Apart frozen outer
  var_extend hx hv := ⟨hx.owns hv.1, hv.2⟩
  scheme_extend {_ _ _ sc} hx h := by
    cases sc with
    | mono ty => exact ⟨hx.inScope h.1, h.2⟩
    | poly p => exact ⟨hx.inScope h.1, h.2⟩
  scheme_deeper {_ _ sc} h := by
    cases sc with
    | mono ty => exact h
    | poly p => exact ⟨h.1, h.2.1.trans (Nat.le_succ _), h.2.2⟩
  mono h := ⟨h.imp (fun _ => And.left) fun _ => id, h.imp (fun _ => And.right) fun _ => id⟩
  poly h := ⟨h.imp (fun _ => And.left) fun _ => id, le_rfl,
    .inr (h.imp (fun _ => And.right) fun _ => id)⟩
  newVar level h :=
    ⟨h.addVar level, (BoundTable.owns_addVar ..).mpr (.inr rfl), h.not_frozen le_rfl⟩
  relate fuel hl hr := Session.Keeps.relate_apart fuel hl hr
  specialize h := Session.Keeps.specialize_apart hdeep h

section Start

variable {t : BoundTable} {level : Nat}

theorem not_deeper_of_level_le {ty : Ty} (h : ty.level ≤ level) :
    ty.Avoids fun v => t.Owns v ∧ level < v.level :=
  ((Ty.level_le_iff ty level).mp h).imp (fun _ hv hf => absurd hv (Nat.not_le.mpr hf.2)) fun _ => id

theorem BoundTable.Sound.apart (h : t.Sound) (level : Nat) :
    t.Apart (fun v => t.Owns v ∧ level < v.level) t where
  sound := h
  owns hf := hf.1
  same _ _ := rfl
  avoids := by
    -- no bound is deeper than its variable
    intro v hv hn p b hb
    have hle : v.level ≤ level := Nat.le_of_not_lt fun hlt => hn ⟨hv, hlt⟩
    exact not_deeper_of_level_le ((h.leveled p v hv b hb).trans hle)

theorem Context.Fits.apart {ctx : Context} (h : ctx.Fits t level) (hmono : ctx.MonoWithin level) :
    (Discipline.apart (fun v => t.Owns v ∧ level < v.level) t level And.right).Fits ctx level
      t := by
  intro name sc hf
  cases sc with
  | mono ty => exact ⟨h.inScope hf, not_deeper_of_level_le (hmono hf)⟩
  | poly p => exact ⟨h.inScope hf, h.poly_le hf, .inl (h.poly_le hf)⟩

end Start

/-- Typing a term at a level, whether it succeeds or not, leaves the bounds of every variable
alone that was there before and lies deeper. -/
theorem typeOf_deeper_bounds {s s' : Session} {fuel level : Nat} {ctx : Context} {term : Term}
    {r : Except Stop Ty} (hs : s.table.Sound) (hctx : ctx.Fits s.table level)
    (hmono : ctx.MonoWithin level) (hrun : s.perform (typeOf fuel ctx level term) = (r, s'))
    {v : Var} (hv : s.table.Owns v) (hlt : level < v.level) (p : Polarity) :
    s'.table.bounds p v = s.table.bounds p v := by
  have hkeeps := (Discipline.apart _ s.table level And.right).governs fuel term ctx level s
    (hctx.apart hmono)
  obtain ⟨-, hapart, -⟩ := hkeeps (hs.apart level) r s' hrun
  exact hapart.same ⟨hv, hlt⟩ p

def withScheme : Context × Session :=
  (.ofList [("f", .poly ⟨0, .arrow 0 (.var ⟨0, 1⟩) (.var ⟨0, 1⟩)⟩)],
    ⟨(BoundTable.empty.addVar 1).addBound .negative ⟨0, 1⟩ (.base .int), 1, []⟩)

def misuse : Term :=
  .letIn "g" false (.lambda "x" (.apply (.var "f") (.var "x")))
    (.apply (.var "g") (.literal (.bool true)))

theorem withScheme_sound : withScheme.2.table.Sound := by
  have hempty : BoundTable.empty.Sound := ⟨BoundTable.scoped_empty _, BoundTable.leveled_empty⟩
  have hv : (BoundTable.empty.addVar 1).Owns ⟨0, 1⟩ := rfl
  exact (hempty.addVar 1).addBound hv (Ty.forall_base .int) (Nat.zero_le _) .negative

theorem withScheme_find {name : String} {sc : Scheme} (h : withScheme.1.find? name = some sc) :
    sc = .poly ⟨0, .arrow 0 (.var ⟨0, 1⟩) (.var ⟨0, 1⟩)⟩ :=
  congrArg Prod.snd (List.mem_singleton.mp (Context.mem_of_find?_ofList h))

theorem withScheme_fits : withScheme.1.Fits withScheme.2.table 0 := by
  constructor
  · intro name sc hf
    rw [withScheme_find hf]
    exact ⟨rfl, rfl⟩
  · intro name p hf
    cases withScheme_find hf
    exact le_rfl

theorem typeOf_deeper_bounds_withScheme :
    ∃ e s', withScheme.2.perform (typeOf 20 withScheme.1 0 misuse) = (.error (.failed e), s') ∧
      s'.table.bounds .negative ⟨0, 1⟩ = [.base .int] := by
  have hrefused : ∃ e s', withScheme.2.perform (typeOf 20 withScheme.1 0 misuse) =
      (.error (.failed e), s') := ⟨_, _, rfl⟩
  obtain ⟨e, s', hrun⟩ := hrefused
  have hmono : withScheme.1.MonoWithin 0 := fun hf => by cases withScheme_find hf
  have hv : withScheme.2.table.Owns ⟨0, 1⟩ := rfl
  exact ⟨e, s', hrun, typeOf_deeper_bounds withScheme_sound withScheme_fits hmono hrun hv
    Nat.one_pos .negative⟩

end Biunify
