import Biunify.Proofs.Copy.Instances
import Biunify.Proofs.Copy.StandIns
import Mathlib.Data.Set.Function

/-! What the two ways of copying a type add to a table, and that they add nothing else. An
instance of a scheme has one new variable for each variable that the scheme quantifies over and
reaches, and the new variables stand to each other as the old ones do. A type that is brought
down to a level leaves one new variable for each variable above the level and each polarity at
which it is reached. -/

namespace Biunify

def BoundTable.newVars (t t' : BoundTable) : Set Var := {c | t'.Owns c ∧ ¬ t.Owns c}

theorem BoundTable.not_owns_of_size_le {t : BoundTable} {c : Var} (h : t.size ≤ c.id) :
    ¬ t.Owns c :=
  fun hc => absurd hc.lt_size (Nat.not_lt.mpr h)

def VarMap.replace (m : VarMap Var) (v : Var) : Var := (m.find? v).getD v

theorem VarMap.replace_of_find {m : VarMap Var} {v c : Var} (h : m.find? v = some c) :
    m.replace v = c := by
  rw [replace, h, Option.getD_some]

def PolarMap.replace (m : PolarMap Var) (p : Polarity) (v : Var) : Var := (m.side p).replace v

theorem PolarMap.replace_of_find {m : PolarMap Var} {p : Polarity} {v c : Var}
    (h : m.find? p v = some c) : m.replace p v = c :=
  VarMap.replace_of_find h

/-- In the second table, `ty` is the body of the scheme with `σ` applied to the variables that
it quantifies over, and the bounds of a new variable are those of the old one with `σ` applied. -/
structure Polytype.InstanceBy (scheme : Polytype) (level : Nat) (t : BoundTable) (σ : Var → Var)
    (ty : Ty) (t' : BoundTable) : Prop where
  new : Set.BijOn σ {v | t.Reaches scheme.level scheme.body v} (t.newVars t')
  level_eq : ∀ c ∈ t.newVars t', c.level = level
  copy : Ty.CopyOf scheme.level (fun _ v c => c = σ v) .positive scheme.body ty
  bounds : ∀ v, t.Reaches scheme.level scheme.body v → ∀ p,
    List.Forall₂ (Ty.CopyOf scheme.level (fun _ v c => c = σ v) p) (t.bounds p v)
      (t'.bounds p (σ v))
  old : ∀ v, t.Owns v → t'.Owns v ∧ ∀ p, t'.bounds p v = t.bounds p v

namespace Copy.Instances

variable {limit level : Nat} {t t' : BoundTable} {m : VarMap Var} {body ty : Ty}

theorem copied (h : Instances limit level t (fun _ => False) m t') {v c : Var} (hv : t.Owns v)
    (hc : m.find? v = some c) : t.size ≤ c.id ∧ t'.Owns c ∧ c.level = level ∧
      Completed limit m t t' v c := by
  obtain ⟨w, hw, hid, -, hsize, howns, hlevel, hcopies⟩ := h.origin hc
  obtain rfl := hw.eq hv hid
  exact ⟨hsize, howns, hlevel, hcopies.resolve_left id⟩

theorem exists_find (h : Instances limit level t (fun _ => False) m t')
    (ht : t.Scoped fun _ => True) (hbody : body.InScope t)
    (hcopy : Ty.CopyOf limit (fun _ => Recorded m) .positive body ty) {v : Var}
    (hv : t.Reaches limit body v) : ∃ c, m.find? v = some c := by
  -- the copy of a variable has copies of all its bounds
  induction hv with
  | @mention p _ _ hm hlt => exact (hcopy.repolarize p).exists_of_mentions hlt hm
  | @bound p q _ v _ _ hv hb hm hlt ih =>
    obtain ⟨c, hc⟩ := ih
    obtain ⟨-, -, -, hcompleted⟩ := h.copied (hv.owns ht hbody) hc
    obtain ⟨_, -, hcopy⟩ := forall₂_exists_right (hcompleted p q) hb
    exact hcopy.exists_of_mentions hlt hm

theorem exists_of_new (h : Instances limit level t (fun _ => False) m t') {c : Var}
    (hc : c ∈ t.newVars t') : ∃ v, t.Owns v ∧ m.find? v = some c :=
  (h.cover hc.1).resolve_left hc.2

theorem bijOn_newVars (h : Instances limit level t (fun _ => False) m t') :
    Set.BijOn m.replace {v | t.Owns v ∧ ∃ c, m.find? v = some c} (t.newVars t') := by
  refine ⟨?_, ?_, fun c hc => ?_⟩
  · rintro v ⟨hv, c, hc⟩
    obtain ⟨hsize, howns, -⟩ := h.copied hv hc
    rw [VarMap.replace_of_find hc]
    exact ⟨howns, BoundTable.not_owns_of_size_le hsize⟩
  · rintro v ⟨hv, c, hc⟩ w ⟨hw, d, hd⟩ heq
    rw [VarMap.replace_of_find hc, VarMap.replace_of_find hd] at heq
    exact hv.eq hw (h.distinct hc (heq ▸ hd))
  · obtain ⟨v, hv, hm⟩ := h.exists_of_new hc
    exact ⟨v, ⟨hv, c, hm⟩, VarMap.replace_of_find hm⟩

end Copy.Instances

/-- An instance is a fresh copy of all that the scheme reaches. -/
theorem Polytype.specialize_exact {s : Session} {scheme : Polytype}
    (hs : s.table.Scoped fun _ => True) (hb : scheme.body.InScope s.table) (level : Nat) :
    ∃ ty σ s', s.perform (scheme.specialize level) = (.ok ty, s') ∧
      scheme.InstanceBy level s.table σ ty s'.table := by
  obtain ⟨ty, m, s', hrun, hi, hcopy, hreach⟩ := scheme.specialize_copies hs hb level
  have hfind : ∀ {v}, s.table.Reaches scheme.level scheme.body v →
      s.table.Owns v ∧ ∃ c, m.find? v = some c :=
    fun hv => ⟨hv.owns hs hb, hi.exists_find hs hb hcopy hv⟩
  have hreached : {v | s.table.Owns v ∧ ∃ c, m.find? v = some c} =
      {v | s.table.Reaches scheme.level scheme.body v} := by
    ext v
    refine ⟨?_, hfind⟩
    rintro ⟨hv, c, hc⟩
    exact hreach v c hv hc
  refine ⟨ty, m.replace, s', hrun, hreached ▸ hi.bijOn_newVars, fun c hc => ?_, ?_,
    fun v hv p => ?_, fun v hv => ⟨hi.owns hv, hi.bounds hv⟩⟩
  · obtain ⟨v, hv, hm⟩ := hi.exists_of_new hc
    exact (hi.copied hv hm).2.2.1
  · exact hcopy.imp fun _ _ _ _ hc => (VarMap.replace_of_find hc).symm
  · obtain ⟨howns, c, hc⟩ := hfind hv
    obtain ⟨-, -, -, hcompleted⟩ := hi.copied howns hc
    rw [VarMap.replace_of_find hc]
    exact (hcompleted p p).imp fun _ _ h => h.imp fun _ _ _ _ hc =>
      (VarMap.replace_of_find hc).symm

def coil : BoundTable :=
  ((((((BoundTable.empty.addVar 0).addVar 1).addVar 1).addBound .positive ⟨1, 1⟩
    (.arrow 0 (.var ⟨2, 1⟩) (.var ⟨1, 1⟩))).addBound .negative ⟨2, 1⟩
    (.tuple 1 [.var ⟨0, 0⟩])).addBound .negative ⟨2, 1⟩ (.var ⟨1, 1⟩))

def coilTy : Ty := .arrow 2 (.var ⟨2, 1⟩) (.var ⟨1, 1⟩)

def coilScheme : Polytype := ⟨0, coilTy⟩

theorem coil_scoped : coil.Scoped fun _ => True := by
  have hempty := BoundTable.scoped_empty fun _ => True
  unfold coil
  refine ((((((hempty.addVar 0).addVar 1).addVar 1).addBound ?_ ?_ .positive).addBound ?_ ?_
    .negative).addBound ?_ ?_ .negative)
  · rfl
  · exact ⟨rfl, rfl⟩
  · rfl
  · exact ⟨rfl, trivial⟩
  · rfl
  · rfl

theorem coilTy_inScope : coilTy.InScope coil := ⟨rfl, rfl⟩

theorem Polytype.specialize_exact_coil :
    coil.Scoped (fun _ => True) ∧ coilScheme.body.InScope coil ∧
      ∃ ty σ s', Session.perform ⟨coil, 3, []⟩ (coilScheme.specialize 2) = (.ok ty, s') ∧
        coilScheme.InstanceBy 2 coil σ ty s'.table := by
  have hs : (Session.mk coil 3 []).table.Scoped fun _ => True := coil_scoped
  have hb : coilScheme.body.InScope coil := coilTy_inScope
  exact ⟨coil_scoped, hb, Polytype.specialize_exact hs hb 2⟩

/-- A type is brought down to a level: `σ` gives every variable above it the stand-in for each
polarity at which it is reached. Stand-ins are numbered in the order in which they are made, so
of the two stand-ins of a variable the one with the smaller id was made first, and the other one
was made when the first was already a bound of the variable. -/
structure Ty.LoweredBy (ty : Ty) (p : Polarity) (level : Nat) (t : BoundTable)
    (σ : Polarity → Var → Var) (ty' : Ty) (t' : BoundTable) : Prop where
  level_le : ty'.level ≤ level
  copy : Ty.CopyOf level (fun q v c => c = σ q v) p ty ty'
  new : Set.BijOn (fun x : Polarity × Var => σ x.1 x.2)
    {x | t.ReachesAt level p ty x.1 x.2} (t.newVars t')
  level_eq : ∀ c ∈ t.newVars t', c.level = level
  old : ∀ v, t.Owns v → t'.Owns v
  gains : ∀ q v, t.ReachesAt level p ty q v →
    t'.bounds q.flip v = .var (σ q v) :: t.bounds q.flip v
  keeps : ∀ q v, t.Owns v → ¬ t.ReachesAt level p ty q v → t'.bounds q.flip v = t.bounds q.flip v
  first : ∀ q v, t.ReachesAt level p ty q v →
    (t.ReachesAt level p ty q.flip v → (σ q v).id < (σ q.flip v).id) →
    List.Forall₂ (Ty.CopyOf level (fun q v c => c = σ q v) q) (t.bounds q v) (t'.bounds q (σ q v))
  second : ∀ q v, t.ReachesAt level p ty q v → t.ReachesAt level p ty q.flip v →
    (σ q.flip v).id < (σ q v).id →
    List.Forall₂ (Ty.CopyOf level (fun q v c => c = σ q v) q) (.var (σ q.flip v) :: t.bounds q v)
      (t'.bounds q (σ q v))
  other : ∀ q v, t.ReachesAt level p ty q v → t'.bounds q.flip (σ q v) = []
  linked : ∀ v, t.ReachesAt level p ty .positive v → t.ReachesAt level p ty .negative v →
    .var (σ .negative v) ∈ t'.lower (σ .positive v) ∨
      .var (σ .positive v) ∈ t'.upper (σ .negative v)

namespace Copy.StandIns

variable {limit : Nat} {m : PolarMap Var} {t t' : BoundTable} {p q : Polarity} {v c : Var}
  {ty ty' : Ty}

theorem bounds_of_met (h : StandIns limit .empty t m t') (hv : t.Owns v)
    (hc : m.find? q v = some c) : t'.bounds q.flip v = .var c :: t.bounds q.flip v := by
  rw [h.bounds hv, gained, Polarity.flip_flip, PolarMap.find?_empty, hc]
  rfl

theorem bounds_of_unmet (h : StandIns limit .empty t m t') (hv : t.Owns v)
    (hn : m.find? q v = none) : t'.bounds q.flip v = t.bounds q.flip v := by
  have hunmet : gained .empty m q.flip v = [] :=
    gained_of_unmet fun c _ => by rw [Polarity.flip_flip, hn]; simp
  rw [h.bounds hv, hunmet, List.nil_append]

theorem copies_cases (h : StandIns limit .empty t m t') (hv : t.Owns v)
    (hc : m.find? q v = some c) :
    (∀ d, m.find? q.flip v = some d → c.id < d.id) ∧
        List.Forall₂ (Ty.CopyOf limit (StandsFor m) q) (t.bounds q v) (t'.bounds q c) ∨
      ∃ d, m.find? q.flip v = some d ∧ d.id < c.id ∧
        List.Forall₂ (Ty.CopyOf limit (StandsFor m) q) (.var d :: t.bounds q v)
          (t'.bounds q c) := by
  obtain ⟨old, hold, hbounds⟩ := (h.filled_of_find hv hc).2.copies
  cases hd : m.find? q.flip v with
  | none =>
    have hsame := h.bounds_of_unmet hv hd
    rw [Polarity.flip_flip] at hsame
    rcases hbounds with ⟨hbounds, -⟩ | ⟨d, hd', -⟩
    · rw [← hbounds, hsame] at hold
      exact .inl ⟨fun _ hd => (by cases hd), hold⟩
    · rw [hd] at hd'
      cases hd'
  | some d =>
    have hsame := h.bounds_of_met hv hd
    rw [Polarity.flip_flip] at hsame
    rcases hbounds with ⟨hbounds, hage⟩ | ⟨e, he, hage, hbounds⟩
    · rw [← hbounds, hsame] at hold
      exact .inr ⟨d, rfl, hage d hd, hold⟩
    · obtain rfl : d = e := Option.some.inj (hd.symm.trans he)
      rw [hsame] at hbounds
      rw [← (List.cons.inj hbounds).2] at hold
      refine .inl ⟨fun e he => ?_, hold⟩
      exact Option.some.inj he ▸ hage

theorem exists_find (h : StandIns limit .empty t m t') (ht : t.Scoped fun _ => True)
    (hty : ty.InScope t) (hcopy : Ty.CopyOf limit (StandsFor m) p ty ty')
    (hv : t.ReachesAt limit p ty q v) : ∃ c, m.find? q v = some c := by
  induction hv with
  | mention hm hlt => exact hcopy.exists_of_mentions hlt hm
  | @bound q r v w b hv hb hm hlt ih =>
    obtain ⟨c, hc⟩ := ih
    have hcopies : ∃ b' ∈ t'.bounds q c, Ty.CopyOf limit (StandsFor m) q b b' := by
      rcases h.copies_cases (hv.reaches.owns ht hty) hc with ⟨-, hcopies⟩ | ⟨d, -, -, hcopies⟩
      · exact forall₂_exists_right hcopies hb
      · exact forall₂_exists_right hcopies (List.mem_cons_of_mem _ hb)
    obtain ⟨_, -, hcopy⟩ := hcopies
    exact hcopy.exists_of_mentions hlt hm

theorem exists_of_new (h : StandIns limit .empty t m t') (hc : c ∈ t.newVars t') :
    ∃ q v, t.Owns v ∧ m.find? q v = some c := by
  obtain ⟨q, v, hv, -, hm⟩ := (h.cover hc.1).resolve_left hc.2
  exact ⟨q, v, hv, hm⟩

theorem bijOn_newVars (h : StandIns limit .empty t m t') :
    Set.BijOn (fun x : Polarity × Var => m.replace x.1 x.2)
      {x | t.Owns x.2 ∧ ∃ c, m.find? x.1 x.2 = some c} (t.newVars t') := by
  refine ⟨?_, ?_, fun c hc => ?_⟩
  · rintro ⟨q, v⟩ ⟨hv, c, hc⟩
    obtain ⟨_, -, -, -, hsize, hf⟩ := h.origin (PolarMap.find?_empty q v) hc
    simp only [PolarMap.replace_of_find hc]
    exact ⟨hf.owns, BoundTable.not_owns_of_size_le hsize⟩
  · rintro ⟨q, v⟩ ⟨hv, c, hc⟩ ⟨r, w⟩ ⟨hw, d, hd⟩ heq
    simp only [PolarMap.replace_of_find hc, PolarMap.replace_of_find hd] at heq
    obtain ⟨hq, hid⟩ := h.distinct (PolarMap.find?_empty q v) hc (PolarMap.find?_empty r w)
      (heq ▸ hd)
    exact Prod.ext hq (hv.eq hw hid)
  · obtain ⟨q, v, hv, hm⟩ := h.exists_of_new hc
    exact ⟨(q, v), ⟨hv, c, hm⟩, PolarMap.replace_of_find hm⟩

end Copy.StandIns

/-- Bringing a type down to a level returns a copy at the level, and beyond the stand-ins and
the bounds that come with them it leaves the table as it was. -/
theorem Ty.relevel_exact {s : Session} {ty : Ty} (hs : s.table.Scoped fun _ => True)
    (hty : ty.InScope s.table) (p : Polarity) (level : Nat) :
    ∃ ty' σ s', s.perform (ty.relevel p level) = (.ok ty', s') ∧
      ty.LoweredBy p level s.table σ ty' s'.table := by
  obtain ⟨ty', m, s', hrun, hi, hcopy, hreach⟩ := Ty.relevel_copies hs hty p level
  have hfind : ∀ {q v}, s.table.ReachesAt level p ty q v →
      s.table.Owns v ∧ m.find? q v = some (m.replace q v) := by
    intro q v hv
    obtain ⟨c, hc⟩ := hi.exists_find hs hty hcopy hv
    exact ⟨hv.reaches.owns hs hty, by rw [PolarMap.replace_of_find hc, hc]⟩
  have hreached : {x : Polarity × Var | s.table.Owns x.2 ∧ ∃ c, m.find? x.1 x.2 = some c} =
      {x | s.table.ReachesAt level p ty x.1 x.2} := by
    ext ⟨q, v⟩
    refine ⟨?_, fun hv => ⟨(hfind hv).1, _, (hfind hv).2⟩⟩
    rintro ⟨hv, c, hc⟩
    exact hreach q v c hv hc
  have hcopies : ∀ {q ts us}, List.Forall₂ (Ty.CopyOf level (Copy.StandsFor m) q) ts us →
      List.Forall₂ (Ty.CopyOf level (fun q v c => c = m.replace q v) q) ts us :=
    fun h => h.imp fun _ _ h => h.imp fun _ _ _ _ hc => (PolarMap.replace_of_find hc).symm
  refine ⟨ty', m.replace, s', hrun, hi.copy_level_le hcopy.image, ?copy,
    hreached ▸ hi.bijOn_newVars, ?level_eq, fun v => hi.owns, ?gains, ?keeps, ?first, ?second,
    ?other, ?linked⟩
  case copy => exact hcopy.imp fun _ _ _ _ hc => (PolarMap.replace_of_find hc).symm
  case level_eq =>
    intro c hc
    obtain ⟨q, v, hv, hm⟩ := hi.exists_of_new hc
    exact (hi.filled_of_find hv hm).2.level
  case gains => exact fun q v hv => hi.bounds_of_met (hfind hv).1 (hfind hv).2
  case keeps =>
    intro q v hv hnot
    refine hi.bounds_of_unmet hv (Option.eq_none_iff_forall_ne_some.mpr fun c hc => ?_)
    exact hnot (hreach q v c hv hc)
  case first =>
    intro q v hv hage
    obtain ⟨howns, hc⟩ := hfind hv
    rcases hi.copies_cases howns hc with ⟨-, h⟩ | ⟨d, hd, hlt, -⟩
    · exact hcopies h
    · have hlt' := hage (hreach q.flip v d howns hd)
      rw [PolarMap.replace_of_find hd] at hlt'
      exact absurd hlt' (Nat.lt_asymm hlt)
  case second =>
    intro q v hv hv' hage
    obtain ⟨howns, hc⟩ := hfind hv
    rcases hi.copies_cases howns hc with ⟨hlt, -⟩ | ⟨d, hd, -, h⟩
    · exact absurd (hlt _ (hfind hv').2) (Nat.lt_asymm hage)
    · rw [PolarMap.replace_of_find hd]
      exact hcopies h
  case other => exact fun q v hv => (hi.filled_of_find (hfind hv).1 (hfind hv).2).2.other
  case linked =>
    intro v hpos hneg
    obtain ⟨howns, hc⟩ := hfind hpos
    exact (hi.filled_of_find howns hc).2.linked (hfind hneg).2

theorem Ty.relevel_exact_coil :
    coil.Scoped (fun _ => True) ∧ coilTy.InScope coil ∧
      coil.ReachesAt 0 .positive coilTy .positive ⟨1, 1⟩ ∧
      coil.ReachesAt 0 .positive coilTy .negative ⟨1, 1⟩ ∧
      ∃ ty' σ s', Session.perform ⟨coil, 3, []⟩ (coilTy.relevel .positive 0) = (.ok ty', s') ∧
        coilTy.LoweredBy .positive 0 coil σ ty' s'.table := by
  have hs : (Session.mk coil 3 []).table.Scoped fun _ => True := coil_scoped
  have hlast : coil.ReachesAt 0 .positive coilTy .negative ⟨2, 1⟩ :=
    .mention (.param .var) Nat.one_pos
  have hbound : .var ⟨1, 1⟩ ∈ coil.bounds .negative ⟨2, 1⟩ := List.mem_cons_self
  exact ⟨coil_scoped, coilTy_inScope, .mention (.result .var) Nat.one_pos,
    .bound hlast hbound .var Nat.one_pos, Ty.relevel_exact hs coilTy_inScope .positive 0⟩

end Biunify
