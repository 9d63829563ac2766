import Biunify.Proofs.BundleGraph.Merging

/-! The turn of a variable in a reduction. While a variable has its turn, less and less is listed
beside it and nothing changes for the others, but for those that become the variable. All that is
still listed beside it in the end has been weighed: no variable among it can be merged any more,
and no base type is listed at both polarities unless the variable is gone. -/

namespace Biunify
namespace Reduction

def Lists (r : Reduction) (p : Polarity) (v : Var) (o : Occurrence) : Prop :=
  ∃ os, r.beside.find? p v = some os ∧ os.contains o = true

def Mutual (r : Reduction) (p : Polarity) (v w : Var) : Prop :=
  r.Lists p v (.var w) ∧ r.Lists p w (.var v)

variable {r r' r'' : Reduction} {p : Polarity} {v w : Var} {a : BaseTy} {os : List Occurrence}

theorem contains_var_iff : os.contains (.var w) = true ↔ ∃ u, .var u ∈ os ∧ u.id = w.id := by
  rw [List.contains_eq_any_beq, List.any_eq_true]
  constructor
  · rintro ⟨o, ho, heq⟩
    cases o with
    | var u =>
      have hid : w.id = u.id := by simpa using heq
      exact ⟨u, ho, hid.symm⟩
    | base a => cases heq
  · rintro ⟨u, hu, hid⟩
    exact ⟨_, hu, by simp [hid]⟩

theorem contains_base_iff : os.contains (.base a) = true ↔ .base a ∈ os := by
  refine ⟨fun h => ?_, Census.contains_of_mem⟩
  rw [List.contains_eq_any_beq, List.any_eq_true] at h
  obtain ⟨o, ho, heq⟩ := h
  cases o with
  | var u => cases heq
  | base b =>
    obtain rfl : a = b := by simpa using heq
    exact ho

theorem Lists.congr {o : Occurrence} {u : Var} (h : r.Lists p v o) (hid : u.id = v.id) :
    r.Lists p u o := by
  rwa [Lists, r.beside.find?_congr p hid]

theorem Lists.congr_var {u : Var} (h : r.Lists p v (.var w)) (hid : u.id = w.id) :
    r.Lists p v (.var u) := by
  obtain ⟨os, hos, hw⟩ := h
  obtain ⟨x, hx, hxw⟩ := contains_var_iff.mp hw
  exact ⟨os, hos, contains_var_iff.mpr ⟨x, hx, hxw.trans hid.symm⟩⟩

theorem Mutual.symm (h : r.Mutual p v w) : r.Mutual p w v := And.symm h

theorem Mutual.congr {u : Var} (h : r.Mutual p v w) (hid : u.id = w.id) : r.Mutual p v u :=
  ⟨h.1.congr_var hid, h.2.congr hid⟩

/-- From one point of the turn of `v` to a later one. What becomes `v` was listed beside it, and
`v` beside it. A base type stays listed beside `v` if it is listed beside all that becomes `v`. -/
structure Advances (v : Var) (r r' : Reduction) : Prop where
  bodies : r'.bodies = r.bodies
  other : ∀ {p u}, u.id ≠ v.id → r'.beside.find? p u = r.beside.find? p u
  lists : ∀ {p o}, r'.Lists p v o → r.Lists p v o
  self : r'.subst.find? v = r.subst.find? v ∨ r'.subst.find? v = some none
  merged : ∀ {w}, w.id ≠ v.id → r'.subst.find? w = r.subst.find? w ∨
    r.subst.find? w = none ∧ r'.subst.find? w = some (some v) ∧
      r.bodies.contains w = false ∧ ∃ p, r.Mutual p v w
  common : ∀ {a}, (∀ p, r.Lists p v (.base a)) →
    (∀ w, w.id ≠ v.id → r.subst.find? w = none → r'.subst.find? w = some (some v) →
      ∀ p, r.Lists p w (.base a)) → ∀ p, r'.Lists p v (.base a)

namespace Advances

theorem refl (v : Var) (r : Reduction) : Advances v r r :=
  ⟨rfl, fun _ => rfl, id, .inl rfl, fun _ => .inl rfl, fun h _ => h⟩

theorem lists_of (h : Advances v r r') {u : Var} {o : Occurrence} (hu : r'.Lists p u o) :
    r.Lists p u o := by
  by_cases hid : u.id = v.id
  · exact (h.lists (hu.congr hid.symm)).congr hid
  · rwa [Lists, h.other hid] at hu

theorem mutual_of (h : Advances v r r') {u : Var} (hu : r'.Mutual p u w) : r.Mutual p u w :=
  ⟨h.lists_of hu.1, h.lists_of hu.2⟩

theorem decided (h : Advances v r r') {u : Var} (hu : r'.subst.find? u = none) :
    r.subst.find? u = none := by
  by_cases hid : u.id = v.id
  · rw [r'.subst.find?_congr hid] at hu
    rw [r.subst.find?_congr hid]
    rcases h.self with hself | hself
    · exact hself.symm.trans hu
    · cases hself.symm.trans hu
  · rcases h.merged hid with hsame | ⟨hnone, -⟩
    · exact hsame.symm.trans hu
    · exact hnone

theorem trans (h : Advances v r r') (h' : Advances v r' r'') : Advances v r r'' where
  bodies := h'.bodies.trans h.bodies
  other hu := (h'.other hu).trans (h.other hu)
  lists hl := h.lists (h'.lists hl)
  self := by
    rcases h'.self with hself | hself
    · rw [hself]
      exact h.self
    · exact .inr hself
  merged := by
    intro w hw
    rcases h'.merged hw with hsame | ⟨hnone, hnew, hfree, q, hmutual⟩
    · rw [hsame]
      exact h.merged hw
    · rw [h.bodies] at hfree
      exact .inr ⟨h.decided hnone, hnew, hfree, q, h.mutual_of hmutual⟩
  common := by
    intro a ha hw
    have hearly : ∀ p, r'.Lists p v (.base a) := by
      refine h.common ha fun w hne hnone hnew => hw w hne hnone ?_
      rcases h'.merged hne with hsame | ⟨hnone', -⟩
      · exact hsame.trans hnew
      · cases hnew.symm.trans hnone'
    refine h'.common hearly fun w hne hnone hnew p => ?_
    rw [Lists, h.other hne]
    exact hw w hne (h.decided hnone) hnew p

end Advances

theorem find?_shareBeside_of_ne {beside : PolarMap (List Occurrence)} {q : Polarity} {u : Var}
    (h : ¬(u.id = v.id ∧ q = p)) : (shareBeside v w p beside).find? q u = beside.find? q u := by
  rw [shareBeside]
  split
  · rw [PolarMap.find?_insert, if_neg h]
  · rfl

theorem shareBeside_self (v w : Var) (p : Polarity) (beside : PolarMap (List Occurrence)) :
    (shareBeside v w p beside).find? p v = beside.find? p v ∨
      ∃ vs ws, beside.find? p v = some vs ∧ beside.find? p w = some ws ∧
        (shareBeside v w p beside).find? p v =
          some (vs.filter fun o => o == .var v || ws.contains o) := by
  rw [shareBeside]
  split
  case h_1 ws vs hws hvs =>
    refine .inr ⟨vs, ws, hvs, hws, ?_⟩
    rw [PolarMap.find?_insert, if_pos ⟨rfl, rfl⟩]
  case h_2 => exact .inl rfl

theorem contains_of_filter {f : Occurrence → Bool} {o : Occurrence}
    (h : (os.filter f).contains o = true) : os.contains o = true := by
  rw [List.contains_eq_any_beq, List.any_eq_true] at h ⊢
  obtain ⟨o', ho', heq⟩ := h
  exact ⟨o', (List.mem_filter.mp ho').1, heq⟩

theorem find?_subst_mergeInto (hfree : r.bodies.contains v = false)
    (hm : r.mergeable v w p = true) (u : Var) : (r.mergeInto v w p).subst.find? u =
      if u.id = w.id then some (some v) else r.subst.find? u := by
  rw [mergeInto_eq hfree hm]
  exact r.subst.find?_insert w u (some v)

theorem beside_mergeInto (hfree : r.bodies.contains v = false) (hm : r.mergeable v w p = true) :
    (r.mergeInto v w p).beside = shareBeside v w p.flip r.beside := by
  rw [mergeInto_eq hfree hm]

theorem mergeInto_advances (hfree : r.bodies.contains v = false) (hm : r.mergeable v w p = true)
    (hmutual : r.Mutual p v w) : Advances v r (r.mergeInto v w p) := by
  obtain ⟨hne, hnone, hbodies, -⟩ := mergeable_iff.mp hm
  have hsubst := find?_subst_mergeInto hfree hm
  have hbeside := beside_mergeInto hfree hm
  have hself := shareBeside_self v w p.flip r.beside
  refine ⟨?bodies, fun hu => ?other, ?lists, .inl ?self, ?merged, ?common⟩
  case bodies => rw [mergeInto_eq hfree hm]
  case other => rw [hbeside, find?_shareBeside_of_ne fun h => hu h.1]
  case lists =>
    rintro q o ⟨os, hos, ho⟩
    rw [hbeside] at hos
    by_cases hq : q = p.flip
    · subst hq
      rcases hself with hsame | ⟨vs, ws, hvs, -, hnew⟩
      · exact ⟨os, hsame.symm.trans hos, ho⟩
      · obtain rfl := Option.some.inj (hnew.symm.trans hos)
        exact ⟨vs, hvs, contains_of_filter ho⟩
    · rw [find?_shareBeside_of_ne fun h => hq h.2] at hos
      exact ⟨os, hos, ho⟩
  case self => rw [hsubst, if_neg hne.symm]
  case merged =>
    intro u _
    rw [hsubst]
    split_ifs with hid
    · refine .inr ⟨(r.subst.find?_congr hid).trans hnone, rfl, ?_, p, hmutual.congr hid⟩
      rw [r.bodies.contains_congr hid, ← hbodies, hfree]
    · exact .inl rfl
  case common =>
    intro a ha hw q
    rw [Lists, hbeside]
    by_cases hq : q = p.flip
    · subst hq
      rcases hself with hsame | ⟨vs, ws, hvs, hws, hnew⟩
      · rw [hsame]
        exact ha p.flip
      · refine ⟨_, hnew, contains_base_iff.mpr (List.mem_filter.mpr ⟨?_, ?_⟩)⟩
        · obtain ⟨os, hos, hmem⟩ := ha p.flip
          obtain rfl := Option.some.inj (hvs.symm.trans hos)
          exact contains_base_iff.mp hmem
        · obtain ⟨os, hos, hmem⟩ := hw w hne hnone (by rw [hsubst, if_pos rfl]) p.flip
          obtain rfl := Option.some.inj (hws.symm.trans hos)
          rw [hmem, Bool.or_true]
    · rw [find?_shareBeside_of_ne fun h => hq h.2]
      exact ha q

theorem find?_subst_remove (r : Reduction) (v : Var) (e : Event) (u : Var) :
    (r.remove v e).subst.find? u = if u.id = v.id then some none else r.subst.find? u :=
  r.subst.find?_insert v u none

theorem remove_advances (v : Var) (e : Event) (r : Reduction) : Advances v r (r.remove v e) := by
  refine ⟨rfl, fun _ => rfl, id, .inr ?_, fun hne => .inl ?_, fun h _ => h⟩
  · rw [find?_subst_remove, if_pos rfl]
  · rw [find?_subst_remove, if_neg hne]

def Weighed (r : Reduction) (v : Var) (p : Polarity) : Occurrence → Prop
  | .var w => w.id = v.id ∨ r.bodies.contains w = true ∨ r.subst.find? w ≠ none ∨ ¬ r.Mutual p v w
  | .base a => r.subst.find? v = some none ∨ ∃ q, ¬ r.Lists q v (.base a)

theorem Weighed.advance (h : Advances v r r') {o : Occurrence} (ho : r.Weighed v p o) :
    r'.Weighed v p o := by
  cases o with
  | var w =>
    rcases ho with hid | hbody | hdecided | hmutual
    · exact .inl hid
    · exact .inr (.inl (h.bodies ▸ hbody))
    · exact .inr (.inr (.inl fun hnone => hdecided (h.decided hnone)))
    · exact .inr (.inr (.inr fun hm => hmutual (h.mutual_of hm)))
  | base a =>
    rcases ho with hgone | ⟨q, hq⟩
    · rcases h.self with hself | hself
      · exact .inl (hself.trans hgone)
      · exact .inl hself
    · exact .inr ⟨q, fun hl => hq (h.lists hl)⟩

structure Open (r : Reduction) (v : Var) : Prop where
  free : r.bodies.contains v = false
  listed : ∀ p w, r.Lists p v (.var w) → (r.beside.find? p w).isSome = true

theorem Open.advance (hv : r.Open v) (h : Advances v r r') : r'.Open v where
  free := h.bodies ▸ hv.free
  listed := by
    intro p w hw
    by_cases hid : w.id = v.id
    · obtain ⟨os, hos, -⟩ := hw
      rw [r'.beside.find?_congr p hid, hos]
      rfl
    · rw [h.other hid]
      exact hv.listed p w (h.lists hw)

theorem mutual_of_mergeable (hv : r.Open v) (hw : r.Lists p v (.var w))
    (hm : r.mergeable v w p = true) : r.Mutual p v w := by
  obtain ⟨-, -, -, hback⟩ := mergeable_iff.mp hm
  obtain ⟨ws, hws⟩ := Option.isSome_iff_exists.mp (hv.listed p w hw)
  exact ⟨hw, ws, hws, hback ws hws⟩

theorem weigh_base (r : Reduction) (v : Var) (p : Polarity) (a : BaseTy) :
    r.Lists p.flip v (.base a) ∧ r.weigh v p (.base a) = r.remove v (.equivalent v a) ∨
      ¬ r.Lists p.flip v (.base a) ∧ r.weigh v p (.base a) = r := by
  rw [weigh, Lists]
  cases r.beside.find? p.flip v with
  | none => exact .inr ⟨by simp, rfl⟩
  | some os =>
    cases ha : os.contains (.base a) with
    | true => exact .inl ⟨⟨os, rfl, ha⟩, if_pos ha⟩
    | false => exact .inr ⟨by simp [ha], if_neg (by simp [ha])⟩

theorem weigh_advances (hv : r.Open v) (hos : r.beside.find? p v = some os) {o : Occurrence}
    (ho : o ∈ os) : Advances v r (r.weigh v p o) ∧
      (r.weigh v p o).beside.find? p v = some os ∧ (r.weigh v p o).Weighed v p o := by
  have hlisted : r.Lists p v o := ⟨os, hos, Census.contains_of_mem ho⟩
  cases o with
  | var w =>
    rw [weigh]
    by_cases hm : r.mergeable v w p = true
    · refine ⟨mergeInto_advances hv.free hm (mutual_of_mergeable hv hlisted hm), ?_, ?_⟩
      · -- The merge shortens the list of the other polarity only.
        rw [beside_mergeInto hv.free hm, find?_shareBeside_of_ne fun h => p.flip_ne h.2.symm, hos]
      · refine .inr (.inr (.inl ?_))
        rw [find?_subst_mergeInto hv.free hm, if_pos rfl]
        exact Option.some_ne_none _
    · rw [mergeInto, if_neg hm]
      refine ⟨.refl v r, hos, ?_⟩
      by_contra hopen
      simp only [Weighed, not_or, not_not] at hopen
      obtain ⟨hne, hfree, hnone, -, ws, hws, hback⟩ := hopen
      refine hm (mergeable_iff.mpr ⟨hne, hnone, ?_, fun os hos => ?_⟩)
      · rw [hv.free, Bool.eq_false_iff.mpr hfree]
      · obtain rfl := Option.some.inj (hws.symm.trans hos)
        exact hback
  | base a =>
    rcases weigh_base r v p a with ⟨-, heq⟩ | ⟨hflip, heq⟩
    · rw [heq]
      refine ⟨remove_advances v _ r, hos, .inl ?_⟩
      rw [find?_subst_remove, if_pos rfl]
    · rw [heq]
      exact ⟨.refl v r, hos, .inr ⟨p.flip, hflip⟩⟩

theorem foldl_weigh_advances (hv : r.Open v) (hos : r.beside.find? p v = some os)
    {xs : List Occurrence} (hxs : ∀ o ∈ xs, o ∈ os) : Advances v r (xs.foldl (weigh v p) r) ∧
      ∀ o ∈ xs, (xs.foldl (weigh v p) r).Weighed v p o := by
  induction xs generalizing r with
  | nil => exact ⟨.refl v r, fun o ho => absurd ho List.not_mem_nil⟩
  | cons o xs ih =>
    obtain ⟨hstep, hos', hweighed⟩ := weigh_advances hv hos (hxs o List.mem_cons_self)
    obtain ⟨hrest, hall⟩ := ih (hv.advance hstep) hos' fun x hx => hxs x (List.mem_cons_of_mem o hx)
    exact ⟨hstep.trans hrest, List.forall_mem_cons.mpr ⟨hweighed.advance hrest, hall⟩⟩

theorem Weighed.of_lists (hos : r.beside.find? p v = some os) (h : ∀ o ∈ os, r'.Weighed v p o)
    {o : Occurrence} (ho : r.Lists p v o) : r'.Weighed v p o := by
  obtain ⟨os', hos', ho⟩ := ho
  obtain rfl := Option.some.inj (hos.symm.trans hos')
  cases o with
  | base a => exact h _ (contains_base_iff.mp ho)
  | var w =>
    -- Variables are known by their ids.
    obtain ⟨u, hu, hid⟩ := contains_var_iff.mp ho
    rcases h _ hu with hself | hbody | hdecided | hmutual
    · exact .inl (hid.symm.trans hself)
    · exact .inr (.inl (r'.bodies.contains_congr hid ▸ hbody))
    · exact .inr (.inr (.inl (r'.subst.find?_congr hid ▸ hdecided)))
    · exact .inr (.inr (.inr fun hm => hmutual (hm.congr hid)))

theorem weighSide_advances (hv : r.Open v) (p : Polarity) : Advances v r (r.weighSide v p) ∧
    ∀ o, r.Lists p v o → (r.weighSide v p).Weighed v p o := by
  rw [weighSide]
  cases hos : r.beside.find? p v with
  | none =>
    refine ⟨.refl v r, ?_⟩
    rintro o ⟨os, hos', -⟩
    cases hos.symm.trans hos'
  | some os =>
    obtain ⟨hadv, hall⟩ := foldl_weigh_advances hv hos fun _ => id
    exact ⟨hadv, fun o => Weighed.of_lists hos hall⟩

theorem unify_advances (hv : r.Open v) (hnone : r.subst.find? v = none) :
    Advances v r (r.unify v) ∧ ∀ p o, (r.unify v).Lists p v o → (r.unify v).Weighed v p o := by
  have hturn : r.unify v = (r.weighSide v .positive).weighSide v .negative := by
    rw [unify, VarMap.contains, hnone]
    rfl
  rw [hturn]
  obtain ⟨hpos, hposall⟩ := weighSide_advances hv .positive
  obtain ⟨hneg, hnegall⟩ := weighSide_advances (hv.advance hpos) .negative
  refine ⟨hpos.trans hneg, fun p o ho => ?_⟩
  cases p with
  | positive => exact (hposall o ((hpos.trans hneg).lists ho)).advance hneg
  | negative => exact hnegall o (hneg.lists ho)

end Reduction
end Biunify
