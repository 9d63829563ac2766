import Biunify.Proofs.BoundTable.Parts
import Biunify.Proofs.Relate.Derivation
import Mathlib.Data.Finset.Card
import Mathlib.Data.Finset.Prod

/-! The solver comes to an end. It may go on making stand-ins, so the constraints it can meet
are not known in advance; but a stand-in lies less deep than what it stands for. Among the
goals of one level, the types of that level are therefore a finite stock. A goal between two
of them is remembered and met once. A goal between one of them and a less deep type either
takes the less deep type apart or carries it on to another type of the stock, which again is
remembered. All other goals are less deep. -/

namespace Biunify

namespace Ty

theorem level_le_of_mem_children {c t : Ty} (h : c ∈ t.children) : c.level ≤ t.level := by
  cases t with
  | base | var => cases h
  | arrow n p r =>
    have hc : c = p ∨ c = r := by simpa [children] using h
    rw [level]
    rcases hc with rfl | rfl
    · exact Nat.le_max_left _ _
    · exact Nat.le_max_right _ _
  | tuple n ts => exact (levelElems_le_iff ts _).mp le_rfl c h
  | record n fs =>
    obtain ⟨f, hf, rfl⟩ := List.mem_map.mp h
    exact (levelFields_le_iff fs _).mp le_rfl f hf

end Ty

namespace Goal

def sides : Goal → List Ty
  | .relate a b => [a, b]
  | .lacking .. => []

theorem mem_sides_orient {p : Polarity} {b x a : Ty} :
    a ∈ (p.orient relate b x).sides ↔ a = b ∨ a = x := by
  cases p with
  | positive => simp [Polarity.orient, sides]
  | negative => simp [Polarity.orient, sides, or_comm]

theorem orient_relate_eq {p q : Polarity} {a b c d : Ty}
    (h : p.orient relate a b = q.orient relate c d) :
    q = p ∧ c = a ∧ d = b ∨ q = p.flip ∧ c = b ∧ d = a := by
  cases p <;> cases q <;> cases h <;> simp [Polarity.flip]

theorem Parts.children {p : Polarity} {a b c d : Ty} {goals : List Goal} (h : Parts a b goals)
    (hg : p.orient relate c d = relate a b) {g : Goal} (hmem : g ∈ goals) :
    (∃ q : Polarity, ∃ x ∈ c.children, ∃ y ∈ d.children, g = q.orient relate x y) ∨
      ∃ name record, g = lacking name record := by
  have hparts : (∃ q : Polarity, ∃ x ∈ a.children, ∃ y ∈ b.children, g = q.orient relate x y) ∨
      ∃ name record, g = lacking name record := by
    cases h with
    | base => cases hmem
    | arrow m n q r s t =>
      have hcases : g = relate r q ∨ g = relate s t := by simpa using hmem
      rcases hcases with rfl | rfl
      · exact .inl ⟨.negative, q, by simp [Ty.children], r, by simp [Ty.children], rfl⟩
      · exact .inl ⟨.positive, s, by simp [Ty.children], t, by simp [Ty.children], rfl⟩
    | tuple m n hlen =>
      revert g
      rw [forall_zipWith_relate hlen, List.forall₂_iff_zip]
      refine ⟨hlen, fun {x y} hxy => .inl ⟨.positive, x, ?_, y, ?_, rfl⟩⟩
      · exact (List.of_mem_zip hxy).1
      · exact (List.of_mem_zip hxy).2
    | record m n fs gs =>
      obtain ⟨f, hf, rfl⟩ := List.mem_map.mp hmem
      rw [field]
      split
      case h_1 ty hty =>
        have hx : ty ∈ fs.map Prod.snd := List.mem_map_of_mem (mem_of_fieldNamed? hty)
        exact .inl ⟨.positive, ty, hx, f.2, List.mem_map_of_mem hf, rfl⟩
      case h_2 => exact .inr ⟨_, _, rfl⟩
  cases p with
  | positive =>
    cases hg
    exact hparts
  | negative =>
    cases hg
    refine hparts.imp_left ?_
    rintro ⟨q, x, hx, y, hy, rfl⟩
    exact ⟨q.flip, y, hy, x, hx, (q.orient_flip relate y x).symm⟩

section Halting

variable {memo memo' : Memo} {t : BoundTable}

abbrev State.Halts (st : State) : Prop := Acc (fun after before => Step before after) st

theorem halts_nil (memo : Memo) (t : BoundTable) : State.Halts ⟨memo, [], t⟩ :=
  Acc.intro _ fun _ h => by cases h

theorem halts_lacking (memo : Memo) (name : String) (record : Ty) (rest : List Goal)
    (t : BoundTable) : State.Halts ⟨memo, lacking name record :: rest, t⟩ := by
  refine Acc.intro _ fun st h => ?_
  generalize hg : lacking name record = g at h
  cases h with
  | known => cases hg
  | split _ h =>
    cases h with
    | parts => cases hg
    | bound p => cases p <;> cases hg
    | lowered p => cases p <;> cases hg

theorem State.Halts.append {st : State} (h : st.Halts) {rest : List Goal}
    (hrest : ∀ memo t, Steps st ⟨memo, [], t⟩ → State.Halts ⟨memo, rest, t⟩) :
    State.Halts ⟨st.memo, st.goals ++ rest, st.table⟩ := by
  -- goals are worked off in order, so the second part runs when nothing is left of the first
  induction h with
  | intro st _ ih =>
    obtain ⟨memo, goals, t⟩ := st
    cases goals with
    | nil => exact hrest memo t .refl
    | cons g goals =>
      refine Acc.intro _ fun st' hstep => ?_
      cases hstep with
      | known hk =>
        have hnext : Step ⟨memo, relate _ _ :: goals, t⟩ ⟨memo, goals, t⟩ := .known hk
        exact ih _ hnext fun memo' t' hsteps => hrest memo' t' (.head hnext hsteps)
      | @split _ _ left _ _ t' hn hs =>
        have hnext : Step ⟨memo, g :: goals, t⟩ ⟨note memo g, left ++ goals, t'⟩ := .split hn hs
        have hassoc : left ++ (goals ++ rest) = left ++ goals ++ rest :=
          (List.append_assoc left goals rest).symm
        show State.Halts ⟨note memo g, left ++ (goals ++ rest), t'⟩
        rw [hassoc]
        exact ih _ hnext fun memo' t' hsteps => hrest memo' t' (.head hnext hsteps)

theorem subset_note (memo : Memo) (g : Goal) : memo ⊆ note memo g := by
  cases g with
  | lacking => exact List.Subset.refl _
  | relate a b =>
    rw [note, remember]
    split
    · exact List.subset_cons_self _ _
    · exact List.Subset.refl _

theorem Steps.memo_subset {st st' : State} (h : Steps st st') : st.memo ⊆ st'.memo := by
  induction h with
  | refl => exact List.Subset.refl _
  | tail _ hstep ih =>
    cases hstep with
    | known => exact ih
    | split => exact List.Subset.trans ih (subset_note _ _)

end Halting

/-- A finite set of types of one level, with all their parts of that level. -/
structure Stock (level : Nat) (types : Set Ty) : Prop where
  finite : types.Finite
  level_eq : ∀ a ∈ types, a.level = level
  parts : ∀ a ∈ types, ∀ c ∈ a.children, c.level = level → c ∈ types

theorem stock_of_finite (level : Nat) {types : Set Ty} (h : types.Finite) :
    Stock level {a | a.level = level ∧ ∃ b ∈ types, a.PartOf b} where
  finite := by
    refine (h.biUnion fun b _ => b.finite_partOf).subset ?_
    rintro a ⟨-, b, hb, hab⟩
    exact Set.mem_biUnion hb hab
  level_eq := fun a ha => ha.1
  parts := fun a ⟨_, b, hb, hab⟩ c hc hlevel => ⟨hlevel, b, hb, .head hc hab⟩

def Held (level : Nat) (types : Set Ty) (a : Ty) : Prop := a.level < level ∨ a ∈ types

structure State.Within (level : Nat) (types : Set Ty) (st : State) : Prop where
  inScope : st.Scoped fun _ => True
  leveled : st.table.Leveled
  bounds : ∀ p v, ∀ b ∈ st.table.bounds p v, b.level = level → b ∈ types
  goals : ∀ g ∈ st.goals, ∀ a ∈ g.sides, Held level types a

section Within

variable {level : Nat} {types : Set Ty} {memo : Memo} {t t' : BoundTable} {g : Goal}
  {st st' : State}

theorem Stock.level_le (hk : Stock level types) {a : Ty} (h : Held level types a) :
    a.level ≤ level :=
  h.elim Nat.le_of_lt fun h => (hk.level_eq a h).le

theorem Stock.held_child (hk : Stock level types) {a c : Ty} (h : Held level types a)
    (hc : c ∈ a.children) : Held level types c := by
  have hle := Ty.level_le_of_mem_children hc
  rcases h with h | h
  · exact .inl (hle.trans_lt h)
  · rw [hk.level_eq a h] at hle
    exact hle.lt_or_eq.imp_right (hk.parts a h c hc)

theorem Stock.held_bound (hk : Stock level types) (hl : t.Leveled)
    (hb : ∀ p v, ∀ b ∈ t.bounds p v, b.level = level → b ∈ types) {p : Polarity} {v : Var} {b : Ty}
    (hv : t.Owns v) (hheld : Held level types (.var v)) (hmem : b ∈ t.bounds p v) :
    Held level types b := by
  have hle : b.level ≤ level := (hl p v hv b hmem).trans (hk.level_le hheld)
  exact hle.lt_or_eq.imp_right (hb p v b hmem)

theorem Split.within {goals : List Goal} (hk : Stock level types) (h : Split t g goals t')
    (hw : State.Within level types ⟨memo, [g], t⟩) :
    (∀ p v, ∀ b ∈ t'.bounds p v, b.level = level → b ∈ types) ∧
      ∀ g' ∈ goals, ∀ a ∈ g'.sides, Held level types a := by
  have hsides := hw.goals g List.mem_cons_self
  have hscope := hw.inScope.goals g List.mem_cons_self
  have hbounds : ∀ p v, ∀ b ∈ t.bounds p v, b.level = level → b ∈ types := hw.bounds
  cases h with
  | @parts a b _ h =>
    refine ⟨hbounds, fun g' hg' x hx => ?_⟩
    have ha := hsides a List.mem_cons_self
    have hb := hsides b (List.mem_cons_of_mem _ List.mem_cons_self)
    rcases h.children (p := .positive) rfl hg' with ⟨q, c, hc, d, hd, rfl⟩ | ⟨_, _, rfl⟩
    · rcases mem_sides_orient.mp hx with rfl | rfl
      · exact hk.held_child ha hc
      · exact hk.held_child hb hd
    · cases hx
  | @bound p b v hle =>
    have hb := hsides b (mem_sides_orient.mpr (.inl rfl))
    have hv := hsides (.var v) (mem_sides_orient.mpr (.inr rfl))
    have hown : t.Owns v := ((forall_orient ..).mp hscope).2
    constructor
    · intro q w c hc hlevel
      rw [BoundTable.bounds_addBound hown] at hc
      split at hc
      case isTrue =>
        rcases List.mem_cons.mp hc with rfl | hc
        · exact hb.resolve_left (Nat.not_lt.mpr hlevel.ge)
        · exact hbounds q w c hc hlevel
      case isFalse => exact hbounds q w c hc hlevel
    · intro g' hg' a ha
      obtain ⟨x, hx, rfl⟩ := List.mem_map.mp hg'
      rcases mem_sides_orient.mp ha with rfl | rfl
      · exact hb
      · exact hk.held_bound hw.leveled hbounds hown hv hx
  | @lowered p b b' v m _ hn hlt hs hi =>
    have hb := hsides b (mem_sides_orient.mpr (.inl rfl))
    have hv := hsides (.var v) (mem_sides_orient.mpr (.inr rfl))
    have hshallow : v.level < level := hlt.trans_le (hk.level_le hb)
    constructor
    · intro q w c hc hlevel
      obtain ⟨x, hx, hid⟩ := BoundTable.exists_owns (BoundTable.lt_size_of_mem_bounds hc)
      rw [← t'.bounds_congr q hid] at hc
      rcases hs.bound_cases hc hx with ⟨-, hc⟩ | ⟨hx, hc⟩ | ⟨_, -, -, -, -, c', -, hi'⟩
      · exact hbounds q x c hc hlevel
      · -- a stand-in, which is not of this level
        obtain ⟨d, rfl, -, -, -, hf⟩ := hs.mem_gained hx hc
        have hd : (Ty.var d).level = v.level := hf.level
        exact absurd (hd.symm.trans hlevel) hshallow.ne
      · have hcopy : c.level ≤ v.level := hs.copy_level_le hi'
        exact absurd hlevel (hcopy.trans_lt hshallow).ne
    · intro g' hg' a ha
      rw [List.mem_singleton.mp hg'] at ha
      rcases mem_sides_orient.mp ha with rfl | rfl
      · exact .inl ((hs.copy_level_le hi).trans_lt hshallow)
      · exact hv

theorem State.Within.single {goals : List Goal} (hw : State.Within level types ⟨memo, goals, t⟩)
    (hg : g ∈ goals) : State.Within level types ⟨memo, [g], t⟩ where
  inScope := ⟨hw.inScope.table, List.forall_mem_singleton.mpr (hw.inScope.goals g hg)⟩
  leveled := hw.leveled
  bounds := hw.bounds
  goals := List.forall_mem_singleton.mpr (hw.goals g hg)

theorem Step.within (hk : Stock level types) (h : Step st st')
    (hw : st.Within level types) : st'.Within level types := by
  have hscope := h.inScope hw.inScope
  have hleveled := h.leveled hw.inScope hw.leveled
  cases h with
  | known =>
    exact ⟨hscope, hleveled, hw.bounds, fun g hg => hw.goals g (List.mem_cons_of_mem _ hg)⟩
  | split hn h =>
    obtain ⟨hbounds, hgoals⟩ := h.within hk (hw.single List.mem_cons_self)
    refine ⟨hscope, hleveled, hbounds, fun g hg => ?_⟩
    rcases List.mem_append.mp hg with hg | hg
    · exact hgoals g hg
    · exact hw.goals g (List.mem_cons_of_mem _ hg)

theorem Steps.within (hk : Stock level types) (h : Steps st st')
    (hw : st.Within level types) : st'.Within level types := by
  induction h with
  | refl => exact hw
  | tail _ hstep ih => exact hstep.within hk ih

/-- Each goal of a state comes to an end if it does so alone, whatever is remembered and
recorded by the time it is its turn. -/
theorem State.Within.halts_of_each (hk : Stock level types) (hw : st.Within level types)
    (h : ∀ g ∈ st.goals, ∀ memo t, st.memo ⊆ memo → State.Within level types ⟨memo, [g], t⟩ →
      State.Halts ⟨memo, [g], t⟩) : st.Halts := by
  obtain ⟨memo, goals, t⟩ := st
  induction goals generalizing memo t with
  | nil => exact halts_nil memo t
  | cons g rest ih =>
    have hfirst := hw.single List.mem_cons_self
    have halts := h g List.mem_cons_self memo t (List.Subset.refl _) hfirst
    refine halts.append fun memo' t' hsteps => ?_
    have hmemo : memo ⊆ memo' := hsteps.memo_subset
    have hend := hsteps.within hk hfirst
    have hextends := hsteps.toExtends hfirst.inScope
    have hrest : State.Within level types ⟨memo', rest, t'⟩ := by
      refine ⟨⟨hend.inScope.table, fun g' hg' => ?_⟩, hend.leveled, hend.bounds, fun g' hg' => ?_⟩
      · exact (hw.inScope.goals g' (List.mem_cons_of_mem _ hg')).imp fun _ => hextends.owns
      · exact hw.goals g' (List.mem_cons_of_mem _ hg')
    refine ih memo' t' hrest fun g' hg' memo'' t'' hsub => ?_
    exact h g' (List.mem_cons_of_mem _ hg') memo'' t''
      (List.Subset.trans hmemo hsub)

theorem State.Within.halts_of_split (hk : Stock level types)
    (hw : State.Within level types ⟨memo, [g], t⟩)
    (h : (∀ a b, g = .relate a b → ¬ Known memo a b) → ∀ goals t', Split t g goals t' →
      ∀ g' ∈ goals, ∀ memo' t'', note memo g ⊆ memo' →
        State.Within level types ⟨memo', [g'], t''⟩ → State.Halts ⟨memo', [g'], t''⟩) :
    State.Halts ⟨memo, [g], t⟩ := by
  refine Acc.intro _ fun st' hstep => ?_
  have hw' := hstep.within hk hw
  cases hstep with
  | known => exact halts_nil memo t
  | split hn hs =>
    refine hw'.halts_of_each hk fun g' hg' memo' t'' hsub => ?_
    rw [List.append_nil] at hg'
    exact h hn _ _ hs g' hg' memo' t'' hsub

end Within

section Count

def unmet (marks : Finset (String × String)) (memo : Memo) : Nat :=
  (marks.filter fun mark => mark ∉ memo).card

theorem unmet_anti (marks : Finset (String × String)) {memo memo' : Memo} (h : memo ⊆ memo') :
    unmet marks memo' ≤ unmet marks memo :=
  Finset.card_le_card fun mark hm => by
    rw [Finset.mem_filter] at hm ⊢
    exact ⟨hm.1, fun hmem => hm.2 (h hmem)⟩

theorem unmet_lt {marks : Finset (String × String)} {memo memo' : Memo} {mark : String × String}
    (h : memo ⊆ memo') (hm : mark ∈ marks) (hnew : mark ∈ memo') (hold : mark ∉ memo) :
    unmet marks memo' < unmet marks memo := by
  refine Finset.card_lt_card ((Finset.ssubset_iff_of_subset fun m hm => ?_).mpr ⟨mark, ?_, ?_⟩)
  · rw [Finset.mem_filter] at hm ⊢
    exact ⟨hm.1, fun hmem => hm.2 (h hmem)⟩
  · exact Finset.mem_filter.mpr ⟨hm, hold⟩
  · exact fun hmem => (Finset.mem_filter.mp hmem).2 hnew

theorem mark_of_unknown {memo : Memo} {p : Polarity} {b : Ty} {v : Var}
    (hn : ∀ x y, p.orient relate b (.var v) = relate x y → ¬ Known memo x y) :
    p.orient mark b (.var v) ∉ memo ∧
      p.orient mark b (.var v) ∈ note memo (p.orient relate b (.var v)) := by
  refine ⟨fun hmem => ?_, by rw [note_orient]; exact List.mem_cons_self⟩
  cases p with
  | positive => exact hn _ _ rfl (.inr ⟨.inr rfl, hmem⟩)
  | negative => exact hn _ _ rfl (.inr ⟨.inl rfl, hmem⟩)

end Count

namespace Stock

variable {level : Nat} {types : Set Ty} (hk : Stock level types)

noncomputable def keys : Finset String := hk.finite.toFinset.image Ty.key

theorem key_mem {a : Ty} (h : a ∈ types) : a.key ∈ hk.keys :=
  Finset.mem_image_of_mem _ (hk.finite.mem_toFinset.mpr h)

noncomputable def marks (p : Polarity) (a : Ty) : Finset (String × String) :=
  hk.keys.image (p.orient Prod.mk a.key)

theorem mark_mem {p : Polarity} {a b : Ty} (h : b ∈ types) : p.orient mark a b ∈ hk.marks p a := by
  have hmark : p.orient mark a b = p.orient Prod.mk a.key b.key := by cases p <;> rfl
  rw [hmark]
  exact Finset.mem_image_of_mem _ (hk.key_mem h)

theorem mark_mem_product {p : Polarity} {a b : Ty} (ha : a ∈ types) (hb : b ∈ types) :
    p.orient mark a b ∈ hk.keys ×ˢ hk.keys := by
  cases p with
  | positive => exact Finset.mk_mem_product (hk.key_mem ha) (hk.key_mem hb)
  | negative => exact Finset.mk_mem_product (hk.key_mem hb) (hk.key_mem ha)

end Stock

def HaltsBelow (level : Nat) : Prop :=
  ∀ st : State, st.Scoped (fun _ => True) → st.table.Leveled →
    (∀ g ∈ st.goals, ∀ a ∈ g.sides, a.level < level) → st.Halts

section Levels

variable {level : Nat} {types : Set Ty} {memo : Memo} {t : BoundTable} {p : Polarity} {a b : Ty}

theorem HaltsBelow.halts (hlow : HaltsBelow level)
    (hw : State.Within level types ⟨memo, [p.orient relate a b], t⟩) (ha : a.level < level)
    (hb : b.level < level) : State.Halts ⟨memo, [p.orient relate a b], t⟩ := by
  refine hlow _ hw.inScope hw.leveled (List.forall_mem_singleton.mpr fun c hc => ?_)
  rcases mem_sides_orient.mp hc with rfl | rfl
  · exact ha
  · exact hb

theorem Stock.halts_mixed (hk : Stock level types) (hlow : HaltsBelow level)
    (hw : State.Within level types ⟨memo, [p.orient relate a b], t⟩) (ha : a.level < level)
    (hb : b ∈ types) : State.Halts ⟨memo, [p.orient relate a b], t⟩ := by
  -- The less deep side gets smaller, or stays and meets one more type of the stock.
  induction hsize : a.size using Nat.strong_induction_on generalizing p a b memo t with
  | h size ihsize =>
    induction hcount : unmet (hk.marks p a) memo using Nat.strong_induction_on
      generalizing b memo t with
    | h count ihcount =>
      refine hw.halts_of_split hk fun hn goals t' hs g' hg' memo' t'' hsub hw' => ?_
      generalize hg : p.orient relate a b = g at hs
      cases hs with
      | parts hparts =>
        rcases hparts.children hg hg' with ⟨q, x, hx, y, hy, rfl⟩ | ⟨name, record, rfl⟩
        · have hxlevel : x.level < level := (Ty.level_le_of_mem_children hx).trans_lt ha
          have hxsize : x.size < size := hsize ▸ Ty.size_lt_of_mem_children hx
          rcases hk.held_child (.inr hb) hy with hylevel | hytypes
          · exact hlow.halts hw' hxlevel hylevel
          · exact ihsize x.size hxsize hw' hxlevel hytypes rfl
        · exact halts_lacking ..
      | @bound q c v hle =>
        obtain ⟨x, hx, rfl⟩ := List.mem_map.mp hg'
        rcases orient_relate_eq hg with ⟨rfl, rfl, rfl⟩ | ⟨rfl, rfl, rfl⟩
        · obtain ⟨hold, hnew⟩ := mark_of_unknown hn
          have hmark := hk.mark_mem (p := q) (a := c) hb
          have hfewer : unmet (hk.marks q c) memo' < count :=
            hcount ▸ unmet_lt (List.Subset.trans (subset_note _ _) hsub) hmark (hsub hnew) hold
          rcases hw'.goals _ List.mem_cons_self x (mem_sides_orient.mpr (.inr rfl)) with hx | hx
          · exact hlow.halts hw' ha hx
          · exact ihcount _ hfewer hw' hx rfl
        · -- a type of the stock is no bound of a variable that is less deep
          rw [hk.level_eq c hb] at hle
          exact absurd ha (Nat.not_lt.mpr hle)
      | @lowered q c c' v m _ hv hlt hst hi =>
        obtain rfl := List.mem_singleton.mp hg'
        have hcopy : c'.level ≤ v.level := hst.copy_level_le hi
        rcases orient_relate_eq hg with ⟨rfl, rfl, rfl⟩ | ⟨rfl, rfl, rfl⟩
        · have hvlevel : v.level = level := hk.level_eq _ hb
          exact absurd ha (hvlevel ▸ hlt.not_gt)
        · exact hlow.halts hw' (hcopy.trans_lt ha) ha

theorem Stock.halts_of_held (hk : Stock level types) (hlow : HaltsBelow level)
    (hw : State.Within level types ⟨memo, [p.orient relate a b], t⟩)
    (h : a ∈ types → b ∈ types → State.Halts ⟨memo, [p.orient relate a b], t⟩) :
    State.Halts ⟨memo, [p.orient relate a b], t⟩ := by
  have ha : Held level types a := hw.goals _ List.mem_cons_self a (mem_sides_orient.mpr (.inl rfl))
  have hb : Held level types b := hw.goals _ List.mem_cons_self b (mem_sides_orient.mpr (.inr rfl))
  rcases ha with ha | ha <;> rcases hb with hb | hb
  · exact hlow.halts hw ha hb
  · exact hk.halts_mixed hlow hw ha hb
  · rw [← Polarity.orient_flip] at hw ⊢
    exact hk.halts_mixed hlow hw hb ha
  · exact h ha hb

theorem Stock.halts_deep (hk : Stock level types) (hlow : HaltsBelow level)
    (hw : State.Within level types ⟨memo, [p.orient relate a b], t⟩) (ha : a ∈ types)
    (hb : b ∈ types) : State.Halts ⟨memo, [p.orient relate a b], t⟩ := by
  -- A pair of the stock is met only once, and the structures between two such pairs get smaller.
  induction hcount : unmet (hk.keys ×ˢ hk.keys) memo using Nat.strong_induction_on
    generalizing p a b memo t with
  | h count ihcount =>
    induction hsize : a.size using Nat.strong_induction_on generalizing p a b memo t with
    | h size ihsize =>
      refine hw.halts_of_split hk fun hn goals t' hs g' hg' memo' t'' hsub hw' => ?_
      have hmemo := List.Subset.trans (subset_note memo _) hsub
      generalize hg : p.orient relate a b = g at hs
      cases hs with
      | parts hparts =>
        rcases hparts.children hg hg' with ⟨q, x, hx, y, hy, rfl⟩ | ⟨name, record, rfl⟩
        · refine hk.halts_of_held hlow hw' fun hxtypes hytypes => ?_
          rcases (hcount ▸ unmet_anti _ hmemo).lt_or_eq with hfewer | hsame
          · exact ihcount _ hfewer hw' hxtypes hytypes rfl
          · have hxsize : x.size < size := hsize ▸ Ty.size_lt_of_mem_children hx
            exact ihsize x.size hxsize hw' hxtypes hytypes hsame rfl
        · exact halts_lacking ..
      | @bound q c v hle =>
        obtain ⟨x, hx, rfl⟩ := List.mem_map.mp hg'
        have hpair : c ∈ types ∧ .var v ∈ types := by
          rcases orient_relate_eq hg with ⟨-, rfl, rfl⟩ | ⟨-, rfl, rfl⟩
          · exact ⟨ha, hb⟩
          · exact ⟨hb, ha⟩
        rw [hg] at hn hsub
        obtain ⟨hold, hnew⟩ := mark_of_unknown hn
        have hmark := hk.mark_mem_product (p := q) hpair.1 hpair.2
        have hfewer : unmet (hk.keys ×ˢ hk.keys) memo' < count :=
          hcount ▸ unmet_lt hmemo hmark (hsub hnew) hold
        exact hk.halts_of_held hlow hw' fun hc hx => ihcount _ hfewer hw' hc hx rfl
      | @lowered q c c' v m _ hv hlt hst hi =>
        have hlevels : c.level = v.level := by
          rcases orient_relate_eq hg with ⟨-, rfl, rfl⟩ | ⟨-, rfl, rfl⟩
          · exact (hk.level_eq _ ha).trans (hk.level_eq _ hb).symm
          · exact (hk.level_eq _ hb).trans (hk.level_eq _ ha).symm
        exact absurd hlevels hlt.ne'

theorem State.exists_stock {st : State} (hst : st.Scoped fun _ => True) (hl : st.table.Leveled)
    (hgoals : ∀ g ∈ st.goals, ∀ a ∈ g.sides, a.level ≤ level) :
    ∃ types, Stock level types ∧ st.Within level types := by
  have hfinite : ({b | ∃ p v, b ∈ st.table.bounds p v} ∪ {a | a ∈ st.goals.flatMap sides}).Finite :=
    st.table.finite_bounds.union (List.finite_toSet _)
  refine ⟨_, stock_of_finite level hfinite, hst, hl, fun p v b hb hlevel => ?_, fun g hg a ha => ?_⟩
  · exact ⟨hlevel, b, .inl ⟨p, v, hb⟩, .refl⟩
  · refine (hgoals g hg a ha).lt_or_eq.imp_right fun hlevel => ?_
    exact ⟨hlevel, a, .inr (List.mem_flatMap.mpr ⟨g, hg, ha⟩), .refl⟩

theorem haltsBelow (level : Nat) : HaltsBelow level := by
  induction level with
  | zero =>
    rintro ⟨memo, goals, t⟩ - - hgoals
    cases goals with
    | nil => exact halts_nil memo t
    | cons g goals =>
      cases g with
      | relate a b =>
        exact absurd (hgoals _ List.mem_cons_self a List.mem_cons_self) (Nat.not_lt_zero _)
      | lacking name record => exact halts_lacking ..
  | succ level hlow =>
    intro st hst hl hgoals
    obtain ⟨types, hk, hw⟩ :=
      State.exists_stock hst hl fun g hg a ha => Nat.le_of_lt_succ (hgoals g hg a ha)
    refine hw.halts_of_each hk fun g _ memo t _ hw' => ?_
    cases g with
    | relate a b =>
      exact hk.halts_of_held (p := .positive) hlow hw' fun ha hb =>
        hk.halts_deep (p := .positive) hlow hw' ha hb
    | lacking name record => exact halts_lacking ..

theorem State.halts {st : State} (hst : st.Scoped fun _ => True) (hl : st.table.Leveled) :
    st.Halts := by
  have hbound : ∃ level, ∀ g ∈ st.goals, ∀ a ∈ g.sides, a.level < level := by
    obtain ⟨n, hn⟩ := ((st.goals.flatMap sides).finite_toSet.image Ty.level).bddAbove
    refine ⟨n + 1, fun g hg a ha => Nat.lt_succ_of_le (hn ⟨a, ?_, rfl⟩)⟩
    exact List.mem_flatMap.mpr ⟨g, hg, ha⟩
  obtain ⟨level, hlevel⟩ := hbound
  exact haltsBelow level st hst hl hlevel

end Levels

theorem solve_settles {memo : Memo} {goals : List Goal} {s : Session}
    (hst : State.Scoped (fun _ => True) ⟨memo, goals, s.table⟩)
    (h : State.Halts ⟨memo, goals, s.table⟩) :
    ∃ r s', s.Settles (fun fuel => solve fuel memo goals) r s' := by
  generalize hstate : State.mk memo goals s.table = st at h
  induction h generalizing memo goals s with
  | intro st _ ih =>
    subst hstate
    cases goals with
    | nil =>
      refine ⟨.ok (), s, by simp, 0, fun more _ => ?_⟩
      rw [solve]
      exact s.perform_pure ()
    | cons g rest =>
      rcases step_performs memo hst.table (hst.goals g List.mem_cons_self) with
        ⟨goals, memo', s₁, hrun, hstep⟩ | ⟨e, s₁, hrun, -, -⟩
      · obtain ⟨r, s', hr, fuel, hfuel⟩ := ih _ (hstep rest) ((hstep rest).inScope hst) rfl
        refine ⟨r, s', hr, fuel + 1, fun more hmore => ?_⟩
        obtain ⟨more, rfl⟩ := Nat.exists_eq_add_of_le' hmore
        rw [← Nat.add_assoc, solve, Session.perform_bind_of_ok hrun]
        exact hfuel _ (Nat.le_add_left _ _)
      · refine ⟨.error (.failed e), s₁, by simp, 1, fun more hmore => ?_⟩
        obtain ⟨more, rfl⟩ := Nat.exists_eq_add_of_le' hmore
        rw [solve]
        exact Session.perform_bind_of_error hrun

end Goal

theorem relate_settles {s : Session} {lhs rhs : Ty} (hs : s.table.Sound)
    (hst : (Goal.start s.table lhs rhs).Scoped fun _ => True) :
    ∃ r s', s.Settles (relate · lhs rhs) r s' :=
  Goal.solve_settles hst (Goal.State.halts hst hs.leveled)

/-- Whatever cycles the bounds have and however many levels there are, making one type a
subtype of another comes to an end, the stand-ins that it makes included. -/
theorem relate_terminates {s : Session} {lhs rhs : Ty} (hs : s.table.Sound)
    (hl : lhs.InScope s.table) (hr : rhs.InScope s.table) :
    ∃ r s', s.Settles (relate · lhs rhs) r s' :=
  relate_settles hs (Goal.start_scoped hs.inScope hl hr)

def selfBounded : BoundTable :=
  (((BoundTable.empty.addVar 0).addVar 1).addBound .positive ⟨1, 1⟩
    (.arrow 0 (.var ⟨1, 1⟩) (.var ⟨1, 1⟩))).addBound .negative ⟨1, 1⟩
    (.arrow 1 (.var ⟨0, 0⟩) (.var ⟨1, 1⟩))

theorem selfBounded_sound : selfBounded.Sound := by
  have hempty : BoundTable.empty.Sound := ⟨BoundTable.scoped_empty _, BoundTable.leveled_empty⟩
  have hvars := (hempty.addVar 0).addVar 1
  unfold selfBounded
  refine (hvars.addBound ?_ ?_ ?_ _).addBound ?_ ?_ ?_ _
  · rfl
  · exact ⟨rfl, rfl⟩
  · exact le_rfl
  · rfl
  · exact ⟨rfl, rfl⟩
  · exact le_rfl

theorem relate_terminates_selfBounded :
    selfBounded.Sound ∧
      ∃ r s', Session.Settles ⟨selfBounded, 2, []⟩
        (relate · (.var ⟨1, 1⟩) (.arrow 2 (.var ⟨1, 1⟩) (.var ⟨0, 0⟩))) r s' := by
  refine ⟨selfBounded_sound, relate_terminates selfBounded_sound ?_ ?_⟩
  · rfl
  · exact ⟨rfl, rfl⟩

end Biunify
