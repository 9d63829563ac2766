import Biunify.Copy.Specialize
import Biunify.Proofs.Copy.Traversal
import Biunify.Proofs.VarMap

/-! What an instance of a scheme adds to a table: every quantified variable that is met gets
one copy, whose bounds are copies of the bounds of the variable, place by place. No variable
that the table had is touched. -/

namespace Biunify
namespace Copy

def Instanced (limit : Nat) (m : VarMap Var) (v c : Var) : Prop :=
  v.level ≤ limit ∧ c = v ∨ limit < v.level ∧ m.find? v = some c

def Recorded (m : VarMap Var) (v c : Var) : Prop := m.find? v = some c

def Completed (limit : Nat) (m : VarMap Var) (t t' : BoundTable) (v c : Var) : Prop :=
  ∀ p q, List.Forall₂ (Ty.CopyOf limit (fun _ => Recorded m) q) (t.bounds p v) (t'.bounds p c)

theorem Completed.images {limit : Nat} {m : VarMap Var} {t t' : BoundTable} {v c : Var}
    (h : Completed limit m t t' v c) (p q : Polarity) :
    List.Forall₂ (Ty.Image (fun _ => Instanced limit m) q) (t.bounds p v) (t'.bounds p c) :=
  (h p q).imp fun _ _ hc => hc.image

/-- The second table is the first with the copies that `m` records. Those that are begun
may lack bounds. -/
structure Instances (limit level : Nat) (t : BoundTable) (begun : Var → Prop) (m : VarMap Var)
    (t' : BoundTable) : Prop where
  size_le : t.size ≤ t'.size
  owns : ∀ {v}, t.Owns v → t'.Owns v
  bounds : ∀ {v}, t.Owns v → ∀ p, t'.bounds p v = t.bounds p v
  origin : ∀ {v c}, m.find? v = some c → ∃ w, t.Owns w ∧ w.id = v.id ∧ limit < w.level ∧
    t.size ≤ c.id ∧ t'.Owns c ∧ c.level = level ∧ (begun c ∨ Completed limit m t t' w c)
  cover : ∀ {c}, t'.Owns c → t.Owns c ∨ ∃ v, t.Owns v ∧ m.find? v = some c
  distinct : ∀ {v w c}, m.find? v = some c → m.find? w = some c → v.id = w.id

namespace Instances

variable {limit level : Nat} {t₀ t : BoundTable} {begun : Var → Prop} {m m' : VarMap Var}
  {v c : Var}

theorem start (limit level : Nat) (t : BoundTable) :
    Instances limit level t (fun _ => False) .empty t where
  size_le := Nat.le_refl _
  owns := id
  bounds _ _ := rfl
  origin hc := by simp at hc
  cover := .inl
  distinct hc := by simp at hc

theorem completed {t' : BoundTable} (hk : ∀ {v c}, m.find? v = some c → m'.find? v = some c)
    (hb : ∀ p, t'.bounds p c = t.bounds p c) (h : Completed limit m t₀ t v c) :
    Completed limit m' t₀ t' v c := by
  intro p q
  rw [hb]
  exact (h p q).imp fun _ _ hi => hi.imp fun _ _ _ _ => hk

theorem enter (h : Instances limit level t₀ begun m t) (hn : m.find? v = none)
    (hv : t₀.Owns v) (hlt : limit < v.level) :
    Instances limit level t₀ (fun c => begun c ∨ c = t.nextVar level)
      (m.insert v (t.nextVar level)) (t.addVar level) := by
  have hk : ∀ {w c}, m.find? w = some c → (m.insert v (t.nextVar level)).find? w = some c := by
    intro w c hc
    rw [VarMap.find?_insert, if_neg fun hid => ?_]
    · exact hc
    · rw [m.find?_congr hid, hn] at hc
      cases hc
  have hold : ∀ {w c}, m.find? w = some c → c ≠ t.nextVar level := by
    rintro w c hc rfl
    obtain ⟨_, -, -, -, -, ho, -⟩ := h.origin hc
    exact absurd ho.lt_size (Nat.lt_irrefl _)
  refine ⟨?_, fun ho => (BoundTable.Extends.addVar t level).owns (h.owns ho), ?_, ?_, ?_, ?_⟩
  · exact h.size_le.trans (t.size_addVar level ▸ Nat.le_succ _)
  · intro w hw p
    rw [BoundTable.bounds_addVar, h.bounds hw]
  · intro w d hd
    rw [VarMap.find?_insert] at hd
    split at hd
    case isTrue hid =>
      obtain rfl := Option.some.inj hd
      refine ⟨v, hv, hid.symm, hlt, h.size_le, ?_, rfl, .inl (.inr rfl)⟩
      exact (BoundTable.owns_addVar t level _).mpr (.inr rfl)
    case isFalse =>
      obtain ⟨x, hx, hid, hdeep, hge, ho, hl, hc⟩ := h.origin hd
      refine ⟨x, hx, hid, hdeep, hge, (BoundTable.Extends.addVar t level).owns ho, hl, ?_⟩
      refine hc.imp .inl (completed hk fun p => ?_)
      exact BoundTable.bounds_addVar t level p d
  · intro d hd
    rcases (BoundTable.owns_addVar t level d).mp hd with hd | rfl
    · rcases h.cover hd with hd | ⟨w, hw, hd⟩
      · exact .inl hd
      · exact .inr ⟨w, hw, hk hd⟩
    · exact .inr ⟨v, hv, by rw [VarMap.find?_insert, if_pos rfl]⟩
  · intro w x d hw hx
    rw [VarMap.find?_insert] at hw hx
    split at hw
    case isTrue hw' =>
      split at hx
      case isTrue hx' => exact hw'.trans hx'.symm
      case isFalse => exact absurd (Option.some.inj hw).symm (hold hx)
    case isFalse =>
      split at hx
      case isTrue => exact absurd (Option.some.inj hx).symm (hold hw)
      case isFalse => exact h.distinct hw hx

theorem setBounds (h : Instances limit level t₀ begun m t) (hb : begun c) (hc : t.Owns c)
    (hge : t₀.size ≤ c.id) (p : Polarity) (bs : List Ty) :
    Instances limit level t₀ begun m (t.setBounds p c bs) := by
  have hother : ∀ {d}, d.id ≠ c.id → ∀ q, (t.setBounds p c bs).bounds q d = t.bounds q d := by
    intro d hd q
    rw [BoundTable.bounds_setBounds hc, if_neg fun h => hd h.1]
  have howns : ∀ {d}, t.Owns d → (t.setBounds p c bs).Owns d := (t.owns_setBounds p c bs _).mpr
  refine ⟨(t.size_setBounds p c bs).symm ▸ h.size_le, fun hv => howns (h.owns hv), ?_, ?_, ?_,
    h.distinct⟩
  · intro v hv q
    rw [hother (Nat.ne_of_lt (hv.lt_size.trans_le hge)), h.bounds hv]
  · intro v d hd
    obtain ⟨w, hw, hid, hlt, hge, ho, hl, hd⟩ := h.origin hd
    refine ⟨w, hw, hid, hlt, hge, howns ho, hl, ?_⟩
    by_cases heq : d.id = c.id
    · exact .inl (ho.eq hc heq ▸ hb)
    · exact hd.imp_right (completed id (hother heq))
  · exact fun hd => h.cover ((t.owns_setBounds p c bs _).mp hd)

theorem complete (h : Instances limit level t₀ (fun d => begun d ∨ d = c) m t)
    (hv : t₀.Owns v) (hm : m.find? v = some c) (hc : Completed limit m t₀ t v c) :
    Instances limit level t₀ begun m t where
  size_le := h.size_le
  owns := h.owns
  bounds := h.bounds
  cover := h.cover
  distinct := h.distinct
  origin := by
    intro w d hd
    obtain ⟨x, hx, hid, hlt, hge, ho, hl, hcases⟩ := h.origin hd
    refine ⟨x, hx, hid, hlt, hge, ho, hl, ?_⟩
    rcases hcases with (hd' | rfl) | hd'
    · exact .inl hd'
    · exact .inr (hv.eq hx ((h.distinct hm hd).trans hid.symm) ▸ hc)
    · exact .inr hd'

end Instances

structure AddsInstances (limit level : Nat) (t₀ : BoundTable) (m : VarMap Var) (t : BoundTable)
    (m' : VarMap Var) (t' : BoundTable) : Prop where
  count_le : m.size ≤ m'.size
  keeps : ∀ {v c}, m.find? v = some c → m'.find? v = some c
  owns : ∀ {v}, t.Owns v → t'.Owns v
  bounds : ∀ {v}, t.Owns v → ∀ p, t'.bounds p v = t.bounds p v
  instances : ∀ {begun}, Instances limit level t₀ begun m t → Instances limit level t₀ begun m' t'

namespace AddsInstances

variable {limit level : Nat} {t₀ t t' t'' : BoundTable} {m m' m'' : VarMap Var}

theorem refl (limit level : Nat) (t₀ : BoundTable) (m : VarMap Var) (t : BoundTable) :
    AddsInstances limit level t₀ m t m t :=
  ⟨Nat.le_refl _, id, id, fun _ _ => rfl, id⟩

theorem trans (h : AddsInstances limit level t₀ m t m' t')
    (h' : AddsInstances limit level t₀ m' t' m'' t'') :
    AddsInstances limit level t₀ m t m'' t'' :=
  ⟨h.count_le.trans h'.count_le, h'.keeps ∘ h.keeps, h'.owns ∘ h.owns,
    fun hv p => (h'.bounds (h.owns hv) p).trans (h.bounds hv p), h'.instances ∘ h.instances⟩

theorem visit {v : Var} {p : Polarity} {m₁ m₂ : VarMap Var} {t₁ t₂ : BoundTable}
    {lower upper : List Ty} (hv : t₀.Owns v) (hlt : limit < v.level) (hn : m.find? v = none)
    (hsize : t₀.size ≤ t.size)
    (h₁ : AddsInstances limit level t₀ (m.insert v (t.nextVar level)) (t.addVar level) m₁ t₁)
    (hl : List.Forall₂ (Ty.CopyOf limit (fun _ => Recorded m₁) p)
      (t₀.bounds .positive v).reverse lower)
    (h₂ : AddsInstances limit level t₀ m₁
      (t₁.setBounds .positive (t.nextVar level) lower.reverse) m₂ t₂)
    (hu : List.Forall₂ (Ty.CopyOf limit (fun _ => Recorded m₂) p)
      (t₀.bounds .negative v).reverse upper) :
    AddsInstances limit level t₀ m t m₂
      (t₂.setBounds .negative (t.nextVar level) upper.reverse) := by
  have hc : (t.addVar level).Owns (t.nextVar level) :=
    (BoundTable.owns_addVar t level _).mpr (.inr rfl)
  have hc₁ := h₁.owns hc
  have hc₁' := (t₁.owns_setBounds .positive (t.nextVar level) lower.reverse _).mpr hc₁
  have hc₂ := h₂.owns hc₁'
  have hfind : m₂.find? v = some (t.nextVar level) :=
    h₂.keeps (h₁.keeps (by rw [VarMap.find?_insert, if_pos rfl]))
  have hcompleted : Completed limit m₂ t₀
      (t₂.setBounds .negative (t.nextVar level) upper.reverse) v (t.nextVar level) := by
    intro q r
    rw [BoundTable.bounds_setBounds hc₂]
    cases q with
    | positive =>
      rw [if_neg (by simp), h₂.bounds hc₁', BoundTable.bounds_setBounds hc₁, if_pos ⟨rfl, rfl⟩,
        ← List.forall₂_reverse_iff, List.reverse_reverse]
      exact hl.imp fun _ _ hi => (hi.repolarize r).imp fun _ _ _ _ => h₂.keeps
    | negative =>
      rw [if_pos ⟨rfl, rfl⟩, ← List.forall₂_reverse_iff, List.reverse_reverse]
      exact hu.imp fun _ _ hi => hi.repolarize r
  constructor
  case count_le =>
    have hcount := h₁.count_le.trans h₂.count_le
    rw [VarMap.size_insert hn] at hcount
    exact (Nat.le_succ _).trans hcount
  case keeps =>
    intro w d hd
    refine h₂.keeps (h₁.keeps ?_)
    rw [VarMap.find?_insert, if_neg fun hid => ?_]
    · exact hd
    · rw [m.find?_congr hid, hn] at hd
      cases hd
  case owns =>
    intro w hw
    refine (BoundTable.owns_setBounds ..).mpr (h₂.owns ((BoundTable.owns_setBounds ..).mpr ?_))
    exact h₁.owns ((BoundTable.Extends.addVar t level).owns hw)
  case bounds =>
    intro w hw q
    have hne : w.id ≠ (t.nextVar level).id := Nat.ne_of_lt hw.lt_size
    have hw₁ := (BoundTable.Extends.addVar t level).owns hw
    have hw₁' := (t₁.owns_setBounds .positive (t.nextVar level) lower.reverse w).mpr (h₁.owns hw₁)
    rw [BoundTable.bounds_setBounds hc₂, if_neg fun h => hne h.1, h₂.bounds hw₁',
      BoundTable.bounds_setBounds hc₁, if_neg fun h => hne h.1, h₁.bounds hw₁,
      BoundTable.bounds_addVar]
  case instances =>
    intro begun h
    have h := h₁.instances (h.enter hn hv hlt)
    have h := h₂.instances (h.setBounds (.inr rfl) hc₁ hsize .positive lower.reverse)
    exact (h.setBounds (.inr rfl) hc₂ hsize .negative upper.reverse).complete hv hfind hcompleted

end AddsInstances

def AddsInstancesOf (limit level : Nat) (t₀ : BoundTable) (ty : Ty) (m : VarMap Var)
    (t : BoundTable) (m' : VarMap Var) (t' : BoundTable) : Prop :=
  AddsInstances limit level t₀ m t m' t' ∧
    ∀ {v c}, t₀.Owns v → m.find? v = none → m'.find? v = some c → t₀.Reaches limit ty v

theorem AddsInstancesOf.trans {limit level : Nat} {t₀ t t' t'' : BoundTable} {ty : Ty}
    {m m' m'' : VarMap Var} (h : AddsInstancesOf limit level t₀ ty m t m' t')
    (h' : AddsInstancesOf limit level t₀ ty m' t' m'' t'') :
    AddsInstancesOf limit level t₀ ty m t m'' t'' := by
  refine ⟨h.1.trans h'.1, fun {v c} hv hn hs => ?_⟩
  cases hn' : m'.find? v with
  | some d => exact h.2 hv hn hn'
  | none => exact h'.2 hv hn' hs

def instanceLaw (limit level : Nat) (t₀ : BoundTable) (ty : Ty) (fuel : Nat) :
    Law (VarMap Var) where
  ready m t := (∃ begun, Instances limit level t₀ begun m t) ∧ t₀.size + 1 ≤ fuel + m.size
  grows := AddsInstancesOf limit level t₀ ty
  within _ _ v := t₀.Owns v ∧ (limit < v.level → t₀.Reaches limit ty v)
  image m _ := Recorded m
  refl m t := ⟨.refl limit level t₀ m t, fun _ hn hs => by rw [hn] at hs; cases hs⟩
  trans _ := AddsInstancesOf.trans
  ready_of_grows := fun ⟨⟨begun, hr⟩, hf⟩ h =>
    ⟨⟨begun, h.1.instances hr⟩, hf.trans (Nat.add_le_add_left h.1.count_le _)⟩
  within_of_grows _ := id
  image_of_grows h := h.1.keeps

theorem instanceVar_serves (limit level : Nat) {t₀ : BoundTable} (ht : t₀.Scoped fun _ => True)
    (ty : Ty) (fuel : Nat) :
    (instanceLaw limit level t₀ ty fuel).Serves limit (instanceVar limit level fuel) := by
  induction fuel with
  | zero =>
    rintro p v m s ⟨⟨begun, hr⟩, hfuel⟩ - -
    have hle : m.size ≤ t₀.size := VarMap.size_le fun v c hc => by
      obtain ⟨w, hw, hid, -⟩ := hr.origin hc
      exact hid ▸ hw.lt_size
    omega
  | succ fuel ih =>
    rintro p v m s ⟨⟨begun, hr⟩, hfuel⟩ ⟨hv, hreach⟩ hlt
    rw [instanceVar, Session.perform_copy_bind_of_ok (Session.perform_copy_get s m)]
    cases hn : m.find? v with
    | some c => exact ⟨c, m, s, rfl, (instanceLaw limit level t₀ ty fuel).refl _ _, hn⟩
    | none =>
      let c := s.table.nextVar level
      let s₁ : Session := { s with table := s.table.addVar level }
      have hr₁ := hr.enter hn hv hlt
      have hf₁ : t₀.size + 1 ≤ fuel + (m.insert v c).size := by
        rw [VarMap.size_insert hn]
        omega
      have hin : ∀ q t, ∀ b ∈ (t₀.bounds q v).reverse,
          (instanceLaw limit level t₀ ty fuel).Covers t p b := by
        intro q t b hb x w hw
        have hb := List.mem_reverse.mp hb
        exact ⟨hw.of_forall (ht q v b hb), .bound (hreach hlt) hb hw⟩
      obtain ⟨lower, m₂, s₂, hrun₁, hg₁, hl⟩ := Law.copies_elems (p := p) (s := s₁)
        (fun b _ => Law.copyable_of_serves ih b) ⟨⟨_, hr₁⟩, hf₁⟩ (hin .positive _)
      let s₃ : Session := { s₂ with table := s₂.table.setBounds .positive c lower.reverse }
      have hc : s₂.table.Owns c := hg₁.1.owns ((BoundTable.owns_addVar ..).mpr (.inr rfl))
      have hr₃ := (hg₁.1.instances hr₁).setBounds (.inr rfl) hc hr.size_le .positive lower.reverse
      have hf₃ := hf₁.trans (Nat.add_le_add_left hg₁.1.count_le _)
      obtain ⟨upper, m₄, s₄, hrun₂, hg₂, hu⟩ := Law.copies_elems (p := p) (s := s₃)
        (fun b _ => Law.copyable_of_serves ih b) ⟨⟨_, hr₃⟩, hf₃⟩ (hin .negative _)
      refine ⟨c, m₄, { s₄ with table := s₄.table.setBounds .negative c upper.reverse }, ?_,
        ⟨AddsInstances.visit hv hlt hn hr.size_le hg₁.1 hl hg₂.1 hu, fun {w d} hw hnone hs => ?_⟩,
        hg₂.1.keeps (hg₁.1.keeps ?_)⟩
      · have hlower : s₁.table.lower v = t₀.bounds .positive v := hr₁.bounds hv .positive
        have hupper : s₃.table.upper v = t₀.bounds .negative v := hr₃.bounds hv .negative
        rw [← hlower] at hrun₁
        rw [← hupper] at hrun₂
        iterate 3 rw [Session.perform_copy_bind_of_ok rfl]
        refine (Session.perform_copy_bind_of_ok hrun₁).trans ?_
        iterate 2 rw [Session.perform_copy_bind_of_ok rfl]
        exact (Session.perform_copy_bind_of_ok hrun₂).trans rfl
      · by_cases hid : w.id = v.id
        · exact hw.eq hv hid ▸ hreach hlt
        · have hnone' : (m.insert v c).find? w = none := by
            rw [VarMap.find?_insert, if_neg hid, hnone]
          cases hn₂ : m₂.find? w with
          | some e => exact hg₁.2 hw hnone' hn₂
          | none => exact hg₂.2 hw hn₂ hs
      · rw [VarMap.find?_insert, if_pos rfl]

end Copy

namespace Scheme

def body : Scheme → Ty
  | mono ty => ty
  | poly p => p.body

def level : Scheme → Nat
  | mono ty => ty.level
  | poly p => p.level

end Scheme

theorem Polytype.specialize_copies {s : Session} {scheme : Polytype}
    (hs : s.table.Scoped fun _ => True) (hb : scheme.body.Forall s.table.Owns fun _ => True)
    (level : Nat) :
    ∃ ty m s', s.perform (scheme.specialize level) = (.ok ty, s') ∧
      Copy.Instances scheme.level level s.table (fun _ => False) m s'.table ∧
      Ty.CopyOf scheme.level (fun _ => Copy.Recorded m) .positive scheme.body ty ∧
      ∀ v c, s.table.Owns v → m.find? v = some c → s.table.Reaches scheme.level scheme.body v := by
  have hstart := Copy.Instances.start scheme.level level s.table
  obtain ⟨ty, m, s', hrun, hg, hc⟩ := Copy.Law.copyable_of_serves
    (Copy.instanceVar_serves scheme.level level hs scheme.body (s.table.size + 1)) scheme.body
    .positive .empty s ⟨⟨_, hstart⟩, Nat.le_add_right _ _⟩
    fun q v hm => ⟨hm.of_forall hb, .mention hm⟩
  refine ⟨ty, m, s', ?_, hg.1.instances hstart, hc, fun v c hv => hg.2 hv (VarMap.find?_empty v)⟩
  rw [Polytype.specialize, Session.perform_bind_of_ok (Session.perform_lift ..)]
  exact Session.perform_bind_of_ok hrun

theorem Polytype.specialize_performs {s : Session} {scheme : Polytype}
    (hs : s.table.Scoped fun _ => True) (hb : scheme.body.Forall s.table.Owns fun _ => True)
    (level : Nat) :
    ∃ ty m s', s.perform (scheme.specialize level) = (.ok ty, s') ∧
      Copy.Instances scheme.level level s.table (fun _ => False) m s'.table ∧
      Ty.Image (fun _ => Copy.Instanced scheme.level m) .positive scheme.body ty ∧
      ∀ v c, s.table.Owns v → m.find? v = some c → s.table.Reaches scheme.level scheme.body v := by
  obtain ⟨ty, m, s', hrun, hi, hc, hreach⟩ := scheme.specialize_copies hs hb level
  exact ⟨ty, m, s', hrun, hi, hc.image, hreach⟩

namespace Copy.Instances

variable {limit level : Nat} {t t' : BoundTable} {m : VarMap Var}

theorem toExtends {begun : Var → Prop} (h : Instances limit level t begun m t') :
    t.Extends t' := by
  refine ⟨h.owns, fun p v => ?_⟩
  by_cases hv : v.id < t.size
  · obtain ⟨w, hw, hid⟩ := BoundTable.exists_owns hv
    have hsame : t'.bounds p v = t.bounds p v := by
      rw [← t.bounds_congr p hid, ← t'.bounds_congr p hid, h.bounds hw]
    exact hsame ▸ List.suffix_refl _
  · rw [BoundTable.bounds_of_size_le (Nat.le_of_not_lt hv)]
    exact List.nil_suffix

theorem var_cases (h : Instances limit level t (fun _ => False) m t') {v : Var}
    (hv : t'.Owns v) : t.Owns v ∨ ∃ w, t.Owns w ∧ limit < w.level ∧ m.find? w = some v ∧
      v.level = level ∧ Completed limit m t t' w v := by
  rcases h.cover hv with hv | ⟨w, hw, hm⟩
  · exact .inl hv
  · obtain ⟨x, hx, hid, hlt, -, -, hl, hc⟩ := h.origin hm
    obtain rfl := hx.eq hw hid
    exact .inr ⟨x, hx, hlt, hm, hl, hc.resolve_left id⟩

theorem copy_forall {begun : Var → Prop} (h : Instances limit level t begun m t')
    {names : List String → Prop} {p : Polarity} {b b' : Ty}
    (hi : Ty.Image (fun _ => Instanced limit m) p b b') (hb : b.Forall t.Owns names) :
    b'.Forall t'.Owns names := by
  refine hi.forall_right hb fun q v c hv hc => ?_
  rcases hc with ⟨-, rfl⟩ | ⟨-, hc⟩
  · exact h.owns hv
  · obtain ⟨_, -, -, -, -, ho, -⟩ := h.origin hc
    exact ho

theorem copy_level_le {begun : Var → Prop} (h : Instances limit level t begun m t')
    (hle : limit ≤ level) {p : Polarity} {b b' : Ty}
    (hi : Ty.Image (fun _ => Instanced limit m) p b b') : b'.level ≤ level := by
  refine hi.level_le fun q v c hc => ?_
  rcases hc with ⟨hv, rfl⟩ | ⟨-, hc⟩
  · exact hv.trans hle
  · obtain ⟨_, -, -, -, -, -, hl, -⟩ := h.origin hc
    exact hl.le

theorem inScope (h : Instances limit level t (fun _ => False) m t')
    {names : List String → Prop} (ht : t.Scoped names) : t'.Scoped names := by
  intro p v b hb
  obtain ⟨w, hw, hid⟩ := BoundTable.exists_owns (BoundTable.lt_size_of_mem_bounds hb)
  rw [← t'.bounds_congr p hid] at hb
  rcases h.var_cases hw with hw | ⟨x, hx, -, -, -, hc⟩
  · rw [h.bounds hw] at hb
    exact (ht p w b hb).imp (fun _ => h.owns) fun _ => id
  · obtain ⟨b', hb', hi⟩ := forall₂_exists_left (hc.images p p) hb
    exact h.copy_forall hi (ht p x b' hb')

theorem leveled (h : Instances limit level t (fun _ => False) m t') (hle : limit ≤ level)
    (ht : t.Leveled) : t'.Leveled := by
  intro p v hv b hb
  rcases h.var_cases hv with hv | ⟨w, -, -, -, hl, hc⟩
  · rw [h.bounds hv] at hb
    exact ht p v hv b hb
  · obtain ⟨b', -, hi⟩ := forall₂_exists_left (hc.images p p) hb
    exact hl ▸ h.copy_level_le hle hi

end Copy.Instances
end Biunify
