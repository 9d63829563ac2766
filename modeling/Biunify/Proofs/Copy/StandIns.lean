import Biunify.Copy.Relevel
import Biunify.Proofs.Copy.Traversal
import Biunify.Proofs.VarMap

/-! What bringing types down to a level does to a table. Every deeper variable that is
met gets one stand-in for each polarity it is met at. The stand-in becomes the newest
bound of the variable on the one side; on the other side it has copies of the bounds
that the variable had when it was met. Where a variable is met both ways, its two
stand-ins are linked to each other. -/

namespace Biunify
namespace Copy

def Replaced (limit : Nat) (m : PolarMap Var) (p : Polarity) (v c : Var) : Prop :=
  v.level ≤ limit ∧ c = v ∨ limit < v.level ∧ m.find? p v = some c

def gained (m m' : PolarMap Var) (p : Polarity) (v : Var) : List Ty :=
  match m.find? p.flip v, m'.find? p.flip v with
  | none, some c => [.var c]
  | _, _ => []

def StandsFor (m : PolarMap Var) (p : Polarity) (v c : Var) : Prop := m.find? p v = some c

/-- `c` is a stand-in of `v` that has all its bounds: copies of the bounds of `v` on side
`p`, but for the other stand-in of `v` if that one is newer. -/
structure Filled (limit : Nat) (m : PolarMap Var) (t : BoundTable) (p : Polarity)
    (v c : Var) : Prop where
  owns : t.Owns c
  level : c.level = limit
  other : t.bounds p.flip c = []
  copies : ∃ old, List.Forall₂ (Ty.CopyOf limit (StandsFor m) p) old (t.bounds p c) ∧
    (t.bounds p v = old ∧ (∀ d, m.find? p.flip v = some d → d.id < c.id) ∨
      ∃ d, m.find? p.flip v = some d ∧ c.id < d.id ∧ t.bounds p v = .var d :: old)
  linked : ∀ {d}, m.find? p.flip v = some d →
    .var d ∈ t.bounds p c ∨ .var c ∈ t.bounds p.flip d

/-- The stand-ins of `m'` that are not in `m` were added to the table, and nothing else. -/
structure StandIns (limit : Nat) (m : PolarMap Var) (t : BoundTable) (m' : PolarMap Var)
    (t' : BoundTable) : Prop where
  size_le : t.size ≤ t'.size
  count_le : m.size ≤ m'.size
  owns : ∀ {v}, t.Owns v → t'.Owns v
  keeps : ∀ {p v c}, m.find? p v = some c → m'.find? p v = some c
  bounds : ∀ {v}, t.Owns v → ∀ p, t'.bounds p v = gained m m' p v ++ t.bounds p v
  origin : ∀ {p v c}, m.find? p v = none → m'.find? p v = some c →
    ∃ w, t.Owns w ∧ w.id = v.id ∧ limit < w.level ∧ t.size ≤ c.id ∧ Filled limit m' t' p w c
  cover : ∀ {c}, t'.Owns c →
    t.Owns c ∨ ∃ p v, t.Owns v ∧ m.find? p v = none ∧ m'.find? p v = some c
  distinct : ∀ {p q v w c}, m.find? p v = none → m'.find? p v = some c →
    m.find? q w = none → m'.find? q w = some c → p = q ∧ v.id = w.id

namespace StandIns

variable {limit : Nat} {m m' : PolarMap Var} {t t' : BoundTable}

theorem gained_self (m : PolarMap Var) (p : Polarity) (v : Var) : gained m m p v = [] := by
  rw [gained]
  cases m.find? p.flip v <;> rfl

theorem refl (limit : Nat) (m : PolarMap Var) (t : BoundTable) : StandIns limit m t m t where
  size_le := Nat.le_refl _
  count_le := Nat.le_refl _
  owns := id
  keeps := id
  bounds := fun _ _ => by rw [gained_self, List.nil_append]
  origin := fun hn hs => by rw [hn] at hs; cases hs
  cover := .inl
  distinct := fun hn hs => by rw [hn] at hs; cases hs

theorem owns_of_lt (h : StandIns limit m t m' t') {v : Var} (hv : t'.Owns v)
    (hlt : v.id < t.size) : t.Owns v := by
  obtain ⟨w, hw, hid⟩ := BoundTable.exists_owns hlt
  exact (h.owns hw).eq hv hid ▸ hw

theorem toExtends (h : StandIns limit m t m' t') : t.Extends t' := by
  refine ⟨h.owns, fun p v => ?_⟩
  by_cases hv : v.id < t.size
  · obtain ⟨w, hw, hid⟩ := BoundTable.exists_owns hv
    rw [← t.bounds_congr p hid, ← t'.bounds_congr p hid, h.bounds hw]
    exact List.suffix_append _ _
  · rw [BoundTable.bounds_of_size_le (Nat.le_of_not_lt hv)]
    exact List.nil_suffix

theorem owns_of_deep (h : StandIns limit m t m' t') {v : Var} (hv : t'.Owns v)
    (hlt : limit < v.level) : t.Owns v := by
  rcases h.cover hv with hv | ⟨p, w, -, hn, hs⟩
  · exact hv
  · obtain ⟨_, -, -, -, -, hf⟩ := h.origin hn hs
    exact absurd hf.level (Nat.ne_of_gt hlt)

theorem gained_of_unmet {p : Polarity} {v : Var}
    (h : ∀ c, m.find? p.flip v = none → m'.find? p.flip v ≠ some c) : gained m m' p v = [] := by
  rw [gained]
  cases hn : m.find? p.flip v with
  | some d => rfl
  | none =>
    cases hs : m'.find? p.flip v with
    | none => rfl
    | some d => exact absurd hs (h d hn)

theorem gained_of_level_le (h : StandIns limit m t m' t') {v : Var} (hv : t.Owns v)
    (hle : v.level ≤ limit) (p : Polarity) : gained m m' p v = [] := by
  -- variables up to the limit are not met, so they gain nothing
  refine gained_of_unmet fun d hn hs => ?_
  obtain ⟨w, hw, hid, hlt, -⟩ := h.origin hn hs
  exact absurd (hw.eq hv hid ▸ hlt) (Nat.not_lt.mpr hle)

theorem bounds_of_level_le (h : StandIns limit m t m' t') {v : Var} (hv : t.Owns v)
    (hle : v.level ≤ limit) (p : Polarity) : t'.bounds p v = t.bounds p v := by
  rw [h.bounds hv, h.gained_of_level_le hv hle, List.nil_append]

theorem mem_bounds (h : StandIns limit m t m' t') {p : Polarity} {v c : Var} (hv : t.Owns v)
    (hn : m.find? p v = none) (hs : m'.find? p v = some c) :
    .var c ∈ t'.bounds p.flip v := by
  rw [h.bounds hv, gained, Polarity.flip_flip, hn, hs]
  exact List.mem_cons_self

theorem gained_trans (h : StandIns limit m t m' t') {m'' : PolarMap Var}
    (hk : ∀ {p v c}, m'.find? p v = some c → m''.find? p v = some c) (p : Polarity) (v : Var) :
    gained m m'' p v = gained m' m'' p v ++ gained m m' p v := by
  simp only [gained]
  cases h₁ : m.find? p.flip v with
  | some c => simp [h.keeps h₁, hk (h.keeps h₁)]
  | none =>
    cases h₂ : m'.find? p.flip v with
    | some c => simp [hk h₂]
    | none => simp

end StandIns

theorem Filled.mono {limit : Nat} {m m' : PolarMap Var} {t t' : BoundTable} {p : Polarity}
    {v c : Var} (hf : Filled limit m t p v c) (h : StandIns limit m t m' t') (hv : t.Owns v)
    (hc : m.find? p v = some c) : Filled limit m' t' p v c := by
  have hb : ∀ q, t'.bounds q c = t.bounds q c :=
    h.bounds_of_level_le hf.owns (Nat.le_of_eq hf.level)
  obtain ⟨old, hold, hbounds⟩ := hf.copies
  refine ⟨h.owns hf.owns, hf.level, (hb _).trans hf.other, ⟨old, ?_, ?_⟩, ?_⟩
  · rw [hb]
    exact hold.imp fun _ _ hi => hi.imp fun _ _ _ _ => h.keeps
  · rw [h.bounds hv, gained]
    rcases hbounds with ⟨hbounds, hage⟩ | ⟨d, hd, hage, hbounds⟩
    · rw [hbounds]
      cases hn : m.find? p.flip v with
      | some d =>
        refine .inl ⟨rfl, fun e he => ?_⟩
        exact Option.some.inj ((h.keeps hn).symm.trans he) ▸ hage d hn
      | none =>
        cases hs : m'.find? p.flip v with
        | none => exact .inl ⟨rfl, fun d hd => by cases hd⟩
        | some d =>
          obtain ⟨_, -, -, -, hsize, -⟩ := h.origin hn hs
          exact .inr ⟨d, rfl, hf.owns.lt_size.trans_le hsize, rfl⟩
    · exact .inr ⟨d, h.keeps hd, hage, by rw [hd, hbounds]; rfl⟩
  · intro d hd
    cases hn : m.find? p.flip v with
    | some e =>
      obtain rfl : e = d := Option.some.inj ((h.keeps hn).symm.trans hd)
      exact (hf.linked hn).imp (hb p ▸ ·) h.toExtends.mem
    | none =>
      -- The other stand-in is the newer one; it was linked when it was filled.
      obtain ⟨w, hw, hid, -, -, hg⟩ := h.origin hn hd
      obtain rfl := hw.eq hv hid
      have hl := hg.linked (d := c) (by rw [Polarity.flip_flip]; exact h.keeps hc)
      rw [Polarity.flip_flip] at hl
      exact hl.symm

namespace StandIns

variable {limit : Nat} {m m' : PolarMap Var} {t t' : BoundTable}

theorem trans {m'' : PolarMap Var} {t'' : BoundTable} (h : StandIns limit m t m' t')
    (h' : StandIns limit m' t' m'' t'') : StandIns limit m t m'' t'' where
  size_le := h.size_le.trans h'.size_le
  count_le := h.count_le.trans h'.count_le
  owns := h'.owns ∘ h.owns
  keeps := h'.keeps ∘ h.keeps
  bounds := fun hv p => by
    rw [h'.bounds (h.owns hv), h.bounds hv, h.gained_trans h'.keeps, List.append_assoc]
  origin := by
    intro p v c hn hs
    cases hn' : m'.find? p v with
    | some d =>
      obtain rfl : d = c := Option.some.inj ((h'.keeps hn').symm.trans hs)
      obtain ⟨w, hw, hid, hlt, hsize, hf⟩ := h.origin hn hn'
      have hd : m'.find? p w = some d := (m'.find?_congr p hid).trans hn'
      exact ⟨w, hw, hid, hlt, hsize, hf.mono h' (h.owns hw) hd⟩
    | none =>
      obtain ⟨w, hw, hid, hlt, hsize, hf⟩ := h'.origin hn' hs
      exact ⟨w, h.owns_of_deep hw hlt, hid, hlt, h.size_le.trans hsize, hf⟩
  cover := by
    intro c hc
    rcases h'.cover hc with hc | ⟨p, v, hv, hn, hs⟩
    · rcases h.cover hc with hc | ⟨p, v, hv, hn, hs⟩
      · exact .inl hc
      · exact .inr ⟨p, v, hv, hn, h'.keeps hs⟩
    · obtain ⟨w, hw, hid, hlt, -⟩ := h'.origin hn hs
      obtain rfl := hw.eq hv hid
      have hn' : m.find? p w = none := by
        cases hm : m.find? p w with
        | none => rfl
        | some d => exact absurd (h.keeps hm) (by rw [hn]; exact nofun)
      exact .inr ⟨p, w, h.owns_of_deep hw hlt, hn', hs⟩
  distinct := by
    -- A stand-in of the first run is a variable of `t'`; one of the second is not.
    have early : ∀ {p v c}, m.find? p v = none → m'.find? p v = some c → c.id < t'.size := by
      intro p v c hn hs
      obtain ⟨_, -, -, -, -, hf⟩ := h.origin hn hs
      exact hf.owns.lt_size
    have late : ∀ {p v c}, m'.find? p v = none → m''.find? p v = some c → t'.size ≤ c.id := by
      intro p v c hn hs
      obtain ⟨_, -, -, -, hsize, -⟩ := h'.origin hn hs
      exact hsize
    intro p q v w c hn hs hn' hs'
    cases hv : m'.find? p v with
    | some d =>
      obtain rfl : d = c := Option.some.inj ((h'.keeps hv).symm.trans hs)
      cases hw : m'.find? q w with
      | some e =>
        obtain rfl : e = d := Option.some.inj ((h'.keeps hw).symm.trans hs')
        exact h.distinct hn hv hn' hw
      | none => exact absurd (early hn hv) (Nat.not_lt.mpr (late hw hs'))
    | none =>
      cases hw : m'.find? q w with
      | some e =>
        obtain rfl : e = c := Option.some.inj ((h'.keeps hw).symm.trans hs')
        exact absurd (early hn' hw) (Nat.not_lt.mpr (late hv hs))
      | none => exact h'.distinct hv hs hw hs'

theorem filled (h : StandIns limit m t m' t') {p : Polarity} {v c : Var} (hv : t.Owns v)
    (hn : m.find? p v = none) (hs : m'.find? p v = some c) :
    limit < v.level ∧ Filled limit m' t' p v c := by
  obtain ⟨w, hw, hid, hlt, -, hf⟩ := h.origin hn hs
  obtain rfl := hw.eq hv hid
  exact ⟨hlt, hf⟩

theorem mem_gained (h : StandIns limit m t m' t') {p : Polarity} {v : Var} {b : Ty}
    (hv : t.Owns v) (hb : b ∈ gained m m' p v) :
    ∃ c, b = .var c ∧ m.find? p.flip v = none ∧ m'.find? p.flip v = some c ∧
      limit < v.level ∧ Filled limit m' t' p.flip v c := by
  rw [gained] at hb
  split at hb
  case h_1 c hn hs =>
    obtain rfl := List.mem_singleton.mp hb
    obtain ⟨hlt, hf⟩ := h.filled hv hn hs
    exact ⟨c, rfl, hn, hs, hlt, hf⟩
  case h_2 => cases hb

theorem bound_cases (h : StandIns limit m t m' t') {p : Polarity} {v : Var} {b : Ty}
    (hb : b ∈ t'.bounds p v) (hv : t'.Owns v) :
    t.Owns v ∧ b ∈ t.bounds p v ∨
    t.Owns v ∧ b ∈ gained m m' p v ∨
    ∃ w, t.Owns w ∧ m.find? p w = none ∧ m'.find? p w = some v ∧ v.level = limit ∧
      ∃ b' ∈ t'.bounds p w, Ty.Image (Replaced limit m') p b' b := by
  rcases h.cover hv with hv | ⟨q, w, hw, hn, hs⟩
  · rw [h.bounds hv] at hb
    rcases List.mem_append.mp hb with hb | hb
    · exact .inr (.inl ⟨hv, hb⟩)
    · exact .inl ⟨hv, hb⟩
  · obtain ⟨-, hf⟩ := h.filled hw hn hs
    have hq : q = p := by
      by_contra hne
      have hflip : p = q.flip := by cases p <;> cases q <;> simp_all [Polarity.flip]
      rw [hflip, hf.other] at hb
      cases hb
    subst hq
    obtain ⟨old, hold, hbounds⟩ := hf.copies
    obtain ⟨b', hb', hc⟩ := forall₂_exists_left hold hb
    refine .inr (.inr ⟨w, hw, hn, hs, hf.level, b', ?_, hc.image⟩)
    rcases hbounds with ⟨hbounds, -⟩ | ⟨d, -, -, hbounds⟩
    · exact hbounds ▸ hb'
    · exact hbounds ▸ List.mem_cons_of_mem _ hb'

theorem inScope (h : StandIns limit m t m' t') {names : List String → Prop}
    (hm : ∀ {p v c}, m.find? p v = some c → t.Owns c) (ht : t.Scoped names) :
    t'.Scoped names := by
  have hm' : ∀ {p v c}, m'.find? p v = some c → t'.Owns c := by
    intro p v c hs
    cases hn : m.find? p v with
    | some d => exact Option.some.inj ((h.keeps hn).symm.trans hs) ▸ h.owns (hm hn)
    | none =>
      obtain ⟨_, -, -, -, -, hf⟩ := h.origin hn hs
      exact hf.owns
  have old : ∀ p v b, t.Owns v → b ∈ t'.bounds p v → b.Forall t'.Owns names := by
    intro p v b hv hb
    rw [h.bounds hv] at hb
    rcases List.mem_append.mp hb with hb | hb
    · obtain ⟨c, rfl, -, hs, -⟩ := h.mem_gained hv hb
      exact hm' hs
    · exact (ht p v b hb).imp (fun _ => h.owns) fun _ => id
  intro p v b hb
  obtain ⟨w, hw, hid⟩ := BoundTable.exists_owns (BoundTable.lt_size_of_mem_bounds hb)
  rw [← t'.bounds_congr p hid] at hb
  rcases h.bound_cases hb hw with ⟨hw, -⟩ | ⟨hw, -⟩ | ⟨x, hx, -, -, -, b', hb', hi⟩
  · exact old p w b hw hb
  · exact old p w b hw hb
  · refine hi.forall_right (old p x b' hx hb') fun q y c hy hc => ?_
    rcases hc with ⟨-, rfl⟩ | ⟨-, hc⟩
    · exact hy
    · exact hm' hc

theorem leveled (h : StandIns limit m t m' t')
    (hm : ∀ {p v c}, m.find? p v = some c → c.level = limit) (ht : t.Leveled) :
    t'.Leveled := by
  have hm' : ∀ {p v c}, m'.find? p v = some c → c.level = limit := by
    intro p v c hs
    cases hn : m.find? p v with
    | some d => exact Option.some.inj ((h.keeps hn).symm.trans hs) ▸ hm hn
    | none =>
      obtain ⟨_, -, -, -, -, hf⟩ := h.origin hn hs
      exact hf.level
  intro p v hv b hb
  rcases h.bound_cases hb hv with ⟨hv, hb⟩ | ⟨hv, hb⟩ | ⟨w, -, -, -, hlevel, b', -, hi⟩
  · exact ht p v hv b hb
  · obtain ⟨c, rfl, -, hs, hlt, -⟩ := h.mem_gained hv hb
    exact (hm' hs).le.trans hlt.le
  · rw [hlevel]
    refine hi.level_le fun q x c hc => ?_
    rcases hc with ⟨hle, rfl⟩ | ⟨-, hc⟩
    · exact hle
    · exact (hm' hc).le

theorem filled_of_find (h : StandIns limit .empty t m' t') {p : Polarity} {v c : Var}
    (hv : t.Owns v) (hs : m'.find? p v = some c) : limit < v.level ∧ Filled limit m' t' p v c :=
  h.filled hv (PolarMap.find?_empty p v) hs

theorem copy_forall (h : StandIns limit .empty t m' t') {p : Polarity} {b b' : Ty}
    {names : List String → Prop} (hi : Ty.Image (Replaced limit m') p b b')
    (hb : b.Forall t.Owns names) : b'.Forall t'.Owns names := by
  refine hi.forall_right hb fun q v c hv hc => ?_
  rcases hc with ⟨-, rfl⟩ | ⟨-, hc⟩
  · exact h.owns hv
  · exact (h.filled_of_find hv hc).2.owns

theorem copy_level_le (h : StandIns limit .empty t m' t') {p : Polarity} {b b' : Ty}
    (hi : Ty.Image (Replaced limit m') p b b') : b'.level ≤ limit := by
  refine hi.level_le fun q v c hc => ?_
  rcases hc with ⟨hle, rfl⟩ | ⟨-, hc⟩
  · exact hle
  · obtain ⟨_, -, -, -, -, hf⟩ := h.origin (PolarMap.find?_empty q v) hc
    exact hf.level.le

end StandIns

structure Ready (limit n fuel : Nat) (m : PolarMap Var) (t : BoundTable) : Prop where
  inScope : t.Scoped fun _ => True
  entry : ∀ {p v c}, m.find? p v = some c → v.id < n ∧ t.Owns c ∧ c.level = limit
  bound : ∀ {p v c}, t.Owns v → m.find? p v = some c → .var c ∈ t.bounds p.flip v
  shallow : ∀ {v}, t.Owns v → n ≤ v.id → v.level ≤ limit
  size : n ≤ t.size
  fuel : 2 * n + 1 ≤ fuel + m.size

theorem Ready.of_standIns {limit n fuel : Nat} {m m' : PolarMap Var} {t t' : BoundTable}
    (hr : Ready limit n fuel m t) (h : StandIns limit m t m' t') :
    Ready limit n fuel m' t' where
  inScope := h.inScope (fun hs => (hr.entry hs).2.1) hr.inScope
  entry := by
    intro p v c hs
    cases hn : m.find? p v with
    | some d =>
      obtain rfl : d = c := Option.some.inj ((h.keeps hn).symm.trans hs)
      obtain ⟨hlt, hd, hlevel⟩ := hr.entry hn
      exact ⟨hlt, h.owns hd, hlevel⟩
    | none =>
      obtain ⟨w, hw, hid, hlt, -, hf⟩ := h.origin hn hs
      refine ⟨Nat.lt_of_not_le fun hle => ?_, hf.owns, hf.level⟩
      exact absurd (hr.shallow hw (hid ▸ hle)) (Nat.not_le.mpr hlt)
  bound := by
    intro p v c hv hs
    cases hn : m.find? p v with
    | some d =>
      obtain rfl : d = c := Option.some.inj ((h.keeps hn).symm.trans hs)
      have hv := h.owns_of_lt hv ((hr.entry hn).1.trans_le hr.size)
      exact h.toExtends.mem (hr.bound hv hn)
    | none =>
      obtain ⟨w, hw, hid, -⟩ := h.origin hn hs
      obtain rfl := (h.owns hw).eq hv hid
      exact h.mem_bounds hw hn hs
  shallow := by
    intro v hv hn
    rcases h.cover hv with hv | ⟨p, w, hw, hnone, hs⟩
    · exact hr.shallow hv hn
    · exact (h.filled hw hnone hs).2.level.le
  size := hr.size.trans h.size_le
  fuel := hr.fuel.trans (Nat.add_le_add_left h.count_le _)

section Visit

variable {limit : Nat} {m : PolarMap Var} {t : BoundTable} {p : Polarity} {v : Var}

def entered (limit : Nat) (t : BoundTable) (p : Polarity) (v : Var) : BoundTable :=
  (t.addVar limit).addBound p.flip v (.var (t.nextVar limit))

theorem owns_entered {w : Var} :
    (entered limit t p v).Owns w ↔ t.Owns w ∨ w = t.nextVar limit := by
  rw [entered, BoundTable.owns_addBound, BoundTable.owns_addVar]

theorem owns_of_entered_of_deep {w : Var} (hw : (entered limit t p v).Owns w)
    (hlt : limit < w.level) : t.Owns w := by
  rcases owns_entered.mp hw with hw | rfl
  · exact hw
  · exact absurd hlt (Nat.lt_irrefl _)

theorem bounds_entered (hv : t.Owns v) (q : Polarity) (w : Var) :
    (entered limit t p v).bounds q w =
      if w.id = v.id ∧ q = p.flip then .var (t.nextVar limit) :: t.bounds q w
      else t.bounds q w := by
  rw [entered, BoundTable.bounds_addBound ((BoundTable.owns_addVar ..).mpr (.inl hv)),
    BoundTable.bounds_addVar]

theorem bounds_entered_self (hv : t.Owns v) : (entered limit t p v).bounds p v = t.bounds p v := by
  rw [bounds_entered hv, if_neg fun h => p.flip_ne h.2.symm]

theorem entered_extends (hv : t.Owns v) : t.Extends (entered limit t p v) :=
  (BoundTable.Extends.addVar t limit).trans
    (BoundTable.Extends.addBound ((BoundTable.owns_addVar ..).mpr (.inl hv)) _ _)

theorem Ready.enter {n fuel : Nat} (hr : Ready limit n (fuel + 1) m t) (hv : t.Owns v)
    (hlt : limit < v.level) (hn : m.find? p v = none) :
    Ready limit n fuel (m.insert p v (t.nextVar limit)) (entered limit t p v) where
  inScope := by
    intro q w b hb
    have ho : ∀ x, t.Owns x → (entered limit t p v).Owns x := fun x hx => owns_entered.mpr (.inl hx)
    rw [bounds_entered hv] at hb
    split at hb
    case isTrue =>
      rcases List.mem_cons.mp hb with rfl | hb
      · exact owns_entered.mpr (.inr rfl)
      · exact (hr.inScope q w b hb).imp ho fun _ => id
    case isFalse => exact (hr.inScope q w b hb).imp ho fun _ => id
  entry := by
    intro q w c hs
    rw [PolarMap.find?_insert] at hs
    split at hs
    case isTrue h =>
      obtain rfl := Option.some.inj hs
      refine ⟨Nat.lt_of_not_le fun hle => ?_, owns_entered.mpr (.inr rfl), rfl⟩
      exact absurd (hr.shallow hv (h.1 ▸ hle)) (Nat.not_le.mpr hlt)
    case isFalse =>
      obtain ⟨hw, hc, hlevel⟩ := hr.entry hs
      exact ⟨hw, owns_entered.mpr (.inl hc), hlevel⟩
  bound := by
    intro q w c hw hs
    rw [PolarMap.find?_insert] at hs
    split at hs
    case isTrue h =>
      obtain rfl := Option.some.inj hs
      rw [bounds_entered hv, if_pos ⟨h.1, by rw [h.2]⟩]
      exact List.mem_cons_self
    case isFalse =>
      rcases owns_entered.mp hw with hw | rfl
      · exact (entered_extends hv).mem (hr.bound hw hs)
      · exact absurd (hr.entry hs).1 (Nat.not_lt.mpr hr.size)
  shallow := by
    intro w hw hle
    rcases owns_entered.mp hw with hw | rfl
    · exact hr.shallow hw hle
    · exact Nat.le_refl _
  size := by
    have := hr.size
    simp only [entered, BoundTable.size_addBound, BoundTable.size_addVar]
    omega
  fuel := by
    have := hr.fuel
    rw [PolarMap.size_insert hn]
    omega

theorem gained_insert {m' : PolarMap Var} {c : Var} (hn : m.find? p v = none)
    (hk : m'.find? p v = some c) (q : Polarity) (w : Var) :
    gained m m' q w =
      gained (m.insert p v c) m' q w ++ if w.id = v.id ∧ q = p.flip then [.var c] else [] := by
  have hq : q = p.flip ↔ q.flip = p := by cases p <;> cases q <;> decide
  simp only [gained, PolarMap.find?_insert, hq]
  by_cases h : w.id = v.id ∧ q.flip = p
  · obtain ⟨hid, rfl⟩ := h
    rw [m.find?_congr _ hid, m'.find?_congr _ hid, hn, hk]
    simp [hid]
  · simp [h]

structure Visited (limit n fuel : Nat) (m : PolarMap Var) (t : BoundTable) (p : Polarity)
    (v c : Var) (m' : PolarMap Var) (t' : BoundTable) (bs : List Ty) : Prop where
  ready : Ready limit n (fuel + 1) m t
  owns : t.Owns v
  deep : limit < v.level
  unmet : m.find? p v = none
  nextVar : t.nextVar limit = c
  inner : StandIns limit (m.insert p v c) (entered limit t p v) m' t'
  copies : List.Forall₂ (Ty.CopyOf limit (StandsFor m') p) (t.bounds p v) bs

namespace Visited

variable {n fuel : Nat} {c : Var} {m' : PolarMap Var} {t' : BoundTable} {bs : List Ty}
  (h : Visited limit n fuel m t p v c m' t' bs)

include h

theorem id_eq : c.id = t.size := by
  rw [← h.nextVar]
  rfl

theorem level_eq : c.level = limit := by
  rw [← h.nextVar]
  rfl

theorem owns_standIn : (entered limit t p v).Owns c := owns_entered.mpr (.inr h.nextVar.symm)

theorem ne_standIn {w : Var} (hw : t.Owns w) : w.id ≠ c.id := by
  rw [h.id_eq]
  exact hw.lt_size.ne

theorem find?_self : m'.find? p v = some c :=
  h.inner.keeps (by rw [PolarMap.find?_insert, if_pos ⟨rfl, rfl⟩])

theorem bounds_filled (q : Polarity) (w : Var) :
    (t'.setBounds p c bs).bounds q w = if w.id = c.id ∧ q = p then bs else t'.bounds q w :=
  BoundTable.bounds_setBounds (h.inner.owns h.owns_standIn) q p bs w

theorem bounds_filled_of_ne (q : Polarity) {w : Var} (hw : w.id ≠ c.id) :
    (t'.setBounds p c bs).bounds q w = t'.bounds q w := by
  rw [h.bounds_filled, if_neg fun h => hw h.1]

theorem bounds_filled_self : (t'.setBounds p c bs).bounds p c = bs := by
  rw [h.bounds_filled, if_pos ⟨rfl, rfl⟩]

theorem bounds_standIn (q : Polarity) : t'.bounds q c = [] := by
  -- the stand-in is out of reach while it is being filled, so it has no bounds before
  have hq : ¬(c.id = v.id ∧ q = p.flip) := fun hq => h.ne_standIn h.owns hq.1.symm
  rw [h.inner.bounds_of_level_le h.owns_standIn h.level_eq.le, bounds_entered h.owns, if_neg hq]
  exact BoundTable.bounds_of_size_le h.id_eq.ge q

theorem mem_filled {q : Polarity} {w : Var} {b : Ty} (hb : b ∈ t'.bounds q w) :
    b ∈ (t'.setBounds p c bs).bounds q w := by
  rw [h.bounds_filled_of_ne]
  · exact hb
  · intro hw
    rw [t'.bounds_congr q hw, h.bounds_standIn] at hb
    cases hb

theorem lt_of_later {q : Polarity} {w d : Var} (hn : (m.insert p v c).find? q w = none)
    (hs : m'.find? q w = some d) : t.size < d.id := by
  obtain ⟨_, -, -, -, hd, -⟩ := h.inner.origin hn hs
  rw [entered, BoundTable.size_addBound, BoundTable.size_addVar] at hd
  exact hd

theorem filled_later {q : Polarity} {w d : Var} (hw : t.Owns w)
    (hn : (m.insert p v c).find? q w = none) (hs : m'.find? q w = some d) :
    Filled limit m' (t'.setBounds p c bs) q w d := by
  obtain ⟨-, hf⟩ := h.inner.filled (owns_entered.mpr (.inl hw)) hn hs
  have hdc : d.id ≠ c.id := by
    rw [h.id_eq]
    exact (h.lt_of_later hn hs).ne'
  refine ⟨(BoundTable.owns_setBounds ..).mpr hf.owns, hf.level, ?_, ?_, fun he => ?_⟩
  · rw [h.bounds_filled_of_ne _ hdc, hf.other]
  · rw [h.bounds_filled_of_ne _ hdc, h.bounds_filled_of_ne _ (h.ne_standIn hw)]
    exact hf.copies
  · exact (hf.linked he).imp h.mem_filled h.mem_filled

theorem linked {d : Var} (hd : m'.find? p.flip v = some d) :
    .var d ∈ (t'.setBounds p c bs).bounds p c ∨
      .var c ∈ (t'.setBounds p c bs).bounds p.flip d := by
  -- if `v` is met both ways, one of its stand-ins is a bound of the other: the newer one was there
  -- when the bounds of `v` were copied for the older, or the other way round
  have hne : ¬(v.id = v.id ∧ p.flip = p) := fun h => p.flip_ne h.2
  cases hold : m.find? p.flip v with
  | some e =>
    obtain rfl : e = d := Option.some.inj
      ((h.inner.keeps (by rw [PolarMap.find?_insert, if_neg hne, hold])).symm.trans hd)
    have hbound := h.ready.bound h.owns hold
    rw [Polarity.flip_flip] at hbound
    obtain ⟨b, hb, hc⟩ := forall₂_exists_right h.copies hbound
    rw [Ty.copyOf_of_level_le (h.ready.entry hold).2.2.le] at hc
    rw [h.bounds_filled_self]
    exact .inl (hc ▸ hb)
  | none =>
    have hn : (m.insert p v c).find? p.flip v = none := by
      rw [PolarMap.find?_insert, if_neg hne, hold]
    obtain ⟨-, hf⟩ := h.inner.filled (owns_entered.mpr (.inl h.owns)) hn hd
    have hl := hf.linked (by rw [Polarity.flip_flip]; exact h.find?_self)
    rw [Polarity.flip_flip, h.bounds_standIn] at hl
    exact .inr (h.mem_filled (hl.resolve_right nofun))

theorem filled_self : Filled limit m' (t'.setBounds p c bs) p v c := by
  have hov : (entered limit t p v).Owns v := owns_entered.mpr (.inl h.owns)
  have hoc := h.inner.owns h.owns_standIn
  refine ⟨(BoundTable.owns_setBounds ..).mpr hoc, h.level_eq, ?_, ⟨t.bounds p v, ?_, ?_⟩, h.linked⟩
  · rw [h.bounds_filled, if_neg fun h => p.flip_ne h.2, h.bounds_standIn]
  · rw [h.bounds_filled_self]
    exact h.copies
  · rw [h.bounds_filled_of_ne _ (h.ne_standIn h.owns), h.inner.bounds hov,
      bounds_entered_self h.owns, gained]
    cases hn : (m.insert p v c).find? p.flip v with
    | some e =>
      refine .inl ⟨rfl, fun d hd => ?_⟩
      obtain rfl : e = d := Option.some.inj ((h.inner.keeps hn).symm.trans hd)
      rw [PolarMap.find?_insert, if_neg fun h => p.flip_ne h.2] at hn
      exact h.id_eq ▸ (h.ready.entry hn).2.1.lt_size
    | none =>
      cases hs : m'.find? p.flip v with
      | none => exact .inl ⟨rfl, fun d hd => by cases hd⟩
      | some d => exact .inr ⟨d, rfl, h.id_eq ▸ h.lt_of_later hn hs, rfl⟩

theorem new_cases {q : Polarity} {w d : Var} (hn : m.find? q w = none)
    (hs : m'.find? q w = some d) :
    w.id = v.id ∧ q = p ∧ d = c ∨ (m.insert p v c).find? q w = none := by
  by_cases hw : w.id = v.id ∧ q = p
  · obtain ⟨hw, rfl⟩ := hw
    refine .inl ⟨hw, rfl, ?_⟩
    rw [m'.find?_congr _ hw, h.find?_self] at hs
    exact (Option.some.inj hs).symm
  · exact .inr (by rw [PolarMap.find?_insert, if_neg hw, hn])

theorem standIns : StandIns limit m t m' (t'.setBounds p c bs) where
  size_le := by
    have := h.inner.size_le
    rw [entered, BoundTable.size_addBound, BoundTable.size_addVar] at this
    rw [BoundTable.size_setBounds]
    omega
  count_le := by
    have := h.inner.count_le
    rw [PolarMap.size_insert h.unmet] at this
    omega
  owns := fun hw =>
    (BoundTable.owns_setBounds ..).mpr (h.inner.owns (owns_entered.mpr (.inl hw)))
  keeps := by
    intro q w d hs
    refine h.inner.keeps ?_
    rw [PolarMap.find?_insert, if_neg, hs]
    rintro ⟨hw, rfl⟩
    rw [m.find?_congr _ hw, h.unmet] at hs
    cases hs
  bounds := by
    intro w hw q
    rw [h.bounds_filled_of_ne _ (h.ne_standIn hw), h.inner.bounds (owns_entered.mpr (.inl hw)),
      bounds_entered h.owns, gained_insert h.unmet h.find?_self, List.append_assoc, h.nextVar]
    split <;> simp
  origin := by
    intro q w d hn hs
    rcases h.new_cases hn hs with ⟨hw, rfl, rfl⟩ | hn'
    · exact ⟨v, h.owns, hw.symm, h.deep, h.id_eq.ge, h.filled_self⟩
    · obtain ⟨w', hw', hid, hlt, -⟩ := h.inner.origin hn' hs
      rw [← (m.insert p v c).find?_congr q hid] at hn'
      rw [← m'.find?_congr q hid] at hs
      have hw' := owns_of_entered_of_deep hw' hlt
      exact ⟨w', hw', hid, hlt, (h.lt_of_later hn' hs).le, h.filled_later hw' hn' hs⟩
  cover := by
    intro d hd
    rcases h.inner.cover ((BoundTable.owns_setBounds ..).mp hd) with hd | ⟨q, w, hw, hn, hs⟩
    · rcases owns_entered.mp hd with hd | rfl
      · exact .inl hd
      · exact .inr ⟨p, v, h.owns, h.unmet, h.nextVar ▸ h.find?_self⟩
    · have hlt := (h.inner.filled hw hn hs).1
      refine .inr ⟨q, w, owns_of_entered_of_deep hw hlt, ?_, hs⟩
      rw [PolarMap.find?_insert] at hn
      split at hn
      case isTrue => cases hn
      case isFalse => exact hn
  distinct := by
    -- The stand-in of `v` is older than those met while its bounds were copied.
    intro q q' w w' d hn₁ hs₁ hn₂ hs₂
    rcases h.new_cases hn₁ hs₁ with ⟨hw, rfl, rfl⟩ | hn₁
    · rcases h.new_cases hn₂ hs₂ with ⟨hw', rfl, -⟩ | hn₂
      · exact ⟨rfl, hw.trans hw'.symm⟩
      · exact absurd (h.lt_of_later hn₂ hs₂) h.id_eq.not_gt
    · rcases h.new_cases hn₂ hs₂ with ⟨-, -, rfl⟩ | hn₂
      · exact absurd (h.lt_of_later hn₁ hs₁) h.id_eq.not_gt
      · exact h.inner.distinct hn₁ hs₁ hn₂ hs₂

end Visited

end Visit

def ClosedAbove (limit : Nat) (P : Polarity → Var → Prop) (t : BoundTable) : Prop :=
  ∀ p v, t.Owns v → limit < v.level → P p v → ∀ b ∈ t.bounds p v, ∀ q w, b.Mentions p q w →
    limit < w.level → P q w

def AddsFor (limit : Nat) (P : Polarity → Var → Prop) (m : PolarMap Var) (t : BoundTable)
    (m' : PolarMap Var) (t' : BoundTable) : Prop :=
  StandIns limit m t m' t' ∧
    ∀ {p v c}, t.Owns v → m.find? p v = none → m'.find? p v = some c → P p v

section Met

variable {limit : Nat} {P : Polarity → Var → Prop} {m m' m'' : PolarMap Var}
  {t t' t'' : BoundTable}

theorem AddsFor.trans (h : AddsFor limit P m t m' t') (h' : AddsFor limit P m' t' m'' t'') :
    AddsFor limit P m t m'' t'' := by
  refine ⟨h.1.trans h'.1, fun {p v c} hv hn hs => ?_⟩
  cases hn' : m'.find? p v with
  | some d => exact h.2 hv hn hn'
  | none => exact h'.2 (h.1.owns hv) hn' hs

theorem StandIns.closedAbove (h : StandIns limit m t m' t') (ht : ClosedAbove limit P t) :
    ClosedAbove limit P t' := by
  -- stand-ins lie at the limit, so as new bounds they mention nothing above it
  intro p v hv hlt hP b hb q w hw hdeep
  have hv := h.owns_of_deep hv hlt
  rw [h.bounds hv] at hb
  rcases List.mem_append.mp hb with hb | hb
  · obtain ⟨c, rfl, -, -, -, hf⟩ := h.mem_gained hv hb
    cases hw
    exact absurd hf.level hdeep.ne'
  · exact ht p v hv hlt hP b hb q w hw hdeep

theorem closedAbove_entered {v : Var} (hv : t.Owns v) (ht : ClosedAbove limit P t)
    (p : Polarity) : ClosedAbove limit P (entered limit t p v) := by
  intro q w hw hlt hP b hb r x hx hdeep
  have hw := owns_of_entered_of_deep hw hlt
  rw [bounds_entered hv] at hb
  split at hb
  case isTrue =>
    rcases List.mem_cons.mp hb with rfl | hb
    · cases hx
      exact absurd hdeep (Nat.lt_irrefl _)
    · exact ht q w hw hlt hP b hb r x hx hdeep
  case isFalse => exact ht q w hw hlt hP b hb r x hx hdeep

end Met

def standInLaw (limit n : Nat) (P : Polarity → Var → Prop) (fuel : Nat) : Law (PolarMap Var) where
  ready m t := Ready limit n fuel m t ∧ ClosedAbove limit P t
  grows := AddsFor limit P
  within t p v := t.Owns v ∧ (limit < v.level → P p v)
  image := StandsFor
  refl m t := ⟨StandIns.refl limit m t, fun _ hn hs => by rw [hn] at hs; cases hs⟩
  trans _ := AddsFor.trans
  ready_of_grows hr h := ⟨hr.1.of_standIns h.1, h.1.closedAbove hr.2⟩
  within_of_grows h hv := ⟨h.1.owns hv.1, hv.2⟩
  image_of_grows h hc := h.1.keeps hc

theorem standIn_serves (limit n : Nat) (P : Polarity → Var → Prop) (fuel : Nat) :
    (standInLaw limit n P fuel).Serves limit (standIn limit fuel) := by
  induction fuel with
  | zero =>
    rintro p v m s ⟨hr, -⟩ - -
    have hle := PolarMap.size_le fun p v c hs => (hr.entry (p := p) (v := v) (c := c) hs).1
    have := hr.fuel
    omega
  | succ fuel ih =>
    rintro p v m s ⟨hr, hclosed⟩ ⟨hv, hP⟩ hlt
    rw [standIn, Session.perform_copy_bind_of_ok (Session.perform_copy_get s m)]
    cases hn : m.find? p v with
    | some c => exact ⟨c, m, s, rfl, (standInLaw limit n P fuel).refl _ _, hn⟩
    | none =>
      let s₁ : Session := { s with
        table := entered limit s.table p v
        log := .lifted v (s.table.nextVar limit) p :: s.log }
      have hr₁ := Ready.enter hr hv hlt hn
      have hbounds : ∀ b ∈ s.table.bounds p v,
          (standInLaw limit n P fuel).Covers s₁.table p b := by
        intro b hb q w hw
        have howns := hw.of_forall (hr.inScope p v b hb)
        exact ⟨(entered_extends hv).owns howns, hclosed p v hv hlt (hP hlt) b hb q w hw⟩
      obtain ⟨bs, m₂, s₂, hrun, hg, hbs⟩ := Law.copies_elems (p := p)
        (fun b _ => Law.copyable_of_serves ih b) (s := s₁)
        ⟨hr₁, closedAbove_entered hv hclosed p⟩ hbounds
      have hvisited : Visited limit n fuel m s.table p v (s.table.nextVar limit) m₂ s₂.table bs :=
        ⟨hr, hv, hlt, hn, rfl, hg.1, hbs⟩
      refine ⟨s.table.nextVar limit, m₂,
        { s₂ with table := s₂.table.setBounds p (s.table.nextVar limit) bs }, ?_,
        ⟨hvisited.standIns, fun {q w c} hw hnone hs => ?_⟩, hvisited.find?_self⟩
      · have hread : s₁.table.bounds p v = s.table.bounds p v := bounds_entered_self hv
        rw [← hread] at hrun
        iterate 5 rw [Session.perform_copy_bind_of_ok rfl]
        exact (Session.perform_copy_bind_of_ok hrun).trans rfl
      · rcases hvisited.new_cases hnone hs with ⟨hid, rfl, -⟩ | hlater
        · exact hw.eq hv hid ▸ hP hlt
        · exact hg.2 (owns_entered.mpr (.inl hw)) hlater hs

end Copy

theorem Ty.relevel_copies {s : Session} {ty : Ty} (hs : s.table.Scoped fun _ => True)
    (hty : ty.Forall s.table.Owns fun _ => True) (p : Polarity) (level : Nat) :
    ∃ ty' m s', s.perform (ty.relevel p level) = (.ok ty', s') ∧
      Copy.StandIns level .empty s.table m s'.table ∧
      Ty.CopyOf level (Copy.StandsFor m) p ty ty' ∧
      ∀ q v c, s.table.Owns v → m.find? q v = some c → s.table.ReachesAt level p ty q v := by
  have hr : Copy.Ready level s.table.size (2 * s.table.size + 1) .empty s.table := by
    refine ⟨hs, ?_, ?_, fun hv hle => absurd hv.lt_size (Nat.not_lt.mpr hle), Nat.le_refl _,
      Nat.le_refl _⟩ <;> simp
  have hclosed : Copy.ClosedAbove level (s.table.ReachesAt level p ty) s.table :=
    fun _ _ _ _ hv _ hb _ _ => .bound hv hb
  obtain ⟨ty', m, s', hrun, hg, hc⟩ := Copy.Law.copyable_of_serves
    (Copy.standIn_serves level s.table.size (s.table.ReachesAt level p ty) _) ty p .empty s
    ⟨hr, hclosed⟩ fun q v hm => ⟨hm.of_forall hty, .mention hm⟩
  refine ⟨ty', m, s', ?_, hg.1, hc, fun q v c hv => hg.2 hv (PolarMap.find?_empty q v)⟩
  rw [Ty.relevel, Session.perform_bind_of_ok (Session.perform_lift ..)]
  exact Session.perform_bind_of_ok hrun

theorem Ty.relevel_performs {s : Session} {ty : Ty} (hs : s.table.Scoped fun _ => True)
    (hty : ty.Forall s.table.Owns fun _ => True) (p : Polarity) (level : Nat) :
    ∃ ty' m s', s.perform (ty.relevel p level) = (.ok ty', s') ∧
      Copy.StandIns level .empty s.table m s'.table ∧
      Ty.Image (Copy.Replaced level m) p ty ty' ∧
      ∀ q v c, s.table.Owns v → m.find? q v = some c → s.table.Reaches level ty v := by
  obtain ⟨ty', m, s', hrun, hg, hc, hreach⟩ := Ty.relevel_copies hs hty p level
  exact ⟨ty', m, s', hrun, hg, hc.image, fun q v c hv hm => (hreach q v c hv hm).reaches⟩

end Biunify
