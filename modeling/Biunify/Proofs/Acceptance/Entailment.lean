import Biunify.Proofs.Relate.Soundness

/-! What the bounds of a table entail: the least order on types in which the constructors are
monotone and every bound holds. Once the bounds of each variable have met, nothing new follows
between structures: they are below one another by the subtyping rules alone. So the bounds that a
finished run leaves have a solution, the one in which a variable stands for itself. -/

namespace Biunify

namespace Goal.Derived

variable {α : Type} [Preorder α] {R : Reading α} {ρ : Nat → α} {t : BoundTable} {l u : Ty} {v : Var}

theorem layersBelow (h : Derived t (.relate l u)) (hl : l.isVar = false) (hu : u.isVar = false)
    (ht : t.Scoped List.Nodup) (hls : l.Forall t.Owns List.Nodup) (hus : u.Forall t.Owns List.Nodup)
    (hρ : R.Satisfies ρ t) : R.LayersBelow ρ l u := by
  have hvar : ∀ {p : Polarity} {c : Ty} {v : Var}, p.orient relate c (.var v) ≠ .relate l u := by
    intro p c v heq
    have hor := orient_relate_isVar heq
    simp [hl, hu] at hor
  generalize hg : relate l u = g at h
  cases h with
  | alike h =>
    cases hg
    exact Reading.layersBelow_of_alike h hl hls
  | parts h hgoals =>
    cases hg
    exact h.layersBelow fun g hmem => (hgoals g hmem).holds ht (h.forall hls hus g hmem) hρ
  | bound => exact absurd hg.symm hvar
  | standIn => exact absurd hg.symm hvar

theorem exists_lower (h : Derived t (.relate l (.var v))) (hl : l.isVar = false)
    (ht : t.Scoped List.Nodup) (hls : l.Forall t.Owns List.Nodup) (hρ : R.Satisfies ρ t) :
    ∃ b ∈ t.lower v, R.LayersBelow ρ l b := by
  generalize hg : relate l (.var v) = g at h
  replace hg : Polarity.positive.orient relate l (.var v) = g := hg
  induction h generalizing l with
  | alike h =>
    cases hg
    have hvar := (h .positive).isVar_eq
    rw [hl] at hvar
    cases hvar
  | parts h =>
    cases hg
    cases h
  | bound p hb h =>
    obtain ⟨rfl, rfl, rfl⟩ := orient_relate_inj hl hg
    exact ⟨_, hb, Reading.layersBelow_of_alike h hl hls⟩
  | standIn p hn hi _ ih =>
    obtain ⟨rfl, rfl, rfl⟩ := orient_relate_inj hl hg
    have hscope := hi.forall_right hls fun q v c hv hc => hc.owns ht hv
    -- the copy lies above the structure, so a bound above the copy will do
    obtain ⟨b, hb, hbelow⟩ := ih (hi.isVar_eq ▸ hl) hscope rfl
    refine ⟨b, hb, .trans ?_ hbelow⟩
    exact Reading.layersBelow_of_image hi hl hls fun q v c hc => hρ.standIn_le hc

end Goal.Derived

namespace BoundTable

def Point (_ : BoundTable) : Type := Ty

variable {t : BoundTable}

namespace Point

def node : Shape t.Point → t.Point := Ty.ofShape

def var (i : Nat) : t.Point := Ty.var ⟨i, 0⟩

def of (ty : Ty) : t.Point := Ty.free.read (fun i => .var ⟨i, 0⟩) ty

theorem node_inj {x y : Shape t.Point} (h : node x = node y) : x = y := Ty.ofShape_inj h

theorem node_ne_var (x : Shape t.Point) (i : Nat) : node x ≠ var i := Ty.ofShape_ne_var x _

theorem var_inj {i j : Nat} (h : (var i : t.Point) = var j) : i = j := by
  replace h : Ty.var ⟨i, 0⟩ = Ty.var ⟨j, 0⟩ := h
  simpa using h

end Point

structure Admits (t : BoundTable) (le : t.Point → t.Point → Prop) : Prop where
  refl : ∀ a, le a a
  trans : ∀ a b c, le a b → le b c → le a c
  mono : ∀ {x y : Shape t.Point}, x.Below le y → le (.node x) (.node y)
  bound : ∀ p v, ∀ b ∈ t.bounds p v, p.orient le (.of b) (.var v.id)

/-- The bounds leave no choice but to put the one type below the other. -/
def Entails (t : BoundTable) (a b : t.Point) : Prop := ∀ le, t.Admits le → le a b

theorem admits_entails (t : BoundTable) : t.Admits t.Entails where
  refl a le h := h.refl a
  trans a b c hab hbc le h := h.trans a b c (hab le h) (hbc le h)
  mono hxy le h := h.mono (hxy.imp fun _ _ hab => hab le h)
  bound p v b hb := by
    cases p with
    | positive => exact fun le h => h.bound .positive v b hb
    | negative => exact fun le h => h.bound .negative v b hb

instance : Preorder t.Point where
  le := t.Entails
  le_refl := t.admits_entails.refl
  le_trans := t.admits_entails.trans

def reading (t : BoundTable) : Reading t.Point where
  build := Point.node
  mono _ _ := t.admits_entails.mono

theorem read_var_eq (ty : Ty) : t.reading.read Point.var ty = .of ty := by
  induction ty with
  | base b => rfl
  | var v => rfl
  | arrow n p r ihp ihr =>
    rw [Reading.read_arrow, ihp, ihr]
    rfl
  | tuple n ts ih =>
    rw [Reading.read_tuple, List.map_congr_left ih, Point.of, Reading.read_tuple]
    rfl
  | record n fs ih =>
    have hfields : ∀ f ∈ fs, (f.1, t.reading.read Point.var f.2) = (f.1, .of f.2) :=
      fun f hf => congrArg (Prod.mk f.1) (ih f hf)
    rw [Reading.read_record, List.map_congr_left hfields, Point.of, Reading.read_record]
    rfl

theorem reading_satisfies (t : BoundTable) : t.reading.Satisfies Point.var t := by
  rw [Reading.satisfies_iff]
  intro p v b hb
  rw [read_var_eq]
  exact t.admits_entails.bound p v b hb

def Unlinked (t : BoundTable) : Prop := ∀ v, ∀ l ∈ t.lower v, l.isVar = false

/-- Links between variables lead up, and what the bounds of a variable ask of each other has
been worked off. -/
structure Saturated (t : BoundTable) : Prop where
  unlinked : t.Unlinked
  met : t.BoundsMeet fun l u => Goal.Derived t (.relate l u)

inductive Reaching (t : BoundTable) : t.Point → Shape t.Point → Prop
  | node (x : Shape t.Point) : Reaching t (.node x) x
  | lower {v : Var} {b : Ty} {x : Shape t.Point} (hb : b ∈ t.lower v)
    (hx : t.reading.layer Point.var b = some x) : Reaching t (.var v.id) x

theorem reaching_node {x y : Shape t.Point} (h : t.Reaching (.node x) y) : y = x := by
  generalize ha : Point.node x = a at h
  cases h with
  | node => exact (Point.node_inj ha).symm
  | lower => exact absurd ha (Point.node_ne_var x _)

theorem reaching_var {v : Var} {x : Shape t.Point} (h : t.Reaching (.var v.id) x) :
    ∃ b ∈ t.lower v, t.reading.layer Point.var b = some x := by
  generalize ha : (Point.var v.id : t.Point) = a at h
  cases h with
  | node => exact absurd ha.symm (Point.node_ne_var x _)
  | @lower w b _ hb hx =>
    have hlower : t.lower v = t.lower w := t.bounds_congr .positive (Point.var_inj ha)
    exact ⟨b, hlower ▸ hb, hx⟩

theorem Point.of_eq_node {P : Var → Prop} {b : Ty} {x : Shape t.Point} (hb : b.Forall P List.Nodup)
    (hx : t.reading.layer Point.var b = some x) : Point.of b = Point.node x := by
  rw [← read_var_eq]
  exact (Reading.layer_spec hb hx).1

theorem Saturated.reaching_upper (hs : t.Saturated) (ht : t.Scoped List.Nodup) {v : Var} {u : Ty}
    (hu : u ∈ t.upper v) {x : Shape t.Point} (hx : t.Reaching (.var v.id) x) :
    ∃ y, t.Reaching (.of u) y ∧ Shape.Below t.Entails x y := by
  obtain ⟨l, hl, hx⟩ := reaching_var hx
  have hls := ht .positive v l hl
  have hus := ht .negative v u hu
  have hmet := hs.met v l hl u hu
  have hn := hs.unlinked v l hl
  rcases u.var_or_isVar_eq_false with ⟨w, rfl⟩ | hnu
  · obtain ⟨b, hb, x', y, hx', hy, hxy⟩ := hmet.exists_lower hn ht hls t.reading_satisfies
    obtain rfl := Option.some.inj (hx.symm.trans hx')
    exact ⟨y, .lower hb hy, hxy⟩
  · obtain ⟨x', y, hx', hy, hxy⟩ := hmet.layersBelow hn hnu ht hls hus t.reading_satisfies
    obtain rfl := Option.some.inj (hx.symm.trans hx')
    rw [Point.of_eq_node hus hy]
    exact ⟨y, .node y, hxy⟩

theorem Saturated.admits (hs : t.Saturated) (ht : t.Scoped List.Nodup) :
    t.Admits fun a b => t.Entails a b ∧
      ∀ x, t.Reaching a x → ∃ y, t.Reaching b y ∧ Shape.Below t.Entails x y where
  refl a := ⟨le_refl a, fun x hx => ⟨x, hx, .refl t.admits_entails.refl x⟩⟩
  trans a b c hab hbc := by
    refine ⟨t.admits_entails.trans a b c hab.1 hbc.1, fun x hx => ?_⟩
    obtain ⟨y, hy, hxy⟩ := hab.2 x hx
    obtain ⟨z, hz, hyz⟩ := hbc.2 y hy
    exact ⟨z, hz, hxy.trans t.admits_entails.trans hyz⟩
  mono {x y} hxy := by
    have hbelow : Shape.Below t.Entails x y := hxy.imp fun _ _ hab => hab.1
    refine ⟨t.admits_entails.mono hbelow, fun z hz => ⟨y, .node y, ?_⟩⟩
    rw [reaching_node hz]
    exact hbelow
  bound p v b hb := by
    have hentails := t.admits_entails.bound p v b hb
    cases p with
    | positive =>
      -- a lower bound is a structure, so the only layer that reaches it is its own
      obtain ⟨x, hx⟩ := t.reading.exists_layer Point.var (hs.unlinked v b hb)
      refine ⟨hentails, fun y hy => ⟨x, .lower hb hx, ?_⟩⟩
      rw [Point.of_eq_node (ht _ v b hb) hx] at hy
      rw [reaching_node hy]
      exact .refl t.admits_entails.refl x
    | negative => exact ⟨hentails, fun x hx => hs.reaching_upper ht hb hx⟩

/-- A saturated table entails nothing between structures but what the subtyping rules say. -/
def Saturated.exactReading (hs : t.Saturated) (ht : t.Scoped List.Nodup) :
    ExactReading t.Point where
  toReading := t.reading
  exact {x y} _ _ hxy := by
    obtain ⟨y', hy, hbelow⟩ := (hxy _ (hs.admits ht)).2 x (.node x)
    rw [reaching_node hy] at hbelow
    exact hbelow

end BoundTable
end Biunify
