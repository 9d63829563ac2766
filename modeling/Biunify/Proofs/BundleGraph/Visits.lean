import Biunify.BundleGraph.ToTypeExpr
import Biunify.Proofs.BoundTable.Bounds
import Biunify.Proofs.BundleGraph.Occurs
import Biunify.Proofs.Perform
import Biunify.Proofs.VarMap

/-! Reading a graph as a type expression, step by step: what is read at each place, with the
places that are still being read and the next fresh id as the only state. The reading always
comes to an end, as no place is entered twice on a path. -/

namespace Biunify
namespace BundleGraph

inductive Item where
  | var (v : Var)
  | bundle (b : Bundle)

namespace Item

def place (p : Polarity) : Item → Place
  | var v => .var v.id p
  | bundle b => .bundle b.key p

def binder (n : Nat) : Item → Nat
  | var v => v.id
  | bundle _ => n

def fresh (n : Nat) : Item → Nat
  | var _ => n
  | bundle _ => n + 1

end Item

end BundleGraph

namespace Layer

open BundleGraph

variable (l : Layer Bundle) (p : Polarity)

def varItems : List (Polarity × Item) := l.vars.items.map fun v => (p, .var v)

def fieldItems : List (Polarity × Item) := (l.record.getD []).map fun f => (p, .bundle f.2)

def elemItems : List (Polarity × Item) := (l.tuple.getD []).map fun b => (p, .bundle b)

def paramItems : List (Polarity × Item) := l.func.toList.map fun f => (p.flip, .bundle f.1)

def resultItems : List (Polarity × Item) := l.func.toList.map fun f => (p, .bundle f.2)

def exprs (vars fields elems params results : List TypeExpr) : List TypeExpr :=
  vars ++ l.bases.toList.map .base
    ++ (l.record.map fun names =>
        TypeExpr.record (names.zipWith (fun f e => (f.1, e)) fields)).toList
    ++ (l.tuple.map fun _ => TypeExpr.tuple elems).toList
    ++ params.zipWith .arrow results

end Layer

namespace BundleGraph

namespace Item

def Occurs (g : BundleGraph) (p : Polarity) : Item → Prop
  | var v => ∃ b, g.Occurs p b ∧ v ∈ b.layer.vars.items
  | bundle b => g.Occurs p b

end Item

section Items

variable {g : BundleGraph} {p : Polarity} {b : Bundle} (hb : g.Occurs p b)

include hb

theorem Occurs.varItems : ∀ x ∈ b.layer.varItems p, x.2.Occurs g x.1 := by
  intro x hx
  obtain ⟨v, hv, rfl⟩ := List.mem_map.mp hx
  exact ⟨b, hb, hv⟩

theorem Occurs.fieldItems : ∀ x ∈ b.layer.fieldItems p, x.2.Occurs g x.1 := by
  intro x hx
  obtain ⟨f, hf, rfl⟩ := List.mem_map.mp hx
  cases hr : b.layer.record with
  | none => simp [hr] at hf
  | some fields =>
    rw [hr] at hf
    exact hb.child (.field hr hf)

theorem Occurs.elemItems : ∀ x ∈ b.layer.elemItems p, x.2.Occurs g x.1 := by
  intro x hx
  obtain ⟨c, hc, rfl⟩ := List.mem_map.mp hx
  cases ht : b.layer.tuple with
  | none => simp [ht] at hc
  | some elems =>
    rw [ht] at hc
    exact hb.child (.elem ht hc)

theorem Occurs.paramItems : ∀ x ∈ b.layer.paramItems p, x.2.Occurs g x.1 := by
  intro x hx
  obtain ⟨f, hf, rfl⟩ := List.mem_map.mp hx
  exact hb.child (.param (Option.mem_toList.mp hf))

theorem Occurs.resultItems : ∀ x ∈ b.layer.resultItems p, x.2.Occurs g x.1 := by
  intro x hx
  obtain ⟨f, hf, rfl⟩ := List.mem_map.mp hx
  exact hb.child (.result (Option.mem_toList.mp hf))

end Items

def findPlace (place : Place) (ps : List Pending) : Option Pending :=
  ps.find? fun f => f.place == place

def close : Option Nat → TypeExpr → TypeExpr
  | some k, e => .recursive k e
  | none, e => e

/-- Reading the items one after the other turns them into the expressions. -/
inductive Visits (g : BundleGraph) : List Pending → Nat → List (Polarity × Item) →
    List TypeExpr → List Pending → Nat → Prop
  | nil {ps : List Pending} {n : Nat} : Visits g ps n [] [] ps n
  | refer {ps ps' : List Pending} {n n' k : Nat} {p : Polarity} {i : Item} {place : Place}
    {is : List (Polarity × Item)} {es : List TypeExpr}
    (hfind : findPlace (i.place p) ps = some ⟨place, some k⟩) (rest : Visits g ps n is es ps' n') :
    Visits g ps n ((p, i) :: is) (.var k :: es) ps' n'
  | name {ps ps' : List Pending} {n n' : Nat} {p : Polarity} {i : Item} {place : Place}
    {is : List (Polarity × Item)} {es : List TypeExpr}
    (hfind : findPlace (i.place p) ps = some ⟨place, none⟩)
    (rest : Visits g (setBinder (i.place p) (i.binder n) ps) (i.fresh n) is es ps' n') :
    Visits g ps n ((p, i) :: is) (.var (i.binder n) :: es) ps' n'
  | leaf {ps ps' : List Pending} {n n' : Nat} {p : Polarity} {v : Var}
    {is : List (Polarity × Item)} {es : List TypeExpr}
    (hfind : findPlace (.var v.id p) ps = none) (hfree : g.cycles.find? v = none)
    (rest : Visits g ps n is es ps' n') :
    Visits g ps n ((p, .var v) :: is) (.var v.id :: es) ps' n'
  | top {ps ps' : List Pending} {n n' : Nat} {p : Polarity} {b : Bundle}
    {is : List (Polarity × Item)} {es : List TypeExpr}
    (hfind : findPlace (.bundle b.key p) ps = none) (htop : b.layer.top = true)
    (rest : Visits g ps n is es ps' n') :
    Visits g ps n ((p, .bundle b) :: is) (.top :: es) ps' n'
  | cycle {ps ps₁ ps' : List Pending} {n n₁ n' : Nat} {p : Polarity} {v : Var} {body : Bundle}
    {k : Option Nat} {e : TypeExpr} {is : List (Polarity × Item)} {es : List TypeExpr}
    (hfind : findPlace (.var v.id p) ps = none) (hbody : g.cycles.find? v = some body)
    (inner : Visits g (⟨.var v.id p, none⟩ :: ps) n [(p, .bundle body)] [e]
      (⟨.var v.id p, k⟩ :: ps₁) n₁)
    (rest : Visits g ps₁ n₁ is es ps' n') :
    Visits g ps n ((p, .var v) :: is) (close k e :: es) ps' n'
  | bundle {ps ps₁ ps₂ ps₃ ps₄ ps₅ ps' : List Pending} {n n₁ n₂ n₃ n₄ n₅ n' : Nat} {p : Polarity}
    {b : Bundle} {k : Option Nat} {vs fs ts as rs : List TypeExpr}
    {is : List (Polarity × Item)} {es : List TypeExpr}
    (hfind : findPlace (.bundle b.key p) ps = none) (htop : b.layer.top = false)
    (vars : Visits g (⟨.bundle b.key p, none⟩ :: ps) n (b.layer.varItems p) vs ps₁ n₁)
    (fields : Visits g ps₁ n₁ (b.layer.fieldItems p) fs ps₂ n₂)
    (elems : Visits g ps₂ n₂ (b.layer.elemItems p) ts ps₃ n₃)
    (params : Visits g ps₃ n₃ (b.layer.paramItems p) as ps₄ n₄)
    (results : Visits g ps₄ n₄ (b.layer.resultItems p) rs (⟨.bundle b.key p, k⟩ :: ps₅) n₅)
    (rest : Visits g ps₅ n₅ is es ps' n') :
    Visits g ps n ((p, .bundle b) :: is)
      (close k (ofParts p (b.layer.exprs vs fs ts as rs)) :: es) ps' n'

theorem map_place_setBinder (place : Place) (k : Nat) (ps : List Pending) :
    (setBinder place k ps).map Pending.place = ps.map Pending.place := by
  induction ps with
  | nil => rfl
  | cons f rest ih =>
    rw [setBinder]
    split_ifs with h
    · rw [List.map_cons, List.map_cons, h]
    · rw [List.map_cons, List.map_cons, ih]

def binderOf (place : Place) (ps : List Pending) : Option Nat :=
  (findPlace place ps).bind Pending.binder

theorem findPlace_cons (place : Place) (f : Pending) (ps : List Pending) :
    findPlace place (f :: ps) = if f.place = place then some f else findPlace place ps := by
  rw [findPlace, List.find?_cons]
  by_cases h : f.place = place
  · rw [if_pos h, beq_iff_eq.mpr h]
  · rw [if_neg h, beq_eq_false_iff_ne.mpr h]
    rfl

theorem binderOf_cons (place : Place) (f : Pending) (ps : List Pending) :
    binderOf place (f :: ps) = if f.place = place then f.binder else binderOf place ps := by
  rw [binderOf, findPlace_cons]
  split_ifs <;> rfl

theorem binderOf_setBinder (place other : Place) (k : Nat) (ps : List Pending) :
    binderOf other (setBinder place k ps) =
      if other = place ∧ (findPlace place ps).isSome = true then some k else binderOf other ps := by
  induction ps with
  | nil => simp [setBinder, findPlace]
  | cons f rest ih =>
    rw [setBinder, findPlace_cons]
    by_cases hf : f.place = place
    · rw [if_pos hf, if_pos hf, binderOf_cons, binderOf_cons]
      simp only [hf, eq_comm, Option.isSome_some, and_true]
      split_ifs <;> rfl
    · rw [if_neg hf, if_neg hf, binderOf_cons, binderOf_cons, ih]
      by_cases ho : f.place = other
      · rw [if_pos ho, if_pos ho, if_neg fun h => hf (ho.trans h.1)]
      · rw [if_neg ho, if_neg ho]

namespace Visits

variable {g : BundleGraph} {ps ps' ps'' : List Pending} {n n' n'' : Nat}
  {is js : List (Polarity × Item)} {es fs : List TypeExpr}

theorem map_place (h : g.Visits ps n is es ps' n') :
    ps'.map Pending.place = ps.map Pending.place := by
  induction h with
  | nil => rfl
  | refer _ _ ih | leaf _ _ _ ih | top _ _ _ ih => exact ih
  | name _ _ ih => rw [ih, map_place_setBinder]
  | cycle _ _ _ _ ihinner ih =>
    rw [List.map_cons, List.map_cons] at ihinner
    rw [ih, (List.cons.inj ihinner).2]
  | bundle _ _ _ _ _ _ _ _ ihv ihf iht iha ihr ih =>
    rw [iha, iht, ihf, ihv, List.map_cons, List.map_cons] at ihr
    rw [ih, (List.cons.inj ihr).2]

theorem length_eq (h : g.Visits ps n is es ps' n') : es.length = is.length := by
  induction h with
  | nil => rfl
  | refer _ _ ih | leaf _ _ _ ih | top _ _ _ ih | name _ _ ih | cycle _ _ _ _ _ ih
  | bundle _ _ _ _ _ _ _ _ _ _ _ _ _ ih => rw [List.length_cons, List.length_cons, ih]

theorem le (h : g.Visits ps n is es ps' n') : n ≤ n' := by
  induction h with
  | nil => exact Nat.le_refl _
  | refer _ _ ih | leaf _ _ _ ih | top _ _ _ ih => exact ih
  | @name _ _ _ _ _ i _ _ _ _ _ ih =>
    cases i with
    | var v => exact ih
    | bundle b => exact (Nat.le_succ _).trans ih
  | cycle _ _ _ _ ihinner ih => exact ihinner.trans ih
  | bundle _ _ _ _ _ _ _ _ ihv ihf iht iha ihr ih =>
    exact ihv.trans (ihf.trans (iht.trans (iha.trans (ihr.trans ih))))

theorem keeps (h : g.Visits ps n is es ps' n') {place : Place} {k : Nat}
    (hk : binderOf place ps = some k) : binderOf place ps' = some k := by
  -- A place with a binder is not the one that is entered.
  have hother : ∀ {place' : Place} {ps : List Pending}, binderOf place ps = some k →
      findPlace place' ps = none → place' ≠ place := by
    rintro place' ps hk hfind rfl
    rw [binderOf, hfind] at hk
    cases hk
  induction h with
  | nil => exact hk
  | refer _ _ ih | leaf _ _ _ ih | top _ _ _ ih => exact ih hk
  | name hfind _ ih =>
    refine ih ?_
    rw [binderOf_setBinder, if_neg]
    · exact hk
    · rintro ⟨rfl, -⟩
      rw [binderOf, hfind] at hk
      cases hk
  | cycle hfind _ _ _ ihinner ih =>
    have hne := hother hk hfind
    simp only [binderOf_cons, if_neg hne] at ihinner
    exact ih (ihinner hk)
  | bundle hfind _ _ _ _ _ _ _ ihv ihf iht iha ihr ih =>
    have hne := hother hk hfind
    simp only [binderOf_cons, if_neg hne] at ihv ihr
    exact ih (ihr (iha (iht (ihf (ihv hk)))))

theorem append (h : g.Visits ps n is es ps' n') (h' : g.Visits ps' n' js fs ps'' n'') :
    g.Visits ps n (is ++ js) (es ++ fs) ps'' n'' := by
  induction h with
  | nil => exact h'
  | refer hfind _ ih => exact .refer hfind (ih h')
  | name hfind _ ih => exact .name hfind (ih h')
  | leaf hfind hfree _ ih => exact .leaf hfind hfree (ih h')
  | top hfind htop _ ih => exact .top hfind htop (ih h')
  | cycle hfind hbody inner _ _ ih => exact .cycle hfind hbody inner (ih h')
  | bundle hfind htop vars fields elems params results _ _ _ _ _ _ ih =>
    exact .bundle hfind htop vars fields elems params results (ih h')

end Visits

/-- The binders of the places that are being read: a variable is its own, bundles have ids that
are new, each its own. -/
structure Names (g : BundleGraph) (size : Nat) (ps : List Pending) (n : Nat) : Prop where
  le : size ≤ n
  cycle : ∀ {id p}, .var id p ∈ ps.map Pending.place → g.cycles.contains ⟨id, 0⟩ = true
  var : ∀ {id p k}, binderOf (.var id p) ps = some k → k = id
  bundle : ∀ {key p k}, binderOf (.bundle key p) ps = some k → size ≤ k ∧ k < n
  distinct : ∀ {key key' p p' k}, binderOf (.bundle key p) ps = some k →
    binderOf (.bundle key' p') ps = some k → key = key' ∧ p = p'

theorem findPlace_eq_none_iff {place : Place} {ps : List Pending} :
    findPlace place ps = none ↔ place ∉ ps.map Pending.place := by
  simp [findPlace]

theorem mem_of_binderOf {place : Place} {ps : List Pending} {k : Nat}
    (h : binderOf place ps = some k) : place ∈ ps.map Pending.place := by
  by_contra hmem
  rw [binderOf, findPlace_eq_none_iff.mpr hmem] at h
  cases h

namespace Names

variable {g : BundleGraph} {size n : Nat} {ps : List Pending} {place : Place}

theorem push (h : g.Names size ps n)
    (hcycle : ∀ id p, place = .var id p → g.cycles.contains ⟨id, 0⟩ = true) :
    g.Names size (⟨place, none⟩ :: ps) n := by
  have hold : ∀ {other k}, binderOf other (⟨place, none⟩ :: ps) = some k →
      binderOf other ps = some k := by
    intro other k hk
    rw [binderOf_cons] at hk
    split_ifs at hk
    exact hk
  refine ⟨h.le, fun {id p} hmem => ?_, fun hk => h.var (hold hk), fun hk => h.bundle (hold hk),
    fun hk hk' => h.distinct (hold hk) (hold hk')⟩
  rcases List.mem_cons.mp hmem with heq | hmem
  · exact hcycle id p heq.symm
  · exact h.cycle hmem

theorem pushVar {v : Var} {p : Polarity} {body : Bundle} (h : g.Names size ps n)
    (hbody : g.cycles.find? v = some body) : g.Names size (⟨.var v.id p, none⟩ :: ps) n := by
  refine h.push fun id q heq => ?_
  cases heq
  exact VarMap.contains_of_find? hbody rfl

theorem pushBundle {key : String} {p : Polarity} (h : g.Names size ps n) :
    g.Names size (⟨.bundle key p, none⟩ :: ps) n :=
  h.push nofun

theorem pop {k : Option Nat} {ps' : List Pending} (h : g.Names size (⟨place, k⟩ :: ps') n)
    (hplaces : (⟨place, k⟩ :: ps' : List Pending).map Pending.place = place :: ps.map Pending.place)
    (hfind : findPlace place ps = none) : g.Names size ps' n := by
  have hnew : place ∉ ps'.map Pending.place := by
    rw [(List.cons.inj hplaces).2]
    exact findPlace_eq_none_iff.mp hfind
  have hold : ∀ {other k'}, binderOf other ps' = some k' →
      binderOf other (⟨place, k⟩ :: ps') = some k' := by
    intro other k' hk
    rw [binderOf_cons, if_neg]
    · exact hk
    · rintro rfl
      exact hnew (mem_of_binderOf hk)
  exact ⟨h.le, fun hmem => h.cycle (List.mem_cons_of_mem _ hmem), fun hk => h.var (hold hk),
    fun hk => h.bundle (hold hk), fun hk hk' => h.distinct (hold hk) (hold hk')⟩

theorem setVar {id : Nat} {p : Polarity} (h : g.Names size ps n) :
    g.Names size (setBinder (.var id p) id ps) n := by
  have hbundle : ∀ {key q}, binderOf (.bundle key q) (setBinder (.var id p) id ps) =
      binderOf (.bundle key q) ps := by
    intro key q
    rw [binderOf_setBinder, if_neg (by rintro ⟨⟨⟩, -⟩)]
  refine ⟨h.le, fun hmem => h.cycle (map_place_setBinder _ _ ps ▸ hmem), fun {id' q k} hk => ?_,
    fun hk => h.bundle (hbundle ▸ hk), fun hk hk' => h.distinct (hbundle ▸ hk) (hbundle ▸ hk')⟩
  rw [binderOf_setBinder] at hk
  split_ifs at hk with hplace
  · cases hk
    exact (Place.var.inj hplace.1).1.symm
  · exact h.var hk

theorem setBundle {key : String} {p : Polarity} (h : g.Names size ps n) :
    g.Names size (setBinder (.bundle key p) n ps) (n + 1) := by
  have hset : ∀ {key' q k}, binderOf (.bundle key' q) (setBinder (.bundle key p) n ps) = some k →
      (key' = key ∧ q = p) ∧ k = n ∨ binderOf (.bundle key' q) ps = some k := by
    intro key' q k hk
    rw [binderOf_setBinder] at hk
    split_ifs at hk with hplace
    · cases hk
      exact .inl ⟨Place.bundle.inj hplace.1, rfl⟩
    · exact .inr hk
  refine ⟨h.le.trans (Nat.le_succ n), fun hmem => h.cycle (map_place_setBinder _ _ ps ▸ hmem),
    fun {id q k} hk => ?_, fun hk => ?_, fun hk hk' => ?_⟩
  · rw [binderOf_setBinder, if_neg (by rintro ⟨⟨⟩, -⟩)] at hk
    exact h.var hk
  · rcases hset hk with ⟨-, rfl⟩ | hk
    · exact ⟨h.le, Nat.lt_succ_self _⟩
    · exact (h.bundle hk).imp_right Nat.lt_succ_of_lt
  · rcases hset hk with ⟨hplace, rfl⟩ | hold
    · rcases hset hk' with ⟨hplace', -⟩ | hold'
      · exact ⟨hplace.1.trans hplace'.1.symm, hplace.2.trans hplace'.2.symm⟩
      · exact absurd (h.bundle hold').2 (Nat.lt_irrefl _)
    · rcases hset hk' with ⟨hplace', rfl⟩ | hold'
      · exact absurd (h.bundle hold).2 (Nat.lt_irrefl _)
      · exact h.distinct hold hold'

end Names

theorem Visits.names {g : BundleGraph} {size : Nat} {ps ps' : List Pending} {n n' : Nat}
    {is : List (Polarity × Item)} {es : List TypeExpr} (h : g.Visits ps n is es ps' n')
    (hnames : g.Names size ps n) : g.Names size ps' n' := by
  induction h with
  | nil => exact hnames
  | refer _ _ ih | leaf _ _ _ ih | top _ _ _ ih => exact ih hnames
  | @name _ _ _ _ _ i _ _ _ _ _ ih =>
    cases i with
    | var v => exact ih hnames.setVar
    | bundle b => exact ih hnames.setBundle
  | cycle hfind hbody inner _ ihinner ih =>
    exact ih ((ihinner (hnames.pushVar hbody)).pop inner.map_place hfind)
  | bundle hfind _ vars fields elems params results _ ihv ihf iht iha ihr ih =>
    have hplaces := results.map_place.trans (params.map_place.trans (elems.map_place.trans
      (fields.map_place.trans vars.map_place)))
    exact ih ((ihr (iha (iht (ihf (ihv hnames.pushBundle))))).pop hplaces hfind)

def entered (g : BundleGraph) (places : List Place) : List Place :=
  places.filter fun
    | .var id _ => g.cycles.contains ⟨id, 0⟩
    | .bundle _ _ => false

theorem length_entered_le (g : BundleGraph) {places : List Place} (h : places.Nodup) :
    (g.entered places).length ≤ 2 * g.cycles.size := by
  have hsub : g.entered places ⊆ g.cycles.items.flatMap
      fun entry => [.var entry.1.id .positive, .var entry.1.id .negative] := by
    intro place hplace
    obtain ⟨-, hcycle⟩ := List.mem_filter.mp hplace
    cases place with
    | var id p =>
      obtain ⟨body, hbody⟩ := Option.isSome_iff_exists.mp hcycle
      obtain ⟨w, hw, hid⟩ := VarMap.find?_eq_some_iff.mp hbody
      refine List.mem_flatMap.mpr ⟨_, hw, ?_⟩
      cases p <;> simp [hid]
    | bundle key p => cases hcycle
  have hlength := (List.subperm_of_subset (h.filter _) hsub).length_le
  simpa [List.length_flatMap, entered, VarMap.size, Nat.mul_comm] using hlength

structure Room (g : BundleGraph) (fuel : Nat) (places : List Place) : Prop where
  nodup : places.Nodup
  enough : 2 * g.cycles.size + 1 ≤ fuel + (g.entered places).length

theorem Room.pushBundle {g : BundleGraph} {fuel : Nat} {places : List Place} {key : String}
    {p : Polarity} (h : g.Room fuel places) (hnew : .bundle key p ∉ places) :
    g.Room fuel (.bundle key p :: places) :=
  ⟨List.nodup_cons.mpr ⟨hnew, h.nodup⟩, h.enough⟩

theorem Room.pushVar {g : BundleGraph} {fuel id : Nat} {places : List Place} {p : Polarity}
    (h : g.Room (fuel + 1) places) (hnew : .var id p ∉ places)
    (hcycle : g.cycles.contains ⟨id, 0⟩ = true) : g.Room fuel (.var id p :: places) := by
  have hentered : g.entered (.var id p :: places) = .var id p :: g.entered places := by
    rw [entered, List.filter_cons, if_pos hcycle, entered]
  refine ⟨List.nodup_cons.mpr ⟨hnew, h.nodup⟩, ?_⟩
  have := h.enough
  rw [hentered, List.length_cons]
  omega

def Serves {α : Type} (g : BundleGraph) (fuel : Nat) (x : ReadM α) (is : List (Polarity × Item))
    (post : α → List TypeExpr → Prop) : Prop :=
  ∀ (ps : List Pending) (s : Session), g.Room fuel (ps.map Pending.place) → ∃ a es ps' s',
    s.perform (x.run ps) = (.ok (a, ps'), s') ∧ g.Visits ps s.table.size is es ps' s'.table.size ∧
      s.table.AddsVars s'.table ∧ post a es

variable {g : BundleGraph} {fuel : Nat} {p : Polarity}

theorem Serves.mapM {β γ : Type} {f : β → ReadM γ} {item : β → Polarity × Item}
    {pack : β → TypeExpr → γ} {xs : List β}
    (h : ∀ x ∈ xs, g.Serves fuel (f x) [item x] fun c es => es.map (pack x) = [c]) :
    g.Serves fuel (xs.mapM f) (xs.map item) fun cs es => cs = xs.zipWith pack es := by
  induction xs with
  | nil => exact fun ps s _ => ⟨[], [], ps, s, rfl, .nil, .refl _, rfl⟩
  | cons x xs ih =>
    intro ps s hroom
    obtain ⟨c, es, ps₁, s₁, hrun, hvisit, htable, hc⟩ := h x List.mem_cons_self ps s hroom
    obtain ⟨e, rfl⟩ := List.length_eq_one_iff.mp hvisit.length_eq
    obtain rfl := (List.cons.inj hc).1
    obtain ⟨cs, es', ps₂, s₂, hrun', hvisit', htable', rfl⟩ :=
      ih (fun y hy => h y (List.mem_cons_of_mem x hy)) ps₁ s₁ (hvisit.map_place ▸ hroom)
    refine ⟨_, _, ps₂, s₂, ?_, hvisit.append hvisit', htable.trans htable', rfl⟩
    rw [List.mapM_cons, Session.perform_copy_bind_of_ok hrun,
      Session.perform_copy_bind_of_ok hrun']
    rfl

theorem Serves.mapM_self {β : Type} {f : β → ReadM TypeExpr} {item : β → Polarity × Item}
    {xs : List β} (h : ∀ x ∈ xs, g.Serves fuel (f x) [item x] fun c es => es = [c]) :
    g.Serves fuel (xs.mapM f) (xs.map item) fun cs es => cs = es := by
  have hmap : g.Serves fuel (xs.mapM f) (xs.map item) fun cs es =>
      cs = xs.zipWith (fun _ e => e) es := by
    refine Serves.mapM fun x hx ps s hroom => ?_
    obtain ⟨e, es, ps', s', hrun, hvisit, htable, rfl⟩ := h x hx ps s hroom
    exact ⟨e, [e], ps', s', hrun, hvisit, htable, rfl⟩
  intro ps s hroom
  obtain ⟨cs, es, ps', s', hrun, hvisit, htable, rfl⟩ := hmap ps s hroom
  have hlength : es.length ≤ xs.length := by rw [hvisit.length_eq, List.length_map]
  have hsnd := List.map_snd_zip hlength
  rw [List.zip_eq_zipWith, List.map_zipWith] at hsnd
  exact ⟨_, es, ps', s', hrun, hvisit, htable, hsnd⟩

section ReadAt

variable {place : Place} {read : ReadM TypeExpr} {ps : List Pending} (s : Session)

theorem readAt_of_bound {other : Place} {k : Nat}
    (hfind : findPlace place ps = some ⟨other, some k⟩) :
    s.perform ((readAt place read).run ps) = (.ok (.var k, ps), s) := by
  rw [readAt, Session.perform_copy_bind_of_ok (Session.perform_copy_get s ps)]
  rw [findPlace] at hfind
  rw [hfind]
  rfl

theorem readAt_of_pending {other : Place} (hfind : findPlace place ps = some ⟨other, none⟩) :
    s.perform ((readAt place read).run ps) = s.perform (StateT.run (do
      let binder ← newBinder place
      modify (setBinder place binder)
      return .var binder) ps) := by
  rw [readAt, Session.perform_copy_bind_of_ok (Session.perform_copy_get s ps)]
  rw [findPlace] at hfind
  rw [hfind]

theorem readAt_of_new {ps' : List Pending} {s' : Session} {k : Option Nat} {e : TypeExpr}
    (hfind : findPlace place ps = none)
    (hread : s.perform (read.run (⟨place, none⟩ :: ps)) = (.ok (e, ⟨place, k⟩ :: ps'), s')) :
    ∃ log, s.perform ((readAt place read).run ps) =
      (.ok (close k e, ps'), ⟨s'.table, s'.nextNode, log⟩) := by
  rw [readAt, Session.perform_copy_bind_of_ok (Session.perform_copy_get s ps)]
  rw [findPlace] at hfind
  rw [hfind]
  simp only
  rw [Session.perform_copy_bind_of_ok (Session.perform_copy_modify s ps _),
    Session.perform_copy_bind_of_ok hread]
  cases k with
  | none => exact ⟨s'.log, rfl⟩
  | some k => exact ⟨.bound place k :: s'.log, rfl⟩

end ReadAt

theorem readAt_serves {i : Item} {read : ReadM TypeExpr}
    (hopen : ∀ (ps : List Pending) (s : Session), g.Room fuel (ps.map Pending.place) →
      findPlace (i.place p) ps = none → ∃ e ps' k s', s.perform (read.run (⟨i.place p, none⟩ :: ps)) =
          (.ok (e, ⟨i.place p, k⟩ :: ps'), s') ∧
        g.Visits ps s.table.size [(p, i)] [close k e] ps' s'.table.size ∧
        s.table.AddsVars s'.table) :
    g.Serves fuel (readAt (i.place p) read) [(p, i)] fun c es => es = [c] := by
  intro ps s hroom
  rcases hfind : findPlace (i.place p) ps with - | ⟨place, - | k⟩
  · obtain ⟨e, ps', k, s', hrun, hvisit, htable⟩ := hopen ps s hroom hfind
    obtain ⟨log, hrun'⟩ := readAt_of_new s hfind hrun
    exact ⟨_, _, ps', _, hrun', hvisit, htable, rfl⟩
  · rw [readAt_of_pending s hfind]
    cases i with
    | var v => exact ⟨_, _, _, s, rfl, .name hfind .nil, .refl _, rfl⟩
    | bundle b =>
      refine ⟨.var s.table.size, _, _, { s with table := s.table.addVar 0 }, rfl, ?_,
        .addVar s.table 0, rfl⟩
      rw [BoundTable.size_addVar]
      exact .name hfind .nil
  · exact ⟨_, _, ps, s, readAt_of_bound s hfind, .refer hfind .nil, .refl _, rfl⟩

section Layer

variable {l : Layer Bundle} {read : Bundle → Reader}
  (hchild : ∀ q b, l.Child p q b → g.Serves fuel (read b q) [(q, .bundle b)] fun c es => es = [c])

include hchild

theorem readFields_serves :
    g.Serves fuel ((l.map read).record.mapM fun fields => fields.mapM fun f => do
        return (f.1, ← f.2 p)) (l.fieldItems p)
      fun c es => c = l.record.map fun names => names.zipWith (fun f e => (f.1, e)) es := by
  cases hr : l.record with
  | none =>
    intro ps s _
    refine ⟨none, [], ps, s, ?_, ?_, .refl _, rfl⟩
    · simp [Layer.map, hr]
    · simpa [Layer.fieldItems, hr] using Visits.nil
  | some fields =>
    have hfields : g.Serves fuel (fields.mapM fun f => do return (f.1, ← read f.2 p))
        (fields.map fun f => (p, .bundle f.2))
        fun c es => c = fields.zipWith (fun f e => (f.1, e)) es := by
      refine Serves.mapM fun f hf ps s hroom => ?_
      obtain ⟨e, es, ps', s', hrun, hvisit, htable, rfl⟩ := hchild p f.2 (.field hr hf) ps s hroom
      refine ⟨(f.1, e), [e], ps', s', ?_, hvisit, htable, rfl⟩
      rw [Session.perform_copy_bind_of_ok hrun]
      rfl
    intro ps s hroom
    obtain ⟨c, es, ps', s', hrun, hvisit, htable, rfl⟩ := hfields ps s hroom
    refine ⟨some _, es, ps', s', ?_, ?_, htable, rfl⟩
    · simp only [Layer.map, hr, Option.map_some, Option.mapM_some, List.mapM_map,
        map_eq_pure_bind, Function.comp_def]
      rw [Session.perform_copy_bind_of_ok hrun]
      rfl
    · simpa [Layer.fieldItems, hr] using hvisit

theorem readElems_serves :
    g.Serves fuel ((l.map read).tuple.mapM fun elems => elems.mapM fun read => read p)
      (l.elemItems p) fun c es => c = l.tuple.map fun _ => es := by
  cases ht : l.tuple with
  | none =>
    intro ps s _
    refine ⟨none, [], ps, s, ?_, ?_, .refl _, rfl⟩
    · simp [Layer.map, ht]
    · simpa [Layer.elemItems, ht] using Visits.nil
  | some elems =>
    have helems : g.Serves fuel (elems.mapM fun b => read b p) (elems.map fun b => (p, .bundle b))
        fun cs es => cs = es := Serves.mapM_self fun b hb => hchild p b (.elem ht hb)
    intro ps s hroom
    obtain ⟨c, es, ps', s', hrun, hvisit, htable, rfl⟩ := helems ps s hroom
    refine ⟨some c, c, ps', s', ?_, ?_, htable, rfl⟩
    · simp only [Layer.map, ht, Option.map_some, Option.mapM_some, List.mapM_map,
        map_eq_pure_bind, Function.comp_def]
      rw [Session.perform_copy_bind_of_ok hrun]
      rfl
    · simpa [Layer.elemItems, ht] using hvisit

theorem readFunc_serves (ps : List Pending) (s : Session)
    (hroom : g.Room fuel (ps.map Pending.place)) :
    ∃ c as rs ps₁ n₁ ps' s', s.perform (StateT.run ((l.map read).func.mapM fun f => do
        return TypeExpr.arrow (← f.1 p.flip) (← f.2 p)) ps) = (.ok (c, ps'), s') ∧
      g.Visits ps s.table.size (l.paramItems p) as ps₁ n₁ ∧
      g.Visits ps₁ n₁ (l.resultItems p) rs ps' s'.table.size ∧ s.table.AddsVars s'.table ∧
      c.toList = as.zipWith .arrow rs := by
  cases hf : l.func with
  | none =>
    refine ⟨none, [], [], ps, s.table.size, ps, s, ?_, ?_, ?_, .refl _, rfl⟩
    · simp [Layer.map, hf]
    · simpa [Layer.paramItems, hf] using Visits.nil
    · simpa [Layer.resultItems, hf] using Visits.nil
  | some f =>
    obtain ⟨e, _, ps₁, s₁, hrun, hvisit, htable, rfl⟩ := hchild p.flip f.1 (.param hf) ps s hroom
    obtain ⟨e', _, ps₂, s₂, hrun', hvisit', htable', rfl⟩ :=
      hchild p f.2 (.result hf) ps₁ s₁ (hvisit.map_place ▸ hroom)
    refine ⟨some (.arrow e e'), [e], [e'], ps₁, s₁.table.size, ps₂, s₂, ?_, ?_, ?_,
      htable.trans htable', rfl⟩
    · simp only [Layer.map, hf, Option.map_some, Option.mapM_some, map_eq_pure_bind, bind_assoc]
      rw [Session.perform_copy_bind_of_ok hrun, Session.perform_copy_bind_of_ok hrun']
      rfl
    · simpa [Layer.paramItems, hf] using hvisit
    · simpa [Layer.resultItems, hf] using hvisit'

end Layer

theorem readLayer_of_top {visit : Var → Reader} {l : Layer Reader} (h : l.top = false) :
    readLayer visit l p = (do
      let vars ← l.vars.items.mapM fun v => visit v p
      let record ← l.record.mapM fun fields => fields.mapM fun f => return (f.1, ← f.2 p)
      let tuple ← l.tuple.mapM fun elems => elems.mapM fun read => read p
      let func ← l.func.mapM fun f => return TypeExpr.arrow (← f.1 p.flip) (← f.2 p)
      return ofParts p (vars ++ l.bases.toList.map TypeExpr.base ++ (record.map .record).toList
        ++ (tuple.map .tuple).toList ++ func.toList)) := by
  rw [readLayer, h]
  rfl

theorem readBundle_node (visit : Var → Reader) (l : Layer Bundle) (p : Polarity) :
    readBundle visit (.node l) p = readAt (Item.place p (.bundle (.node l)))
      (readLayer visit (l.map (readBundle visit)) p) := by
  rw [readBundle, Bundle.fold_node, Layer.map_map, Layer.map_map, Layer.map_self]
  rfl

theorem readBundle_serves {visit : Var → Reader}
    (hvisit : ∀ v p, g.Serves fuel (visit v p) [(p, .var v)] fun c es => es = [c]) (b : Bundle)
    (p : Polarity) :
    g.Serves fuel (readBundle visit b p) [(p, .bundle b)] fun c es => es = [c] := by
  induction b generalizing p with
  | node l ih =>
    rw [readBundle_node]
    refine readAt_serves fun ps s hroom hfind => ?_
    have hroom' : g.Room fuel ((⟨Item.place p (.bundle (.node l)), none⟩ :: ps : List Pending).map
        Pending.place) := hroom.pushBundle (findPlace_eq_none_iff.mp hfind)
    cases htop : l.top with
    | true =>
      refine ⟨.top, ps, none, s, ?_, .top hfind htop .nil, .refl _⟩
      rw [readLayer]
      simp only [Layer.map, htop]
      rfl
    | false =>
      have hchild : ∀ q d, l.Child p q d → g.Serves fuel (readBundle visit d q) [(q, .bundle d)]
          fun c es => es = [c] := fun q d hd => ih p q d hd q
      have hvars : g.Serves fuel ((l.map (readBundle visit)).vars.items.mapM fun v => visit v p)
          (l.varItems p) fun cs es => cs = es :=
        Serves.mapM_self fun v _ => hvisit v p
      obtain ⟨vs, _, ps₁, s₁, hrun₁, hvs, htable₁, rfl⟩ := hvars _ s hroom'
      obtain ⟨record, fs, ps₂, s₂, hrun₂, hfs, htable₂, hrecord⟩ :=
        readFields_serves hchild ps₁ s₁ (hvs.map_place ▸ hroom')
      have hplaces₂ := hfs.map_place.trans hvs.map_place
      obtain ⟨tuple, ts, ps₃, s₃, hrun₃, hts, htable₃, htuple⟩ :=
        readElems_serves hchild ps₂ s₂ (hplaces₂ ▸ hroom')
      have hplaces₃ := hts.map_place.trans hplaces₂
      obtain ⟨func, as, rs, ps₄, n₄, ps₅, s₅, hrun₅, has, hrs, htable₅, hfunc⟩ :=
        readFunc_serves hchild ps₃ s₃ (hplaces₃ ▸ hroom')
      obtain ⟨⟨_, k⟩, ps', rfl, rfl, -⟩ := List.map_eq_cons_iff.mp
        (hrs.map_place.trans (has.map_place.trans hplaces₃))
      refine ⟨_, ps', k, s₅, ?_, .bundle hfind htop hvs hfs hts has hrs .nil,
        ((htable₁.trans htable₂).trans htable₃).trans htable₅⟩
      have htop' : (l.map (readBundle visit)).top = false := htop
      rw [readLayer_of_top htop', Session.perform_copy_bind_of_ok hrun₁, Session.perform_copy_bind_of_ok hrun₂,
        Session.perform_copy_bind_of_ok hrun₃, Session.perform_copy_bind_of_ok hrun₅,
        Session.perform_copy_pure, hrecord, htuple, hfunc, Layer.exprs, Option.map_map,
        Option.map_map]
      rfl

theorem readVar_serves (fuel : Nat) (v : Var) (p : Polarity) :
    g.Serves fuel (readVar g.cycles fuel v p) [(p, .var v)] fun c es => es = [c] := by
  induction fuel generalizing v p with
  | zero =>
    intro ps s hroom
    have hle := g.length_entered_le hroom.nodup
    have henough := hroom.enough
    omega
  | succ fuel ih =>
    rw [readVar]
    refine readAt_serves (i := .var v) fun ps s hroom hfind => ?_
    cases hbody : g.cycles.find? v with
    | none => exact ⟨.var v.id, ps, none, s, rfl, .leaf hfind hbody .nil, .refl _⟩
    | some body =>
      have hroom' := hroom.pushVar (findPlace_eq_none_iff.mp hfind)
        (VarMap.contains_of_find? hbody rfl)
      obtain ⟨e, _, ps', s', hrun, hvisit, htable, rfl⟩ :=
        readBundle_serves ih body p (⟨.var v.id p, none⟩ :: ps) s hroom'
      obtain ⟨⟨_, k⟩, ps', rfl, rfl, -⟩ := List.map_eq_cons_iff.mp hvisit.map_place
      exact ⟨e, ps', k, s', hrun, .cycle hfind hbody hvisit .nil, htable⟩

theorem toTypeExpr_visits (g : BundleGraph) (s : Session) : ∃ e s',
    s.perform g.toTypeExpr = (.ok e, s') ∧ s.table.AddsVars s'.table ∧
      g.Visits [] s.table.size [(.positive, .bundle g.root)] [e] [] s'.table.size := by
  have hroom : g.Room (2 * g.cycles.size + 1) [] := ⟨.nil, Nat.le_refl _⟩
  obtain ⟨e, _, ps', s', hrun, hvisit, htable, rfl⟩ :=
    readBundle_serves (readVar_serves _) g.root .positive [] s hroom
  obtain rfl := List.map_eq_nil_iff.mp hvisit.map_place
  refine ⟨e, s', ?_, htable, hvisit⟩
  rw [toTypeExpr, Session.perform_bind_of_ok hrun]
  rfl

end BundleGraph
end Biunify
