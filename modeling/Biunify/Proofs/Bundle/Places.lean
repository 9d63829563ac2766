import Biunify.Proofs.Bundle.Material
import Biunify.Proofs.VarMap
import Mathlib.Data.Set.Finite.List

/-! The bundles that a bundle leads to: it absorbs the bounds of its variables, and so does
every bundle below it. New ones may come up on the way without end in sight, as bounds are
combined that no type combines; but they are all made of what the types have, and no deeper.
So there are finitely many. -/

namespace Biunify

/-- What is directly below a place that is read at `p`, and the polarity it is read at. -/
inductive Layer.Child {α : Type} (l : Layer α) (p : Polarity) : Polarity → α → Prop
  | elem {elems : List α} (h : l.tuple = some elems) {a : α} (ha : a ∈ elems) : l.Child p p a
  | field {fields : List (String × α)} (h : l.record = some fields) {f : String × α}
    (hf : f ∈ fields) : l.Child p p f.2
  | param {f : α × α} (h : l.func = some f) : l.Child p p.flip f.1
  | result {f : α × α} (h : l.func = some f) : l.Child p p f.2

theorem Layer.MadeOf.child {α : Type} {m : Material} {below : α → Prop} {l : Layer α}
    (h : l.MadeOf m below) {p q : Polarity} {a : α} (ha : l.Child p q a) : below a := by
  cases ha with
  | elem he ha => exact (h.tuple he).2 _ ha
  | field hr hf => exact ((h.record hr).2 _ hf).2
  | param hf => exact (h.func hf).1
  | result hf => exact (h.func hf).2

/-- The bundles met from one that is read at `p`, with the polarities they are read at. -/
inductive BoundTable.Meets (t : BoundTable) (p : Polarity) (b : Bundle) : Polarity → Bundle → Prop
  | start : t.Meets p b p b
  | down {q r : Polarity} {c d : Bundle} (h : t.Meets p b q c)
    (hd : (c.absorb t q).layer.Child q r d) : t.Meets p b r d

def BoundTable.MeetsBelow (t : BoundTable) (p : Polarity) (b : Bundle) (q : Polarity) (c : Bundle) :
    Prop :=
  ∃ r d, (b.absorb t p).layer.Child p r d ∧ t.Meets r d q c

theorem BoundTable.MeetsBelow.down {t : BoundTable} {p q r : Polarity} {b c d : Bundle}
    (h : t.MeetsBelow p b q c) (hd : (c.absorb t q).layer.Child q r d) : t.MeetsBelow p b r d := by
  obtain ⟨r', d', hchild, hmeets⟩ := h
  exact ⟨r', d', hchild, hmeets.down hd⟩

theorem BoundTable.Meets.of_below {t : BoundTable} {p q r : Polarity} {b c d : Bundle}
    (h : t.Meets p b q c) (hd : t.MeetsBelow q c r d) : t.Meets p b r d := by
  obtain ⟨r', d', hchild, hmeets⟩ := hd
  induction hmeets with
  | start => exact h.down hchild
  | down _ he ih => exact ih.down he

namespace Bundle

variable {m : Material} {t : BoundTable} {types : Set Ty}

theorem MadeOf.child {depth : Nat} {b c : Bundle} (h : b.MadeOf m depth) {p q : Polarity}
    (hc : b.layer.Child p q c) : c.MadeOf m depth := by
  cases depth with
  | zero => cases h
  | succ depth => exact (Layer.MadeOf.child h hc).mono (Nat.le_succ depth)

theorem MadeOf.vars {depth : Nat} {b : Bundle} (h : b.MadeOf m depth) :
    ∀ v ∈ b.layer.vars.items, m.var v := by
  cases depth with
  | zero => cases h
  | succ depth => exact Layer.MadeOf.vars h

theorem MadeOf.names {depth : Nat} {b : Bundle} (h : b.MadeOf m depth)
    {fields : List (String × Bundle)} (hr : b.layer.record = some fields) :
    ∀ f ∈ fields, m.name f.1 := by
  cases depth with
  | zero => cases h
  | succ depth => exact fun f hf => ((Layer.MadeOf.record h hr).2 f hf).1

theorem exists_depth (h : m.Covers t types) {ty : Ty} (hty : ty ∈ types) (p : Polarity) :
    ∃ depth, ∀ q c, t.Meets p (ofTy t p ty) q c →
      c.MadeOf m depth ∧ (c.absorb t q).MadeOf m depth := by
  obtain ⟨depth, hdepth⟩ := (t.finite_bounds.image Ty.size).bddAbove
  refine ⟨ty.size + depth, fun q c hc => ?_⟩
  have hbounds : ∀ q v, ∀ b ∈ t.bounds q v, (ofTy t q b).MadeOf m (ty.size + depth) := by
    intro q v b hb
    have hsize : b.size ≤ depth := hdepth (Set.mem_image_of_mem _ ⟨q, v, hb⟩)
    exact madeOf_ofTy h (h.bounds hb) q (by omega)
  have hmet : c.MadeOf m (ty.size + depth) := by
    induction hc with
    | start => exact madeOf_ofTy h hty p (Nat.le_add_right _ _)
    | down _ hd ih => exact (ih.absorb (hbounds _)).child hd
  exact ⟨hmet, hmet.absorb (hbounds q)⟩

section Scoped

variable {names : List String → Prop} (hs : t.Scoped names) {ty : Ty}
  (hty : ty.Forall t.Owns names) {p q : Polarity} {c : Bundle} (hc : t.Meets p (ofTy t p ty) q c)

include hs hty hc

theorem lt_size_of_meets : ∀ v ∈ (c.absorb t q).layer.vars.items, v.id < t.size := by
  have hcovers : Material.Covers ⟨t.Owns, fun _ => True, fun _ => True⟩ t
      {ty | ty.Forall t.Owns names} := Material.covers_of_scoped hs fun _ _ _ => trivial
  obtain ⟨depth, hdepth⟩ := exists_depth hcovers hty p
  exact fun v hv => BoundTable.Owns.lt_size ((hdepth q c hc).2.vars v hv)

theorem names_of_meets {name : String → Prop} (hname : ∀ {ns}, names ns → ∀ n ∈ ns, name n)
    {fields : List (String × Bundle)} (hr : (c.absorb t q).layer.record = some fields) :
    ∀ f ∈ fields, name f.1 := by
  have hcovers : Material.Covers ⟨t.Owns, name, fun _ => True⟩ t {ty | ty.Forall t.Owns names} :=
    Material.covers_of_scoped hs hname
  obtain ⟨depth, hdepth⟩ := exists_depth hcovers hty p
  exact (hdepth q c hc).2.names hr

end Scoped

section Finite

theorem finite_lists {α : Type} {s : Set α} (hs : s.Finite) (n : Nat) :
    {as : List α | as.length ≤ n ∧ ∀ a ∈ as, a ∈ s}.Finite := by
  have := hs.to_subtype
  refine ((List.finite_length_le s n).image (List.map Subtype.val)).subset ?_
  rintro as ⟨hn, has⟩
  exact ⟨as.attach.map fun a => ⟨a.1, has a.1 a.2⟩, by simpa using hn, by simp⟩

theorem finite_nodup_lists {α : Type} {s : Set α} (hs : s.Finite) :
    {as : List α | as.Nodup ∧ ∀ a ∈ as, a ∈ s}.Finite := by
  refine (finite_lists hs hs.toFinset.toList.length).subset fun as ⟨hnodup, has⟩ => ⟨?_, has⟩
  have hsub : as ⊆ hs.toFinset.toList := fun a ha => by simpa using has a ha
  exact (List.subperm_of_subset hnodup hsub).length_le

theorem finite_options {α : Type} {s : Set α} (hs : s.Finite) :
    {o : Option α | ∀ {a}, o = some a → a ∈ s}.Finite := by
  refine ((hs.image some).insert none).subset fun o ho => ?_
  cases o with
  | none => exact Set.mem_insert _ _
  | some a => exact Set.mem_insert_of_mem _ ⟨a, ho rfl, rfl⟩

theorem finite_varSets {P : Var → Prop} (hv : {v | P v}.Finite) :
    {s : VarSet | ∀ v ∈ s.items, P v}.Finite := by
  have hinj : Function.Injective VarSet.items := fun s s' h => by
    cases s
    cases s'
    congr
  refine Set.Finite.of_finite_image ((finite_nodup_lists hv).subset ?_) hinj.injOn
  rintro _ ⟨s, hs, rfl⟩
  exact ⟨s.ascending.nodup Ordered.linear_nat, hs⟩

instance : Finite BaseSet := by
  refine Finite.of_injective (fun s => (s.bool, s.float, s.int, s.string)) fun s s' h => ?_
  cases s
  cases s'
  simpa using h

theorem finite_madeOf (hv : {v | m.var v}.Finite) (hn : {n | m.name n}.Finite)
    (ha : {k | m.arity k}.Finite) (depth : Nat) : {b | MadeOf m depth b}.Finite := by
  induction depth with
  | zero => exact Set.finite_empty
  | succ depth ih =>
    obtain ⟨most, hmost⟩ := ha.bddAbove
    have hvars := finite_varSets hv
    have htuples := finite_options (finite_lists ih most)
    have hrecords := finite_options (finite_nodup_lists (hn.prod ih))
    have hfuncs := finite_options (ih.prod ih)
    have hbases : (Set.univ : Set BaseSet).Finite := Set.finite_univ
    have htops : (Set.univ : Set Bool).Finite := Set.finite_univ
    refine ((hvars.prod (hbases.prod (htuples.prod (hrecords.prod (hfuncs.prod htops))))).image
      fun parts => node ⟨parts.1, parts.2.1, parts.2.2.1, parts.2.2.2.1, parts.2.2.2.2.1,
        parts.2.2.2.2.2⟩).subset ?_
    rintro ⟨vars, bases, tuple, record, func, top⟩ h
    refine ⟨(vars, bases, tuple, record, func, top), ⟨h.vars, trivial, fun he => ?_, fun hr => ?_,
      h.func, trivial⟩, rfl⟩
    · exact ⟨hmost (h.tuple he).1, (h.tuple he).2⟩
    · exact ⟨(h.record hr).1.nodup Ordered.linear_string, (h.record hr).2⟩

end Finite

end Bundle

namespace Ty

def fieldNames : Ty → List String
  | record _ fields => fields.map Prod.fst
  | _ => []

def partsWith (ty : Ty) (t : BoundTable) : Set Ty :=
  {a | PartOf a ty ∨ ∃ p v, ∃ b ∈ t.bounds p v, PartOf a b}

theorem finite_partsWith (ty : Ty) (t : BoundTable) : (ty.partsWith t).Finite := by
  have hbounds := t.finite_bounds.biUnion fun b _ => b.finite_partOf
  refine (ty.finite_partOf.union hbounds).subset ?_
  rintro a (ha | ⟨p, v, b, hb, ha⟩)
  · exact .inl ha
  · exact .inr (Set.mem_biUnion ⟨p, v, hb⟩ ha)

theorem covers_partsWith (ty : Ty) (t : BoundTable) :
    Material.Covers
      { var v := var v ∈ ty.partsWith t
        name n := ∃ a ∈ ty.partsWith t, n ∈ a.fieldNames
        arity k := ∃ a ∈ ty.partsWith t, a.children.length = k } t (ty.partsWith t) where
  var h := h
  tuple h := ⟨_, h, rfl⟩
  record h f hf := ⟨_, h, List.mem_map_of_mem hf⟩
  children := by
    rintro a (ha | ⟨p, v, b, hb, ha⟩) c hc
    · exact .inl (.head hc ha)
    · exact .inr ⟨p, v, b, hb, .head hc ha⟩
  bounds {p v b} hb := .inr ⟨p, v, b, hb, .refl⟩

end Ty

/-- However the bounds are tied together, a type leads to finitely many bundles. -/
theorem BoundTable.finite_meets (t : BoundTable) (p : Polarity) (ty : Ty) :
    {b | ∃ q, t.Meets p (.ofTy t p ty) q b}.Finite := by
  have hfin := ty.finite_partsWith t
  obtain ⟨depth, hdepth⟩ := Bundle.exists_depth (ty.covers_partsWith t) (.inl .refl) p
  refine (Bundle.finite_madeOf ?_ ?_ ?_ depth).subset fun b ⟨q, hb⟩ => (hdepth q b hb).1
  · exact hfin.preimage fun v _ w _ h => Ty.var.inj h
  · refine (hfin.biUnion fun a _ => List.finite_toSet a.fieldNames).subset ?_
    rintro n ⟨a, ha, hn⟩
    exact Set.mem_biUnion ha hn
  · exact hfin.image fun a => a.children.length

/-! New variables have no bounds, so they change nothing about how bundles absorb bounds. -/

namespace BoundTable

theorem weight_addVar (t : BoundTable) (level : Nat) : (t.addVar level).weight = t.weight := by
  simp [weight, addVar, Ty.sizeElems]

theorem followTurn_addVar (t : BoundTable) (level : Nat) (p : Polarity) :
    (t.addVar level).followTurn p = t.followTurn p := by
  have hlinks : (t.addVar level).links p = t.links p := by
    funext v
    rw [links, bounds_addVar, links]
  funext s
  unfold followTurn
  rw [hlinks]

theorem AddsVars.linkedVars_eq {t t' : BoundTable} (h : t.AddsVars t') (p : Polarity) (v : Var) :
    t'.linkedVars p v = t.linkedVars p v := by
  refine h.keeps (P := fun t' => t'.linkedVars p v = t.linkedVars p v) (fun t' level ht' => ?_) rfl
  rw [linkedVars, weight_addVar, followTurn_addVar, ← ht', linkedVars]

end BoundTable

namespace Bundle

theorem ofTy_eq_of_addsVars {t t' : BoundTable} (h : t.AddsVars t') (p : Polarity) (ty : Ty) :
    ofTy t' p ty = ofTy t p ty := by
  induction ty generalizing p with
  | base b => rfl
  | var v => rw [ofTy, h.linkedVars_eq, ofTy]
  | arrow n q r ihq ihr => rw [ofTy, ihq, ihr, ofTy]
  | tuple n ts ih =>
    have hmap : ts.map (ofTy t' p) = ts.map (ofTy t p) :=
      List.map_congr_left fun ty hty => ih ty hty p
    rw [ofTy, ofTy, ofElems_eq, ofElems_eq, hmap]
  | record n fs ih =>
    have hmap : fs.map (fun f => (f.1, ofTy t' p f.2)) = fs.map fun f => (f.1, ofTy t p f.2) :=
      List.map_congr_left fun f hf => Prod.ext rfl (ih f hf p)
    rw [ofTy, ofTy, ofFields_eq, ofFields_eq, hmap]

theorem absorb_eq_of_addsVars {t t' : BoundTable} (h : t.AddsVars t') (p : Polarity) (b : Bundle) :
    b.absorb t' p = b.absorb t p := by
  simp only [absorb, h.bounds_eq, ofTy_eq_of_addsVars h]

end Bundle
end Biunify
