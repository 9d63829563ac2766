import Biunify.Proofs.BundleGraph.Merging
import Biunify.Proofs.Renumbering.Basic

/-! The reduction of a graph goes the same way whatever the ids of its variables are, as long as
their order is the same. All passes are compared step by step; only the reports differ. -/

namespace Biunify

variable (ρ : Nat ↪o Nat)

namespace Occurrence

def renumber : Occurrence → Occurrence
  | var v => var (v.renumber ρ)
  | base b => base b

theorem renumber_beq (o o' : Occurrence) : (o.renumber ρ == o'.renumber ρ) = (o == o') := by
  cases o with
  | var v =>
    cases o' with
    | var w =>
      show ((v.renumber ρ).id == (w.renumber ρ).id) = (v.id == w.id)
      rw [Bool.eq_iff_iff, beq_iff_eq, beq_iff_eq, Var.renumber_id_eq_iff]
    | base b => rfl
  | base a => cases o' <;> rfl

@[simp] theorem contains_renumber (os : List Occurrence) (o : Occurrence) :
    (os.map (renumber ρ)).contains (o.renumber ρ) = os.contains o := by
  rw [List.contains_eq_any_beq, List.contains_eq_any_beq, List.any_map]
  exact congrArg os.any (funext fun o' => renumber_beq ρ o o')

end Occurrence

def Body.renumber : Body → Body
  | plain b => plain (b.renumber ρ)
  | joined lhs rhs p => joined lhs.renumber rhs.renumber p

theorem foldl_of_step {α σ τ : Type} {R : σ → τ → Prop} {step : σ → α → σ} {step' : τ → α → τ}
    {xs : List α} (hstep : ∀ x ∈ xs, ∀ s t, R s t → R (step s x) (step' t x)) {s : σ} {t : τ}
    (h : R s t) : R (xs.foldl step s) (xs.foldl step' t) := by
  induction xs generalizing s t with
  | nil => exact h
  | cons x xs ih =>
    exact ih (fun y hy => hstep y (List.mem_cons_of_mem x hy)) (hstep x List.mem_cons_self s t h)

namespace Census

structure Renumbered (c c' : Census) : Prop where
  vars : c'.vars = c.vars.renumber ρ
  bodies : c'.bodies = c.bodies.renumber ρ (Body.renumber ρ)
  beside : c'.beside = c.beside.renumber ρ (List.map (Occurrence.renumber ρ))

variable {ρ}

theorem ofLayer_renumber {α β : Type} (l : Layer α) (f : α → β) :
    ofLayer (l.renumber ρ f) = (ofLayer l).map (Occurrence.renumber ρ) := by
  rw [ofLayer, ofLayer, List.map_append, List.map_map, List.map_map]
  exact congrArg (· ++ _) (List.map_map ..)

theorem Renumbered.count {c c' : Census} (h : Renumbered ρ c c') (p : Polarity)
    (occs : List Occurrence) (v : Var) : Renumbered ρ (count p occs v c)
      (Census.count p (occs.map (Occurrence.renumber ρ)) (v.renumber ρ) c') := by
  have hvars : c'.vars.insert (v.renumber ρ) = (c.vars.insert v).renumber ρ := by
    rw [h.vars, VarSet.renumber_insert]
  have hfind := congrArg (·.find? p (v.renumber ρ)) h.beside
  simp only [PolarMap.find?_renumber] at hfind
  rw [Census.count, Census.count]
  cases hold : c.beside.find? p v with
  | some old =>
    rw [hold] at hfind
    have hfilter : (old.map (Occurrence.renumber ρ)).filter
        (occs.map (Occurrence.renumber ρ)).contains =
          (old.filter occs.contains).map (Occurrence.renumber ρ) := by
      rw [List.filter_map]
      exact congrArg (List.map _) (List.filter_congr fun o _ => Occurrence.contains_renumber ρ _ o)
    simp only [hfind, Option.map_some, hfilter]
    exact ⟨hvars, h.bodies, by rw [h.beside, PolarMap.renumber_insert]⟩
  | none =>
    rw [hold] at hfind
    simp only [hfind, Option.map_none]
    exact ⟨hvars, h.bodies, by rw [h.beside, PolarMap.renumber_insert]⟩

section Take

variable {enter enter' : Var → Pass} (henter : ∀ v p c c', Renumbered ρ c c' →
  Renumbered ρ (enter v p c) (enter' (v.renumber ρ) p c'))

theorem takeFunc_renumbered {take take' : Bundle → Pass} {l : Layer Bundle} {p : Polarity}
    (hchild : ∀ q b, l.Child p q b → ∀ c c', Renumbered ρ c c' →
      Renumbered ρ (take b q c) (take' (b.renumber ρ) q c')) {c c' : Census}
    (h : Renumbered ρ c c') : Renumbered ρ
      (match (l.map take).func with
        | some f => f.2 p (f.1 p.flip c)
        | none => c)
      (match ((l.renumber ρ (Bundle.renumber ρ)).map take').func with
        | some f => f.2 p (f.1 p.flip c')
        | none => c') := by
  cases hf : l.func with
  | none => simpa [Layer.renumber, Layer.map, hf] using h
  | some f =>
    have hparts := hchild p f.2 (.result hf) _ _ (hchild p.flip f.1 (.param hf) _ _ h)
    simpa [Layer.renumber, Layer.map, hf] using hparts

include henter

theorem takeLayer_renumbered {take take' : Bundle → Pass} {l : Layer Bundle} {p : Polarity}
    (hchild : ∀ q b, l.Child p q b → ∀ c c', Renumbered ρ c c' →
      Renumbered ρ (take b q c) (take' (b.renumber ρ) q c')) {c c' : Census}
    (h : Renumbered ρ c c') : Renumbered ρ (takeLayer enter (l.map take) p c)
      (takeLayer enter' ((l.renumber ρ (Bundle.renumber ρ)).map take') p c') := by
  have hoccs : ofLayer ((l.renumber ρ (Bundle.renumber ρ)).map take') =
      (ofLayer (l.map take)).map (Occurrence.renumber ρ) := ofLayer_renumber l (Bundle.renumber ρ)
  have hvars : Renumbered ρ
      (l.vars.items.foldl (fun c v => enter v p (Census.count p (ofLayer (l.map take)) v c)) c)
      ((l.vars.items.map (Var.renumber ρ)).foldl (fun c v => enter' v p (Census.count p
        ((ofLayer (l.map take)).map (Occurrence.renumber ρ)) v c)) c') := by
    rw [List.foldl_map]
    exact foldl_of_step (fun v _ c c' hc => henter v p _ _ (hc.count p _ v)) h
  have hfields : ∀ {c c'}, Renumbered ρ c c' → Renumbered ρ
      (((l.map take).record.getD []).foldl (fun c f => f.2 p c) c)
      ((((l.renumber ρ (Bundle.renumber ρ)).map take').record.getD []).foldl
        (fun c f => f.2 p c) c') := by
    intro c c' h
    cases hr : l.record with
    | none => simpa [Layer.renumber, Layer.map, hr] using h
    | some fields =>
      have hfold := foldl_of_step (fun f hf => hchild p f.2 (.field hr hf)) h
      simpa [Layer.renumber, Layer.map, hr, List.foldl_map] using hfold
  have helems : ∀ {c c'}, Renumbered ρ c c' → Renumbered ρ
      (((l.map take).tuple.getD []).foldl (fun c pass => pass p c) c)
      ((((l.renumber ρ (Bundle.renumber ρ)).map take').tuple.getD []).foldl
        (fun c pass => pass p c) c') := by
    intro c c' h
    cases ht : l.tuple with
    | none => simpa [Layer.renumber, Layer.map, ht] using h
    | some elems =>
      have hfold := foldl_of_step (fun b hb => hchild p b (.elem ht hb)) h
      simpa [Layer.renumber, Layer.map, ht, List.foldl_map] using hfold
  rw [takeLayer, takeLayer, hoccs]
  exact takeFunc_renumbered hchild (helems (hfields hvars))

theorem takeBundle_renumbered (b : Bundle) (p : Polarity) {c c' : Census}
    (h : Renumbered ρ c c') :
    Renumbered ρ (takeBundle enter b p c) (takeBundle enter' (b.renumber ρ) p c') := by
  induction b generalizing p c c' with
  | node l ih =>
    rw [Bundle.renumber_node, takeBundle_node, takeBundle_node]
    exact takeLayer_renumbered henter (fun q b hb c c' hc => ih p q b hb q hc) h

end Take

theorem takeBody_renumbered (cycles : VarMap Bundle) (fuel : Nat) (v : Var) (p : Polarity)
    {c c' : Census} (h : Renumbered ρ c c') : Renumbered ρ (takeBody cycles fuel v p c)
      (takeBody (cycles.renumber ρ (Bundle.renumber ρ)) fuel (v.renumber ρ) p c') := by
  induction fuel generalizing v p c c' with
  | zero => exact h
  | succ fuel ih =>
    rw [takeBody, takeBody, VarMap.find?_renumber]
    cases cycles.find? v with
    | none => exact h
    | some body =>
      simp only [Option.map_some, h.bodies, VarMap.contains_renumber]
      split_ifs with hmet
      · exact h
      · have hentered := VarMap.renumber_insert ρ (Body.renumber ρ) c.bodies v (.plain body)
        exact takeBundle_renumbered (fun v p c c' => ih v p) body p
          ⟨h.vars, hentered.symm, h.beside⟩

theorem take_renumbered (g : BundleGraph) : Renumbered ρ (take g) (take (g.renumber ρ)) := by
  rw [take, take, BundleGraph.renumber, VarMap.size_renumber, VarMap.keys_renumber]
  refine takeBundle_renumbered (fun v p c c' => takeBody_renumbered g.cycles _ v p) _ _ ?_
  exact ⟨(VarSet.renumber_ofList ρ _).symm, rfl, rfl⟩

end Census

namespace Reduction

structure Renumbered (r r' : Reduction) : Prop where
  bodies : r'.bodies = r.bodies.renumber ρ (Body.renumber ρ)
  beside : r'.beside = r.beside.renumber ρ (List.map (Occurrence.renumber ρ))
  subst : r'.subst = r.subst.renumber ρ (Option.map (Var.renumber ρ))

variable {ρ} {r r' : Reduction} (h : Renumbered ρ r r')

include h

theorem Renumbered.find?_beside (p : Polarity) (v : Var) : r'.beside.find? p (v.renumber ρ) =
    (r.beside.find? p v).map (List.map (Occurrence.renumber ρ)) := by
  rw [h.beside, PolarMap.find?_renumber]

theorem Renumbered.remove (v : Var) (e e' : Event) :
    Renumbered ρ (r.remove v e) (r'.remove (v.renumber ρ) e') := by
  refine ⟨h.bodies, h.beside, ?_⟩
  show r'.subst.insert (v.renumber ρ) none = (r.subst.insert v none).renumber ρ _
  rw [h.subst, VarMap.renumber_insert]
  rfl

theorem Renumbered.dropPolar (v : Var) :
    Renumbered ρ (r.dropPolar v) (r'.dropPolar (v.renumber ρ)) := by
  have hside : ∀ p, r'.beside.contains p (v.renumber ρ) = r.beside.contains p v := by
    intro p
    have hfind := congrArg Option.isSome (h.find?_beside p v)
    rwa [Option.isSome_map] at hfind
  rw [Reduction.dropPolar, Reduction.dropPolar, h.bodies, VarMap.contains_renumber, hside, hside]
  split_ifs
  · exact h
  · cases r.beside.contains .positive v <;> cases r.beside.contains .negative v
    · exact h
    · exact h.remove v _ _
    · exact h.remove v _ _
    · exact h

theorem Renumbered.mergeable (v w : Var) (p : Polarity) :
    r'.mergeable (v.renumber ρ) (w.renumber ρ) p = r.mergeable v w p := by
  have hid : ((w.renumber ρ).id != (v.renumber ρ).id) = (w.id != v.id) := by
    rw [Bool.eq_iff_iff, bne_iff_ne, bne_iff_ne, ne_eq, ne_eq, Var.renumber_id_eq_iff]
  rw [Reduction.mergeable, Reduction.mergeable, hid, h.subst, h.bodies, h.find?_beside]
  simp only [VarMap.contains_renumber]
  cases r.beside.find? p w with
  | none => rfl
  | some os => exact congrArg (_ && ·) (Occurrence.contains_renumber ρ os (.var v))

theorem Renumbered.shareBeside (v w : Var) (p : Polarity) :
    shareBeside (v.renumber ρ) (w.renumber ρ) p r'.beside =
      (Reduction.shareBeside v w p r.beside).renumber ρ (List.map (Occurrence.renumber ρ)) := by
  rw [Reduction.shareBeside, Reduction.shareBeside, h.find?_beside, h.find?_beside]
  cases r.beside.find? p w with
  | none => exact h.beside
  | some ws =>
    cases r.beside.find? p v with
    | none => exact h.beside
    | some vs =>
      simp only [Option.map_some]
      rw [PolarMap.renumber_insert, ← h.beside, List.filter_map]
      refine congrArg (fun os => r'.beside.insert p _ (List.map _ os)) ?_
      refine List.filter_congr fun o _ => ?_
      rw [Function.comp_apply, Occurrence.contains_renumber]
      exact congrArg (· || _) (Occurrence.renumber_beq ρ o (.var v))

theorem Renumbered.joinBodies (v w : Var) (p : Polarity) :
    joinBodies (v.renumber ρ) (w.renumber ρ) p r'.bodies =
      (Reduction.joinBodies v w p r.bodies).renumber ρ (Body.renumber ρ) := by
  rw [Reduction.joinBodies, Reduction.joinBodies, h.bodies, VarMap.find?_renumber,
    VarMap.find?_renumber]
  cases r.bodies.find? w with
  | none => exact (VarMap.renumber_erase ρ _ _ w).symm
  | some wBody =>
    cases r.bodies.find? v with
    | none => exact (VarMap.renumber_erase ρ _ _ w).symm
    | some vBody =>
      simp only [Option.map_some]
      rw [VarMap.renumber_insert, VarMap.renumber_erase]
      rfl

theorem Renumbered.mergeInto (v w : Var) (p : Polarity) :
    Renumbered ρ (r.mergeInto v w p) (r'.mergeInto (v.renumber ρ) (w.renumber ρ) p) := by
  rw [Reduction.mergeInto, Reduction.mergeInto, h.mergeable]
  by_cases hm : r.mergeable v w p = true
  · rw [if_pos hm, if_pos hm]
    refine ⟨h.joinBodies v w p, ?_, ?_⟩
    · show (if r'.bodies.contains (w.renumber ρ) = true then _ else _) = _
      rw [h.bodies, VarMap.contains_renumber]
      split_ifs
      · exact h.beside
      · exact h.shareBeside v w p.flip
    · show r'.subst.insert (w.renumber ρ) (some (v.renumber ρ)) = _
      rw [h.subst]
      exact (VarMap.renumber_insert ρ (Option.map (Var.renumber ρ)) r.subst w (some v)).symm
  · rw [if_neg hm, if_neg hm]
    exact h

theorem Renumbered.weigh (v : Var) (p : Polarity) (o : Occurrence) :
    Renumbered ρ (r.weigh v p o) (r'.weigh (v.renumber ρ) p (o.renumber ρ)) := by
  cases o with
  | var w => exact h.mergeInto v w p
  | base b =>
    rw [Reduction.weigh, Occurrence.renumber, Reduction.weigh, h.find?_beside]
    cases r.beside.find? p.flip v with
    | none => exact h
    | some os =>
      have hcontains := Occurrence.contains_renumber ρ os (.base b)
      rw [Occurrence.renumber] at hcontains
      simp only [Option.map_some, hcontains]
      split_ifs
      · exact h.remove v _ _
      · exact h

theorem Renumbered.weighSide (v : Var) (p : Polarity) :
    Renumbered ρ (r.weighSide v p) (r'.weighSide (v.renumber ρ) p) := by
  rw [Reduction.weighSide, Reduction.weighSide, h.find?_beside]
  cases r.beside.find? p v with
  | none => exact h
  | some os =>
    rw [Option.map_some, Option.getD_some, Option.getD_some, List.foldl_map]
    exact foldl_of_step (fun o _ r r' hr => hr.weigh v p o) h

theorem Renumbered.unify (v : Var) :
    Renumbered ρ (r.unify v) (r'.unify (v.renumber ρ)) := by
  rw [Reduction.unify, Reduction.unify, h.subst, VarMap.contains_renumber]
  split_ifs
  · exact h
  · exact (h.weighSide v .positive).weighSide v .negative

theorem Renumbered.onVar (v : Var) :
    r'.onVar (v.renumber ρ) = (r.onVar v).map (Var.renumber ρ) := by
  rw [Reduction.onVar, Reduction.onVar, h.subst, VarMap.find?_renumber]
  cases r.subst.find? v <;> rfl

theorem Renumbered.onBundle (b : Bundle) :
    r'.onBundle (b.renumber ρ) = (r.onBundle b).renumber ρ := by
  induction b with
  | node l ih =>
    rw [Bundle.renumber_node, onBundle_node, onBundle_node, Bundle.renumber_node]
    have hvars : VarSet.ofList ((l.vars.renumber ρ).items.filterMap r'.onVar) =
        (VarSet.ofList (l.vars.items.filterMap r.onVar)).renumber ρ := by
      rw [VarSet.renumber_ofList, VarSet.renumber, List.filterMap_map, List.map_filterMap]
      refine congrArg (fun f => VarSet.ofList (l.vars.items.filterMap f)) (funext fun v => ?_)
      exact h.onVar v
    have hbelow : (l.map (Bundle.renumber ρ)).map r'.onBundle =
        (l.map r.onBundle).map (Bundle.renumber ρ) := by
      rw [Layer.map_map, Layer.map_map]
      exact Layer.map_congr .positive fun q b hb => ih .positive q b hb
    show Bundle.node { (l.map (Bundle.renumber ρ)).map r'.onBundle with
      vars := .ofList ((l.vars.renumber ρ).items.filterMap r'.onVar) } = _
    rw [hvars, hbelow]
    rfl

omit h in
theorem ofGraph_renumbered (g : BundleGraph) :
    Renumbered ρ (ofGraph g) (ofGraph (g.renumber ρ)) := by
  have hcensus := Census.take_renumbered (ρ := ρ) g
  have horder : (Census.take (g.renumber ρ)).vars.items.reverse =
      (Census.take g).vars.items.reverse.map (Var.renumber ρ) := by
    rw [hcensus.vars, List.map_reverse]
    rfl
  have hstart : Renumbered ρ (ofCensus (Census.take g)) (ofCensus (Census.take (g.renumber ρ))) :=
    ⟨hcensus.bodies, hcensus.beside, rfl⟩
  rw [ofGraph, ofGraph, horder, List.foldl_map, List.foldl_map]
  exact foldl_of_step (fun v _ r r' hr => hr.unify v)
    (foldl_of_step (fun v _ r r' hr => hr.dropPolar v) hstart)

end Reduction

theorem BundleGraph.reduce_renumber {ρ : Nat ↪o Nat} {g : BundleGraph} (hg : g.Tidy) :
    (g.renumber ρ).reduce = g.reduce.renumber ρ := by
  have h := Reduction.ofGraph_renumbered (ρ := ρ) g
  obtain ⟨live, cls, hr⟩ := Reduction.ofGraph_consistent hg
  -- In a tidy graph no two bodies become one.
  have hplain : ∀ entry ∈ (Reduction.ofGraph g).bodies.items, ∃ b, entry.2 = .plain b := by
    intro entry hentry
    have hfind := VarMap.find?_eq_some_iff.mpr ⟨entry.1, hentry, rfl⟩
    rw [hr.bodies] at hfind
    obtain ⟨b, -, hb⟩ := (Census.take_fits g).bodies hfind
    exact ⟨b, hb⟩
  have hbodies : (Reduction.ofGraph (g.renumber ρ)).bodies.map
      (Reduction.ofGraph (g.renumber ρ)).onBody =
        ((Reduction.ofGraph g).bodies.map (Reduction.ofGraph g).onBody).renumber ρ
          (Bundle.renumber ρ) := by
    refine VarMap.eq_of_items_eq ?_
    rw [h.bodies]
    simp only [VarMap.map, VarMap.renumber, List.map_map]
    refine List.map_congr_left fun entry hentry => ?_
    obtain ⟨b, hb⟩ := hplain entry hentry
    simp only [Function.comp_apply, hb]
    exact Prod.ext rfl (h.onBundle b)
  rw [reduce, reduce, Reduction.onGraph, Reduction.onGraph, hbodies]
  exact congrArg (BundleGraph.mk · _) (h.onBundle g.root)

end Biunify
