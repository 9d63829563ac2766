import Biunify.Proofs.Bundle.Key
import Biunify.Proofs.BundleGraph.Orderly
import Biunify.Proofs.BundleGraph.Visits
import Biunify.Proofs.TypeExpr.WellFormed

/-! What an orderly graph is read as is well formed. A variable with a body is entered right
after the bundle that it is alone in, so only bundles are ever met again and get a binder, each
a fresh one. A binder that is not under a constructor would be that of a body, which then has
the key of the variable it is the body of; but no body starts with such a variable. -/

namespace Biunify

theorem BaseSet.pairwise_toList (s : BaseSet) : s.toList.Pairwise (·.name < ·.name) := by
  have hall : BaseTy.all.Pairwise (·.name < ·.name) := by decide
  exact hall.filter _

namespace Layer

variable {l : Layer Bundle} {vs fs ts as rs : List TypeExpr}

theorem mem_exprs {m : TypeExpr} (h : m ∈ l.exprs vs fs ts as rs) :
    m ∈ vs ∨ (∃ b, m = .base b) ∨ (∃ fields, m = .record fields ∧ ∀ f ∈ fields, f.2 ∈ fs) ∨
      m = .tuple ts ∨ ∃ a ∈ as, ∃ r ∈ rs, m = .arrow a r := by
  simp only [exprs, List.mem_append, List.mem_map, Option.mem_toList,
    Option.map_eq_some_iff] at h
  rcases h with (((h | ⟨b, -, rfl⟩) | ⟨names, -, rfl⟩) | ⟨-, -, rfl⟩) | h
  · exact .inl h
  · exact .inr (.inl ⟨b, rfl⟩)
  · refine .inr (.inr (.inl ⟨_, rfl, fun f hf => ?_⟩))
    obtain ⟨i, hi, rfl⟩ := List.mem_iff_getElem.mp hf
    rw [List.getElem_zipWith]
    exact List.getElem_mem _
  · exact .inr (.inr (.inr (.inl rfl)))
  · obtain ⟨i, hi, rfl⟩ := List.mem_iff_getElem.mp h
    rw [List.getElem_zipWith]
    exact .inr (.inr (.inr (.inr ⟨_, List.getElem_mem _, _, List.getElem_mem _, rfl⟩)))

theorem free_exprs {m : TypeExpr} (h : m ∈ l.exprs vs fs ts as rs) {x : Nat} (hx : m.Free x) :
    ∃ e ∈ vs ++ (fs ++ (ts ++ (as ++ rs))), e.Free x := by
  simp only [List.mem_append]
  rcases mem_exprs h with h | ⟨b, rfl⟩ | ⟨fields, rfl, hfields⟩ | rfl | ⟨a, ha, r, hr, rfl⟩
  · exact ⟨m, .inl h, hx⟩
  · cases hx with | child hc => cases hc
  · cases hx with
    | child hc _ hx =>
      obtain ⟨f, hf, rfl⟩ := List.mem_map.mp hc
      exact ⟨f.2, .inr (.inl (hfields f hf)), hx⟩
  · cases hx with | child hc _ hx => exact ⟨_, .inr (.inr (.inl hc)), hx⟩
  · cases hx with
    | child hc _ hx =>
      rcases List.mem_pair.mp hc with rfl | rfl
      · exact ⟨_, .inr (.inr (.inr (.inl ha))), hx⟩
      · exact ⟨_, .inr (.inr (.inr (.inr hr))), hx⟩

theorem exposed_exprs {m : TypeExpr} (h : m ∈ l.exprs vs fs ts as rs) {x : Nat}
    (hx : m.Exposed x) : m ∈ vs := by
  rcases mem_exprs h with h | ⟨b, rfl⟩ | ⟨fields, rfl, -⟩ | rfl | ⟨a, -, r, -, rfl⟩
  · exact h
  all_goals cases hx

theorem shaped_exprs {p : Polarity} (hvs : ∀ e ∈ vs, e.Shaped p) (hfs : ∀ e ∈ fs, e.Shaped p)
    (hts : ∀ e ∈ ts, e.Shaped p) (has : ∀ e ∈ as, e.Shaped p.flip) (hrs : ∀ e ∈ rs, e.Shaped p) :
    ∀ m ∈ l.exprs vs fs ts as rs, m.Shaped p := by
  intro m h
  rcases mem_exprs h with h | ⟨b, rfl⟩ | ⟨fields, rfl, hfields⟩ | rfl | ⟨a, ha, r, hr, rfl⟩
  · exact hvs m h
  · exact .base
  · exact .record fun f hf => hfs f.2 (hfields f hf)
  · exact .tuple hts
  · exact .arrow (has a ha) (hrs r hr)

theorem binders_exprs (p : Polarity) (hfs : fs.length = (l.fieldItems p).length)
    (hts : ts.length = (l.elemItems p).length) (has : as.length = (l.paramItems p).length)
    (hrs : rs.length = (l.resultItems p).length) : (l.exprs vs fs ts as rs).flatMap
      TypeExpr.binders = (vs ++ (fs ++ (ts ++ (as ++ rs)))).flatMap TypeExpr.binders := by
  have hbases : (l.bases.toList.map TypeExpr.base).flatMap TypeExpr.binders = [] := by
    rw [List.flatMap_map]
    exact List.flatMap_eq_nil_iff.mpr fun _ _ => rfl
  have hfields : (l.record.map fun names => TypeExpr.record
      (names.zipWith (fun f e => (f.1, e)) fs)).toList.flatMap TypeExpr.binders =
        fs.flatMap TypeExpr.binders := by
    cases hr : l.record with
    | none =>
      have hnil : fs = [] := by simpa [fieldItems, hr] using hfs
      rw [hnil]
      rfl
    | some names =>
      have hlength : fs.length = names.length := by simpa [fieldItems, hr] using hfs
      have hsnd : (names.zipWith (fun f e => (f.1, e)) fs).map Prod.snd = fs := by
        calc (names.zipWith (fun f e => (f.1, e)) fs).map Prod.snd
            = (names.zip fs).map Prod.snd := by
              rw [List.map_zipWith, List.zip_eq_zipWith, List.map_zipWith]
          _ = fs := List.map_snd_zip hlength.le
      rw [Option.map_some, Option.toList_some, List.flatMap_singleton, TypeExpr.binders,
        TypeExpr.bindersFields_eq]
      nth_rewrite 2 [← hsnd]
      rw [List.flatMap_map]
  have helems : (l.tuple.map fun _ => TypeExpr.tuple ts).toList.flatMap TypeExpr.binders =
      ts.flatMap TypeExpr.binders := by
    cases ht : l.tuple with
    | none =>
      have hnil : ts = [] := by simpa [elemItems, ht] using hts
      rw [hnil]
      rfl
    | some elems => simp [TypeExpr.binders, TypeExpr.bindersList_eq]
  have hfunc : (as.zipWith TypeExpr.arrow rs).flatMap TypeExpr.binders =
      (as ++ rs).flatMap TypeExpr.binders := by
    cases hf : l.func with
    | none =>
      obtain rfl : as = [] := by simpa [paramItems, hf] using has
      obtain rfl : rs = [] := by simpa [resultItems, hf] using hrs
      rfl
    | some f =>
      obtain ⟨a, rfl⟩ := List.length_eq_one_iff.mp (has.trans (by simp [paramItems, hf]))
      obtain ⟨r, rfl⟩ := List.length_eq_one_iff.mp (hrs.trans (by simp [resultItems, hf]))
      simp [TypeExpr.binders]
  simp only [exprs, List.flatMap_append, hbases, hfields, helems, hfunc, List.nil_append,
    List.append_assoc]

theorem members_exprs (l : Layer Bundle) (p : Polarity) (fs ts : List TypeExpr)
    (has : as.length = (l.paramItems p).length) (hrs : rs.length = (l.resultItems p).length) :
    TypeExpr.Members (l.exprs (l.vars.items.map fun v => .var v.id) fs ts as rs) := by
  have hfunc : ∃ func : Option (TypeExpr × TypeExpr), as.zipWith TypeExpr.arrow rs =
      (func.map fun f => TypeExpr.arrow f.1 f.2).toList := by
    cases hf : l.func with
    | none =>
      obtain rfl : as = [] := by simpa [paramItems, hf] using has
      exact ⟨none, rfl⟩
    | some f =>
      obtain ⟨a, rfl⟩ := List.length_eq_one_iff.mp (has.trans (by simp [paramItems, hf]))
      obtain ⟨r, rfl⟩ := List.length_eq_one_iff.mp (hrs.trans (by simp [resultItems, hf]))
      exact ⟨some (a, r), rfl⟩
  obtain ⟨func, hfunc⟩ := hfunc
  refine ⟨l.vars.items.map Var.id, l.bases.toList,
    l.record.map fun names => names.zipWith (fun f e => (f.1, e)) fs, l.tuple.map fun _ => ts,
    func, ?_, List.pairwise_map.mpr l.vars.ascending, l.bases.pairwise_toList⟩
  rw [exprs, hfunc, List.map_map, Option.map_map, Option.map_map]
  rfl

end Layer

namespace BundleGraph

variable {g : BundleGraph} {size : Nat}

namespace Visits

variable {ps ps' : List Pending} {n n' : Nat} {is : List (Polarity × Item)} {es : List TypeExpr}

theorem fresh (h : g.Visits ps n is es ps' n') {key : String} {p : Polarity} {k : Nat}
    (hk : binderOf (.bundle key p) ps' = some k) :
    binderOf (.bundle key p) ps = some k ∨ n ≤ k := by
  induction h with
  | nil => exact .inl hk
  | refer _ _ ih | leaf _ _ _ ih | top _ _ _ ih => exact ih hk
  | @name _ _ _ _ _ i _ _ _ _ _ ih =>
    have hset := ih hk
    cases i with
    | var v =>
      rw [binderOf_setBinder, if_neg (by rintro ⟨⟨⟩, -⟩)] at hset
      exact hset
    | bundle b =>
      rw [binderOf_setBinder] at hset
      rcases hset with hset | hle
      · split_ifs at hset
        · exact .inr (Option.some.inj hset).le
        · exact .inl hset
      · exact .inr ((Nat.le_succ _).trans hle)
  | cycle _ _ inner _ ihinner ih =>
    rw [binderOf_cons, binderOf_cons, if_neg nofun, if_neg nofun] at ihinner
    rcases ih hk with hk | hle
    · exact ihinner hk
    · exact .inr (inner.le.trans hle)
  | @bundle ps _ _ _ _ ps₅ _ _ _ _ _ _ _ _ q b κ _ _ _ _ _ _ _ hfind _ vars fields elems params
      results _ ihv ihf iht iha ihr ih =>
    have hvisit := vars.append (fields.append (elems.append (params.append results)))
    rcases ih hk with hk | hle
    · -- What was read in between is a chain of visits, and the bundle itself is not in the rest.
      have hne : Place.bundle b.key q ≠ .bundle key p := by
        intro heq
        have hmem := mem_of_binderOf hk
        rw [(List.cons.inj hvisit.map_place).2, ← heq] at hmem
        exact findPlace_eq_none_iff.mp hfind hmem
      rw [binderOf_cons, if_neg hne] at ihv ihr
      rcases ihr hk with hk | hle
      · rcases iha hk with hk | hle
        · rcases iht hk with hk | hle
          · rcases ihf hk with hk | hle
            · exact ihv hk
            · exact .inr (vars.le.trans hle)
          · exact .inr ((vars.append fields).le.trans hle)
        · exact .inr ((vars.append (fields.append elems)).le.trans hle)
      · exact .inr ((vars.append (fields.append (elems.append params))).le.trans hle)
    · exact .inr (hvisit.le.trans hle)

end Visits

structure Entering (g : BundleGraph) (places : List Place) (is : List (Polarity × Item)) : Prop
    where
  hosted : ∀ {id p}, .var id p ∈ places → .bundle (Bundle.ofVar ⟨id, 0⟩).key p ∈ places
  occurs : ∀ x ∈ is, x.2.Occurs g x.1
  cycle : ∀ {p v}, (p, .var v) ∈ is → g.cycles.contains v = true →
    .var v.id p ∉ places ∧ .bundle (Bundle.ofVar ⟨v.id, 0⟩).key p ∈ places

theorem binderOf_pop {place other : Place} {k : Option Nat} {ps : List Pending} {x : Nat}
    (hnew : place ∉ ps.map Pending.place) (hx : binderOf other ps = some x) :
    binderOf other (⟨place, k⟩ :: ps) = some x := by
  rw [binderOf_cons, if_neg]
  · exact hx
  · rintro rfl
    exact hnew (mem_of_binderOf hx)

namespace Entering

variable {places : List Place} {is js : List (Polarity × Item)} {p : Polarity}

theorem of_subset (h : g.Entering places is) (hsub : ∀ x ∈ js, x ∈ is) : g.Entering places js :=
  ⟨h.hosted, fun x hx => h.occurs x (hsub x hx), fun hv => h.cycle (hsub _ hv)⟩

theorem tail {x : Polarity × Item} (h : g.Entering places (x :: is)) : g.Entering places is :=
  h.of_subset fun _ => List.mem_cons_of_mem x

theorem enterVar {v : Var} {body : Bundle} (h : g.Entering places ((p, .var v) :: is))
    (hbody : g.cycles.find? v = some body) :
    g.Entering (.var v.id p :: places) [(p, .bundle body)] := by
  obtain ⟨-, hhost⟩ := h.cycle List.mem_cons_self (VarMap.contains_of_find? hbody rfl)
  obtain ⟨b, hb, hv⟩ := h.occurs _ List.mem_cons_self
  refine ⟨fun {id q} hmem => ?_, fun x hx => ?_, fun hmem => ?_⟩
  · rcases List.mem_cons.mp hmem with heq | hmem
    · cases heq
      exact List.mem_cons_of_mem _ hhost
    · exact List.mem_cons_of_mem _ (h.hosted hmem)
  · obtain rfl := List.mem_singleton.mp hx
    exact hb.body hv hbody
  · cases List.mem_singleton.mp hmem

theorem enterBundle {b : Bundle} (hg : g.Orderly size)
    (h : g.Entering places ((p, .bundle b) :: is)) (hnew : .bundle b.key p ∉ places) :
    g.Entering (.bundle b.key p :: places) (b.layer.varItems p ++ (b.layer.fieldItems p ++
      (b.layer.elemItems p ++ (b.layer.paramItems p ++ b.layer.resultItems p)))) := by
  have hb : g.Occurs p b := h.occurs _ List.mem_cons_self
  refine ⟨fun {id q} hmem => ?_, fun x hx => ?_, fun {q v} hmem hcycle => ?_⟩
  · rcases List.mem_cons.mp hmem with heq | hmem
    · cases heq
    · exact List.mem_cons_of_mem _ (h.hosted hmem)
  · simp only [List.mem_append] at hx
    rcases hx with hx | hx | hx | hx | hx
    · exact hb.varItems x hx
    · exact hb.fieldItems x hx
    · exact hb.elemItems x hx
    · exact hb.paramItems x hx
    · exact hb.resultItems x hx
  · have hv : v ∈ b.layer.vars.items ∧ q = p := by
      simp only [List.mem_append, Layer.varItems, Layer.fieldItems, Layer.elemItems,
        Layer.paramItems, Layer.resultItems, List.mem_map, Prod.mk.injEq, Item.var.injEq,
        reduceCtorEq, and_false, exists_false, or_false] at hmem
      obtain ⟨w, hw, rfl, rfl⟩ := hmem
      exact ⟨hw, rfl⟩
    obtain ⟨hv, rfl⟩ := hv
    obtain rfl := hg.alone hb hv hcycle
    refine ⟨fun hmem => ?_, List.mem_cons_self⟩
    rcases List.mem_cons.mp hmem with heq | hmem
    · cases heq
    · exact hnew (h.hosted hmem)

theorem eq_bundle {ps : List Pending} {n : Nat} {i : Item} {f : Pending}
    (h : g.Entering (ps.map Pending.place) ((p, i) :: is)) (hnames : g.Names size ps n)
    (hfind : findPlace (i.place p) ps = some f) : ∃ b, i = .bundle b := by
  cases i with
  | bundle b => exact ⟨b, rfl⟩
  | var v =>
    have hmem : Place.var v.id p ∈ ps.map Pending.place := by
      by_contra hmem
      rw [Item.place, findPlace_eq_none_iff.mpr hmem] at hfind
      cases hfind
    have hcycle := (g.cycles.contains_congr (show v.id = (⟨v.id, 0⟩ : Var).id from rfl)).trans
      (hnames.cycle hmem)
    exact absurd hmem (h.cycle List.mem_cons_self hcycle).1

end Entering

def Unbound (ps : List Pending) : Prop := ∀ id p, binderOf (.var id p) ps = none

/-- What a place shows without going below a function, a record or a tuple: the bundle itself
and the bodies of its variables. -/
def Item.Heads (g : BundleGraph) : Item → Bundle → Prop
  | var v, c => g.cycles.find? v = some c
  | bundle b, c => c = b ∨ ∃ v ∈ b.layer.vars.items, g.cycles.find? v = some c

/-- What holds of the expressions that some items were read as, while the places of `ps` are
being read. Binders are new; what is free is a variable of the graph or a binder of a bundle
that is being read, and of those at the head only one of a bundle that is there. -/
structure Neat (g : BundleGraph) (size n n' : Nat) (ps : List Pending)
    (is : List (Polarity × Item)) (es : List TypeExpr) : Prop where
  shaped : List.Forall₂ (fun x e => e.Shaped x.1) is es
  nodup : (es.flatMap TypeExpr.binders).Nodup
  range : ∀ k ∈ es.flatMap TypeExpr.binders, n ≤ k ∧ k < n'
  closed : ∀ k ∈ es.flatMap TypeExpr.binders, ∀ key p, binderOf (.bundle key p) ps ≠ some k
  free : ∀ e ∈ es, ∀ x, e.Free x → x < size ∨ ∃ key p, binderOf (.bundle key p) ps = some x
  exposed : List.Forall₂ (fun x e => ∀ k, e.Exposed k → k < size ∨
    ∃ c, x.2.Heads g c ∧ binderOf (.bundle c.key x.1) ps = some k) is es

namespace Neat

variable {n n₁ n' : Nat} {ps ps₁ : List Pending} {is js : List (Polarity × Item)}
  {es fs : List TypeExpr} {p : Polarity} {i : Item}

theorem nil : Neat g size n n' ps [] [] :=
  ⟨.nil, .nil, nofun, nofun, nofun, .nil⟩

theorem append (h : Neat g size n n₁ ps₁ is es) (h' : Neat g size n₁ n' ps js fs) (hn : n ≤ n₁)
    (hvisit : g.Visits ps₁ n₁ js fs ps n') : Neat g size n n' ps (is ++ js) (es ++ fs) := by
  constructor
  case shaped => exact List.rel_append h.shaped h'.shaped
  case nodup =>
    rw [List.flatMap_append]
    refine h.nodup.append h'.nodup fun k hk hk' => ?_
    exact absurd (h.range k hk).2 (Nat.not_lt.mpr (h'.range k hk').1)
  case range =>
    intro k hk
    rw [List.flatMap_append] at hk
    rcases List.mem_append.mp hk with hk | hk
    · exact (h.range k hk).imp_right hvisit.le.trans_lt'
    · exact (h'.range k hk).imp_left hn.trans
  case closed =>
    intro k hk key q hbound
    rw [List.flatMap_append] at hk
    rcases List.mem_append.mp hk with hk | hk
    · rcases hvisit.fresh hbound with hold | hle
      · exact h.closed k hk key q hold
      · exact absurd (h.range k hk).2 (Nat.not_lt.mpr hle)
    · exact h'.closed k hk key q hbound
  case free =>
    intro e he x hx
    rcases List.mem_append.mp he with he | he
    · refine (h.free e he x hx).imp_right ?_
      rintro ⟨key, q, hbound⟩
      exact ⟨key, q, hvisit.keeps hbound⟩
    · exact h'.free e he x hx
  case exposed =>
    refine List.rel_append (h.exposed.imp fun x e hx k hk => ?_) h'.exposed
    refine (hx k hk).imp_right ?_
    rintro ⟨c, hc, hbound⟩
    exact ⟨c, hc, hvisit.keeps hbound⟩

theorem reference {b : Bundle} {k : Nat} (hk : binderOf (.bundle b.key p) ps = some k) :
    Neat g size n n' ps [(p, .bundle b)] [.var k] := by
  refine ⟨.cons .var .nil, .nil, nofun, nofun, fun e he x hx => ?_, .cons (fun x hx => ?_) .nil⟩
  · obtain rfl := List.mem_singleton.mp he
    cases hx with
    | var => exact .inr ⟨b.key, p, hk⟩
    | child hc => cases hc
  · cases hx
    exact .inr ⟨b, .inl rfl, hk⟩

theorem leaf {x : Nat} (hx : x < size) : Neat g size n n' ps [(p, i)] [.var x] := by
  refine ⟨.cons .var .nil, .nil, nofun, nofun, fun e he y hy => ?_, .cons (fun y hy => ?_) .nil⟩
  · obtain rfl := List.mem_singleton.mp he
    cases hy with
    | var => exact .inl hx
    | child hc => cases hc
  · cases hy
    exact .inl hx

theorem top : Neat g size n n' ps [(p, i)] [.top] := by
  refine ⟨.cons .top .nil, .nil, nofun, nofun, fun e he y hy => ?_, .cons (fun y hy => ?_) .nil⟩
  · obtain rfl := List.mem_singleton.mp he
    cases hy with | child hc => cases hc
  · cases hy

theorem leave {place : Place} (h : Neat g size n n' (⟨place, none⟩ :: ps) is es)
    (hnew : place ∉ ps.map Pending.place) : Neat g size n n' ps is es := by
  have hold : ∀ {other x}, binderOf other (⟨place, none⟩ :: ps) = some x →
      binderOf other ps = some x := by
    intro other x hx
    rw [binderOf_cons] at hx
    split_ifs at hx
    exact hx
  refine ⟨h.shaped, h.nodup, h.range, fun k hk key q hbound => ?_, fun e he x hx => ?_, ?_⟩
  · exact h.closed k hk key q (binderOf_pop hnew hbound)
  · refine (h.free e he x hx).imp_right ?_
    rintro ⟨key, q, hbound⟩
    exact ⟨key, q, hold hbound⟩
  · refine h.exposed.imp fun x e hx k hk => (hx k hk).imp_right ?_
    rintro ⟨c, hc, hbound⟩
    exact ⟨c, hc, hold hbound⟩

theorem bind {key : String} {κ : Nat} {e : TypeExpr}
    (h : Neat g size n n' (⟨.bundle key p, some κ⟩ :: ps) [(p, i)] [e])
    (hnames : g.Names size (⟨.bundle key p, some κ⟩ :: ps) n')
    (hnew : .bundle key p ∉ ps.map Pending.place) (hfresh : n ≤ κ) (hguard : ¬e.Exposed κ) :
    Neat g size n n' ps [(p, i)] [.recursive κ e] := by
  have hself : binderOf (.bundle key p) (⟨.bundle key p, some κ⟩ :: ps) = some κ := by
    rw [binderOf_cons, if_pos rfl]
  have hold : ∀ {other x}, binderOf other (⟨.bundle key p, some κ⟩ :: ps) = some x → x ≠ κ →
      binderOf other ps = some x := by
    intro other x hx hne
    rw [binderOf_cons] at hx
    split_ifs at hx
    · exact absurd (Option.some.inj hx).symm hne
    · exact hx
  have hbinders : [TypeExpr.recursive κ e].flatMap TypeExpr.binders =
      κ :: [e].flatMap TypeExpr.binders := rfl
  have hκ : κ ∉ [e].flatMap TypeExpr.binders := fun hmem => h.closed κ hmem key p hself
  have hshaped : e.Shaped p := by
    obtain ⟨he, -⟩ := List.forall₂_cons.mp h.shaped
    exact he
  have hexposed := (List.forall₂_cons.mp h.exposed).1
  refine ⟨.cons (.recursive hguard hshaped) .nil, ?nodup, ?range, ?closed, ?free,
    .cons ?exposed .nil⟩
  case nodup => exact hbinders ▸ List.nodup_cons.mpr ⟨hκ, h.nodup⟩
  case range =>
    intro k hk
    rcases List.mem_cons.mp (hbinders ▸ hk) with rfl | hk
    · exact ⟨hfresh, (hnames.bundle hself).2⟩
    · exact h.range k hk
  case closed =>
    intro k hk key' q hbound
    have hbound := binderOf_pop (k := some κ) hnew hbound
    rcases List.mem_cons.mp (hbinders ▸ hk) with rfl | hk
    · -- No other place has the binder, and this one is not in the rest.
      obtain ⟨rfl, rfl⟩ := hnames.distinct hself hbound
      exact hnew (mem_of_binderOf ‹binderOf _ ps = some _›)
    · exact h.closed k hk key' q hbound
  case free =>
    intro e' he' x hx
    obtain rfl := List.mem_singleton.mp he'
    obtain ⟨hne, hx⟩ := TypeExpr.free_recursive hx
    refine (h.free e (List.mem_singleton_self e) x hx).imp_right ?_
    rintro ⟨key', q, hbound⟩
    exact ⟨key', q, hold hbound hne⟩
  case exposed =>
    intro x hx
    cases hx with
    | recursive hne hx =>
      refine (hexposed x hx).imp_right ?_
      rintro ⟨c, hc, hbound⟩
      exact ⟨c, hc, hold hbound hne.symm⟩

end Neat

theorem Visits.leaves {ps ps' : List Pending} {n n' : Nat} {p : Polarity} {vars : List Var}
    {es : List TypeExpr} (h : g.Visits ps n (vars.map fun v => (p, .var v)) es ps' n')
    (hnames : g.Names size ps n) (hfree : ∀ v ∈ vars, g.cycles.find? v = none) :
    es = vars.map fun v => .var v.id := by
  induction vars generalizing es with
  | nil => cases h; rfl
  | cons v vars ih =>
    have hv := hfree v List.mem_cons_self
    have hnew : findPlace (.var v.id p) ps = none := by
      rw [findPlace_eq_none_iff]
      intro hmem
      have hcycle := (g.cycles.contains_congr (show v.id = (⟨v.id, 0⟩ : Var).id from rfl)).trans
        (hnames.cycle hmem)
      rw [VarMap.contains, hv] at hcycle
      cases hcycle
    cases h with
    | refer hfind | name hfind => cases hnew.symm.trans hfind
    | cycle _ hbody => cases hv.symm.trans hbody
    | leaf _ _ rest =>
      rw [List.map_cons, ih rest fun w hw => hfree w (List.mem_cons_of_mem v hw)]

theorem forall₂_of_append {α β : Type} {R : α → β → Prop} {as as' : List α} {bs bs' : List β}
    (h : List.Forall₂ R (as ++ as') (bs ++ bs')) (hlength : bs.length = as.length) :
    List.Forall₂ R as bs ∧ List.Forall₂ R as' bs' := by
  have htake := List.forall₂_take_append _ _ _ h
  have hdrop := List.forall₂_drop_append _ _ _ h
  rw [hlength] at htake hdrop
  rw [List.take_left] at htake
  rw [List.drop_left] at hdrop
  exact ⟨htake, hdrop⟩

section OfBundle

variable {n n' : Nat} {ps : List Pending} {p : Polarity} {b : Bundle}
  {vs fs ts as rs : List TypeExpr}
  (hall : Neat g size n n' ps (b.layer.varItems p ++ (b.layer.fieldItems p ++
    (b.layer.elemItems p ++ (b.layer.paramItems p ++ b.layer.resultItems p))))
    (vs ++ (fs ++ (ts ++ (as ++ rs)))))
  (hvs : vs.length = (b.layer.varItems p).length)

include hall hvs

theorem Neat.exposed_bundle {x : Nat}
    (hx : (ofParts p (b.layer.exprs vs fs ts as rs)).Exposed x) : x < size ∨
      ∃ v ∈ b.layer.vars.items, ∃ c, g.cycles.find? v = some c ∧
        binderOf (.bundle c.key p) ps = some x := by
  obtain ⟨m, hm, hx⟩ := TypeExpr.exposed_ofParts hx
  obtain ⟨y, hy, hexposed⟩ := forall₂_exists_left (forall₂_of_append hall.exposed hvs).1
    (Layer.exposed_exprs hm hx)
  obtain ⟨v, hv, rfl⟩ := List.mem_map.mp hy
  refine (hexposed x hx).imp_right ?_
  rintro ⟨c, hc, hbound⟩
  exact ⟨v, hv, c, hc, hbound⟩

theorem Neat.guard_bundle (hg : g.Orderly size) (hb : g.Occurs p b) {κ : Nat}
    (hnames : g.Names size ps n') (hκ : binderOf (.bundle b.key p) ps = some κ) :
    ¬(ofParts p (b.layer.exprs vs fs ts as rs)).Exposed κ := by
  intro hx
  rcases hall.exposed_bundle hvs hx with hlt | ⟨v, hv, c, hc, hbound⟩
  · exact absurd hlt (Nat.not_lt.mpr (hnames.bundle hκ).1)
  · -- The body has the key of the bundle, which is its variable alone.
    have hkey := (hnames.distinct hbound hκ).1
    have hcycle := VarMap.contains_of_find? hc (rfl : v.id = v.id)
    rw [hg.alone hb hv hcycle] at hkey
    obtain ⟨w, hw, hid⟩ := Bundle.exists_var_of_key_eq hkey
    have hfree := hg.guarded hb hv hc w hw
    rw [VarMap.contains_of_find? hc hid] at hfree
    cases hfree

variable (hfs : fs.length = (b.layer.fieldItems p).length)
  (hts : ts.length = (b.layer.elemItems p).length)
  (has : as.length = (b.layer.paramItems p).length)
  (hrs : rs.length = (b.layer.resultItems p).length)

include hfs hts has hrs

theorem Neat.shaped_bundle (hg : g.Orderly size) (hb : g.Occurs p b)
    (hleaves : (∀ v ∈ b.layer.vars.items, g.cycles.find? v = none) →
      vs = b.layer.vars.items.map fun v => .var v.id) :
    (ofParts p (b.layer.exprs vs fs ts as rs)).Shaped p := by
  obtain ⟨hvars, hrest⟩ := forall₂_of_append hall.shaped hvs
  obtain ⟨hfields, hrest⟩ := forall₂_of_append hrest hfs
  obtain ⟨helems, hrest⟩ := forall₂_of_append hrest hts
  obtain ⟨hparams, hresults⟩ := forall₂_of_append hrest has
  have hshaped : ∀ {α : Type} {xs : List α} {item : α → Item} {q : Polarity}
      {es : List TypeExpr},
      List.Forall₂ (fun x e => e.Shaped x.1) (xs.map fun x => (q, item x)) es →
      ∀ e ∈ es, e.Shaped q := by
    intro α xs item q es h e he
    obtain ⟨y, hy, hshaped⟩ := forall₂_exists_left h he
    obtain ⟨x, -, rfl⟩ := List.mem_map.mp hy
    exact hshaped
  by_cases hfree : ∀ v ∈ b.layer.vars.items, g.cycles.find? v = none
  · refine TypeExpr.shaped_ofParts ?_ (Layer.shaped_exprs (hshaped hvars) (hshaped hfields)
      (hshaped helems) (hshaped hparams) (hshaped hresults))
    rw [hleaves hfree]
    exact Layer.members_exprs b.layer p fs ts has hrs
  · -- A variable with a body stands alone, so the place is read as its body is.
    simp only [not_forall] at hfree
    obtain ⟨v, hv, hbody⟩ := hfree
    obtain rfl := hg.alone hb hv (Option.isSome_iff_ne_none.mpr hbody)
    obtain ⟨e, rfl⟩ := List.length_eq_one_iff.mp hvs
    obtain rfl : as = [] := List.length_eq_zero_iff.mp has
    have he := hshaped hvars e (List.mem_singleton_self e)
    cases p <;> exact he

theorem Neat.ofBundle (hg : g.Orderly size) (hb : g.Occurs p b)
    (hleaves : (∀ v ∈ b.layer.vars.items, g.cycles.find? v = none) →
      vs = b.layer.vars.items.map fun v => .var v.id) :
    Neat g size n n' ps [(p, .bundle b)] [ofParts p (b.layer.exprs vs fs ts as rs)] := by
  have hbinders : [ofParts p (b.layer.exprs vs fs ts as rs)].flatMap TypeExpr.binders =
      (vs ++ (fs ++ (ts ++ (as ++ rs)))).flatMap TypeExpr.binders := by
    rw [List.flatMap_singleton, TypeExpr.binders_ofParts, Layer.binders_exprs p hfs hts has hrs]
  refine ⟨.cons (hall.shaped_bundle hvs hfs hts has hrs hg hb hleaves) .nil, hbinders ▸ hall.nodup,
    hbinders ▸ hall.range, hbinders ▸ hall.closed, fun e he x hx => ?_, .cons (fun x hx => ?_) .nil⟩
  · obtain rfl := List.mem_singleton.mp he
    obtain ⟨m, hm, hx⟩ := TypeExpr.free_ofParts hx
    obtain ⟨e, he, hx⟩ := Layer.free_exprs hm hx
    exact hall.free e he x hx
  · refine (hall.exposed_bundle hvs hx).imp_right ?_
    rintro ⟨v, hv, c, hc, hbound⟩
    exact ⟨c, .inr ⟨v, hv, hc⟩, hbound⟩

end OfBundle

def ReadsNeatly (g : BundleGraph) (size : Nat) (ps : List Pending) (n : Nat)
    (is : List (Polarity × Item)) (es : List TypeExpr) (ps' : List Pending) (n' : Nat) : Prop :=
  g.Names size ps n → g.Entering (ps.map Pending.place) is → Unbound ps →
    Unbound ps' ∧ Neat g size n n' ps' is es

theorem ReadsNeatly.append {ps ps' ps'' : List Pending} {n n' n'' : Nat}
    {is js : List (Polarity × Item)} {es fs : List TypeExpr}
    (h : ReadsNeatly g size ps n is es ps' n') (h' : ReadsNeatly g size ps' n' js fs ps'' n'')
    (hv : g.Visits ps n is es ps' n') (hv' : g.Visits ps' n' js fs ps'' n'') :
    ReadsNeatly g size ps n (is ++ js) (es ++ fs) ps'' n'' := by
  intro hnames henter hu
  obtain ⟨hu', hneat⟩ := h hnames (henter.of_subset fun x => List.mem_append_left js) hu
  have henter' : g.Entering (ps'.map Pending.place) js := by
    rw [hv.map_place]
    exact henter.of_subset fun x => List.mem_append_right is
  obtain ⟨hu'', hneat'⟩ := h' (hv.names hnames) henter' hu'
  exact ⟨hu'', hneat.append hneat' hv.le hv'⟩

theorem ReadsNeatly.cons {ps ps₁ ps' : List Pending} {n n₁ n' : Nat} {x : Polarity × Item}
    {e : TypeExpr} {is : List (Polarity × Item)} {es : List TypeExpr}
    (h : g.Names size ps n → g.Entering (ps.map Pending.place) (x :: is) → Unbound ps →
      Unbound ps₁ ∧ g.Names size ps₁ n₁ ∧ Neat g size n n₁ ps₁ [x] [e])
    (hplaces : ps₁.map Pending.place = ps.map Pending.place) (hn : n ≤ n₁)
    (rest : g.Visits ps₁ n₁ is es ps' n') (h' : ReadsNeatly g size ps₁ n₁ is es ps' n') :
    ReadsNeatly g size ps n (x :: is) (e :: es) ps' n' := by
  intro hnames henter hu
  obtain ⟨hu₁, hnames₁, hneat⟩ := h hnames henter hu
  obtain ⟨hu', hneat'⟩ := h' hnames₁ (hplaces ▸ henter.tail) hu₁
  exact ⟨hu', hneat.append hneat' hn rest⟩

theorem Unbound.push {ps : List Pending} (h : Unbound ps) (place : Place) :
    Unbound (⟨place, none⟩ :: ps) := by
  intro id p
  rw [binderOf_cons]
  split_ifs
  · rfl
  · exact h id p

theorem Unbound.pop {place : Place} {k : Option Nat} {ps : List Pending}
    (h : Unbound (⟨place, k⟩ :: ps)) (hnew : place ∉ ps.map Pending.place) : Unbound ps := by
  intro id p
  by_contra hsome
  obtain ⟨x, hx⟩ := Option.ne_none_iff_exists'.mp hsome
  cases (h id p).symm.trans (binderOf_pop hnew hx)

theorem notMem_of_places {place : Place} {k : Option Nat} {ps ps₁ : List Pending}
    (hplaces : (⟨place, k⟩ :: ps₁ : List Pending).map Pending.place = place :: ps.map Pending.place)
    (hfind : findPlace place ps = none) :
    ps₁.map Pending.place = ps.map Pending.place ∧ place ∉ ps₁.map Pending.place := by
  have hrest := (List.cons.inj hplaces).2
  exact ⟨hrest, hrest ▸ findPlace_eq_none_iff.mp hfind⟩

theorem Visits.readsNeatly (hg : g.Orderly size) {ps ps' : List Pending} {n n' : Nat}
    {is : List (Polarity × Item)} {es : List TypeExpr} (h : g.Visits ps n is es ps' n') :
    ReadsNeatly g size ps n is es ps' n' := by
  induction h with
  | nil => exact fun _ _ hu => ⟨hu, .nil⟩
  | refer hfind rest ih =>
    refine .cons (fun hnames henter hu => ?_) rfl (Nat.le_refl _) rest ih
    obtain ⟨b, rfl⟩ := henter.eq_bundle hnames hfind
    refine ⟨hu, hnames, .reference ?_⟩
    rw [binderOf, show findPlace (.bundle b.key _) _ = _ from hfind]
    rfl
  | @name ps _ n _ p i _ _ _ hfind rest ih =>
    cases i with
    | var v =>
      intro hnames henter
      obtain ⟨b, hb⟩ := henter.eq_bundle hnames hfind
      cases hb
    | bundle b =>
      refine .cons (fun hnames henter hu => ?_) (map_place_setBinder ..) (Nat.le_succ n) rest ih
      refine ⟨fun id q => ?_, hnames.setBundle, .reference ?_⟩
      · rw [binderOf_setBinder, if_neg (by rintro ⟨⟨⟩, -⟩)]
        exact hu id q
      · exact (binderOf_setBinder ..).trans (if_pos ⟨rfl, Option.isSome_iff_exists.mpr ⟨_, hfind⟩⟩)
  | leaf _ _ rest ih =>
    refine .cons (fun hnames henter hu => ⟨hu, hnames, .leaf ?_⟩) rfl (Nat.le_refl _) rest ih
    obtain ⟨b, hb, hv⟩ := henter.occurs _ List.mem_cons_self
    exact hg.lt_size hb hv
  | top _ _ rest ih =>
    exact .cons (fun hnames _ hu => ⟨hu, hnames, .top⟩) rfl (Nat.le_refl _) rest ih
  | @cycle ps ps₁ _ n n₁ _ p v body k e _ _ hfind hbody inner rest ihinner ih =>
    obtain ⟨hplaces, hnew⟩ := notMem_of_places inner.map_place hfind
    refine .cons (fun hnames henter hu => ?_) hplaces inner.le rest ih
    have hin := hnames.pushVar (p := p) hbody
    obtain ⟨hu', hneat⟩ := ihinner hin (henter.enterVar hbody) (hu.push _)
    -- The variable has no binder, and its body does not start with a variable that has a body.
    obtain rfl : k = none := by
      have hself := hu' v.id p
      rwa [binderOf_cons, if_pos rfl] at hself
    have hleft := hneat.leave hnew
    refine ⟨hu'.pop hnew, (inner.names hin).pop inner.map_place hfind,
      .cons (List.forall₂_cons.mp hleft.shaped).1 .nil, hleft.nodup, hleft.range, hleft.closed,
      hleft.free, .cons (fun x hx => ?_) .nil⟩
    refine ((List.forall₂_cons.mp hleft.exposed).1 x hx).imp_right ?_
    rintro ⟨c, rfl | ⟨w, hw, hc⟩, hbound⟩
    · exact ⟨_, hbody, hbound⟩
    · obtain ⟨b, hb, hv⟩ := henter.occurs _ List.mem_cons_self
      have hfree := hg.guarded hb hv hbody w hw
      rw [VarMap.contains_of_find? hc rfl] at hfree
      cases hfree
  | @bundle ps _ _ _ _ ps₅ _ n _ _ _ _ n₅ _ p b k vs fs ts as rs _ _ hfind _ vars fields elems
      params results rest ihv ihf iht iha ihr ih =>
    have hvisit := vars.append (fields.append (elems.append (params.append results)))
    have hreads := ihv.append (ihf.append (iht.append (iha.append ihr params results) elems
      (params.append results)) fields (elems.append (params.append results))) vars
      (fields.append (elems.append (params.append results)))
    obtain ⟨hplaces, hnew⟩ := notMem_of_places hvisit.map_place hfind
    refine .cons (fun hnames henter hu => ?_) hplaces hvisit.le rest ih
    have hb : g.Occurs p b := henter.occurs _ List.mem_cons_self
    have hin : g.Names size (⟨.bundle b.key p, none⟩ :: ps) n := hnames.pushBundle
    obtain ⟨hu', hall⟩ := hreads hin (henter.enterBundle hg (findPlace_eq_none_iff.mp hfind))
      (hu.push _)
    have hout := hvisit.names hin
    have hneat := hall.ofBundle vars.length_eq fields.length_eq elems.length_eq params.length_eq
      results.length_eq hg hb (vars.leaves hin)
    refine ⟨hu'.pop hnew, hout.pop hvisit.map_place hfind, ?_⟩
    cases k with
    | none => exact hneat.leave hnew
    | some κ =>
      have hκ : binderOf (.bundle b.key p) (⟨.bundle b.key p, some κ⟩ :: ps₅) = some κ := by
        rw [binderOf_cons, if_pos rfl]
      have hfresh : n ≤ κ := by
        rcases hvisit.fresh hκ with hold | hle
        · rw [binderOf_cons, if_pos rfl] at hold
          cases hold
        · exact hle
      exact hneat.bind hout hnew hfresh (hall.guard_bundle vars.length_eq hg hb hout hκ)

theorem wellFormed_of_visits (hg : g.Orderly size) {e : TypeExpr} {n' : Nat}
    (h : g.Visits [] size [(.positive, .bundle g.root)] [e] [] n') : e.WellFormed := by
  have hnames : g.Names size [] size := ⟨Nat.le_refl _, nofun, nofun, nofun, nofun⟩
  have henter : g.Entering [] [(.positive, .bundle g.root)] := by
    refine ⟨nofun, fun x hx => ?_, fun hmem => ?_⟩
    · obtain rfl := List.mem_singleton.mp hx
      exact .root
    · cases List.mem_singleton.mp hmem
  obtain ⟨-, hneat⟩ := h.readsNeatly hg hnames henter fun _ _ => rfl
  have hbinders : [e].flatMap TypeExpr.binders = e.binders := List.flatMap_singleton ..
  refine ⟨hbinders ▸ hneat.nodup, fun k hk hfree => ?_, (List.forall₂_cons.mp hneat.shaped).1⟩
  rcases hneat.free e (List.mem_singleton_self e) k hfree with hlt | ⟨key, p, hbound⟩
  · exact absurd hlt (Nat.not_lt.mpr (hneat.range k (hbinders ▸ hk)).1)
  · cases hbound

end BundleGraph
end Biunify
