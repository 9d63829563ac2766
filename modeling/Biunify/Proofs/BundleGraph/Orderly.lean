import Biunify.Proofs.BundleGraph.Growth
import Biunify.Proofs.BundleGraph.Merging

/-! The graph of a type is orderly: a variable with a body stands alone and is read at one
polarity, its body starts with something else, and all variables are of the table. Reducing a
graph keeps it so, as it touches neither the variables with a body nor the shape around them. -/

namespace Biunify

namespace Layer

variable {α β : Type} {p q : Polarity} {l : Layer α}

theorem Rel.field {R : Polarity → α → β → Prop} {l' : Layer β} (h : l.Rel R p l')
    {fields' : List (String × β)} (hr : l'.record = some fields') {f' : String × β}
    (hf : f' ∈ fields') :
    ∃ fields f, l.record = some fields ∧ f ∈ fields ∧ f.1 = f'.1 ∧ R p f.2 f'.2 := by
  have hrecord := h.record
  rw [hr] at hrecord
  generalize l.record = record at hrecord ⊢
  cases hrecord with
  | some hall =>
    obtain ⟨f, hf, hname, hbelow⟩ := forall₂_exists_left hall hf
    exact ⟨_, f, rfl, hf, hname, hbelow⟩

theorem Rel.child {R : Polarity → α → β → Prop} {l' : Layer β} (h : l.Rel R p l') {b : β}
    (hb : l'.Child p q b) : ∃ a, l.Child p q a ∧ R q a b := by
  rcases l with ⟨vars, bases, tuple, record, func, top⟩
  rcases l' with ⟨vars', bases', tuple', record', func', top'⟩
  have htuple := h.tuple
  have hfunc := h.func
  cases hb with
  | elem ht hb =>
    cases htuple with
    | none => cases ht
    | some hl =>
      cases ht
      obtain ⟨a, ha, hab⟩ := forall₂_exists_left hl hb
      exact ⟨a, .elem rfl ha, hab⟩
  | field hr hf =>
    obtain ⟨fields, f, hfields, hf, -, hab⟩ := h.field hr hf
    exact ⟨f.2, .field hfields hf, hab⟩
  | param hf =>
    cases hfunc with
    | none => cases hf
    | some hl =>
      cases hf
      exact ⟨_, .param rfl, hl.1⟩
  | result hf =>
    cases hfunc with
    | none => cases hf
    | some hl =>
      cases hf
      exact ⟨_, .result rfl, hl.2⟩

end Layer

namespace BundleGraph

/-- A tidy graph over so many variables, where no body starts with a variable that has one. -/
structure Orderly (g : BundleGraph) (size : Nat) : Prop extends g.Tidy where
  guarded : ∀ {p b v body}, g.Occurs p b → v ∈ b.layer.vars.items → g.cycles.find? v = some body →
    ∀ w ∈ body.layer.vars.items, g.cycles.contains w = false
  lt_size : ∀ {p b v}, g.Occurs p b → v ∈ b.layer.vars.items → v.id < size

section Stands

variable {t : BoundTable} {name : Mark → Option Var} {depth : Nat} {p : Polarity} {b b' : Bundle}

theorem Stands.child (h : Stands t name depth p b b') {q : Polarity} {c' : Bundle}
    (hc : b'.layer.Child p q c') :
    ∃ c depth, (b.absorb t p).layer.Child p q c ∧ Stands t name depth q c c' := by
  cases depth with
  | zero => cases h
  | succ depth =>
    rcases h with ⟨v, -, rfl⟩ | hrel
    · cases hc with
      | elem h | field h | param h | result h => cases h
    · obtain ⟨c, hchild, hstands⟩ := hrel.child hc
      exact ⟨c, depth, hchild, hstands⟩

theorem Stands.eq_ofVar (h : Stands t name depth p b b')
    (hold : ∀ v ∈ (b.absorb t p).layer.vars.items, v.id < t.size) {v : Var}
    (hv : v ∈ b'.layer.vars.items) (hnew : t.size ≤ v.id) :
    b' = .ofVar v ∧ name (b.key, p) = some v := by
  cases depth with
  | zero => cases h
  | succ depth =>
    rcases h with ⟨w, hw, rfl⟩ | hrel
    · obtain rfl := List.mem_singleton.mp hv
      exact ⟨rfl, hw⟩
    · exact absurd (hold v (hrel.vars ▸ hv)) (Nat.not_lt.mpr hnew)

end Stands

section Grown

variable {t : BoundTable} {met : Polarity → Bundle → Prop} {growth : Growth} {s : Session}
  {root : Bundle}

theorem find?_cycles_eq_none (hs : growth.Sound t met [] s) {v : Var} (hv : v.id < t.size) :
    growth.cycles.find? v = none := by
  by_contra hsome
  obtain ⟨body, hbody⟩ := Option.ne_none_iff_exists'.mp hsome
  exact absurd (hs.cycles hbody) (Nat.not_le.mpr hv)

variable (hs : growth.Sound t met [] s)
  (hdown : ∀ p b q c, met p b → (b.absorb t p).layer.Child p q c → met q c)
  (hold : ∀ p b, met p b → ∀ v ∈ (b.absorb t p).layer.vars.items, v.id < t.size)
  {depth : Nat} {b₀ : Bundle} (hmet : met .positive b₀)
  (hroot : Stands t growth.nameOf? depth .positive b₀ root)

include hs hdown hold hmet hroot

theorem stands_of_occurs {p : Polarity} {b' : Bundle}
    (h : Occurs ⟨root, growth.cycles⟩ p b') :
    ∃ b depth, met p b ∧ Stands t growth.nameOf? depth p b b' := by
  induction h with
  | root => exact ⟨b₀, depth, hmet, hroot⟩
  | child _ hc ih =>
    obtain ⟨b, depth, hb, hstands⟩ := ih
    obtain ⟨c, depth, hchild, hstands⟩ := hstands.child hc
    exact ⟨c, depth, hdown _ b _ c hb hchild, hstands⟩
  | body _ hv hbody ih =>
    obtain ⟨b, depth, hb, hstands⟩ := ih
    obtain ⟨-, hname⟩ := hstands.eq_ofVar (hold _ b hb) hv (hs.cycles hbody)
    rcases hs.finished hname with hmem | ⟨body, hbody', q, c, depth, hmark, hc, hrel⟩
    · cases hmem
    obtain ⟨-, rfl⟩ := Prod.mk.inj hmark
    cases hbody.symm.trans hbody'
    exact ⟨c, depth + 1, hc, .inr hrel⟩

theorem nameOf?_of_occurs {p : Polarity} {b' : Bundle} (h : Occurs ⟨root, growth.cycles⟩ p b')
    {v : Var} (hv : v ∈ b'.layer.vars.items) (hcycle : growth.cycles.contains v = true) :
    b' = .ofVar v ∧ ∃ b, met p b ∧ growth.nameOf? (b.key, p) = some v := by
  obtain ⟨b, depth, hb, hstands⟩ := stands_of_occurs hs hdown hold hmet hroot h
  obtain ⟨body, hbody⟩ := Option.isSome_iff_exists.mp hcycle
  obtain ⟨heq, hname⟩ := hstands.eq_ofVar (hold p b hb) hv (hs.cycles hbody)
  exact ⟨heq, b, hb, hname⟩

theorem orderly_of_stands : Orderly ⟨root, growth.cycles⟩ s.table.size where
  alone h hv hcycle := (nameOf?_of_occurs hs hdown hold hmet hroot h hv hcycle).1
  onePolarity := by
    rintro p q b c _ hb hc ⟨v, hv, rfl⟩ ⟨w, hw, hid⟩ hcycle
    have hcontains : ∀ u : Var, u.id = v.id → growth.cycles.contains u = true :=
      fun u hu => (growth.cycles.contains_congr hu).trans hcycle
    obtain ⟨-, d, -, hd⟩ := nameOf?_of_occurs hs hdown hold hmet hroot hb hv (hcontains v rfl)
    obtain ⟨-, e, -, he⟩ := nameOf?_of_occurs hs hdown hold hmet hroot hc hw (hcontains w hid)
    exact (Prod.mk.inj (hs.distinct hd he hid.symm)).2
  guarded := by
    intro p b v body hb hv hbody w hw
    obtain ⟨-, c, -, hname⟩ := nameOf?_of_occurs hs hdown hold hmet hroot hb hv
      (VarMap.contains_of_find? hbody rfl)
    rcases hs.finished hname with hmem | ⟨body', hbody', q, d, depth, -, hd, hrel⟩
    · cases hmem
    obtain rfl := Option.some.inj (hbody.symm.trans hbody')
    rw [VarMap.contains, find?_cycles_eq_none hs (hold q d hd w (hrel.vars ▸ hw))]
    rfl
  lt_size := by
    intro p b' v h hv
    obtain ⟨b, depth, hb, hstands⟩ := stands_of_occurs hs hdown hold hmet hroot h
    rcases Nat.lt_or_ge v.id t.size with hlt | hge
    · exact hlt.trans_le hs.table.size_le
    · exact (hs.named (hstands.eq_ofVar (hold p b hb) hv hge).2).2

end Grown

end BundleGraph

namespace Reduction

open BundleGraph

variable {g : BundleGraph} {live : Nat → Prop} {cls : Nat → Nat} {r : Reduction} {p : Polarity}
  {b : Bundle} {v : Var}

theorem mem_vars_onBundle (h : v ∈ (r.onBundle b).layer.vars.items) :
    ∃ u ∈ b.layer.vars.items, r.onVar u = some v := by
  rcases b with ⟨l⟩
  rw [onBundle_node] at h
  exact List.mem_filterMap.mp (VarSet.mem_ofList h)

theorem child_onBundle {q : Polarity} {c' : Bundle} (h : (r.onBundle b).layer.Child p q c') :
    ∃ c, b.layer.Child p q c ∧ c' = r.onBundle c := by
  rcases b with ⟨l⟩
  rw [onBundle_node] at h
  exact Layer.child_map h.of_vars

theorem Consistent.mem_of_cycle (hg : g.Tidy) (h : r.Consistent g live cls) (hb : g.Occurs p b)
    (hv : v ∈ (r.onBundle b).layer.vars.items) {body' : Bundle}
    (hbody : (r.onGraph g).cycles.find? v = some body') :
    v ∈ b.layer.vars.items ∧ ∃ body, g.cycles.find? v = some body ∧ body' = r.onBundle body := by
  obtain ⟨u, hu, huv⟩ := mem_vars_onBundle hv
  have hcontains : r.bodies.contains v = true := by
    rw [onGraph, VarMap.find?_map] at hbody
    obtain ⟨c, hc, -⟩ := Option.map_eq_some_iff.mp hbody
    exact VarMap.contains_of_find? hc rfl
  have hbodies : r.bodies.contains u = true := by
    by_contra hfree
    rw [(h.onVar_of_free (Bool.eq_false_iff.mpr hfree) huv).2] at hcontains
    cases hcontains
  obtain rfl := Option.some.inj ((h.onVar_of_body hbodies).symm.trans huv)
  rw [h.find?_cycles hg hb hu] at hbody
  obtain ⟨body, hfind, rfl⟩ := Option.map_eq_some_iff.mp hbody
  exact ⟨hu, body, hfind, rfl⟩

theorem Consistent.occurs_onGraph (hg : g.Tidy) (h : r.Consistent g live cls) {b' : Bundle}
    (hb : (r.onGraph g).Occurs p b') : ∃ b, g.Occurs p b ∧ b' = r.onBundle b := by
  induction hb with
  | root => exact ⟨g.root, .root, rfl⟩
  | child _ hc ih =>
    obtain ⟨b, hb, rfl⟩ := ih
    obtain ⟨c, hchild, rfl⟩ := child_onBundle hc
    exact ⟨c, hb.child hchild, rfl⟩
  | body _ hv hbody ih =>
    obtain ⟨b, hb, rfl⟩ := ih
    obtain ⟨hmem, body, hfind, rfl⟩ := h.mem_of_cycle hg hb hv hbody
    exact ⟨body, hb.body hmem hfind, rfl⟩

theorem Consistent.onBundle_ofVar (h : r.Consistent g live cls)
    (hv : r.bodies.contains v = true) : r.onBundle (.ofVar v) = .ofVar v := by
  have hvars : (Bundle.ofVar v).layer.vars.items.filterMap r.onVar = [v] := by
    show [v].filterMap r.onVar = [v]
    rw [List.filterMap_cons, h.onVar_of_body hv]
    rfl
  rw [Bundle.ofVar, onBundle_node]
  show Bundle.node { vars := .ofList ((Bundle.ofVar v).layer.vars.items.filterMap r.onVar) } = _
  rw [hvars]
  rfl

theorem Consistent.lt_of_onVar {size : Nat} (hg : g.Orderly size) (h : r.Consistent g live cls)
    (hb : g.Occurs p b) {u : Var} (hu : u ∈ b.layer.vars.items) (huv : r.onVar u = some v) :
    v.id < size := by
  rw [onVar] at huv
  cases hs : r.subst.find? u with
  | none =>
    rw [hs] at huv
    cases huv
    exact hg.lt_size hb hu
  | some a =>
    rw [hs] at huv
    obtain rfl : a = some v := huv
    obtain ⟨q, c, hc, w, hw, hid⟩ := h.occurs hs
    rw [← hid]
    exact hg.lt_size hc hw

end Reduction

namespace BundleGraph

theorem Orderly.reduce {g : BundleGraph} {size : Nat} (hg : g.Orderly size) :
    g.reduce.Orderly size := by
  obtain ⟨live, cls, h⟩ := Reduction.ofGraph_consistent hg.toTidy
  have halone : ∀ {p b v}, g.reduce.Occurs p b → v ∈ b.layer.vars.items →
      g.reduce.cycles.contains v = true → g.Occurs p (.ofVar v) ∧ b = .ofVar v ∧
        g.cycles.contains v = true := by
    intro p b' v hb' hv hcycle
    obtain ⟨body', hbody'⟩ := Option.isSome_iff_exists.mp hcycle
    obtain ⟨b, hb, rfl⟩ := h.occurs_onGraph hg.toTidy hb'
    obtain ⟨hmem, body, hbody, rfl⟩ := h.mem_of_cycle hg.toTidy hb hv hbody'
    have hcontains := VarMap.contains_of_find? hbody (rfl : v.id = v.id)
    have hbodies : (Reduction.ofGraph g).bodies.contains v = true := by
      rw [h.bodies, hg.contains_bodies hb hmem, hcontains]
    obtain rfl := hg.alone hb hmem hcontains
    exact ⟨hb, h.onBundle_ofVar hbodies, hcontains⟩
  refine ⟨⟨fun hb hv hcycle => (halone hb hv hcycle).2.1, ?onePolarity⟩, ?guarded, ?lt_size⟩
  case onePolarity =>
    rintro p q b c _ hb hc ⟨v, hv, rfl⟩ ⟨w, hw, hid⟩ hcycle
    obtain ⟨hbv, -, hv'⟩ := halone hb hv ((VarMap.contains_congr _ rfl).trans hcycle)
    obtain ⟨hcw, -, -⟩ := halone hc hw ((VarMap.contains_congr _ hid).trans hcycle)
    refine hg.onePolarity hbv hcw ⟨v, List.mem_singleton_self v, rfl⟩
      ⟨w, List.mem_singleton_self w, hid⟩ ((g.cycles.contains_congr rfl).trans hv')
  case guarded =>
    intro p b' v body' hb' hv hbody' w hw
    obtain ⟨b, hb, rfl⟩ := h.occurs_onGraph hg.toTidy hb'
    obtain ⟨hmem, body, hbody, rfl⟩ := h.mem_of_cycle hg.toTidy hb hv hbody'
    by_contra hcycle
    obtain ⟨d, hd⟩ := Option.isSome_iff_exists.mp (Bool.not_eq_false _ ▸ hcycle)
    obtain ⟨hw', e, he, -⟩ := h.mem_of_cycle hg.toTidy (hb.body hmem hbody) hw hd
    have hfree := hg.guarded hb hmem hbody w hw'
    rw [VarMap.contains_of_find? he rfl] at hfree
    cases hfree
  case lt_size =>
    intro p b' v hb' hv
    obtain ⟨b, hb, rfl⟩ := h.occurs_onGraph hg.toTidy hb'
    obtain ⟨u, hu, huv⟩ := Reduction.mem_vars_onBundle hv
    exact h.lt_of_onVar hg hb hu huv

theorem ofTy_orderly {s : Session} {names : List String → Prop} (hs : s.table.Scoped names)
    {ty : Ty} (hty : ty.Forall s.table.Owns names) :
    ∃ g s', s.Settles (fun fuel => ofTy fuel ty) (.ok g) s' ∧ s.table.AddsVars s'.table ∧
      g.Orderly s'.table.size := by
  obtain ⟨root, growth, s', depth, hsettles, hsound, hroot⟩ := ofTy_settles s ty
  exact ⟨⟨root, growth.cycles⟩, s', hsettles, hsound.table,
    orderly_of_stands hsound (fun p b q c hb hc => hb.down hc)
      (fun p b hb => Bundle.lt_size_of_meets hs hty hb) .start hroot⟩

end BundleGraph
end Biunify
