import Biunify.Proofs.BundleGraph.Orderly
import Biunify.Proofs.BundleGraph.Runs

/-! The graph of a type has the shape that later passes rely on. Its bodies belong to the variables
that were made for it, no more and no fewer. Where such a variable stands it stands alone, no body
starts with one, and each is read at one polarity. All of this holds in every body, also in one
that the root no longer leads to: a body may be grown again in another place, and what the first
one led to stays. -/

namespace Biunify

namespace VarMap

variable {α : Type} {m : VarMap α} {v w : Var}

theorem mem_keys_insert {a : α} (h : w ∈ (m.insert v a).keys) : w = v ∨ w ∈ m.keys := by
  obtain ⟨entry, hentry, rfl⟩ := List.mem_map.mp h
  rcases Ordered.mem_insertWith hentry with rfl | hold | ⟨old, hold, rfl⟩
  · exact .inl rfl
  · exact .inr (List.mem_map_of_mem hold)
  · exact .inr (List.mem_map.mpr ⟨old, hold, rfl⟩)

theorem exists_mem_keys (h : m.contains v = true) : ∃ w ∈ m.keys, w.id = v.id := by
  obtain ⟨a, ha⟩ := Option.isSome_iff_exists.mp h
  obtain ⟨w, hw, hid⟩ := find?_eq_some_iff.mp ha
  exact ⟨w, List.mem_map.mpr ⟨(w, a), hw, rfl⟩, hid⟩

end VarMap

namespace BundleGraph

/-- A place in the root or in any body. The root is read positively, the body of a variable at the
polarity that `side` gives the variable. -/
inductive Node (g : BundleGraph) (side : Nat → Polarity) : Polarity → Bundle → Prop
  | root : g.Node side .positive g.root
  | body {v : Var} {b : Bundle} (h : g.cycles.find? v = some b) : g.Node side (side v.id) b
  | child {p q : Polarity} {b c : Bundle} (h : g.Node side p b) (hc : b.layer.Child p q c) :
    g.Node side q c

/-- A variable with a body stands alone and is read at its own polarity, and no body starts with
one. -/
structure Canonical (g : BundleGraph) (side : Nat → Polarity) : Prop where
  alone : ∀ {p b v}, g.Node side p b → v ∈ b.layer.vars.items → g.cycles.contains v = true →
    b = .ofVar v
  onSide : ∀ {p b v}, g.Node side p b → v ∈ b.layer.vars.items → g.cycles.contains v = true →
    p = side v.id
  guarded : ∀ {v body}, g.cycles.find? v = some body →
    ∀ w ∈ body.layer.vars.items, g.cycles.contains w = false

namespace Growth

structure Accounted (t : BoundTable) (g : Growth) (s : Session) : Prop where
  table : t.AddsVars s.table
  named : ∀ v, (∃ mark, g.nameOf? mark = some v) ↔ s.table.Owns v ∧ ¬ t.Owns v
  keys : ∀ v ∈ g.cycles.keys, ∃ mark, g.nameOf? mark = some v

variable {t : BoundTable} {g : Growth} {s : Session} {mark : Mark}

theorem accounted_empty (s : Session) : Accounted s.table ⟨[], .empty⟩ s where
  table := .refl _
  named v := by
    constructor
    · rintro ⟨mark, hmark⟩
      cases hmark
    · rintro ⟨hnew, hold⟩
      exact absurd hnew hold
  keys v hv := by cases hv

theorem exists_nameOf?_withName (hnew : g.nameOf? mark = none) (v w : Var) :
    (∃ other, (g.withName mark v).nameOf? other = some w) ↔
      (∃ other, g.nameOf? other = some w) ∨ w = v := by
  constructor
  · rintro ⟨other, hother⟩
    rw [nameOf?_withName] at hother
    split_ifs at hother
    · exact .inr (Option.some.inj hother).symm
    · exact .inl ⟨other, hother⟩
  · rintro (⟨other, hother⟩ | rfl)
    · exact ⟨other, namesStay_withName hnew v other w hother⟩
    · refine ⟨mark, ?_⟩
      rw [nameOf?_withName, if_pos rfl]

theorem Accounted.withName (h : Accounted t g s) (hnew : g.nameOf? mark = none) (log : List Event) :
    Accounted t (g.withName mark (s.table.nextVar 0))
      { s with table := s.table.addVar 0, log := log } where
  table := h.table.trans (.addVar s.table 0)
  named v := by
    have hnext : ¬ t.Owns (s.table.nextVar 0) :=
      fun howns => absurd howns.lt_size (Nat.not_lt.mpr h.table.size_le)
    rw [exists_nameOf?_withName hnew, h.named, BoundTable.owns_addVar]
    constructor
    · rintro (⟨hv, hold⟩ | rfl)
      · exact ⟨.inl hv, hold⟩
      · exact ⟨.inr rfl, hnext⟩
    · rintro ⟨hv | rfl, hold⟩
      · exact .inl ⟨hv, hold⟩
      · exact .inr rfl
  keys v hv := by
    obtain ⟨other, hother⟩ := h.keys v hv
    exact ⟨other, namesStay_withName hnew _ other v hother⟩

theorem Accounted.close {v : Var} (h : Accounted t g s) (hname : g.nameOf? mark = some v)
    (body : Bundle) : Accounted t { g with cycles := g.cycles.insert v body } s where
  table := h.table
  named := h.named
  keys w hw := by
    rcases VarMap.mem_keys_insert hw with rfl | hw
    · exact ⟨mark, hname⟩
    · exact h.keys w hw

end Growth

theorem grow_accounted (t : BoundTable) (fuel : Nat) (path : List Mark) (p : Polarity)
    (b : Bundle) : Maintains (Growth.Accounted t) (grow fuel path p b) :=
  grow_maintains (fun _ _ _ log h hnew => h.withName hnew log)
    (fun _ _ _ _ body h hname => h.close hname body) fuel path p b

section Grown

variable {t : BoundTable} {met : Polarity → Bundle → Prop} {growth : Growth} {s : Session}
  (hs : growth.Sound t met [] s) (ha : growth.Accounted t s)

include hs ha

theorem grownFor_of_find? {v : Var} {body : Bundle} (h : growth.cycles.find? v = some body) :
    ∃ mark w, growth.nameOf? mark = some w ∧ w.id = v.id ∧
      GrownFor t met growth.nameOf? mark body := by
  obtain ⟨w, hw, hid⟩ := VarMap.exists_mem_keys (VarMap.contains_of_find? h rfl)
  obtain ⟨mark, hname⟩ := ha.keys w hw
  refine ⟨mark, w, hname, hid, ?_⟩
  rcases hs.finished hname with hmem | ⟨body', hbody', hgrown⟩
  · cases hmem
  rw [VarMap.find?_congr _ hid, h] at hbody'
  cases hbody'
  exact hgrown

theorem mem_keys_iff (v : Var) : v ∈ growth.cycles.keys ↔ s.table.Owns v ∧ ¬ t.Owns v := by
  rw [← ha.named]
  refine ⟨ha.keys v, fun hnamed => ?_⟩
  obtain ⟨mark, hname⟩ := hnamed
  rcases hs.finished hname with hmem | ⟨body, hbody, -⟩
  · cases hmem
  obtain ⟨w, hw, hid⟩ := VarMap.exists_mem_keys (VarMap.contains_of_find? hbody rfl)
  -- Both are variables of the table, so the one id is that of one variable.
  have hwOwned := ((ha.named w).mp (ha.keys w hw)).1
  have hvOwned := ((ha.named v).mp ⟨mark, hname⟩).1
  rwa [hwOwned.eq hvOwned hid] at hw

omit ha in
theorem exists_side : ∃ side : Nat → Polarity,
    ∀ mark v, growth.nameOf? mark = some v → side v.id = mark.2 := by
  have hone : ∀ i, ∃ p, ∀ mark v, growth.nameOf? mark = some v → v.id = i → p = mark.2 := by
    intro i
    by_cases hnamed : ∃ mark v, growth.nameOf? mark = some v ∧ v.id = i
    · obtain ⟨mark, v, hname, hid⟩ := hnamed
      refine ⟨mark.2, fun other w hother hwid => ?_⟩
      rw [hs.distinct hname hother (hid.trans hwid.symm)]
    · exact ⟨.positive, fun mark v hname hid => absurd ⟨mark, v, hname, hid⟩ hnamed⟩
  choose side hside using hone
  exact ⟨side, fun mark v hname => hside v.id mark v hname rfl⟩

variable (hdown : ∀ p b q c, met p b → (b.absorb t p).layer.Child p q c → met q c)
  (hold : ∀ p b, met p b → ∀ v ∈ (b.absorb t p).layer.vars.items, v.id < t.size)
  {root b₀ : Bundle} {depth : Nat} (hmet : met .positive b₀)
  (hroot : Stands t growth.nameOf? depth .positive b₀ root) {side : Nat → Polarity}
  (hside : ∀ mark v, growth.nameOf? mark = some v → side v.id = mark.2)

include hdown hmet hroot hside

theorem stands_of_node {p : Polarity} {b' : Bundle} (h : Node ⟨root, growth.cycles⟩ side p b') :
    ∃ b depth, met p b ∧ Stands t growth.nameOf? depth p b b' := by
  induction h with
  | root => exact ⟨b₀, depth, hmet, hroot⟩
  | body hbody =>
    obtain ⟨mark, w, hname, hid, p, b, depth, rfl, hb, hrel⟩ := grownFor_of_find? hs ha hbody
    have hpolarity := hside _ w hname
    rw [hid] at hpolarity
    rw [hpolarity]
    exact ⟨b, depth + 1, hb, .inr hrel⟩
  | child _ hc ih =>
    obtain ⟨b, depth, hb, hstands⟩ := ih
    obtain ⟨c, depth, hchild, hstands⟩ := hstands.child hc
    exact ⟨c, depth, hdown _ b _ c hb hchild, hstands⟩

include hold

theorem canonical_of_stands : Canonical ⟨root, growth.cycles⟩ side := by
  have hname : ∀ {p b' v}, Node ⟨root, growth.cycles⟩ side p b' → v ∈ b'.layer.vars.items →
      growth.cycles.contains v = true → b' = .ofVar v ∧ p = side v.id := by
    intro p b' v hnode hv hcycle
    obtain ⟨b, depth, hb, hstands⟩ := stands_of_node hs ha hdown hmet hroot hside hnode
    obtain ⟨body, hbody⟩ := Option.isSome_iff_exists.mp hcycle
    obtain ⟨heq, hmark⟩ := hstands.eq_ofVar (hold p b hb) hv (hs.cycles hbody)
    exact ⟨heq, (hside _ v hmark).symm⟩
  refine ⟨fun hnode hv hcycle => (hname hnode hv hcycle).1,
    fun hnode hv hcycle => (hname hnode hv hcycle).2, fun {v body} hbody w hw => ?_⟩
  obtain ⟨mark, u, -, -, p, b, depth, -, hb, hrel⟩ := grownFor_of_find? hs ha hbody
  show (growth.cycles.find? w).isSome = false
  rw [find?_cycles_eq_none hs (hold p b hb w (hrel.vars ▸ hw))]
  rfl

end Grown

/-- The graph of a type over the table is found. The variables with a body are those that were
added to the table for it, and for some choice of a polarity for each of them the graph is
canonical. -/
theorem ofTy_canonical {s : Session} {ty : Ty} (hs : s.table.Scoped fun _ => True)
    (hty : ty.InScope s.table) :
    ∃ g s', s.Settles (fun fuel => ofTy fuel ty) (.ok g) s' ∧
      (∀ v, v ∈ g.cycles.keys ↔ s'.table.Owns v ∧ ¬ s.table.Owns v) ∧
      ∃ side, g.Canonical side := by
  obtain ⟨root, growth, s', depth, hsettles, hsound, hroot⟩ := grow_settles s ty
  obtain ⟨fuel, hfuel⟩ := hsettles.enough
  obtain ⟨growth', haccounted, hsame⟩ := grow_accounted s.table fuel [] .positive _ _ s _ s'
    (Growth.accounted_empty s) (hfuel fuel le_rfl)
  obtain rfl := hsame root growth rfl
  obtain ⟨side, hside⟩ := exists_side hsound
  refine ⟨⟨root, growth.cycles⟩, s', ofTy_settles_of_grow hsettles, mem_keys_iff hsound haccounted,
    side, ?_⟩
  exact canonical_of_stands hsound haccounted (fun p b q c hb hc => hb.down hc)
    (fun p b hb => Bundle.lt_size_of_meets hs hty hb) .start hroot hside

def feedback : BoundTable :=
  (((BoundTable.empty.addVar 0).addVar 0).addBound .positive ⟨0, 0⟩
    (.arrow 0 (.var ⟨1, 0⟩) (.var ⟨0, 0⟩))).addBound .negative ⟨1, 0⟩
    (.arrow 1 (.var ⟨0, 0⟩) (.var ⟨1, 0⟩))

theorem feedback_scoped : feedback.Scoped fun _ => True := by
  have hempty := BoundTable.scoped_empty fun _ => True
  unfold feedback
  refine (((hempty.addVar 0).addVar 0).addBound ?_ ?_ .positive).addBound ?_ ?_ .negative
  · rfl
  · exact ⟨rfl, rfl⟩
  · rfl
  · exact ⟨rfl, rfl⟩

theorem ofTy_canonical_feedback :
    feedback.Scoped (fun _ => True) ∧ (Ty.var ⟨0, 0⟩).InScope feedback ∧
      ∃ g s', Session.Settles ⟨feedback, 2, []⟩ (fun fuel => ofTy fuel (.var ⟨0, 0⟩)) (.ok g) s' ∧
        (∀ v, v ∈ g.cycles.keys ↔ s'.table.Owns v ∧ ¬ feedback.Owns v) ∧
        ∃ side, g.Canonical side := by
  have hty : (Ty.var ⟨0, 0⟩).InScope feedback := rfl
  exact ⟨feedback_scoped, hty, ofTy_canonical (s := ⟨feedback, 2, []⟩) feedback_scoped hty⟩

end BundleGraph
end Biunify
