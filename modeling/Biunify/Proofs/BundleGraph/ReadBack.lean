import Biunify.Proofs.Bundle.Key
import Biunify.Proofs.BundleGraph.Visits
import Biunify.Proofs.TypeExpr.Unfolding

/-! The type expression that a graph is read as unfolds to the graph. A binder stands for the
place that it was made for: when it is reached, at least one function, record or tuple has been
passed since the place was entered, so the trees agree at every depth if they agree at all
smaller ones. -/

namespace Biunify
namespace BundleGraph

/-- The tree of a bundle at a place, where `below` reads what is one constructor further down.
Variables with a body are followed at most `hops` times without a constructor in between. -/
def treeAt (g : BundleGraph) (below : Polarity → Bundle → TypeTree) :
    (hops : Nat) → Polarity → Bundle → TypeTree
  | 0, _, _ => .cut
  | hops + 1, p, b =>
    if b.layer.top then .top
    else .ofParts p
      ((b.layer.vars.items.map fun v =>
          match g.cycles.find? v with
          | some body => treeAt g below hops p body
          | none => .var v.id)
        ++ b.layer.bases.toList.map .base
        ++ (b.layer.record.map fun fields =>
            TypeTree.record (fields.map fun f => (f.1, below p f.2))).toList
        ++ (b.layer.tuple.map fun elems => TypeTree.tuple (elems.map (below p))).toList
        ++ (b.layer.func.map fun f => TypeTree.arrow (below p.flip f.1) (below p f.2)).toList)

/-- The plain reading of a bundle as a tree. Bodies follow one another directly no more often than
there are cycles, unless they do so for ever. -/
def tree (g : BundleGraph) : (depth : Nat) → Polarity → Bundle → TypeTree
  | 0, _, _ => .cut
  | depth + 1, p, b => g.treeAt (g.tree depth) (g.cycles.size + 1) p b

/-- What is asked of a graph that is read with the variables of a table: field names are plain and
no record is empty, no cycle is read at both polarities, and no body has a variable with a body
at its top. -/
structure Readable (g : BundleGraph) (t : BoundTable) : Prop where
  madeOf : ∀ {p b}, g.Occurs p b → ∃ depth, b.MadeOf (.plain t) depth
  record : ∀ {p b}, g.Occurs p b → b.layer.record ≠ some []
  onePolarity : g.OnePolarity
  guarded : ∀ {p b v body}, g.Occurs p b → v ∈ b.layer.vars.items →
    g.cycles.find? v = some body → ∀ w ∈ body.layer.vars.items, g.cycles.find? w = none

namespace Item

def tree (g : BundleGraph) (depth : Nat) (p : Polarity) : Item → TypeTree
  | var v =>
    match g.cycles.find? v with
    | some body => g.tree depth p body
    | none => if depth = 0 then .cut else .var v.id
  | bundle b => g.tree depth p b

def rank (g : BundleGraph) : Item → Nat
  | var v => if g.cycles.contains v then 2 else 0
  | bundle b => if b.layer.vars.items.any g.cycles.contains then 3 else 1

end Item

namespace Readable

variable {g : BundleGraph} {t : BoundTable} (hg : g.Readable t)

include hg

theorem dropEmptyRecords_eq {p : Polarity} {b : Bundle} (hb : g.Occurs p b) :
    b.dropEmptyRecords = b := by
  induction b generalizing p with
  | node l ih =>
    have hkeep : l.dropEmptyRecord = l := by
      have hrecord := hg.record hb
      rcases l with ⟨vars, bases, tuple, record, func, top⟩
      rcases record with - | ⟨- | ⟨f, fs⟩⟩
      · rfl
      · exact absurd rfl hrecord
      · rfl
    have hself : l.map Bundle.dropEmptyRecords = l.map fun b => b :=
      Layer.map_congr p fun q b hc => ih p q b hc (hb.child hc)
    rw [Bundle.dropEmptyRecords_node, hkeep, hself, Layer.map_self]

theorem owns {p : Polarity} {v : Var} (hv : Item.Occurs g p (.var v)) : t.Owns v := by
  obtain ⟨b, hb, hmem⟩ := hv
  obtain ⟨depth, hb⟩ := hg.madeOf hb
  exact hb.vars v hmem

theorem eq_of_place_eq {p q : Polarity} {i j : Item} (hi : i.Occurs g p) (hj : j.Occurs g q)
    (h : i.place p = j.place q) : p = q ∧ i = j := by
  cases i with
  | var v =>
    cases j with
    | var w =>
      have hid : v.id = w.id := (Place.var.inj h).1
      exact ⟨(Place.var.inj h).2, congrArg Item.var ((hg.owns hi).eq (hg.owns hj) hid)⟩
    | bundle c => cases h
  | bundle b =>
    cases j with
    | var w => cases h
    | bundle c =>
      obtain ⟨hkey, hp⟩ := Place.bundle.inj h
      obtain ⟨depth, hb⟩ := hg.madeOf hi
      obtain ⟨depth', hc⟩ := hg.madeOf hj
      have hsame := Bundle.sameFields_of_key_eq (hb.mono (Nat.le_max_left depth depth'))
        (hc.mono (Nat.le_max_right depth depth')) hkey
      have hbc : b.dropEmptyRecords = c.dropEmptyRecords := hsame
      rw [hg.dropEmptyRecords_eq hi, hg.dropEmptyRecords_eq hj] at hbc
      exact ⟨hp, congrArg Item.bundle hbc⟩

end Readable

section Trees

variable {g : BundleGraph} {t : BoundTable} {p : Polarity} {b : Bundle}

theorem treeAt_of_free (below : Polarity → Bundle → TypeTree)
    (hfree : ∀ v ∈ b.layer.vars.items, g.cycles.find? v = none) (hops hops' : Nat) :
    g.treeAt below (hops + 1) p b = g.treeAt below (hops' + 1) p b := by
  have hvars : ∀ k, (b.layer.vars.items.map fun v => match g.cycles.find? v with
      | some body => g.treeAt below k p body
      | none => .var v.id) = b.layer.vars.items.map fun v => TypeTree.var v.id := by
    intro k
    refine List.map_congr_left fun v hv => ?_
    rw [hfree v hv]
  rw [treeAt, treeAt, hvars, hvars]

@[simp] theorem Item.tree_zero (i : Item) : i.tree g 0 p = .cut := by
  cases i with
  | var v =>
    rw [Item.tree]
    cases g.cycles.find? v <;> rfl
  | bundle b => rfl

theorem Readable.tree_succ (hg : g.Readable t) (hb : g.Occurs p b) (n : Nat) :
    g.tree (n + 1) p b = if b.layer.top then .top else .ofParts p
      (b.layer.vars.items.map (fun v => Item.tree g (n + 1) p (.var v))
        ++ b.layer.bases.toList.map .base
        ++ (b.layer.record.map fun fields =>
            TypeTree.record (fields.map fun f => (f.1, g.tree n p f.2))).toList
        ++ (b.layer.tuple.map fun elems => TypeTree.tuple (elems.map (g.tree n p))).toList
        ++ (b.layer.func.map fun f =>
            TypeTree.arrow (g.tree n p.flip f.1) (g.tree n p f.2)).toList) := by
  have hvars : (b.layer.vars.items.map fun v => match g.cycles.find? v with
      | some body => g.treeAt (g.tree n) g.cycles.size p body
      | none => .var v.id) = b.layer.vars.items.map fun v => Item.tree g (n + 1) p (.var v) := by
    refine List.map_congr_left fun v hv => ?_
    rw [Item.tree]
    cases hbody : g.cycles.find? v with
    | none => rfl
    | some body =>
      obtain ⟨w, hw, -⟩ := VarMap.find?_eq_some_iff.mp hbody
      obtain ⟨k, hk⟩ := Nat.exists_eq_succ_of_ne_zero (List.length_pos_of_mem hw).ne'
      show g.treeAt (g.tree n) g.cycles.items.length p body =
        g.treeAt (g.tree n) (g.cycles.items.length + 1) p body
      rw [hk]
      exact treeAt_of_free _ (hg.guarded hb hv hbody) k (k + 1)
  rw [tree, treeAt, hvars]

theorem Item.rank_var_lt {v : Var} (hv : v ∈ b.layer.vars.items) :
    Item.rank g (.var v) < Item.rank g (.bundle b) := by
  rw [rank, rank]
  split_ifs with hcycle hany hany
  · decide
  · exact absurd (List.any_eq_true.mpr ⟨v, hv, hcycle⟩) hany
  · decide
  · decide

theorem Readable.rank_body_lt (hg : g.Readable t) (hb : g.Occurs p b) {v : Var} {body : Bundle}
    (hv : v ∈ b.layer.vars.items) (hbody : g.cycles.find? v = some body) :
    Item.rank g (.bundle body) < Item.rank g (.var v) := by
  have hnone : ¬body.layer.vars.items.any g.cycles.contains = true := by
    rw [List.any_eq_true]
    rintro ⟨w, hw, hcycle⟩
    rw [VarMap.contains, hg.guarded hb hv hbody w hw] at hcycle
    cases hcycle
  rw [Item.rank, Item.rank, if_neg hnone, if_pos (VarMap.contains_of_find? hbody rfl)]
  decide

end Trees

section Environments

variable (g : BundleGraph)

def FreeIn (env : Nat → Nat → TypeTree) : Prop :=
  ∀ ⦃p v⦄, Item.Occurs g p (.var v) → g.cycles.find? v = none → ∀ n, env v.id n = .var v.id

/-- The binders stand for the trees of their places at every smaller depth, and at this one for
those of smaller rank. -/
def BoundIn (env : Nat → Nat → TypeTree) (ps : List Pending) (n r : Nat) : Prop :=
  ∀ ⦃p : Polarity⦄ ⦃i : Item⦄ ⦃k : Nat⦄, i.Occurs g p → binderOf (i.place p) ps = some k →
    ∀ m, m < n ∨ m = n ∧ i.rank g < r → env k m = i.tree g m p

end Environments

section Close

variable {g : BundleGraph} {t : BoundTable} {env : Nat → Nat → TypeTree} {ps : List Pending}
  {n k : Nat} {p : Polarity} {i : Item}

theorem Names.place_eq (hg : g.Readable t) (hnames : g.Names t.size ps n) (hi : i.Occurs g p)
    (hk : binderOf (i.place p) ps = some k) {q : Polarity} {j : Item} (hj : j.Occurs g q)
    (hk' : binderOf (j.place q) ps = some k) : i.place p = j.place q := by
  cases i with
  | var v =>
    have hvk := hnames.var hk
    cases j with
    | var w =>
      have hid : v.id = w.id := hvk.symm.trans (hnames.var hk')
      have hcycle := hnames.cycle (mem_of_binderOf hk)
      obtain ⟨b, hb, hv⟩ := hi
      obtain ⟨c, hc, hw⟩ := hj
      have hpq := hg.onePolarity hb hc ⟨v, hv, rfl⟩ ⟨w, hw, hid.symm⟩ hcycle
      rw [Item.place, Item.place, hid, hpq]
    | bundle c =>
      have hlt := (hg.owns hi).lt_size
      have hle := (hnames.bundle hk').1
      omega
  | bundle b =>
    cases j with
    | var w =>
      have hwk := hnames.var hk'
      have hlt := (hg.owns hj).lt_size
      have hle := (hnames.bundle hk).1
      omega
    | bundle c =>
      obtain ⟨hkey, hpq⟩ := hnames.distinct hk hk'
      rw [Item.place, Item.place, hkey, hpq]

theorem Names.freeIn_update (hg : g.Readable t) (hnames : g.Names t.size ps n)
    (hk : binderOf (i.place p) ps = some k) (hfree : g.FreeIn env) (d : Nat → TypeTree) :
    g.FreeIn (Function.update env k d) := by
  intro q v hv hnone m
  have hne : v.id ≠ k := by
    rintro rfl
    cases i with
    | var w =>
      have hid := hnames.var hk
      have hcycle := hnames.cycle (mem_of_binderOf hk)
      rw [← hid, VarMap.contains, g.cycles.find?_congr (show Var.id ⟨v.id, 0⟩ = v.id from rfl),
        hnone] at hcycle
      cases hcycle
    | bundle c =>
      have hlt := (hg.owns hv).lt_size
      have hle := (hnames.bundle hk).1
      omega
  rw [Function.update_of_ne hne]
  exact hfree hv hnone m

theorem close_unfold (hg : g.Readable t) {o : Option Nat} {e : TypeExpr} {m r : Nat}
    (hi : i.Occurs g p) (hnames : g.Names t.size (⟨i.place p, o⟩ :: ps) n) (hrank : i.rank g < r)
    (hfree : g.FreeIn env) (hbound : g.BoundIn env ps m r)
    (hbody : ∀ env' m', m' ≤ m → g.FreeIn env' →
      g.BoundIn env' (⟨i.place p, o⟩ :: ps) m' (i.rank g) →
        e.unfold .constructors env' m' = i.tree g m' p) :
    (close o e).unfold .constructors env m = i.tree g m p := by
  -- What is bound outside stays so at a smaller depth, or at this one for smaller ranks.
  have houter : ∀ {q : Polarity} {j : Item} {k' : Nat}, j.Occurs g q →
      binderOf (j.place q) ps = some k' → ∀ m' m'', m' ≤ m →
        (m'' < m' ∨ m'' = m' ∧ j.rank g < i.rank g) → env k' m'' = j.tree g m'' q := by
    intro q j k' hj hk' m' m'' hle hm
    refine hbound hj hk' m'' ?_
    rcases hm with hlt | ⟨rfl, hlt⟩
    · exact .inl (hlt.trans_le hle)
    · rcases hle.lt_or_eq with hlt' | rfl
      · exact .inl hlt'
      · exact .inr ⟨rfl, hlt.trans hrank⟩
  cases o with
  | none =>
    refine hbody env m (Nat.le_refl m) hfree fun q j k' hj hk' m'' hm => ?_
    rw [binderOf_cons] at hk'
    split_ifs at hk'
    exact houter hj hk' m m'' (Nat.le_refl m) hm
  | some k =>
    have hself : binderOf (i.place p) (⟨i.place p, some k⟩ :: ps) = some k := by
      rw [binderOf_cons, if_pos rfl]
    rw [close]
    refine TypeExpr.unfold_recursive .constructors env (fun m' => i.tree g m' p)
      fun m' hle approx happrox => ?_
    refine hbody _ m' hle (hnames.freeIn_update hg hself hfree _) fun q j k' hj hk' m'' hm => ?_
    by_cases hplace : i.place p = j.place q
    · obtain ⟨rfl, rfl⟩ := hg.eq_of_place_eq hi hj hplace
      obtain rfl : k = k' := Option.some.inj (hself.symm.trans hk')
      have hlt : m'' < m' := hm.resolve_right fun h => absurd h.2 (Nat.lt_irrefl _)
      rw [Function.update_self]
      exact happrox m'' hlt
    · have hne : k' ≠ k := by
        rintro rfl
        exact hplace (hnames.place_eq hg hi hself hj hk')
      rw [binderOf_cons, if_neg hplace] at hk'
      rw [Function.update_of_ne hne]
      exact houter hj hk' m' m'' hle hm

end Close

theorem BoundIn.mono {g : BundleGraph} {env : Nat → Nat → TypeTree} {ps ps' : List Pending}
    {n r : Nat} (h : g.BoundIn env ps' n r)
    (hkeep : ∀ {place k}, binderOf place ps = some k → binderOf place ps' = some k) :
    g.BoundIn env ps n r :=
  fun _ _ _ hi hk => h hi (hkeep hk)

theorem BoundIn.pred {g : BundleGraph} {env : Nat → Nat → TypeTree} {ps : List Pending} {n r : Nat}
    (h : g.BoundIn env ps (n + 1) r) (r' : Nat) : g.BoundIn env ps n r' :=
  fun _ _ _ hi hk m hm => h hi hk m (.inl (by omega))

theorem Item.rank_lt_four (g : BundleGraph) (i : Item) : i.rank g < 4 := by
  cases i with
  | var v => rw [rank]; split_ifs <;> decide
  | bundle b => rw [rank]; split_ifs <;> decide

section Parts

variable {g : BundleGraph} {env : Nat → Nat → TypeTree} {l : Layer Bundle} {p : Polarity} {n : Nat}

theorem map_unfold_fields {fs : List TypeExpr}
    (h : fs.map (·.unfold .constructors env n) = (l.fieldItems p).map fun x => x.2.tree g n x.1) :
    (l.record.map fun names => TypeExpr.record
        (names.zipWith (fun f e => (f.1, e)) fs)).toList.map (·.unfold .constructors env (n + 1)) =
      (l.record.map fun fields =>
        TypeTree.record (fields.map fun f => (f.1, g.tree n p f.2))).toList := by
  cases hr : l.record with
  | none => rfl
  | some names =>
    have hfs : fs.map (·.unfold .constructors env n) = names.map fun f => g.tree n p f.2 := by
      simpa [Layer.fieldItems, hr, Function.comp_def, Item.tree] using h
    have hzip : names.zipWith (fun f e => (f.1, e.unfold .constructors env n)) fs =
        names.zipWith (fun f x => (f.1, x)) (fs.map (·.unfold .constructors env n)) :=
      List.zipWith_map_right.symm
    rw [hfs, List.zipWith_map_right, List.zipWith_self] at hzip
    simp [TypeExpr.unfold, TypeExpr.unfoldFields_eq, List.map_zipWith, hzip]

theorem map_unfold_elems {ts : List TypeExpr}
    (h : ts.map (·.unfold .constructors env n) = (l.elemItems p).map fun x => x.2.tree g n x.1) :
    (l.tuple.map fun _ => TypeExpr.tuple ts).toList.map (·.unfold .constructors env (n + 1)) =
      (l.tuple.map fun elems => TypeTree.tuple (elems.map (g.tree n p))).toList := by
  cases ht : l.tuple with
  | none => rfl
  | some elems =>
    have hts : ts.map (·.unfold .constructors env n) = elems.map (g.tree n p) := by
      simpa [Layer.elemItems, ht, Function.comp_def, Item.tree] using h
    simp [TypeExpr.unfold, TypeExpr.unfoldList_eq, hts]

theorem map_unfold_func {as rs : List TypeExpr}
    (has : as.map (·.unfold .constructors env n) = (l.paramItems p).map fun x => x.2.tree g n x.1)
    (hrs : rs.map (·.unfold .constructors env n) =
      (l.resultItems p).map fun x => x.2.tree g n x.1) :
    (as.zipWith TypeExpr.arrow rs).map (·.unfold .constructors env (n + 1)) = (l.func.map fun f =>
      TypeTree.arrow (g.tree n p.flip f.1) (g.tree n p f.2)).toList := by
  have hzip : (as.zipWith TypeExpr.arrow rs).map (·.unfold .constructors env (n + 1)) =
      (as.map (·.unfold .constructors env n)).zipWith TypeTree.arrow
        (rs.map (·.unfold .constructors env n)) := by
    rw [List.map_zipWith, List.zipWith_map]
    rfl
  rw [hzip, has, hrs, Layer.paramItems, Layer.resultItems, List.map_map, List.map_map,
    List.zipWith_map, List.zipWith_self, Option.toList_map]
  rfl

theorem map_unfold_exprs {vs fs ts as rs : List TypeExpr}
    (hvs : vs.map (·.unfold .constructors env (n + 1)) =
      (l.varItems p).map fun x => x.2.tree g (n + 1) x.1)
    (hfs : fs.map (·.unfold .constructors env n) = (l.fieldItems p).map fun x => x.2.tree g n x.1)
    (hts : ts.map (·.unfold .constructors env n) = (l.elemItems p).map fun x => x.2.tree g n x.1)
    (has : as.map (·.unfold .constructors env n) = (l.paramItems p).map fun x => x.2.tree g n x.1)
    (hrs : rs.map (·.unfold .constructors env n) =
      (l.resultItems p).map fun x => x.2.tree g n x.1) :
    (l.exprs vs fs ts as rs).map (·.unfold .constructors env (n + 1)) =
      l.vars.items.map (fun v => Item.tree g (n + 1) p (.var v)) ++ l.bases.toList.map .base
        ++ (l.record.map fun fields =>
            TypeTree.record (fields.map fun f => (f.1, g.tree n p f.2))).toList
        ++ (l.tuple.map fun elems => TypeTree.tuple (elems.map (g.tree n p))).toList
        ++ (l.func.map fun f => TypeTree.arrow (g.tree n p.flip f.1) (g.tree n p f.2)).toList := by
  have hbases : (l.bases.toList.map TypeExpr.base).map (·.unfold .constructors env (n + 1)) =
      l.bases.toList.map .base := by
    rw [List.map_map]
    rfl
  rw [Layer.exprs, List.map_append, List.map_append, List.map_append, List.map_append, hvs, hbases,
    map_unfold_fields hfs, map_unfold_elems hts, map_unfold_func has hrs, Layer.varItems,
    List.map_map]
  rfl

end Parts

theorem Visits.map_unfold {g : BundleGraph} {t : BoundTable} (hg : g.Readable t)
    {ps ps' : List Pending} {n n' : Nat} {is : List (Polarity × Item)} {es : List TypeExpr}
    (h : g.Visits ps n is es ps' n') (hocc : ∀ x ∈ is, x.2.Occurs g x.1)
    (hnames : g.Names t.size ps n) {env : Nat → Nat → TypeTree} {m r : Nat}
    (hrank : ∀ x ∈ is, x.2.rank g < r) (hfree : g.FreeIn env) (hbound : g.BoundIn env ps' m r) :
    es.map (·.unfold .constructors env m) = is.map fun x => x.2.tree g m x.1 := by
  induction h generalizing env m r with
  | nil => rfl
  | @refer ps ps' n n' k p i _ is es hfind rest ih =>
    obtain ⟨hi, hocc⟩ := List.forall_mem_cons.mp hocc
    obtain ⟨hr, hrank⟩ := List.forall_mem_cons.mp hrank
    have hk : binderOf (i.place p) ps = some k := by rw [binderOf, hfind]; rfl
    have hhead : (TypeExpr.var k).unfold .constructors env m = i.tree g m p := by
      cases m with
      | zero => rw [TypeExpr.unfold_zero, Item.tree_zero]
      | succ m => exact hbound hi (rest.keeps hk) _ (.inr ⟨rfl, hr⟩)
    rw [List.map_cons, List.map_cons, hhead, ih hocc hnames hrank hfree hbound]
  | @name ps ps' n n' p i _ is es hfind rest ih =>
    obtain ⟨hi, hocc⟩ := List.forall_mem_cons.mp hocc
    obtain ⟨hr, hrank⟩ := List.forall_mem_cons.mp hrank
    have hk : binderOf (i.place p) (setBinder (i.place p) (i.binder n) ps) = some (i.binder n) := by
      rw [binderOf_setBinder, hfind, if_pos ⟨rfl, rfl⟩]
    have hhead : (TypeExpr.var (i.binder n)).unfold .constructors env m = i.tree g m p := by
      cases m with
      | zero => rw [TypeExpr.unfold_zero, Item.tree_zero]
      | succ m => exact hbound hi (rest.keeps hk) _ (.inr ⟨rfl, hr⟩)
    have hnames' : g.Names t.size (setBinder (i.place p) (i.binder n) ps) (i.fresh n) := by
      cases i with
      | var v => exact hnames.setVar
      | bundle b => exact hnames.setBundle
    rw [List.map_cons, List.map_cons, hhead, ih hocc hnames' hrank hfree hbound]
  | @leaf ps ps' n n' p v is es hfind hnone rest ih =>
    obtain ⟨hi, hocc⟩ := List.forall_mem_cons.mp hocc
    obtain ⟨-, hrank⟩ := List.forall_mem_cons.mp hrank
    have hhead : (TypeExpr.var v.id).unfold .constructors env m = Item.tree g m p (.var v) := by
      cases m with
      | zero => rw [TypeExpr.unfold_zero, Item.tree_zero]
      | succ m =>
        rw [TypeExpr.unfold, Item.tree, hnone, hfree hi hnone]
        rfl
    rw [List.map_cons, List.map_cons, hhead, ih hocc hnames hrank hfree hbound]
  | @top ps ps' n n' p b is es hfind htop rest ih =>
    obtain ⟨hi, hocc⟩ := List.forall_mem_cons.mp hocc
    obtain ⟨-, hrank⟩ := List.forall_mem_cons.mp hrank
    have hhead : TypeExpr.top.unfold .constructors env m = Item.tree g m p (.bundle b) := by
      cases m with
      | zero => rfl
      | succ m =>
        rw [Item.tree, hg.tree_succ hi, if_pos htop]
        rfl
    rw [List.map_cons, List.map_cons, hhead, ih hocc hnames hrank hfree hbound]
  | @cycle ps ps₁ ps' n n₁ n' p v body k e is es hfind hbody inner rest ihinner ih =>
    obtain ⟨hi, hocc⟩ := List.forall_mem_cons.mp hocc
    obtain ⟨hr, hrank⟩ := List.forall_mem_cons.mp hrank
    have hinner := inner.names (hnames.pushVar hbody)
    have hnames' := hinner.pop inner.map_place hfind
    obtain ⟨c, hc, hv⟩ := id hi
    have hhead : (close k e).unfold .constructors env m = Item.tree g m p (.var v) := by
      refine close_unfold hg hi hinner hr hfree (hbound.mono rest.keeps)
        fun env' m' _ hfree' hbound' => ?_
      have hbodyTree : Item.tree g m' p (.var v) = Item.tree g m' p (.bundle body) := by
        rw [Item.tree, hbody]
        rfl
      have hlist := ihinner (List.forall_mem_singleton.mpr (hc.body hv hbody))
        (hnames.pushVar hbody) (List.forall_mem_singleton.mpr (hg.rank_body_lt hc hv hbody)) hfree'
        hbound'
      rw [hbodyTree]
      exact (List.cons.inj hlist).1
    rw [List.map_cons, List.map_cons, hhead, ih hocc hnames' hrank hfree hbound]
  | @bundle ps ps₁ ps₂ ps₃ ps₄ ps₅ ps' n n₁ n₂ n₃ n₄ n₅ n' p b k vs fs ts as rs is es hfind htop
      vars fields elems params results rest ihv ihf iht iha ihr ih =>
    obtain ⟨hi, hocc⟩ := List.forall_mem_cons.mp hocc
    obtain ⟨hr, hrank⟩ := List.forall_mem_cons.mp hrank
    have hb : g.Occurs p b := hi
    have hn : g.Names t.size (⟨.bundle b.key p, none⟩ :: ps) n := hnames.pushBundle
    have hn₁ := vars.names hn
    have hn₂ := fields.names hn₁
    have hn₃ := elems.names hn₂
    have hn₄ := params.names hn₃
    have hn₅ := results.names hn₄
    have hplaces := results.map_place.trans (params.map_place.trans (elems.map_place.trans
      (fields.map_place.trans vars.map_place)))
    have hhead : (close k (ofParts p (b.layer.exprs vs fs ts as rs))).unfold .constructors env m =
        Item.tree g m p (.bundle b) := by
      refine close_unfold hg hi hn₅ hr hfree (hbound.mono rest.keeps)
        fun env' m' _ hfree' hbound' => ?_
      cases m' with
      | zero => rw [TypeExpr.unfold_zero, Item.tree_zero]
      | succ m' =>
        -- Below a constructor all binders stand for their places at the depth that is left.
        have hb₅ := hbound'.pred 4
        have hb₄ := hb₅.mono results.keeps
        have hb₃ := hb₄.mono params.keeps
        have hb₂ := hb₃.mono elems.keeps
        have hb₁ := hbound'.mono fun hk =>
          results.keeps (params.keeps (elems.keeps (fields.keeps hk)))
        have hvars : ∀ x ∈ b.layer.varItems p, x.2.rank g < Item.rank g (.bundle b) := by
          intro x hx
          obtain ⟨v, hv, rfl⟩ := List.mem_map.mp hx
          exact Item.rank_var_lt hv
        have hvs := ihv hb.varItems hn hvars hfree' hb₁
        have hfs := ihf hb.fieldItems hn₁ (fun x _ => x.2.rank_lt_four g) hfree' hb₂
        have hts := iht hb.elemItems hn₂ (fun x _ => x.2.rank_lt_four g) hfree' hb₃
        have has := iha hb.paramItems hn₃ (fun x _ => x.2.rank_lt_four g) hfree' hb₄
        have hrs := ihr hb.resultItems hn₄ (fun x _ => x.2.rank_lt_four g) hfree' hb₅
        rw [TypeExpr.unfold_ofParts, map_unfold_exprs hvs hfs hts has hrs, Item.tree,
          hg.tree_succ hb, htop]
        rfl
    rw [List.map_cons, List.map_cons, hhead,
      ih hocc (hn₅.pop hplaces hfind) hrank hfree hbound]

/-- The expression that a graph is read as and the plain reading of the graph are one tree. -/
theorem unfold_toTypeExpr {g : BundleGraph} {s : Session} (hg : g.Readable s.table) :
    ∃ e s', s.perform g.toTypeExpr = (.ok e, s') ∧
      ∀ n, e.unfold .constructors (fun x _ => .var x) n = g.tree n .positive g.root := by
  obtain ⟨e, s', hrun, -, hvisit⟩ := g.toTypeExpr_visits s
  refine ⟨e, s', hrun, fun n => ?_⟩
  have hnames : g.Names s.table.size [] s.table.size :=
    ⟨Nat.le_refl _, nofun, nofun, nofun, nofun⟩
  have hroot : ∀ x ∈ [(Polarity.positive, Item.bundle g.root)], x.2.Occurs g x.1 :=
    List.forall_mem_singleton.mpr .root
  have hfree : g.FreeIn fun x _ => .var x := fun _ _ _ _ _ => rfl
  have hbound : g.BoundIn (fun x _ => .var x) [] n 4 := nofun
  have hlist := hvisit.map_unfold hg hroot hnames (fun x _ => x.2.rank_lt_four g) hfree hbound
  exact (List.cons.inj hlist).1

def threeVars : BoundTable := ((BoundTable.empty.addVar 0).addVar 0).addVar 0

theorem sharedStream_readable : sharedStream.Readable threeVars := by
  have hvar : ∀ v ∈ sharedElement.layer.vars.items, threeVars.Owns v := by
    intro v hv
    rcases List.mem_pair.mp hv with rfl | rfl <;> rfl
  have helement : sharedElement.MadeOf (.plain threeVars) 1 := ⟨hvar, nofun, nofun, nofun⟩
  have hcycle : (Bundle.ofVar ⟨2, 0⟩).MadeOf (.plain threeVars) 1 :=
    ⟨fun v hv => by rw [List.mem_singleton.mp hv]; rfl, nofun, nofun, nofun⟩
  have hbody : sharedBody.MadeOf (.plain threeVars) 2 := by
    refine ⟨nofun, nofun, fun hr => ?_, nofun⟩
    cases hr
    refine ⟨List.pairwise_pair.mpr (by decide), fun f hf => ?_⟩
    rcases List.mem_pair.mp hf with rfl | rfl
    · exact ⟨show Ty.PlainName "head" by decide, helement⟩
    · exact ⟨show Ty.PlainName "tail" by decide, hcycle⟩
  have hroot : sharedStream.root.MadeOf (.plain threeVars) 2 := by
    refine ⟨nofun, nofun, nofun, fun hf => ?_⟩
    cases hf
    exact ⟨helement, hcycle⟩
  refine ⟨fun hb => ?_, fun hb => ?_, sharedStream_tidy.onePolarity, fun hb hv hfind => ?_⟩
  · rcases sharedStream_occurs hb with ⟨-, rfl | rfl | rfl⟩ | rfl
    · exact ⟨2, hroot⟩
    · exact ⟨1, hcycle⟩
    · exact ⟨2, hbody⟩
    · exact ⟨1, helement⟩
  · rcases sharedStream_occurs hb with ⟨-, rfl | rfl | rfl⟩ | rfl <;> nofun
  · rw [sharedStream, VarMap.find?_insert] at hfind
    split_ifs at hfind
    · cases hfind
      nofun
    · cases hfind

theorem unfold_toTypeExpr_sharedStream : sharedStream.Readable threeVars ∧
    ∃ e s', Session.perform ⟨threeVars, 0, []⟩ sharedStream.toTypeExpr = (.ok e, s') ∧
      ∀ n, e.unfold .constructors (fun x _ => .var x) n =
        sharedStream.tree n .positive sharedStream.root :=
  ⟨sharedStream_readable, unfold_toTypeExpr (s := ⟨threeVars, 0, []⟩) sharedStream_readable⟩

end BundleGraph
end Biunify
