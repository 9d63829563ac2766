import Biunify.Proofs.Bundle.Fields
import Biunify.Proofs.Bundle.Structure

/-! The laws of combining bundles. Where no tuples clash, a union or an intersection of bundles
depends neither on the order nor on the grouping of what is combined, and combining a bundle with
itself or with the empty bundle changes nothing. So bounds may be absorbed in any order. -/

namespace Biunify

section Merge

variable {α β : Type} {f : α → α → α} {a b c : Option α}

theorem merge_comm_of (h : ∀ x, a = some x → ∀ y, b = some y → f x y = f y x) :
    a.merge f b = b.merge f a := by
  cases a with
  | none => cases b <;> rfl
  | some x =>
    cases b with
    | none => rfl
    | some y => exact congrArg some (h x rfl y rfl)

theorem merge_assoc_of (h : ∀ x, a = some x → ∀ y, b = some y → ∀ z, c = some z →
    f (f x y) z = f x (f y z)) : (a.merge f b).merge f c = a.merge f (b.merge f c) := by
  cases a <;> cases b <;> cases c <;> simp [Option.merge, h]

theorem merge_self_of (h : ∀ x, a = some x → f x x = x) : a.merge f a = a := by
  cases a <;> simp [Option.merge, h]

theorem map_merge_of {g : α → β} {f' : β → β → β}
    (h : ∀ x, a = some x → ∀ y, b = some y → g (f x y) = f' (g x) (g y)) :
    (a.merge f b).map g = (a.map g).merge f' (b.map g) := by
  cases a <;> cases b <;> simp [Option.merge, h]

theorem merge_eq_some {x : α} (h : a.merge f b = some x) :
    a = some x ∨ b = some x ∨ ∃ y z, a = some y ∧ b = some z ∧ x = f y z := by
  cases a <;> cases b <;> simp_all [Option.merge]

end Merge

namespace Bundle

/-- Nothing in the bundle is everything, all tuples have one length, and the fields of every
record ascend by name. -/
inductive Uniform (n : Nat) : Bundle → Prop
  | intro {l : Layer Bundle} (top : l.top = false)
    (tuple : ∀ elems, l.tuple = some elems → elems.length = n)
    (record : ∀ fields, l.record = some fields → Ordered.Ascending Prod.fst fields)
    (below : ∀ p q b, l.Child p q b → Uniform n b) : Uniform n (.node l)

def joinFields (p : Polarity) (ls rs : List (String × Bundle)) : List (String × Bundle) :=
  match p with
  | .positive => commonFields p (ls.map fun f => (f.1, operand f.2)) rs
  | .negative => allFields p (ls.map fun f => (f.1, operand f.2)) rs

def joinField (p : Polarity) (l r : Option Bundle) : Option Bundle :=
  match p with
  | .positive => l.bind fun b => r.map (combine p b)
  | .negative => l.merge (combine p) r

def joinFunc (p : Polarity) (l r : Bundle × Bundle) : Bundle × Bundle :=
  (combine p.flip l.1 r.1, combine p l.2 r.2)

def joinLayer (p : Polarity) (l r : Layer Bundle) : Layer Bundle where
  vars := l.vars.union r.vars
  bases := l.bases.union r.bases
  tuple := l.tuple.merge (List.zipWith (combine p)) r.tuple
  record := l.record.merge (joinFields p) r.record
  func := l.func.merge (joinFunc p) r.func
  top := false

variable {n : Nat} {p : Polarity}

theorem combineTuple_eq {ls rs : Option (List Bundle)}
    (h : ∀ xs, ls = some xs → ∀ ys, rs = some ys → xs.length = ys.length) :
    combineTuple p (ls.map (List.map operand)) rs =
      ls.merge (List.zipWith (combine p)) rs := by
  cases ls with
  | none => cases rs <;> rfl
  | some xs =>
    cases rs with
    | none => exact congrArg some (map_fst_operand xs)
    | some ys =>
      have hlen : (xs.map operand).length = ys.length := by
        rw [List.length_map, h xs rfl ys rfl]
      rw [Option.map_some, combineTuple, if_pos hlen, List.zipWith_map_left]
      rfl

theorem combineRecord_eq (ls rs : Option (List (String × Bundle))) :
    combineRecord p (ls.map (List.map fun f => (f.1, operand f.2))) rs =
      ls.merge (joinFields p) rs := by
  cases ls with
  | none => cases rs <;> rfl
  | some fs =>
    cases rs with
    | none =>
      have hkeep : (fs.map fun f => (f.1, operand f.2)).map (fun l => (l.1, l.2.1)) = fs := by
        rw [List.map_map]
        exact List.map_id fs
      exact congrArg some hkeep
    | some gs => cases p <;> rfl

theorem combineFunc_eq (l r : Option (Bundle × Bundle)) :
    combineFunc p (l.map fun f => (operand f.1, operand f.2)) r = l.merge (joinFunc p) r := by
  cases l <;> cases r <;> rfl

theorem combine_eq {l r : Layer Bundle} (hl : (node l).Uniform n) (hr : (node r).Uniform n) :
    combine p (node l) (node r) = node (joinLayer p l r) := by
  cases hl with
  | intro ltop ltuple _ _ =>
    cases hr with
    | intro rtop rtuple _ _ =>
      have hlen : ∀ xs, l.tuple = some xs → ∀ ys, r.tuple = some ys → xs.length = ys.length :=
        fun xs hxs ys hys => (ltuple xs hxs).trans (rtuple ys hys).symm
      have hclash : clash (l.tuple.map (List.map operand)) r.tuple = false := by
        cases hxs : l.tuple with
        | none => rfl
        | some xs =>
          cases hys : r.tuple with
          | none => rfl
          | some ys => simp [clash, hlen xs hxs ys hys]
      rw [combine_node, combineLayer, joinLayer, ← combineTuple_eq hlen, ← combineRecord_eq,
        ← combineFunc_eq]
      simp [Layer.map, ltop, rtop, hclash]

theorem commonFields_eq (ls rs : List (String × Bundle)) :
    commonFields p (ls.map fun f => (f.1, operand f.2)) rs = ls.filterMap fun f =>
      ((Fields.find? rs f.1).map (combine p f.2)).map fun b => (f.1, b) := by
  rw [commonFields, List.filterMap_map]
  simp only [Option.map_map, Function.comp_def]

theorem allFields_eq (ls rs : List (String × Bundle)) :
    allFields p (ls.map fun f => (f.1, operand f.2)) rs =
      rs.foldl (fun fields r => Ordered.insert Prod.fst r fields)
        (ls.map fun f => (f.1, ((Fields.find? rs f.1).map (combine p f.2)).getD f.2)) := by
  rw [allFields, List.map_map]
  refine congrArg (rs.foldl _) (List.map_congr_left fun f _ => Prod.ext rfl ?_)
  dsimp only [Function.comp]
  cases Fields.find? rs f.1 <;> rfl

section Fields

variable {ls rs : List (String × Bundle)} (hl : Ordered.Ascending Prod.fst ls)

include hl

theorem find?_joinFields (hr : Ordered.Ascending Prod.fst rs) (k : String) :
    Fields.find? (joinFields p ls rs) k =
      joinField p (Fields.find? ls k) (Fields.find? rs k) := by
  cases p with
  | positive =>
    rw [joinFields, commonFields_eq]
    exact Fields.find?_filterMap
      (fun name b => (Fields.find? rs name).map (combine .positive b)) hl k
  | negative =>
    let kept := fun (name : String) (b : Bundle) =>
      ((Fields.find? rs name).map (combine .negative b)).getD b
    have hall := Ordered.find?_insertAll Ordered.linear_string (Fields.ascending_map kept hl) hr k
    rw [joinFields, allFields_eq, Fields.find?, hall, Option.map_or, ← Fields.find?, ← Fields.find?,
      Fields.find?_map kept hl, joinField]
    cases Fields.find? ls k with
    | none => cases Fields.find? rs k <;> rfl
    | some b => cases hrk : Fields.find? rs k <;> simp [kept, hrk, Option.merge]

theorem ascending_joinFields (rs : List (String × Bundle)) :
    Ordered.Ascending Prod.fst (joinFields p ls rs) := by
  cases p with
  | positive =>
    rw [joinFields, commonFields_eq]
    refine List.Pairwise.filterMap _ (fun f g hfg f' hf' g' hg' => ?_) hl
    obtain ⟨_, -, rfl⟩ := Option.map_eq_some_iff.mp hf'
    obtain ⟨_, -, rfl⟩ := Option.map_eq_some_iff.mp hg'
    exact hfg
  | negative =>
    have hkept := Fields.ascending_map
      (fun name b => ((Fields.find? rs name).map (combine .negative b)).getD b) hl
    rw [joinFields, allFields_eq]
    exact hkept.insertAll Ordered.linear_string rs

end Fields

theorem joinField_eq_some {l r : Option Bundle} {b : Bundle} (h : joinField p l r = some b) :
    l = some b ∨ r = some b ∨ ∃ c d, l = some c ∧ r = some d ∧ b = combine p c d := by
  cases p with
  | positive =>
    obtain ⟨c, hc, hmap⟩ := Option.bind_eq_some_iff.mp h
    obtain ⟨d, hd, rfl⟩ := Option.map_eq_some_iff.mp hmap
    exact .inr (.inr ⟨c, d, hc, hd, rfl⟩)
  | negative => exact merge_eq_some h

theorem mem_joinFields {ls rs : List (String × Bundle)} (hl : Ordered.Ascending Prod.fst ls)
    (hr : Ordered.Ascending Prod.fst rs) {f : String × Bundle} (hf : f ∈ joinFields p ls rs) :
    (∃ g ∈ ls, g.2 = f.2) ∨ (∃ g ∈ rs, g.2 = f.2) ∨
      ∃ g ∈ ls, ∃ h ∈ rs, f.2 = combine p g.2 h.2 := by
  have hfind : Fields.find? (joinFields p ls rs) f.1 = some f.2 := by
    rw [Fields.find?, Ordered.find?_eq_some_of_mem Ordered.linear_string
      (ascending_joinFields hl rs) hf, Option.map_some]
  rw [find?_joinFields hl hr] at hfind
  rcases joinField_eq_some hfind with hl | hr | ⟨c, d, hl, hr, heq⟩
  · exact .inl (Fields.mem_of_find? hl)
  · exact .inr (.inl (Fields.mem_of_find? hr))
  · obtain ⟨g, hg, rfl⟩ := Fields.mem_of_find? hl
    obtain ⟨h, hh, rfl⟩ := Fields.mem_of_find? hr
    exact .inr (.inr ⟨g, hg, h, hh, heq⟩)

section Layers

variable {l r : Layer Bundle} (hl : (node l).Uniform n) (hr : (node r).Uniform n)

include hl

theorem Uniform.tuple_length {elems : List Bundle} (h : l.tuple = some elems) :
    elems.length = n := by
  cases hl with
  | intro _ tuple _ _ => exact tuple elems h

theorem Uniform.ascending {fields : List (String × Bundle)} (h : l.record = some fields) :
    Ordered.Ascending Prod.fst fields := by
  cases hl with
  | intro _ _ record _ => exact record fields h

theorem Uniform.child {s q : Polarity} {b : Bundle} (h : l.Child s q b) : b.Uniform n := by
  cases hl with
  | intro _ _ _ below => exact below s q b h

include hr

theorem child_joinLayer {s q : Polarity} {b : Bundle} (h : (joinLayer p l r).Child s q b) :
    l.Child s q b ∨ r.Child s q b ∨
      ∃ c d p', l.Child s q c ∧ r.Child s q d ∧ b = combine p' c d := by
  cases h with
  | elem ht hb =>
    rcases merge_eq_some ht with ht | ht | ⟨xs, ys, hxs, hys, rfl⟩
    · exact .inl (.elem ht hb)
    · exact .inr (.inl (.elem ht hb))
    · obtain ⟨i, hi, rfl⟩ := List.mem_iff_getElem.mp hb
      rw [List.getElem_zipWith]
      refine .inr (.inr ⟨_, _, p, .elem hxs ?_, .elem hys ?_, rfl⟩)
      · exact List.getElem_mem _
      · exact List.getElem_mem _
  | field hf hmem =>
    rcases merge_eq_some hf with hf | hf | ⟨xs, ys, hxs, hys, rfl⟩
    · exact .inl (.field hf hmem)
    · exact .inr (.inl (.field hf hmem))
    · rcases mem_joinFields (hl.ascending hxs) (hr.ascending hys) hmem with
        ⟨g, hg, heq⟩ | ⟨g, hg, heq⟩ | ⟨g, hg, h, hh, heq⟩
      · exact .inl (heq ▸ .field hxs hg)
      · exact .inr (.inl (heq ▸ .field hys hg))
      · exact .inr (.inr ⟨g.2, h.2, p, .field hxs hg, .field hys hh, heq⟩)
  | param hf =>
    rcases merge_eq_some hf with hf | hf | ⟨f, g, hf', hg, rfl⟩
    · exact .inl (.param hf)
    · exact .inr (.inl (.param hf))
    · exact .inr (.inr ⟨f.1, g.1, p.flip, .param hf', .param hg, rfl⟩)
  | result hf =>
    rcases merge_eq_some hf with hf | hf | ⟨f, g, hf', hg, rfl⟩
    · exact .inl (.result hf)
    · exact .inr (.inl (.result hf))
    · exact .inr (.inr ⟨f.2, g.2, p, .result hf', .result hg, rfl⟩)

theorem Uniform.joinLayer
    (below : ∀ s q c, l.Child s q c → ∀ p' d, d.Uniform n → (combine p' c d).Uniform n) :
    (node (joinLayer p l r)).Uniform n := by
  refine .intro rfl (fun elems ht => ?_) (fun fields hf => ?_) fun s q b hb => ?_
  · rcases merge_eq_some ht with ht | ht | ⟨xs, ys, hxs, hys, rfl⟩
    · exact hl.tuple_length ht
    · exact hr.tuple_length ht
    · rw [List.length_zipWith, hl.tuple_length hxs, hr.tuple_length hys, Nat.min_self]
  · rcases merge_eq_some hf with hf | hf | ⟨xs, ys, hxs, hys, rfl⟩
    · exact hl.ascending hf
    · exact hr.ascending hf
    · exact ascending_joinFields (hl.ascending hxs) ys
  · rcases child_joinLayer hl hr hb with hb | hb | ⟨c, d, p', hc, hd, rfl⟩
    · exact hl.child hb
    · exact hr.child hb
    · exact below s q c hc p' d (hr.child hd)

end Layers

theorem Uniform.combine {a b : Bundle} (ha : a.Uniform n) (hb : b.Uniform n) (p : Polarity) :
    (combine p a b).Uniform n := by
  induction a generalizing b p with
  | node l ih =>
    rcases b with ⟨r⟩
    rw [combine_eq ha hb]
    exact ha.joinLayer hb fun s q c hc p' d hd => ih s q c hc (ha.child hc) hd p'

section JoinField

variable {l r t : Option Bundle}

theorem joinField_comm_of
    (h : ∀ b, l = some b → ∀ c, r = some c → combine p b c = combine p c b) :
    joinField p l r = joinField p r l := by
  cases p with
  | positive =>
    cases l with
    | none => cases r <;> rfl
    | some b =>
      cases r with
      | none => rfl
      | some c => exact congrArg some (h b rfl c rfl)
  | negative => exact merge_comm_of h

theorem joinField_assoc_of (h : ∀ b, l = some b → ∀ c, r = some c → ∀ d, t = some d →
    combine p (combine p b c) d = combine p b (combine p c d)) :
    joinField p (joinField p l r) t = joinField p l (joinField p r t) := by
  cases p with
  | positive => cases l <;> cases r <;> cases t <;> simp [joinField, h]
  | negative => exact merge_assoc_of h

theorem joinField_self_of (h : ∀ b, l = some b → combine p b b = b) : joinField p l l = l := by
  cases p with
  | positive => cases l <;> simp [joinField, h]
  | negative => exact merge_self_of h

theorem map_joinField_of {f : Bundle → Bundle}
    (h : ∀ b, l = some b → ∀ c, r = some c → f (combine p b c) = combine p (f b) (f c)) :
    (joinField p l r).map f = joinField p (l.map f) (r.map f) := by
  cases p with
  | positive => cases l <;> cases r <;> simp [joinField, h]
  | negative => exact map_merge_of h

end JoinField

inductive HasVar (v : Var) : Bundle → Prop
  | here {b : Bundle} (h : v ∈ b.layer.vars.items) : HasVar v b
  | inside {b c : Bundle} {p q : Polarity} (hc : b.layer.Child p q c) (h : HasVar v c) : HasVar v b

theorem combine_comm {a b : Bundle} (ha : a.Uniform n) (hb : b.Uniform n)
    (hvars : ∀ v w, a.HasVar v → b.HasVar w → v.id = w.id → v = w) (p : Polarity) :
    combine p a b = combine p b a := by
  induction a generalizing b p with
  | node l ih =>
    rcases b with ⟨r⟩
    have hbelow : ∀ s q c d, l.Child s q c → r.Child s q d → ∀ p',
        combine p' c d = combine p' d c :=
      fun s q c d hc hd => ih s q c hc (ha.child hc) (hb.child hd)
        fun v w hv hw => hvars v w (.inside hc hv) (.inside hd hw)
    rw [combine_eq ha hb, combine_eq hb ha]
    simp only [joinLayer, node.injEq, Layer.mk.injEq]
    refine ⟨?vars, BaseSet.union_comm _ _, ?tuple, ?record, ?func, trivial⟩
    case vars => exact VarSet.union_comm fun v hv w hw => hvars v w (.here hv) (.here hw)
    case tuple =>
      refine merge_comm_of fun xs hxs ys hys => ?_
      refine List.ext_getElem (by simp [Nat.min_comm]) fun i _ _ => ?_
      rw [List.getElem_zipWith, List.getElem_zipWith]
      exact hbelow p p _ _ (.elem hxs (List.getElem_mem _)) (.elem hys (List.getElem_mem _)) p
    case record =>
      refine merge_comm_of fun xs hxs ys hys => ?_
      have hx := ha.ascending hxs
      have hy := hb.ascending hys
      refine Fields.ext_find? (ascending_joinFields hx ys) (ascending_joinFields hy xs) fun k => ?_
      rw [find?_joinFields hx hy, find?_joinFields hy hx]
      refine joinField_comm_of fun c hc d hd => ?_
      obtain ⟨f, hf, rfl⟩ := Fields.mem_of_find? hc
      obtain ⟨g, hg, rfl⟩ := Fields.mem_of_find? hd
      exact hbelow p p _ _ (.field hxs hf) (.field hys hg) p
    case func =>
      refine merge_comm_of fun f hf g hg => Prod.ext ?_ ?_
      · exact hbelow p p.flip _ _ (.param hf) (.param hg) p.flip
      · exact hbelow p p _ _ (.result hf) (.result hg) p

theorem combine_assoc {a b c : Bundle} (ha : a.Uniform n) (hb : b.Uniform n) (hc : c.Uniform n)
    (p : Polarity) : combine p (combine p a b) c = combine p a (combine p b c) := by
  induction a generalizing b c p with
  | node l ih =>
    rcases b with ⟨r⟩
    rcases c with ⟨t⟩
    have hbelow : ∀ s q x y z, l.Child s q x → r.Child s q y → t.Child s q z →
        ∀ p', combine p' (combine p' x y) z = combine p' x (combine p' y z) :=
      fun s q x y z hx hy hz => ih s q x hx (ha.child hx) (hb.child hy) (hc.child hz)
    have hab := ha.combine hb p
    have hbc := hb.combine hc p
    rw [combine_eq ha hb] at hab ⊢
    rw [combine_eq hb hc] at hbc ⊢
    rw [combine_eq hab hc, combine_eq ha hbc]
    simp only [joinLayer, node.injEq, Layer.mk.injEq]
    refine ⟨VarSet.union_assoc _ _ _, BaseSet.union_assoc _ _ _, ?tuple, ?record, ?func, trivial⟩
    case tuple =>
      refine merge_assoc_of fun xs hxs ys hys zs hzs => ?_
      refine List.ext_getElem (by simp [Nat.min_assoc]) fun i _ _ => ?_
      simp only [List.getElem_zipWith]
      exact hbelow p p _ _ _ (.elem hxs (List.getElem_mem _)) (.elem hys (List.getElem_mem _))
        (.elem hzs (List.getElem_mem _)) p
    case record =>
      refine merge_assoc_of fun xs hxs ys hys zs hzs => ?_
      have hx := ha.ascending hxs
      have hy := hb.ascending hys
      have hz := hc.ascending hzs
      have hxy := ascending_joinFields (p := p) hx ys
      have hyz := ascending_joinFields (p := p) hy zs
      refine Fields.ext_find? (ascending_joinFields hxy zs) (ascending_joinFields hx _) fun k => ?_
      rw [find?_joinFields hxy hz, find?_joinFields hx hy, find?_joinFields hx hyz,
        find?_joinFields hy hz]
      refine joinField_assoc_of fun x hx y hy z hz => ?_
      obtain ⟨f, hf, rfl⟩ := Fields.mem_of_find? hx
      obtain ⟨g, hg, rfl⟩ := Fields.mem_of_find? hy
      obtain ⟨h, hh, rfl⟩ := Fields.mem_of_find? hz
      exact hbelow p p _ _ _ (.field hxs hf) (.field hys hg) (.field hzs hh) p
    case func =>
      refine merge_assoc_of fun f hf g hg h hh => Prod.ext ?_ ?_
      · exact hbelow p p.flip _ _ _ (.param hf) (.param hg) (.param hh) p.flip
      · exact hbelow p p _ _ _ (.result hf) (.result hg) (.result hh) p

theorem combine_self {a : Bundle} (ha : a.Uniform n) (p : Polarity) : combine p a a = a := by
  induction a generalizing p with
  | node l ih =>
    have hbelow : ∀ s q c, l.Child s q c → ∀ p', combine p' c c = c :=
      fun s q c hc => ih s q c hc (ha.child hc)
    have htuple : l.tuple.merge (List.zipWith (combine p)) l.tuple = l.tuple := by
      refine merge_self_of fun xs hxs => ?_
      refine List.ext_getElem (by simp) fun i _ _ => ?_
      rw [List.getElem_zipWith]
      exact hbelow p p _ (.elem hxs (List.getElem_mem _)) p
    have hrecord : l.record.merge (joinFields p) l.record = l.record := by
      refine merge_self_of fun xs hxs => ?_
      have hx := ha.ascending hxs
      refine Fields.ext_find? (ascending_joinFields hx xs) hx fun k => ?_
      rw [find?_joinFields hx hx]
      refine joinField_self_of fun b hb => ?_
      obtain ⟨f, hf, rfl⟩ := Fields.mem_of_find? hb
      exact hbelow p p _ (.field hxs hf) p
    have hfunc : l.func.merge (joinFunc p) l.func = l.func := by
      refine merge_self_of fun f hf => Prod.ext ?_ ?_
      · exact hbelow p p.flip _ (.param hf) p.flip
      · exact hbelow p p _ (.result hf) p
    rw [combine_eq ha ha, joinLayer, VarSet.union_self, BaseSet.union_self, htuple, hrecord, hfunc]
    cases ha with
    | intro top _ _ _ => rw [← top]

theorem uniform_leaf (n : Nat) (vars : VarSet) (bases : BaseSet) :
    (node { vars, bases }).Uniform n := by
  refine .intro rfl (fun _ h => ?_) (fun _ h => ?_) fun _ _ _ h => ?_
  · cases h
  · cases h
  · cases h with
    | elem h | field h | param h | result h => cases h

theorem uniform_empty (n : Nat) : empty.Uniform n := uniform_leaf n .empty .empty

theorem combine_empty {a : Bundle} (ha : a.Uniform n) (p : Polarity) : combine p a empty = a := by
  rcases a with ⟨l⟩
  rw [empty, combine_eq ha (uniform_empty n)]
  cases ha with
  | intro top _ _ _ => simp [joinLayer, ← top]

theorem empty_combine {a : Bundle} (ha : a.Uniform n) (p : Polarity) : combine p empty a = a := by
  rcases a with ⟨l⟩
  rw [empty, combine_eq (uniform_empty n) ha]
  cases ha with
  | intro top _ _ _ => simp [joinLayer, ← top]

/-- The bundle with all its variables put at level 0. Variables are told apart by their ids, so
this is all there is to a bundle but for how its variables are marked. -/
def unleveled : Bundle → Bundle :=
  fold fun l => node { l.map Prod.snd with vars := l.vars.unleveled }

theorem unleveled_node (l : Layer Bundle) :
    (node l).unleveled = node { l.map unleveled with vars := l.vars.unleveled } := by
  rw [unleveled, fold_node, Layer.map_map]
  rfl

theorem Uniform.unleveled {b : Bundle} (h : b.Uniform n) : b.unleveled.Uniform n := by
  induction b with
  | node l ih =>
    rw [unleveled_node]
    refine .intro ?_ (fun elems ht => ?_) (fun fields hf => ?_) fun s q c hc => ?_
    · cases h with
      | intro top _ _ _ => exact top
    · obtain ⟨xs, hxs, rfl⟩ := Option.map_eq_some_iff.mp ht
      rw [List.length_map, h.tuple_length hxs]
    · obtain ⟨xs, hxs, rfl⟩ := Option.map_eq_some_iff.mp hf
      exact Fields.ascending_map (fun _ => Bundle.unleveled) (h.ascending hxs)
    · obtain ⟨d, hd, rfl⟩ := Layer.child_map hc.of_vars
      exact ih s q d hd (h.child hd)

theorem level_of_hasVar_unleveled {v : Var} {b : Bundle} (h : b.unleveled.HasVar v) :
    v.level = 0 := by
  induction b with
  | node l ih =>
    rw [unleveled_node] at h
    cases h with
    | here h =>
      obtain ⟨w, -, rfl⟩ := List.mem_map.mp h
      rfl
    | inside hc h =>
      obtain ⟨d, hd, rfl⟩ := Layer.child_map hc.of_vars
      exact ih _ _ d hd h

theorem unleveled_combine {a b : Bundle} (ha : a.Uniform n) (hb : b.Uniform n) (p : Polarity) :
    (combine p a b).unleveled = combine p a.unleveled b.unleveled := by
  induction a generalizing b p with
  | node l ih =>
    rcases b with ⟨r⟩
    have hbelow : ∀ s q c d, l.Child s q c → r.Child s q d → ∀ p',
        (combine p' c d).unleveled = combine p' c.unleveled d.unleveled :=
      fun s q c d hc hd => ih s q c hc (ha.child hc) (hb.child hd)
    have ha' := ha.unleveled
    have hb' := hb.unleveled
    rw [unleveled_node] at ha' hb'
    rw [combine_eq ha hb, unleveled_node, unleveled_node, unleveled_node, combine_eq ha' hb']
    simp only [joinLayer, Layer.map, node.injEq, Layer.mk.injEq]
    refine ⟨VarSet.unleveled_union _ _, trivial, ?tuple, ?record, ?func, trivial⟩
    case tuple =>
      refine map_merge_of fun xs hxs ys hys => ?_
      refine List.ext_getElem (by simp) fun i _ _ => ?_
      simp only [List.getElem_map, List.getElem_zipWith]
      exact hbelow p p _ _ (.elem hxs (List.getElem_mem _)) (.elem hys (List.getElem_mem _)) p
    case record =>
      refine map_merge_of fun xs hxs ys hys => ?_
      have hx := ha.ascending hxs
      have hy := hb.ascending hys
      have hu : ∀ {zs : List (String × Bundle)}, Ordered.Ascending Prod.fst zs →
          Ordered.Ascending Prod.fst (zs.map fun f => (f.1, f.2.unleveled)) :=
        Fields.ascending_map fun _ => unleveled
      have hfind : ∀ {zs : List (String × Bundle)}, Ordered.Ascending Prod.fst zs → ∀ k,
          Fields.find? (zs.map fun f => (f.1, f.2.unleveled)) k =
            (Fields.find? zs k).map unleveled := Fields.find?_map fun _ => unleveled
      have hxy := ascending_joinFields (p := p) hx ys
      refine Fields.ext_find? (hu hxy) (ascending_joinFields (hu hx) _) fun k => ?_
      rw [hfind hxy, find?_joinFields hx hy, find?_joinFields (hu hx) (hu hy), hfind hx, hfind hy]
      refine map_joinField_of fun c hc d hd => ?_
      obtain ⟨f, hf, rfl⟩ := Fields.mem_of_find? hc
      obtain ⟨g, hg, rfl⟩ := Fields.mem_of_find? hd
      exact hbelow p p _ _ (.field hxs hf) (.field hys hg) p
    case func =>
      refine map_merge_of fun f hf g hg => Prod.ext ?_ ?_
      · exact hbelow p p.flip _ _ (.param hf) (.param hg) p.flip
      · exact hbelow p p _ _ (.result hf) (.result hg) p

theorem unleveled_combine_comm {a b : Bundle} (ha : a.Uniform n) (hb : b.Uniform n)
    (p : Polarity) : (combine p a b).unleveled = (combine p b a).unleveled := by
  have hvars : ∀ v w, a.unleveled.HasVar v → b.unleveled.HasVar w → v.id = w.id → v = w := by
    rintro ⟨i, k⟩ ⟨j, m⟩ hv hw rfl
    obtain rfl : k = 0 := level_of_hasVar_unleveled hv
    obtain rfl : m = 0 := level_of_hasVar_unleveled hw
    rfl
  rw [unleveled_combine ha hb, unleveled_combine hb ha,
    combine_comm ha.unleveled hb.unleveled hvars]

/-- Combining bundles without clashes does not depend on their order and grouping, and neither
repeated nor empty bundles count. Of variables with one id the first one stays, so where ids do
not settle which variable is meant, the order shows in the levels of variables and nowhere else. -/
theorem combine_orderFree {a b c : Bundle} (ha : a.Uniform n) (hb : b.Uniform n)
    (hc : c.Uniform n) (p : Polarity) :
    (combine p a b).unleveled = (combine p b a).unleveled ∧
      ((∀ v w, a.HasVar v → b.HasVar w → v.id = w.id → v = w) →
        combine p a b = combine p b a) ∧
      combine p (combine p a b) c = combine p a (combine p b c) ∧
      combine p a a = a ∧ combine p a empty = a ∧ combine p empty a = a :=
  ⟨unleveled_combine_comm ha hb p, fun hvars => combine_comm ha hb hvars p,
    combine_assoc ha hb hc p, combine_self ha p, combine_empty ha p, empty_combine ha p⟩

def pair (a b : Bundle) : Bundle := .node { tuple := some [a, b] }

theorem uniform_pair {a b : Bundle} (ha : a.Uniform 2) (hb : b.Uniform 2) :
    (pair a b).Uniform 2 := by
  refine .intro rfl (fun _ h => ?_) (fun _ h => ?_) fun _ _ _ h => ?_
  · cases h
    rfl
  · cases h
  · cases h with
    | elem h hc =>
      cases h
      rcases List.mem_pair.mp hc with rfl | rfl
      · exact ha
      · exact hb
    | field h | param h | result h => cases h

def labeledPair : Bundle :=
  let fields := [("at", pair (.ofBase .int) (.ofVar ⟨1, 1⟩)), ("ok", .ofBase .bool)]
  .node { vars := .singleton ⟨0, 0⟩, record := some fields }

def pairTaker : Bundle :=
  let func := (pair (.ofBase .float) (.ofBase .int), .ofVar ⟨0, 0⟩)
  .node
    { vars := .singleton ⟨1, 1⟩
      record := some [("at", pair (.ofVar ⟨0, 0⟩) (.ofBase .int))]
      func := some func }

theorem uniform_labeledPair : labeledPair.Uniform 2 := by
  refine .intro rfl (fun _ h => ?_) (fun _ h => ?_) fun _ _ _ h => ?_
  · cases h
  · cases h
    exact List.pairwise_pair.mpr (by decide : "at" < "ok")
  · cases h with
    | field h hf =>
      cases h
      rcases List.mem_pair.mp hf with rfl | rfl
      · exact uniform_pair (uniform_leaf 2 _ _) (uniform_leaf 2 _ _)
      · exact uniform_leaf 2 _ _
    | elem h | param h | result h => cases h

theorem uniform_pairTaker : pairTaker.Uniform 2 := by
  refine .intro rfl (fun _ h => ?_) (fun _ h => ?_) fun _ _ _ h => ?_
  · cases h
  · cases h
    exact List.pairwise_singleton _ _
  · cases h with
    | field h hf =>
      cases h
      obtain rfl := List.mem_singleton.mp hf
      exact uniform_pair (uniform_leaf 2 _ _) (uniform_leaf 2 _ _)
    | param h =>
      cases h
      exact uniform_pair (uniform_leaf 2 _ _) (uniform_leaf 2 _ _)
    | result h =>
      cases h
      exact uniform_leaf 2 _ _
    | elem h => cases h

theorem combine_orderFree_records :
    labeledPair.Uniform 2 ∧ pairTaker.Uniform 2 ∧ empty.Uniform 2 ∧
      (combine .negative labeledPair pairTaker).unleveled =
        (combine .negative pairTaker labeledPair).unleveled ∧
      combine .positive (combine .positive labeledPair pairTaker) labeledPair =
        combine .positive labeledPair (combine .positive pairTaker labeledPair) :=
  ⟨uniform_labeledPair, uniform_pairTaker, uniform_empty 2,
    (combine_orderFree uniform_labeledPair uniform_pairTaker (uniform_empty 2) .negative).1,
    (combine_orderFree uniform_labeledPair uniform_pairTaker uniform_labeledPair .positive).2.2.1⟩

end Bundle
end Biunify
