import Biunify.Bundle.OfTy
import Biunify.Proofs.BoundTable.Parts
import Biunify.Proofs.Reach.Exact
import Biunify.Proofs.VarMap

/-! What bundles are made of. Combining bundles and absorbing bounds bring in no variable, no
field name and no length of a tuple that the types do not have, and no greater depth. -/

namespace Biunify

/-- The variables, the field names and the lengths of tuples that bundles may have. -/
structure Material where
  var : Var → Prop
  name : String → Prop
  arity : Nat → Prop

theorem Ordered.mem_of_find? {α κ : Type} [LT κ] [DecidableLT κ] {key : α → κ} {k : κ} {x : α}
    {xs : List α} (h : find? key k xs = some x) : x ∈ xs := by
  induction xs with
  | nil => cases h
  | cons y ys ih =>
    rw [find?] at h
    split_ifs at h
    · exact List.mem_cons_of_mem y (ih h)
    · cases h
      exact List.mem_cons_self

theorem Fields.mem_of_find? {α : Type} {fields : List (String × α)} {name : String} {a : α}
    (h : find? fields name = some a) : ∃ f ∈ fields, f.2 = a := by
  obtain ⟨f, hf, ha⟩ := Option.map_eq_some_iff.mp h
  exact ⟨f, Ordered.mem_of_find? hf, ha⟩

namespace VarSet

theorem mem_union {s t : VarSet} {w : Var} (h : w ∈ (s.union t).items) :
    w ∈ s.items ∨ w ∈ t.items := by
  have hstep : ∀ u : VarSet, (w ∈ u.items → w ∈ s.items ∨ w ∈ t.items) → ∀ v ∈ t.items,
      w ∈ (u.insert v).items → w ∈ s.items ∨ w ∈ t.items := by
    intro u hu v hv hw
    rcases mem_insert hw with rfl | hw
    · exact .inr hv
    · exact hu hw
  exact List.foldlRecOn (motive := fun u => w ∈ u.items → _) t.items insert Or.inl hstep h

theorem mem_ofList {vs : List Var} {w : Var} (h : w ∈ (ofList vs).items) : w ∈ vs := by
  have hstep : ∀ u : VarSet, (w ∈ u.items → w ∈ vs) → ∀ v ∈ vs,
      w ∈ (u.insert v).items → w ∈ vs := by
    intro u hu v hv hw
    rcases mem_insert hw with rfl | hw
    · exact hv
    · exact hu hw
  exact List.foldlRecOn (motive := fun u => w ∈ u.items → _) vs insert
    (fun hw => absurd hw List.not_mem_nil) hstep h

end VarSet

structure Layer.MadeOf {α : Type} (m : Material) (below : α → Prop) (l : Layer α) : Prop where
  vars : ∀ v ∈ l.vars.items, m.var v
  tuple : ∀ {elems}, l.tuple = some elems → m.arity elems.length ∧ ∀ b ∈ elems, below b
  record : ∀ {fields}, l.record = some fields →
    Ordered.Ascending Prod.fst fields ∧ ∀ f ∈ fields, m.name f.1 ∧ below f.2
  func : ∀ {f}, l.func = some f → below f.1 ∧ below f.2

theorem Layer.MadeOf.imp {α : Type} {m : Material} {below below' : α → Prop} {l : Layer α}
    (h : l.MadeOf m below) (hi : ∀ b, below b → below' b) : l.MadeOf m below' where
  vars := h.vars
  tuple ht := ⟨(h.tuple ht).1, fun b hb => hi b ((h.tuple ht).2 b hb)⟩
  record hr := ⟨(h.record hr).1, fun f hf => ((h.record hr).2 f hf).imp_right (hi f.2)⟩
  func hf := (h.func hf).imp (hi _) (hi _)

namespace Bundle

def MadeOf (m : Material) : Nat → Bundle → Prop
  | 0, _ => False
  | depth + 1, b => b.layer.MadeOf m (MadeOf m depth)

variable {m : Material}

theorem MadeOf.mono {depth depth' : Nat} {b : Bundle} (h : b.MadeOf m depth)
    (hle : depth ≤ depth') : b.MadeOf m depth' := by
  induction depth generalizing depth' b with
  | zero => cases h
  | succ depth ih =>
    cases depth' with
    | zero => exact absurd hle (Nat.not_succ_le_zero depth)
    | succ depth' => exact Layer.MadeOf.imp h fun c hc => ih hc (Nat.le_of_succ_le_succ hle)

section Combine

variable {below : Bundle → Prop} {p : Polarity}

def Closed (below : Bundle → Prop) : Prop := ∀ p b c, below b → below c → below (combine p b c)

abbrev operand (b : Bundle) : Operand := (b, fun p c => combine p b c)

theorem map_fst_operand (bs : List Bundle) : (bs.map operand).map Prod.fst = bs := by
  rw [List.map_map]
  exact List.map_id bs

theorem combineTuple_madeOf (hc : Closed below) {ls rs : Option (List Bundle)} {elems : List Bundle}
    (hl : ∀ {es}, ls = some es → m.arity es.length ∧ ∀ b ∈ es, below b)
    (hr : ∀ {es}, rs = some es → m.arity es.length ∧ ∀ b ∈ es, below b)
    (h : combineTuple p (ls.map (List.map operand)) rs = some elems) :
    m.arity elems.length ∧ ∀ b ∈ elems, below b := by
  cases ls with
  | none => exact hr h
  | some ls =>
    obtain ⟨hlen, hbelow⟩ := hl rfl
    cases rs with
    | none =>
      cases h
      rw [map_fst_operand]
      exact ⟨hlen, hbelow⟩
    | some rs =>
      simp only [Option.map_some, combineTuple, List.length_map] at h
      split at h
      case isTrue heq =>
        cases h
        refine ⟨by simpa [← heq] using hlen, fun b hb => ?_⟩
        obtain ⟨i, hi, rfl⟩ := List.mem_iff_getElem.mp hb
        simp only [List.getElem_zipWith, List.getElem_map]
        exact hc p _ _ (hbelow _ (List.getElem_mem _)) ((hr rfl).2 _ (List.getElem_mem _))
      case isFalse =>
        cases h
        rw [map_fst_operand]
        exact ⟨hlen, hbelow⟩

abbrev FieldsMadeOf (m : Material) (below : Bundle → Prop) (fields : List (String × Bundle)) :
    Prop :=
  Ordered.Ascending Prod.fst fields ∧ ∀ f ∈ fields, m.name f.1 ∧ below f.2

theorem commonFields_madeOf (hc : Closed below) {ls rs : List (String × Bundle)}
    (hl : FieldsMadeOf m below ls) (hr : FieldsMadeOf m below rs) :
    FieldsMadeOf m below (commonFields p (ls.map fun f => (f.1, operand f.2)) rs) := by
  rw [commonFields, List.filterMap_map]
  constructor
  · -- Each field that stays has the name it had.
    refine List.Pairwise.filterMap _ (fun f g hfg f' hf' g' hg' => ?_) hl.1
    obtain ⟨_, -, rfl⟩ := Option.map_eq_some_iff.mp hf'
    obtain ⟨_, -, rfl⟩ := Option.map_eq_some_iff.mp hg'
    exact hfg
  · intro f' hf'
    obtain ⟨f, hf, hmap⟩ := List.mem_filterMap.mp hf'
    obtain ⟨b, hb, rfl⟩ := Option.map_eq_some_iff.mp hmap
    obtain ⟨g, hg, rfl⟩ := Fields.mem_of_find? hb
    exact ⟨(hl.2 f hf).1, hc p _ _ (hl.2 f hf).2 (hr.2 g hg).2⟩

theorem FieldsMadeOf.insert {fields : List (String × Bundle)} (h : FieldsMadeOf m below fields)
    {f : String × Bundle} (hf : m.name f.1 ∧ below f.2) :
    FieldsMadeOf m below (Ordered.insert Prod.fst f fields) := by
  refine ⟨h.1.insertWith String.lt_trans fun _ _ => rfl, fun g hg => ?_⟩
  rcases Ordered.mem_insertWith hg with rfl | hg | ⟨_, hg, rfl⟩
  · exact hf
  · exact h.2 g hg
  · exact h.2 _ hg

theorem allFields_madeOf (hc : Closed below) {ls rs : List (String × Bundle)}
    (hl : FieldsMadeOf m below ls) (hr : FieldsMadeOf m below rs) :
    FieldsMadeOf m below (allFields p (ls.map fun f => (f.1, operand f.2)) rs) := by
  rw [allFields]
  refine List.foldlRecOn rs _ ?_ fun fields hfields g hg => hfields.insert (hr.2 g hg)
  rw [List.map_map]
  refine ⟨List.pairwise_map.mpr hl.1, fun f' hf' => ?_⟩
  obtain ⟨f, hf, rfl⟩ := List.mem_map.mp hf'
  obtain ⟨hname, hbelow⟩ := hl.2 f hf
  refine ⟨hname, ?_⟩
  dsimp only [Function.comp]
  split
  case h_1 r hfind =>
    obtain ⟨g, hg, rfl⟩ := Fields.mem_of_find? hfind
    exact hc p _ _ hbelow (hr.2 g hg).2
  case h_2 => exact hbelow

theorem combineRecord_madeOf (hc : Closed below) {ls rs : Option (List (String × Bundle))}
    {fields : List (String × Bundle)} (hl : ∀ {fs}, ls = some fs → FieldsMadeOf m below fs)
    (hr : ∀ {fs}, rs = some fs → FieldsMadeOf m below fs)
    (h : combineRecord p (ls.map (List.map fun f => (f.1, operand f.2))) rs = some fields) :
    FieldsMadeOf m below fields := by
  cases ls with
  | none => exact hr h
  | some ls =>
    cases rs with
    | none =>
      have hkeep : (ls.map fun f => (f.1, operand f.2)).map (fun l => (l.1, l.2.1)) = ls := by
        rw [List.map_map]
        exact List.map_id ls
      cases h
      rw [hkeep]
      exact hl rfl
    | some rs =>
      cases p with
      | positive =>
        cases h
        exact commonFields_madeOf hc (hl rfl) (hr rfl)
      | negative =>
        cases h
        exact allFields_madeOf hc (hl rfl) (hr rfl)

theorem combineFunc_madeOf (hc : Closed below) {l r : Option (Bundle × Bundle)}
    {f : Bundle × Bundle} (hl : ∀ {f}, l = some f → below f.1 ∧ below f.2)
    (hr : ∀ {f}, r = some f → below f.1 ∧ below f.2)
    (h : combineFunc p (l.map fun f => (operand f.1, operand f.2)) r = some f) :
    below f.1 ∧ below f.2 := by
  cases l with
  | none => exact hr h
  | some l =>
    obtain ⟨hparam, hresult⟩ := hl rfl
    cases r with
    | none =>
      cases h
      exact ⟨hparam, hresult⟩
    | some r =>
      cases h
      exact ⟨hc _ _ _ hparam (hr rfl).1, hc _ _ _ hresult (hr rfl).2⟩

theorem combineLayer_madeOf (hc : Closed below) {l r : Layer Bundle} (hl : l.MadeOf m below)
    (hr : r.MadeOf m below) : (combineLayer (l.map operand) p r).MadeOf m below where
  vars := fun v hv => (VarSet.mem_union hv).elim (hl.vars v) (hr.vars v)
  tuple := by
    intro elems h
    simp only [combineLayer] at h
    split at h
    · cases h
    · exact combineTuple_madeOf hc hl.tuple hr.tuple h
  record := combineRecord_madeOf hc hl.record hr.record
  func := combineFunc_madeOf hc hl.func hr.func

end Combine

theorem insert_eq (fields : List (String × Bundle)) (name : String) (b : Bundle) :
    Fields.insert fields name b =
      Ordered.insertWith Prod.fst (fun old new => (old.1, new.2)) (name, b) fields := by
  rw [Fields.insert]
  induction fields with
  | nil => rfl
  | cons f fields ih =>
    simp only [Ordered.insertWith, ih]
    split_ifs with hlt hgt
    · rfl
    · rfl
    · have hname : name = f.1 := String.le_antisymm hgt hlt
      rw [hname]

theorem ofList_madeOf {below : Bundle → Prop} {entries : List (String × Bundle)}
    (h : ∀ f ∈ entries, m.name f.1 ∧ below f.2) : FieldsMadeOf m below (Fields.ofList entries) := by
  rw [Fields.ofList]
  refine List.foldlRecOn entries _ ⟨List.Pairwise.nil, fun _ hf => nomatch hf⟩
    fun fields hfields f hf => ?_
  rw [insert_eq]
  refine ⟨hfields.1.insertWith String.lt_trans fun _ _ => rfl, fun g hg => ?_⟩
  rcases Ordered.mem_insertWith hg with rfl | hg | ⟨old, hold, rfl⟩
  · exact h f hf
  · exact hfields.2 g hg
  · exact ⟨(hfields.2 old hold).1, (h f hf).2⟩

theorem MadeOf.combine {depth : Nat} (p : Polarity) {b c : Bundle} (hb : b.MadeOf m depth)
    (hc : c.MadeOf m depth) : (combine p b c).MadeOf m depth := by
  induction depth generalizing p b c with
  | zero => cases hb
  | succ depth ih =>
    rcases b with ⟨l⟩
    rcases c with ⟨r⟩
    rw [combine_node]
    exact combineLayer_madeOf (fun p _ _ => ih p) hb hc

end Bundle

namespace Material

structure Covers (m : Material) (t : BoundTable) (types : Set Ty) : Prop where
  var : ∀ {v}, .var v ∈ types → m.var v
  tuple : ∀ {node elems}, .tuple node elems ∈ types → m.arity elems.length
  record : ∀ {node fields}, .record node fields ∈ types → ∀ f ∈ fields, m.name f.1
  children : ∀ {ty}, ty ∈ types → ∀ c ∈ ty.children, c ∈ types
  bounds : ∀ {p v b}, b ∈ t.bounds p v → b ∈ types

variable {m : Material} {t : BoundTable} {types : Set Ty}

theorem covers_of_scoped {names : List String → Prop} (h : t.Scoped names) {name : String → Prop}
    (hname : ∀ {ns}, names ns → ∀ n ∈ ns, name n) :
    Covers ⟨t.Owns, name, fun _ => True⟩ t {ty | ty.Forall t.Owns names} where
  var hv := hv
  tuple _ := trivial
  record {node fields} h f hf :=
    hname ((Ty.forall_record node fields).mp h).1 f.1 (List.mem_map_of_mem hf)
  children {ty} h c hc := by
    cases ty with
    | base | var => cases hc
    | arrow n p r =>
      have hc : c = p ∨ c = r := by simpa [Ty.children] using hc
      rcases hc with rfl | rfl
      · exact h.1
      · exact h.2
    | tuple n ts => exact (Ty.forall_tuple n ts).mp h c hc
    | record n fs =>
      obtain ⟨f, hf, rfl⟩ := List.mem_map.mp hc
      exact ((Ty.forall_record n fs).mp h).2 f hf
  bounds hb := h _ _ _ hb

theorem Covers.linkedVars (h : m.Covers t types) {v : Var} (hv : m.var v) (p : Polarity) :
    ∀ w ∈ (t.linkedVars p v).items, m.var w := by
  intro w hw
  cases (t.linkedVars_exactly p v).sound w hw with
  | refl => exact hv
  | tail _ hb => exact h.var (h.bounds hb)

end Material

namespace Bundle

theorem ofElems_eq (t : BoundTable) (p : Polarity) (tys : List Ty) :
    ofElems t p tys = tys.map (ofTy t p) := by
  induction tys with
  | nil => rfl
  | cons ty tys ih => rw [ofElems, ih, List.map_cons]

theorem ofFields_eq (t : BoundTable) (p : Polarity) (fields : List (String × Ty)) :
    ofFields t p fields = fields.map fun f => (f.1, ofTy t p f.2) := by
  induction fields with
  | nil => rfl
  | cons f fields ih => rw [ofFields, ih, List.map_cons]

variable {m : Material} {t : BoundTable} {types : Set Ty}

theorem madeOf_ofTy (h : m.Covers t types) {ty : Ty} (hty : ty ∈ types) (p : Polarity)
    {depth : Nat} (hd : ty.size ≤ depth) : (ofTy t p ty).MadeOf m depth := by
  induction ty generalizing p depth with
  | base b =>
    obtain ⟨depth, rfl⟩ := Nat.exists_eq_add_of_lt hd
    constructor <;> rintro _ ⟨⟩
  | var v =>
    obtain ⟨depth, rfl⟩ := Nat.exists_eq_add_of_lt hd
    refine ⟨h.linkedVars (h.var hty) p, ?_, ?_, ?_⟩ <;> rintro _ ⟨⟩
  | arrow n q r ihq ihr =>
    obtain ⟨depth, rfl⟩ := Nat.exists_eq_add_of_lt hd
    constructor <;> rintro _ ⟨⟩
    constructor
    · exact ihq (h.children hty q (by simp [Ty.children])) p.flip (by omega)
    · exact ihr (h.children hty r (by simp [Ty.children])) p (by omega)
  | tuple n ts ih =>
    obtain ⟨depth, rfl⟩ := Nat.exists_eq_add_of_lt hd
    constructor <;> rintro _ ⟨⟩
    rw [ofElems_eq, List.length_map]
    refine ⟨h.tuple hty, fun b hb => ?_⟩
    obtain ⟨ty, hmem, rfl⟩ := List.mem_map.mp hb
    have hsize := Ty.size_le_sizeElems hmem
    exact ih ty hmem (h.children hty ty hmem) p (by omega)
  | record n fs ih =>
    obtain ⟨depth, rfl⟩ := Nat.exists_eq_add_of_lt hd
    constructor <;> rintro _ ⟨⟩
    rw [ofFields_eq]
    refine ofList_madeOf fun g hg => ?_
    obtain ⟨f, hf, rfl⟩ := List.mem_map.mp hg
    have hmem : f.2 ∈ fs.map Prod.snd := List.mem_map_of_mem hf
    have hsize := Ty.size_le_sizeFields hmem
    exact ⟨h.record hty f hf, ih f hf (h.children hty f.2 hmem) p (by omega)⟩

theorem MadeOf.absorb {depth : Nat} {p : Polarity} {b : Bundle}
    (ht : ∀ v, ∀ ty ∈ t.bounds p v, (ofTy t p ty).MadeOf m depth) (hb : b.MadeOf m depth) :
    (b.absorb t p).MadeOf m depth := by
  rw [Bundle.absorb]
  refine List.foldlRecOn _ _ hb fun c hc ty hty => hc.combine p ?_
  obtain ⟨v, -, hv⟩ := List.mem_flatMap.mp hty
  exact ht v ty (List.mem_filter.mp hv).1

end Bundle

end Biunify
