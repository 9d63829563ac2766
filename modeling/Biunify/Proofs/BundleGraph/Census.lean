import Biunify.BundleGraph.Census
import Biunify.Proofs.BundleGraph.Occurs
import Biunify.Proofs.VarMap

/-! The census of a graph. It goes through every bundle of the graph, though it enters the body
of a variable only once: when it comes back to a variable, it has seen the body at the same
polarity, or is still in it. So what it keeps beside a variable is what stands beside it
everywhere. Bodies are entered no deeper than there are cycles, so its fuel suffices. -/

namespace Biunify

namespace Occurrence

@[simp] theorem var_beq_var (v w : Var) : (var v == var w) = (v.id == w.id) := rfl

@[simp] theorem base_beq_base (a b : BaseTy) : (base a == base b) = (a == b) := rfl

theorem same_refl (o : Occurrence) : (o == o) = true := by
  cases o <;> simp

theorem same_symm {o o' : Occurrence} (h : (o == o') = true) : (o' == o) = true := by
  cases o with
  | var v =>
    cases o' with
    | var w => rwa [var_beq_var, BEq.comm]
    | base b => cases h
  | base a =>
    cases o' with
    | var w => cases h
    | base b => rwa [base_beq_base, BEq.comm]

theorem same_trans {o o' o'' : Occurrence} (h : (o == o') = true) (h' : (o' == o'') = true) :
    (o == o'') = true := by
  cases o with
  | var v =>
    cases o' with
    | base b => cases h
    | var w =>
      cases o'' with
      | base c => cases h'
      | var u => simp_all
  | base a =>
    cases o' with
    | var w => cases h
    | base b =>
      cases o'' with
      | var u => cases h'
      | base c => simp_all

instance : EquivBEq Occurrence where
  symm := same_symm
  trans := same_trans
  rfl := same_refl _

end Occurrence

namespace Census

variable {α : Type}

theorem contains_ofLayer_var {l : Layer α} {w : Var} :
    (ofLayer l).contains (.var w) = true ↔ l.Has w.id := by
  rw [ofLayer, List.contains_eq_any_beq, List.any_append, Bool.or_eq_true, List.any_map,
    List.any_map, List.any_eq_true, List.any_eq_true]
  constructor
  · rintro (⟨v, hv, hid⟩ | ⟨b, -, hb⟩)
    · have hid : w.id = v.id := by simpa using hid
      exact ⟨v, hv, hid.symm⟩
    · cases hb
  · rintro ⟨v, hv, hid⟩
    exact .inl ⟨v, hv, by simp [hid]⟩

theorem contains_ofLayer_base {l : Layer α} {b : BaseTy} :
    (ofLayer l).contains (.base b) = true ↔ l.bases.contains b = true := by
  rw [ofLayer, List.contains_eq_any_beq, List.any_append, Bool.or_eq_true, List.any_map,
    List.any_map, List.any_eq_true, List.any_eq_true]
  constructor
  · rintro (⟨v, -, hv⟩ | ⟨a, ha, heq⟩)
    · cases hv
    · obtain rfl : b = a := by simpa using heq
      exact (BaseSet.mem_toList l.bases b).mp ha
  · intro hb
    exact .inr ⟨b, (BaseSet.mem_toList l.bases b).mpr hb, Occurrence.same_refl _⟩

theorem contains_of_mem {os : List Occurrence} {o : Occurrence} (h : o ∈ os) :
    os.contains o = true := by
  rw [List.contains_eq_any_beq, List.any_eq_true]
  exact ⟨o, h, o.same_refl⟩

theorem contains_filter_contains {os occs : List Occurrence} {o : Occurrence} :
    (os.filter occs.contains).contains o = true ↔
      os.contains o = true ∧ occs.contains o = true := by
  simp only [List.contains_filter, List.contains_eq_any_beq (l := os), List.any_eq_true,
    Bool.and_eq_true]
  constructor
  · rintro ⟨o', ho', heq, hcontains⟩
    exact ⟨⟨o', ho', heq⟩, (List.contains_congr heq).trans hcontains⟩
  · rintro ⟨⟨o', ho', heq⟩, hcontains⟩
    exact ⟨o', ho', heq, (List.contains_congr heq).symm.trans hcontains⟩

section Count

variable {p : Polarity} {occs : List Occurrence} {v : Var} {c : Census}

theorem count_bodies : (count p occs v c).bodies = c.bodies := by
  simp only [count]
  split <;> rfl

theorem count_vars : (count p occs v c).vars = c.vars.insert v := by
  simp only [count]
  split <;> rfl

def narrowed (occs : List Occurrence) : Option (List Occurrence) → List Occurrence
  | some old => old.filter occs.contains
  | none => occs

theorem find?_count (q : Polarity) (w : Var) : (count p occs v c).beside.find? q w =
    if w.id = v.id ∧ q = p then some (narrowed occs (c.beside.find? p v))
    else c.beside.find? q w := by
  simp only [count]
  split <;> rename_i heq
  · rw [heq]
    exact PolarMap.find?_insert ..
  · rw [heq]
    exact PolarMap.find?_insert ..

end Count

structure Narrows (c c' : Census) : Prop where
  beside : ∀ {p v os}, c.beside.find? p v = some os →
    ∃ os', c'.beside.find? p v = some os' ∧ ∀ o ∈ os', o ∈ os
  bodies : ∀ {v body}, c.bodies.find? v = some body → c'.bodies.find? v = some body

namespace Narrows

theorem refl (c : Census) : c.Narrows c := ⟨fun h => ⟨_, h, fun _ => id⟩, id⟩

theorem trans {c c' c'' : Census} (h : c.Narrows c') (h' : c'.Narrows c'') : c.Narrows c'' := by
  refine ⟨fun hos => ?_, fun hbody => h'.bodies (h.bodies hbody)⟩
  obtain ⟨os', hos', hsub⟩ := h.beside hos
  obtain ⟨os'', hos'', hsub'⟩ := h'.beside hos'
  exact ⟨os'', hos'', fun o ho => hsub o (hsub' o ho)⟩

theorem contains {c c' : Census} (h : c.Narrows c') {v : Var} (hv : c.bodies.contains v = true) :
    c'.bodies.contains v = true := by
  obtain ⟨body, hbody⟩ := Option.isSome_iff_exists.mp hv
  exact Option.isSome_iff_exists.mpr ⟨body, h.bodies hbody⟩

end Narrows

variable {g : BundleGraph}

def Counts (c : Census) (p : Polarity) (l : Layer α) (v : Var) : Prop :=
  ∃ os, c.beside.find? p v = some os ∧ ∀ o ∈ os, (ofLayer l).contains o = true

theorem Counts.mono {c c' : Census} (h : c.Narrows c') {p : Polarity} {l : Layer α} {v : Var}
    (hv : c.Counts p l v) : c'.Counts p l v := by
  obtain ⟨os, hos, hl⟩ := hv
  obtain ⟨os', hos', hsub⟩ := h.beside hos
  exact ⟨os', hos', fun o ho => hl o (hsub o ho)⟩

/-- The bundle was counted with all that is below it, and its cycles were entered. -/
inductive Covers (g : BundleGraph) (c : Census) : Polarity → Bundle → Prop
  | intro {p : Polarity} {b : Bundle} (counts : ∀ v ∈ b.layer.vars.items, c.Counts p b.layer v)
    (enters : ∀ v ∈ b.layer.vars.items, g.cycles.contains v = true → c.bodies.contains v = true)
    (child : ∀ q d, b.layer.Child p q d → Covers g c q d) : Covers g c p b

theorem Covers.mono {c c' : Census} (h : c.Narrows c') {p : Polarity} {b : Bundle}
    (hb : c.Covers g p b) : c'.Covers g p b := by
  induction hb with
  | intro counts enters _ ih =>
    exact .intro (fun v hv => (counts v hv).mono h) (fun v hv hc => h.contains (enters v hv hc)) ih

/-- All that a census says is so somewhere in the graph, and it keeps whatever stands beside a
variable everywhere. -/
structure Fits (g : BundleGraph) (c : Census) : Prop where
  bodies : ∀ {v body}, c.bodies.find? v = some body →
    ∃ b, g.cycles.find? v = some b ∧ body = .plain b
  occurs : ∀ {p v os}, c.beside.find? p v = some os →
    ∃ b, g.Occurs p b ∧ b.layer.Has v.id ∧ ∀ o ∈ os, (ofLayer b.layer).contains o = true
  listed : ∀ {p v os}, c.beside.find? p v = some os → c.vars.contains v = true
  complete : ∀ {p v os o}, c.beside.find? p v = some os →
    (∀ b, g.Occurs p b → b.layer.Has v.id → (ofLayer b.layer).contains o = true) →
      os.contains o = true

structure Explores (g : BundleGraph) (c c' : Census) : Prop where
  narrows : c.Narrows c'
  size_le : c.bodies.size ≤ c'.bodies.size
  done : ∀ {v body}, g.cycles.find? v = some body → c'.bodies.contains v = true →
    c.bodies.contains v = true ∨ ∃ p b, g.Occurs p b ∧ b.layer.Has v.id ∧ c'.Covers g p body

theorem Explores.refl (g : BundleGraph) (c : Census) : c.Explores g c :=
  ⟨.refl c, Nat.le_refl _, fun _ h => .inl h⟩

theorem Explores.trans {c c' c'' : Census} (h : c.Explores g c') (h' : c'.Explores g c'') :
    c.Explores g c'' := by
  refine ⟨h.narrows.trans h'.narrows, h.size_le.trans h'.size_le, fun hbody hv => ?_⟩
  rcases h'.done hbody hv with hv | hdone
  · refine (h.done hbody hv).imp_right fun ⟨p, b, hb, hhas, hcovers⟩ => ?_
    exact ⟨p, b, hb, hhas, hcovers.mono h'.narrows⟩
  · exact .inr hdone

/-- From every census with few enough cycles left the pass explores, and what is asked holds
from its end on. -/
def Surveys (g : BundleGraph) (fuel : Nat) (pass : Census → Census) (post : Census → Prop) : Prop :=
  ∀ c, c.Fits g → g.cycles.size ≤ c.bodies.size + fuel →
    (pass c).Fits g ∧ c.Explores g (pass c) ∧ ∀ c', (pass c).Narrows c' → post c'

namespace Surveys

variable {fuel : Nat} {pass pass' : Census → Census} {post post' : Census → Prop}

theorem id : Surveys g fuel (fun c => c) fun _ => True :=
  fun c hc _ => ⟨hc, .refl g c, fun _ _ => trivial⟩

theorem comp (h : Surveys g fuel pass post) (h' : Surveys g fuel pass' post') :
    Surveys g fuel (fun c => pass' (pass c)) fun c => post c ∧ post' c := by
  intro c hc hroom
  obtain ⟨hfits, hexp, hpost⟩ := h c hc hroom
  obtain ⟨hfits', hexp', hpost'⟩ :=
    h' (pass c) hfits (hroom.trans (Nat.add_le_add_right hexp.size_le _))
  refine ⟨hfits', hexp.trans hexp', fun c' hc' => ?_⟩
  exact ⟨hpost c' (hexp'.narrows.trans hc'), hpost' c' hc'⟩

theorem imp (h : Surveys g fuel pass post) (hi : ∀ c, post c → post' c) :
    Surveys g fuel pass post' := by
  intro c hc hroom
  obtain ⟨hfits, hexp, hpost⟩ := h c hc hroom
  exact ⟨hfits, hexp, fun c' hc' => hi c' (hpost c' hc')⟩

theorem foldl {β : Type} (step : Census → β → Census) {post : β → Census → Prop} (xs : List β)
    (h : ∀ x ∈ xs, Surveys g fuel (fun c => step c x) (post x)) :
    Surveys g fuel (fun c => xs.foldl step c) fun c => ∀ x ∈ xs, post x c := by
  induction xs with
  | nil => exact fun c hc _ => ⟨hc, .refl g c, fun _ _ x hx => nomatch hx⟩
  | cons x xs ih =>
    have hrest := ih fun y hy => h y (List.mem_cons_of_mem x hy)
    exact ((h x List.mem_cons_self).comp hrest).imp fun c hc => List.forall_mem_cons.mpr hc

end Surveys

theorem count_surveys {fuel : Nat} {p : Polarity} {b : Bundle} {v : Var} (hb : g.Occurs p b)
    (hv : v ∈ b.layer.vars.items) :
    Surveys g fuel (count p (ofLayer b.layer) v) fun c => c.Counts p b.layer v := by
  intro c hc _
  have hnarrowed : ∀ o ∈ narrowed (ofLayer b.layer) (c.beside.find? p v),
      (ofLayer b.layer).contains o = true := by
    intro o ho
    cases hold : c.beside.find? p v with
    | none =>
      rw [hold] at ho
      exact contains_of_mem ho
    | some old =>
      rw [hold] at ho
      exact (List.mem_filter.mp ho).2
  refine ⟨⟨?_, ?_, ?_, ?_⟩, ⟨⟨?_, ?_⟩, ?_, ?_⟩, ?_⟩
  · rw [count_bodies]
    exact hc.bodies
  · intro q w os hos
    rw [find?_count] at hos
    split_ifs at hos with hw
    · obtain ⟨hid, rfl⟩ := hw
      cases hos
      exact ⟨b, hb, ⟨v, hv, hid.symm⟩, hnarrowed⟩
    · exact hc.occurs hos
  · intro q w os hos
    rw [count_vars, VarSet.contains_insert]
    rw [find?_count] at hos
    split_ifs at hos with hw
    · simp [hw.1]
    · simp [hc.listed hos]
  · intro q w os o hos ho
    rw [find?_count] at hos
    split_ifs at hos with hw
    · obtain ⟨hid, rfl⟩ := hw
      cases hos
      rw [hid] at ho
      have hhere := ho b hb ⟨v, hv, rfl⟩
      cases hold : c.beside.find? q v with
      | none => exact hhere
      | some old => exact contains_filter_contains.mpr ⟨hc.complete hold ho, hhere⟩
    · exact hc.complete hos ho
  · intro q w os hos
    rw [find?_count]
    split_ifs with hw
    · obtain ⟨hid, rfl⟩ := hw
      rw [c.beside.find?_congr q hid] at hos
      rw [hos]
      exact ⟨_, rfl, fun o ho => (List.mem_filter.mp ho).1⟩
    · exact ⟨os, hos, fun _ => id⟩
  · rw [count_bodies]
    exact id
  · rw [count_bodies]
  · rw [count_bodies]
    exact fun _ h => .inl h
  · intro c' hc'
    refine Counts.mono hc' ⟨_, ?_, hnarrowed⟩
    rw [find?_count, if_pos ⟨rfl, rfl⟩]

theorem takeBundle_node (enter : Var → Pass) (l : Layer Bundle) :
    takeBundle enter (.node l) = takeLayer enter (l.map (takeBundle enter)) := by
  rw [takeBundle, Bundle.fold_node, Layer.map_map]

def below (p : Polarity) (l : Layer α) : List (Polarity × α) :=
  (l.record.getD []).map (fun f => (p, f.2)) ++ (l.tuple.getD []).map (fun a => (p, a)) ++
    l.func.toList.flatMap fun f => [(p.flip, f.1), (p, f.2)]

theorem mem_below {p q : Polarity} {l : Layer α} {a : α} :
    (q, a) ∈ below p l ↔ l.Child p q a := by
  rcases l with ⟨vars, bases, tuple, record, func, top⟩
  constructor
  · intro h
    simp only [below, List.mem_append, List.mem_map, List.mem_flatMap, Option.mem_toList,
      List.mem_cons, List.not_mem_nil, or_false, Prod.mk.injEq] at h
    rcases h with (⟨f, hf, rfl, rfl⟩ | ⟨b, hb, rfl, rfl⟩) | ⟨f, rfl, ⟨rfl, rfl⟩ | ⟨rfl, rfl⟩⟩
    · cases record with
      | none => cases hf
      | some fields => exact .field rfl hf
    · cases tuple with
      | none => cases hb
      | some elems => exact .elem rfl hb
    · exact .param rfl
    · exact .result rfl
  · intro h
    cases h with
    | elem h ha =>
      cases h
      exact List.mem_append_left _ (List.mem_append_right _ (List.mem_map_of_mem ha))
    | field h hf =>
      cases h
      exact List.mem_append_left _
        (List.mem_append_left _ (List.mem_map_of_mem (f := fun f => (p, f.2)) hf))
    | param h | result h =>
      cases h
      exact List.mem_append_right _ (by simp)

theorem takeBundle_eq_foldl (enter : Var → Pass) (l : Layer Bundle) (p : Polarity) (c : Census) :
    takeBundle enter (.node l) p c =
      (below p l).foldl (fun c e => takeBundle enter e.2 e.1 c)
        (l.vars.items.foldl (fun c v => enter v p (count p (ofLayer l) v c)) c) := by
  rw [takeBundle_node]
  rcases l with ⟨vars, bases, tuple, record, func, top⟩
  cases tuple <;> cases record <;> cases func <;>
    simp [takeLayer, below, Layer.map, ofLayer, List.foldl_map]

theorem takeBundle_surveys {fuel : Nat} {enter : Var → Pass}
    (henter : ∀ p b v, g.Occurs p b → v ∈ b.layer.vars.items →
      Surveys g fuel (enter v p) fun c => g.cycles.contains v = true → c.bodies.contains v = true)
    {p : Polarity} {b : Bundle} (hb : g.Occurs p b) :
    Surveys g fuel (takeBundle enter b p) fun c => c.Covers g p b := by
  induction b generalizing p with
  | node l ih =>
    have hvars := Surveys.foldl (fun c v => enter v p (count p (ofLayer l) v c)) l.vars.items
      fun v hv => (count_surveys hb hv).comp (henter p _ v hb hv)
    have hbelow := Surveys.foldl (fun c e => takeBundle enter e.2 e.1 c) (below p l)
      fun e he => ih p e.1 e.2 (mem_below.mp he) (hb.child (mem_below.mp he))
    rw [show takeBundle enter (.node l) p = _ from funext (takeBundle_eq_foldl enter l p)]
    refine (hvars.comp hbelow).imp ?_
    rintro c ⟨hv, hchild⟩
    exact .intro (fun v hmem => (hv v hmem).1) (fun v hmem => (hv v hmem).2)
      fun q d hd => hchild (q, d) (mem_below.mpr hd)

/-- The bodies that were entered are bodies of cycles, and at most so many cycles are left. -/
structure Room (g : BundleGraph) (fuel : Nat) (c : Census) : Prop where
  entered : ∀ v, c.bodies.contains v = true → g.cycles.contains v = true
  left : g.cycles.size ≤ c.bodies.size + fuel

theorem Room.contains {c : Census} (h : c.Room g 0) {v : Var} (hv : g.cycles.contains v = true) :
    c.bodies.contains v = true :=
  VarMap.contains_of_size_le h.entered h.left hv

theorem Fits.room {c : Census} (h : c.Fits g) {fuel : Nat}
    (hleft : g.cycles.size ≤ c.bodies.size + fuel) : c.Room g fuel := by
  refine ⟨fun v hv => ?_, hleft⟩
  obtain ⟨body, hbody⟩ := Option.isSome_iff_exists.mp hv
  obtain ⟨b, hb, -⟩ := h.bodies hbody
  exact Option.isSome_iff_exists.mpr ⟨b, hb⟩

theorem takeBody_surveys (fuel : Nat) {p : Polarity} {b : Bundle} {v : Var} (hb : g.Occurs p b)
    (hv : v ∈ b.layer.vars.items) :
    Surveys g fuel (takeBody g.cycles fuel v p)
      fun c => g.cycles.contains v = true → c.bodies.contains v = true := by
  -- A body that is entered is one of the cycles left, so their number bounds the depth.
  induction fuel generalizing p b v with
  | zero =>
    intro c hc hroom
    exact ⟨hc, .refl g c, fun c' hc' hcycle => hc'.contains ((hc.room hroom).contains hcycle)⟩
  | succ fuel ih =>
    intro c hc hroom
    rw [takeBody]
    cases hbody : g.cycles.find? v with
    | none =>
      refine ⟨hc, .refl g c, fun c' _ hcycle => ?_⟩
      simp [VarMap.contains, hbody] at hcycle
    | some body =>
      show Fits g (if c.bodies.contains v = true then c else _) ∧ _
      split_ifs with hin
      · exact ⟨hc, .refl g c, fun c' hc' _ => hc'.contains hin⟩
      have hnew : c.bodies.find? v = none := by simpa [VarMap.contains] using hin
      have hsize := VarMap.size_insert hnew (.plain body)
      have hfits : Fits g { c with bodies := c.bodies.insert v (.plain body) } := by
        refine ⟨fun {w} => ?_, hc.occurs, hc.listed, hc.complete⟩
        intro e he
        rw [VarMap.find?_insert] at he
        split_ifs at he with hid
        · cases he
          exact ⟨body, (g.cycles.find?_congr hid).trans hbody, rfl⟩
        · exact hc.bodies he
      have hnarrows : c.Narrows { c with bodies := c.bodies.insert v (.plain body) } := by
        refine ⟨fun h => ⟨_, h, fun _ => id⟩, fun {w e} he => ?_⟩
        rw [VarMap.find?_insert, if_neg, he]
        intro hid
        rw [c.bodies.find?_congr hid, hnew] at he
        cases he
      obtain ⟨hfits', hexp, hcovers⟩ := takeBundle_surveys (fun p b v => ih) (hb.body hv hbody) _
        hfits (by simp only [hsize]; omega)
      refine ⟨hfits', ⟨hnarrows.trans hexp.narrows, ?_, fun {w d} hd hw => ?_⟩, fun c' hc' _ => ?_⟩
      · exact Nat.le_trans (by simp only [hsize]; omega) hexp.size_le
      · rcases hexp.done hd hw with hw | hdone
        · rw [VarMap.contains_insert, Bool.or_eq_true, beq_iff_eq] at hw
          rcases hw with hid | hw
          · rw [g.cycles.find?_congr hid, hbody] at hd
            cases hd
            exact .inr ⟨p, b, hb, ⟨v, hv, hid.symm⟩, hcovers _ (.refl _)⟩
          · exact .inl hw
        · exact .inr hdone
      · refine hc'.contains (hexp.narrows.contains ?_)
        simp [VarMap.contains_insert]

theorem fits_start (g : BundleGraph) : Fits g ⟨.ofList g.cycles.keys, .empty, .empty, []⟩ := by
  refine ⟨fun h => ?_, fun h => ?_, fun h => ?_, fun h _ => ?_⟩
  · cases h
  · rw [PolarMap.find?_empty] at h
    cases h
  · rw [PolarMap.find?_empty] at h
    cases h
  · rw [PolarMap.find?_empty] at h
    cases h

section Fuel

variable {fuel : Nat} {pass pass' : Census → Census}

def Alike (g : BundleGraph) (fuel : Nat) (pass pass' : Census → Census) : Prop :=
  ∀ c, c.Room g fuel → (pass c).Room g fuel ∧ pass' c = pass c

theorem Alike.comp {next next' : Census → Census} (h : Alike g fuel pass pass')
    (h' : Alike g fuel next next') :
    Alike g fuel (fun c => next (pass c)) fun c => next' (pass' c) := by
  intro c hc
  obtain ⟨hroom, heq⟩ := h c hc
  obtain ⟨hroom', heq'⟩ := h' (pass c) hroom
  exact ⟨hroom', (congrArg next' heq).trans heq'⟩

theorem Alike.foldl {β : Type} (step step' : Census → β → Census) (xs : List β)
    (h : ∀ x ∈ xs, Alike g fuel (fun c => step c x) fun c => step' c x) :
    Alike g fuel (fun c => xs.foldl step c) fun c => xs.foldl step' c := by
  induction xs with
  | nil => exact fun c hc => ⟨hc, rfl⟩
  | cons x xs ih =>
    exact (h x List.mem_cons_self).comp (ih fun y hy => h y (List.mem_cons_of_mem x hy))

theorem count_alike (p : Polarity) (occs : List Occurrence) (v : Var) :
    Alike g fuel (count p occs v) (count p occs v) := by
  intro c hc
  refine ⟨⟨?_, ?_⟩, rfl⟩
  · rw [count_bodies]
    exact hc.entered
  · rw [count_bodies]
    exact hc.left

theorem takeBundle_alike {enter enter' : Var → Pass}
    (henter : ∀ v p, Alike g fuel (enter v p) (enter' v p)) (b : Bundle) (p : Polarity) :
    Alike g fuel (takeBundle enter b p) (takeBundle enter' b p) := by
  induction b generalizing p with
  | node l ih =>
    have hvars := Alike.foldl (fun c v => enter v p (count p (ofLayer l) v c))
      (fun c v => enter' v p (count p (ofLayer l) v c)) l.vars.items
      fun v _ => (count_alike p (ofLayer l) v).comp (henter v p)
    have hbelow := Alike.foldl (fun c e => takeBundle enter e.2 e.1 c)
      (fun c e => takeBundle enter' e.2 e.1 c) (below p l)
      fun e he => ih p e.1 e.2 (mem_below.mp he) e.1
    intro c hc
    rw [takeBundle_eq_foldl, takeBundle_eq_foldl]
    exact hvars.comp hbelow c hc

theorem takeBody_of_entered {c : Census} {v : Var}
    (h : g.cycles.contains v = true → c.bodies.contains v = true) (fuel : Nat) (p : Polarity) :
    takeBody g.cycles fuel v p c = c := by
  cases fuel with
  | zero => rfl
  | succ fuel =>
    rw [takeBody]
    cases hbody : g.cycles.find? v with
    | none => rfl
    | some body => exact if_pos (h (by rw [VarMap.contains, hbody]; rfl))

theorem takeBody_alike (fuel more : Nat) (v : Var) (p : Polarity) :
    Alike g fuel (takeBody g.cycles fuel v p) (takeBody g.cycles (fuel + more) v p) := by
  induction fuel generalizing v p with
  | zero =>
    intro c hc
    exact ⟨hc, takeBody_of_entered hc.contains _ p⟩
  | succ fuel ih =>
    intro c hc
    by_cases hin : g.cycles.contains v = true → c.bodies.contains v = true
    · rw [takeBody_of_entered hin, takeBody_of_entered hin]
      exact ⟨hc, rfl⟩
    obtain ⟨hcycle, hnew⟩ := Classical.not_imp.mp hin
    obtain ⟨body, hbody⟩ := Option.isSome_iff_exists.mp hcycle
    -- one more body is entered, so one cycle fewer is left
    have hroom : Room g fuel { c with bodies := c.bodies.insert v (.plain body) } := by
      refine ⟨fun w hw => ?_, ?_⟩
      · rw [VarMap.contains_insert, Bool.or_eq_true, beq_iff_eq] at hw
        rcases hw with hid | hw
        · rwa [g.cycles.contains_congr hid]
        · exact hc.entered w hw
      · have hsize : (c.bodies.insert v (.plain body)).size = c.bodies.size + 1 :=
          VarMap.size_insert (by simpa [VarMap.contains] using hnew) _
        have hleft := hc.left
        simp only [hsize]
        omega
    obtain ⟨hdone, heq⟩ := takeBundle_alike ih body p _ hroom
    have hstep : ∀ n, takeBody g.cycles (n + 1) v p c = takeBundle (takeBody g.cycles n) body p
        { c with bodies := c.bodies.insert v (.plain body) } := by
      intro n
      rw [takeBody, hbody]
      exact if_neg hnew
    rw [Nat.add_right_comm, hstep, hstep]
    exact ⟨⟨hdone.entered, Nat.le_succ_of_le hdone.left⟩, heq⟩

/-- The number of cycles bounds how deep bodies are entered: with more fuel the census is the
same. -/
theorem take_eq_of_more (g : BundleGraph) (more : Nat) :
    takeBundle (takeBody g.cycles (g.cycles.size + more)) g.root .positive
      ⟨.ofList g.cycles.keys, .empty, .empty, []⟩ = take g := by
  have hroom := (fits_start g).room (Nat.le_add_left g.cycles.size _)
  exact (takeBundle_alike (takeBody_alike g.cycles.size more) g.root .positive _ hroom).2

end Fuel

theorem take_fits (g : BundleGraph) : (take g).Fits g :=
  (takeBundle_surveys (fun _ _ _ => takeBody_surveys _) .root _ (fits_start g)
    (Nat.le_add_left _ _)).1

theorem take_covers {g : BundleGraph} (hg : g.OnePolarity) {p : Polarity} {b : Bundle}
    (hb : g.Occurs p b) : (take g).Covers g p b := by
  obtain ⟨-, hexp, hcovers⟩ := takeBundle_surveys (fun _ _ _ => takeBody_surveys _) .root _
    (fits_start g) (Nat.le_add_left _ _)
  induction hb with
  | root => exact hcovers _ (.refl _)
  | child _ hc ih =>
    obtain ⟨-, -, hchild⟩ := ih
    exact hchild _ _ hc
  | @body p b d v hb hv hbody ih =>
    obtain ⟨-, henters, -⟩ := ih
    have hcycle : g.cycles.contains v = true := Option.isSome_iff_exists.mpr ⟨d, hbody⟩
    rcases hexp.done hbody (henters v hv hcycle) with hstart | ⟨q, c, hc, hhas, hd⟩
    · cases hstart
    · -- The body was entered at the polarity of another place of the variable.
      rwa [hg hb hc ⟨v, hv, rfl⟩ hhas ((g.cycles.contains_congr rfl).trans hcycle)]

theorem take_counts {g : BundleGraph} (hg : g.OnePolarity) {p : Polarity} {b : Bundle}
    (hb : g.Occurs p b) {v : Var} (hv : b.layer.Has v.id) : (take g).Counts p b.layer v := by
  obtain ⟨u, hu, hid⟩ := hv
  obtain ⟨hcounts, -, -⟩ := take_covers hg hb
  obtain ⟨os, hos, hl⟩ := hcounts u hu
  exact ⟨os, (PolarMap.find?_congr _ p hid.symm).trans hos, hl⟩

theorem take_contains_iff {g : BundleGraph} (hg : g.OnePolarity) {p : Polarity} {v : Var} :
    (take g).beside.contains p v = true ↔ ∃ b, g.Occurs p b ∧ b.layer.Has v.id := by
  rw [PolarMap.contains_iff]
  constructor
  · rintro ⟨os, hos⟩
    obtain ⟨b, hb, hv, -⟩ := (take_fits g).occurs hos
    exact ⟨b, hb, hv⟩
  · rintro ⟨b, hb, hv⟩
    obtain ⟨os, hos, -⟩ := take_counts hg hb hv
    exact ⟨os, hos⟩

theorem take_lists_iff {g : BundleGraph} (hg : g.OnePolarity) {p : Polarity} {v : Var}
    {os : List Occurrence} (hos : (take g).beside.find? p v = some os) {o : Occurrence} :
    os.contains o = true ↔
      ∀ b, g.Occurs p b → b.layer.Has v.id → (ofLayer b.layer).contains o = true := by
  refine ⟨fun ho b hb hv => ?_, (take_fits g).complete hos⟩
  obtain ⟨os', hos', hl⟩ := take_counts hg hb hv
  obtain rfl := Option.some.inj (hos.symm.trans hos')
  rw [List.contains_eq_any_beq, List.any_eq_true] at ho
  obtain ⟨o', ho', heq⟩ := ho
  exact (List.contains_congr heq).trans (hl o' ho')

/-- If no cycle is read at both polarities, the census has a list for a variable and a polarity
exactly if the variable is read at that polarity, and lists exactly what stands beside the variable
wherever it is. -/
theorem take_exact {g : BundleGraph} (hg : g.OnePolarity) (p : Polarity) (v : Var) :
    ((take g).beside.contains p v = true ↔ ∃ b, g.Occurs p b ∧ b.layer.Has v.id) ∧
      ∀ os, (take g).beside.find? p v = some os →
        (∀ w : Var, os.contains (.var w) = true ↔
          ∀ b, g.Occurs p b → b.layer.Has v.id → b.layer.Has w.id) ∧
        ∀ a : BaseTy, os.contains (.base a) = true ↔
          ∀ b, g.Occurs p b → b.layer.Has v.id → b.layer.bases.contains a = true := by
  refine ⟨take_contains_iff hg, fun os hos => ⟨fun w => ?_, fun a => ?_⟩⟩
  · simp only [take_lists_iff hg hos, contains_ofLayer_var]
  · simp only [take_lists_iff hg hos, contains_ofLayer_base]

theorem take_exact_sharedStream :
    BundleGraph.sharedStream.OnePolarity ∧
      ∃ os, (take .sharedStream).beside.find? .positive ⟨0, 0⟩ = some os ∧
        os.contains (.var ⟨1, 0⟩) = true := by
  have hone : BundleGraph.sharedStream.OnePolarity := BundleGraph.sharedStream_tidy.onePolarity
  obtain ⟨hread, hlists⟩ := take_exact hone .positive ⟨0, 0⟩
  have hbody : BundleGraph.sharedStream.Occurs .positive BundleGraph.sharedBody :=
    .body (.child .root (.result rfl)) List.mem_cons_self rfl
  have helement := hbody.child (.field rfl List.mem_cons_self)
  obtain ⟨os, hos⟩ := PolarMap.contains_iff.mp
    (hread.mpr ⟨BundleGraph.sharedElement, helement, ⟨0, 0⟩, List.mem_cons_self, rfl⟩)
  refine ⟨hone, os, hos, ((hlists os hos).1 ⟨1, 0⟩).mpr fun b hb hv => ?_⟩
  -- the first variable stands only where both do
  rcases BundleGraph.sharedStream_occurs hb with ⟨-, rfl | rfl | rfl⟩ | rfl
  · exact absurd hv (by simp [Layer.Has, BundleGraph.sharedStream, Bundle.layer, VarSet.empty])
  · exact absurd hv (by simp [Layer.Has, Bundle.ofVar, Bundle.layer, VarSet.singleton])
  · exact absurd hv (by simp [Layer.Has, BundleGraph.sharedBody, Bundle.layer, VarSet.empty])
  · exact ⟨⟨1, 0⟩, List.mem_cons_of_mem _ List.mem_cons_self, rfl⟩

end Census
end Biunify
