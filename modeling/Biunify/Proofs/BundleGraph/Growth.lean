import Biunify.BundleGraph.OfTy
import Biunify.Proofs.Bundle.Places
import Biunify.Proofs.Perform
import Biunify.Proofs.VarMap
import Mathlib.Data.Finset.Card
import Mathlib.Data.Option.Basic

/-! Growing a bundle. It always comes to an end, as the bundles on a path are of the finitely
many that can be met, and no two of them have one mark. What is returned stands for the bundle:
it is the variable of its mark, or has the shape of the bundle with the bounds absorbed, with
something in each place below that stands for what was there. When no bundle is left
unfinished, the body of each variable has such a shape too. -/

namespace Biunify

structure Layer.Rel {α β : Type} (R : Polarity → α → β → Prop) (p : Polarity) (l : Layer α)
    (l' : Layer β) : Prop where
  vars : l.vars = l'.vars
  bases : l.bases = l'.bases
  top : l.top = l'.top
  tuple : Option.Rel (List.Forall₂ (R p)) l.tuple l'.tuple
  record : Option.Rel (List.Forall₂ fun f g => f.1 = g.1 ∧ R p f.2 g.2) l.record l'.record
  func : Option.Rel (fun f g => R p.flip f.1 g.1 ∧ R p f.2 g.2) l.func l'.func

theorem optionRel_imp {α β : Type} {R S : α → β → Prop} {o : Option α} {o' : Option β}
    (h : Option.Rel R o o') (hi : ∀ a b, R a b → S a b) : Option.Rel S o o' := by
  cases h with
  | none => exact .none
  | some h => exact .some (hi _ _ h)

theorem Layer.Rel.imp {α β : Type} {R S : Polarity → α → β → Prop} {p : Polarity} {l : Layer α}
    {l' : Layer β} (h : l.Rel R p l') (hi : ∀ q a b, R q a b → S q a b) : l.Rel S p l' where
  vars := h.vars
  bases := h.bases
  top := h.top
  tuple := optionRel_imp h.tuple fun _ _ hl => hl.imp (hi p)
  record := optionRel_imp h.record fun _ _ hl => hl.imp fun _ _ hf => hf.imp_right (hi p _ _)
  func := optionRel_imp h.func fun _ _ hf => hf.imp (hi _ _ _) (hi _ _ _)

namespace BundleGraph

/-- What stands for a bundle read at `p`: the variable of its mark, or a bundle of its shape. -/
def Stands (t : BoundTable) (name : Mark → Option Var) : Nat → Polarity → Bundle → Bundle → Prop
  | 0, _, _, _ => False
  | depth + 1, p, b, b' => (∃ v, name (b.key, p) = some v ∧ b' = .ofVar v) ∨
    (b.absorb t p).layer.Rel (Stands t name depth) p b'.layer

def GrownFor (t : BoundTable) (met : Polarity → Bundle → Prop) (name : Mark → Option Var)
    (mark : Mark) (body : Bundle) : Prop :=
  ∃ p b depth, mark = (b.key, p) ∧ met p b ∧
    (b.absorb t p).layer.Rel (Stands t name depth) p body.layer

def MetAgain (t : BoundTable) (met : Polarity → Bundle → Prop) (mark : Mark) : Prop :=
  ∃ p b c, mark = (b.key, p) ∧ c.key = b.key ∧ met p b ∧ t.MeetsBelow p b p c

namespace Growth

def NamesStay (g g' : Growth) : Prop :=
  ∀ mark v, g.nameOf? mark = some v → g'.nameOf? mark = some v

theorem NamesStay.trans {g g' g'' : Growth} (h : g.NamesStay g') (h' : g'.NamesStay g'') :
    g.NamesStay g'' :=
  fun mark v hv => h' mark v (h mark v hv)

/-- What holds while the bundles of `path` are not finished: only variables were added to the
table, for marks that are met again, each mark has its own, and those that are not on the path
have a body. -/
structure Sound (t : BoundTable) (met : Polarity → Bundle → Prop) (path : List Mark) (g : Growth)
    (s : Session) : Prop where
  table : t.AddsVars s.table
  again : ∀ {mark v}, g.nameOf? mark = some v → MetAgain t met mark
  named : ∀ {mark v}, g.nameOf? mark = some v → t.size ≤ v.id ∧ v.id < s.table.size
  distinct : ∀ {mark mark' v v'}, g.nameOf? mark = some v → g.nameOf? mark' = some v' →
    v.id = v'.id → mark = mark'
  cycles : ∀ {v body}, g.cycles.find? v = some body → t.size ≤ v.id
  finished : ∀ {mark v}, g.nameOf? mark = some v → mark ∈ path ∨
    ∃ body, g.cycles.find? v = some body ∧ GrownFor t met g.nameOf? mark body

end Growth

variable {t : BoundTable} {met : Polarity → Bundle → Prop} {g g' : Growth}

theorem Stands.mono {depth : Nat} {p : Polarity} {b b' : Bundle} (hg : g.NamesStay g')
    (h : Stands t g.nameOf? depth p b b') : Stands t g'.nameOf? depth p b b' := by
  induction depth generalizing p b b' with
  | zero => cases h
  | succ depth ih =>
    rcases h with ⟨v, hv, rfl⟩ | h
    · exact .inl ⟨v, hg _ v hv, rfl⟩
    · exact .inr (h.imp fun q c c' => ih)

theorem GrownFor.mono {mark : Mark} {body : Bundle} (hg : g.NamesStay g')
    (h : GrownFor t met g.nameOf? mark body) : GrownFor t met g'.nameOf? mark body := by
  obtain ⟨p, b, depth, hmark, hmet, hrel⟩ := h
  exact ⟨p, b, depth, hmark, hmet, hrel.imp fun q c c' => Stands.mono hg⟩

def Yields {α : Type} (fuel : Nat) (inv : Growth → Session → Prop) (g : Growth) (s : Session)
    (x : Nat → GrowM α) (post : α → Growth → Prop) : Prop :=
  inv g s → ∃ a g' s', (∀ more, fuel ≤ more → s.perform ((x more).run g) = (.ok (a, g'), s')) ∧
    g.NamesStay g' ∧ inv g' s' ∧ post a g'

namespace Yields

variable {α β : Type} {fuel : Nat} {inv : Growth → Session → Prop} {s : Session}
  {post : α → Growth → Prop} {post' : β → Growth → Prop}

theorem pure {a : α} (h : inv g s → post a g) : Yields fuel inv g s (fun _ => Pure.pure a) post :=
  fun hs => ⟨a, g, s, fun _ _ => rfl, fun _ _ hv => hv, hs, h hs⟩

theorem bind {x : Nat → GrowM α} {f : Nat → α → GrowM β} (hx : Yields fuel inv g s x post)
    (hf : ∀ a g' s', g.NamesStay g' → post a g' →
      Yields fuel inv g' s' (fun k => f k a) post') :
    Yields fuel inv g s (fun k => x k >>= f k) post' := by
  intro hs
  obtain ⟨a, g₁, s₁, hrun, hg₁, hs₁, ha⟩ := hx hs
  obtain ⟨b, g₂, s₂, hrun', hg₂, hs₂, hb⟩ := hf a g₁ s₁ hg₁ ha hs₁
  refine ⟨b, g₂, s₂, fun more hmore => ?_, hg₁.trans hg₂, hs₂, hb⟩
  rw [Session.perform_copy_bind_of_ok (hrun more hmore)]
  exact hrun' more hmore

theorem of_succ {x y : Nat → GrowM α} (hy : Yields fuel inv g s y post)
    (h : ∀ k, x (k + 1) = y k) : Yields (fuel + 1) inv g s x post := by
  intro hs
  obtain ⟨a, g₁, s₁, hrun, hrest⟩ := hy hs
  refine ⟨a, g₁, s₁, fun more hmore => ?_, hrest⟩
  obtain ⟨k, rfl⟩ : ∃ k, more = k + 1 := ⟨more - 1, by omega⟩
  rw [h]
  exact hrun k (Nat.le_of_succ_le_succ hmore)

theorem mapM {f : Nat → α → GrowM β} {R : Growth → α → β → Prop}
    (hR : ∀ {g g' a b}, g.NamesStay g' → R g a b → R g' a b) {as : List α}
    (h : ∀ a ∈ as, ∀ g s, Yields fuel inv g s (fun k => f k a) fun b g => R g a b) (g : Growth)
    (s : Session) :
    Yields fuel inv g s (fun k => as.mapM (f k)) fun bs g => List.Forall₂ (R g) as bs := by
  induction as generalizing g s with
  | nil => exact pure fun _ => .nil
  | cons a as ih =>
    simp only [List.mapM_cons]
    refine (h a List.mem_cons_self g s).bind fun b g₁ s₁ _ hb => ?_
    refine (ih (fun c hc => h c (List.mem_cons_of_mem a hc)) g₁ s₁).bind fun bs g₂ s₂ hg₂ hbs => ?_
    exact pure fun _ => .cons (hR hg₂ hb) hbs

theorem optionMapM {f : Nat → α → GrowM β} {R : Growth → α → β → Prop} {o : Option α}
    (h : ∀ a, o = some a → ∀ g s, Yields fuel inv g s (fun k => f k a) fun b g => R g a b)
    (g : Growth) (s : Session) :
    Yields fuel inv g s (fun k => o.mapM (f k)) fun o' g => Option.Rel (R g) o o' := by
  cases o with
  | none => exact pure fun _ => .none
  | some a =>
    simp only [Option.mapM_some, map_eq_pure_bind]
    exact (h a rfl g s).bind fun b g₁ s₁ _ hb => pure fun _ => .some hb

end Yields

namespace Growth

def withName (g : Growth) (mark : Mark) (v : Var) : Growth :=
  { g with named := (mark, v) :: g.named }

theorem nameOf?_withName (g : Growth) (mark other : Mark) (v : Var) :
    (g.withName mark v).nameOf? other = if other = mark then some v else g.nameOf? other := by
  rw [withName, nameOf?, nameOf?, List.find?_cons]
  by_cases h : other = mark
  · simp [h]
  · have hne : (mark == other) = false := beq_eq_false_iff_ne.mpr (Ne.symm h)
    rw [if_neg h, hne]

theorem namesStay_withName {mark : Mark} (hnew : g.nameOf? mark = none) (v : Var) :
    g.NamesStay (g.withName mark v) := by
  intro other w hw
  have hne : other ≠ mark := fun heq => by simp [heq, hnew] at hw
  rw [nameOf?_withName, if_neg hne, hw]

theorem Sound.withName {path : List Mark} {s : Session} {mark : Mark}
    (h : g.Sound t met path s) (hmem : mark ∈ path) (hagain : MetAgain t met mark)
    (hnew : g.nameOf? mark = none) (log : List Event) :
    (g.withName mark (s.table.nextVar 0)).Sound t met path
      { s with table := s.table.addVar 0, log := log } := by
  have hsize : t.size ≤ s.table.size := by
    refine h.table.keeps (P := fun t' => t.size ≤ t'.size) (fun t' level ht' => ?_) le_rfl
    exact ht'.trans (t'.size_addVar level ▸ Nat.le_succ _)
  constructor
  case table => exact h.table.trans (.addVar s.table 0)
  case again =>
    intro other v hv
    rw [nameOf?_withName] at hv
    split_ifs at hv with heq
    · exact heq ▸ hagain
    · exact h.again hv
  case named =>
    intro other v hv
    rw [nameOf?_withName] at hv
    rw [BoundTable.size_addVar]
    split_ifs at hv
    · cases hv
      exact ⟨hsize, Nat.lt_succ_self _⟩
    · exact ⟨(h.named hv).1, (h.named hv).2.trans (Nat.lt_succ_self _)⟩
  case distinct =>
    intro m m' v v' hv hv' hid
    rw [nameOf?_withName] at hv hv'
    split_ifs at hv hv' with hm hm' hm'
    · rw [hm, hm']
    · cases hv
      exact absurd hid.symm (h.named hv').2.ne
    · cases hv'
      exact absurd hid (h.named hv).2.ne
    · exact h.distinct hv hv' hid
  case cycles => exact h.cycles
  case finished =>
    intro other v hv
    rw [nameOf?_withName] at hv
    split_ifs at hv with heq
    · exact .inl (heq ▸ hmem)
    · refine (h.finished hv).imp_right fun ⟨body, hbody, hgrown⟩ => ⟨body, hbody, ?_⟩
      exact hgrown.mono (namesStay_withName hnew _)

theorem Sound.push {path : List Mark} {s : Session} (h : g.Sound t met path s) (mark : Mark) :
    g.Sound t met (mark :: path) s :=
  ⟨h.table, h.again, h.named, h.distinct, h.cycles,
    fun hv => (h.finished hv).imp_left (List.mem_cons_of_mem mark)⟩

theorem Sound.pop {path : List Mark} {s : Session} {mark : Mark}
    (h : g.Sound t met (mark :: path) s) (hnew : g.nameOf? mark = none) : g.Sound t met path s := by
  refine ⟨h.table, h.again, h.named, h.distinct, h.cycles, fun {other v} hv => ?_⟩
  refine (h.finished hv).imp_left fun hmem => ?_
  rcases List.mem_cons.mp hmem with rfl | hmem
  · rw [hnew] at hv
    cases hv
  · exact hmem

theorem Sound.close {path : List Mark} {s : Session} {mark : Mark} {v : Var} {body : Bundle}
    (h : g.Sound t met (mark :: path) s) (hname : g.nameOf? mark = some v)
    (hbody : GrownFor t met g.nameOf? mark body) :
    Sound t met path { g with cycles := g.cycles.insert v body } s := by
  refine ⟨h.table, h.again, h.named, h.distinct, fun {w b} hw => ?_, fun {other w} hw => ?_⟩
  · rw [VarMap.find?_insert] at hw
    split_ifs at hw with hid
    · exact hid ▸ (h.named hname).1
    · exact h.cycles hw
  · rw [VarMap.find?_insert]
    by_cases hid : w.id = v.id
    · -- No other mark has this variable.
      rw [if_pos hid, h.distinct hw hname hid]
      exact .inr ⟨body, rfl, hbody⟩
    · rw [if_neg hid]
      refine (h.finished hw).imp_left fun hmem => ?_
      rcases List.mem_cons.mp hmem with rfl | hmem
      · have hvw : v = w := Option.some.inj (hname.symm.trans hw)
        exact absurd (congrArg Var.id hvw.symm) hid
      · exact hmem

end Growth

theorem cycleVar_yields {fuel : Nat} {path : List Mark} {mark : Mark} (hmem : mark ∈ path)
    (hagain : MetAgain t met mark) (g : Growth) (s : Session) :
    Yields fuel (Growth.Sound t met path) g s (fun _ => cycleVar mark)
      fun v g' => g'.nameOf? mark = some v := by
  intro hs
  cases hname : g.nameOf? mark with
  | some v =>
    refine ⟨v, g, s, fun _ _ => ?_, fun _ _ h => h, hs, hname⟩
    rw [cycleVar, Session.perform_copy_bind_of_ok (Session.perform_copy_get s g), hname]
    rfl
  | none =>
    refine ⟨s.table.nextVar 0, g.withName mark (s.table.nextVar 0), _, fun _ _ => ?_,
      Growth.namesStay_withName hname _,
      hs.withName hmem hagain hname (.cycleFound mark.1 (s.table.nextVar 0) :: s.log), ?_⟩
    · rw [cycleVar, Session.perform_copy_bind_of_ok (Session.perform_copy_get s g), hname]
      rfl
    · show Growth.nameOf? _ mark = _
      rw [Growth.nameOf?_withName, if_pos rfl]

def growLayer (below : Polarity → Bundle → GrowM Bundle) (p : Polarity) (l : Layer Bundle) :
    GrowM (Layer Bundle) := do
  let tuple ← l.tuple.mapM fun elems => elems.mapM (below p)
  let record ← l.record.mapM fun fields => fields.mapM fun f => return (f.1, ← below p f.2)
  let func ← l.func.mapM fun f => return (← below p.flip f.1, ← below p f.2)
  return { l with tuple, record, func }

def settle (mark : Mark) (grown : Bundle) : GrowM Bundle := do
  match (← get).nameOf? mark with
  | some v =>
    modify fun g => { g with cycles := g.cycles.insert v grown }
    return .ofVar v
  | none => return grown

section Equations

variable {path : List Mark} {p : Polarity} {b : Bundle}

theorem grow_of_isEmpty (hb : b.isEmpty = true) (fuel : Nat) :
    grow (fuel + 1) path p b = pure b := by
  rw [grow, if_pos hb]

theorem grow_of_mem (hb : b.isEmpty = false) (hmem : (b.key, p) ∈ path) (fuel : Nat) :
    grow (fuel + 1) path p b = cycleVar (b.key, p) >>= fun v => pure (.ofVar v) := by
  have hpath : path.contains (b.key, p) = true := by simpa using hmem
  rw [grow]
  simp only [hb, hpath, Bool.false_eq_true, if_false, if_true]

theorem grow_of_notMem (hb : b.isEmpty = false) (hnew : (b.key, p) ∉ path) (fuel : Nat) :
    grow (fuel + 1) path p b = (do
      let t ← SessionM.table
      let l ← growLayer (grow fuel ((b.key, p) :: path)) p (b.absorb t p).layer
      settle (b.key, p) (.node l)) := by
  have hpath : path.contains (b.key, p) = false := by simpa using hnew
  rw [grow]
  simp only [hb, hpath, growLayer, settle, bind_assoc, pure_bind]
  rfl

end Equations

theorem growLayer_yields {fuel depth : Nat} {inv : Growth → Session → Prop} {p : Polarity}
    {l : Layer Bundle} {below : Nat → Polarity → Bundle → GrowM Bundle}
    (h : ∀ q b, l.Child p q b → ∀ g s,
      Yields fuel inv g s (fun k => below k q b) fun b' g' => Stands t g'.nameOf? depth q b b')
    (g : Growth) (s : Session) :
    Yields fuel inv g s (fun k => growLayer (below k) p l)
      fun l' g' => l.Rel (Stands t g'.nameOf? depth) p l' := by
  have htuple : ∀ g s, Yields fuel inv g s
      (fun k => l.tuple.mapM fun elems => elems.mapM (below k p))
      fun o g => Option.Rel (List.Forall₂ (Stands t g.nameOf? depth p)) l.tuple o := by
    refine Yields.optionMapM fun elems helems => ?_
    exact Yields.mapM (fun hg hb => hb.mono hg) fun b hb => h p b (.elem helems hb)
  have hrecord : ∀ g s, Yields fuel inv g s
      (fun k => l.record.mapM fun fields => fields.mapM fun f => return (f.1, ← below k p f.2))
      fun o g => Option.Rel (List.Forall₂ fun f f' => f.1 = f'.1 ∧
        Stands t g.nameOf? depth p f.2 f'.2) l.record o := by
    refine Yields.optionMapM fun fields hfields => ?_
    refine Yields.mapM (fun hg hf => hf.imp_right fun hb => hb.mono hg) fun f hf g s => ?_
    refine (h p f.2 (.field hfields hf) g s).bind fun b' g₁ s₁ _ hb => ?_
    exact .pure fun _ => ⟨rfl, hb⟩
  have hfunc : ∀ g s, Yields fuel inv g s
      (fun k => l.func.mapM fun f => return (← below k p.flip f.1, ← below k p f.2))
      fun o g => Option.Rel (fun f f' => Stands t g.nameOf? depth p.flip f.1 f'.1 ∧
        Stands t g.nameOf? depth p f.2 f'.2) l.func o := by
    refine Yields.optionMapM fun f hf g s => ?_
    refine (h p.flip f.1 (.param hf) g s).bind fun param g₁ s₁ _ hparam => ?_
    refine (h p f.2 (.result hf) g₁ s₁).bind fun result g₂ s₂ hg₂ hresult => ?_
    exact .pure fun _ => ⟨hparam.mono hg₂, hresult⟩
  refine (htuple g s).bind fun tuple g₁ s₁ _ ht => ?_
  refine (hrecord g₁ s₁).bind fun record g₂ s₂ hg₂ hr => ?_
  refine (hfunc g₂ s₂).bind fun func g₃ s₃ hg₃ hf => .pure fun _ => ?_
  refine ⟨rfl, rfl, rfl, ?_, ?_, hf⟩
  · exact optionRel_imp ht fun _ _ hl => hl.imp fun _ _ hb => hb.mono (hg₂.trans hg₃)
  · exact optionRel_imp hr fun _ _ hl => hl.imp fun _ _ hb => hb.imp_right fun hb => hb.mono hg₃

theorem stands_of_isEmpty {name : Mark → Option Var} {b : Bundle} (hb : b.isEmpty = true)
    (p : Polarity) (depth : Nat) : Stands t name (depth + 1) p b b := by
  rcases b with ⟨vars, bases, tuple, record, func, top⟩
  simp only [Bundle.isEmpty, Bundle.layer, Layer.isEmpty, Bool.and_eq_true, VarSet.isEmpty,
    List.isEmpty_iff, Option.isNone_iff_eq_none] at hb
  obtain ⟨⟨⟨⟨⟨hvars, -⟩, rfl⟩, rfl⟩, rfl⟩, -⟩ := hb
  have habsorb : (Bundle.node ⟨vars, bases, none, none, none, top⟩).absorb t p =
      .node ⟨vars, bases, none, none, none, top⟩ := by
    simp only [Bundle.absorb, Bundle.layer, hvars, List.flatMap_nil, List.foldl_nil]
  rw [Stands, habsorb]
  exact .inr ⟨rfl, rfl, rfl, .none, .none, .none⟩

theorem settle_performs {path : List Mark} {s : Session} {p : Polarity} {b : Bundle}
    {l : Layer Bundle} {depth : Nat} (hs : g.Sound t met ((b.key, p) :: path) s) (hb : met p b)
    (hl : (b.absorb t p).layer.Rel (Stands t g.nameOf? depth) p l) :
    ∃ b' g', s.perform ((settle (b.key, p) (.node l)).run g) = (.ok (b', g'), s) ∧
      g.NamesStay g' ∧ g'.Sound t met path s ∧ Stands t g'.nameOf? (depth + 1) p b b' := by
  have hget := Session.perform_copy_get s g
  cases hname : g.nameOf? (b.key, p) with
  | some v =>
    have hgrown : GrownFor t met g.nameOf? (b.key, p) (.node l) := ⟨p, b, depth, rfl, hb, hl⟩
    refine ⟨.ofVar v, { g with cycles := g.cycles.insert v (.node l) }, ?_, fun _ _ h => h,
      hs.close hname hgrown, .inl ⟨v, hname, rfl⟩⟩
    rw [settle, Session.perform_copy_bind_of_ok hget, hname]
    rfl
  | none =>
    refine ⟨.node l, g, ?_, fun _ _ h => h, hs.pop hname, .inr hl⟩
    rw [settle, Session.perform_copy_bind_of_ok hget, hname]
    rfl

def unmet (marks : Finset Mark) (path : List Mark) : Finset Mark := marks.filter (· ∉ path)

theorem card_unmet_lt {marks : Finset Mark} {path : List Mark} {mark : Mark} (hmark : mark ∈ marks)
    (hnew : mark ∉ path) : (unmet marks (mark :: path)).card < (unmet marks path).card := by
  apply Finset.card_lt_card
  refine ⟨fun m hm => ?_, fun hsub => ?_⟩
  · have hm := Finset.mem_filter.mp hm
    exact Finset.mem_filter.mpr ⟨hm.1, fun hpath => hm.2 (List.mem_cons_of_mem mark hpath)⟩
  · have hmem := Finset.mem_filter.mp (hsub (Finset.mem_filter.mpr ⟨hmark, hnew⟩))
    exact hmem.2 List.mem_cons_self

/-- With more fuel than there are marks left, a bundle grows to what stands for it. -/
theorem grow_yields {marks : Finset Mark} (hmarks : ∀ p b, met p b → (b.key, p) ∈ marks)
    (hdown : ∀ p b q c, met p b → (b.absorb t p).layer.Child p q c → met q c) (fuel : Nat)
    {path : List Mark} (hfuel : (unmet marks path).card < fuel) {p : Polarity} {b : Bundle}
    (hb : met p b)
    (hpath : ∀ mark ∈ path, ∃ q c, mark = (c.key, q) ∧ met q c ∧ t.MeetsBelow q c p b)
    (g : Growth) (s : Session) :
    Yields fuel (Growth.Sound t met path) g s (fun k => grow k path p b)
      fun b' g' => Stands t g'.nameOf? fuel p b b' := by
  -- Each bundle that is opened puts a new mark on the path, so the marks left bound the depth.
  induction fuel generalizing path p b g s with
  | zero => exact absurd hfuel (Nat.not_lt_zero _)
  | succ fuel ih =>
    by_cases hempty : b.isEmpty = true
    · refine Yields.of_succ ?_ (grow_of_isEmpty hempty)
      exact .pure fun _ => stands_of_isEmpty hempty p fuel
    rw [Bool.not_eq_true] at hempty
    by_cases hmem : (b.key, p) ∈ path
    · obtain ⟨q, c, hmark, hc, hbelow⟩ := hpath _ hmem
      obtain ⟨hkey, rfl⟩ := Prod.mk.inj hmark
      have hagain : MetAgain t met (b.key, p) := ⟨p, c, b, hmark, hkey, hc, hbelow⟩
      refine Yields.of_succ ?_ (grow_of_mem hempty hmem)
      refine (cycleVar_yields hmem hagain g s).bind fun v g₁ s₁ _ hv => .pure fun _ => ?_
      exact .inl ⟨v, hv, rfl⟩
    · refine Yields.of_succ ?_ (grow_of_notMem hempty hmem)
      have hlt := card_unmet_lt (hmarks p b hb) hmem
      have hleft : (unmet marks ((b.key, p) :: path)).card < fuel := by omega
      have hpath' : ∀ q c, (b.absorb t p).layer.Child p q c → ∀ mark ∈ (b.key, p) :: path,
          ∃ r d, mark = (d.key, r) ∧ met r d ∧ t.MeetsBelow r d q c := by
        intro q c hc mark hmark
        rcases List.mem_cons.mp hmark with rfl | hmark
        · exact ⟨p, b, rfl, hb, q, c, hc, .start⟩
        · obtain ⟨r, d, heq, hd, hbelow⟩ := hpath mark hmark
          exact ⟨r, d, heq, hd, hbelow.down hc⟩
      have hbelow := growLayer_yields fun q c hc =>
        ih hleft (hdown p b q c hb hc) (hpath' q c hc)
      intro hs
      obtain ⟨l, g₁, s₁, hrun, hstay, hs₁, hl⟩ := hbelow g s (hs.push _)
      obtain ⟨b', g₂, hsettle, hstay', hs₂, hb'⟩ := settle_performs hs₁ hb hl
      refine ⟨b', g₂, s₁, fun more hmore => ?_, hstay.trans hstay', hs₂, hb'⟩
      -- The table may have grown since the start, but by variables without bounds.
      have htable := Session.perform_copy_lift s g SessionM.table
      have habsorb : b.absorb (SessionM.table.run s).1 p = b.absorb t p :=
        Bundle.absorb_eq_of_addsVars hs.table p b
      rw [Session.perform_copy_bind_of_ok htable, habsorb]
      exact (Session.perform_copy_bind_of_ok (hrun more hmore)).trans hsettle

theorem grow_settles (s : Session) (ty : Ty) :
    ∃ (root : Bundle) (growth : Growth) (s' : Session) (depth : Nat),
      s.Settles (fun fuel => (grow fuel [] .positive (.ofTy s.table .positive ty)).run ⟨[], .empty⟩)
        (.ok (root, growth)) s' ∧
      growth.Sound s.table (s.table.Meets .positive (.ofTy s.table .positive ty)) [] s' ∧
      Stands s.table growth.nameOf? depth .positive (.ofTy s.table .positive ty) root := by
  have hfinite := s.table.finite_meets .positive ty
  let marks : Finset Mark := hfinite.toFinset.image Bundle.key ×ˢ {.positive, .negative}
  have hmarks : ∀ p b, s.table.Meets .positive (.ofTy s.table .positive ty) p b →
      (b.key, p) ∈ marks := by
    intro p b hb
    have hkey : b.key ∈ hfinite.toFinset.image Bundle.key :=
      Finset.mem_image_of_mem _ (hfinite.mem_toFinset.mpr ⟨p, hb⟩)
    exact Finset.mem_product.mpr ⟨hkey, by cases p <;> simp⟩
  have hfuel : (unmet marks []).card < (unmet marks []).card + 1 := Nat.lt_succ_self _
  have hgrow := grow_yields hmarks (fun p b q c hb hc => hb.down hc) _ hfuel .start nofun
    ⟨[], .empty⟩ s
  have hstart : Growth.Sound s.table (s.table.Meets .positive (.ofTy s.table .positive ty)) []
      ⟨[], .empty⟩ s := ⟨.refl _, nofun, nofun, nofun, nofun, nofun⟩
  obtain ⟨root, growth, s', hrun, -, hs', hroot⟩ := hgrow hstart
  exact ⟨root, growth, s', _, ⟨nofun, (unmet marks []).card + 1, hrun⟩, hs', hroot⟩

theorem ofTy_settles_of_grow {s s' : Session} {ty : Ty} {root : Bundle} {growth : Growth}
    (h : s.Settles (fun fuel => (grow fuel [] .positive (.ofTy s.table .positive ty)).run ⟨[], .empty⟩)
      (.ok (root, growth)) s') :
    s.Settles (fun fuel => ofTy fuel ty) (.ok ⟨root, growth.cycles⟩) s' := by
  have htable : s.Settles (fun _ => liftM SessionM.table) (.ok s.table) s :=
    .of_forall fun _ => Session.perform_lift s SessionM.table
  exact htable.bind (h.bind (.of_forall fun _ => rfl))

theorem ofTy_settles (s : Session) (ty : Ty) :
    ∃ (root : Bundle) (growth : Growth) (s' : Session) (depth : Nat),
      s.Settles (fun fuel => ofTy fuel ty) (.ok ⟨root, growth.cycles⟩) s' ∧
      growth.Sound s.table (s.table.Meets .positive (.ofTy s.table .positive ty)) [] s' ∧
      Stands s.table growth.nameOf? depth .positive (.ofTy s.table .positive ty) root := by
  obtain ⟨root, growth, s', depth, hsettles, hrest⟩ := grow_settles s ty
  exact ⟨root, growth, s', depth, ofTy_settles_of_grow hsettles, hrest⟩

end BundleGraph
end Biunify
