import Biunify.Proofs.BundleGraph.Growth
import Biunify.Proofs.Renumbering.Basic

/-! The graph of a type from two sessions that differ in variables which nothing speaks of. The
one session goes where the other goes; each new variable is the next one of its session. So the
graphs are the same but for the ids of the variables that cut cycles. -/

namespace Biunify

/-- Two sessions whose tables are one table and some more variables, with corresponding ids for
what they create next. -/
structure Session.Shifted (t : BoundTable) (ρ : Nat ↪o Nat) (s s' : Session) : Prop where
  left : t.AddsVars s.table
  right : t.AddsVars s'.table
  fresh : ∀ k, ρ (s.table.size + k) = s'.table.size + k

namespace Session

theorem Shifted.addVar {t : BoundTable} {ρ : Nat ↪o Nat} {s s' : Session}
    (h : Shifted t ρ s s') (level : Nat) {node node' : Nat} {log log' : List Event} :
    Shifted t ρ ⟨s.table.addVar level, node, log⟩ ⟨s'.table.addVar level, node', log'⟩ := by
  refine ⟨h.left.trans (.addVar _ level), h.right.trans (.addVar _ level), fun k => ?_⟩
  have hsize : ∀ t : BoundTable, (t.addVar level).size = t.size + 1 :=
    fun t => Array.size_push ..
  rw [hsize, hsize, Nat.add_assoc, Nat.add_assoc]
  exact h.fresh (1 + k)

theorem exists_shifted {s s' : Session} (h : s.table.AddsVars s'.table) :
    ∃ ρ : Nat ↪o Nat, (∀ k, k < s.table.size → ρ k = k) ∧ Shifted s.table ρ s s' := by
  obtain ⟨room, hroom⟩ := Nat.exists_eq_add_of_le h.size_le
  have hmono : StrictMono fun k => if k < s.table.size then k else k + room := by
    intro j k hjk
    simp only
    split_ifs <;> omega
  refine ⟨.ofStrictMono _ hmono, fun k hk => if_pos hk, .refl _, h, fun k => ?_⟩
  rw [hroom, Nat.add_right_comm]
  exact if_neg (Nat.not_lt.mpr (Nat.le_add_right _ k))

end Session

namespace BundleGraph

open Session (Shifted)

def Growth.renumber (ρ : Nat ↪o Nat) (g : Growth) : Growth :=
  ⟨g.named.map fun entry => (entry.1, entry.2.renumber ρ), g.cycles.renumber ρ (Bundle.renumber ρ)⟩

theorem Growth.nameOf?_renumber (ρ : Nat ↪o Nat) (g : Growth) (mark : Mark) :
    (g.renumber ρ).nameOf? mark = (g.nameOf? mark).map (Var.renumber ρ) := by
  rw [nameOf?, nameOf?, renumber, List.find?_map, Option.map_map, Option.map_map]
  rfl

def Follows (t : BoundTable) (ρ : Nat ↪o Nat) {α : Type} (f : α → α) (x x' : GrowM α) : Prop :=
  ∀ g s s', Shifted t ρ s s' → ∀ a g₁ s₁, s.perform (x.run g) = (.ok (a, g₁), s₁) →
    ∃ s₁', s'.perform (x'.run (g.renumber ρ)) = (.ok (f a, g₁.renumber ρ), s₁') ∧
      Shifted t ρ s₁ s₁'

variable {t : BoundTable} {ρ : Nat ↪o Nat}

namespace Follows

variable {α β : Type} {f : α → α}

theorem pure (f : α → α) (a : α) : Follows t ρ f (Pure.pure a) (Pure.pure (f a)) := by
  intro g s s' hs a' g₁ s₁ hrun
  cases hrun
  exact ⟨s', rfl, hs⟩

theorem bind {x x' : GrowM α} {k k' : α → GrowM β} {f' : β → β} (hx : Follows t ρ f x x')
    (hk : ∀ a, Follows t ρ f' (k a) (k' (f a))) : Follows t ρ f' (x >>= k) (x' >>= k') := by
  intro g s s' hs b g₂ s₂ hrun
  rw [StateT.run_bind, Session.perform_bind] at hrun
  rcases hfirst : s.perform (x.run g) with ⟨r, s₁⟩
  rw [hfirst] at hrun
  cases r with
  | error e => cases hrun
  | ok r =>
    obtain ⟨s₁', hrun', hs₁⟩ := hx g s s' hs r.1 r.2 s₁ hfirst
    obtain ⟨s₂', hrest, hs₂⟩ := hk r.1 r.2 s₁ s₁' hs₁ b g₂ s₂ hrun
    exact ⟨s₂', (Session.perform_copy_bind_of_ok hrun').trans hrest, hs₂⟩

theorem mapM {as : List α} {x : α → GrowM β} {f : β → β}
    (h : ∀ a ∈ as, Follows t ρ f (x a) (x a)) :
    Follows t ρ (List.map f) (as.mapM x) (as.mapM x) := by
  induction as with
  | nil => exact pure (List.map f) []
  | cons a as ih =>
    simp only [List.mapM_cons]
    refine (h a List.mem_cons_self).bind fun b => ?_
    refine (ih fun c hc => h c (List.mem_cons_of_mem a hc)).bind fun bs => ?_
    exact pure (List.map f) (b :: bs)

theorem optionMapM {o : Option α} {x : α → GrowM β} {f : β → β}
    (h : ∀ a, o = some a → Follows t ρ f (x a) (x a)) :
    Follows t ρ (Option.map f) (o.mapM x) (o.mapM x) := by
  cases o with
  | none => exact pure (Option.map f) none
  | some a =>
    simp only [Option.mapM_some, map_eq_pure_bind]
    exact (h a rfl).bind fun b => pure (Option.map f) (some b)

end Follows

theorem cycleVar_follows (mark : Mark) :
    Follows t ρ (Var.renumber ρ) (cycleVar mark) (cycleVar mark) := by
  intro g s s' hs v g₁ s₁ hrun
  have hget := Session.perform_copy_get s g
  have hget' := Session.perform_copy_get s' (g.renumber ρ)
  have hname' := g.nameOf?_renumber ρ mark
  rw [cycleVar, Session.perform_copy_bind_of_ok hget] at hrun
  rw [cycleVar, Session.perform_copy_bind_of_ok hget', hname']
  cases hname : g.nameOf? mark with
  | some w =>
    rw [hname] at hrun
    cases hrun
    exact ⟨s', rfl, hs⟩
  | none =>
    rw [hname] at hrun
    cases hrun
    have hvar : s'.table.nextVar 0 = (s.table.nextVar 0).renumber ρ := by
      rw [BoundTable.nextVar, BoundTable.nextVar, Var.renumber]
      exact congrArg (Var.mk · 0) (hs.fresh 0).symm
    have hgrowth : (g.withName mark (s.table.nextVar 0)).renumber ρ =
        (g.renumber ρ).withName mark (s'.table.nextVar 0) := by
      rw [hvar]
      rfl
    refine ⟨⟨s'.table.addVar 0, s'.nextNode, .cycleFound mark.1 (s'.table.nextVar 0) :: s'.log⟩,
      ?_, hs.addVar 0⟩
    show _ = (Except.ok (_, (g.withName mark (s.table.nextVar 0)).renumber ρ), _)
    rw [← hvar, hgrowth]
    rfl

theorem growLayer_follows {below : Polarity → Bundle → GrowM Bundle} {p : Polarity}
    {l : Layer Bundle} (hvars : l.vars.renumber ρ = l.vars)
    (h : ∀ q b, l.Child p q b → Follows t ρ (Bundle.renumber ρ) (below q b) (below q b)) :
    Follows t ρ (Layer.renumber ρ (Bundle.renumber ρ)) (growLayer below p l)
      (growLayer below p l) := by
  have htuple := Follows.optionMapM (o := l.tuple) fun elems ht =>
    Follows.mapM fun b hb => h p b (.elem ht hb)
  have hfield : ∀ f : String × Bundle, l.Child p p f.2 →
      Follows t ρ (fun f => (f.1, f.2.renumber ρ)) (do return (f.1, ← below p f.2))
        (do return (f.1, ← below p f.2)) := fun f hf =>
    (h p f.2 hf).bind fun b => .pure (fun f => (f.1, f.2.renumber ρ)) (f.1, b)
  have hrecord := Follows.optionMapM (o := l.record) fun fields hr =>
    Follows.mapM fun f hf => hfield f (.field hr hf)
  have hparts : ∀ f : Bundle × Bundle, l.func = some f →
      Follows t ρ (fun f => (f.1.renumber ρ, f.2.renumber ρ))
        (do return (← below p.flip f.1, ← below p f.2))
        (do return (← below p.flip f.1, ← below p f.2)) := fun f hf =>
    (h p.flip f.1 (.param hf)).bind fun param => (h p f.2 (.result hf)).bind fun result =>
      .pure (fun f => (f.1.renumber ρ, f.2.renumber ρ)) (param, result)
  have hfunc := Follows.optionMapM (o := l.func) hparts
  refine htuple.bind fun tuple => hrecord.bind fun record => hfunc.bind fun func => ?_
  have hlayer : ({ l with tuple, record, func } : Layer Bundle).renumber ρ (Bundle.renumber ρ) =
      { l with
        tuple := tuple.map (List.map (Bundle.renumber ρ))
        record := record.map (List.map fun f => (f.1, f.2.renumber ρ))
        func := func.map fun f => (f.1.renumber ρ, f.2.renumber ρ) } := by
    rw [Layer.renumber, hvars]
    rfl
  rw [← hlayer]
  exact .pure (Layer.renumber ρ (Bundle.renumber ρ)) { l with tuple, record, func }

theorem settle_follows (mark : Mark) (grown : Bundle) :
    Follows t ρ (Bundle.renumber ρ) (settle mark grown) (settle mark (grown.renumber ρ)) := by
  intro g s s' hs b g₁ s₁ hrun
  have hget := Session.perform_copy_get s g
  have hget' := Session.perform_copy_get s' (g.renumber ρ)
  have hname' := g.nameOf?_renumber ρ mark
  rw [settle, Session.perform_copy_bind_of_ok hget] at hrun
  rw [settle, Session.perform_copy_bind_of_ok hget', hname']
  cases hname : g.nameOf? mark with
  | some v =>
    rw [hname] at hrun
    cases hrun
    refine ⟨s', ?_, hs⟩
    have hcycles := VarMap.renumber_insert ρ (Bundle.renumber ρ) g.cycles v grown
    show _ = (Except.ok (_, Growth.mk _ ((g.cycles.insert v grown).renumber ρ _)), _)
    rw [Bundle.renumber_ofVar, hcycles]
    rfl
  | none =>
    rw [hname] at hrun
    cases hrun
    exact ⟨s', rfl, hs⟩

theorem renumber_of_isEmpty {b : Bundle} (hb : b.isEmpty = true) : b.renumber ρ = b := by
  rcases b with ⟨vars, bases, tuple, record, func, top⟩
  simp only [Bundle.isEmpty, Bundle.layer, Layer.isEmpty, Bool.and_eq_true, VarSet.isEmpty,
    List.isEmpty_iff, Option.isNone_iff_eq_none] at hb
  obtain ⟨⟨⟨⟨⟨hvars, -⟩, rfl⟩, rfl⟩, rfl⟩, -⟩ := hb
  have hfixed : vars.renumber ρ = vars := VarSet.eq_of_items_eq (by simp [VarSet.renumber, hvars])
  rw [Bundle.renumber_node, Layer.renumber, hfixed]
  rfl

theorem grow_follows {met : Polarity → Bundle → Prop}
    (hdown : ∀ p b q c, met p b → (b.absorb t p).layer.Child p q c → met q c)
    (hfixed : ∀ p b, met p b →
      (b.absorb t p).layer.vars.renumber ρ = (b.absorb t p).layer.vars)
    (fuel : Nat) {path : List Mark} {p : Polarity} {b : Bundle} (hb : met p b) :
    Follows t ρ (Bundle.renumber ρ) (grow fuel path p b) (grow fuel path p b) := by
  induction fuel generalizing path p b with
  | zero => exact fun g s s' _ a g₁ s₁ hrun => nomatch hrun
  | succ fuel ih =>
    by_cases hempty : b.isEmpty = true
    · rw [grow_of_isEmpty hempty]
      have hpure := Follows.pure (t := t) (ρ := ρ) (Bundle.renumber ρ) b
      rwa [renumber_of_isEmpty hempty] at hpure
    rw [Bool.not_eq_true] at hempty
    by_cases hmem : (b.key, p) ∈ path
    · rw [grow_of_mem hempty hmem]
      refine (cycleVar_follows (b.key, p)).bind fun v => ?_
      rw [← Bundle.renumber_ofVar]
      exact .pure (Bundle.renumber ρ) (.ofVar v)
    · rw [grow_of_notMem hempty hmem]
      have hbelow : Follows t ρ (Layer.renumber ρ (Bundle.renumber ρ))
          (growLayer (grow fuel ((b.key, p) :: path)) p (b.absorb t p).layer)
          (growLayer (grow fuel ((b.key, p) :: path)) p (b.absorb t p).layer) :=
        growLayer_follows (hfixed p b hb) fun q c hc => ih (hdown p b q c hb hc)
      have hsettle : ∀ l, Follows t ρ (Bundle.renumber ρ) (settle (b.key, p) (.node l))
          (settle (b.key, p) (.node (l.renumber ρ (Bundle.renumber ρ)))) := fun l =>
        Bundle.renumber_node ρ l ▸ settle_follows (b.key, p) (.node l)
      intro g s s' hs a g₁ s₁ hrun
      -- Both tables have the bounds of the common one.
      have habsorb := Bundle.absorb_eq_of_addsVars hs.left p b
      have habsorb' := Bundle.absorb_eq_of_addsVars hs.right p b
      have htable : ∀ (s : Session) (g : Growth), s.perform
          ((liftM SessionM.table : GrowM BoundTable).run g) = (.ok (s.table, g), s) :=
        fun _ _ => rfl
      rw [Session.perform_copy_bind_of_ok (htable s g), habsorb] at hrun
      rw [Session.perform_copy_bind_of_ok (htable s' _), habsorb']
      exact hbelow.bind hsettle g s s' hs a g₁ s₁ hrun

theorem renumber_vars_eq {size : Nat} (hρ : ∀ k, k < size → ρ k = k) {vars : VarSet}
    (h : ∀ v ∈ vars.items, v.id < size) : vars.renumber ρ = vars := by
  refine VarSet.eq_of_items_eq ((List.map_congr_left fun v hv => ?_).trans (List.map_id _))
  exact congrArg (Var.mk · v.level) (hρ v.id (h v hv))

theorem ofTy_shifted {s s' : Session} {ty : Ty} {names : List String → Prop}
    (hs : s.table.Scoped names) (hty : ty.Forall s.table.Owns names)
    (hρ : ∀ k, k < s.table.size → ρ k = k) (hshift : Shifted s.table ρ s s') {g : BundleGraph}
    {s₁ : Session} (hg : s.Settles (fun fuel => ofTy fuel ty) (.ok g) s₁) :
    ∃ s₁', s'.Settles (fun fuel => ofTy fuel ty) (.ok (g.renumber ρ)) s₁' ∧
      Shifted s.table ρ s₁ s₁' := by
  have hfollows : ∀ fuel, Follows s.table ρ (Bundle.renumber ρ)
      (grow fuel [] .positive (.ofTy s.table .positive ty))
      (grow fuel [] .positive (.ofTy s.table .positive ty)) := fun fuel =>
    grow_follows (fun p b q c hb hc => hb.down hc)
      (fun p b hb => renumber_vars_eq hρ (Bundle.lt_size_of_meets hs hty hb)) fuel .start
  obtain ⟨root', growth', s₁', -, ⟨hanswers', n', hrun'⟩, -⟩ := ofTy_settles s' ty
  obtain ⟨-, n, hrun⟩ := hg
  have hfirst := hrun (max n n') (Nat.le_max_left n n')
  have hsecond := hrun' (max n n') (Nat.le_max_right n n')
  have htable : ∀ s : Session, s.perform (liftM SessionM.table) = (.ok s.table, s) := fun _ => rfl
  have hofTy := Bundle.ofTy_eq_of_addsVars hshift.right .positive ty
  rw [ofTy, Session.perform_bind_of_ok (htable s), Session.perform_bind] at hfirst
  rw [ofTy, Session.perform_bind_of_ok (htable s'), hofTy] at hsecond
  rcases hgrow : s.perform ((grow (max n n') [] .positive (.ofTy s.table .positive ty)).run
    ⟨[], .empty⟩) with ⟨r, s₂⟩
  rw [hgrow] at hfirst
  cases r with
  | error e => cases hfirst
  | ok r =>
    cases hfirst
    obtain ⟨s₂', hgrow', hshift'⟩ := hfollows _ ⟨[], .empty⟩ s s' hshift r.1 r.2 _ hgrow
    have hsame : (Except.ok (BundleGraph.mk r.1 r.2.cycles |>.renumber ρ), s₂') =
        (Except.ok (ε := Stop) ⟨root', growth'.cycles⟩, s₁') :=
      (Session.perform_bind_of_ok hgrow').symm.trans hsecond
    obtain ⟨hgraph, rfl⟩ := Prod.mk.inj hsame
    rw [hgraph]
    exact ⟨s₂', ⟨hanswers', n', hrun'⟩, hshift'⟩

end BundleGraph
end Biunify
