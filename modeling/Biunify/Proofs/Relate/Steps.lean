import Biunify.Relate
import Biunify.Proofs.Copy.StandIns
import Biunify.Proofs.Expansion
import Mathlib.Data.List.Zip
import Mathlib.Logic.Relation

/-! The solver as a transition system. A state holds the constraints met, the goals left
and the table. A step drops a goal that is known, takes one apart, records a bound, or
replaces a bound that is too deep; a goal that allows none of this ends the run. Every
run of `relate` is a sequence of such steps, and what each step keeps a run keeps. -/

namespace Biunify

theorem Ty.isVar_eq_false {t : Ty} (h : ∀ v, t = .var v → False) : t.isVar = false := by
  cases t with
  | var v => exact (h v rfl).elim
  | _ => rfl

theorem Ty.var_or_isVar_eq_false (t : Ty) : (∃ v, t = .var v) ∨ t.isVar = false := by
  cases t with
  | var v => exact .inl ⟨v, rfl⟩
  | _ => exact .inr rfl

namespace Goal

inductive Parts : Ty → Ty → List Goal → Prop
  | base {a b : BaseTy} (h : a.below b = true) : Parts (.base a) (.base b) []
  | arrow (m n : Nat) (p q r s : Ty) :
    Parts (.arrow m p r) (.arrow n q s) [.relate q p, .relate r s]
  | tuple (m n : Nat) {ts us : List Ty} (h : ts.length = us.length) :
    Parts (.tuple m ts) (.tuple n us) (List.zipWith .relate ts us)
  | record (m n : Nat) (fs gs : List (String × Ty)) :
    Parts (.record m fs) (.record n gs) (gs.map (field (.record m fs) fs))

/-- What a goal leaves and what it does to the table. -/
inductive Split (t : BoundTable) : Goal → List Goal → BoundTable → Prop
  | parts {a b : Ty} {goals : List Goal} (h : Parts a b goals) : Split t (.relate a b) goals t
  | bound (p : Polarity) {b : Ty} {v : Var} (h : b.level ≤ v.level) :
    Split t (p.orient .relate b (.var v)) ((t.bounds p.flip v).map (p.orient .relate b))
      (t.addBound p v b)
  | lowered (p : Polarity) {b b' : Ty} {v : Var} {m : PolarMap Var} {t' : BoundTable}
    (hv : b.isVar = false) (hlt : v.level < b.level)
    (hs : Copy.StandIns v.level .empty t m t')
    (hi : Ty.Image (Copy.Replaced v.level m) p b b')
    (hr : ∀ q w c, t.Owns w → m.find? q w = some c → t.Reaches v.level b w) :
    Split t (p.orient .relate b (.var v)) [p.orient .relate b' (.var v)] t'

def mark (lhs rhs : Ty) : String × String := (lhs.key, rhs.key)

def Known (memo : Memo) (lhs rhs : Ty) : Prop :=
  lhs.same rhs = true ∨ (lhs.isVar = true ∨ rhs.isVar = true) ∧ mark lhs rhs ∈ memo

def note (memo : Memo) : Goal → Memo
  | .relate lhs rhs => remember lhs rhs memo
  | .lacking .. => memo

structure State where
  memo : Memo
  goals : List Goal
  table : BoundTable

inductive Step : State → State → Prop
  | known {memo : Memo} {a b : Ty} {rest : List Goal} {t : BoundTable} (h : Known memo a b) :
    Step ⟨memo, .relate a b :: rest, t⟩ ⟨memo, rest, t⟩
  | split {memo : Memo} {g : Goal} {goals rest : List Goal} {t t' : BoundTable}
    (hn : ∀ a b, g = .relate a b → ¬ Known memo a b) (h : Split t g goals t') :
    Step ⟨memo, g :: rest, t⟩ ⟨note memo g, goals ++ rest, t'⟩

abbrev Steps : State → State → Prop := Relation.ReflTransGen Step

def Refused : Goal → Prop
  | .relate a b => a.isVar = false ∧ b.isVar = false ∧ ∀ goals, ¬ Parts a b goals
  | .lacking .. => True

def Forall (P : Var → Prop) (Q : List String → Prop) : Goal → Prop
  | .relate a b => a.Forall P Q ∧ b.Forall P Q
  | .lacking .. => True

section Runs

variable {s : Session} {a b : Ty} {v : Var}

theorem reject_performs (s : Session) (a b : Ty) :
    ∃ e s', s.perform (reject a b) = (.error (.failed e), s') ∧ s.table.AddsVars s'.table := by
  obtain ⟨l, s₁, hl, ht₁⟩ := expandBounds_performs .positive a s
  obtain ⟨r, s₂, hr, ht₂⟩ := expandBounds_performs .positive b s₁
  refine ⟨.cannotConstrain l r, s₂, ?_, ht₁.trans ht₂⟩
  rw [reject, Session.perform_bind_of_ok hl, Session.perform_bind_of_ok hr]
  rfl

theorem boundAbove_performs (hv : s.table.Owns v) (b : Ty) :
    s.perform (boundAbove v b) = (.ok ((s.table.bounds .positive v).map (.relate · b)),
      { s with table := s.table.addBound .negative v b }) := by
  have h := BoundTable.bounds_addBound hv .positive .negative b v
  rw [if_neg (by simp)] at h
  rw [← h]
  rfl

theorem boundBelow_performs (hv : s.table.Owns v) (a : Ty) :
    s.perform (boundBelow a v) = (.ok ((s.table.bounds .negative v).map (.relate a)),
      { s with table := s.table.addBound .positive v a }) := by
  have h := BoundTable.bounds_addBound hv .negative .positive a v
  rw [if_neg (by simp)] at h
  rw [← h]
  rfl

def SplitsOrRefuses (s : Session) (a b : Ty) (x : CheckM (List Goal)) : Prop :=
  (∃ goals s', s.perform x = (.ok goals, s') ∧ Split s.table (.relate a b) goals s'.table) ∨
    ∃ e s', s.perform x = (.error (.failed e), s') ∧ Refused (.relate a b) ∧
      s.table.AddsVars s'.table

theorem reject_refuses (h : Refused (.relate a b)) : SplitsOrRefuses s a b (reject a b) := by
  obtain ⟨e, s', hr, ht⟩ := reject_performs s a b
  exact .inr ⟨e, s', hr, h, ht⟩

theorem parts_splits {goals : List Goal} (h : Parts a b goals) :
    SplitsOrRefuses s a b (pure goals) :=
  .inl ⟨goals, s, rfl, .parts h⟩

theorem boundAbove_splits (hv : s.table.Owns v) (h : b.level ≤ v.level) :
    SplitsOrRefuses s (.var v) b (boundAbove v b) :=
  .inl ⟨_, _, boundAbove_performs hv b, .bound .negative h⟩

theorem boundBelow_splits (hv : s.table.Owns v) (h : a.level ≤ v.level) :
    SplitsOrRefuses s a (.var v) (boundBelow a v) :=
  .inl ⟨_, _, boundBelow_performs hv a, .bound .positive h⟩

theorem above_splits (hs : s.table.Scoped fun _ => True) (hv : s.table.Owns v)
    (hb : b.Forall s.table.Owns fun _ => True) (hn : b.isVar = false) :
    SplitsOrRefuses s (.var v) b (if b.level ≤ v.level then boundAbove v b
      else do return [.relate (.var v) (← b.relevel .negative v.level)]) := by
  split
  case isTrue h => exact boundAbove_splits hv h
  case isFalse h =>
    obtain ⟨b', m, s', hrun, ht, hi, hr⟩ := Ty.relevel_performs hs hb .negative v.level
    exact .inl ⟨_, s', Session.perform_bind_of_ok hrun,
      .lowered .negative hn (Nat.lt_of_not_le h) ht hi hr⟩

theorem below_splits (hs : s.table.Scoped fun _ => True) (hv : s.table.Owns v)
    (ha : a.Forall s.table.Owns fun _ => True) (hn : a.isVar = false) :
    SplitsOrRefuses s a (.var v) (if a.level ≤ v.level then boundBelow a v
      else do return [.relate (← a.relevel .positive v.level) (.var v)]) := by
  split
  case isTrue h => exact boundBelow_splits hv h
  case isFalse h =>
    obtain ⟨a', m, s', hrun, ht, hi, hr⟩ := Ty.relevel_performs hs ha .positive v.level
    exact .inl ⟨_, s', Session.perform_bind_of_ok hrun,
      .lowered .positive hn (Nat.lt_of_not_le h) ht hi hr⟩

theorem split_splits (hs : s.table.Scoped fun _ => True)
    (ha : a.Forall s.table.Owns fun _ => True) (hb : b.Forall s.table.Owns fun _ => True) :
    SplitsOrRefuses s a b (split a b) := by
  unfold Goal.split
  split
  case h_1 a b =>
    split
    case isTrue h => exact parts_splits (.base h)
    case isFalse h => exact reject_refuses ⟨rfl, rfl, fun _ hp => by cases hp; contradiction⟩
  case h_2 => exact parts_splits (.arrow ..)
  case h_3 => exact parts_splits (.record ..)
  case h_4 =>
    split
    case isTrue h => exact parts_splits (.tuple _ _ h)
    case isFalse h => exact reject_refuses ⟨rfl, rfl, fun _ hp => by cases hp; contradiction⟩
  case h_5 v w =>
    split
    case isTrue h => exact boundAbove_splits ha h
    case isFalse h => exact boundBelow_splits hb (Nat.le_of_not_le h)
  case h_6 hn => exact above_splits hs ha hb (Ty.isVar_eq_false hn)
  case h_7 hn => exact below_splits hs hb ha (Ty.isVar_eq_false hn)
  case h_8 hv hw hbase harrow hrecord htuple _ =>
    refine reject_refuses ⟨Ty.isVar_eq_false hv, Ty.isVar_eq_false hw, fun goals hp => ?_⟩
    cases hp with
    | base => exact hbase _ _ rfl rfl
    | arrow => exact harrow _ _ _ _ _ _ rfl rfl
    | tuple => exact htuple _ _ _ _ rfl rfl
    | record => exact hrecord _ _ _ _ rfl rfl

theorem known_iff (memo : Memo) (a b : Ty) :
    Known memo a b ↔ (a.same b || remembered a b memo) = true := by
  simp [Known, remembered, mark]

theorem lacking_step_performs (memo : Memo) (name : String) (record : Ty) (s : Session) :
    ∃ e s', s.perform (step memo (.lacking name record)) = (.error (.failed e), s') ∧
      s.table.AddsVars s'.table := by
  obtain ⟨r, s', hr, ht⟩ := expandBounds_performs .positive record s
  refine ⟨.missingField name r, s', ?_, ht⟩
  rw [step, Session.perform_bind_of_ok hr]
  rfl

theorem step_performs (memo : Memo) {g : Goal} (hs : s.table.Scoped fun _ => True)
    (hg : g.Forall s.table.Owns fun _ => True) :
    (∃ goals memo' s', s.perform (g.step memo) = (.ok (goals, memo'), s') ∧
      ∀ rest, Step ⟨memo, g :: rest, s.table⟩ ⟨memo', goals ++ rest, s'.table⟩) ∨
    ∃ e s', s.perform (g.step memo) = (.error (.failed e), s') ∧ g.Refused ∧
      s.table.AddsVars s'.table := by
  cases g with
  | lacking name record =>
    obtain ⟨e, s', hr, ht⟩ := lacking_step_performs memo name record s
    exact .inr ⟨e, s', hr, trivial, ht⟩
  | relate a b =>
    rw [step]
    split
    case isTrue h =>
      exact .inl ⟨[], memo, s, rfl, fun rest => .known ((known_iff memo a b).mpr h)⟩
    case isFalse h =>
      have hn : ∀ x y, relate a b = relate x y → ¬ Known memo x y := by
        intro x y heq hk
        cases heq
        exact h ((known_iff memo a b).mp hk)
      let s₁ : Session := { s with log := .constrained a b :: s.log }
      have hemit : s.perform (liftM (SessionM.emit (.constrained a b))) = (.ok (), s₁) := rfl
      rw [Session.perform_bind_of_ok hemit]
      have hs₁ : s₁.table.Scoped fun _ => True := hs
      rcases split_splits hs₁ hg.1 hg.2 with ⟨goals, s', hr, hsplit⟩ | ⟨e, s', hr, href, ht⟩
      · exact .inl ⟨goals, remember a b memo, s', Session.perform_bind_of_ok hr,
          fun rest => .split hn hsplit⟩
      · exact .inr ⟨e, s', Session.perform_bind_of_error hr, href, ht⟩

end Runs

section Keeps

variable {P P' : Var → Prop} {names : List String → Prop} {t t' : BoundTable} {g : Goal}
  {goals : List Goal}

theorem Forall.imp (h : g.Forall P names) (hp : ∀ v, P v → P' v) : g.Forall P' names := by
  cases g with
  | relate a b => exact ⟨h.1.imp hp fun _ => id, h.2.imp hp fun _ => id⟩
  | lacking => trivial

theorem Forall.imp_names {names' : List String → Prop} (h : g.Forall P names)
    (hn : ∀ ns, names ns → names' ns) : g.Forall P names' := by
  cases g with
  | relate a b => exact ⟨h.1.imp (fun _ => id) hn, h.2.imp (fun _ => id) hn⟩
  | lacking => trivial

theorem forall_orient (p : Polarity) (b x : Ty) :
    (p.orient relate b x).Forall P names ↔ b.Forall P names ∧ x.Forall P names := by
  cases p with
  | positive => exact Iff.rfl
  | negative => exact And.comm

theorem mem_of_fieldNamed? {name : String} {fs : List (String × Ty)} {ty : Ty}
    (h : Ty.fieldNamed? name fs = some ty) : (name, ty) ∈ fs := by
  obtain ⟨f, hf, rfl⟩ := Option.map_eq_some_iff.mp h
  have hname : f.1 = name := by simpa using List.find?_some hf
  exact hname ▸ List.mem_of_find?_eq_some hf

theorem forall_zipWith_relate {S : Goal → Prop} {ts us : List Ty} (h : ts.length = us.length) :
    (∀ g ∈ List.zipWith relate ts us, S g) ↔ List.Forall₂ (fun t u => S (.relate t u)) ts us := by
  rw [← List.forall_iff_forall_mem, List.forall_zipWith h]

theorem Parts.forall {a b : Ty} (h : Parts a b goals) (ha : a.Forall P names)
    (hb : b.Forall P names) : ∀ g ∈ goals, g.Forall P names := by
  cases h with
  | base => exact List.forall_mem_nil _
  | arrow m n p q r s =>
    rw [List.forall_mem_cons, List.forall_mem_singleton]
    exact ⟨⟨hb.1, ha.1⟩, ha.2, hb.2⟩
  | tuple m n hlen =>
    rw [Ty.forall_tuple] at ha hb
    rw [forall_zipWith_relate hlen, List.forall₂_iff_zip]
    exact ⟨hlen, fun h => ⟨ha _ (List.of_mem_zip h).1, hb _ (List.of_mem_zip h).2⟩⟩
  | record m n fs gs =>
    rw [Ty.forall_record] at ha hb
    rw [List.forall_mem_map]
    intro f hf
    rw [field]
    split
    case h_1 ty hty => exact ⟨ha.2 _ (mem_of_fieldNamed? hty), hb.2 f hf⟩
    case h_2 => trivial

theorem Split.toExtends (h : Split t g goals t') (hg : g.Forall t.Owns names) :
    t.Extends t' := by
  cases h with
  | parts => exact .refl t
  | bound p => exact .addBound ((forall_orient ..).mp hg).2 p _
  | lowered p hv hlt hs hi => exact hs.toExtends

theorem Split.inScope (h : Split t g goals t') (ht : t.Scoped names)
    (hg : g.Forall t.Owns names) :
    t'.Scoped names ∧ ∀ g' ∈ goals, g'.Forall t'.Owns names := by
  cases h with
  | parts h => exact ⟨ht, h.forall hg.1 hg.2⟩
  | @bound p b v _ =>
    obtain ⟨hb, hv⟩ := (forall_orient ..).mp hg
    refine ⟨ht.addBound hv hb p, fun g' hg' => ?_⟩
    obtain ⟨x, hx, rfl⟩ := List.mem_map.mp hg'
    refine ((forall_orient ..).mpr ⟨hb, ht _ _ x hx⟩).imp fun w => ?_
    exact (BoundTable.owns_addBound t p v b w).mpr
  | lowered p hn hlt hs hi =>
    obtain ⟨hb, hv⟩ := (forall_orient ..).mp hg
    refine ⟨hs.inScope (fun hc => by simp at hc) ht, fun g' hg' => ?_⟩
    rw [List.mem_singleton.mp hg', forall_orient]
    exact ⟨hs.copy_forall hi hb, hs.owns hv⟩

theorem Split.leveled (h : Split t g goals t') (ht : t.Leveled) (hg : g.Forall t.Owns names) :
    t'.Leveled := by
  cases h with
  | parts => exact ht
  | bound p hle => exact ht.addBound ((forall_orient ..).mp hg).2 hle p
  | lowered p hn hlt hs hi => exact hs.leveled (fun hc => by simp at hc) ht

end Keeps

structure State.Scoped (names : List String → Prop) (st : State) : Prop where
  table : st.table.Scoped names
  goals : ∀ g ∈ st.goals, g.Forall st.table.Owns names

section Runs

variable {names : List String → Prop} {st st' : State}

theorem Step.toExtends (h : Step st st') (hst : st.Scoped names) :
    st.table.Extends st'.table := by
  cases h with
  | known => exact .refl _
  | split hn h => exact h.toExtends (hst.goals _ List.mem_cons_self)

theorem Step.inScope (h : Step st st') (hst : st.Scoped names) : st'.Scoped names := by
  cases h with
  | known => exact ⟨hst.table, fun g hg => hst.goals g (List.mem_cons_of_mem _ hg)⟩
  | split hn h =>
    have hg := hst.goals _ List.mem_cons_self
    have hx := h.toExtends hg
    obtain ⟨ht, hgoals⟩ := h.inScope hst.table hg
    refine ⟨ht, fun g' hg' => ?_⟩
    rcases List.mem_append.mp hg' with hg' | hg'
    · exact hgoals g' hg'
    · exact (hst.goals g' (List.mem_cons_of_mem _ hg')).imp fun _ => hx.owns

theorem Step.leveled (h : Step st st') (hst : st.Scoped names) (ht : st.table.Leveled) :
    st'.table.Leveled := by
  cases h with
  | known => exact ht
  | split hn h => exact h.leveled ht (hst.goals _ List.mem_cons_self)

theorem Steps.inScope (h : Steps st st') (hst : st.Scoped names) : st'.Scoped names := by
  induction h with
  | refl => exact hst
  | tail _ hstep ih => exact hstep.inScope ih

theorem Steps.toExtends (h : Steps st st') (hst : st.Scoped names) :
    st.table.Extends st'.table := by
  induction h with
  | refl => exact .refl _
  | tail h hstep ih => exact ih.trans (hstep.toExtends (Steps.inScope h hst))

theorem Steps.leveled (h : Steps st st') (hst : st.Scoped names) (ht : st.table.Leveled) :
    st'.table.Leveled := by
  induction h with
  | refl => exact ht
  | tail h hstep ih => exact hstep.leveled (Steps.inScope h hst) ih

def Ends (st : State) : Except Stop Unit → BoundTable → Prop
  | .ok _, t => st.goals = [] ∧ t = st.table
  | .error .outOfFuel, t => st.table.AddsVars t
  | .error (.failed _), t => st.table.AddsVars t ∧ ∃ g ∈ st.goals, g.Refused

theorem Ends.addsVars {r : Except Stop Unit} {t : BoundTable} (h : Ends st r t) :
    st.table.AddsVars t := by
  match r with
  | .ok _ => exact h.2 ▸ .refl t
  | .error .outOfFuel => exact h
  | .error (.failed _) => exact h.1

theorem solve_runs (fuel : Nat) {memo : Memo} {goals : List Goal} {s s' : Session}
    {r : Except Stop Unit} (hst : State.Scoped (fun _ => True) ⟨memo, goals, s.table⟩)
    (h : s.perform (solve fuel memo goals) = (r, s')) :
    ∃ st, Steps ⟨memo, goals, s.table⟩ st ∧ Ends st r s'.table := by
  induction fuel generalizing memo goals s with
  | zero =>
    cases goals with
    | nil =>
      cases h
      exact ⟨_, .refl, rfl, rfl⟩
    | cons g rest =>
      cases h
      exact ⟨_, .refl, .refl _⟩
  | succ fuel ih =>
    cases goals with
    | nil =>
      cases h
      exact ⟨_, .refl, rfl, rfl⟩
    | cons g rest =>
      rw [solve] at h
      have hg := hst.goals g List.mem_cons_self
      rcases step_performs memo hst.table hg with
        ⟨goals, memo', s₁, hr, hstep⟩ | ⟨e, s₁, hr, href, ht⟩
      · rw [Session.perform_bind_of_ok hr] at h
        obtain ⟨st, hsteps, hends⟩ := ih ((hstep rest).inScope hst) h
        exact ⟨st, .head (hstep rest) hsteps, hends⟩
      · rw [Session.perform_bind_of_error hr] at h
        cases h
        exact ⟨_, .refl, ht, g, List.mem_cons_self, href⟩

end Runs
end Goal

def Goal.start (t : BoundTable) (lhs rhs : Ty) : Goal.State := ⟨[], [.relate lhs rhs], t⟩

theorem Goal.start_scoped {names : List String → Prop} {t : BoundTable} {lhs rhs : Ty}
    (ht : t.Scoped names) (hl : lhs.Forall t.Owns names) (hr : rhs.Forall t.Owns names) :
    (Goal.start t lhs rhs).Scoped names :=
  ⟨ht, List.forall_mem_singleton.mpr ⟨hl, hr⟩⟩

theorem relate_runs {names : List String → Prop} {s s' : Session} {fuel : Nat} {lhs rhs : Ty}
    {r : Except Stop Unit} (hst : (Goal.start s.table lhs rhs).Scoped names)
    (h : s.perform (relate fuel lhs rhs) = (r, s')) :
    ∃ st, Goal.Steps (Goal.start s.table lhs rhs) st ∧ Goal.Ends st r s'.table := by
  have hg := hst.goals _ List.mem_cons_self
  refine Goal.solve_runs fuel ⟨hst.table.imp fun _ _ => trivial, ?_⟩ h
  refine List.forall_mem_singleton.mpr ⟨?_, ?_⟩
  · exact hg.1.imp (fun _ => id) fun _ _ => trivial
  · exact hg.2.imp (fun _ => id) fun _ _ => trivial

end Biunify
