import Biunify.Proofs.Relate.Steps
import Biunify.Proofs.Ty.Key

/-! Why a constraint that was worked off holds: each goal of a finished run follows from
the bounds of the table that the run ends with. A remembered constraint is not worked off
again, so it has to follow from those bounds by the time it is remembered. It does, since
it is recorded as a bound in the same step or, where the bound is too deep, in the next. -/

namespace Biunify

def BoundTable.StandIn (t : BoundTable) (p : Polarity) (v c : Var) : Prop :=
  c = v ∨ .var c ∈ t.bounds p.flip v

theorem BoundTable.StandIn.owns {t : BoundTable} {names : List String → Prop} {p : Polarity}
    {v c : Var} (h : t.StandIn p v c) (ht : t.Scoped names) (hv : t.Owns v) : t.Owns c := by
  rcases h with rfl | h
  · exact hv
  · exact ht _ _ _ h

namespace Goal

/-- The goal follows from the bounds of the table. -/
inductive Derived (t : BoundTable) : Goal → Prop
  | alike {a b : Ty} (h : a.Alike b) : Derived t (.relate a b)
  | parts {a b : Ty} {goals : List Goal} (h : Parts a b goals) (hg : ∀ g ∈ goals, Derived t g) :
    Derived t (.relate a b)
  | bound (p : Polarity) {b c : Ty} {v : Var} (hb : b ∈ t.bounds p v) (h : c.Alike b) :
    Derived t (p.orient .relate c (.var v))
  | standIn (p : Polarity) {b b' : Ty} {v : Var} (hv : b.isVar = false)
    (hi : Ty.Image t.StandIn p b b') (h : Derived t (p.orient .relate b' (.var v))) :
    Derived t (p.orient .relate b (.var v))

section Finished

variable {names : List String → Prop} {t : BoundTable}

theorem alike_of_key_eq (hp : ∀ ns, names ns → ∀ n ∈ ns, Ty.PlainName n) {a b : Ty}
    (ha : a.Forall t.Owns names) (hb : b.Forall t.Owns names) (h : a.key = b.key) :
    a.Alike b := by
  intro p
  have hi := Ty.image_of_key_eq (ha.imp (fun _ => id) hp) (hb.imp (fun _ => id) hp) h p
  exact hi.imp_of_forall ha hb fun q v w hv hw hid => hv.eq hw hid

theorem alike_of_same {a b : Ty} (ha : a.Forall t.Owns names) (hb : b.Forall t.Owns names)
    (h : a.same b = true) : a.Alike b := by
  unfold Ty.same at h
  split at h
  case h_1 v w =>
    have hid : v.id = w.id := by simpa using h
    exact BoundTable.Owns.eq ha hb hid ▸ .refl _
  case h_2 => exact Ty.eq_of_equal h ▸ .refl a

theorem orient_relate_inj {p q : Polarity} {b c : Ty} {v w : Var} (hb : b.isVar = false)
    (h : p.orient relate b (.var v) = q.orient relate c (.var w)) : p = q ∧ b = c ∧ v = w := by
  cases p <;> cases q <;> cases h <;> first | exact ⟨rfl, rfl, rfl⟩ | cases hb

theorem Parts.isVar_eq_false {a b : Ty} {goals : List Goal} (h : Parts a b goals) :
    a.isVar = false ∧ b.isVar = false := by
  cases h <;> exact ⟨rfl, rfl⟩

theorem orient_relate_isVar {p : Polarity} {a b c : Ty} {v : Var}
    (h : p.orient relate c (.var v) = relate a b) : a.isVar = true ∨ b.isVar = true := by
  cases p <;> cases h
  · exact .inr rfl
  · exact .inl rfl

theorem mark_mem_of_known {memo : Memo} {p : Polarity} {a b c : Ty} {v : Var}
    (hc : c.isVar = false) (h : p.orient relate c (.var v) = relate a b)
    (hk : Known memo a b) : p.orient mark c (.var v) ∈ memo := by
  have hne : c.same (.var v) = false ∧ (Ty.var v).same c = false := by
    cases c with
    | var w => cases hc
    | _ => exact ⟨rfl, rfl⟩
  cases p <;> cases h
  · exact hk.elim (fun hs => absurd hs (by simp [hne.1])) And.right
  · exact hk.elim (fun hs => absurd hs (by simp [hne.2])) And.right

theorem Step.of_shallow {memo : Memo} {rest : List Goal} {st : State} {p : Polarity} {b : Ty}
    {v : Var} (hb : b.isVar = false) (hle : b.level ≤ v.level) (hv : t.Owns v)
    (h : Step ⟨memo, p.orient relate b (.var v) :: rest, t⟩ st) :
    p.orient mark b (.var v) ∈ memo ∨ b ∈ st.table.bounds p v := by
  generalize hg : p.orient relate b (.var v) = g at h
  cases h with
  | known hk => exact .inl (mark_mem_of_known hb hg hk)
  | split hn hs =>
    cases hs with
    | parts hp =>
      have hvar := orient_relate_isVar hg
      rw [hp.isVar_eq_false.1, hp.isVar_eq_false.2] at hvar
      simp at hvar
    | bound q hq =>
      obtain ⟨rfl, rfl, rfl⟩ := orient_relate_inj hb hg
      right
      rw [BoundTable.bounds_addBound hv, if_pos ⟨rfl, rfl⟩]
      exact List.mem_cons_self
    | lowered q hn hlt hs hi =>
      obtain ⟨rfl, rfl, rfl⟩ := orient_relate_inj hb hg
      exact absurd hle (Nat.not_le.mpr hlt)

theorem note_of_parts {memo : Memo} {a b : Ty} {goals : List Goal} (h : Parts a b goals) :
    note memo (.relate a b) = memo := by
  rw [note, remember, h.isVar_eq_false.1, h.isVar_eq_false.2]
  rfl

theorem note_orient (memo : Memo) (p : Polarity) (b : Ty) (v : Var) :
    note memo (p.orient relate b (.var v)) = p.orient mark b (.var v) :: memo := by
  cases p with
  | positive => exact if_pos (Bool.or_true _)
  | negative => rfl

def MemoSound (names : List String → Prop) (t : BoundTable) (memo : Memo) : Prop :=
  ∀ a b, a.Forall t.Owns names → b.Forall t.Owns names → mark a b ∈ memo →
    Derived t (.relate a b)

theorem MemoSound.note {memo : Memo} (hp : ∀ ns, names ns → ∀ n ∈ ns, Ty.PlainName n)
    (hm : MemoSound names t memo) {p : Polarity} {b : Ty} {v : Var}
    (hb : b.Forall t.Owns names) (hv : t.Owns v)
    (h : ∀ c : Ty, c.Alike b → Derived t (p.orient relate c (.var v))) :
    MemoSound names t (Goal.note memo (p.orient relate b (.var v))) := by
  intro x y hx hy hmem
  have hvar : (Ty.var v).Forall t.Owns names := hv
  rw [note_orient] at hmem
  rcases List.mem_cons.mp hmem with heq | hmem
  · cases p with
    | positive =>
      have hxb := alike_of_key_eq hp hx hb (congrArg Prod.fst heq)
      have hyv := alike_of_key_eq hp hvar hy (congrArg Prod.snd heq).symm
      obtain ⟨w, rfl, rfl⟩ := (hyv .positive).var_left
      exact h x hxb
    | negative =>
      have hxv := alike_of_key_eq hp hvar hx (congrArg Prod.fst heq).symm
      have hyb := alike_of_key_eq hp hy hb (congrArg Prod.snd heq)
      obtain ⟨w, rfl, rfl⟩ := (hxv .positive).var_left
      exact h y hyb
  · exact hm x y hx hy hmem

def Finishes (st : State) (t : BoundTable) : Prop := ∃ memo, Steps st ⟨memo, [], t⟩

theorem Finishes.toExtends {st : State} (h : Finishes st t) (hst : st.Scoped names) :
    st.table.Extends t := by
  obtain ⟨memo, h⟩ := h
  exact Steps.toExtends h hst

theorem Finishes.inScope {st : State} (h : Finishes st t) (hst : st.Scoped names) :
    t.Scoped names := by
  obtain ⟨memo, h⟩ := h
  exact (Steps.inScope h hst).table

theorem Finishes.cases_head {st : State} (h : Finishes st t) :
    st.goals = [] ∧ st.table = t ∨ ∃ st', Step st st' ∧ Finishes st' t := by
  obtain ⟨memo, h⟩ := h
  rcases h.cases_head with rfl | ⟨st', hstep, h⟩
  · exact .inl ⟨rfl, rfl⟩
  · exact .inr ⟨st', hstep, memo, h⟩

theorem standIn_of_replaced {limit : Nat} {m : PolarMap Var} {t₀ t₁ : BoundTable}
    (hs : Copy.StandIns limit .empty t₀ m t₁) (hx : t₁.Extends t) {p : Polarity} {b b' : Ty}
    (hb : b.Forall t₀.Owns names) (hi : Ty.Image (Copy.Replaced limit m) p b b') :
    Ty.Image t.StandIn p b b' := by
  refine hi.imp_of_forall hb (Ty.forall_trivial b') fun q v c hv _ hc => ?_
  rcases hc with ⟨-, rfl⟩ | ⟨-, hc⟩
  · exact .inl rfl
  · exact .inr (hx.mem (hs.mem_bounds hv (PolarMap.find?_empty q v) hc))

theorem MemoSound.orient {memo : Memo} (hm : MemoSound names t memo) {p : Polarity} {b x : Ty}
    (hb : b.Forall t.Owns names) (hx : x.Forall t.Owns names) (h : p.orient mark b x ∈ memo) :
    Derived t (p.orient relate b x) := by
  cases p with
  | positive => exact hm b x hb hx h
  | negative => exact hm x b hx hb h

/-- The copy that replaces a bound is less deep than the bound, so its constraint is not
the one just remembered: it was met before, or it is recorded next. -/
theorem MemoSound.derived_copy (hp : ∀ ns, names ns → ∀ n ∈ ns, Ty.PlainName n) {memo : Memo}
    (hm : MemoSound names t memo) {p : Polarity} {b b' : Ty} {v : Var} {rest : List Goal}
    {t' : BoundTable} (hb : b.Forall t.Owns names) (hn : b'.isVar = false)
    (hle : b'.level ≤ v.level) (hlt : v.level < b.level)
    (hst : State.Scoped names
      ⟨p.orient mark b (.var v) :: memo, p.orient relate b' (.var v) :: rest, t'⟩)
    (hf : Finishes
      ⟨p.orient mark b (.var v) :: memo, p.orient relate b' (.var v) :: rest, t'⟩ t) :
    Derived t (p.orient relate b' (.var v)) := by
  obtain ⟨hb₀, hv₀⟩ := (forall_orient ..).mp (hst.goals _ List.mem_cons_self)
  have hx := hf.toExtends hst
  have hb' := hb₀.imp (fun _ => hx.owns) fun _ => id
  have hv : (Ty.var v).Forall t.Owns names := hx.owns hv₀
  rcases hf.cases_head with ⟨hnil, -⟩ | ⟨st, hnext, hf⟩
  · cases hnil
  rcases hnext.of_shallow hn hle hv₀ with hmem | hmem
  · rcases List.mem_cons.mp hmem with heq | hmem
    · have hkey : b'.key = b.key := by
        cases p with
        | positive => exact congrArg Prod.fst heq
        | negative => exact congrArg Prod.snd heq
      have hlevel := (alike_of_key_eq hp hb' hb hkey).level_le hle
      exact absurd hlevel (Nat.not_le.mpr hlt)
    · exact hm.orient hb' hv hmem
  · exact .bound p ((hf.toExtends (hnext.inScope hst)).mem hmem) (.refl b')

theorem Step.memoSound (hp : ∀ ns, names ns → ∀ n ∈ ns, Ty.PlainName n) {st st' : State}
    (h : Step st st') (hf : Finishes st' t) (hst : st.Scoped names)
    (hm : MemoSound names t st.memo) : MemoSound names t st'.memo := by
  have hst' := h.inScope hst
  have hx := hf.toExtends hst'
  have hx₀ := (h.toExtends hst).trans hx
  cases h with
  | known => exact hm
  | split _ h =>
    have hg := hst.goals _ List.mem_cons_self
    have hg' := hg.imp fun _ => hx₀.owns
    cases h with
    | parts h => exact (note_of_parts h).symm ▸ hm
    | bound p hle =>
      obtain ⟨hb, hv⟩ := (forall_orient ..).mp hg'
      refine hm.note hp hb hv fun c hc => .bound p (hx.mem ?_) hc
      rw [BoundTable.bounds_addBound ((forall_orient ..).mp hg).2, if_pos ⟨rfl, rfl⟩]
      exact List.mem_cons_self
    | lowered p hn hlt hs hi =>
      obtain ⟨hb, hv⟩ := (forall_orient ..).mp hg'
      have hn' := hi.isVar_eq.symm.trans hn
      have hd := by
        rw [note_orient] at hf hst'
        exact hm.derived_copy hp hb hn' (hs.copy_level_le hi) hlt hst' hf
      refine hm.note hp hb hv fun c hc => ?_
      have hi' := hc.image (standIn_of_replaced hs hx ((forall_orient ..).mp hg).1 hi)
      exact .standIn p (hi'.isVar_eq.trans hn') hi' hd

theorem Step.derived {st st' : State} (h : Step st st') (hf : Finishes st' t)
    (hst : st.Scoped names) (hm : MemoSound names t st.memo)
    (hd : ∀ g ∈ st'.goals, Derived t g) : ∀ g ∈ st.goals, Derived t g := by
  have hst' := h.inScope hst
  have hx := hf.toExtends hst'
  have hx₀ := (h.toExtends hst).trans hx
  cases h with
  | @known memo a b rest t₀ hk =>
    obtain ⟨ha, hb⟩ := (hst.goals _ List.mem_cons_self).imp fun _ => hx₀.owns
    refine List.forall_mem_cons.mpr ⟨?_, hd⟩
    rcases hk with hk | ⟨-, hk⟩
    · exact .alike (alike_of_same ha hb hk)
    · exact hm a b ha hb hk
  | split _ h =>
    have hg := hst.goals _ List.mem_cons_self
    refine List.forall_mem_cons.mpr ⟨?_, fun g hg => hd g (List.mem_append_right _ hg)⟩
    replace hd := fun g hg => hd g (List.mem_append_left _ hg)
    cases h with
    | parts h => exact .parts h hd
    | bound p hle =>
      refine .bound p (hx.mem ?_) (.refl _)
      rw [BoundTable.bounds_addBound ((forall_orient ..).mp hg).2, if_pos ⟨rfl, rfl⟩]
      exact List.mem_cons_self
    | lowered p hn hlt hs hi =>
      refine .standIn p hn (standIn_of_replaced hs hx ((forall_orient ..).mp hg).1 hi) ?_
      exact hd _ List.mem_cons_self

theorem Finishes.derived (hp : ∀ ns, names ns → ∀ n ∈ ns, Ty.PlainName n) {st : State}
    (hf : Finishes st t) (hst : st.Scoped names) (hm : MemoSound names t st.memo) :
    ∀ g ∈ st.goals, Derived t g := by
  obtain ⟨memo, h⟩ := hf
  induction h using Relation.ReflTransGen.head_induction_on with
  | refl => exact List.forall_mem_nil _
  | head hstep h ih =>
    have hf : Finishes _ t := ⟨memo, h⟩
    exact hstep.derived hf hst hm (ih (hstep.inScope hst) (hstep.memoSound hp hf hst hm))

theorem memoSound_nil (names : List String → Prop) (t : BoundTable) : MemoSound names t [] :=
  fun _ _ _ _ hmem => by cases hmem

end Finished
end Goal

theorem relate_finishes {names : List String → Prop} {s s' : Session} {fuel : Nat} {lhs rhs : Ty}
    (hst : (Goal.start s.table lhs rhs).Scoped names)
    (h : s.perform (relate fuel lhs rhs) = (.ok (), s')) :
    Goal.Finishes (Goal.start s.table lhs rhs) s'.table := by
  obtain ⟨⟨memo, goals, t⟩, hsteps, hgoals, ht⟩ := relate_runs hst h
  cases hgoals
  cases ht
  exact ⟨memo, hsteps⟩

end Biunify
