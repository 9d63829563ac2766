import Biunify.Proofs.Copy.Instances
import Biunify.Proofs.Flow.Joined

/-! Every lower bound of a variable is joined to every upper bound of it. This closure is
kept by all that `relate` does on the way to success, and by instances of schemes. -/

namespace Biunify
namespace BoundTable

def JoinedIn (t t' : BoundTable) : Prop :=
  ∀ v, ∀ l ∈ t.lower v, ∀ u ∈ t.upper v, t'.Joined l u

def Closed (t : BoundTable) : Prop := t.JoinedIn t

theorem joinedIn_iff {t t' : BoundTable} (p : Polarity) :
    t.JoinedIn t' ↔
      ∀ v, ∀ b ∈ t.bounds p v, ∀ x ∈ t.bounds p.flip v, p.orient t'.Joined b x :=
  boundsMeet_iff p

theorem Extends.joinedIn {t t' t'' : BoundTable} (h : t'.Extends t'') (hj : t.JoinedIn t') :
    t.JoinedIn t'' :=
  fun v l hl u hu => h.joined (hj v l hl u hu)

theorem Closed.addVar {t : BoundTable} (h : t.Closed) (level : Nat) : (t.addVar level).Closed := by
  rw [Closed, joinedIn_iff .positive]
  intro v b hb x hx
  rw [bounds_addVar] at hb hx
  exact (Extends.addVar t level).joined (h v b hb x hx)

end BoundTable

namespace Copy.StandIns

variable {limit : Nat} {m : PolarMap Var} {t t' : BoundTable}

theorem joined_gained (hs : StandIns limit .empty t m t') (ht : t'.Scoped fun _ => True)
    {p : Polarity} {v : Var} {b x : Ty} (hv : t.Owns v) (hb : b ∈ gained .empty m p v)
    (hx : x ∈ t'.bounds p.flip v) : p.orient t'.Joined b x := by
  obtain ⟨c, rfl, -, -, -, hf⟩ := hs.mem_gained hv hb
  rw [← Polarity.orient_flip]
  obtain ⟨old, hcopies, hbounds⟩ := hf.copies
  have hcopy : x ∈ old → p.flip.orient t'.Joined x (.var c) := by
    intro hold
    obtain ⟨x', hx', hc⟩ := forall₂_exists_right hcopies hold
    have hi := hc.image
    rcases x.var_or_isVar_eq_false with ⟨y, rfl⟩ | hnv
    · obtain ⟨y', rfl, hy⟩ := hi.var_left
      rw [BoundTable.orient_joined_vars]
      rcases hy with ⟨-, rfl⟩ | ⟨hlt, hy⟩
      · exact .inr (.inl hx')
      · have hy' := hs.mem_bounds (hs.owns_of_deep (ht _ _ _ hx) hlt) (PolarMap.find?_empty _ _) hy
        exact .inr (.inr (.inr ⟨y', hx', hy'⟩))
    · rw [BoundTable.orient_joined_var _ hnv]
      exact ⟨x', hx', hi.sameShape.symm⟩
  rcases hbounds with ⟨hbounds, -⟩ | ⟨d, hd, -, hbounds⟩
  · exact hcopy (hbounds ▸ hx)
  · rcases List.mem_cons.mp (hbounds ▸ hx) with rfl | hx
    · rw [BoundTable.orient_joined_vars]
      rcases hf.linked hd with hlink | hlink
      · exact .inr (.inl hlink)
      · exact .inr (.inr (.inl hlink))
    · exact hcopy hx

theorem joinedIn (hs : StandIns limit .empty t m t') (ht : t.Scoped fun _ => True)
    {t'' : BoundTable} (hext : t'.Extends t'') (h : t.JoinedIn t'') : t'.JoinedIn t'' := by
  have ht' := hs.inScope (fun hc => by simp at hc) ht
  rw [BoundTable.joinedIn_iff .positive]
  intro v b hb x hx
  obtain ⟨w, hw, hid⟩ := BoundTable.exists_owns (BoundTable.lt_size_of_mem_bounds hb)
  rw [← t'.bounds_congr _ hid] at hb hx
  rcases hs.cover hw with hw | ⟨p, y, hy, hn, hc⟩
  · have hb' := hs.bounds hw _ ▸ hb
    have hx' := hs.bounds hw _ ▸ hx
    rcases List.mem_append.mp hb' with hg | hold
    · exact hext.joined (hs.joined_gained ht' hw hg hx)
    · rcases List.mem_append.mp hx' with hg | hold'
      · exact hext.joined (hs.joined_gained ht' hw hg hb)
      · exact h w b hold x hold'
  · have hother := (hs.filled hy hn hc).2.other
    cases p with
    | positive =>
      rw [hother] at hx
      cases hx
    | negative =>
      have hempty : t'.bounds .positive w = [] := hother
      rw [hempty] at hb
      cases hb

end Copy.StandIns

namespace Copy.Instances

variable {limit level : Nat} {m : VarMap Var} {t t' : BoundTable}

theorem instanced_unique {v c d : Var} (hc : Instanced limit m v c) (hd : Instanced limit m v d) :
    c = d := by
  rcases hc with ⟨hle, rfl⟩ | ⟨hlt, hc⟩
  · rcases hd with ⟨-, rfl⟩ | ⟨hlt, -⟩
    · rfl
    · exact absurd hle (Nat.not_le.mpr hlt)
  · rcases hd with ⟨hle, -⟩ | ⟨-, hd⟩
    · exact absurd hle (Nat.not_le.mpr hlt)
    · exact Option.some.inj (hc.symm.trans hd)

theorem exists_copy (h : Instances limit level t (fun _ => False) m t') (ht : t.Leveled)
    {p : Polarity} {x x' : Var} {b : Ty} (hx : t.Owns x) (hi : Instanced limit m x x')
    (hb : b ∈ t.bounds p x) :
    ∃ b' ∈ t'.bounds p x', Ty.Image (fun _ => Instanced limit m) .positive b b' := by
  rcases hi with ⟨hle, rfl⟩ | ⟨-, hc⟩
  · refine ⟨b, h.bounds hx p ▸ hb, ?_⟩
    have hshallow := (Ty.level_le_iff b limit).mp ((ht p x' hx b hb).trans hle)
    exact Ty.Image.refl_of_forall hshallow fun _ _ hv => .inl ⟨hv, rfl⟩
  · obtain ⟨w, hw, hid, -, -, -, -, hcopies⟩ := h.origin hc
    obtain rfl := hw.eq hx hid
    exact forall₂_exists_right ((hcopies.resolve_left id).images p .positive) hb

theorem exists_copy_var (h : Instances limit level t (fun _ => False) m t') (ht : t.Leveled)
    {p : Polarity} {x x' y y' : Var} (hx : t.Owns x) (hi : Instanced limit m x x')
    (hy : Instanced limit m y y') (hb : .var y ∈ t.bounds p x) : .var y' ∈ t'.bounds p x' := by
  obtain ⟨b, hb, hi⟩ := h.exists_copy ht hx hi hb
  obtain ⟨z, rfl, hz⟩ := hi.var_left
  exact instanced_unique hz hy ▸ hb

theorem linked_copy (h : Instances limit level t (fun _ => False) m t') (ht : t.Leveled)
    {x x' y y' : Var} (hx : t.Owns x) (hy : t.Owns y) (hi : Instanced limit m x x')
    (hj : Instanced limit m y y') (hl : t.Linked x y) : t'.Linked x' y' := by
  rcases hl with rfl | hl | hl | ⟨z, hz, hz'⟩
  · exact .inl (instanced_unique hi hj)
  · exact .inr (.inl (h.exists_copy_var (p := .negative) ht hx hi hj hl))
  · exact .inr (.inr (.inl (h.exists_copy_var (p := .positive) ht hy hj hi hl)))
  · obtain ⟨b, hb, hib⟩ := h.exists_copy (p := .negative) ht hx hi hz
    obtain ⟨z', rfl, hzz⟩ := hib.var_left
    have hb' := h.exists_copy_var (p := .positive) ht hy hj hzz hz'
    exact .inr (.inr (.inr ⟨z', hb, hb'⟩))

theorem joined_copy_var (h : Instances limit level t (fun _ => False) m t') (ht : t.Leveled)
    {p : Polarity} {x x' : Var} {b b' : Ty} (hx : t.Owns x) (hi : Instanced limit m x x')
    (hb : Ty.Image (fun _ => Instanced limit m) .positive b b') (hn : b.isVar = false)
    (hj : p.orient t.Joined b (.var x)) : p.orient t'.Joined b' (.var x') := by
  obtain ⟨c, hc, hs⟩ := (BoundTable.orient_joined_var p hn x).mp hj
  obtain ⟨c', hc', hic⟩ := h.exists_copy ht hx hi hc
  refine (BoundTable.orient_joined_var p (hb.isVar_eq.symm.trans hn) x').mpr ⟨c', hc', ?_⟩
  exact hic.sameShape.symm.trans (hs.trans hb.sameShape)

theorem joined_copy (h : Instances limit level t (fun _ => False) m t') (ht : t.Leveled)
    {l l' u u' : Ty} (hl : l.Forall t.Owns fun _ => True) (hu : u.Forall t.Owns fun _ => True)
    (hil : Ty.Image (fun _ => Instanced limit m) .positive l l')
    (hiu : Ty.Image (fun _ => Instanced limit m) .positive u u') (hj : t.Joined l u) :
    t'.Joined l' u' := by
  rcases l.var_or_isVar_eq_false with ⟨x, rfl⟩ | hnl
  · obtain ⟨x', rfl, hx⟩ := hil.var_left
    rcases u.var_or_isVar_eq_false with ⟨y, rfl⟩ | hnu
    · obtain ⟨y', rfl, hy⟩ := hiu.var_left
      exact h.linked_copy ht hl hu hx hy hj
    · exact h.joined_copy_var (p := .negative) ht hl hx hiu hnu hj
  · rcases u.var_or_isVar_eq_false with ⟨y, rfl⟩ | hnu
    · obtain ⟨y', rfl, hy⟩ := hiu.var_left
      exact h.joined_copy_var (p := .positive) ht hu hy hil hnl hj
    · rw [BoundTable.joined_of_not_isVar hnl hnu] at hj
      rw [BoundTable.joined_of_not_isVar (hil.isVar_eq.symm.trans hnl)
        (hiu.isVar_eq.symm.trans hnu)]
      exact hj.congr hil.sameShape hiu.sameShape

theorem closed (h : Instances limit level t (fun _ => False) m t')
    (hs : t.Scoped fun _ => True) (ht : t.Leveled) (hc : t.Closed) : t'.Closed := by
  rw [BoundTable.Closed, BoundTable.joinedIn_iff .positive]
  intro v b hb x hx
  obtain ⟨w, hw, hid⟩ := BoundTable.exists_owns (BoundTable.lt_size_of_mem_bounds hb)
  rw [← t'.bounds_congr _ hid] at hb hx
  rcases h.var_cases hw with hw | ⟨w₀, hw₀, -, -, -, hcopies⟩
  · rw [h.bounds hw] at hb hx
    exact h.toExtends.joined (hc w b hb x hx)
  · obtain ⟨l, hl, hil⟩ := forall₂_exists_left (hcopies.images _ .positive) hb
    obtain ⟨u, hu, hiu⟩ := forall₂_exists_left (hcopies.images _ .positive) hx
    exact h.joined_copy ht (hs _ _ l hl) (hs _ _ u hu) hil hiu (hc w₀ l hl u hu)

end Copy.Instances

namespace Goal

variable {names : List String → Prop}

theorem Step.joinedIn (hp : ∀ ns, names ns → ∀ n ∈ ns, Ty.PlainName n) {st st' : State}
    {t : BoundTable} (h : Step st st') (hf : Finishes st' t) (hst : st.Scoped names)
    (hm : MemoSound names t st.memo) (hj : st.table.JoinedIn t) : st'.table.JoinedIn t := by
  -- the bound that a step records leaves a goal for every bound on the other side
  have hst' := h.inScope hst
  have hd := hf.derived hp hst' (h.memoSound hp hf hst hm)
  have hx := hf.toExtends hst'
  cases h with
  | known => exact hj
  | split _ h =>
    have hg := hst.goals _ List.mem_cons_self
    cases h with
    | parts => exact hj
    | bound p hle =>
      refine BoundTable.BoundsMeet.addBound hj ((forall_orient ..).mp hg).2 fun x hx => ?_
      have hgoal := hd _ (List.mem_append_left _ (List.mem_map_of_mem hx))
      exact (joined_orient ..).mp hgoal.joined
    | lowered p hn hlt hs hi => exact hs.joinedIn (hst.table.imp fun _ _ => trivial) hx hj

theorem Finishes.closed (hp : ∀ ns, names ns → ∀ n ∈ ns, Ty.PlainName n) {st : State}
    {t : BoundTable} (hf : Finishes st t) (hst : st.Scoped names)
    (hm : MemoSound names t st.memo) (hj : st.table.JoinedIn t) : t.Closed := by
  obtain ⟨memo, h⟩ := hf
  induction h using Relation.ReflTransGen.head_induction_on with
  | refl => exact hj
  | head hstep h ih =>
    have hf : Finishes _ t := ⟨memo, h⟩
    exact ih (hstep.inScope hst) (hstep.memoSound hp hf hst hm) (hstep.joinedIn hp hf hst hm hj)

end Goal
end Biunify
