import Biunify.Proofs.Relate.Completeness
import Biunify.Proofs.Relate.Termination

/-! Types without variables. Between them `relate` decides structural subtyping and touches
nothing: goals are taken apart down to base types, no bound is recorded, and writing out the two
sides of a refusal needs no binder. Nor do variables come into it where the two sides are copies
of one type, since each variable is met by itself. -/

namespace Biunify

namespace Ty

/-- Structural subtyping as it is decided. An object met again is below itself, whatever it
holds; otherwise a field that is asked for is matched by the first one of its name. -/
inductive SubtypeOf : Ty → Ty → Prop
  | same {a b : Ty} (h : a.same b = true) : SubtypeOf a b
  | base {a b : BaseTy} (h : a.below b = true) : SubtypeOf (.base a) (.base b)
  | arrow (m n : Nat) {p q r s : Ty} (hp : SubtypeOf q p) (hr : SubtypeOf r s) :
    SubtypeOf (.arrow m p r) (.arrow n q s)
  | tuple (m n : Nat) {ts us : List Ty} (hl : ts.length = us.length)
    (h : ∀ t u, (t, u) ∈ ts.zip us → SubtypeOf t u) : SubtypeOf (.tuple m ts) (.tuple n us)
  | record (m n : Nat) {fs gs : List (String × Ty)}
    (hfound : ∀ g ∈ gs, (fieldNamed? g.1 fs).isSome)
    (h : ∀ g ∈ gs, ∀ ty, fieldNamed? g.1 fs = some ty → SubtypeOf ty g.2) :
    SubtypeOf (.record m fs) (.record n gs)

abbrev VarFree (t : Ty) : Prop := t.Forall (fun _ => False) fun _ => True

theorem VarFree.isVar_eq_false {t : Ty} (h : t.VarFree) : t.isVar = false := by
  cases t with
  | var v => exact h.elim
  | _ => rfl

theorem VarFree.elems {n : Nat} {ts : List Ty} (h : (tuple n ts).VarFree) : ∀ t ∈ ts, t.VarFree :=
  (forall_tuple n ts).mp h

theorem VarFree.fields {n : Nat} {fs : List (String × Ty)} (h : (record n fs).VarFree) :
    ∀ f ∈ fs, f.2.VarFree :=
  ((forall_record n fs).mp h).2

theorem eq_of_same {a b : Ty} (hv : a.isVar = false ∨ b.isVar = false) (h : a.same b = true) :
    a = b := by
  unfold same at h
  split at h
  case h_1 => simp [isVar, asVar?] at hv
  case h_2 => exact eq_of_equal h

namespace SubtypeOf

theorem trans {a b c : Ty} (hb : b.VarFree) (h : a.SubtypeOf b) (h' : b.SubtypeOf c) :
    a.SubtypeOf c := by
  -- on the middle type, since the parameters of arrows are compared the other way round; as it has
  -- no variables, an object that is met again is the type itself
  induction b generalizing a c with
  | var v => exact hb.elim
  | base y =>
    cases h with
    | same h => exact eq_of_same (.inr rfl) h ▸ h'
    | base h =>
      cases h' with
      | same h' => exact eq_of_same (.inl rfl) h' ▸ .base h
      | base h' => exact .base (BaseTy.below_trans h h')
  | arrow n p r ihp ihr =>
    cases h with
    | same h => exact eq_of_same (.inr rfl) h ▸ h'
    | arrow m _ hp hr =>
      cases h' with
      | same h' => exact eq_of_same (.inl rfl) h' ▸ .arrow m n hp hr
      | arrow _ k hp' hr' => exact .arrow m k (ihp hb.1 hp' hp) (ihr hb.2 hr hr')
  | tuple n us ih =>
    cases h with
    | same h => exact eq_of_same (.inr rfl) h ▸ h'
    | tuple m _ hl h =>
      cases h' with
      | same h' => exact eq_of_same (.inl rfl) h' ▸ .tuple m n hl h
      | tuple _ k hl' h' =>
        have hts := List.forall₂_iff_zip.mpr ⟨hl, fun {t u} => h t u⟩
        have hus := List.forall₂_iff_zip.mpr ⟨hl', fun {t u} => h' t u⟩
        have htrans := forall₂_trans_of_mem hts hus fun t _ u hu w htu huw =>
          ih u hu (hb.elems u hu) htu huw
        obtain ⟨hl, h⟩ := List.forall₂_iff_zip.mp htrans
        exact .tuple m k hl fun _ _ => h
  | record n gs ih =>
    cases h with
    | same h => exact eq_of_same (.inr rfl) h ▸ h'
    | record m _ hfound h =>
      cases h' with
      | same h' => exact eq_of_same (.inl rfl) h' ▸ .record m n hfound h
      | @record _ k _ ks hfound' h' =>
        -- a field asked for on the right is matched in the middle by a field of that name
        have hmid : ∀ g ∈ ks, ∃ y, fieldNamed? g.1 gs = some y ∧ (g.1, y) ∈ gs := by
          intro g hg
          obtain ⟨y, hy⟩ := Option.isSome_iff_exists.mp (hfound' g hg)
          exact ⟨y, hy, Goal.mem_of_fieldNamed? hy⟩
        refine .record m k (fun g hg => ?_) fun g hg x hx => ?_
        · obtain ⟨y, -, hy⟩ := hmid g hg
          exact hfound (g.1, y) hy
        · obtain ⟨y, hfirst, hy⟩ := hmid g hg
          exact ih (g.1, y) hy (hb.fields _ hy) (h (g.1, y) hy x hx) (h' g hg y hfirst)

theorem record_of_found (m n : Nat) {fs gs : List (String × Ty)}
    (h : ∀ g ∈ gs, ∃ x, fieldNamed? g.1 fs = some x ∧ SubtypeOf x g.2) :
    SubtypeOf (.record m fs) (.record n gs) := by
  refine .record m n (fun g hg => ?_) fun g hg x hx => ?_
  · obtain ⟨y, hy, -⟩ := h g hg
    exact Option.isSome_of_eq_some hy
  · obtain ⟨y, hy, hle⟩ := h g hg
    rw [hx] at hy
    cases hy
    exact hle

theorem record_of_forall₂ (m n : Nat) {fs gs : List (String × Ty)} (hn : (names fs).Nodup)
    (h : List.Forall₂ (fun f g => f.1 = g.1 ∧ SubtypeOf f.2 g.2) fs gs) :
    SubtypeOf (.record m fs) (.record n gs) := by
  refine record_of_found m n fun g hg => ?_
  obtain ⟨f, hf, hname, hle⟩ := forall₂_exists_left h hg
  exact ⟨f.2, hname ▸ fieldNamed?_eq_some hn hf, hle⟩

theorem of_alike {t u : Ty} {P : Var → Prop} (ht : t.Forall P List.Nodup) (h : t.Alike u) :
    t.SubtypeOf u ∧ u.SubtypeOf t := by
  induction t generalizing u with
  | base b =>
    obtain rfl := (h .positive).base_left
    exact ⟨.base b.below_refl, .base b.below_refl⟩
  | var v =>
    obtain ⟨w, rfl, rfl⟩ := (h .positive).var_left
    have hs : (var v).same (var v) = true := beq_self_eq_true v.id
    exact ⟨.same hs, .same hs⟩
  | arrow m q r ihq ihr =>
    obtain ⟨n, s, t, rfl, hq, hr⟩ := (h .positive).arrow_left
    obtain ⟨hqs, hsq⟩ := ihq ht.1 hq.repolarize
    obtain ⟨hrt, htr⟩ := ihr ht.2 hr.repolarize
    exact ⟨.arrow m n hsq hrt, .arrow n m hqs htr⟩
  | tuple m ts ih =>
    obtain ⟨n, us, rfl, hts⟩ := (h .positive).tuple_left
    rw [forall_tuple] at ht
    have hboth := forall₂_imp_of_mem hts fun t hm u _ htu => ih t hm (ht t hm) htu.repolarize
    obtain ⟨hl, hle⟩ := List.forall₂_iff_zip.mp (hboth.imp fun _ _ => And.left)
    obtain ⟨hl', hge⟩ := List.forall₂_iff_zip.mp (hboth.imp fun _ _ => And.right).flip
    exact ⟨.tuple m n hl fun _ _ => hle, .tuple n m hl' fun _ _ => hge⟩
  | record m fs ih =>
    obtain ⟨n, gs, rfl, hfs⟩ := (h .positive).record_left
    rw [forall_record] at ht
    have hnames := names_eq_of_forall₂ hfs
    have hboth := forall₂_imp_of_mem hfs fun f hm g _ hfg =>
      And.intro hfg.1 (ih f hm (ht.2 f hm) hfg.2.repolarize)
    refine ⟨record_of_forall₂ m n ht.1 (hboth.imp fun f g h => ⟨h.1, h.2.1⟩), ?_⟩
    exact record_of_forall₂ n m (hnames ▸ ht.1) (hboth.imp fun f g h => ⟨h.1.symm, h.2.2⟩).flip

end SubtypeOf
end Ty

namespace Expansion

def Still {α : Type} (x : ExpandM α) : Prop :=
  ∀ (m : PolarMap Var) (s : Session), ∃ a, s.perform (x.run m) = (.ok (a, m), s)

theorem Still.pure {α : Type} (a : α) : Still (Pure.pure a : ExpandM α) := fun _ _ => ⟨a, rfl⟩

theorem Still.bind {α β : Type} {x : ExpandM α} {f : α → ExpandM β} (hx : Still x)
    (hf : ∀ a, Still (f a)) : Still (x >>= f) := by
  intro m s
  obtain ⟨a, ha⟩ := hx m s
  obtain ⟨b, hb⟩ := hf a m s
  exact ⟨b, (Session.perform_copy_bind_of_ok ha).trans hb⟩

theorem Still.closed : Closed Still := ⟨.pure, .bind⟩

end Expansion

theorem expandBounds_varFree {ty : Ty} (h : ty.VarFree) (p : Polarity) (s : Session) :
    ∃ e, s.perform (expandBounds p ty) = (.ok e, s) := by
  have hstill : Expansion.Still (Expansion.ofTy (Expansion.ofVar (2 * s.table.size + 1) []) p ty) :=
    Expansion.Still.closed.ofTy (fun _ _ hv => hv.elim) h p
  obtain ⟨e, he⟩ := hstill .empty s
  exact ⟨e, perform_expandBounds he⟩

namespace Goal

def Valid : Goal → Prop
  | .relate a b => a.SubtypeOf b
  | .lacking .. => False

def VarFree : Goal → Prop
  | .relate a b => a.VarFree ∧ b.VarFree
  | .lacking _ record => record.VarFree

section Parts

variable {a b : Ty} {goals : List Goal}

theorem valid_field {record : Ty} {fs : List (String × Ty)} {g : String × Ty} :
    (field record fs g).Valid ↔ (Ty.fieldNamed? g.1 fs).isSome ∧
      ∀ ty, Ty.fieldNamed? g.1 fs = some ty → ty.SubtypeOf g.2 := by
  rw [field]
  split
  case h_1 ty hty => simp [Valid, hty]
  case h_2 hnone => simp [Valid, hnone]

theorem Parts.valid_iff (h : Parts a b goals) (hs : a.same b = false) :
    a.SubtypeOf b ↔ ∀ g ∈ goals, g.Valid := by
  have hnot : a.same b ≠ true := by simp [hs]
  cases h with
  | base hle => exact ⟨fun _ => List.forall_mem_nil _, fun _ => .base hle⟩
  | arrow m n p q r s =>
    rw [List.forall_mem_cons, List.forall_mem_singleton]
    constructor
    · intro h
      cases h with
      | same h => exact absurd h hnot
      | arrow _ _ hp hr => exact ⟨hp, hr⟩
    · exact fun h => .arrow m n h.1 h.2
  | tuple m n hl =>
    rw [forall_zipWith_relate hl, List.forall₂_iff_zip]
    constructor
    · intro h
      cases h with
      | same h => exact absurd h hnot
      | tuple _ _ _ h => exact ⟨hl, h _ _⟩
    · exact fun h => .tuple m n hl fun _ _ => h.2
  | record m n fs gs =>
    rw [List.forall_mem_map]
    constructor
    · intro h g hg
      cases h with
      | same h => exact absurd h hnot
      | record _ _ hfound h => exact valid_field.mpr ⟨hfound g hg, h g hg⟩
    · intro h
      exact .record m n (fun g hg => (valid_field.mp (h g hg)).1)
        fun g hg => (valid_field.mp (h g hg)).2

theorem Parts.varFree (h : Parts a b goals) (ha : a.VarFree) (hb : b.VarFree) :
    ∀ g ∈ goals, g.VarFree := by
  cases h with
  | base => exact List.forall_mem_nil _
  | arrow =>
    rw [List.forall_mem_cons, List.forall_mem_singleton]
    exact ⟨⟨hb.1, ha.1⟩, ha.2, hb.2⟩
  | tuple m n hl =>
    rw [forall_zipWith_relate hl, List.forall₂_iff_zip]
    exact ⟨hl, fun h => ⟨ha.elems _ (List.of_mem_zip h).1, hb.elems _ (List.of_mem_zip h).2⟩⟩
  | record m n fs gs =>
    rw [List.forall_mem_map]
    intro g hg
    rw [field]
    split
    case h_1 ty hty => exact ⟨ha.fields _ (mem_of_fieldNamed? hty), hb.fields g hg⟩
    case h_2 => exact ha

end Parts

section Running

variable {a b : Ty} {g : Goal} {goals : List Goal}

def Leaves (g : Goal) (goals : List Goal) : Prop :=
  ∀ (s : Session) (memo : Memo), ∃ s', s'.table = s.table ∧
    s.perform (g.step memo) = (.ok (goals, memo), s')

def Passes (goals : List Goal) : Prop :=
  ∀ (s : Session) (memo : Memo) (rest : List Goal), ∃ (k : Nat) (s' : Session),
    s'.table = s.table ∧ ∀ fuel, s.perform (solve (fuel + k) memo (goals ++ rest)) =
      s'.perform (solve fuel memo rest)

def Fails (goals : List Goal) : Prop :=
  ∀ (s : Session) (memo : Memo) (rest : List Goal), ∃ (k : Nat) (e : TypeError) (s' : Session),
    s'.table = s.table ∧ ∀ fuel, s.perform (solve (fuel + k) memo (goals ++ rest)) =
      (.error (.failed e), s')

theorem passes_nil : Passes [] := fun s _ _ => ⟨0, s, rfl, fun _ => rfl⟩

theorem Passes.cons (h : Passes [g]) (h' : Passes goals) : Passes (g :: goals) := by
  intro s memo rest
  obtain ⟨k, s₁, ht₁, hrun₁⟩ := h s memo (goals ++ rest)
  obtain ⟨l, s₂, ht₂, hrun₂⟩ := h' s₁ memo rest
  refine ⟨l + k, s₂, ht₂.trans ht₁, fun fuel => ?_⟩
  rw [← hrun₂, ← Nat.add_assoc]
  exact hrun₁ (fuel + l)

theorem Passes.cons_fails (h : Passes [g]) (h' : Fails goals) : Fails (g :: goals) := by
  intro s memo rest
  obtain ⟨k, s₁, ht₁, hrun₁⟩ := h s memo (goals ++ rest)
  obtain ⟨l, e, s₂, ht₂, hrun₂⟩ := h' s₁ memo rest
  refine ⟨l + k, e, s₂, ht₂.trans ht₁, fun fuel => ?_⟩
  rw [← hrun₂ fuel, ← Nat.add_assoc]
  exact hrun₁ (fuel + l)

theorem Fails.cons (h : Fails [g]) (goals : List Goal) : Fails (g :: goals) :=
  fun s memo rest => h s memo (goals ++ rest)

theorem Leaves.passes (h : Leaves g goals) (hg : Passes goals) : Passes [g] := by
  intro s memo rest
  obtain ⟨s₁, ht₁, hstep⟩ := h s memo
  obtain ⟨k, s₂, ht₂, hrun⟩ := hg s₁ memo rest
  refine ⟨k + 1, s₂, ht₂.trans ht₁, fun fuel => ?_⟩
  rw [← hrun fuel, ← Nat.add_assoc, List.singleton_append, solve]
  exact Session.perform_bind_of_ok hstep

theorem Leaves.fails (h : Leaves g goals) (hg : Fails goals) : Fails [g] := by
  intro s memo rest
  obtain ⟨s₁, ht₁, hstep⟩ := h s memo
  obtain ⟨k, e, s₂, ht₂, hrun⟩ := hg s₁ memo rest
  refine ⟨k + 1, e, s₂, ht₂.trans ht₁, fun fuel => ?_⟩
  rw [← hrun fuel, ← Nat.add_assoc, List.singleton_append, solve]
  exact Session.perform_bind_of_ok hstep

theorem leaves_of_same (h : a.same b = true) : Leaves (.relate a b) [] := by
  intro s memo
  refine ⟨s, rfl, ?_⟩
  rw [step, h]
  rfl

theorem remembered_eq_false (ha : a.isVar = false) (hb : b.isVar = false) (memo : Memo) :
    remembered a b memo = false := by
  simp [remembered, ha, hb]

theorem remember_eq (ha : a.isVar = false) (hb : b.isVar = false) (memo : Memo) :
    remember a b memo = memo := by
  simp [remember, ha, hb]

theorem Parts.split_eq (h : Parts a b goals) : split a b = pure goals := by
  cases h with
  | base h => rw [split, if_pos h]
  | arrow | record => rfl
  | tuple m n hl => rw [split, if_pos hl]

theorem Parts.leaves (h : Parts a b goals) (hs : a.same b = false) :
    Leaves (.relate a b) goals := by
  intro s memo
  obtain ⟨ha, hb⟩ := h.isVar_eq_false
  refine ⟨{ s with log := .constrained a b :: s.log }, rfl, ?_⟩
  rw [step, hs, remembered_eq_false ha hb, remember_eq ha hb, h.split_eq]
  rfl

theorem passes_of_forall (h : ∀ g ∈ goals, Passes [g]) : Passes goals := by
  induction goals with
  | nil => exact passes_nil
  | cons g goals ih =>
    rw [List.forall_mem_cons] at h
    exact h.1.cons (ih h.2)

theorem Parts.passes (h : Parts a b goals) (hg : ∀ g ∈ goals, Passes [g]) :
    Passes [.relate a b] := by
  cases hs : a.same b with
  | true => exact (leaves_of_same hs).passes passes_nil
  | false => exact (h.leaves hs).passes (passes_of_forall hg)

theorem passes_of_subtypeOf (h : a.SubtypeOf b) : Passes [.relate a b] := by
  induction h with
  | same h => exact (leaves_of_same h).passes passes_nil
  | base h => exact (Parts.base h).passes (List.forall_mem_nil _)
  | arrow m n _ _ ihp ihr =>
    refine (Parts.arrow m n ..).passes ?_
    rw [List.forall_mem_cons, List.forall_mem_singleton]
    exact ⟨ihp, ihr⟩
  | tuple m n hl _ ih =>
    refine (Parts.tuple m n hl).passes ?_
    rw [forall_zipWith_relate hl, List.forall₂_iff_zip]
    exact ⟨hl, ih _ _⟩
  | record m n hfound _ ih =>
    refine (Parts.record m n ..).passes (List.forall_mem_map.mpr fun g hg => ?_)
    obtain ⟨ty, hty⟩ := Option.isSome_iff_exists.mp (hfound g hg)
    rw [field, hty]
    exact ih g hg ty hty

theorem fails_of_exists (hp : ∀ g ∈ goals, g.Valid → Passes [g])
    (hf : ∀ g ∈ goals, ¬ g.Valid → Fails [g]) (h : ¬ ∀ g ∈ goals, g.Valid) : Fails goals := by
  induction goals with
  | nil => exact absurd (List.forall_mem_nil _) h
  | cons g goals ih =>
    rw [List.forall_mem_cons] at hp hf h
    by_cases hg : g.Valid
    · exact (hp.1 hg).cons_fails (ih hp.2 hf.2 fun hall => h ⟨hg, hall⟩)
    · exact (hf.1 hg).cons goals

theorem fails_lacking (name : String) {record : Ty} (h : record.VarFree) :
    Fails [.lacking name record] := by
  intro s memo rest
  obtain ⟨e, he⟩ := expandBounds_varFree h .positive s
  refine ⟨1, .missingField name e, s, rfl, fun fuel => ?_⟩
  rw [List.singleton_append, solve]
  apply Session.perform_bind_of_error
  rw [step, Session.perform_bind_of_ok he]
  rfl

theorem split_eq_reject (ha : a.isVar = false) (hb : b.isVar = false)
    (h : ∀ goals, ¬ Parts a b goals) : split a b = reject a b := by
  cases a with
  | var v => cases ha
  | base x =>
    cases b with
    | var w => cases hb
    | base y => rw [split, if_neg fun hle => h _ (.base hle)]
    | _ => rfl
  | arrow =>
    cases b with
    | var w => cases hb
    | arrow => exact absurd (.arrow ..) (h _)
    | _ => rfl
  | tuple m ts =>
    cases b with
    | var w => cases hb
    | tuple n us => rw [split, if_neg fun hl => h _ (.tuple m n hl)]
    | _ => rfl
  | record =>
    cases b with
    | var w => cases hb
    | record => exact absurd (.record ..) (h _)
    | _ => rfl

theorem fails_of_refused (ha : a.VarFree) (hb : b.VarFree) (hs : a.same b = false)
    (h : ∀ goals, ¬ Parts a b goals) : Fails [.relate a b] := by
  intro s memo rest
  have hva := ha.isVar_eq_false
  have hvb := hb.isVar_eq_false
  let s₁ : Session := { s with log := .constrained a b :: s.log }
  obtain ⟨l, hl⟩ := expandBounds_varFree ha .positive s₁
  obtain ⟨r, hr⟩ := expandBounds_varFree hb .positive s₁
  have hreject : s₁.perform (reject a b) = (.error (.failed (.cannotConstrain l r)), s₁) := by
    rw [reject, Session.perform_bind_of_ok hl, Session.perform_bind_of_ok hr]
    rfl
  have hemit : s.perform (liftM (SessionM.emit (.constrained a b))) = (.ok (), s₁) := rfl
  refine ⟨1, .cannotConstrain l r, s₁, rfl, fun fuel => ?_⟩
  rw [List.singleton_append, solve]
  apply Session.perform_bind_of_error
  rw [step, hs, remembered_eq_false hva hvb, split_eq_reject hva hvb h]
  exact (Session.perform_bind_of_ok hemit).trans (Session.perform_bind_of_error hreject)

theorem fails_of_not_subtypeOf (ha : a.VarFree) (hb : b.VarFree) (h : ¬ a.SubtypeOf b) :
    Fails [.relate a b] := by
  -- by the size of both sides together, which change places below a parameter
  induction hsize : a.size + b.size using Nat.strong_induction_on generalizing a b with
  | h size ih =>
    have hs : a.same b = false := Bool.eq_false_iff.mpr fun hs => h (.same hs)
    by_cases hparts : ∃ goals, Parts a b goals
    · obtain ⟨goals, hparts⟩ := hparts
      refine (hparts.leaves hs).fails (fails_of_exists (fun g _ hg => ?_) (fun g hg hn => ?_)
        fun hall => h ((hparts.valid_iff hs).mpr hall))
      · cases g with
        | relate x y => exact passes_of_subtypeOf hg
        | lacking => exact hg.elim
      · have hfree := hparts.varFree ha hb g hg
        rcases hparts.children (p := .positive) rfl hg with ⟨q, x, hx, y, hy, rfl⟩ | ⟨n, r, rfl⟩
        · have hxsize := Ty.size_lt_of_mem_children hx
          have hysize := Ty.size_lt_of_mem_children hy
          cases q with
          | positive => exact ih _ (by omega) hfree.1 hfree.2 hn rfl
          | negative => exact ih _ (by omega) hfree.1 hfree.2 hn rfl
        · exact fails_lacking n hfree
    · exact fails_of_refused ha hb hs fun goals hg => hparts ⟨goals, hg⟩

end Running

end Goal

section Settling

variable {s : Session} {a b : Ty}

theorem relate_settles_of_passes (h : Goal.Passes [.relate a b]) :
    ∃ s', s.Settles (relate · a b) (.ok ()) s' ∧ s'.table = s.table := by
  obtain ⟨k, s', ht, hrun⟩ := h s [] []
  refine ⟨s', ⟨by simp, k, fun more hmore => ?_⟩, ht⟩
  obtain ⟨fuel, rfl⟩ := Nat.exists_eq_add_of_le' hmore
  refine (hrun fuel).trans ?_
  cases fuel <;> rfl

theorem relate_settles_of_fails (h : Goal.Fails [.relate a b]) :
    ∃ e s', s.Settles (relate · a b) (.error (.failed e)) s' ∧ s'.table = s.table := by
  obtain ⟨k, e, s', ht, hrun⟩ := h s [] []
  refine ⟨e, s', ⟨by simp, k, fun more hmore => ?_⟩, ht⟩
  obtain ⟨fuel, rfl⟩ := Nat.exists_eq_add_of_le' hmore
  exact hrun fuel

end Settling

def Session.Accepts (s : Session) (a b : Ty) : Prop := ∃ s', s.Settles (relate · a b) (.ok ()) s'

theorem relate_settles_varFree {a b : Ty} (ha : a.VarFree) (hb : b.VarFree) (s : Session) :
    ∃ r s', s.Settles (relate · a b) r s' ∧ (r = .ok () ↔ a.SubtypeOf b) ∧ s'.table = s.table := by
  by_cases h : a.SubtypeOf b
  · obtain ⟨s', hs', ht⟩ := relate_settles_of_passes (s := s) (Goal.passes_of_subtypeOf h)
    exact ⟨_, s', hs', iff_of_true rfl h, ht⟩
  · obtain ⟨e, s', hs', ht⟩ := relate_settles_of_fails (s := s)
      (Goal.fails_of_not_subtypeOf ha hb h)
    exact ⟨_, s', hs', iff_of_false (by simp) h, ht⟩

theorem Session.accepts_iff {a b : Ty} (ha : a.VarFree) (hb : b.VarFree) (s : Session) :
    s.Accepts a b ↔ a.SubtypeOf b := by
  obtain ⟨r, s', hs', hr, -⟩ := relate_settles_varFree ha hb s
  rw [← hr]
  constructor
  · rintro ⟨s₁, hs₁⟩
    exact (hs'.unique hs₁).1
  · rintro rfl
    exact ⟨s', hs'⟩

/-- Whatever the table, `relate` decides structural subtyping between types without variables and
leaves the table as it was, accepting or not; what it accepts there is transitive; and it accepts
two copies of a type whose records have distinct field names, with variables or without, and
again leaves the table as it was. -/
theorem relate_decides_subtyping (s s₁ s₂ : Session) :
    (∀ a b : Ty, a.VarFree → b.VarFree → ∃ r s', s.Settles (relate · a b) r s' ∧
      (r = .ok () ↔ a.SubtypeOf b) ∧ s'.table = s.table) ∧
    (∀ a b c : Ty, a.VarFree → b.VarFree → c.VarFree → s₁.Accepts a b → s₂.Accepts b c →
      s.Accepts a c) ∧
    ∀ t t₁ t₂ : Ty, t.Forall (fun _ => True) List.Nodup → t.Alike t₁ → t.Alike t₂ →
      ∃ s', s.Settles (relate · t₁ t₂) (.ok ()) s' ∧ s'.table = s.table := by
  refine ⟨fun a b ha hb => relate_settles_varFree ha hb s, fun a b c ha hb hc hab hbc => ?_,
    fun t t₁ t₂ ht h₁ h₂ => ?_⟩
  · rw [Session.accepts_iff ha hb] at hab
    rw [Session.accepts_iff hb hc] at hbc
    rw [Session.accepts_iff ha hc]
    exact hab.trans hb hbc
  · have hnames : t₁.Forall (fun _ => True) List.Nodup :=
      (h₁ .positive).forall_right ht fun _ _ _ _ _ => trivial
    have hcopies : t₁.Alike t₂ := fun p =>
      ((h₁ p).symm fun _ _ _ => Eq.symm).comp (h₂ p) fun _ _ _ _ => Eq.trans
    have hbelow := (Ty.SubtypeOf.of_alike hnames hcopies).1
    exact relate_settles_of_passes (Goal.passes_of_subtypeOf hbelow)

def repeatedName : Ty :=
  .record 0 [("x", .base .int), ("f", .arrow 1 (.base .float) (.base .int)), ("x", .base .bool)]

def widerFields : Ty := .record 2 [("f", .arrow 3 (.base .int) (.base .int)), ("x", .base .float)]

def oneField : Ty := .record 4 [("f", .arrow 5 (.base .int) (.base .float))]

theorem relate_decides_subtyping_fields :
    (∃ r s', Session.Settles ⟨selfBounded, 6, []⟩ (relate · widerFields repeatedName) r s' ∧
      r ≠ .ok () ∧ s'.table = selfBounded) ∧
    Session.Accepts ⟨selfBounded, 6, []⟩ repeatedName oneField ∧
    ∃ s', Session.Settles ⟨selfBounded, 6, []⟩ (relate · (.arrow 0 (.var ⟨1, 1⟩) (.var ⟨0, 0⟩))
      (.arrow 1 (.var ⟨1, 1⟩) (.var ⟨0, 0⟩))) (.ok ()) s' ∧ s'.table = selfBounded := by
  let s : Session := ⟨selfBounded, 6, []⟩
  have hrepeated : repeatedName.VarFree := by simp [repeatedName]
  have hwider : widerFields.VarFree := by simp [widerFields]
  have hone : oneField.VarFree := by simp [oneField]
  have hbelow : repeatedName.SubtypeOf widerFields := by
    refine .record_of_found 0 2 ?_
    rw [List.forall_mem_cons, List.forall_mem_singleton]
    exact ⟨⟨_, rfl, .arrow 1 3 (.base rfl) (.base rfl)⟩, _, rfl, .base rfl⟩
  have hbelow' : widerFields.SubtypeOf oneField := by
    refine .record_of_found 2 4 ?_
    rw [List.forall_mem_singleton]
    exact ⟨_, rfl, .arrow 3 5 (.base rfl) (.base rfl)⟩
  have hnot : ¬ widerFields.SubtypeOf repeatedName := by
    intro h
    cases h with
    | same h => cases h
    | record _ _ _ h =>
      have hx : (Ty.base .float).SubtypeOf (.base .int) := h ("x", .base .int) (by simp) _ rfl
      cases hx with
      | same h => cases h
      | base h => cases h
  have hnames : (Ty.arrow 0 (.var ⟨1, 1⟩) (.var ⟨0, 0⟩)).Forall (fun _ => True) List.Nodup :=
    ⟨trivial, trivial⟩
  have hcopy (n : Nat) : Ty.Alike (.arrow 0 (.var ⟨1, 1⟩) (.var ⟨0, 0⟩))
      (.arrow n (.var ⟨1, 1⟩) (.var ⟨0, 0⟩)) := fun _ => ⟨rfl, rfl⟩
  obtain ⟨hdecides, htrans, hcopies⟩ := relate_decides_subtyping s s s
  refine ⟨?_, ?_, hcopies _ _ _ hnames (hcopy 0) (hcopy 1)⟩
  · obtain ⟨r, s', hs', hr, ht⟩ := hdecides _ _ hwider hrepeated
    exact ⟨r, s', hs', fun h => hnot (hr.mp h), ht⟩
  · exact htrans _ _ _ hrepeated hwider hone ((s.accepts_iff hrepeated hwider).mpr hbelow)
      ((s.accepts_iff hwider hone).mpr hbelow')

end Biunify
