import Biunify.Proofs.Expansion
import Biunify.Proofs.TypeExpr.Structure
import Biunify.Proofs.TypeExpr.Unfolding
import Biunify.Proofs.TypeExpr.WellFormed
import Biunify.Proofs.VarMap

/-! A type written out with its bounds is a finite writing of the whole graph of bounds. Down to
every depth it reads as the tree in which each variable stands beside its bounds, and the
variables that it makes are the binders of its recursive types and occur inside them only. -/

namespace Biunify

namespace TypeTree

def leaf (x : Nat) : Nat → TypeTree
  | 0 => .cut
  | _ + 1 => .var x

def withBounds (p : Polarity) (x n : Nat) : List TypeTree → TypeTree
  | [] => .var x
  | trees =>
    match p with
    | .positive => .union (leaf x n :: trees)
    | .negative => .inter (leaf x n :: trees)

end TypeTree

/-- The tree of a type read at a polarity, where every variable stands beside its bounds, down to
a depth counted in nodes. -/
def BoundTable.writtenOut (t : BoundTable) : Nat → Polarity → Ty → TypeTree
  | 0, _, _ => .cut
  | n + 1, p, ty =>
    match ty with
    | .base b => .base b
    | .var v => .withBounds p v.id n ((t.bounds p v).map (t.writtenOut n p))
    | .arrow _ param result => .arrow (t.writtenOut n p.flip param) (t.writtenOut n p result)
    | .tuple _ elems => .tuple (elems.map (t.writtenOut n p))
    | .record _ fields => .record (fields.map fun f => (f.1, t.writtenOut n p f.2))

theorem BoundTable.writtenOut_var_congr (t : BoundTable) (n : Nat) (p : Polarity) {v w : Var}
    (h : v.id = w.id) : t.writtenOut n p (.var v) = t.writtenOut n p (.var w) := by
  cases n with
  | zero => rfl
  | succ n => rw [writtenOut, writtenOut, t.bounds_congr p h, h]

namespace TypeExpr

section Unfold

variable (env : Nat → Nat → TypeTree)

theorem unfold_joined {p : Polarity} {v : Var} {n : Nat}
    (h : ∀ k ≤ n, env v.id (k + 1) = .var v.id) (members : List TypeExpr) :
    (Expansion.joined p v members).unfold .nodes env (n + 1) =
      .withBounds p v.id n (members.map (unfold .nodes env · n)) := by
  have hleaf : (var v.id).unfold .nodes env n = .leaf v.id n := by
    cases n with
    | zero => rfl
    | succ n => exact h n (Nat.le_succ n)
  rcases members with - | ⟨e, es⟩
  · exact h n le_rfl
  · cases p <;>
      simp only [Expansion.joined, unfold, unfoldList_eq, TypeTree.Counting.below, List.map_cons,
        hleaf, TypeTree.withBounds]

end Unfold

section Binders

variable {e : TypeExpr} {x : Nat}

theorem binders_of_inner (h : e.Inner) : e.binders = e.children.flatMap binders := by
  cases e with
  | top | bottom | base => rfl
  | var | recursive => exact h.elim
  | arrow param result => simp [binders, children]
  | tuple ts | union ts | inter ts => exact bindersList_eq ts
  | record fields => rw [binders, bindersFields_eq, children, List.flatMap_map]

theorem exists_free_of_inner (h : e.Inner) (hx : e.Free x) : ∃ c ∈ e.children, c.Free x := by
  cases hx with
  | var => exact h.elim
  | child hc _ hx => exact ⟨_, hc, hx⟩

theorem free_or_mem_binders (h : x ∈ e.occurrences) : e.Free x ∨ x ∈ e.binders := by
  induction e using inner_induction with
  | var y =>
    obtain rfl := List.mem_singleton.mp h
    exact .inl .var
  | inner e he ih =>
    rw [occurrences_of_inner he] at h
    obtain ⟨c, hc, hx⟩ := List.mem_flatMap.mp h
    refine (ih c hc hx).imp (.child hc ?_) fun hx => ?_
    · rintro body rfl
      exact he
    · rw [binders_of_inner he]
      exact List.mem_flatMap_of_mem hc hx
  | recursive k body ih =>
    by_cases hk : x = k
    · exact .inr (hk ▸ List.mem_cons_self)
    · refine (ih ((List.mem_cons.mp h).resolve_left hk)).imp ?_ (List.mem_cons_of_mem k)
      refine .child List.mem_cons_self ?_
      rintro body' heq
      cases heq
      exact hk rfl

end Binders

end TypeExpr

namespace Expansion

variable {α β : Type} {t t' : BoundTable} {m m₁ m' : PolarMap Var}

structure Handed (t : BoundTable) (m : PolarMap Var) (t' : BoundTable) : Prop where
  adds : t.AddsVars t'
  range : ∀ {p v b}, m.find? p v = some b → t.size ≤ b.id ∧ b.id < t'.size
  apart : ∀ {p q v w b c}, m.find? p v = some b → m.find? q w = some c → b.id = c.id →
    p = q ∧ v.id = w.id
  all : ∀ {x}, t.size ≤ x → x < t'.size → ∃ p v b, m.find? p v = some b ∧ b.id = x

def Keeps (m m' : PolarMap Var) : Prop :=
  ∀ ⦃p v b⦄, m.find? p v = some b → m'.find? p v = some b

section Insert

variable {p : Polarity} {v : Var}

theorem keeps_insert (hv : m.find? p v = none) (b : Var) : Keeps m (m.insert p v b) := by
  intro q w c hc
  rw [PolarMap.find?_insert, if_neg]
  · exact hc
  · rintro ⟨hw, rfl⟩
    rw [m.find?_congr q hw, hv] at hc
    cases hc

theorem find?_insert_cases {b c w : Var} {q : Polarity} (h : (m.insert p v b).find? q w = some c) :
    (w.id = v.id ∧ q = p ∧ c = b) ∨ m.find? q w = some c := by
  rw [PolarMap.find?_insert] at h
  split at h
  case isTrue hkey => exact .inl ⟨hkey.1, hkey.2, (Option.some.inj h).symm⟩
  case isFalse => exact .inr h

theorem Handed.insert (h : Handed t m t') (hv : m.find? p v = none) :
    Handed t (m.insert p v (t'.nextVar 0)) (t'.addVar 0) := by
  refine ⟨h.adds.trans (.addVar t' 0), fun hb => ?_, fun hb hc hid => ?_, fun {x} hle hlt => ?_⟩
  · rw [BoundTable.size_addVar]
    rcases find?_insert_cases hb with ⟨-, -, rfl⟩ | hb
    · exact ⟨h.adds.size_le, Nat.lt_succ_self _⟩
    · exact ⟨(h.range hb).1, Nat.lt_succ_of_lt (h.range hb).2⟩
  · -- the new binder has an id that no older one has
    rcases find?_insert_cases hb with ⟨hv₁, hp₁, rfl⟩ | hb <;>
      rcases find?_insert_cases hc with ⟨hv₂, hp₂, rfl⟩ | hc
    · exact ⟨hp₁.trans hp₂.symm, hv₁.trans hv₂.symm⟩
    · exact absurd (h.range hc).2 (Nat.not_lt.mpr hid.le)
    · exact absurd (h.range hb).2 (Nat.not_lt.mpr hid.ge)
    · exact h.apart hb hc hid
  · rw [BoundTable.size_addVar] at hlt
    rcases Nat.lt_succ_iff_lt_or_eq.mp hlt with hlt | rfl
    · obtain ⟨q, w, c, hc, hid⟩ := h.all hle hlt
      exact ⟨q, w, c, keeps_insert hv _ hc, hid⟩
    · exact ⟨p, v, t'.nextVar 0, by rw [PolarMap.find?_insert, if_pos ⟨rfl, rfl⟩], rfl⟩

end Insert

def Yields (t : BoundTable) (x : ExpandM α) (out : PolarMap Var → PolarMap Var → α → Prop) : Prop :=
  ∀ ⦃m : PolarMap Var⦄ ⦃s : Session⦄ ⦃a m' s'⦄, Handed t m s.table →
    s.perform (x.run m) = (.ok (a, m'), s') → Handed t m' s'.table ∧ Keeps m m' ∧ out m m' a

namespace Yields

variable {out : PolarMap Var → PolarMap Var → α → Prop}
  {out' : PolarMap Var → PolarMap Var → β → Prop}

theorem pure {a : α} (h : ∀ ⦃m t'⦄, Handed t m t' → out m m a) :
    Yields t (Pure.pure a : ExpandM α) out := by
  intro m s a' m' s' hm hrun
  cases hrun
  exact ⟨hm, fun _ _ _ h => h, h hm⟩

theorem bind {x : ExpandM α} {f : α → ExpandM β} (hx : Yields t x out)
    (hf : ∀ a, Yields t (f a) fun m₁ m' b =>
      ∀ m, Keeps m m₁ → Keeps m₁ m' → out m m₁ a → out' m m' b) :
    Yields t (x >>= f) out' := by
  intro m s b m' s' hm hrun
  rw [StateT.run_bind, Session.perform_bind] at hrun
  rcases hstep : s.perform (x.run m) with ⟨r, s₁⟩
  rw [hstep] at hrun
  rcases r with e | ⟨a, m₁⟩
  · cases hrun
  · obtain ⟨hm₁, hk, hout⟩ := hx hm hstep
    obtain ⟨hm', hk', hout'⟩ := hf a hm₁ hrun
    exact ⟨hm', fun _ _ _ h => hk' (hk h), hout' m hk hk' hout⟩

theorem throw (e : Stop) : Yields t (MonadExcept.throw e : ExpandM α) out := by
  intro m s a m' s' hm hrun
  cases hrun

theorem get {f : PolarMap Var → ExpandM α}
    (hf : ∀ m, Yields t (f m) fun m₁ m' a => m = m₁ → out m₁ m' a) :
    Yields t (MonadState.get >>= f) out := by
  intro m s a m' s' hm hrun
  obtain ⟨hm', hk, hout⟩ := hf m hm hrun
  exact ⟨hm', hk, hout rfl⟩

theorem table {f : BoundTable → ExpandM α} (hf : ∀ t', t.AddsVars t' → Yields t (f t') out) :
    Yields t (liftM SessionM.table >>= f) out :=
  fun _ s _ _ _ hm hrun => hf s.table hm.adds hm hrun

end Yields

section Reads

variable {path : List (Polarity × Nat)} {p : Polarity} {ty : Ty} {e : TypeExpr} {n k : Nat}
  {env : Nat → Nat → TypeTree}

/-- Down to a depth, the variables of the table are read as themselves and the binders of the
path as what they stand for. -/
structure Agrees (t : BoundTable) (path : List (Polarity × Nat)) (m : PolarMap Var)
    (env : Nat → Nat → TypeTree) (n : Nat) : Prop where
  own : ∀ x < t.size, ∀ k < n, env x (k + 1) = .var x
  back : ∀ {q w b}, (q, w.id) ∈ path → m.find? q w = some b →
    ∀ k < n, env b.id (k + 1) = t.writtenOut (k + 1) q (.var w)

def Reads (t : BoundTable) (path : List (Polarity × Nat)) (m : PolarMap Var) (p : Polarity)
    (ty : Ty) (e : TypeExpr) : Prop :=
  ∀ ⦃env n⦄, Agrees t path m env n → e.unfold .nodes env n = t.writtenOut n p ty

theorem Agrees.le (h : Agrees t path m env n) (hk : k ≤ n) : Agrees t path m env k :=
  ⟨fun x hx i hi => h.own x hx i (by omega), fun hq hb i hi => h.back hq hb i (by omega)⟩

theorem Agrees.cons {v : Var} (h : Agrees t path m env n)
    (hv : ∀ b, m.find? p v = some b → ∀ k < n, env b.id (k + 1) = t.writtenOut (k + 1) p (.var v)) :
    Agrees t ((p, v.id) :: path) m env n := by
  refine ⟨h.own, fun {q w b} hq hb k hk => ?_⟩
  rcases List.mem_cons.mp hq with hq | hq
  · obtain ⟨rfl, hid⟩ := Prod.mk.inj hq
    rw [m.find?_congr q hid] at hb
    rw [hv b hb k hk, t.writtenOut_var_congr _ q hid]
  · exact h.back hq hb k hk

theorem Reads.mono (h : Reads t path m p ty e) (hk : Keeps m m') : Reads t path m' p ty e :=
  fun _ _ henv => h ⟨henv.own, fun hq hb => henv.back hq (hk hb)⟩

theorem reads_arrow {param result : Ty} {e' : TypeExpr} (node : Nat)
    (hp : Reads t path m p.flip param e) (hr : Reads t path m p result e') :
    Reads t path m p (.arrow node param result) (.arrow e e') := by
  intro env n henv
  cases n with
  | zero => rfl
  | succ n =>
    rw [TypeExpr.unfold, hp (henv.le (Nat.le_succ n)), hr (henv.le (Nat.le_succ n)),
      BoundTable.writtenOut]

theorem map_unfold {ts : List Ty} {es : List TypeExpr}
    (h : List.Forall₂ (Reads t path m p) ts es) (henv : Agrees t path m env n) :
    es.map (TypeExpr.unfold .nodes env · n) = ts.map (t.writtenOut n p) :=
  (map_eq_of_forall₂ h fun _ _ _ hr => (hr henv).symm).symm

theorem reads_tuple {ts : List Ty} {es : List TypeExpr} (node : Nat)
    (h : List.Forall₂ (Reads t path m p) ts es) :
    Reads t path m p (.tuple node ts) (.tuple es) := by
  intro env n henv
  cases n with
  | zero => rfl
  | succ n =>
    rw [TypeExpr.unfold, TypeExpr.unfoldList_eq,
      map_unfold h (henv.le (Nat.le_succ n)), BoundTable.writtenOut]

theorem reads_record {fs : List (String × Ty)} {gs : List (String × TypeExpr)} (node : Nat)
    (h : List.Forall₂ (fun f g => f.1 = g.1 ∧ Reads t path m p f.2 g.2) fs gs) :
    Reads t path m p (.record node fs) (.record gs) := by
  intro env n henv
  cases n with
  | zero => rfl
  | succ n =>
    rw [TypeExpr.unfold, TypeExpr.unfoldFields_eq, BoundTable.writtenOut]
    refine congrArg TypeTree.record (map_eq_of_forall₂ h fun f _ g hfg => ?_).symm
    rw [hfg.1, hfg.2 (henv.le (Nat.le_succ n))]

variable {v : Var} {members : List TypeExpr}

theorem reads_joined (hv : v.id < t.size) (hnone : m.find? p v = none)
    (h : List.Forall₂ (Reads t ((p, v.id) :: path) m p) (t.bounds p v) members) :
    Reads t path m p (.var v) (joined p v members) := by
  intro env n henv
  cases n with
  | zero => rw [TypeExpr.unfold_zero]; rfl
  | succ n =>
    have hinner : Agrees t ((p, v.id) :: path) m env n := by
      refine (henv.le (Nat.le_succ n)).cons fun b hb => ?_
      rw [hnone] at hb
      cases hb
    rw [TypeExpr.unfold_joined env (fun i hi => henv.own v.id hv i (by omega)),
      map_unfold h hinner, BoundTable.writtenOut]

theorem reads_recursive (hm : Handed t m t') (hv : v.id < t.size) {b : Var}
    (hb : m.find? p v = some b)
    (h : List.Forall₂ (Reads t ((p, v.id) :: path) m p) (t.bounds p v) members) :
    Reads t path m p (.var v) (.recursive b.id (joined p v members)) := by
  intro env n henv
  refine TypeExpr.unfold_recursive .nodes env (fun k => t.writtenOut k p (.var v)) ?_
  intro i hi approx happrox
  have hown : ∀ x < t.size, ∀ k < n, Function.update env b.id approx x (k + 1) = .var x := by
    intro x hx k hk
    rw [Function.update_of_ne (Nat.ne_of_lt (hx.trans_le (hm.range hb).1)), henv.own x hx k hk]
  cases i with
  | zero => exact TypeExpr.unfold_zero ..
  | succ i =>
    have hself : ∀ k < i, Function.update env b.id approx b.id (k + 1) =
        t.writtenOut (k + 1) p (.var v) := by
      intro k hk
      rw [Function.update_self, happrox (k + 1) (Nat.succ_lt_succ hk)]
    -- the binder is no variable of the table, and no other place of the path has it
    have hinner : Agrees t ((p, v.id) :: path) m (Function.update env b.id approx) i := by
      refine Agrees.cons ⟨fun x hx k hk => hown x hx k (hk.trans hi), fun {q w c} hq hc k hk => ?_⟩
        ?_
      · by_cases hid : c.id = b.id
        · obtain ⟨rfl, hwv⟩ := hm.apart hc hb hid
          rw [hid, hself k hk, t.writtenOut_var_congr _ _ hwv]
        · rw [Function.update_of_ne hid, henv.back hq hc k (hk.trans hi)]
      · intro c hc
        rw [hb] at hc
        cases hc
        exact hself
    rw [TypeExpr.unfold_joined _ (fun k hk => hown v.id hv k (by omega)),
      map_unfold h hinner, BoundTable.writtenOut]

end Reads

section Tracked

variable {path : List (Polarity × Nat)} {e : TypeExpr} {es es' : List TypeExpr}

/-- Where the binders are: those that occur free belong to the path, and each one handed out in
between occurs. -/
structure Tracked (t : BoundTable) (path : List (Polarity × Nat)) (m m' : PolarMap Var)
    (es : List TypeExpr) : Prop where
  free : ∀ e ∈ es, ∀ ⦃x⦄, e.Free x →
    x < t.size ∨ ∃ q w b, (q, w.id) ∈ path ∧ m'.find? q w = some b ∧ b.id = x
  binders : ∀ e ∈ es, ∀ x ∈ e.binders, ∃ q w b, m'.find? q w = some b ∧ b.id = x
  occurs : ∀ ⦃q w b⦄, m'.find? q w = some b →
    m.find? q w = some b ∨ ∃ e ∈ es, b.id ∈ e.occurrences

namespace Tracked

theorem nil (t : BoundTable) (path : List (Polarity × Nat)) (m : PolarMap Var) :
    Tracked t path m m [] :=
  ⟨List.forall_mem_nil _, List.forall_mem_nil _, fun _ _ _ h => .inl h⟩

theorem append (h : Tracked t path m m₁ es) (h' : Tracked t path m₁ m' es') (hk : Keeps m₁ m') :
    Tracked t path m m' (es ++ es') := by
  refine ⟨fun e he x hx => ?_, fun e he x hx => ?_, fun q w b hb => ?_⟩
  · rcases List.mem_append.mp he with he | he
    · refine (h.free e he hx).imp_right ?_
      rintro ⟨q, w, b, hq, hb, hid⟩
      exact ⟨q, w, b, hq, hk hb, hid⟩
    · exact h'.free e he hx
  · rcases List.mem_append.mp he with he | he
    · obtain ⟨q, w, b, hb, hid⟩ := h.binders e he x hx
      exact ⟨q, w, b, hk hb, hid⟩
    · exact h'.binders e he x hx
  · simp only [List.mem_append, or_and_right, exists_or]
    rcases h'.occurs hb with hb | hocc
    · exact (h.occurs hb).imp_right .inl
    · exact .inr (.inr hocc)

theorem inner (he : e.Inner) (h : Tracked t path m m' e.children) : Tracked t path m m' [e] := by
  refine ⟨?_, ?_, fun q w b hb => (h.occurs hb).imp_right ?_⟩
  · rw [List.forall_mem_singleton]
    intro x hx
    obtain ⟨c, hc, hx⟩ := TypeExpr.exists_free_of_inner he hx
    exact h.free c hc hx
  · rw [List.forall_mem_singleton, TypeExpr.binders_of_inner he]
    intro x hx
    obtain ⟨c, hc, hx⟩ := List.mem_flatMap.mp hx
    exact h.binders c hc x hx
  · rintro ⟨c, hc, hx⟩
    refine ⟨e, List.mem_singleton_self e, ?_⟩
    rw [TypeExpr.occurrences_of_inner he]
    exact List.mem_flatMap_of_mem hc hx

theorem var {x : Nat} (hx : x < t.size) (path : List (Polarity × Nat)) (m : PolarMap Var) :
    Tracked t path m m [.var x] := by
  refine ⟨?_, ?_, fun _ _ _ h => .inl h⟩
  · rw [List.forall_mem_singleton]
    intro y hy
    cases hy with
    | var => exact .inl hx
    | child hc => cases hc
  · rw [List.forall_mem_singleton]
    exact List.forall_mem_nil _

variable {p : Polarity} {v b : Var} {members : List TypeExpr}

theorem back (hv : (p, v.id) ∈ path) (hb : m'.find? p v = some b)
    (hnew : ∀ ⦃q w c⦄, m'.find? q w = some c → m.find? q w = some c ∨ c = b) :
    Tracked t path m m' [.var b.id] := by
  refine ⟨?_, ?_, fun q w c hc => (hnew hc).imp_right ?_⟩
  · rw [List.forall_mem_singleton]
    intro x hx
    cases hx with
    | var => exact .inr ⟨p, v, b, hv, hb, rfl⟩
    | child hc => cases hc
  · rw [List.forall_mem_singleton]
    exact List.forall_mem_nil _
  · rintro rfl
    exact ⟨_, List.mem_singleton_self _, List.mem_singleton_self _⟩

theorem joined (hv : v.id < t.size) (h : Tracked t path m m' members) (hk : Keeps m m') :
    Tracked t path m m' [Expansion.joined p v members] := by
  have hall := (Tracked.var hv path m).append h hk
  rcases members with - | ⟨e, es⟩
  · exact hall
  · cases p <;> exact inner trivial hall

theorem of_find?_eq_none (hnone : m'.find? p v = none)
    (h : Tracked t ((p, v.id) :: path) m m' es) : Tracked t path m m' es := by
  refine ⟨fun e he x hx => (h.free e he hx).imp_right ?_, h.binders, h.occurs⟩
  rintro ⟨q, w, b, hq, hb, hid⟩
  refine ⟨q, w, b, (List.mem_cons.mp hq).resolve_left fun heq => ?_, hb, hid⟩
  obtain ⟨rfl, hw⟩ := Prod.mk.inj heq
  rw [m'.find?_congr q hw, hnone] at hb
  cases hb

theorem recursive (hb : m'.find? p v = some b)
    (h : Tracked t ((p, v.id) :: path) m m' [e]) : Tracked t path m m' [.recursive b.id e] := by
  refine ⟨?_, ?_, fun q w c hc => (h.occurs hc).imp_right ?_⟩
  · rw [List.forall_mem_singleton]
    intro x hx
    obtain ⟨hne, hx⟩ := TypeExpr.free_recursive hx
    refine (h.free e (List.mem_singleton_self e) hx).imp_right ?_
    rintro ⟨q, w, c, hq, hc, rfl⟩
    refine ⟨q, w, c, (List.mem_cons.mp hq).resolve_left fun heq => hne ?_, hc, rfl⟩
    obtain ⟨rfl, hw⟩ := Prod.mk.inj heq
    rw [m'.find?_congr q hw, hb] at hc
    cases hc
    rfl
  · rw [List.forall_mem_singleton]
    refine List.forall_mem_cons.mpr ⟨⟨p, v, b, hb, rfl⟩, ?_⟩
    exact h.binders e (List.mem_singleton_self e)
  · rintro ⟨e', he, hx⟩
    obtain rfl := List.mem_singleton.mp he
    exact ⟨_, List.mem_singleton_self _, List.mem_cons_of_mem _ hx⟩

end Tracked

end Tracked

section Run

variable {path : List (Polarity × Nat)} {visit : Polarity → Var → ExpandM TypeExpr}

def Writes (t : BoundTable) (path : List (Polarity × Nat)) (p : Polarity) (ty : Ty)
    (m m' : PolarMap Var) (e : TypeExpr) : Prop :=
  Reads t path m' p ty e ∧ Tracked t path m m' [e]

theorem ofElems_yields {ts : List Ty} {p : Polarity}
    (h : ∀ ty ∈ ts, Yields t (ofTy visit p ty) (Writes t path p ty)) :
    Yields t (ofElems visit p ts) fun m m' es =>
      List.Forall₂ (Reads t path m' p) ts es ∧ Tracked t path m m' es := by
  induction ts with
  | nil => exact .pure fun m _ _ => ⟨.nil, .nil t path m⟩
  | cons ty ts ih =>
    rw [List.forall_mem_cons] at h
    refine h.1.bind fun e => (ih h.2).bind fun es => .pure ?_
    intro m' _ _ m₁ hk _ hes m _ _ he
    exact ⟨.cons (he.1.mono hk) hes.1, he.2.append hes.2 hk⟩

theorem ofFields_yields {fs : List (String × Ty)} {p : Polarity}
    (h : ∀ f ∈ fs, Yields t (ofTy visit p f.2) (Writes t path p f.2)) :
    Yields t (ofFields visit p fs) fun m m' gs =>
      List.Forall₂ (fun f g => f.1 = g.1 ∧ Reads t path m' p f.2 g.2) fs gs ∧
        Tracked t path m m' (gs.map Prod.snd) := by
  induction fs with
  | nil => exact .pure fun m _ _ => ⟨.nil, .nil t path m⟩
  | cons f fs ih =>
    rw [List.forall_mem_cons] at h
    refine h.1.bind fun e => (ih h.2).bind fun gs => .pure ?_
    intro m' _ _ m₁ hk _ hgs m _ _ he
    exact ⟨.cons ⟨rfl, he.1.mono hk⟩ hgs.1, he.2.append hgs.2 hk⟩

theorem ofTy_yields (hv : ∀ p v, t.Owns v → Yields t (visit p v) (Writes t path p (.var v)))
    {ty : Ty} (h : ty.InScope t) (p : Polarity) :
    Yields t (ofTy visit p ty) (Writes t path p ty) := by
  induction ty generalizing p with
  | base b =>
    refine .pure fun m _ _ => ⟨fun env n _ => ?_, .inner trivial (.nil t path m)⟩
    cases n <;> rfl
  | var v => exact hv p v h
  | arrow node q r ihq ihr =>
    refine (ihq h.1 p.flip).bind fun a => (ihr h.2 p).bind fun b => .pure ?_
    intro m' _ _ m₁ hk _ hb m _ _ ha
    exact ⟨reads_arrow node (ha.1.mono hk) hb.1, .inner trivial (ha.2.append hb.2 hk)⟩
  | tuple node ts ih =>
    rw [Ty.InScope, Ty.forall_tuple] at h
    refine (ofElems_yields fun ty hty => ih ty hty (h ty hty) p).bind fun es => .pure ?_
    intro m' _ _ m _ _ hes
    exact ⟨reads_tuple node hes.1, .inner trivial hes.2⟩
  | record node fs ih =>
    rw [Ty.InScope, Ty.forall_record] at h
    refine (ofFields_yields fun f hf => ih f hf (h.2 f hf) p).bind fun gs => .pure ?_
    intro m' _ _ m _ _ hgs
    exact ⟨reads_record node hgs.1, .inner trivial hgs.2⟩

theorem binderFor_yields (p : Polarity) (v : Var) :
    Yields t (binderFor p v) fun m m' b => m'.find? p v = some b ∧
      ∀ ⦃q w c⦄, m'.find? q w = some c → m.find? q w = some c ∨ c = b := by
  intro m s b m' s' hm hrun
  rw [binderFor, Session.perform_copy_bind_of_ok (Session.perform_copy_get s m)] at hrun
  cases hv : m.find? p v with
  | some c =>
    rw [hv] at hrun
    cases hrun
    exact ⟨hm, fun _ _ _ h => h, hv, fun _ _ _ h => .inl h⟩
  | none =>
    rw [hv] at hrun
    cases hrun
    refine ⟨hm.insert hv, keeps_insert hv _, ?_, fun q w c hc => ?_⟩
    · rw [PolarMap.find?_insert, if_pos ⟨rfl, rfl⟩]
    · exact (find?_insert_cases hc).symm.imp_right fun h => h.2.2

theorem ofVar_yields (hs : t.Scoped fun _ => True) (fuel : Nat) (path : List (Polarity × Nat))
    (p : Polarity) {v : Var} (hv : t.Owns v) :
    Yields t (ofVar fuel path p v) (Writes t path p (.var v)) := by
  induction fuel generalizing path p v with
  | zero => exact .throw _
  | succ fuel ih =>
    rw [ofVar]
    split
    case isTrue hmem =>
      refine (binderFor_yields p v).bind fun b => .pure ?_
      rintro m' _ - m - - ⟨hb, hnew⟩
      have hpath : (p, v.id) ∈ path := List.contains_iff_mem.mp hmem
      refine ⟨fun env n henv => ?_, .back hpath hb hnew⟩
      cases n with
      | zero => rfl
      | succ n => exact henv.back hpath hb n (Nat.lt_succ_self n)
    case isFalse =>
      refine .table fun t' ht => ?_
      rw [ht.bounds_eq p v]
      have hbounds : ∀ b ∈ t.bounds p v, Yields t (ofTy (ofVar fuel ((p, v.id) :: path)) p b)
          (Writes t ((p, v.id) :: path) p b) :=
        fun b hb => ofTy_yields (fun q w hw => ih ((p, v.id) :: path) q hw) (hs p v b hb) p
      refine (ofElems_yields hbounds).bind fun members => .get fun m₁ => ?_
      cases hfound : m₁.find? p v with
      | some b =>
        refine .pure ?_
        rintro _ t'' hm rfl m hk - ⟨hreads, htracked⟩
        exact ⟨reads_recursive hm hv.lt_size hfound hreads,
          (htracked.joined hv.lt_size hk).recursive hfound⟩
      | none =>
        refine .pure ?_
        rintro _ t'' hm rfl m hk - ⟨hreads, htracked⟩
        exact ⟨reads_joined hv.lt_size hfound hreads,
          (htracked.joined hv.lt_size hk).of_find?_eq_none hfound⟩

end Run

end Expansion

theorem Expansion.handed_empty (t : BoundTable) : Handed t .empty t := by
  refine ⟨.refl t, fun h => ?_, fun h => ?_, fun hle hlt => absurd hlt (Nat.not_lt.mpr hle)⟩
  · rw [PolarMap.find?_empty] at h
    cases h
  · rw [PolarMap.find?_empty] at h
    cases h

/-- A type written out with its bounds, whatever cycles they have, comes back with no bound
changed. Each variable made for it is the binder of a recursive type and occurs inside such a type
only, and down to every depth it reads as the tree in which each variable stands beside its
bounds. -/
theorem expandBounds_exact {s : Session} {ty : Ty} (hs : s.table.Scoped fun _ => True)
    (hty : ty.InScope s.table) (p : Polarity) :
    ∃ e s', s.perform (expandBounds p ty) = (.ok e, s') ∧
      (∀ q v, s'.table.bounds q v = s.table.bounds q v) ∧
      (∀ x, x ∈ e.binders ↔ s.table.size ≤ x ∧ x < s'.table.size) ∧
      (∀ x, s.table.size ≤ x → ¬e.Free x) ∧
      ∀ n, e.unfold .nodes (fun x _ => .var x) n = s.table.writtenOut n p ty := by
  obtain ⟨e, m, s', hrun, hadds⟩ := Expansion.ofTy_returns s.table p ty .empty s (.refl _)
  have hvisit : ∀ q v, s.table.Owns v → Expansion.Yields s.table
      (Expansion.ofVar (2 * s.table.size + 1) [] q v) (Expansion.Writes s.table [] q (.var v)) :=
    fun q v hv => Expansion.ofVar_yields hs _ [] q hv
  obtain ⟨hm, -, hreads, htracked⟩ :=
    Expansion.ofTy_yields hvisit hty p (Expansion.handed_empty s.table) hrun
  have hfree : ∀ x, s.table.size ≤ x → ¬e.Free x := by
    intro x hx hfree
    rcases htracked.free e (List.mem_singleton_self e) hfree with hlt | ⟨q, w, b, hq, -⟩
    · exact Nat.not_lt.mpr hx hlt
    · cases hq
  refine ⟨e, s', perform_expandBounds hrun, hadds.bounds_eq, fun x => ⟨fun hx => ?_, ?_⟩, hfree, ?_⟩
  · obtain ⟨q, w, b, hb, rfl⟩ := htracked.binders e (List.mem_singleton_self e) x hx
    exact hm.range hb
  · rintro ⟨hle, hlt⟩
    obtain ⟨q, w, b, hb, rfl⟩ := hm.all hle hlt
    rcases htracked.occurs hb with hold | ⟨e', he, hocc⟩
    · rw [PolarMap.find?_empty] at hold
      cases hold
    · obtain rfl := List.mem_singleton.mp he
      exact (TypeExpr.free_or_mem_binders hocc).resolve_left (hfree _ hle)
  · refine fun n => hreads ⟨fun _ _ _ _ => rfl, fun {q w b} hq => ?_⟩
    cases hq

def mutualBounds : BoundTable :=
  (((BoundTable.empty.addVar 0).addVar 0).addBound .positive ⟨0, 0⟩
    (.var ⟨1, 0⟩)).addBound .positive ⟨1, 0⟩ (.var ⟨0, 0⟩)

theorem expandBounds_exact_mutualBounds :
    mutualBounds.Scoped (fun _ => True) ∧
      (Ty.tuple 0 [.var ⟨0, 0⟩, .var ⟨1, 0⟩]).InScope mutualBounds ∧
      ∃ e s', Session.perform ⟨mutualBounds, 1, []⟩
          (expandBounds .positive (.tuple 0 [.var ⟨0, 0⟩, .var ⟨1, 0⟩])) = (.ok e, s') ∧
        (∀ q v, s'.table.bounds q v = mutualBounds.bounds q v) ∧
        (∀ x, x ∈ e.binders ↔ 2 ≤ x ∧ x < s'.table.size) ∧
        (∀ x, 2 ≤ x → ¬e.Free x) ∧
        ∀ n, e.unfold .nodes (fun x _ => .var x) n =
          mutualBounds.writtenOut n .positive (.tuple 0 [.var ⟨0, 0⟩, .var ⟨1, 0⟩]) := by
  have hscoped : mutualBounds.Scoped fun _ => True := by
    have hempty := BoundTable.scoped_empty fun _ => True
    unfold mutualBounds
    refine (((hempty.addVar 0).addVar 0).addBound ?_ ?_ .positive).addBound ?_ ?_ .positive
    · rfl
    · rfl
    · rfl
    · rfl
  have hty : (Ty.tuple 0 [.var ⟨0, 0⟩, .var ⟨1, 0⟩]).InScope mutualBounds := ⟨rfl, rfl, trivial⟩
  exact ⟨hscoped, hty, expandBounds_exact (s := ⟨mutualBounds, 1, []⟩) hscoped hty .positive⟩

end Biunify
