import Biunify.Proofs.Bundle.Key
import Biunify.Proofs.BundleGraph.Growth
import Biunify.Proofs.Relate.Soundness

/-! A bundle graph is a finite writing of an infinite tree. The tree of a bundle has in every
place the bounds of its variables absorbed, and no memory of what was met above. The graph of
a type unfolds to that tree at every depth, as long as no two bundles of different trees are taken
for the same; and the key by which they are told apart misses nothing but empty records. -/

namespace Biunify

def Unfolding : Nat → Type
  | 0 => Unit
  | depth + 1 => Layer (Unfolding depth)

namespace Layer

variable {α β γ : Type}

def mapAt (p : Polarity) (f : Polarity → α → β) (l : Layer α) : Layer β :=
  { vars := l.vars
    bases := l.bases
    tuple := l.tuple.map (List.map (f p))
    record := l.record.map (List.map fun entry => (entry.1, f p entry.2))
    func := l.func.map fun parts => (f p.flip parts.1, f p parts.2)
    top := l.top }

theorem Rel.map_eq {R : Polarity → α → β → Prop} {p : Polarity} {l : Layer α} {l' : Layer β}
    (h : l.Rel R p l') {f : β → γ} {g : Polarity → α → γ}
    (hfg : ∀ q a b, l.Child p q a → R q a b → g q a = f b) : l.mapAt p g = l'.map f := by
  rcases l with ⟨vars, bases, tuple, record, func, top⟩
  rcases l' with ⟨vars', bases', tuple', record', func', top'⟩
  obtain ⟨rfl, rfl, rfl, htuple, hrecord, hfunc⟩ := h
  have htuple : tuple.map (List.map (g p)) = tuple'.map (List.map f) := by
    cases htuple with
    | none => rfl
    | some hl => exact congrArg some (map_eq_of_forall₂ hl fun a ha b => hfg p a b (.elem rfl ha))
  have hrecord : record.map (List.map fun e => (e.1, g p e.2)) =
      record'.map (List.map fun e => (e.1, f e.2)) := by
    cases hrecord with
    | none => rfl
    | some hl =>
      refine congrArg some (map_eq_of_forall₂ hl fun a ha b hab => ?_)
      exact Prod.ext hab.1 (hfg p _ _ (.field rfl ha) hab.2)
  have hfunc : func.map (fun e => (g p.flip e.1, g p e.2)) = func'.map fun e => (f e.1, f e.2) := by
    cases hfunc with
    | none => rfl
    | some hf =>
      exact congrArg some (Prod.ext (hfg _ _ _ (.param rfl) hf.1) (hfg _ _ _ (.result rfl) hf.2))
  simp only [map, mapAt, htuple, hrecord, hfunc]

end Layer

/-- The tree of a bundle read at a polarity. -/
def Bundle.unfold (t : BoundTable) : (depth : Nat) → Polarity → Bundle → Unfolding depth
  | 0, _, _ => ()
  | depth + 1, p, b => (b.absorb t p).layer.mapAt p (Bundle.unfold t depth)

theorem Bundle.unfold_congr {t : BoundTable} {p : Polarity} {b c : Bundle}
    (h : b.absorb t p = c.absorb t p) (n : Nat) : b.unfold t n p = c.unfold t n p := by
  cases n with
  | zero => rfl
  | succ n => rw [unfold, unfold, h]

namespace BundleGraph

def resolve (g : BundleGraph) (b : Bundle) : Bundle :=
  match b.layer.vars.items with
  | [v] =>
    if ({ b.layer with vars := .empty } : Layer Bundle).isEmpty then (g.cycles.find? v).getD b
    else b
  | _ => b

def unfoldBundle (g : BundleGraph) : (depth : Nat) → Bundle → Unfolding depth
  | 0, _ => ()
  | depth + 1, b => (g.resolve b).layer.map (g.unfoldBundle depth)

def unfold (g : BundleGraph) (depth : Nat) : Unfolding depth := g.unfoldBundle depth g.root

theorem resolve_ofVar {g : BundleGraph} {v : Var} {body : Bundle}
    (h : g.cycles.find? v = some body) : g.resolve (.ofVar v) = body := by
  show (if ({ vars := .empty } : Layer Bundle).isEmpty then (g.cycles.find? v).getD (.ofVar v)
    else .ofVar v) = body
  rw [h]
  rfl

theorem resolve_of_not_cycles {g : BundleGraph} {b : Bundle}
    (h : ∀ v ∈ b.layer.vars.items, g.cycles.find? v = none) : g.resolve b = b := by
  rw [resolve]
  split
  case h_1 v hv =>
    rw [h v (hv ▸ List.mem_singleton_self v)]
    split <;> rfl
  case h_2 => rfl

theorem unfoldBundle_of_stands {t : BoundTable} {met : Polarity → Bundle → Prop} {growth : Growth}
    {s : Session} (hs : growth.Sound t met [] s)
    (hdown : ∀ p b q c, met p b → (b.absorb t p).layer.Child p q c → met q c)
    (hmark : ∀ p b c, MetAgain t met (b.key, p) → met p b → met p c → b.key = c.key →
      ∀ n, b.unfold t n p = c.unfold t n p)
    (hold : ∀ p b, met p b → ∀ v ∈ (b.absorb t p).layer.vars.items, v.id < t.size)
    (root : Bundle) (n : Nat) {depth : Nat} {p : Polarity} {b b' : Bundle} (hb : met p b)
    (h : Stands t growth.nameOf? depth p b b') :
    b.unfold t n p = unfoldBundle ⟨root, growth.cycles⟩ n b' := by
  induction n generalizing depth p b b' with
  | zero => rfl
  | succ n ih =>
    have hlayer : ∀ {depth : Nat} {c body : Bundle}, met p c →
        (c.absorb t p).layer.Rel (Stands t growth.nameOf? depth) p body.layer →
        c.unfold t (n + 1) p = body.layer.map (unfoldBundle ⟨root, growth.cycles⟩ n) :=
      fun hc hrel => hrel.map_eq fun q d d' hd => ih (hdown p _ q d hc hd)
    cases depth with
    | zero => cases h
    | succ depth =>
      rcases h with ⟨v, hv, rfl⟩ | hrel
      · -- the body of the variable grew from a bundle of the same mark, so of the same tree
        rcases hs.finished hv with hmem | ⟨body, hbody, q, c, depth, heq, hc, hrel⟩
        · cases hmem
        obtain ⟨hkey, rfl⟩ := Prod.mk.inj heq
        rw [hmark p b c (hs.again hv) hb hc hkey, unfoldBundle, resolve_ofVar hbody]
        exact hlayer hc hrel
      · have hvars : ∀ v ∈ b'.layer.vars.items, growth.cycles.find? v = none := by
          intro v hv
          by_contra hsome
          obtain ⟨body, hbody⟩ := Option.ne_none_iff_exists'.mp hsome
          have hlt := hold p b hb v (hrel.vars ▸ hv)
          exact absurd (hs.cycles hbody) (Nat.not_le.mpr hlt)
        rw [unfoldBundle, resolve_of_not_cycles hvars]
        exact hlayer hb hrel

end BundleGraph

/-- Where a bundle is met again below itself, up to empty records, every bundle that is met at the
polarity and differs from it in empty records only has the same tree. -/
def BoundTable.KeySuffices (t : BoundTable) (p : Polarity) (b : Bundle) : Prop :=
  ∀ q c d e, t.Meets p b q c → t.MeetsBelow q c q d → t.Meets p b q e →
    c.SameFields d → c.SameFields e → ∀ n, c.unfold t n q = e.unfold t n q

theorem Material.plain_covers {t : BoundTable} (h : t.Scoped Ty.FieldNames) :
    (plain t).Covers t {ty | ty.Forall t.Owns Ty.FieldNames} :=
  covers_of_scoped h fun hns => hns.2

/-- The graph of a type is found. At every depth it unfolds to the tree of the type, unless an
empty record makes the difference between the trees of bundles that are met again. -/
theorem BundleGraph.unfold_ofTy {s : Session} {ty : Ty} (hs : s.table.Scoped Ty.FieldNames)
    (hty : ty.Forall s.table.Owns Ty.FieldNames)
    (hkeys : s.table.KeySuffices .positive (.ofTy s.table .positive ty)) :
    ∃ g s', s.Settles (fun fuel => ofTy fuel ty) (.ok g) s' ∧
      ∀ n, g.unfold n = (Bundle.ofTy s.table .positive ty).unfold s.table n .positive := by
  obtain ⟨root, growth, s', depth, hsettles, hsound, hroot⟩ := ofTy_settles s ty
  obtain ⟨most, hmost⟩ := Bundle.exists_depth (Material.plain_covers hs) hty .positive
  refine ⟨⟨root, growth.cycles⟩, s', hsettles, fun n => Eq.symm ?_⟩
  refine unfoldBundle_of_stands hsound (fun p b q c hb hc => hb.down hc) ?_ ?_ root n .start hroot
  · -- both bundles have the tree of the one that was met again, as the three have one key
    rintro p b c ⟨_, d, e, hmark, hed, hd, he⟩ hb hc hbc n
    obtain ⟨hbd, rfl⟩ := Prod.mk.inj hmark
    have hsame : ∀ x, s.table.Meets .positive (.ofTy s.table .positive ty) p x → d.key = x.key →
        d.SameFields x := fun x hx =>
      Bundle.sameFields_of_key_eq (hmost p d hd).1 (hmost p x hx).1
    have hde := hsame e (hd.of_below he) hed.symm
    calc b.unfold s.table n p = d.unfold s.table n p :=
          (hkeys p d e b hd he hb hde (hsame b hb hbd.symm) n).symm
      _ = c.unfold s.table n p := hkeys p d e c hd he hc hde (hsame c hc (hbd.symm.trans hbc)) n
  · intro p b hb v hv
    exact BoundTable.Owns.lt_size ((hmost p b hb).2.vars v hv)

def keptRecord : BoundTable :=
  (((BoundTable.empty.addVar 0).addBound .positive ⟨0, 0⟩
    (.arrow 0 (.base .int) (.var ⟨0, 0⟩))).addBound .positive ⟨0, 0⟩
    (.arrow 2 (.base .int) (.record 1 []))).addBound .positive ⟨0, 0⟩ (.record 3 [])

theorem keptRecord_scoped : keptRecord.Scoped Ty.FieldNames := by
  have hempty := BoundTable.scoped_empty Ty.FieldNames
  unfold keptRecord
  refine (((hempty.addVar 0).addBound ?_ ?_ .positive).addBound ?_ ?_ .positive).addBound
    ?_ ?_ .positive
  · rfl
  · exact ⟨trivial, rfl⟩
  · rfl
  · exact ⟨trivial, by decide, trivial⟩
  · rfl
  · exact ⟨by decide, trivial⟩

theorem keptRecord_meets {q : Polarity} {c : Bundle}
    (h : keptRecord.Meets .positive (.ofTy keptRecord .positive (.var ⟨0, 0⟩)) q c) :
    q = .positive ∧ (c = .ofVar ⟨0, 0⟩ ∨
        c = .node { vars := .singleton ⟨0, 0⟩, record := some [] }) ∨
      q = .negative ∧ c = .ofBase .int := by
  induction h with
  | start => exact .inl ⟨rfl, .inl rfl⟩
  | @down q r c d _ hd ih =>
    obtain ⟨rfl, hc⟩ | ⟨rfl, rfl⟩ := ih
    · -- the variable absorbs an empty record, also where it stands beside none
      have hlayer : (c.absorb keptRecord .positive).layer =
          { vars := .singleton ⟨0, 0⟩, record := some [], func := some (.ofBase .int,
              .node { vars := .singleton ⟨0, 0⟩, record := some [] }) } := by
        rcases hc with rfl | rfl <;> rfl
      rw [hlayer] at hd
      cases hd with
      | elem h => cases h
      | field h hf => cases h; cases hf
      | param h => cases h; exact .inr ⟨rfl, rfl⟩
      | result h => cases h; exact .inl ⟨rfl, .inr rfl⟩
    · cases hd with
      | elem h | field h | param h | result h => cases h

theorem keptRecord_keySuffices :
    keptRecord.KeySuffices .positive (.ofTy keptRecord .positive (.var ⟨0, 0⟩)) := by
  intro q c d e hc _ he _ _
  refine Bundle.unfold_congr ?_
  rcases keptRecord_meets hc with ⟨rfl, hc'⟩ | ⟨rfl, rfl⟩
  · obtain ⟨-, he'⟩ | ⟨hq, -⟩ := keptRecord_meets he
    · rcases hc' with rfl | rfl <;> rcases he' with rfl | rfl <;> rfl
    · cases hq
  · obtain ⟨hq, -⟩ | ⟨-, rfl⟩ := keptRecord_meets he
    · cases hq
    · rfl

theorem BundleGraph.unfold_ofTy_keptRecord :
    keptRecord.Scoped Ty.FieldNames ∧
      keptRecord.KeySuffices .positive (.ofTy keptRecord .positive (.var ⟨0, 0⟩)) ∧
      ∃ g s', Session.Settles ⟨keptRecord, 4, []⟩ (fun fuel => ofTy fuel (.var ⟨0, 0⟩)) (.ok g) s' ∧
        ∀ n, g.unfold n =
          (Bundle.ofTy keptRecord .positive (.var ⟨0, 0⟩)).unfold keptRecord n .positive := by
  have hs : (Session.mk keptRecord 4 []).table.Scoped Ty.FieldNames := keptRecord_scoped
  have hty : (Ty.var ⟨0, 0⟩).Forall (Session.mk keptRecord 4 []).table.Owns Ty.FieldNames := rfl
  exact ⟨keptRecord_scoped, keptRecord_keySuffices, unfold_ofTy hs hty keptRecord_keySuffices⟩

def lostRecord : BoundTable :=
  ((BoundTable.empty.addVar 0).addBound .positive ⟨0, 0⟩
    (.arrow 0 (.base .int) (.var ⟨0, 0⟩))).addBound .positive ⟨0, 0⟩
    (.arrow 2 (.base .int) (.record 1 []))

theorem lostRecord_scoped : lostRecord.Scoped Ty.FieldNames := by
  have hempty := BoundTable.scoped_empty Ty.FieldNames
  unfold lostRecord
  refine ((hempty.addVar 0).addBound ?_ ?_ .positive).addBound ?_ ?_ .positive
  · rfl
  · exact ⟨trivial, rfl⟩
  · rfl
  · exact ⟨trivial, by decide, trivial⟩

/-- The result of the function should be the variable or an empty record. That is taken for the
variable alone, which has not been finished; so the graph has no record there. -/
def lostRecordGraph : BundleGraph where
  root := .ofVar ⟨1, 0⟩
  cycles := .insert .empty ⟨1, 0⟩
    (.node { vars := .singleton ⟨0, 0⟩, func := some (.ofBase .int, .ofVar ⟨1, 0⟩) })

theorem BundleGraph.unfold_lostRecord_ne :
    lostRecord.Scoped Ty.FieldNames ∧ (Ty.var ⟨0, 0⟩).Forall lostRecord.Owns Ty.FieldNames ∧
      ∃ s', Session.Settles ⟨lostRecord, 3, []⟩ (fun fuel => ofTy fuel (.var ⟨0, 0⟩))
          (.ok lostRecordGraph) s' ∧
        lostRecordGraph.unfold 2 ≠
          (Bundle.ofTy lostRecord .positive (.var ⟨0, 0⟩)).unfold lostRecord 2 .positive := by
  have hrun : ∃ s', ∀ fuel, Session.perform ⟨lostRecord, 3, []⟩ (ofTy (fuel + 3) (.var ⟨0, 0⟩)) =
      (.ok lostRecordGraph, s') := ⟨_, fun _ => rfl⟩
  obtain ⟨s', hrun⟩ := hrun
  refine ⟨lostRecord_scoped, rfl, s', ⟨nofun, 3, fun more hmore => ?_⟩, fun heq => ?_⟩
  · obtain ⟨fuel, rfl⟩ := Nat.exists_eq_add_of_le' hmore
    exact hrun fuel
  · have hrecord := congrArg
      (fun tree : Layer (Layer Unit) => tree.func.map fun f => f.2.record.isSome) heq
    cases hrecord

end Biunify
