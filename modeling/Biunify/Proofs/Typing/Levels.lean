import Mathlib.Data.List.Induction
import Biunify.Proofs.Typing.Safe

/-! Levels over whole sessions. However a session is reached from an empty one, with or
without errors on the way, no bound lies deeper than its variable; and a type that is
inferred at a level does not lie deeper than that level. Generalization relies on both. -/

namespace Biunify

theorem infer_safe {fuel : Nat} {ctx : Context} {s : Session} (hctx : ctx.Fits s.table 0)
    (term : Term) : s.Safe (infer fuel ctx term) (ctx.Types 0) := by
  have hfits := Discipline.leveled_fits hctx
  exact (Discipline.infer_keeps hfits term).mono fun _ _ => Discipline.forall_leveled_iff.mp

theorem inferDefinitions_safe {fuel : Nat} (defs : List Definition) {ctx : Context} {s : Session}
    (hctx : ctx.Fits s.table 0) :
    s.Safe (inferDefinitions fuel ctx defs) fun _ _ => True :=
  Discipline.inferDefinitions_keeps defs (Discipline.leveled_fits hctx)

theorem Context.mem_of_find?_ofList {entries : List (String × Scheme)} {name : String}
    {scheme : Scheme} (h : (Context.ofList entries).find? name = some scheme) :
    (name, scheme) ∈ entries := by
  induction entries using List.reverseRecOn with
  | nil => cases h
  | append_singleton entries entry ih =>
    rw [ofList, List.foldl_append, List.foldl_cons, List.foldl_nil, find?_insert] at h
    rw [List.mem_append, List.mem_singleton]
    split at h
    case isTrue hname =>
      right
      rw [hname, ← Option.some.inj h]
    case isFalse => exact .inl (ih h)

def Scheme.Outermost (t : BoundTable) : Scheme → Prop
  | .mono ty => ty.InScope t ∧ ty.level = 0
  | .poly p => p.body.InScope t ∧ p.level = 0

theorem standardContext_outermost {s : Session} {name : String} {scheme : Scheme}
    (h : (StateT.run standardContext s).1.find? name = some scheme) :
    scheme.Outermost (StateT.run standardContext s).2.table := by
  have hbranch : (s.table.addVar 1).Owns ⟨s.table.size, 1⟩ :=
    (BoundTable.owns_addVar ..).mpr (.inr rfl)
  have hmem := Context.mem_of_find?_ofList h
  simp only [List.mem_cons, List.not_mem_nil, or_false, Prod.mk.injEq] at hmem
  obtain ⟨-, rfl⟩ | ⟨-, rfl⟩ | ⟨-, rfl⟩ | ⟨-, rfl⟩ | ⟨-, rfl⟩ | ⟨-, rfl⟩ := hmem
  · exact ⟨trivial, rfl⟩
  · exact ⟨trivial, rfl⟩
  · exact ⟨⟨trivial, trivial⟩, rfl⟩
  · exact ⟨⟨trivial, trivial⟩, rfl⟩
  · exact ⟨⟨trivial, trivial, trivial⟩, rfl⟩
  · exact ⟨⟨trivial, hbranch, hbranch, hbranch⟩, rfl⟩

theorem standardContext_fits (s : Session) (level : Nat) :
    (StateT.run standardContext s).1.Fits (StateT.run standardContext s).2.table level := by
  constructor
  · intro name scheme hf
    have hout := standardContext_outermost hf
    cases scheme with
    | mono ty => exact hout.1
    | poly p => exact hout.1
  · intro name p hf
    rw [(standardContext_outermost hf).2]
    exact Nat.zero_le level

theorem standardContext_monoWithin (s : Session) (level : Nat) :
    (StateT.run standardContext s).1.MonoWithin level := by
  intro name ty hf
  rw [(standardContext_outermost hf).2]
  exact Nat.zero_le level

/-- The sessions that an empty one leads to. Constraints and terms may fail on the way. -/
inductive Reached : Session → Prop
  | empty : Reached .empty
  | newVar {s : Session} (h : Reached s) (level : Nat) :
    Reached (StateT.run (SessionM.newVar level) s).2
  | newNode {s : Session} (h : Reached s) : Reached (StateT.run SessionM.newNode s).2
  | standardContext {s : Session} (h : Reached s) : Reached (StateT.run standardContext s).2
  | relate {s s' : Session} {fuel : Nat} {lhs rhs : Ty} {r : Except Stop Unit} (h : Reached s)
    (hl : lhs.InScope s.table) (hr : rhs.InScope s.table)
    (hrun : s.perform (relate fuel lhs rhs) = (r, s')) : Reached s'
  | specialize {s s' : Session} {scheme : Scheme} {level : Nat} {r : Except Stop Ty}
    (h : Reached s) (hs : scheme.body.InScope s.table) (hle : scheme.level ≤ level)
    (hrun : s.perform (scheme.specialize level) = (r, s')) : Reached s'
  | infer {s s' : Session} {fuel : Nat} {ctx : Context} {term : Term} {r : Except Stop Ty}
    (h : Reached s) (hctx : ctx.Fits s.table 0)
    (hrun : s.perform (infer fuel ctx term) = (r, s')) : Reached s'
  | inferProgram {s s' : Session} {fuel : Nat} {ctx : Context} {program : Program}
    {r : Except Stop (List Polytype)} (h : Reached s) (hctx : ctx.Fits s.table 0)
    (hrun : s.perform (inferProgram fuel ctx program) = (r, s')) : Reached s'

theorem Reached.sound {s : Session} (h : Reached s) : s.table.Sound := by
  induction h with
  | empty => exact ⟨BoundTable.scoped_empty _, BoundTable.leveled_empty⟩
  | newVar _ level ih => exact ih.addVar level
  | newNode _ ih => exact ih
  | standardContext _ ih => exact ih.addVar 1
  | relate _ hl hr hrun ih => exact (Session.Safe.relate _ hl hr ih _ _ hrun).2.1
  | @specialize _ _ scheme level _ _ hs hle hrun ih =>
    have hpoly : ∀ p, scheme = .poly p → p.level ≤ level := by
      rintro p rfl
      exact hle
    exact (Session.Safe.specialize hs hpoly ih _ _ hrun).2.1
  | infer _ hctx hrun ih => exact (infer_safe hctx _ ih _ _ hrun).2.1
  | inferProgram _ hctx hrun ih => exact (inferDefinitions_safe _ hctx ih _ _ hrun).2.1

/-- In a session that can be reached no bound lies deeper than its variable, and typing a
term at a level returns a type up to that level, if the context has no deeper type and no
scheme of a deeper level. -/
theorem Reached.levels_sound {s : Session} (h : Reached s) :
    s.table.Leveled ∧
      ∀ (fuel : Nat) (ctx : Context) (level : Nat) (term : Term) (ty : Ty) (s' : Session),
        ctx.Fits s.table level → ctx.MonoWithin level →
        s.perform (typeOf fuel ctx level term) = (.ok ty, s') → ty.level ≤ level := by
  refine ⟨h.sound.leveled, fun fuel ctx level term ty s' hctx hmono hrun => ?_⟩
  obtain ⟨-, -, hty⟩ := typeOf_safe term ctx level s hctx h.sound _ _ hrun
  exact (hty ty rfl).2 hmono

def afterRefusal : Context × Session :=
  let (ctx, s) := StateT.run standardContext Session.empty
  (ctx, (s.perform (infer 9 ctx (.apply (.var "succ") (.var "true")))).2)

theorem afterRefusal_performs :
    ∃ e, (StateT.run standardContext Session.empty).2.perform
      (infer 9 afterRefusal.1 (.apply (.var "succ") (.var "true"))) =
        (.error (.failed e), afterRefusal.2) := ⟨_, rfl⟩

theorem levels_sound_afterRefusal :
    Reached afterRefusal.2 ∧ afterRefusal.2.table.Leveled ∧
      ∃ ty s', afterRefusal.2.perform (typeOf 9 afterRefusal.1 1
          (.lambda "x" (.apply (.var "if") (.var "x")))) = (.ok ty, s') ∧ ty.level ≤ 1 := by
  obtain ⟨e, hrefused⟩ := afterRefusal_performs
  have hstart := Reached.standardContext .empty
  have hfits := standardContext_fits .empty 0
  obtain ⟨hextends, -, -⟩ := infer_safe hfits _ hstart.sound _ _ hrefused
  have hreached : Reached afterRefusal.2 := hstart.infer hfits hrefused
  have hmono : afterRefusal.1.MonoWithin 1 := standardContext_monoWithin .empty 1
  obtain ⟨hleveled, htyped⟩ := hreached.levels_sound
  have hok : ∃ ty s', afterRefusal.2.perform (typeOf 9 afterRefusal.1 1
      (.lambda "x" (.apply (.var "if") (.var "x")))) = (.ok ty, s') := ⟨_, _, rfl⟩
  obtain ⟨ty, s', hrun⟩ := hok
  have hfits' := hfits.extend hextends (Nat.zero_le 1)
  exact ⟨hreached, hleveled, ty, s', hrun, htyped 9 _ 1 _ ty s' hfits' hmono hrun⟩

end Biunify
