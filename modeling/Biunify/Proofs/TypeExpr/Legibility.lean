import Biunify.Proofs.TypeExpr.Levels

/-! The text of a type expression determines it, but for its variables and for the tuples that
print as their one element does. Below the operators stand the binders that follow the body of a
recursive type, and below these a text that tells what it is by its first character; what it has in
parentheses is read from the weakest level again. -/

namespace Biunify
namespace TypeExpr

open Ty.Key

section Faces

/-- What an expression shows in the tightest context: a group has the parentheses of a tuple or
those that group an operator, with what stands between them. -/
inductive Face where
  | top
  | bottom
  | base (b : BaseTy)
  | var (x : Nat)
  | group (ts : List TypeExpr)
  | record (fields : List (String × TypeExpr))

namespace Face

def text : Face → List Char
  | top => ['⊤']
  | bottom => ['⊥']
  | base b => b.name.toList
  | var x => (varName x).toList
  | group ts => '(' :: (items (ts.map (TypeExpr.text 0)) ++ [')'])
  | record fields => '\x7b' :: (items (fields.map (ofField (TypeExpr.text 0))) ++ ['\x7d'])

def ungroup (outer : Nat) : Face → TypeExpr
  | top => .top
  | bottom => .bottom
  | base b => .base b
  | var x => .var x
  | group ts => tupleIn outer (ts.map (TypeExpr.ungroup 0))
  | record fields => .record (fields.map fun f => (f.1, f.2.ungroup 0))

def Forall (P : TypeExpr → Prop) : Face → Prop
  | group ts => ∀ t ∈ ts, P t
  | record fields => ∀ f ∈ fields, Ty.PlainName f.1 ∧ P f.2
  | _ => True

inductive Rel : Face → Face → Prop
  | top : Rel top top
  | bottom : Rel bottom bottom
  | base (b : BaseTy) : Rel (base b) (base b)
  | var (x : Nat) : Rel (var x) (var x)
  | group {ts us : List TypeExpr} (h : List.Forall₂ (Alike arrowPrec) ts us) :
    Rel (group ts) (group us)
  | record {fs gs : List (String × TypeExpr)}
    (h : List.Forall₂ (fun f g => f.1 = g.1 ∧ Alike arrowPrec f.2 g.2) fs gs) :
    Rel (record fs) (record gs)

theorem Rel.ungroup_eq {a b : Face} (h : Rel a b) (outer : Nat) :
    a.ungroup outer = b.ungroup outer := by
  cases h with
  | top | bottom | base | var => rfl
  | group h =>
    exact congrArg (tupleIn outer) (map_eq_of_forall₂ h fun _ _ _ hxy =>
      hxy 0 (fits_arrowPrec 0 _) (fits_arrowPrec 0 _))
  | record h =>
    refine congrArg TypeExpr.record (map_eq_of_forall₂ h fun f _ g hfg => ?_)
    rw [hfg.1, hfg.2 0 (fits_arrowPrec 0 _) (fits_arrowPrec 0 _)]

def kind (c : Char) : Nat :=
  if c = '⊤' then 0
  else if c = '⊥' then 1
  else if c.isAlpha then 2
  else if c = '\'' then 3
  else if c = '(' then 4
  else if c = '\x7b' then 5
  else 6

theorem kind_head (a : Face) (r : List Char) : (a.text ++ r).head?.map kind = some a.ctorIdx := by
  cases a with
  | base b => cases b <;> rfl
  | var x => rw [text, toList_varName]; rfl
  | _ => rfl

end Face

def face : TypeExpr → Face
  | top => .top
  | bottom => .bottom
  | base b => .base b
  | var x => .var x
  | tuple ts => .group ts
  | record fields => .record fields
  | e => .group [e]

variable {e : TypeExpr} {outer : Nat}

theorem text_face (he : ∀ k body, e ≠ recursive k body) : text recursivePrec e = e.face.text := by
  cases e with
  | top | bottom | base | var => rfl
  | tuple ts => exact text_tuple _ ts
  | record fields => exact text_record _ fields
  | recursive k body => exact absurd rfl (he k body)
  | arrow | union | inter =>
    rw [text_eq, if_pos (by rfl)]
    simp [face, Face.text, separated]

theorem ungroup_face (he : ∀ k body, e ≠ recursive k body) (h : Fits recursivePrec outer e) :
    e.ungroup outer = e.face.ungroup outer := by
  have hgroup : ∀ {p}, e.prec? = some p → e.ungroup 0 = tupleIn outer [e.ungroup 0] := by
    intro p hp
    have hlt : p < outer := by
      have hfit := h p hp
      have hcases := prec?_cases hp
      simp only [recursivePrec] at hfit
      omega
    rw [tupleIn, if_pos]
    exact grouped_iff.mpr ⟨p, (prec?_ungroup_zero e).trans hp, hlt⟩
  cases e with
  | top | bottom | base | var => rfl
  | tuple ts => rw [ungroup, ungroupList_eq]; rfl
  | record fields => rw [ungroup, ungroupFields_eq]; rfl
  | recursive k body => exact absurd rfl (he k body)
  | arrow | union | inter => exact hgroup rfl

theorem head_join_ne {p : Polarity} {ts : List TypeExpr} (hts : (join p ts).Flat)
    (h : ∀ t ∈ ts, ∀ outer r, (text outer t ++ r).head? ≠ some ')') (r : List Char) :
    (text 0 (join p ts) ++ r).head? ≠ some ')' := by
  obtain ⟨t, ts, rfl⟩ := List.exists_cons_of_ne_nil
    (List.ne_nil_of_length_pos (Nat.zero_lt_of_lt hts.join.1))
  rw [text_join, List.map_cons, separated, List.append_assoc]
  exact h t List.mem_cons_self _ _

theorem head_text_ne (he : e.Flat) (outer : Nat) (r : List Char) :
    (text outer e ++ r).head? ≠ some ')' := by
  induction he generalizing outer r with
  | top | bottom =>
    rw [text, renderAt]
    simp
  | base b => cases b <;> simp [text, renderAt, BaseTy.name]
  | var x => simp [text, renderAt, toList_varName]
  | tuple _ _ => simp [text_tuple]
  | record _ _ _ => simp [text_record]
  | recursive k _ ih =>
    rw [text_recursive, List.append_assoc]
    exact ih _ _
  | arrow _ _ ih _ =>
    rw [text_eq]
    split
    · simp
    · rw [text_arrow, List.append_assoc]
      exact ih _ _
  | union htwo hkind h ih =>
    rw [text_eq]
    split
    · simp
    · exact head_join_ne (p := .positive) (.union htwo hkind h) ih r
  | inter htwo hkind h ih =>
    rw [text_eq]
    split
    · simp
    · exact head_join_ne (p := .negative) (.inter htwo hkind h) ih r

theorem Face.reads {a b : Face} (ha : a.Forall fun t => t.Flat ∧ Legible arrowPrec 0 t)
    (hb : b.Forall Flat) : Reads Rel text text a b := by
  intro s r hs hr h
  have hkind : a.ctorIdx = b.ctorIdx := by
    have hhead := congrArg (fun cs => cs.head?.map kind) h
    simpa only [kind_head, Option.some.injEq] using hhead
  have hreads : ∀ {t u : TypeExpr}, Legible arrowPrec 0 t → u.Flat →
      ReadsBefore (Follows arrowPrec) (Alike arrowPrec) (TypeExpr.text 0) (TypeExpr.text 0) t u :=
    fun ht hu => ht (fits_arrowPrec 0 _) _ hu (fits_arrowPrec 0 _)
  cases a with
  | top =>
    cases b with
    | top => exact ⟨.top, List.append_cancel_left h⟩
    | _ => cases hkind
  | bottom =>
    cases b with
    | bottom => exact ⟨.bottom, List.append_cancel_left h⟩
    | _ => cases hkind
  | base x =>
    cases b with
    | base y =>
      have hbase : x = y ∧ s = r := by
        cases x <;> cases y <;> simp_all [text, BaseTy.name]
      obtain ⟨rfl, hsr⟩ := hbase
      exact ⟨.base x, hsr⟩
    | _ => cases hkind
  | var x =>
    cases b with
    | var y =>
      obtain ⟨rfl, hsr⟩ := varName_reads x y s r hs hr h
      exact ⟨.var x, hsr⟩
    | _ => cases hkind
  | group ts =>
    cases b with
    | group us =>
      simp only [text, List.cons_append, List.append_assoc, List.nil_append, List.cons.injEq,
        true_and] at h
      obtain ⟨hts, hsr⟩ := closed_inj (by decide) (follows_cons (by decide) (by decide))
        (follows_cons (by decide) (by decide)) (fun t ht u hu => hreads (ha t ht).2 (hb u hu))
        (fun t ht => head_text_ne (ha t ht).1 0) (fun u hu => head_text_ne (hb u hu) 0) h
      exact ⟨.group hts, hsr⟩
    | _ => cases hkind
  | record fs =>
    cases b with
    | record gs =>
      simp only [text, List.cons_append, List.append_assoc, List.nil_append, List.cons.injEq,
        true_and] at h
      obtain ⟨hfs, hsr⟩ := closed_inj (by decide) (follows_cons (by decide) (by decide))
        (follows_cons (by decide) (by decide))
        (fun f hf g hg => ofField_reads (ha f hf).1 (hb g hg).1 (hreads (ha f hf).2.2 (hb g hg).2))
        (fun f hf => head_ofField_ne (ha f hf).1) (fun g hg => head_ofField_ne (hb g hg).1) h
      exact ⟨.record hfs, hsr⟩
    | _ => cases hkind

end Faces

section Chains

def core : TypeExpr → TypeExpr
  | recursive _ body => core body
  | e => e

def chain : TypeExpr → List Nat
  | recursive k body => chain body ++ [k]
  | _ => []

variable {t u : TypeExpr} {outer : Nat}

theorem core_ne_recursive (t : TypeExpr) : ∀ k body, t.core ≠ recursive k body := by
  induction t with
  | recursive k body ih => exact ih
  | _ => simp [core]

theorem core_of_chain (h : t.chain = []) : t.core = t := by
  cases t with
  | recursive k body => simp [chain] at h
  | _ => rfl

theorem Flat.core (h : t.Flat) : t.core.Flat := by
  induction h with
  | recursive k _ ih => exact ih
  | top => exact .top
  | bottom => exact .bottom
  | base b => exact .base b
  | var x => exact .var x
  | arrow hp hr => exact .arrow hp hr
  | tuple h => exact .tuple h
  | record hn h => exact .record hn h
  | union htwo hkind h => exact .union htwo hkind h
  | inter htwo hkind h => exact .inter htwo hkind h

theorem Flat.face (h : t.Flat) : t.face.Forall Flat := by
  cases h with
  | top | bottom | base | var => trivial
  | tuple h => exact h
  | record hnames h => exact fun f hf => ⟨hnames f hf, h f hf⟩
  | arrow hp hr => exact List.forall_mem_singleton.mpr (.arrow hp hr)
  | union htwo hkind h => exact List.forall_mem_singleton.mpr (.union htwo hkind h)
  | inter htwo hkind h => exact List.forall_mem_singleton.mpr (.inter htwo hkind h)
  | recursive k h => exact List.forall_mem_singleton.mpr (.recursive k h)

theorem fits_recursivePrec (t : TypeExpr) : Fits recursivePrec recursivePrec t :=
  fun p _ => Nat.lt_or_ge p recursivePrec

theorem text_chain (h : Fits recursivePrec outer t) :
    text outer t = text recursivePrec t.core ++
      (t.chain.map fun k => (varName k).toList).flatMap ([' ', 'a', 's', ' '] ++ ·) := by
  induction t generalizing outer with
  | recursive k body ih =>
    rw [text_recursive, ih (fits_recursivePrec body), core, chain]
    simp
  | _ =>
    simp only [core, chain, List.map_nil, List.flatMap_nil, List.append_nil]
    refine text_congr fun q hq => ?_
    have hfit := h q hq
    have hcases := prec?_cases hq
    simp only [recursivePrec] at hfit ⊢
    omega

theorem ungroup_chain (t : TypeExpr) (outer : Nat) :
    t.ungroup outer = t.chain.foldl (fun body k => recursive k body)
      (t.core.ungroup (if t.chain = [] then outer else recursivePrec)) := by
  induction t generalizing outer with
  | recursive k body ih => simp [ungroup, chain, core, ih recursivePrec]
  | _ => simp [core, chain]

theorem legible_of_core
    (h : ∀ u : TypeExpr, u.Flat → Reads Face.Rel Face.text Face.text t.core.face u.core.face) :
    Legible recursivePrec interPrec t := by
  intro hfit u hu hfit' s r hs hr heq
  have hmark : (recursivePrec, [' ', 'a', 's', ' ']) ∈ operators := by decide
  have hsep : ∀ r, Ends ([' ', 'a', 's', ' '] ++ r) := fun r => stops_cons _ (by decide)
  rw [text_chain hfit, text_chain hfit', text_face t.core_ne_recursive,
    text_face u.core_ne_recursive, List.append_assoc, List.append_assoc] at heq
  obtain ⟨hface, heq⟩ :=
    h u hu _ _ (follow_further hsep hs.ends) (follow_further hsep hr.ends) heq
  obtain ⟨hchain, hsr⟩ := more_inj hsep hs.ends hr.ends (hs.stops _ hmark le_rfl)
    (hr.stops _ hmark le_rfl) (fun i _ j _ => varName_reads i j) heq
  rw [List.forall₂_eq_eq_eq] at hchain
  refine ⟨fun outer hfit hfit' => ?_, hsr⟩
  have hcore : ∀ outer, Fits recursivePrec outer t.core → Fits recursivePrec outer u.core →
      t.core.ungroup outer = u.core.ungroup outer := by
    intro outer hfit hfit'
    rw [ungroup_face t.core_ne_recursive hfit, ungroup_face u.core_ne_recursive hfit',
      hface.ungroup_eq]
  rw [ungroup_chain t, ungroup_chain u, ← hchain]
  split
  case isTrue hnil =>
    rw [hcore outer]
    · rwa [core_of_chain hnil]
    · rwa [core_of_chain (hchain ▸ hnil)]
  case isFalse => rw [hcore _ (fits_recursivePrec _) (fits_recursivePrec _)]

end Chains

section Readable

variable {t u : TypeExpr}

structure Readable (t : TypeExpr) : Prop where
  face : ∀ u : TypeExpr, u.Flat → Reads Face.Rel Face.text Face.text t.core.face u.core.face
  unit : Legible recursivePrec interPrec t
  inter : Legible interPrec unionPrec t
  union : Legible unionPrec (arrowPrec + 1) t
  arrow : Legible arrowPrec 0 t

theorem legible_of_single {p : Polarity} (ht : t.Flat) (hsingle : members p t = [t])
    (h : Legible (joinInner p) (joinPrec p) t) : Legible (joinPrec p) (joinOuter p) t := by
  refine legible_of_members ht ?_
  rw [hsingle]
  exact List.forall_mem_singleton.mpr h

theorem face_of_grouped (ht : t.Flat) (hcore : t.core = t) (hface : t.face = .group [t])
    (h : Legible arrowPrec 0 t) (u : TypeExpr) (hu : u.Flat) :
    Reads Face.Rel Face.text Face.text t.core.face u.core.face := by
  refine Face.reads ?_ hu.core.face
  rw [hcore, hface]
  exact List.forall_mem_singleton.mpr ⟨ht, h⟩

theorem readable_of_face (ht : t.Flat) (hprec : t.prec? = none)
    (hface : ∀ u : TypeExpr, u.Flat → Reads Face.Rel Face.text Face.text t.core.face u.core.face) :
    Readable t := by
  have hsingle : ∀ p, members p t = [t] := by
    intro p
    rcases members_cases p t with ⟨ts, rfl, -⟩ | ⟨hsingle, -⟩
    · cases p <;> cases hprec
    · exact hsingle
  have hunit := legible_of_core hface
  have hinter := legible_of_single (p := .negative) ht (hsingle _) hunit
  have hunion := legible_of_single (p := .positive) ht (hsingle _) hinter
  refine ⟨hface, hunit, hinter, hunion, legible_of_param ?_ hunion⟩
  rintro ⟨param, result, rfl⟩
  cases hprec

theorem Flat.readable (ht : t.Flat) : Readable t := by
  -- by induction over the expression: its parts are read first, and then the levels from its own
  -- operator outwards and, in parentheses, from the face inwards
  induction ht with
  | top => exact readable_of_face .top rfl fun u hu => Face.reads trivial hu.core.face
  | bottom => exact readable_of_face .bottom rfl fun u hu => Face.reads trivial hu.core.face
  | base b => exact readable_of_face (.base b) rfl fun u hu => Face.reads trivial hu.core.face
  | var x => exact readable_of_face (.var x) rfl fun u hu => Face.reads trivial hu.core.face
  | tuple h ih =>
    refine readable_of_face (.tuple h) rfl fun u hu => Face.reads ?_ hu.core.face
    exact fun t ht => ⟨h t ht, (ih t ht).arrow⟩
  | record hnames h ih =>
    refine readable_of_face (.record hnames h) rfl fun u hu => Face.reads ?_ hu.core.face
    exact fun f hf => ⟨hnames f hf, h f hf, (ih f hf).arrow⟩
  | recursive k h ih => exact readable_of_face (.recursive k h) rfl ih.face
  | arrow hparam hresult ihparam ihresult =>
    have hflat := Flat.arrow hparam hresult
    have harrow := legible_arrow ihparam.union ihresult.arrow
    have hface := face_of_grouped hflat rfl rfl harrow
    have hunit := legible_of_core hface
    have hinter := legible_of_single (p := .negative) hflat rfl hunit
    exact ⟨hface, hunit, hinter, legible_of_single (p := .positive) hflat rfl hinter, harrow⟩
  | union htwo hkind h ih =>
    have hflat := Flat.union htwo hkind h
    have hunion := legible_of_members (p := .positive) hflat fun m hm => (ih m hm).inter
    have harrow := legible_of_param (by simp) hunion
    have hface := face_of_grouped hflat rfl rfl harrow
    have hunit := legible_of_core hface
    exact ⟨hface, hunit, legible_of_single (p := .negative) hflat rfl hunit, hunion, harrow⟩
  | inter htwo hkind h ih =>
    have hflat := Flat.inter htwo hkind h
    have hinter := legible_of_members (p := .negative) hflat fun m hm => (ih m hm).unit
    have hunion := legible_of_single (p := .positive) hflat rfl hinter
    have harrow := legible_of_param (by simp) hunion
    have hface := face_of_grouped hflat rfl rfl harrow
    exact ⟨hface, legible_of_core hface, hinter, hunion, harrow⟩

theorem ungroup_eq_of_renderAt_eq (ht : t.Flat) (hu : u.Flat)
    (h : t.renderAt varName 0 = u.renderAt varName 0) : t.ungroup 0 = u.ungroup 0 := by
  have hread := ht.readable.arrow (fits_arrowPrec 0 t) u hu (fits_arrowPrec 0 u) [] []
    (follows_nil _) (follows_nil _) (congrArg (fun s => s.toList ++ []) h)
  exact hread.1 0 (fits_arrowPrec 0 t) (fits_arrowPrec 0 u)

/-- Two types print alike exactly if they differ in the names of their variables only, once every
tuple of one element is taken away that stands where its element would be put in parentheses. -/
theorem render_eq_iff (ht : t.Flat) (hu : u.Flat) :
    t.render = u.render ↔
      ∃ f, Set.InjOn f {x | x ∈ t.vars} ∧ u.ungroup 0 = (t.ungroup 0).rename f := by
  have hvars : ∀ e : TypeExpr, Set.InjOn (fun x => e.vars.idxOf x) {x | x ∈ (e.ungroup 0).vars} := by
    intro e
    rw [vars_ungroup]
    exact injOn_idxOf e.vars
  rw [← vars_ungroup t 0]
  constructor
  · intro h
    rw [render_eq, render_eq] at h
    have hsame := ungroup_eq_of_renderAt_eq (ht.rename _) (hu.rename _) h
    rw [ungroup_rename, ungroup_rename] at hsame
    exact exists_rename_of_rename_eq hsame (hvars t) (hvars u)
  · rintro ⟨f, hf, heq⟩
    rw [← render_ungroup t, ← render_ungroup u, heq, render_rename hf]

def tupledParam : TypeExpr := arrow (tuple [arrow (var 0) (var 1)]) (var 0)

def arrowParam : TypeExpr := arrow (arrow (var 2) (var 3)) (var 2)

theorem tupledParam_flat : tupledParam.Flat :=
  .arrow (.tuple (List.forall_mem_singleton.mpr (.arrow (.var 0) (.var 1)))) (.var 0)

theorem arrowParam_flat : arrowParam.Flat := .arrow (.arrow (.var 2) (.var 3)) (.var 2)

theorem render_eq_iff_tupledParam :
    tupledParam.Flat ∧ arrowParam.Flat ∧
      (tupledParam.render = arrowParam.render ↔ ∃ f, Set.InjOn f {x | x ∈ tupledParam.vars} ∧
        arrowParam.ungroup 0 = (tupledParam.ungroup 0).rename f) :=
  ⟨tupledParam_flat, arrowParam_flat, render_eq_iff tupledParam_flat arrowParam_flat⟩

/-- The parentheses of the tuple are those that the function would have, so that a text alone does
not tell which of the two it is of. -/
theorem render_tupledParam_ambiguous :
    ¬∀ t u : TypeExpr, t.Flat → u.Flat → t.render = u.render →
      ∃ f, Set.InjOn f {x | x ∈ t.vars} ∧ u = t.rename f := by
  intro h
  have hrename : (tupledParam.ungroup 0).rename (· + 2) = arrowParam := rfl
  have hsame : tupledParam.render = arrowParam.render := by
    rw [← hrename, render_rename, render_ungroup]
    exact fun x _ y _ hxy => Nat.add_right_cancel hxy
  obtain ⟨f, -, heq⟩ := h _ _ tupledParam_flat arrowParam_flat hsame
  simp [tupledParam, arrowParam, rename] at heq

end Readable

end TypeExpr
end Biunify
