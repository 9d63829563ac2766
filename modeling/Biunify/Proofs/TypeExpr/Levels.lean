import Biunify.Proofs.TypeExpr.Grouping

/-! Reading the text of a type expression level by level, from what binds weakest to what binds
tightest: the functions along a chain of arrows, the members of a union, the members of an
intersection. At each level the reading stops where no operator of that level or of a tighter one
goes on. -/

namespace Biunify
namespace TypeExpr

open Ty.Key

section Names

theorem toList_varName (i : Nat) :
    (varName i).toList = '\'' :: Char.ofNat ('a'.toNat + i % 26) ::
      if i < 26 then [] else Nat.toDigits 10 (i / 26) := by
  rw [varName]
  split <;> simp

theorem letter_inj {i j : Nat}
    (h : Char.ofNat ('a'.toNat + i % 26) = Char.ofNat ('a'.toNat + j % 26)) : i % 26 = j % 26 := by
  have htable : ∀ a b : Fin 26,
      Char.ofNat ('a'.toNat + a) = Char.ofNat ('a'.toNat + b) → a = b := by
    decide
  have hi : i % 26 < 26 := Nat.mod_lt i (by decide)
  have hj : j % 26 < 26 := Nat.mod_lt j (by decide)
  exact congrArg Fin.val (htable ⟨i % 26, hi⟩ ⟨j % 26, hj⟩ h)

theorem varName_reads (i j : Nat) :
    Reads Eq (fun x => (varName x).toList) (fun x => (varName x).toList) i j := by
  have hnot : ∀ {n : Nat} {s t : List Char}, Ends s → s ≠ Nat.toDigits 10 n ++ t := by
    rintro n s t hs rfl
    obtain ⟨c, cs, hcs⟩ := List.exists_cons_of_ne_nil (Nat.toDigits_ne_nil (b := 10) (n := n))
    have hc : c.isDigit = true :=
      Nat.isDigit_of_mem_toDigits (by decide) (by decide) (hcs ▸ List.mem_cons_self)
    have hend := hs c (by rw [hcs]; rfl)
    rw [hc] at hend
    cases hend
  intro s t hs ht h
  simp only [toList_varName, List.cons_append, List.cons.injEq, true_and] at h
  obtain ⟨hletter, h⟩ := h
  have hmod := letter_inj hletter
  split at h <;> split at h
  · exact ⟨by omega, h⟩
  · exact absurd h (hnot hs)
  · exact absurd h.symm (hnot ht)
  · obtain ⟨hdiv, hst⟩ := digits_append_inj hs ht h
    exact ⟨by omega, hst⟩

end Names

section Follows

def operators : List (Nat × List Char) :=
  [(arrowPrec, [' ', '-', '>', ' ']), (unionPrec, [' ', '∨', ' ']), (interPrec, [' ', '∧', ' ']),
    (recursivePrec, [' ', 'a', 's', ' '])]

/-- The text goes on neither with a digit nor with an operator of this strength or more. -/
structure Follows (strength : Nat) (s : List Char) : Prop where
  ends : Ends s
  stops : ∀ op ∈ operators, strength ≤ op.1 → ¬op.2 <+: s

variable {strength : Nat}

theorem Follows.mono {tighter : Nat} {s : List Char} (h : Follows strength s)
    (hle : strength ≤ tighter) : Follows tighter s :=
  ⟨h.ends, fun op hop hst => h.stops op hop (hle.trans hst)⟩

theorem follows_nil (strength : Nat) : Follows strength [] := by
  have hstops : ∀ op ∈ operators, ¬op.2 <+: [] := by decide
  refine ⟨?_, fun op hop _ => hstops op hop⟩
  intro c hc
  cases hc

theorem follows_cons {c : Char} (hd : c.isDigit = false) (hc : c ≠ ' ') (r : List Char) :
    Follows strength (c :: r) := by
  refine ⟨stops_cons r hd, fun op hop _ => ?_⟩
  simp only [operators, List.mem_cons, List.not_mem_nil, or_false] at hop
  rcases hop with rfl | rfl | rfl | rfl <;> simp [hc.symm]

theorem follows_operator {op : Nat × List Char} (hop : op ∈ operators) (h : op.1 < strength)
    (r : List Char) : Follows strength (op.2 ++ r) := by
  have hlength : ∀ op ∈ operators, 2 ≤ op.2.length := by decide
  -- two characters are enough to tell operators apart
  have hapart : ∀ op ∈ operators, ∀ op' ∈ operators,
      op'.2.take 2 = op.2.take 2 → op'.1 = op.1 := by decide
  refine ⟨?_, fun op' hop' hle hprefix => ?_⟩
  · simp only [operators, List.mem_cons, List.not_mem_nil, or_false] at hop
    rcases hop with rfl | rfl | rfl | rfl <;> exact stops_cons _ (by decide)
  · obtain ⟨rest, hrest⟩ := hprefix
    have htake := congrArg (List.take 2) hrest
    rw [List.take_append_of_le_length (hlength op' hop'),
      List.take_append_of_le_length (hlength op hop)] at htake
    exact (h.trans_le hle).ne' (hapart op hop op' hop' htake)

end Follows

section Texts

abbrev text (outer : Nat) (e : TypeExpr) : List Char := (e.renderAt varName outer).toList

theorem text_eq (outer : Nat) (e : TypeExpr) :
    text outer e = if e.grouped outer then '(' :: (text 0 e ++ [')']) else text 0 e := by
  rw [text, renderAt_eq, parensIf]
  split <;> simp [parens]

theorem text_arrow (param result : TypeExpr) :
    text 0 (arrow param result) =
      text (arrowPrec + 1) param ++ ([' ', '-', '>', ' '] ++ text 0 result) := by
  have hresult : text arrowPrec result = text 0 result := by
    rw [text_eq, if_neg]
    rw [grouped_iff]
    rintro ⟨p, hp, hlt⟩
    cases result <;> cases hp <;> revert hlt <;> decide
  rw [← hresult]
  simp [text, renderAt, parensIf]

theorem text_tuple (outer : Nat) (ts : List TypeExpr) :
    text outer (tuple ts) = '(' :: (items (ts.map (text 0)) ++ [')']) := by
  simp [text, renderAt, parens, toList_commaSep, renderList_eq, Function.comp_def]

theorem text_record (outer : Nat) (fields : List (String × TypeExpr)) :
    text outer (record fields) = '\x7b' :: (items (fields.map (ofField (text 0))) ++ ['\x7d']) := by
  have hfields : (renderFields varName fields).map String.toList =
      fields.map (ofField (text 0)) := by
    simp [renderFields_eq, labelled, ofField, text]
  simp [text, renderAt, braces, toList_commaSep, hfields]

theorem text_recursive (outer k : Nat) (body : TypeExpr) :
    text outer (recursive k body) =
      text recursivePrec body ++ ([' ', 'a', 's', ' '] ++ (varName k).toList) := by
  simp [text, renderAt]

end Texts

section Joins

def join : Polarity → List TypeExpr → TypeExpr
  | .positive => union
  | .negative => inter

def joinPrec : Polarity → Nat
  | .positive => unionPrec
  | .negative => interPrec

def joinMark : Polarity → List Char
  | .positive => [' ', '∨', ' ']
  | .negative => [' ', '∧', ' ']

def joinOuter : Polarity → Nat
  | .positive => arrowPrec + 1
  | .negative => unionPrec

def joinInner : Polarity → Nat
  | .positive => interPrec
  | .negative => recursivePrec

def members : Polarity → TypeExpr → List TypeExpr
  | .positive, union ts => ts
  | .negative, inter ts => ts
  | _, e => [e]

theorem members_cases (p : Polarity) (e : TypeExpr) :
    (∃ ts, e = join p ts ∧ members p e = ts) ∨
      (members p e = [e] ∧ ∀ q, e.prec? = some q → q ≠ joinPrec p) := by
  cases p <;> cases e <;> simp [join, members, prec?, joinPrec, arrowPrec, unionPrec, interPrec]

theorem text_join (p : Polarity) (ts : List TypeExpr) :
    text 0 (join p ts) = separated (joinMark p) (ts.map (text (joinPrec p))) := by
  cases p <;>
    simp [text, join, renderAt, parensIf, toList_sepBy, renderList_eq, joinPrec, joinMark,
      Function.comp_def]

theorem joinMark_mem (p : Polarity) : (joinPrec p, joinMark p) ∈ operators := by
  cases p <;> decide

theorem Flat.join {p : Polarity} {ts : List TypeExpr} (h : (join p ts).Flat) :
    2 ≤ ts.length ∧ (∀ t ∈ ts, ∀ q, t.prec? = some q → q ≠ joinPrec p) ∧ ∀ t ∈ ts, t.Flat := by
  cases p with
  | positive =>
    cases h with
    | union htwo hkind h =>
      refine ⟨htwo, fun t ht q hq => ?_, h⟩
      cases t with
      | union us => exact absurd ht (hkind us)
      | _ => cases hq <;> decide
  | negative =>
    cases h with
    | inter htwo hkind h =>
      refine ⟨htwo, fun t ht q hq => ?_, h⟩
      cases t with
      | inter us => exact absurd ht (hkind us)
      | _ => cases hq <;> decide

end Joins

section Levels

variable {strength outer : Nat} {t u : TypeExpr}

def Fits (strength outer : Nat) (e : TypeExpr) : Prop :=
  ∀ p, e.prec? = some p → p < outer ∨ strength ≤ p

/-- Without the tuples that print as their one element does, the two expressions are the same,
wherever nothing weaker than the strength stands bare. -/
def Alike (strength : Nat) (t u : TypeExpr) : Prop :=
  ∀ outer, Fits strength outer t → Fits strength outer u → t.ungroup outer = u.ungroup outer

def Legible (strength outer : Nat) (t : TypeExpr) : Prop :=
  Fits strength outer t → ∀ u : TypeExpr, u.Flat → Fits strength outer u →
    ReadsBefore (Follows strength) (Alike strength) (text outer) (text outer) t u

theorem prec?_cases {p : Nat} (h : t.prec? = some p) : p = 10 ∨ p = 20 ∨ p = 25 := by
  cases t <;> cases h <;> simp [arrowPrec, unionPrec, interPrec]

theorem fits_arrowPrec (outer : Nat) (t : TypeExpr) : Fits arrowPrec outer t := by
  intro p hp
  have hcases := prec?_cases hp
  simp only [arrowPrec]
  omega

theorem Fits.inner {p : Polarity} (h : Fits (joinPrec p) outer t)
    (hne : ∀ q, t.prec? = some q → q ≠ joinPrec p) : Fits (joinInner p) outer t := by
  intro q hq
  have hfit := h q hq
  have hother := hne q hq
  have hcases := prec?_cases hq
  cases p <;>
    simp only [joinPrec, joinInner, unionPrec, interPrec, recursivePrec] at hfit hother ⊢ <;> omega

theorem fits_joinInner {p : Polarity} (h : ∀ q, t.prec? = some q → q ≠ joinPrec p) :
    Fits (joinInner p) (joinPrec p) t :=
  Fits.inner (fun q _ => Nat.lt_or_ge q (joinPrec p)) h

theorem of_mem_members {p : Polarity} {m : TypeExpr} (ht : t.Flat) (hm : m ∈ members p t) :
    m.Flat ∧ Fits (joinInner p) (joinPrec p) m := by
  rcases members_cases p t with ⟨ts, rfl, hts⟩ | ⟨hts, hne⟩
  · rw [hts] at hm
    obtain ⟨-, hkind, hflat⟩ := ht.join
    exact ⟨hflat m hm, fits_joinInner (hkind m hm)⟩
  · rw [hts] at hm
    obtain rfl := List.mem_singleton.mp hm
    exact ⟨ht, fits_joinInner hne⟩

theorem text_congr {outer' : Nat} (h : ∀ q, t.prec? = some q → (q < outer ↔ q < outer')) :
    text outer t = text outer' t := by
  have hgrouped : t.grouped outer = t.grouped outer' := by
    rw [Bool.eq_iff_iff, grouped_iff, grouped_iff]
    exact exists_congr fun q => and_congr_right (h q)
  rw [text_eq, hgrouped, ← text_eq]

theorem text_members {p : Polarity} (h : Fits (joinPrec p) (joinOuter p) t) :
    text (joinOuter p) t = separated (joinMark p) ((members p t).map (text (joinPrec p))) := by
  rcases members_cases p t with ⟨ts, rfl, hts⟩ | ⟨hts, hne⟩
  · rw [hts, ← text_join]
    refine text_congr fun q hq => ?_
    cases p <;> cases hq <;> decide
  · rw [hts, List.map_singleton, separated, List.flatMap_nil, List.append_nil]
    refine text_congr fun q hq => ?_
    have hfit := h q hq
    have hother := hne q hq
    have hcases := prec?_cases hq
    cases p <;>
      simp only [joinPrec, joinOuter, arrowPrec, unionPrec, interPrec] at hfit hother ⊢ <;> omega

theorem ungroup_join (p : Polarity) (outer : Nat) (ts : List TypeExpr) :
    (join p ts).ungroup outer = join p (ts.map (ungroup (joinPrec p))) := by
  cases p <;> simp [join, ungroup, ungroupList_eq, joinPrec]

theorem alike_of_members {p : Polarity} (ht : t.Flat) (hu : u.Flat)
    (h : List.Forall₂ (Alike (joinInner p)) (members p t) (members p u)) :
    Alike (joinPrec p) t u := by
  have hlength := h.length_eq
  rcases members_cases p t with ⟨ts, rfl, hts⟩ | ⟨hts, hne⟩ <;>
    rcases members_cases p u with ⟨us, rfl, hus⟩ | ⟨hus, hne'⟩
  · have hsame : List.Forall₂ (fun x y => ungroup (joinPrec p) x = ungroup (joinPrec p) y)
        (members p (join p ts)) (members p (join p us)) :=
      forall₂_imp_of_mem h fun x hx y hy hxy =>
        hxy _ (of_mem_members ht hx).2 (of_mem_members hu hy).2
    rw [hts, hus] at hsame
    intro outer _ _
    rw [ungroup_join, ungroup_join, map_eq_of_forall₂ hsame fun _ _ _ hxy => hxy]
  -- a join has two members or more, so it is not the one member that stands against it
  · rw [hts, hus, List.length_singleton] at hlength
    exact absurd ht.join.1 (by omega)
  · rw [hts, hus, List.length_singleton] at hlength
    exact absurd hu.join.1 (by omega)
  · rw [hts, hus] at h
    cases h with
    | cons h _ => exact fun outer hfit hfit' => h outer (hfit.inner hne) (hfit'.inner hne')

theorem members_ne_nil {p : Polarity} (ht : t.Flat) : members p t ≠ [] := by
  rcases members_cases p t with ⟨ts, rfl, hts⟩ | ⟨hts, -⟩
  · rw [hts]
    exact List.ne_nil_of_length_pos (Nat.zero_lt_of_lt ht.join.1)
  · rw [hts]
    exact List.cons_ne_nil t []

theorem legible_of_members {p : Polarity} (ht : t.Flat)
    (h : ∀ m ∈ members p t, Legible (joinInner p) (joinPrec p) m) :
    Legible (joinPrec p) (joinOuter p) t := by
  intro hfit u hu hfit' s r hs hr heq
  rw [text_members hfit, text_members hfit'] at heq
  have hlt : joinPrec p < joinInner p := by cases p <;> decide
  have hsep : ∀ r, Follows (joinInner p) (joinMark p ++ r) := follows_operator (joinMark_mem p) hlt
  have hreads : ∀ x ∈ members p t, ∀ y ∈ members p u, ReadsBefore (Follows (joinInner p))
      (Alike (joinInner p)) (text (joinPrec p)) (text (joinPrec p)) x y := fun x hx y hy =>
    h x hx (of_mem_members ht hx).2 y (of_mem_members hu hy).1 (of_mem_members hu hy).2
  obtain ⟨hmembers, hsr⟩ := separated_inj hsep (hs.mono hlt.le) (hr.mono hlt.le)
    (hs.stops _ (joinMark_mem p) le_rfl) (hr.stops _ (joinMark_mem p) le_rfl)
    (members_ne_nil ht) (members_ne_nil hu) hreads heq
  exact ⟨alike_of_members ht hu hmembers, hsr⟩

theorem fits_param (t : TypeExpr) : Fits unionPrec (arrowPrec + 1) t := by
  intro p hp
  have hcases := prec?_cases hp
  simp only [unionPrec, arrowPrec]
  omega

theorem arrow_mem : (arrowPrec, [' ', '-', '>', ' ']) ∈ operators := List.mem_cons_self

theorem follows_arrow (r : List Char) : Follows unionPrec ([' ', '-', '>', ' '] ++ r) :=
  follows_operator arrow_mem (by decide) r

theorem not_arrow_of_follows {s : List Char} (h : Follows arrowPrec s) (r : List Char) :
    [' ', '-', '>', ' '] ++ r ≠ s :=
  fun heq => h.stops _ arrow_mem le_rfl ⟨r, heq⟩

theorem arrow_cases (t : TypeExpr) : (∃ param result, t = arrow param result) ∨
    (text 0 t = text (arrowPrec + 1) t ∧ ∀ outer, Fits unionPrec outer t) := by
  by_cases ht : ∃ param result, t = arrow param result
  · exact .inl ht
  · have hprec : ∀ p, t.prec? = some p → unionPrec ≤ p := by
      intro p hp
      cases t with
      | arrow param result => exact absurd ⟨param, result, rfl⟩ ht
      | _ => cases hp <;> decide
    refine .inr ⟨text_congr fun p hp => ?_, fun outer p hp => .inr (hprec p hp)⟩
    have hle := hprec p hp
    simp only [unionPrec, arrowPrec] at hle ⊢
    omega

theorem legible_arrow {param result : TypeExpr}
    (hparam : Legible unionPrec (arrowPrec + 1) param) (hresult : Legible arrowPrec 0 result) :
    Legible arrowPrec 0 (arrow param result) := by
  intro _ u hu _ s r hs hr heq
  rw [text_arrow, List.append_assoc, List.append_assoc] at heq
  rcases arrow_cases u with ⟨param', result', rfl⟩ | ⟨htext, -⟩
  · obtain ⟨hp, hr'⟩ : param'.Flat ∧ result'.Flat := by
      cases hu with
      | arrow hp hr => exact ⟨hp, hr⟩
    rw [text_arrow, List.append_assoc, List.append_assoc] at heq
    obtain ⟨hparams, heq⟩ := hparam (fits_param _) param' hp (fits_param _) _ _ (follows_arrow _)
      (follows_arrow _) heq
    obtain ⟨hresults, hsr⟩ := hresult (fits_arrowPrec 0 _) result' hr' (fits_arrowPrec 0 _) s r
      hs hr (List.append_cancel_left heq)
    refine ⟨fun outer _ _ => ?_, hsr⟩
    rw [ungroup, ungroup, hparams _ (fits_param _) (fits_param _),
      hresults _ (fits_arrowPrec _ _) (fits_arrowPrec _ _)]
  · rw [htext] at heq
    obtain ⟨-, heq⟩ := hparam (fits_param _) u hu (fits_param _) _ _ (follows_arrow _)
      (hr.mono (by decide)) heq
    exact absurd heq (not_arrow_of_follows hr _)

theorem legible_of_param (ht : ¬∃ param result, t = arrow param result)
    (h : Legible unionPrec (arrowPrec + 1) t) : Legible arrowPrec 0 t := by
  obtain ⟨htext, hfits⟩ := (arrow_cases t).resolve_left ht
  intro _ u hu _ s r hs hr heq
  rw [htext] at heq
  rcases arrow_cases u with ⟨param', result', rfl⟩ | ⟨htext', hu'⟩
  · obtain ⟨hp, -⟩ : param'.Flat ∧ result'.Flat := by
      cases hu with
      | arrow hp hr => exact ⟨hp, hr⟩
    rw [text_arrow, List.append_assoc, List.append_assoc] at heq
    obtain ⟨-, heq⟩ := h (fits_param _) param' hp (fits_param _) _ _ (hs.mono (by decide))
      (follows_arrow _) heq
    exact absurd heq.symm (not_arrow_of_follows hs _)
  · rw [htext'] at heq
    obtain ⟨hsame, hsr⟩ := h (fits_param _) u hu (fits_param _) s r (hs.mono (by decide))
      (hr.mono (by decide)) heq
    exact ⟨fun outer _ _ => hsame outer (hfits outer) (hu' outer), hsr⟩

end Levels

end TypeExpr
end Biunify
