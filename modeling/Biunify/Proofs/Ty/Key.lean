import Biunify.Proofs.BoundTable.Bounds
import Biunify.Ty.Printer

/-! The key of a type determines it, but for the stamps of nodes and the levels of
variables. Keys are not self-delimiting, as one number can begin another; so the main
statement reads a key in front of a text that does not go on with a digit. A key also
holds levels. Within one table an id has one level, so there types have one key exactly
if they are of one structure. -/

namespace Biunify
namespace Ty

/-- A field name that a key can be read back from. Letters, digits and underscores of any
script are plain; only the characters that end a name or close a record are not. -/
def PlainName (name : String) : Prop := ':' ∉ name.toList ∧ '\x7d' ∉ name.toList

instance (name : String) : Decidable (PlainName name) := inferInstanceAs (Decidable (_ ∧ _))

namespace Key

def Stops (p : Char → Bool) (s : List Char) : Prop := ∀ c ∈ s.head?, p c = false

abbrev Ends (s : List Char) : Prop := Stops Char.isDigit s

theorem stops_cons {p : Char → Bool} {c : Char} (s : List Char) (h : p c = false) :
    Stops p (c :: s) := by
  intro d hd
  cases hd
  exact h

theorem takeWhile_append {p : Char → Bool} {d s : List Char} (hd : ∀ c ∈ d, p c = true)
    (hs : Stops p s) : (d ++ s).takeWhile p = d := by
  rw [List.takeWhile_append_of_pos hd]
  cases s with
  | nil => simp
  | cons c s => simp [hs c rfl]

theorem append_inj_of_stops {p : Char → Bool} {d e s t : List Char} (hd : ∀ c ∈ d, p c = true)
    (he : ∀ c ∈ e, p c = true) (hs : Stops p s) (ht : Stops p t) (h : d ++ s = e ++ t) :
    d = e ∧ s = t := by
  have hde : d = e := by rw [← takeWhile_append hd hs, h, takeWhile_append he ht]
  exact ⟨hde, List.append_cancel_left (hde ▸ h)⟩

theorem digits_append_inj {m n : Nat} {s t : List Char} (hs : Ends s) (ht : Ends t)
    (h : Nat.toDigits 10 m ++ s = Nat.toDigits 10 n ++ t) : m = n ∧ s = t := by
  have digits : ∀ k, ∀ c ∈ Nat.toDigits 10 k, c.isDigit = true := fun k c hc =>
    Nat.isDigit_of_mem_toDigits (by decide) (by decide) hc
  obtain ⟨hd, hst⟩ := append_inj_of_stops (digits m) (digits n) hs ht h
  refine ⟨?_, hst⟩
  rw [← Nat.ofDigitChars_ten_toDigits (n := m), hd, Nat.ofDigitChars_ten_toDigits]

def separated (sep : List Char) : List (List Char) → List Char
  | [] => []
  | k :: ks => k ++ ks.flatMap (sep ++ ·)

abbrev items : List (List Char) → List Char := separated [',', ' ']

theorem toList_sepBy (sep : String) (ks : List String) :
    (sepBy sep ks).toList = separated sep.toList (ks.map String.toList) := by
  induction ks with
  | nil => rfl
  | cons k ks ih =>
    cases ks with
    | nil => simp [sepBy, separated]
    | cons l ks => simp_all [sepBy, separated]

theorem toList_commaSep (ks : List String) :
    (commaSep ks).toList = items (ks.map String.toList) := by
  rw [commaSep, toList_sepBy]
  simp

section Items

variable {α β : Type} {follow : List Char → Prop} {R : α → β → Prop} {enc : α → List Char}
  {enc' : β → List Char}

/-- One item can be read back in front of what can follow it. -/
def ReadsBefore (follow : List Char → Prop) (R : α → β → Prop) (enc : α → List Char)
    (enc' : β → List Char) (x : α) (y : β) : Prop :=
  ∀ s t, follow s → follow t → enc x ++ s = enc' y ++ t → R x y ∧ s = t

abbrev Reads (R : α → β → Prop) (enc : α → List Char) (enc' : β → List Char) (x : α) (y : β) :
    Prop := ReadsBefore Ends R enc enc' x y

variable {xs : List α} {ys : List β} {s t : List Char}

def NoMore (follow : List Char → Prop) (enc : α → List Char) (sep : List Char) (xs : List α)
    (s : List Char) : Prop :=
  ∀ x ∈ xs, ∀ r, follow r → sep ++ (enc x ++ r) ≠ s

theorem noMore_of_no_separator {sep : List Char} (h : ¬sep <+: s) : NoMore follow enc sep xs s :=
  fun _ _ _ _ heq => h ⟨_, heq⟩

theorem follow_further {sep : List Char} (hsep : ∀ r, follow (sep ++ r)) {ks : List (List Char)}
    (hs : follow s) : follow (ks.flatMap (sep ++ ·) ++ s) := by
  cases ks with
  | nil => exact hs
  | cons k ks =>
    rw [List.flatMap_cons, List.append_assoc, List.append_assoc]
    exact hsep _

theorem further_inj {sep : List Char} (hsep : ∀ r, follow (sep ++ r)) (hs : follow s)
    (ht : follow t) (hs' : NoMore follow enc' sep ys s) (ht' : NoMore follow enc sep xs t)
    (hr : ∀ x ∈ xs, ∀ y ∈ ys, ReadsBefore follow R enc enc' x y)
    (h : (xs.map enc).flatMap (sep ++ ·) ++ s = (ys.map enc').flatMap (sep ++ ·) ++ t) :
    List.Forall₂ R xs ys ∧ s = t := by
  induction xs generalizing ys with
  | nil =>
    cases ys with
    | nil => exact ⟨.nil, h⟩
    | cons y ys =>
      simp only [List.map_nil, List.flatMap_nil, List.nil_append, List.map_cons, List.flatMap_cons,
        List.append_assoc] at h
      exact absurd h.symm (hs' y List.mem_cons_self _ (follow_further hsep ht))
  | cons x xs ih =>
    cases ys with
    | nil =>
      simp only [List.map_nil, List.flatMap_nil, List.nil_append, List.map_cons, List.flatMap_cons,
        List.append_assoc] at h
      exact absurd h (ht' x List.mem_cons_self _ (follow_further hsep hs))
    | cons y ys =>
      simp only [List.map_cons, List.flatMap_cons, List.append_assoc,
        List.append_cancel_left_eq] at h
      obtain ⟨hxy, hrest⟩ :=
        hr x List.mem_cons_self y List.mem_cons_self _ _ (follow_further hsep hs)
          (follow_further hsep ht) h
      obtain ⟨hxs, hst⟩ := ih (fun y hy => hs' y (List.mem_cons_of_mem _ hy))
        (fun x hx => ht' x (List.mem_cons_of_mem _ hx))
        (fun x hx y hy => hr x (List.mem_cons_of_mem _ hx) y (List.mem_cons_of_mem _ hy)) hrest
      exact ⟨.cons hxy hxs, hst⟩

theorem more_inj {sep : List Char} (hsep : ∀ r, follow (sep ++ r)) (hs : follow s) (ht : follow t)
    (hs' : ¬sep <+: s) (ht' : ¬sep <+: t)
    (hr : ∀ x ∈ xs, ∀ y ∈ ys, ReadsBefore follow R enc enc' x y)
    (h : (xs.map enc).flatMap (sep ++ ·) ++ s = (ys.map enc').flatMap (sep ++ ·) ++ t) :
    List.Forall₂ R xs ys ∧ s = t :=
  further_inj hsep hs ht (noMore_of_no_separator hs') (noMore_of_no_separator ht') hr h

theorem separated_inj {sep : List Char} (hsep : ∀ r, follow (sep ++ r)) (hs : follow s)
    (ht : follow t) (hs' : ¬sep <+: s) (ht' : ¬sep <+: t) (hx : xs ≠ []) (hy : ys ≠ [])
    (hr : ∀ x ∈ xs, ∀ y ∈ ys, ReadsBefore follow R enc enc' x y)
    (h : separated sep (xs.map enc) ++ s = separated sep (ys.map enc') ++ t) :
    List.Forall₂ R xs ys ∧ s = t := by
  obtain ⟨x, xs, rfl⟩ := List.exists_cons_of_ne_nil hx
  obtain ⟨y, ys, rfl⟩ := List.exists_cons_of_ne_nil hy
  -- A separator in front of both lists makes them lists of further items.
  refine more_inj hsep hs ht hs' ht' hr ?_
  simpa only [List.map_cons, separated, List.flatMap_cons, List.append_assoc,
    List.append_cancel_left_eq] using h

theorem closed_inj {close : Char} (hc : close ≠ ',') (hcomma : ∀ r, follow (',' :: r))
    (hclose : ∀ r, follow (close :: r))
    (hr : ∀ x ∈ xs, ∀ y ∈ ys, ReadsBefore follow R enc enc' x y)
    (hx : ∀ x ∈ xs, ∀ r, (enc x ++ r).head? ≠ some close)
    (hy : ∀ y ∈ ys, ∀ r, (enc' y ++ r).head? ≠ some close)
    (h : items (xs.map enc) ++ close :: s = items (ys.map enc') ++ close :: t) :
    List.Forall₂ R xs ys ∧ s = t := by
  cases xs with
  | nil =>
    cases ys with
    | nil => exact ⟨.nil, (List.cons.inj h).2⟩
    | cons y ys =>
      simp only [List.map_cons, List.map_nil, separated, List.nil_append, List.append_assoc] at h
      exact absurd (congrArg List.head? h).symm (hy y List.mem_cons_self _)
  | cons x xs =>
    cases ys with
    | nil =>
      simp only [List.map_cons, List.map_nil, separated, List.nil_append, List.append_assoc] at h
      exact absurd (congrArg List.head? h) (hx x List.mem_cons_self _)
    | cons y ys =>
      have hends : ∀ r : List Char, ¬[',', ' '] <+: close :: r := by
        intro r hr
        exact hc (List.cons_prefix_cons.mp hr).1.symm
      obtain ⟨hxys, hst⟩ := separated_inj (fun r => hcomma _) (hclose s) (hclose t) (hends s)
        (hends t) (List.cons_ne_nil x xs) (List.cons_ne_nil y ys) hr h
      exact ⟨hxys, (List.cons.inj hst).2⟩

theorem items_inj {close : Char} (hc : close ≠ ',') (hd : close.isDigit = false)
    (hr : ∀ x ∈ xs, ∀ y ∈ ys, Reads R enc enc' x y)
    (hx : ∀ x ∈ xs, ∀ r, (enc x ++ r).head? ≠ some close)
    (hy : ∀ y ∈ ys, ∀ r, (enc' y ++ r).head? ≠ some close)
    (h : items (xs.map enc) ++ close :: s = items (ys.map enc') ++ close :: t) :
    List.Forall₂ R xs ys ∧ s = t :=
  closed_inj hc (fun r => stops_cons r (by decide)) (fun r => stops_cons r hd) hr hx hy h

end Items

def bracketed (n : Nat) (s : List Char) : List Char := '[' :: (Nat.toDigits 10 n ++ ']' :: s)

theorem bracketed_inj {m n : Nat} {s t : List Char} (h : bracketed m s = bracketed n t) :
    m = n ∧ s = t := by
  obtain ⟨hn, hst⟩ := digits_append_inj (stops_cons s (by decide)) (stops_cons t (by decide))
    (List.cons.inj h).2
  exact ⟨hn, (List.cons.inj hst).2⟩

theorem bracketed_append (n : Nat) (s t : List Char) :
    bracketed n s ++ t = bracketed n (s ++ t) := by
  simp [bracketed]

section Fields

variable {α : Type} {enc : α → List Char}

def ofField (enc : α → List Char) (f : String × α) : List Char :=
  f.1.toList ++ ':' :: ' ' :: enc f.2

theorem head_ofField_ne {f : String × α} (hf : PlainName f.1) (r : List Char) :
    (ofField enc f ++ r).head? ≠ some '\x7d' := by
  intro h
  cases hn : f.1.toList with
  | nil => simp [ofField, hn] at h
  | cons c cs =>
    have hc : c = '\x7d' := by simpa [ofField, hn] using h
    exact hf.2 (by simp [hn, hc])

theorem ofField_reads {follow : List Char → Prop} {R : α → α → Prop} {f g : String × α}
    (hf : PlainName f.1) (hg : PlainName g.1) (h : ReadsBefore follow R enc enc f.2 g.2) :
    ReadsBefore follow (fun f g => f.1 = g.1 ∧ R f.2 g.2) (ofField enc) (ofField enc) f g := by
  intro s t hs ht he
  simp only [ofField, List.append_assoc, List.cons_append] at he
  have name : ∀ n : String, PlainName n → ∀ c ∈ n.toList, (c != ':') = true :=
    fun n hn c hc => bne_iff_ne.mpr fun h => hn.1 (h ▸ hc)
  obtain ⟨hn, hk⟩ := append_inj_of_stops (name _ hf) (name _ hg) (stops_cons _ (by decide))
    (stops_cons _ (by decide)) he
  simp only [List.cons.injEq, true_and] at hk
  obtain ⟨hr, hst⟩ := h s t hs ht hk
  exact ⟨⟨String.toList_inj.mp hn, hr⟩, hst⟩

end Fields

theorem toList_base (b : BaseTy) : (base b).key.toList = b.name.toList := rfl

theorem toList_var (v : Var) :
    (var v).key.toList = 'v' :: 'a' :: 'r' :: '_' :: Nat.toDigits 10 v.id := by
  simp [key]

theorem toList_arrow (n : Nat) (p r : Ty) :
    (arrow n p r).key.toList = bracketed (arrow n p r).level
      ('f' :: 'u' :: 'n' :: ' ' :: (p.key.toList ++ ' ' :: '-' :: '>' :: ' ' :: r.key.toList)) := by
  simp [key, bracketed, brackets]

theorem keyElems_eq (ts : List Ty) : keyElems ts = ts.map key := by
  induction ts with
  | nil => rfl
  | cons t ts ih => rw [keyElems, ih, List.map_cons]

theorem keyFields_eq (fs : List (String × Ty)) :
    keyFields fs = fs.map fun f => labelled f.1 f.2.key := by
  induction fs with
  | nil => rfl
  | cons f fs ih => rw [keyFields, ih, List.map_cons]

theorem toList_tuple (n : Nat) (ts : List Ty) :
    (tuple n ts).key.toList = bracketed (tuple n ts).level
      ('(' :: (items (ts.map fun t => t.key.toList) ++ [')'])) := by
  simp [key, bracketed, brackets, parens, toList_commaSep, keyElems_eq, Function.comp_def]

theorem toList_record (n : Nat) (fs : List (String × Ty)) :
    (record n fs).key.toList = bracketed (record n fs).level
      ('\x7b' :: (items (fs.map (ofField fun t => t.key.toList)) ++ ['\x7d'])) := by
  have hk : (keyFields fs).map String.toList = fs.map (ofField fun t => t.key.toList) := by
    simp [keyFields_eq, labelled, ofField]
  simp [key, bracketed, brackets, braces, toList_commaSep, hk]

theorem head_key_ne {c : Char} (hc : c ∈ [')', '\x7d']) (t : Ty) (r : List Char) :
    (t.key.toList ++ r).head? ≠ some c := by
  have hc : c = ')' ∨ c = '\x7d' := by simpa using hc
  cases t with
  | base b => cases b <;> rcases hc with rfl | rfl <;> simp [key, BaseTy.name]
  | var v => rcases hc with rfl | rfl <;> simp [toList_var]
  | arrow n p r => rcases hc with rfl | rfl <;> simp [toList_arrow, bracketed]
  | tuple n ts => rcases hc with rfl | rfl <;> simp [toList_tuple, bracketed]
  | record n fs => rcases hc with rfl | rfl <;> simp [toList_record, bracketed]

theorem ctorIdx_eq_of_key_append {a b : Ty} {s t : List Char}
    (h : a.key.toList ++ s = b.key.toList ++ t) : a.ctorIdx = b.ctorIdx := by
  cases a with
  | base x =>
    cases b with
    | base y => rfl
    | _ =>
      cases x <;> simp [toList_base, BaseTy.name, toList_var, toList_arrow, toList_tuple,
        toList_record, bracketed] at h
  | var v =>
    cases b with
    | var w => rfl
    | base y => cases y <;> simp [toList_base, BaseTy.name, toList_var] at h
    | _ => simp [toList_var, toList_arrow, toList_tuple, toList_record, bracketed] at h
  | arrow =>
    cases b with
    | arrow => rfl
    | base y => cases y <;> simp [toList_base, BaseTy.name, toList_arrow, bracketed] at h
    | var w => simp [toList_var, toList_arrow, bracketed] at h
    | tuple | record =>
      simp only [toList_arrow, toList_tuple, toList_record, bracketed_append] at h
      have h := (bracketed_inj h).2
      simp at h
  | tuple =>
    cases b with
    | tuple => rfl
    | base y => cases y <;> simp [toList_base, BaseTy.name, toList_tuple, bracketed] at h
    | var w => simp [toList_var, toList_tuple, bracketed] at h
    | arrow | record =>
      simp only [toList_arrow, toList_tuple, toList_record, bracketed_append] at h
      have h := (bracketed_inj h).2
      simp at h
  | record =>
    cases b with
    | record => rfl
    | base y => cases y <;> simp [toList_base, BaseTy.name, toList_record, bracketed] at h
    | var w => simp [toList_var, toList_record, bracketed] at h
    | arrow | tuple =>
      simp only [toList_arrow, toList_tuple, toList_record, bracketed_append] at h
      have h := (bracketed_inj h).2
      simp at h

end Key

open Key

theorem key_reads {P P' : Var → Prop} {a b : Ty}
    (ha : a.Forall P fun ns => ∀ n ∈ ns, PlainName n)
    (hb : b.Forall P' fun ns => ∀ n ∈ ns, PlainName n) (p : Polarity) :
    Reads (Image (fun _ v w => v.id = w.id) p) (fun t => t.key.toList) (fun t => t.key.toList)
      a b := by
  intro s t hs ht h
  induction a generalizing b p s t with
  | base x =>
    cases b with
    | base y => cases x <;> cases y <;> simp_all [toList_base, BaseTy.name]
    | _ => cases ctorIdx_eq_of_key_append h
  | var v =>
    cases b with
    | var w =>
      simp only [toList_var, List.cons_append, List.cons.injEq, true_and] at h
      exact digits_append_inj hs ht h
    | _ => cases ctorIdx_eq_of_key_append h
  | arrow m q r ihq ihr =>
    cases b with
    | arrow n q' r' =>
      simp only [toList_arrow, bracketed_append] at h
      have h := (bracketed_inj h).2
      simp only [List.cons_append, List.append_assoc, List.cons.injEq, true_and] at h
      obtain ⟨hq, h⟩ := ihq ha.1 hb.1 p.flip _ _ (stops_cons _ (by decide))
        (stops_cons _ (by decide)) h
      simp only [List.cons.injEq, true_and] at h
      obtain ⟨hr, hst⟩ := ihr ha.2 hb.2 p s t hs ht h
      exact ⟨⟨hq, hr⟩, hst⟩
    | _ => cases ctorIdx_eq_of_key_append h
  | tuple m ts ih =>
    cases b with
    | tuple n us =>
      simp only [toList_tuple, bracketed_append] at h
      have h := (bracketed_inj h).2
      simp only [List.cons_append, List.append_assoc, List.nil_append, List.cons.injEq,
        true_and] at h
      rw [forall_tuple] at ha hb
      rw [image_tuple]
      exact items_inj (by decide) (by decide)
        (fun t ht u hu s r hs hr h => ih t ht (ha t ht) (hb u hu) p s r hs hr h)
        (fun t _ => head_key_ne (by decide) t) (fun u _ => head_key_ne (by decide) u) h
    | _ => cases ctorIdx_eq_of_key_append h
  | record m fs ih =>
    cases b with
    | record n gs =>
      simp only [toList_record, bracketed_append] at h
      have h := (bracketed_inj h).2
      simp only [List.cons_append, List.append_assoc, List.nil_append, List.cons.injEq,
        true_and] at h
      rw [forall_record] at ha hb
      have hf : ∀ f ∈ fs, PlainName f.1 := fun f hf => ha.1 _ (List.mem_map_of_mem hf)
      have hg : ∀ g ∈ gs, PlainName g.1 := fun g hg => hb.1 _ (List.mem_map_of_mem hg)
      rw [image_record]
      refine items_inj (by decide) (by decide) (fun f hf' g hg' => ?_)
        (fun f hf' => head_ofField_ne (hf f hf')) (fun g hg' => head_ofField_ne (hg g hg')) h
      exact ofField_reads (hf f hf') (hg g hg') fun s r hs hr h =>
        ih f hf' (ha.2 f hf') (hb.2 g hg') p s r hs hr h
    | _ => cases ctorIdx_eq_of_key_append h

theorem image_of_key_eq {P P' : Var → Prop} {a b : Ty}
    (ha : a.Forall P fun ns => ∀ n ∈ ns, PlainName n)
    (hb : b.Forall P' fun ns => ∀ n ∈ ns, PlainName n) (h : a.key = b.key) (p : Polarity) :
    Image (fun _ v w => v.id = w.id) p a b :=
  have ends : Ends [] := fun _ hc => nomatch hc
  (key_reads ha hb p [] [] ends ends (congrArg (fun k => k.toList ++ []) h)).1

section Structure

variable {a b : Ty}

theorem Alike.symm (h : a.Alike b) : b.Alike a :=
  fun p => (h p).symm fun _ _ _ hvw => hvw.symm

theorem Alike.level_eq (h : a.Alike b) : a.level = b.level :=
  Nat.le_antisymm (h.symm.level_le (Nat.le_refl _)) (h.level_le (Nat.le_refl _))

theorem Alike.key_eq (h : a.Alike b) : a.key = b.key := by
  induction a generalizing b with
  | base x => rw [(h .positive).base_left]
  | var v =>
    obtain ⟨w, rfl, rfl⟩ := (h .positive).var_left
    rfl
  | arrow m q r ihq ihr =>
    have hlevel := h.level_eq
    obtain ⟨n, q', r', rfl, hq, hr⟩ := (h .positive).arrow_left
    rw [key, key, hlevel, ihq hq.repolarize, ihr hr.repolarize]
  | tuple m ts ih =>
    have hlevel := h.level_eq
    obtain ⟨n, us, rfl, hts⟩ := (h .positive).tuple_left
    have hkeys : ts.map key = us.map key :=
      map_eq_of_forall₂ hts fun t ht u htu => ih t ht htu.repolarize
    rw [key, key, hlevel, keyElems_eq, keyElems_eq, hkeys]
  | record m fs ih =>
    have hlevel := h.level_eq
    obtain ⟨n, gs, rfl, hfs⟩ := (h .positive).record_left
    have hkeys : (fs.map fun f => labelled f.1 f.2.key) = gs.map fun g => labelled g.1 g.2.key :=
      map_eq_of_forall₂ hfs fun f hf g hfg => by rw [hfg.1, ih f hf hfg.2.repolarize]
    rw [key, key, hlevel, keyFields_eq, keyFields_eq, hkeys]

/-- Built in one way from the same base types, field names and variables, which are known by
their ids. Neither stamps nor levels count. -/
def SameStructure (a b : Ty) : Prop := ∀ p, Image (fun _ v w => v.id = w.id) p a b

/-- Within one table, types have one key exactly if they are of one structure. -/
theorem key_eq_iff {t : BoundTable} (ha : a.Forall t.Owns fun ns => ∀ n ∈ ns, PlainName n)
    (hb : b.Forall t.Owns fun ns => ∀ n ∈ ns, PlainName n) :
    a.key = b.key ↔ a.SameStructure b := by
  constructor
  · exact fun h p => image_of_key_eq ha hb h p
  · intro h
    have halike : a.Alike b := fun p =>
      (h p).imp_of_forall ha hb fun _ v w hv hw hid => hv.eq hw hid
    exact halike.key_eq

def twinEnds (node : Nat) : Ty :=
  arrow node (record (node + 1) [("x_1", var ⟨1, 2⟩)]) (tuple (node + 2) [var ⟨11, 2⟩, base .int])

def twinTable : BoundTable := ⟨.replicate 12 { level := 2 }⟩

theorem twinEnds_owned (node : Nat) :
    (twinEnds node).Forall twinTable.Owns fun ns => ∀ n ∈ ns, PlainName n := by
  have hname : PlainName "x_1" := by decide
  have howns : twinTable.Owns ⟨1, 2⟩ ∧ twinTable.Owns ⟨11, 2⟩ := ⟨rfl, rfl⟩
  simp [twinEnds, names, hname, howns]

theorem key_eq_iff_twinEnds :
    ((twinEnds 0).Forall twinTable.Owns fun ns => ∀ n ∈ ns, PlainName n) ∧
      ((twinEnds 3).Forall twinTable.Owns fun ns => ∀ n ∈ ns, PlainName n) ∧
      (twinEnds 0).SameStructure (twinEnds 3) ∧ (twinEnds 0).key = (twinEnds 3).key := by
  have hsame : (twinEnds 0).SameStructure (twinEnds 3) := by
    intro p
    simp [twinEnds]
  have hkey := (key_eq_iff (twinEnds_owned 0) (twinEnds_owned 3)).mpr hsame
  exact ⟨twinEnds_owned 0, twinEnds_owned 3, hsame, hkey⟩

end Structure

end Ty
end Biunify
