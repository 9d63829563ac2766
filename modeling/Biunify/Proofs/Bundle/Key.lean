import Biunify.Bundle.Printer
import Biunify.Proofs.Bundle.Structure
import Biunify.Proofs.Ty.Key

/-! The key of a bundle determines it, but for records without fields, which add nothing to a
key. The parts of a bundle are read back one by one: the first character of a part tells what
it is, and a part ends before a comma or before the mark that ends the bundle. -/

namespace Biunify

open Ty.Key

theorem BaseSet.eq_of_toList_eq {s s' : BaseSet} (h : s.toList = s'.toList) : s = s' := by
  have hcontains : ∀ b, s.contains b = s'.contains b := by
    intro b
    rw [Bool.eq_iff_iff, ← mem_toList, ← mem_toList, h]
  rcases s with ⟨_, _, _, _⟩
  rcases s' with ⟨_, _, _, _⟩
  congr 1
  · exact hcontains .bool
  · exact hcontains .float
  · exact hcontains .int
  · exact hcontains .string

def Material.plain (t : BoundTable) : Material := ⟨t.Owns, Ty.PlainName, fun _ => True⟩

def Material.plainNames : Material := ⟨fun _ => True, Ty.PlainName, fun _ => True⟩

inductive Part (α : Type) where
  | var (v : Var)
  | base (b : BaseTy)
  | record (fields : List (String × α))
  | tuple (elems : List α)
  | func (f : α × α)
  | top

namespace Part

variable {α β : Type}

def map (f : α → β) : Part α → Part β
  | var v => var v
  | base b => base b
  | record fields => record (fields.map fun entry => (entry.1, f entry.2))
  | tuple elems => tuple (elems.map f)
  | func parts => func (f parts.1, f parts.2)
  | top => top

def MadeOf (m : Material) (below : α → Prop) : Part α → Prop
  | var v => m.var v
  | base _ | top => True
  | record fields => ∀ f ∈ fields, m.name f.1 ∧ below f.2
  | tuple elems => ∀ b ∈ elems, below b
  | func f => below f.1 ∧ below f.2

inductive Rel (R : α → β → Prop) : Part α → Part β → Prop
  | var {v w : Var} (h : v.id = w.id) : Rel R (var v) (var w)
  | base (b : BaseTy) : Rel R (base b) (base b)
  | record {fields : List (String × α)} {fields' : List (String × β)}
    (h : List.Forall₂ (fun f g => f.1 = g.1 ∧ R f.2 g.2) fields fields') :
    Rel R (record fields) (record fields')
  | tuple {elems : List α} {elems' : List β} (h : List.Forall₂ R elems elems') :
    Rel R (tuple elems) (tuple elems')
  | func {f : α × α} {f' : β × β} (hparam : R f.1 f'.1) (hresult : R f.2 f'.2) :
    Rel R (func f) (func f')
  | top : Rel R top top

def text (varText : Var → String) : Part String → String
  | var v => varText v
  | base b => b.name
  | record fields => braces (commaSep (fields.map fun f => labelled f.1 f.2))
  | tuple elems => parens (commaSep elems)
  | func f => f.1 ++ " -> " ++ f.2
  | top => "⊤"

end Part

namespace Layer

variable {α β : Type}

def partList (l : Layer α) : List (Part α) :=
  l.vars.items.map .var ++ l.bases.toList.map .base ++ l.record.toList.map .record
    ++ l.tuple.toList.map .tuple ++ l.func.toList.map .func ++ if l.top then [.top] else []

theorem partList_map (f : α → β) (l : Layer α) :
    (l.map f).partList = l.partList.map (Part.map f) := by
  rcases l with ⟨vars, bases, tuple, record, func, top⟩
  cases top <;> simp [partList, map, Part.map, Function.comp_def, Option.toList_map]

theorem parts_eq (varText : Var → String) (l : Layer String) :
    l.parts varText = l.partList.map (Part.text varText) := by
  have htop : (if l.top then ["⊤"] else []) =
      (if l.top then [Part.top] else []).map (Part.text varText) := by
    split <;> rfl
  simp only [partList, parts, htop, List.map_append, List.map_map]
  rfl

def readBack (parts : List (Part α)) :
    List Var × List BaseTy × List (List (String × α)) × List (List α) × List (α × α) × Bool :=
  (parts.filterMap fun | .var v => some v | _ => none,
    parts.filterMap fun | .base b => some b | _ => none,
    parts.filterMap fun | .record fields => some fields | _ => none,
    parts.filterMap fun | .tuple elems => some elems | _ => none,
    parts.filterMap fun | .func f => some f | _ => none,
    parts.any fun | .top => true | _ => false)

theorem readBack_partList (l : Layer α) : readBack l.partList =
    (l.vars.items, l.bases.toList, l.record.toList, l.tuple.toList, l.func.toList, l.top) := by
  rcases l with ⟨vars, bases, tuple, record, func, top⟩
  cases top <;> simp [readBack, partList, List.filterMap_map, Function.comp_def]

theorem eq_of_partList_eq {l l' : Layer α} (h : l.partList = l'.partList) : l = l' := by
  have hread := congrArg readBack h
  rw [readBack_partList, readBack_partList] at hread
  rcases l with ⟨⟨vars, _⟩, bases, tuple, record, func, top⟩
  rcases l' with ⟨⟨vars', _⟩, bases', tuple', record', func', top'⟩
  simp only [Prod.mk.injEq] at hread
  obtain ⟨rfl, hbases, hrecord, htuple, hfunc, rfl⟩ := hread
  have hoption : ∀ {β : Type} {o o' : Option β}, o.toList = o'.toList → o = o' := by
    intro β o o' h
    cases o <;> cases o' <;> simp_all
  rw [BaseSet.eq_of_toList_eq hbases, hoption hrecord, hoption htuple, hoption hfunc]

def dropEmptyRecord (l : Layer α) : Layer α :=
  { l with record := l.record.filter fun fields => !fields.isEmpty }

theorem part_madeOf {m : Material} {below : α → Prop} {l : Layer α}
    (hvars : ∀ v ∈ l.vars.items, m.var v)
    (hnames : ∀ fields, l.record = some fields → ∀ f ∈ fields, m.name f.1)
    (hbelow : ∀ p q a, l.Child p q a → below a) {x : Part α}
    (hx : x ∈ l.dropEmptyRecord.partList) : x.MadeOf m below := by
  have hrecord : ∀ fields, l.dropEmptyRecord.record = some fields → l.record = some fields :=
    fun fields hf => (Option.filter_eq_some_iff.mp hf).1
  simp only [partList, dropEmptyRecord, List.mem_append, List.mem_map, Option.mem_toList] at hx
  rcases hx with ((((⟨v, hv, rfl⟩ | ⟨b, -, rfl⟩) | ⟨fields, hf, rfl⟩) | ⟨elems, he, rfl⟩) |
    ⟨f, hf, rfl⟩) | htop
  · exact hvars v hv
  · trivial
  · have hf := hrecord fields hf
    exact fun f hmem => ⟨hnames fields hf f hmem, hbelow .positive _ _ (.field hf hmem)⟩
  · exact fun b hb => hbelow .positive _ b (.elem he hb)
  · exact ⟨hbelow .positive _ _ (.param hf), hbelow .positive _ _ (.result hf)⟩
  · have hx : x = .top := by cases ht : l.top <;> simp_all
    rw [hx]
    trivial

theorem MadeOf.part {m : Material} {below : α → Prop} {l : Layer α} (h : l.MadeOf m below)
    {x : Part α} (hx : x ∈ l.dropEmptyRecord.partList) : x.MadeOf m below :=
  part_madeOf h.vars (fun _ hr f hf => ((h.record hr).2 f hf).1) (fun _ _ _ => h.child) hx

end Layer

namespace Bundle

/-- The bundle without its records that have no fields, at every place. -/
def dropEmptyRecords : Bundle → Bundle := fold fun l => node (l.map Prod.snd).dropEmptyRecord

theorem dropEmptyRecords_node (l : Layer Bundle) :
    (node l).dropEmptyRecords = node (l.dropEmptyRecord.map dropEmptyRecords) := by
  rw [dropEmptyRecords, fold_node, Layer.map_map]
  congr 1
  rcases l with ⟨vars, bases, tuple, record, func, top⟩
  rcases record with - | fields
  · rfl
  · cases fields <;> rfl

theorem key_node (l : Layer Bundle) :
    (node l).key = (l.dropEmptyRecord.map key).text fun v => v.id.repr := by
  rw [key, fold_node, Layer.map_map]
  rcases l with ⟨vars, bases, tuple, record, func, top⟩
  rcases record with - | fields
  · rfl
  · cases fields <;> rfl

def partChars (x : Part Bundle) : List Char := ((x.map key).text fun v => v.id.repr).toList

abbrev chars (b : Bundle) : List Char := b.key.toList

theorem toList_key (l : Layer Bundle) :
    (node l).key.toList = '‹' :: (items (l.dropEmptyRecord.partList.map partChars) ++ ['›']) := by
  have hparts : ((l.dropEmptyRecord.partList.map (Part.map key)).map
      (Part.text fun v => v.id.repr)).map String.toList =
        l.dropEmptyRecord.partList.map partChars := by
    rw [List.map_map, List.map_map]
    rfl
  rw [key_node, Layer.text, Layer.parts_eq, Layer.partList_map]
  simp [toList_commaSep, ← hparts]

theorem partChars_var (v : Var) : partChars (.var v) = Nat.toDigits 10 v.id := by
  simp [partChars, Part.map, Part.text]

theorem partChars_record (fields : List (String × Bundle)) :
    partChars (.record fields) = '\x7b' :: (items (fields.map (ofField chars)) ++ ['\x7d']) := by
  have hfields : ((fields.map fun f => (f.1, f.2.key)).map fun f => labelled f.1 f.2).map
      String.toList = fields.map (ofField chars) := by
    simp [labelled, ofField]
  simp only [partChars, Part.map, Part.text, braces, String.toList_append, toList_commaSep, hfields]
  rfl

theorem partChars_tuple (elems : List Bundle) :
    partChars (.tuple elems) = '(' :: (items (elems.map chars) ++ [')']) := by
  simp [partChars, Part.map, Part.text, parens, toList_commaSep, Function.comp_def]

theorem partChars_func (f : Bundle × Bundle) :
    partChars (.func f) = chars f.1 ++ ' ' :: '-' :: '>' :: ' ' :: chars f.2 := by
  simp [partChars, Part.map, Part.text]

def kind (c : Char) : Nat :=
  if c.isDigit then 0
  else if c.isAlpha then 1
  else if c = '\x7b' then 2
  else if c = '(' then 3
  else if c = '‹' then 4
  else if c = '⊤' then 5
  else 6

theorem kind_head (x : Part Bundle) (r : List Char) :
    (partChars x ++ r).head?.map kind = some x.ctorIdx := by
  cases x with
  | var v =>
    rw [partChars_var]
    cases hd : Nat.toDigits 10 v.id with
    | nil => exact absurd hd Nat.toDigits_ne_nil
    | cons c cs =>
      have hc : c.isDigit = true :=
        Nat.isDigit_of_mem_toDigits (by decide) (by decide) (hd ▸ List.mem_cons_self)
      simp [kind, hc, Part.ctorIdx]
  | base b => cases b <;> rfl
  | record fields => rw [partChars_record]; rfl
  | tuple elems => rw [partChars_tuple]; rfl
  | func f =>
    rcases hf : f.1 with ⟨l⟩
    rw [partChars_func, hf, chars, toList_key]
    rfl
  | top => rfl

theorem head_partChars_ne (x : Part Bundle) (r : List Char) :
    (partChars x ++ r).head? ≠ some '›' := by
  intro h
  have hkind := kind_head x r
  rw [h] at hkind
  cases x <;> cases hkind

abbrev SameFields (b c : Bundle) : Prop := b.dropEmptyRecords = c.dropEmptyRecords

theorem head_chars_ne {c : Char} (hc : c ≠ '‹') (b : Bundle) (r : List Char) :
    (chars b ++ r).head? ≠ some c := by
  rcases b with ⟨l⟩
  rw [chars, toList_key]
  simpa using hc.symm

section Reads

variable {R : Bundle → Bundle → Prop} {P : Bundle → Prop}

theorem partChars_reads {x y : Part Bundle}
    (hx : x.MadeOf .plainNames fun b => ∀ c, P c → Reads R chars chars b c)
    (hy : y.MadeOf .plainNames P) : Reads (Part.Rel R) partChars partChars x y := by
  intro s r hs hr h
  have hkind : x.ctorIdx = y.ctorIdx := by
    have hhead := congrArg (fun cs => cs.head?.map kind) h
    simpa only [kind_head, Option.some.injEq] using hhead
  cases x with
  | var v =>
    cases y with
    | var w =>
      rw [partChars_var, partChars_var] at h
      obtain ⟨hid, hsr⟩ := digits_append_inj hs hr h
      exact ⟨.var hid, hsr⟩
    | _ => cases hkind
  | base b =>
    cases y with
    | base c =>
      have hbase : b = c ∧ s = r := by
        cases b <;> cases c <;> simp_all [partChars, Part.map, Part.text, BaseTy.name]
      obtain ⟨rfl, hsr⟩ := hbase
      exact ⟨.base b, hsr⟩
    | _ => cases hkind
  | record fields =>
    cases y with
    | record fields' =>
      rw [partChars_record, partChars_record] at h
      simp only [List.cons_append, List.append_assoc, List.nil_append, List.cons.injEq,
        true_and] at h
      obtain ⟨hfields, hsr⟩ := items_inj (by decide) (by decide)
        (fun f hf f' hf' => ofField_reads (hx f hf).1 (hy f' hf').1
          ((hx f hf).2 _ (hy f' hf').2))
        (fun f hf => head_ofField_ne (hx f hf).1) (fun f' hf' => head_ofField_ne (hy f' hf').1) h
      exact ⟨.record hfields, hsr⟩
    | _ => cases hkind
  | tuple elems =>
    cases y with
    | tuple elems' =>
      rw [partChars_tuple, partChars_tuple] at h
      simp only [List.cons_append, List.append_assoc, List.nil_append, List.cons.injEq,
        true_and] at h
      obtain ⟨helems, hsr⟩ := items_inj (by decide) (by decide)
        (fun b hb c hc => hx b hb c (hy c hc))
        (fun b _ => head_chars_ne (by decide) b) (fun c _ => head_chars_ne (by decide) c) h
      exact ⟨.tuple helems, hsr⟩
    | _ => cases hkind
  | func f =>
    cases y with
    | func f' =>
      rw [partChars_func, partChars_func] at h
      simp only [List.append_assoc, List.cons_append] at h
      obtain ⟨hparam, h⟩ := hx.1 _ hy.1 _ _ (stops_cons _ (by decide))
        (stops_cons _ (by decide)) h
      simp only [List.cons.injEq, true_and] at h
      obtain ⟨hresult, hsr⟩ := hx.2 _ hy.2 s r hs hr h
      exact ⟨.func hparam hresult, hsr⟩
    | _ => cases hkind
  | top =>
    cases y with
    | top => exact ⟨.top, List.append_cancel_left h⟩
    | _ => cases hkind

/-- Bundles of one key are in every relation that follows from having the same parts. -/
theorem rel_of_key_eq
    (hnames : ∀ l, P (node l) → ∀ fields, l.record = some fields → ∀ f ∈ fields, Ty.PlainName f.1)
    (hdown : ∀ l, P (node l) → ∀ p q c, l.Child p q c → P c)
    (hnode : ∀ l l', P (node l) → P (node l') →
      List.Forall₂ (Part.Rel R) l.dropEmptyRecord.partList l'.dropEmptyRecord.partList →
      R (node l) (node l'))
    {b c : Bundle} (hb : P b) (hc : P c) (h : b.key = c.key) : R b c := by
  have hreads : ∀ b, P b → ∀ c, P c → Reads R chars chars b c := by
    intro b
    induction b with
    | node l ih =>
      intro hl c hc s r hs hr h
      rcases c with ⟨l'⟩
      rw [chars, chars, toList_key, toList_key] at h
      simp only [List.cons_append, List.append_assoc, List.nil_append, List.cons.injEq,
        true_and] at h
      obtain ⟨hparts, hsr⟩ := items_inj (by decide) (by decide)
        (fun x hx y hy => partChars_reads
          (Layer.part_madeOf (fun _ _ => trivial) (hnames l hl)
            (fun p q b hb => ih p q b hb (hdown l hl p q b hb)) hx)
          (Layer.part_madeOf (fun _ _ => trivial) (hnames l' hc) (hdown l' hc) hy))
        (fun x _ => head_partChars_ne x) (fun y _ => head_partChars_ne y) h
      exact ⟨hnode l l' hl hc hparts, hsr⟩
  have ends : Ends [] := fun _ hc => nomatch hc
  exact (hreads b hb c hc [] [] ends ends (congrArg (fun k => k.toList ++ []) h)).1

end Reads

theorem map_dropEmptyRecords_eq {t : BoundTable} {P : Bundle → Prop} {x y : Part Bundle}
    (h : x.Rel (fun b c => SameFields b c) y) (hx : x.MadeOf (.plain t) P)
    (hy : y.MadeOf (.plain t) P) : x.map dropEmptyRecords = y.map dropEmptyRecords := by
  cases h with
  | var hid => exact congrArg Part.var (BoundTable.Owns.eq hx hy hid)
  | base b => rfl
  | record hfields =>
    refine congrArg Part.record (map_eq_of_forall₂ hfields fun f _ f' hf => ?_)
    exact Prod.ext hf.1 hf.2
  | tuple helems => exact congrArg Part.tuple (map_eq_of_forall₂ helems fun _ _ _ => id)
  | func hparam hresult => exact congrArg Part.func (Prod.ext hparam hresult)
  | top => rfl

theorem sameFields_of_key_eq {t : BoundTable} {depth : Nat} {b c : Bundle}
    (hb : b.MadeOf (.plain t) depth) (hc : c.MadeOf (.plain t) depth) (h : b.key = c.key) :
    SameFields b c := by
  have hlayer : ∀ l, (∃ depth, (node l).MadeOf (.plain t) depth) →
      l.MadeOf (.plain t) fun b => ∃ depth, b.MadeOf (.plain t) depth := by
    rintro l ⟨depth, hl⟩
    cases depth with
    | zero => cases hl
    | succ depth => exact Layer.MadeOf.imp hl fun b hb => ⟨depth, hb⟩
  refine rel_of_key_eq (fun l hl fields hr f hf => (((hlayer l hl).record hr).2 f hf).1)
    (fun l hl p q c hc => (hlayer l hl).child hc) (fun l l' hl hl' hparts => ?_) ⟨depth, hb⟩
    ⟨depth, hc⟩ h
  have hlist := map_eq_of_forall₂ (forall₂_imp_of_mem hparts fun x hx y hy hxy =>
    map_dropEmptyRecords_eq hxy ((hlayer l hl).part hx) ((hlayer l' hl').part hy)) fun _ _ _ => id
  rw [← Layer.partList_map, ← Layer.partList_map] at hlist
  show dropEmptyRecords _ = dropEmptyRecords _
  rw [dropEmptyRecords_node, dropEmptyRecords_node]
  exact congrArg node (Layer.eq_of_partList_eq hlist)

theorem exists_var_of_key_eq {b : Bundle} {v : Var} (h : b.key = (ofVar v).key) :
    ∃ w ∈ b.layer.vars.items, w.id = v.id := by
  rcases b with ⟨l⟩
  have hread : ∀ x : Part Bundle, Reads (fun x _ => ∃ w, x = .var w ∧ w.id = v.id) partChars
      partChars x (.var v) := by
    intro x s r hs hr h
    have hkind := congrArg (fun cs => cs.head?.map kind) h
    simp only [kind_head, Option.some.injEq] at hkind
    cases x with
    | var w =>
      rw [partChars_var, partChars_var] at h
      obtain ⟨hid, hsr⟩ := digits_append_inj hs hr h
      exact ⟨⟨w, rfl, hid⟩, hsr⟩
    | _ => cases hkind
  have hkeys := congrArg String.toList h
  rw [ofVar, toList_key, toList_key] at hkeys
  have hitems : items (l.dropEmptyRecord.partList.map partChars) ++ ['›'] =
      items ([Part.var v].map partChars) ++ ['›'] := (List.cons.inj hkeys).2
  obtain ⟨hparts, -⟩ := items_inj (by decide) (by decide)
    (fun x _ y hy => List.mem_singleton.mp hy ▸ hread x) (fun x _ => head_partChars_ne x)
    (fun y _ => head_partChars_ne y) hitems
  obtain ⟨x, hx, w, rfl, hid⟩ := forall₂_exists_left hparts (List.mem_singleton_self _)
  refine ⟨w, ?_, hid⟩
  rcases l with ⟨vars, bases, tuple, record, func, top⟩
  show w ∈ vars.items
  cases top <;> simpa [Layer.partList, Layer.dropEmptyRecord] using hx

end Bundle
end Biunify
