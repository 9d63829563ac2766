import Biunify.Proofs.Term.Structure
import Biunify.Proofs.Term.Words
import Biunify.Text.Printable

/-! The text of a term determines it. A text is read in three levels: a term that binds a name says
so by its first word and extends as far as it can; any other is a chain of calls, whose parts are
set apart by blanks; and each part is a chain of selections from something that tells what it is by
its first character. What stands in brackets is read from the weakest level again. -/

namespace Biunify
namespace Term

open Ty.Key

/-- A term with identifiers for names that has no float literal and no tuple of one element. -/
inductive Plain : Term → Prop
  | bool (b : Bool) : Plain (literal (.bool b))
  | int (n : Int) : Plain (literal (.int n))
  | str (s : String) : Plain (literal (.str s))
  | var {name : String} (hname : Identifier name) : Plain (var name)
  | lambda {param : String} {body : Term} (hparam : Identifier param) (hbody : Plain body) :
    Plain (lambda param body)
  | apply {fn arg : Term} (hfn : Plain fn) (harg : Plain arg) : Plain (apply fn arg)
  | record {fields : List (String × Term)} (hnames : ∀ f ∈ fields, Identifier f.1)
    (h : ∀ f ∈ fields, Plain f.2) : Plain (record fields)
  | select {receiver : Term} {field : String} (hreceiver : Plain receiver)
    (hfield : Identifier field) : Plain (select receiver field)
  | tuple {elems : List Term} (hlength : elems.length ≠ 1) (h : ∀ t ∈ elems, Plain t) :
    Plain (tuple elems)
  | letIn {name : String} {recursive : Bool} {rhs body : Term} (hname : Identifier name)
    (hrhs : Plain rhs) (hbody : Plain body) : Plain (letIn name recursive rhs body)

variable {quote : String → String}

section Texts

abbrev text (quote : String → String) (outer : Nat) (t : Term) : List Char :=
  (t.renderAt quote outer).toList

abbrev unit (quote : String → String) (t : Term) : List Char := text quote selectPrec t

def prec? : Term → Option Nat
  | lambda .. | letIn .. => some lambdaPrec
  | apply .. => some applyPrec
  | _ => none

theorem text_eq (outer : Nat) (t : Term) :
    text quote outer t =
      if t.prec?.any (· < outer) then '(' :: (text quote 0 t ++ [')']) else text quote 0 t := by
  cases t with
  | lambda | letIn | apply =>
    simp only [text, renderAt, parensIf, prec?, Option.any_some, decide_eq_true_eq]
    split <;> simp [parens]
  | _ => rfl

theorem text_congr {t : Term} {outer outer' : Nat}
    (h : t.prec?.any (· < outer) = t.prec?.any (· < outer')) :
    text quote outer t = text quote outer' t := by
  rw [text_eq, text_eq outer', h]

theorem renderElems_eq (ts : List Term) : renderElems quote ts = ts.map (renderAt quote 0) := by
  induction ts with
  | nil => rfl
  | cons t ts ih => rw [renderElems, ih, List.map_cons]

theorem renderFields_eq (fields : List (String × Term)) :
    renderFields quote fields = fields.map fun f => labelled f.1 (f.2.renderAt quote 0) := by
  induction fields with
  | nil => rfl
  | cons f fields ih => rw [renderFields, ih, List.map_cons]

theorem text_lambda (param : String) (body : Term) :
    text quote 0 (lambda param body) =
      "fun".toList ++ ' ' :: (param.toList ++ ' ' :: '-' :: '>' :: ' ' :: text quote 0 body) := by
  have hbody : text quote lambdaPrec body = text quote 0 body := text_congr (by cases body <;> rfl)
  rw [← hbody]
  simp [text, renderAt, parensIf]

theorem text_letIn (name : String) (recursive : Bool) (rhs body : Term) :
    text quote 0 (letIn name recursive rhs body) =
      "let".toList ++ ' ' :: ((if recursive then "rec ".toList else []) ++
        (name.toList ++ ' ' :: '=' :: ' ' ::
          (text quote 0 rhs ++ (" in ".toList ++ text quote 0 body)))) := by
  cases recursive <;> simp [text, renderAt, parensIf, bindingHead]

theorem text_tuple (outer : Nat) (ts : List Term) :
    text quote outer (tuple ts) = '(' :: (items (ts.map (text quote 0)) ++ [')']) := by
  simp [text, renderAt, parens, toList_commaSep, renderElems_eq, Function.comp_def]

theorem text_record (outer : Nat) (fields : List (String × Term)) :
    text quote outer (record fields) =
      '\x7b' :: (items (fields.map (ofField (text quote 0))) ++ ['\x7d']) := by
  have hfields : (renderFields quote fields).map String.toList =
      fields.map (ofField (text quote 0)) := by
    simp [renderFields_eq, labelled, ofField, text]
  simp [text, renderAt, braces, toList_commaSep, hfields]

theorem text_select (outer : Nat) (receiver : Term) (field : String) :
    text quote outer (select receiver field) = unit quote receiver ++ '.' :: field.toList := by
  simp [text, renderAt]

end Texts

section Follows

abbrev UnitEnds (s : List Char) : Prop := Stops (fun c => isWordChar c || c == '.') s

theorem UnitEnds.wordEnds {s : List Char} (h : UnitEnds s) : WordEnds s :=
  fun c hc => (Bool.or_eq_false_iff.mp (h c hc)).1

/-- A whole term ends here, as no selection and no argument goes on. The `in` of a `let` is set
apart as an argument is. -/
def Closes (s : List Char) : Prop :=
  Stops (fun c => isWordChar c || c == '.' || c == ' ') s ∨ " in ".toList <+: s

theorem closes_cons {c : Char} (h : (isWordChar c || c == '.' || c == ' ') = false)
    (r : List Char) : Closes (c :: r) := .inl (stops_cons r h)

theorem Closes.unitEnds {s : List Char} (h : Closes s) : UnitEnds s := by
  rcases h with h | ⟨r, rfl⟩
  · exact fun c hc => (Bool.or_eq_false_iff.mp (h c hc)).1
  · exact stops_cons _ (by decide)

theorem wordEnds_dot (r : List Char) : WordEnds (['.'] ++ r) := stops_cons r (by decide)

theorem unitEnds_blank (r : List Char) : UnitEnds ([' '] ++ r) := stops_cons r (by decide)

end Follows

section Faces

/-- What a term that is not a selection shows where every operator has parentheses. A word is a name
or a truth value; a group has the parentheses of a tuple or those of an operator. -/
inductive Face where
  | word (w : String)
  | number (n : Int)
  | string (s : String)
  | group (ts : List Term)
  | record (fields : List (String × Term))

namespace Face

def text (quote : String → String) : Face → List Char
  | word w => w.toList
  | number n => (Literal.renderInt n).toList
  | string s => (quote s).toList
  | group ts => '(' :: (items (ts.map (Term.text quote 0)) ++ [')'])
  | record fields => '\x7b' :: (items (fields.map (ofField (Term.text quote 0))) ++ ['\x7d'])

def term : Face → Term
  | word w =>
    if w = "true" then literal (.bool true)
    else if w = "false" then literal (.bool false)
    else var w
  | number n => literal (.int n)
  | string s => literal (.str s)
  | group [t] => t
  | group ts => tuple ts
  | record fields => .record fields

def Forall (P : Term → Prop) : Face → Prop
  | word w => w.toList.head?.any isLetter = true ∧ w.toList.all isWordChar = true
  | group ts => ∀ t ∈ ts, P t
  | record fields => ∀ f ∈ fields, Identifier f.1 ∧ P f.2
  | _ => True

def kind (c : Char) : Nat :=
  if isLetter c then 0
  else if c.isDigit || c == '-' then 1
  else if c = '"' then 2
  else if c = '(' then 3
  else if c = '\x7b' then 4
  else 5

variable {a b : Face} {P Q : Term → Prop} {r s : List Char}

theorem forall_renderBool (b : Bool) : (word (renderBool b)).Forall P := by
  cases b <;> exact ⟨by decide, by decide⟩

theorem forall_binder {w : String} (hw : w ∈ binders) : (word w).Forall P := by
  have hwords : ∀ w ∈ binders,
      w.toList.head?.any isLetter = true ∧ w.toList.all isWordChar = true := by
    decide
  exact hwords w hw

variable [LawfulQuoting quote]

variable (quote) in
theorem kind_head (ha : a.Forall P) (r : List Char) :
    (a.text quote ++ r).head?.map kind = some a.ctorIdx := by
  cases a with
  | word w =>
    obtain ⟨c, hc, hletter⟩ := (Option.any_eq_true _ _).mp ha.1
    have hkind : kind c = 0 := if_pos hletter
    rw [text, List.head?_append, hc]
    exact congrArg some hkind
  | number n =>
    rw [text, toList_renderInt]
    split
    · rfl
    · obtain ⟨c, cs, hcs⟩ :=
        List.exists_cons_of_ne_nil (Nat.toDigits_ne_nil (b := 10) (n := n.natAbs))
      have hdigit : c.isDigit = true :=
        Nat.isDigit_of_mem_toDigits (by decide) (by decide) (hcs ▸ List.mem_cons_self)
      have hkind : kind c = 1 := by simp [kind, isLetter_of_isDigit hdigit, hdigit]
      rw [hcs]
      exact congrArg some hkind
  | string s =>
    rw [text, List.head?_append, LawfulQuoting.opens]
    rfl
  | _ => rfl

theorem kind_eq (ha : a.Forall P) (hb : b.Forall Q) (h : a.text quote ++ r = b.text quote ++ s) :
    a.ctorIdx = b.ctorIdx := by
  have hhead := congrArg (fun cs => cs.head?.map kind) h
  simpa only [kind_head quote ha, kind_head quote hb, Option.some.injEq] using hhead

variable (quote) in
theorem head_text_ne (ha : a.Forall P) (r : List Char) : (a.text quote ++ r).head? ≠ some ')' := by
  intro h
  have hkind := kind_head quote ha r
  rw [h] at hkind
  cases a <;> cases hkind

theorem eq_word (ha : a.Forall P) {w : String} (hw : (word w).Forall P) (hr : WordEnds r)
    (hs : WordEnds s) (h : a.text quote ++ r = w.toList ++ s) : a = word w := by
  have hkind := kind_eq ha hw h
  cases a with
  | word v => rw [(word_reads ha.2 hw.2 r s hr hs h).1]
  | _ => cases hkind

end Face

def face : Term → Face
  | literal (.bool b) => .word (renderBool b)
  | literal (.int n) => .number n
  | literal (.str s) => .string s
  | var name => .word name
  | tuple ts => .group ts
  | record fields => .record fields
  | t => .group [t]

variable {t : Term}

theorem Plain.face (ht : t.Plain) : t.face.Forall Plain := by
  cases ht with
  | bool b => exact Face.forall_renderBool b
  | int | str => trivial
  | var hname => exact ⟨hname.letter, hname.chars⟩
  | tuple _ h => exact h
  | record hnames h => exact fun f hf => ⟨hnames f hf, h f hf⟩
  | lambda hparam hbody => exact List.forall_mem_singleton.mpr (.lambda hparam hbody)
  | apply hfn harg => exact List.forall_mem_singleton.mpr (.apply hfn harg)
  | select hreceiver hfield => exact List.forall_mem_singleton.mpr (.select hreceiver hfield)
  | letIn hname hrhs hbody => exact List.forall_mem_singleton.mpr (.letIn hname hrhs hbody)

theorem Plain.term_face (ht : t.Plain) : t.face.term = t := by
  cases ht with
  | bool b => cases b <;> rfl
  | @var name hname =>
    have htrue : name ≠ "true" := fun h => hname.free (h ▸ by decide)
    have hfalse : name ≠ "false" := fun h => hname.free (h ▸ by decide)
    rw [Term.face, Face.term, if_neg htrue, if_neg hfalse]
  | @tuple elems hlength _ =>
    rw [Term.face, Face.term]
    rintro t rfl
    exact hlength rfl
  | _ => rfl

theorem Plain.face_ne_binder (ht : t.Plain) {w : String} (hw : w ∈ binders) : t.face ≠ .word w := by
  cases ht with
  | bool b =>
    rintro ⟨⟩
    cases b <;> revert hw <;> decide
  | var hname =>
    rintro ⟨⟩
    exact hname.free (List.mem_append_left _ hw)
  | _ => simp [Term.face]

theorem unit_face (ht : ∀ u field, t ≠ select u field) (hplain : t.Plain) :
    unit quote t = t.face.text quote := by
  cases hplain with
  | bool | int | str | var => rfl
  | tuple => exact text_tuple _ _
  | record => exact text_record _ _
  | select => exact absurd rfl (ht _ _)
  | lambda | apply | letIn =>
    rw [unit, text_eq, if_pos (by rfl)]
    simp [Term.face, Face.text, separated]

end Faces

section Chains

variable {t u : Term} {r s : List Char}

theorem Plain.receiver (ht : t.Plain) : t.receiver.Plain := by
  induction t with
  | select t field ih =>
    cases ht with
    | select ht _ => exact ih ht
  | _ => exact ht

theorem Plain.path (ht : t.Plain) : ∀ field ∈ t.path, Identifier field := by
  induction ht with
  | select _ hfield ih =>
    exact List.forall_mem_append.mpr ⟨ih, List.forall_mem_singleton.mpr hfield⟩
  | _ => simp [Term.path]

theorem Plain.callee (ht : t.Plain) : t.callee.Plain := by
  induction t with
  | apply fn arg ih _ =>
    cases ht with
    | apply hfn _ => exact ih hfn
  | _ => exact ht

theorem Plain.args (ht : t.Plain) : ∀ arg ∈ t.args, arg.Plain := by
  induction ht with
  | apply _ harg ih _ =>
    exact List.forall_mem_append.mpr ⟨ih, List.forall_mem_singleton.mpr harg⟩
  | _ => simp [Term.args]

theorem unit_path (ht : t.Plain) :
    unit quote t =
      t.receiver.face.text quote ++ (t.path.map String.toList).flatMap (['.'] ++ ·) := by
  rw [← unit_face t.receiver_ne_select ht.receiver]
  -- From here on nothing depends on the names, so the induction is over all terms.
  clear ht
  induction t with
  | select t field ih =>
    rw [unit, text_select, ih, Term.path, Term.receiver]
    simp
  | _ => simp [Term.path, Term.receiver]

theorem text_args (t : Term) :
    text quote applyPrec t =
      unit quote t.callee ++ (t.args.map (unit quote)).flatMap ([' '] ++ ·) := by
  induction t with
  | apply fn arg ih _ =>
    have harg : text quote (applyPrec + 1) arg = unit quote arg := text_congr (by cases arg <;> rfl)
    have happly : text quote applyPrec (apply fn arg) =
        text quote applyPrec fn ++ ' ' :: text quote (applyPrec + 1) arg := by
      simp [text, renderAt, parensIf]
    rw [happly, harg, ih, Term.callee, Term.args]
    simp
  | _ =>
    simp only [Term.args, Term.callee, List.map_nil, List.flatMap_nil, List.append_nil]
    exact text_congr rfl

variable [LawfulQuoting quote]

theorem unit_ne_binder (ht : t.Plain) (hr : UnitEnds r) {w : String} (hw : w ∈ binders)
    (hs : WordEnds s) : unit quote t ++ r ≠ w.toList ++ s := by
  intro h
  rw [unit_path ht, List.append_assoc] at h
  exact ht.receiver.face_ne_binder hw (Face.eq_word ht.receiver.face (Face.forall_binder hw)
    (follow_further wordEnds_dot hr.wordEnds) hs h)

theorem Closes.noMore (hs : Closes s) {ts : List Term} (hts : ∀ t ∈ ts, t.Plain) :
    NoMore UnitEnds (unit quote) [' '] ts s := by
  intro t ht r hr h
  rcases hs with hs | ⟨rest, rfl⟩
  · have hblank := hs ' ' (by rw [← h]; rfl)
    revert hblank
    decide
  · have hin : unit quote t ++ r = "in".toList ++ ' ' :: rest := (List.cons.inj h).2
    exact unit_ne_binder (hts t ht) hr (by decide) (stops_cons _ (by decide)) hin

end Chains

section Binders

def binds : Term → Bool
  | lambda .. | letIn .. => true
  | _ => false

variable {t : Term}

variable (quote) in
theorem text_of_binds (h : t.binds = true) :
    ∃ w ∈ binders, ∃ s, text quote 0 t = w.toList ++ ' ' :: s := by
  cases t with
  | lambda param body => exact ⟨"fun", by decide, _, text_lambda param body⟩
  | letIn name recursive rhs body =>
    exact ⟨"let", by decide, _, text_letIn name recursive rhs body⟩
  | _ => cases h

theorem text_of_not_binds (h : t.binds = false) : text quote 0 t = text quote applyPrec t := by
  refine text_congr ?_
  cases t with
  | lambda | letIn => cases h
  | _ => rfl

variable [LawfulQuoting quote]

theorem binds_of_text (ht : t.Plain) {r s : List Char} (hr : Closes r) {w : String}
    (hw : w ∈ binders) (h : text quote 0 t ++ r = w.toList ++ ' ' :: s) : t.binds = true := by
  by_contra hbinds
  rw [text_of_not_binds (Bool.not_eq_true _ ▸ hbinds), text_args, List.append_assoc] at h
  exact unit_ne_binder ht.callee (follow_further unitEnds_blank hr.unitEnds) hw
    (stops_cons _ (by decide)) h

theorem head_text_ne (ht : t.Plain) (r : List Char) : (text quote 0 t ++ r).head? ≠ some ')' := by
  cases hbinds : t.binds with
  | true =>
    obtain ⟨w, hw, s, h⟩ := text_of_binds quote hbinds
    rw [h, List.append_assoc]
    exact Face.head_text_ne quote (P := Plain) (Face.forall_binder hw) _
  | false =>
    rw [text_of_not_binds hbinds, text_args, unit_path ht.callee, List.append_assoc,
      List.append_assoc]
    exact Face.head_text_ne quote ht.callee.receiver.face _

theorem bound_inj {x y : String} (hx : Identifier x) (hy : Identifier y) {b c : Bool}
    {r s : List Char}
    (h : (if b then "rec ".toList else []) ++ (x.toList ++ ' ' :: r) =
      (if c then "rec ".toList else []) ++ (y.toList ++ ' ' :: s)) :
    b = c ∧ x = y ∧ r = s := by
  have hends : ∀ {r : List Char}, WordEnds (' ' :: r) := stops_cons _ (by decide)
  have hname : ∀ {x y : String} {r s : List Char}, x.toList.all isWordChar = true →
      Identifier y → x.toList ++ ' ' :: r = y.toList ++ ' ' :: s → x = y ∧ r = s := by
    intro x y r s hx hy h
    obtain ⟨hxy, hrs⟩ := word_reads hx hy.chars _ _ hends hends h
    exact ⟨hxy, (List.cons.inj hrs).2⟩
  have hrec : ∀ {x : String} {r s : List Char}, Identifier x →
      "rec ".toList ++ r ≠ x.toList ++ ' ' :: s := by
    intro x r s hx h
    obtain ⟨rfl, -⟩ := hname (x := "rec") (by decide) hx h
    exact hx.free (by decide)
  cases b <;> cases c
  · exact ⟨rfl, hname hx.chars hy h⟩
  · exact absurd h.symm (hrec hx)
  · exact absurd h (hrec hy)
  · exact ⟨rfl, hname hx.chars hy (List.append_cancel_left h)⟩

end Binders

section Readable

variable [LawfulQuoting quote] {t u : Term}

def Legible (follow : List Char → Prop) (enc : Term → List Char) (t : Term) : Prop :=
  ∀ u : Term, u.Plain → ReadsBefore follow Eq enc enc t u

theorem Face.reads {a b : Face}
    (ha : a.Forall fun t => t.Plain ∧ Legible Closes (Term.text quote 0) t) (hb : b.Forall Plain) :
    ReadsBefore WordEnds Eq (text quote) (text quote) a b := by
  intro s r hs hr h
  have hkind := kind_eq ha hb h
  cases a with
  | word v =>
    cases b with
    | word w =>
      obtain ⟨rfl, hsr⟩ := word_reads ha.2 hb.2 s r hs hr h
      exact ⟨rfl, hsr⟩
    | _ => cases hkind
  | number m =>
    cases b with
    | number n =>
      obtain ⟨rfl, hsr⟩ := renderInt_reads m n s r hs.ends hr.ends h
      exact ⟨rfl, hsr⟩
    | _ => cases hkind
  | string v =>
    cases b with
    | string w =>
      obtain ⟨rfl, hsr⟩ := LawfulQuoting.reads quote v w s r trivial trivial h
      exact ⟨rfl, hsr⟩
    | _ => cases hkind
  | group ts =>
    cases b with
    | group us =>
      simp only [text, List.cons_append, List.append_assoc, List.nil_append, List.cons.injEq,
        true_and] at h
      obtain ⟨hts, hsr⟩ := closed_inj (by decide) (closes_cons (by decide))
        (closes_cons (by decide)) (fun t ht u hu => (ha t ht).2 u (hb u hu))
        (fun t ht => Term.head_text_ne (ha t ht).1) (fun u hu => Term.head_text_ne (hb u hu)) h
      rw [List.forall₂_eq_eq_eq] at hts
      exact ⟨congrArg group hts, hsr⟩
    | _ => cases hkind
  | record fs =>
    cases b with
    | record gs =>
      simp only [text, List.cons_append, List.append_assoc, List.nil_append, List.cons.injEq,
        true_and] at h
      obtain ⟨hfs, hsr⟩ := closed_inj (by decide) (closes_cons (by decide))
        (closes_cons (by decide))
        (fun f hf g hg => ofField_reads (ha f hf).1.plainName (hb g hg).1.plainName
          ((ha f hf).2.2 g.2 (hb g hg).2))
        (fun f hf => head_ofField_ne (ha f hf).1.plainName)
        (fun g hg => head_ofField_ne (hb g hg).1.plainName) h
      have heq : List.Forall₂ Eq fs gs := hfs.imp fun _ _ hfg => Prod.ext hfg.1 hfg.2
      rw [List.forall₂_eq_eq_eq] at heq
      exact ⟨congrArg record heq, hsr⟩
    | _ => cases hkind

def FaceLegible (quote : String → String) (t : Term) : Prop :=
  ∀ u : Term, u.Plain →
    ReadsBefore WordEnds Eq (Face.text quote) (Face.text quote) t.receiver.face u.receiver.face

structure Readable (quote : String → String) (t : Term) : Prop where
  face : FaceLegible quote t
  units : ∀ x ∈ t.callee :: t.args, Legible UnitEnds (unit quote) x
  whole : Legible Closes (text quote 0) t

omit [LawfulQuoting quote] in
theorem legible_unit (ht : t.Plain) (h : FaceLegible quote t) :
    Legible UnitEnds (unit quote) t := by
  intro u hu s r hs hr heq
  have hdot : ∀ {s : List Char}, UnitEnds s → ¬['.'] <+: s := by
    rintro s hs ⟨rest, rfl⟩
    cases hs '.' rfl
  rw [unit_path ht, unit_path hu, List.append_assoc, List.append_assoc] at heq
  obtain ⟨hface, heq⟩ := h u hu _ _ (follow_further wordEnds_dot hs.wordEnds)
    (follow_further wordEnds_dot hr.wordEnds) heq
  obtain ⟨hpath, hsr⟩ := more_inj wordEnds_dot hs.wordEnds hr.wordEnds (hdot hs) (hdot hr)
    (fun x hx y hy => word_reads (ht.path x hx).chars (hu.path y hy).chars) heq
  rw [List.forall₂_eq_eq_eq] at hpath
  have hreceiver : t.receiver = u.receiver := by
    rw [← ht.receiver.term_face, hface, hu.receiver.term_face]
  exact ⟨by rw [← foldl_select t, hreceiver, hpath, foldl_select u], hsr⟩

theorem legible_of_units (ht : t.Plain) (hbinds : t.binds = false)
    (h : ∀ x ∈ t.callee :: t.args, Legible UnitEnds (unit quote) x) :
    Legible Closes (text quote 0) t := by
  intro u hu s r hs hr heq
  cases hbinds' : u.binds with
  | true =>
    obtain ⟨w, hw, rest, hrest⟩ := text_of_binds quote hbinds'
    rw [hrest, List.append_assoc] at heq
    rw [binds_of_text ht hs hw heq] at hbinds
    cases hbinds
  | false =>
    rw [text_of_not_binds hbinds, text_of_not_binds hbinds', text_args, text_args,
      List.append_assoc, List.append_assoc] at heq
    obtain ⟨hcallee, heq⟩ := h t.callee List.mem_cons_self u.callee hu.callee _ _
      (follow_further unitEnds_blank hs.unitEnds) (follow_further unitEnds_blank hr.unitEnds) heq
    obtain ⟨hargs, hsr⟩ := further_inj unitEnds_blank hs.unitEnds hr.unitEnds
      (hs.noMore hu.args) (hr.noMore ht.args)
      (fun x hx y hy => h x (List.mem_cons_of_mem _ hx) y (hu.args y hy)) heq
    rw [List.forall₂_eq_eq_eq] at hargs
    exact ⟨by rw [← applyTo_args t, hcallee, hargs, applyTo_args u], hsr⟩

theorem legible_lambda {param : String} {body : Term} (hparam : Identifier param)
    (h : Legible Closes (text quote 0) body) :
    Legible Closes (text quote 0) (lambda param body) := by
  intro u hu s r hs hr heq
  rw [text_lambda, List.append_assoc] at heq
  have hbinds := binds_of_text hu hr (by decide) heq.symm
  cases hu with
  | lambda hparam' hbody' =>
    simp only [text_lambda, List.append_assoc, List.cons_append, List.append_cancel_left_eq,
      List.cons.injEq, true_and] at heq
    obtain ⟨rfl, hrest⟩ := word_reads hparam.chars hparam'.chars _ _ (stops_cons _ (by decide))
      (stops_cons _ (by decide)) heq
    simp only [List.cons.injEq, true_and] at hrest
    obtain ⟨rfl, hsr⟩ := h _ hbody' s r hs hr hrest
    exact ⟨rfl, hsr⟩
  | letIn =>
    rw [text_letIn] at heq
    cases congrArg List.head? heq
  | _ => cases hbinds

theorem legible_letIn {name : String} {recursive : Bool} {rhs body : Term}
    (hname : Identifier name) (hrhs : Legible Closes (text quote 0) rhs)
    (hbody : Legible Closes (text quote 0) body) :
    Legible Closes (text quote 0) (letIn name recursive rhs body) := by
  intro u hu s r hs hr heq
  rw [text_letIn, List.append_assoc] at heq
  have hbinds := binds_of_text hu hr (by decide) heq.symm
  cases hu with
  | letIn hname' hrhs' hbody' =>
    simp only [text_letIn, List.append_assoc, List.cons_append, List.append_cancel_left_eq,
      List.cons.injEq, true_and] at heq
    obtain ⟨rfl, rfl, hparts⟩ := bound_inj hname hname' heq
    simp only [List.cons.injEq, true_and] at hparts
    -- The right-hand side is read up to the `in` behind it, which is no argument of its last call.
    obtain ⟨rfl, hrest⟩ := hrhs _ hrhs' _ _ (.inr (List.prefix_append _ _))
      (.inr (List.prefix_append _ _)) hparts
    obtain ⟨rfl, hsr⟩ := hbody _ hbody' s r hs hr (List.append_cancel_left hrest)
    exact ⟨rfl, hsr⟩
  | lambda =>
    rw [text_lambda] at heq
    cases congrArg List.head? heq
  | _ => cases hbinds

theorem readable_of_face (ht : t.Plain) (hprec : t.prec? = none) (h : FaceLegible quote t) :
    Readable quote t := by
  have hchain : t.binds = false ∧ t.callee :: t.args = [t] := by
    cases t with
    | lambda | apply | letIn => cases hprec
    | _ => exact ⟨rfl, rfl⟩
  have hunits : ∀ x ∈ t.callee :: t.args, Legible UnitEnds (unit quote) x := by
    rw [hchain.2]
    exact List.forall_mem_singleton.mpr (legible_unit ht h)
  exact ⟨h, hunits, legible_of_units ht hchain.1 hunits⟩

theorem face_of_whole (ht : t.Plain) (hreceiver : t.receiver = t) (hface : t.face = .group [t])
    (h : Legible Closes (text quote 0) t) : FaceLegible quote t := by
  intro u hu
  refine Face.reads ?_ hu.receiver.face
  rw [hreceiver, hface]
  exact List.forall_mem_singleton.mpr ⟨ht, h⟩

theorem Plain.readable (ht : t.Plain) : Readable quote t := by
  -- by induction over the term: its parts are read first, and then the levels from its own outwards
  -- and, in parentheses, from the face
  induction ht with
  | bool b =>
    exact readable_of_face (.bool b) rfl fun u hu =>
      Face.reads (Face.forall_renderBool b) hu.receiver.face
  | int n => exact readable_of_face (.int n) rfl fun u hu => Face.reads trivial hu.receiver.face
  | str s => exact readable_of_face (.str s) rfl fun u hu => Face.reads trivial hu.receiver.face
  | var hname =>
    exact readable_of_face (.var hname) rfl fun u hu =>
      Face.reads ⟨hname.letter, hname.chars⟩ hu.receiver.face
  | record hnames h ih =>
    refine readable_of_face (.record hnames h) rfl fun u hu => Face.reads ?_ hu.receiver.face
    exact fun f hf => ⟨hnames f hf, h f hf, (ih f hf).whole⟩
  | tuple hlength h ih =>
    refine readable_of_face (.tuple hlength h) rfl fun u hu => Face.reads ?_ hu.receiver.face
    exact fun t ht => ⟨h t ht, (ih t ht).whole⟩
  | select hreceiver hfield ih => exact readable_of_face (.select hreceiver hfield) rfl ih.face
  | apply hfn harg ihfn iharg =>
    have hplain := Plain.apply hfn harg
    have hunits := List.forall_mem_append.mpr
      ⟨ihfn.units, List.forall_mem_singleton.mpr (legible_unit harg iharg.face)⟩
    have hwhole := legible_of_units hplain rfl hunits
    exact ⟨face_of_whole hplain rfl rfl hwhole, hunits, hwhole⟩
  | lambda hparam hbody ih =>
    have hplain := Plain.lambda hparam hbody
    have hwhole := legible_lambda hparam ih.whole
    have hface := face_of_whole hplain rfl rfl hwhole
    exact ⟨hface, List.forall_mem_singleton.mpr (legible_unit hplain hface), hwhole⟩
  | @letIn name recursive rhs body hname hrhs hbody ihrhs ihbody =>
    have hplain : (Term.letIn name recursive rhs body).Plain := .letIn hname hrhs hbody
    have hwhole : Legible Closes (text quote 0) (Term.letIn name recursive rhs body) :=
      legible_letIn hname ihrhs.whole ihbody.whole
    have hface := face_of_whole hplain rfl rfl hwhole
    exact ⟨hface, List.forall_mem_singleton.mpr (legible_unit hplain hface), hwhole⟩

/-- The parentheses that are printed are enough: however strings are quoted, as long as their quoted
texts can be told apart, no two terms have one text. -/
theorem render_inj (ht : t.Plain) (hu : u.Plain) :
    t.render quote = u.render quote ↔ t = u := by
  refine ⟨fun h => ?_, congrArg (render quote)⟩
  have hend : Closes [] := .inl fun c hc => by cases hc
  have hread := ht.readable.whole u hu [] [] hend hend (congrArg (fun s => s.toList ++ []) h)
  exact hread.1

def callInside : Term :=
  letIn "g" true (lambda "x" (var "x")) (apply (var "g") (literal (.int 1)))

def callOutside : Term :=
  apply (letIn "g" true (lambda "x" (var "x")) (var "g")) (literal (.int 1))

theorem callInside_plain : callInside.Plain :=
  .letIn (by decide) (.lambda (by decide) (.var (by decide))) (.apply (.var (by decide)) (.int 1))

theorem callOutside_plain : callOutside.Plain :=
  .apply (.letIn (by decide) (.lambda (by decide) (.var (by decide))) (.var (by decide))) (.int 1)

theorem render_inj_callInside :
    callInside.Plain ∧ callOutside.Plain ∧
      (callInside.render (quoted Quoted.printable) = callOutside.render (quoted Quoted.printable) ↔
        callInside = callOutside) :=
  ⟨callInside_plain, callOutside_plain, render_inj callInside_plain callOutside_plain⟩

end Readable

end Term
end Biunify
