import Biunify.Proofs.Ty.Key
import Biunify.Term.Printer

/-! Reading the smallest pieces of the text of a term: quoted strings, numbers and words. Of the
quoting only three laws are used, which hold whatever characters it writes bare. A number or a word
ends where no character of a word goes on. -/

namespace Biunify

open Ty.Key

namespace Quoted

theorem digitChar_inj : ∀ m < 16, ∀ n < 16, Nat.digitChar m = Nat.digitChar n → m = n := by
  decide

theorem hex_inj {m n : Nat} (h : Nat.toDigits 16 m = Nat.toDigits 16 n) : m = n := by
  -- A number that has one digit does not end in another number's last digit with some before it.
  have hshort : ∀ {k : Nat} {c d : Char}, [c] ≠ Nat.toDigits 16 k ++ [d] := by
    intro k c d heq
    have hlength := congrArg List.length heq
    have hpos := Nat.length_toDigits_pos (b := 16) (n := k)
    rw [List.length_append, List.length_singleton, List.length_singleton] at hlength
    omega
  induction m using Nat.strongRecOn generalizing n with
  | ind m ih =>
    rw [Nat.toDigits_eq_if (by decide), Nat.toDigits_eq_if (n := n) (by decide)] at h
    split at h <;> split at h
    · rename_i hm hn
      exact digitChar_inj m hm n hn (List.singleton_inj.mp h)
    · exact absurd h hshort
    · exact absurd h.symm hshort
    · obtain ⟨hdiv, hmod⟩ := List.append_inj' h rfl
      have hquot := ih (m / 16) (by omega) hdiv
      have hrem := digitChar_inj (m % 16) (Nat.mod_lt m (by decide)) (n % 16)
        (Nat.mod_lt n (by decide)) (List.singleton_inj.mp hmod)
      omega

theorem closing_not_hex (n : Nat) : ∀ c ∈ Nat.toDigits 16 n, (c != '\x7d') = true := by
  have hdigit : ∀ k < 16, (Nat.digitChar k != '\x7d') = true := by decide
  induction n using Nat.strongRecOn with
  | ind n ih =>
    intro c hc
    rw [Nat.toDigits_eq_if (by decide)] at hc
    split at hc
    · rename_i hn
      exact List.mem_singleton.mp hc ▸ hdigit n hn
    · rcases List.mem_append.mp hc with hc | hc
      · exact ih (n / 16) (by omega) c hc
      · exact List.mem_singleton.mp hc ▸ hdigit (n % 16) (Nat.mod_lt n (by decide))

def named (letter : Char) : Char :=
  if letter = 'n' then '\n'
  else if letter = 'r' then '\r'
  else if letter = 't' then '\t'
  else if letter = '0' then '\x00'
  else letter

inductive Escaped (c : Char) : List Char → Prop
  | bare (hquote : c ≠ '"') (hslash : c ≠ '\\') : Escaped c [c]
  | named (letter : Char) (hletter : letter ≠ 'u') (h : c = named letter) : Escaped c ['\\', letter]
  | code : Escaped c ('\\' :: 'u' :: '\x7b' :: (Nat.toDigits 16 c.toNat ++ ['\x7d']))

theorem escape_escaped (bare : Char → Bool) (c : Char) : Escaped c (escape bare c).toList := by
  unfold escape
  split_ifs with hquote hslash hn hr ht hzero hbare
  · exact .named '"' (by decide) hquote
  · exact .named '\\' (by decide) hslash
  · exact .named 'n' (by decide) hn
  · exact .named 'r' (by decide) hr
  · exact .named 't' (by decide) ht
  · exact .named '0' (by decide) (Char.toNat_inj.mp hzero)
  · have hself : c.toString.toList = [c] := by simp
    exact hself ▸ .bare hquote hslash
  · have hcode : (codePoint c).toList =
        '\\' :: 'u' :: '\x7b' :: (Nat.toDigits 16 c.toNat ++ ['\x7d']) := by
      simp [codePoint, braces]
    exact hcode ▸ .code

theorem Escaped.append_inj {c d : Char} {e f s t : List Char} (he : Escaped c e)
    (hf : Escaped d f) (h : e ++ s = f ++ t) : c = d ∧ s = t := by
  cases he with
  | bare hquote hslash =>
    cases hf with
    | bare => exact List.cons.inj h
    | named | code => exact absurd (List.cons.inj h).1 hslash
  | named letter hletter hc =>
    cases hf with
    | bare _ hslash => exact absurd (List.cons.inj h).1.symm hslash
    | named letter' _ hd =>
      obtain ⟨-, rfl, hst⟩ : True ∧ letter = letter' ∧ s = t := by simpa using h
      exact ⟨hc.trans hd.symm, hst⟩
    | code => exact absurd (List.cons.inj (List.cons.inj h).2).1 hletter
  | code =>
    cases hf with
    | bare _ hslash => exact absurd (List.cons.inj h).1.symm hslash
    | named letter' hletter _ => exact absurd (List.cons.inj (List.cons.inj h).2).1.symm hletter
    | code =>
      simp only [List.cons_append, List.append_assoc, List.cons.injEq, true_and] at h
      obtain ⟨hcode, hst⟩ := append_inj_of_stops (closing_not_hex _) (closing_not_hex _)
        (stops_cons _ (by decide)) (stops_cons _ (by decide)) h
      exact ⟨Char.toNat_inj.mp (hex_inj hcode), (List.cons.inj hst).2⟩

theorem Escaped.append_ne {c : Char} {e : List Char} (he : Escaped c e) (r s : List Char) :
    e ++ r ≠ '"' :: s := by
  intro h
  cases he with
  | bare hquote _ => exact hquote (List.cons.inj h).1
  | named | code => simp at h

end Quoted

/-- Strings are told apart by their quoted texts, none of which begins with another, and all of
which begin with a double quote. -/
class LawfulQuoting (quote : String → String) : Prop where
  injective : Function.Injective quote
  delimits : ∀ {a b : String}, (quote a).toList <+: (quote b).toList → quote a = quote b
  opens : ∀ s : String, (quote s).toList.head? = some '"'

theorem LawfulQuoting.reads (quote : String → String) [LawfulQuoting quote] (a b : String) :
    ReadsBefore (fun _ => True) Eq (fun s => (quote s).toList) (fun s => (quote s).toList)
      a b := by
  intro s t _ _ h
  have hsame : quote a = quote b := by
    rcases List.prefix_or_prefix_of_prefix (List.prefix_append (quote a).toList s)
      (h ▸ List.prefix_append (quote b).toList t) with hab | hba
    · exact delimits hab
    · exact (delimits hba).symm
  simp only [hsame, List.append_cancel_left_eq] at h
  exact ⟨injective hsame, h⟩

section Quoted

variable (bare : Char → Bool)

theorem toList_quoted (s : String) :
    (quoted bare s).toList = '"' ::
      ((s.toList.map fun c => (Quoted.escape bare c).toList).flatMap ([] ++ ·) ++ ['"']) := by
  simp [quoted, String.toList_join, List.flatMap_map]

theorem quoted_append_inj {a b : String} {s t : List Char}
    (h : (quoted bare a).toList ++ s = (quoted bare b).toList ++ t) : a = b ∧ s = t := by
  simp only [toList_quoted, List.cons_append, List.append_assoc, List.nil_append, List.cons.injEq,
    true_and] at h
  have hclosed : ∀ (cs r : List Char),
      NoMore (fun _ => True) (fun c => (Quoted.escape bare c).toList) [] cs ('"' :: r) :=
    fun _ r c _ r' _ => (Quoted.escape_escaped bare c).append_ne r' r
  have hreads : ∀ c ∈ a.toList, ∀ d ∈ b.toList, ReadsBefore (fun _ => True) Eq
      (fun c => (Quoted.escape bare c).toList) (fun c => (Quoted.escape bare c).toList) c d :=
    fun c _ d _ _ _ _ _ => (Quoted.escape_escaped bare c).append_inj (Quoted.escape_escaped bare d)
  obtain ⟨hchars, hst⟩ := further_inj (fun _ => trivial) trivial trivial (hclosed _ s)
    (hclosed _ t) hreads h
  rw [List.forall₂_eq_eq_eq] at hchars
  exact ⟨String.toList_inj.mp hchars, (List.cons.inj hst).2⟩

instance : LawfulQuoting (quoted bare) where
  injective _ _ h := (quoted_append_inj bare (congrArg (fun s => s.toList ++ []) h)).1
  delimits := by
    rintro a b ⟨rest, h⟩
    rw [(quoted_append_inj bare (h.trans (List.append_nil _).symm)).1]
  opens s := by rw [toList_quoted]; rfl

end Quoted

namespace Term

section Words

/-- All that is not ASCII counts as a letter, so that the letters of every script do. -/
def isLetter (c : Char) : Bool := c.isAlpha || 0x80 ≤ c.toNat

def isWordChar (c : Char) : Bool := isLetter c || c.isDigit || c == '_'

def binders : List String := ["fun", "let", "rec", "in"]

def keywords : List String := binders ++ ["true", "false"]

/-- A letter with letters, digits and underscores behind it that is not a keyword. -/
structure Identifier (name : String) : Prop where
  letter : name.toList.head?.any isLetter = true
  chars : name.toList.all isWordChar = true
  free : name ∉ keywords

instance (name : String) : Decidable (Identifier name) :=
  decidable_of_iff
    (name.toList.head?.any isLetter = true ∧ name.toList.all isWordChar = true ∧
      name ∉ keywords)
    ⟨fun h => ⟨h.1, h.2.1, h.2.2⟩, fun h => ⟨h.letter, h.chars, h.free⟩⟩

theorem Identifier.plainName {name : String} (h : Identifier name) : Ty.PlainName name := by
  have hchars := List.all_eq_true.mp h.chars
  exact ⟨fun hc => absurd (hchars _ hc) (by decide), fun hc => absurd (hchars _ hc) (by decide)⟩

abbrev WordEnds (s : List Char) : Prop := Stops isWordChar s

theorem word_reads {x y : String} (hx : x.toList.all isWordChar = true)
    (hy : y.toList.all isWordChar = true) :
    ReadsBefore WordEnds Eq String.toList String.toList x y := by
  intro s t hs ht h
  obtain ⟨hxy, hst⟩ :=
    append_inj_of_stops (List.all_eq_true.mp hx) (List.all_eq_true.mp hy) hs ht h
  exact ⟨String.toList_inj.mp hxy, hst⟩

theorem isLetter_of_isDigit {c : Char} (h : c.isDigit = true) : isLetter c = false := by
  have hdigits : ∀ k < 10, isLetter (Char.ofNat (48 + k)) = false := by decide
  have hrange : 48 ≤ c.toNat ∧ c.toNat ≤ 57 := by
    simpa [Char.isDigit, UInt32.le_iff_toNat_le] using h
  have hdigit := hdigits (c.toNat - 48) (by omega)
  rwa [Nat.add_sub_cancel' hrange.1, Char.ofNat_toNat] at hdigit

theorem isWordChar_of_isDigit {c : Char} (h : c.isDigit = true) : isWordChar c = true := by
  simp [isWordChar, h]

theorem WordEnds.ends {s : List Char} (h : WordEnds s) : Ends s := by
  intro c hc
  by_contra hdigit
  have hword := isWordChar_of_isDigit (Bool.not_eq_false _ ▸ hdigit)
  rw [h c hc] at hword
  cases hword

end Words

section Numbers

theorem toList_renderInt (n : Int) :
    (Literal.renderInt n).toList =
      if n < 0 then '-' :: Nat.toDigits 10 n.natAbs else Nat.toDigits 10 n.natAbs := by
  cases n with
  | ofNat n => simp [Literal.renderInt]
  | negSucc n => simp [Literal.renderInt, Int.negSucc_lt_zero]

theorem renderInt_reads (m n : Int) :
    ReadsBefore Ends Eq (fun n => (Literal.renderInt n).toList)
      (fun n => (Literal.renderInt n).toList) m n := by
  have hminus : ∀ {k : Nat} {s t : List Char}, '-' :: s ≠ Nat.toDigits 10 k ++ t := by
    intro k s t heq
    obtain ⟨c, cs, hcs⟩ := List.exists_cons_of_ne_nil (Nat.toDigits_ne_nil (b := 10) (n := k))
    have hdigit : c.isDigit = true :=
      Nat.isDigit_of_mem_toDigits (by decide) (by decide) (hcs ▸ List.mem_cons_self)
    rw [hcs, List.cons_append] at heq
    rw [← (List.cons.inj heq).1] at hdigit
    cases hdigit
  intro s t hs ht h
  simp only [toList_renderInt] at h
  split at h <;> split at h
  · simp only [List.cons_append, List.cons.injEq, true_and] at h
    obtain ⟨habs, hst⟩ := digits_append_inj hs ht h
    exact ⟨by omega, hst⟩
  · exact absurd h hminus
  · exact absurd h.symm hminus
  · obtain ⟨habs, hst⟩ := digits_append_inj hs ht h
    exact ⟨by omega, hst⟩

end Numbers

end Term
end Biunify
