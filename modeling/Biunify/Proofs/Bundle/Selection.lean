import Biunify.Proofs.Bundle.Fields

/-! The fields that a record offers. Selection takes the first field of a name; the bundle of a
record keeps the last. Both have the same names, and they agree on a name exactly if its first and
its last field have one bundle, as they do where no name is repeated. -/

namespace Biunify

def Ty.lastNamed? (name : String) (fields : List (String × Ty)) : Option Ty :=
  fieldNamed? name fields.reverse

theorem Ty.isSome_lastNamed? (name : String) (fields : List (String × Ty)) :
    (lastNamed? name fields).isSome = (fieldNamed? name fields).isSome := by
  rw [lastNamed?, fieldNamed?, fieldNamed?, Option.isSome_map, Option.isSome_map,
    Bool.eq_iff_iff, List.find?_isSome, List.find?_isSome]
  simp only [List.mem_reverse]

theorem Ty.lastNamed?_cons (name : String) (f : String × Ty) (fields : List (String × Ty)) :
    lastNamed? name (f :: fields) =
      (lastNamed? name fields).or (if f.1 = name then some f.2 else none) := by
  rw [lastNamed?, fieldNamed?, List.reverse_cons, List.find?_append, Option.map_or, lastNamed?,
    fieldNamed?]
  by_cases hf : f.1 = name <;> simp [hf]

theorem Ty.lastNamed?_eq_fieldNamed? {fields : List (String × Ty)} (h : (names fields).Nodup)
    (name : String) : lastNamed? name fields = fieldNamed? name fields := by
  induction fields with
  | nil => rfl
  | cons f fields ih =>
    obtain ⟨hf, hfields⟩ := List.nodup_cons.mp h
    rw [lastNamed?_cons, ih hfields, fieldNamed?, fieldNamed?]
    by_cases hname : f.1 = name
    · have hnone : fields.find? (fun g => g.1 == name) = none := by
        rw [List.find?_eq_none]
        intro g hg hgname
        exact hf (hname ▸ beq_iff_eq.mp hgname ▸ List.mem_map_of_mem hg)
      rw [hnone, List.find?_cons_of_pos (by simpa using hname), if_pos hname]
      rfl
    · rw [List.find?_cons_of_neg (by simpa using hname), if_neg hname, Option.or_none]

namespace Fields

variable {fields : List (String × Bundle)}

theorem ascending_insert (h : Ordered.Ascending Prod.fst fields) (name : String) (b : Bundle) :
    Ordered.Ascending Prod.fst (insert fields name b) := by
  rw [Bundle.insert_eq]
  exact h.insertWith Ordered.linear_string.trans fun _ _ => rfl

theorem find?_insert (h : Ordered.Ascending Prod.fst fields) (name : String) (b : Bundle)
    (k : String) :
    find? (insert fields name b) k = if k = name then some b else find? fields k := by
  have hfind := Ordered.find?_insertWith Ordered.linear_string
    (fun old new : String × Bundle => (old.1, new.2)) (fun _ _ => rfl) k (name, b) h
  rw [find?, Bundle.insert_eq, hfind]
  split
  · cases Ordered.find? Prod.fst k fields <;> rfl
  · rfl

theorem find?_foldl_insert (entries : List (String × Bundle))
    (h : Ordered.Ascending Prod.fst fields) (k : String) :
    find? (entries.foldl (fun fields entry => insert fields entry.1 entry.2) fields) k =
      ((entries.reverse.find? fun f => f.1 == k).map Prod.snd).or (find? fields k) := by
  induction entries generalizing fields with
  | nil => rfl
  | cons entry entries ih =>
    rw [List.foldl_cons, ih (ascending_insert h _ _), find?_insert h, List.reverse_cons,
      List.find?_append, Option.map_or, Option.or_assoc]
    by_cases hk : k = entry.1
    · simp [hk]
    · simp [hk, Ne.symm hk]

theorem find?_ofList (entries : List (String × Bundle)) (k : String) :
    find? (ofList entries) k = (entries.reverse.find? fun f => f.1 == k).map Prod.snd := by
  rw [ofList, find?_foldl_insert entries List.Pairwise.nil]
  exact Option.or_none

end Fields

namespace Bundle

variable (t : BoundTable) (p : Polarity)

theorem find?_ofFields (fields : List (String × Ty)) (name : String) :
    Fields.find? (Fields.ofList (ofFields t p fields)) name =
      (Ty.lastNamed? name fields).map (ofTy t p) := by
  rw [Fields.find?_ofList, ofFields_eq, ← List.map_reverse, List.find?_map, Ty.lastNamed?,
    Ty.fieldNamed?, Option.map_map, Option.map_map]
  rfl

/-- The bundle of a record has the names that selection finds. For each it has the last field, which
stands for the one selected exactly if the two have one bundle; they are one field if no name is
repeated. -/
theorem ofTy_record_offers (node : Nat) (fields : List (String × Ty)) :
    ∃ entries, (ofTy t p (.record node fields)).layer.record = some entries ∧ ∀ name,
      (Fields.find? entries name).isSome = (Ty.fieldNamed? name fields).isSome ∧
      Fields.find? entries name = (Ty.lastNamed? name fields).map (ofTy t p) ∧
      (Fields.find? entries name = (Ty.fieldNamed? name fields).map (ofTy t p) ↔
        ∀ first last, Ty.fieldNamed? name fields = some first →
          Ty.lastNamed? name fields = some last → ofTy t p first = ofTy t p last) ∧
      ((Ty.names fields).Nodup →
        Fields.find? entries name = (Ty.fieldNamed? name fields).map (ofTy t p)) := by
  refine ⟨Fields.ofList (ofFields t p fields), rfl, fun name => ?_⟩
  have hsome := Ty.isSome_lastNamed? name fields
  rw [find?_ofFields]
  refine ⟨by rw [Option.isSome_map, hsome], rfl, ?_, fun hnodup => ?_⟩
  · cases hfirst : Ty.fieldNamed? name fields with
    | none =>
      have hlast : Ty.lastNamed? name fields = none := by simpa [hfirst] using hsome
      simp [hlast]
    | some first =>
      rw [hfirst, Option.isSome_some] at hsome
      obtain ⟨last, hlast⟩ := Option.isSome_iff_exists.mp hsome
      simp [hlast, eq_comm]
  · rw [Ty.lastNamed?_eq_fieldNamed? hnodup]

def doubledField : List (String × Ty) := [("a", .base .int), ("a", .base .string)]

theorem ofTy_doubledField_differs :
    ¬∀ (t : BoundTable) (p : Polarity) (node : Nat) (fields : List (String × Ty)) (name : String)
      (entries : List (String × Bundle)),
      (ofTy t p (.record node fields)).layer.record = some entries →
        Fields.find? entries name = (Ty.fieldNamed? name fields).map (ofTy t p) := by
  intro h
  have hsame := h .empty .positive 0 doubledField "a" _ rfl
  rw [find?_ofFields] at hsame
  have hbundle : ofBase .string = ofBase .int := Option.some.inj hsame
  cases hbundle

end Bundle
end Biunify
