import Biunify.Proofs.Bundle.Places

/-! Bundles by their structure: induction over what is below a place. -/

namespace Biunify

theorem Bundle.sizeOf_lt_of_child {l : Layer Bundle} {p q : Polarity} {b : Bundle}
    (h : l.Child p q b) : sizeOf b < sizeOf l := by
  have hpair : ∀ {α : Type} [SizeOf α] (f : α × Bundle),
      sizeOf f = 1 + sizeOf f.1 + sizeOf f.2 := fun f => by cases f; rfl
  rcases l with ⟨vars, bases, tuple, record, func, top⟩
  rw [Layer.mk.sizeOf_spec]
  cases h with
  | elem h ha =>
    obtain rfl : tuple = some _ := h
    have := List.sizeOf_lt_of_mem ha
    rw [Option.some.sizeOf_spec]
    omega
  | @field fields h f hf =>
    obtain rfl : record = some _ := h
    have := List.sizeOf_lt_of_mem hf
    rw [hpair f] at this
    rw [Option.some.sizeOf_spec]
    omega
  | @param f h | @result f h =>
    obtain rfl : func = some _ := h
    rw [Option.some.sizeOf_spec, hpair f]
    omega

@[elab_as_elim, induction_eliminator]
theorem Bundle.structural {motive : Bundle → Prop}
    (node : ∀ l : Layer Bundle, (∀ p q b, l.Child p q b → motive b) → motive (.node l)) :
    ∀ b, motive b
  | .node l => node l fun _ _ b _ => Bundle.structural node b
termination_by b => sizeOf b
decreasing_by
  have := Bundle.sizeOf_lt_of_child ‹_›
  rw [Bundle.node.sizeOf_spec]
  omega

theorem Layer.map_map {α β γ : Type*} (f : α → β) (g : β → γ) (l : Layer α) :
    (l.map f).map g = l.map fun a => g (f a) := by
  rcases l with ⟨vars, bases, tuple, record, func, top⟩
  simp [map, Function.comp_def]

theorem Layer.map_self {α : Type*} (l : Layer α) : (l.map fun a => a) = l := by
  rcases l with ⟨vars, bases, tuple, record, func, top⟩
  simp [map]

theorem Layer.map_congr {α : Type*} {l : Layer Bundle} {f g : Bundle → α} (p : Polarity)
    (h : ∀ q b, l.Child p q b → f b = g b) : l.map f = l.map g := by
  have htuple : l.tuple.map (List.map f) = l.tuple.map (List.map g) :=
    Option.map_congr fun elems ht => List.map_congr_left fun b hb => h p b (.elem ht hb)
  have hrecord : l.record.map (List.map fun e => (e.1, f e.2)) =
      l.record.map (List.map fun e => (e.1, g e.2)) :=
    Option.map_congr fun fields hr =>
      List.map_congr_left fun e he => Prod.ext rfl (h p e.2 (.field hr he))
  have hfunc : (l.func.map fun e => (f e.1, f e.2)) = l.func.map fun e => (g e.1, g e.2) :=
    Option.map_congr fun e he => Prod.ext (h _ e.1 (.param he)) (h _ e.2 (.result he))
  rw [Layer.map, Layer.map, htuple, hrecord, hfunc]

namespace Layer

variable {α β : Type} {p q : Polarity} {l : Layer α}

theorem child_map {f : α → β} {b : β} (h : (l.map f).Child p q b) :
    ∃ a, l.Child p q a ∧ b = f a := by
  cases h with
  | elem ht hb =>
    obtain ⟨elems, he, rfl⟩ := Option.map_eq_some_iff.mp ht
    obtain ⟨a, ha, rfl⟩ := List.mem_map.mp hb
    exact ⟨a, .elem he ha, rfl⟩
  | field hr hf =>
    obtain ⟨fields, he, rfl⟩ := Option.map_eq_some_iff.mp hr
    obtain ⟨a, ha, rfl⟩ := List.mem_map.mp hf
    exact ⟨a.2, .field he ha, rfl⟩
  | param hf =>
    obtain ⟨a, ha, rfl⟩ := Option.map_eq_some_iff.mp hf
    exact ⟨a.1, .param ha, rfl⟩
  | result hf =>
    obtain ⟨a, ha, rfl⟩ := Option.map_eq_some_iff.mp hf
    exact ⟨a.2, .result ha, rfl⟩

theorem Child.map {a : α} (h : l.Child p q a) (f : α → β) : (l.map f).Child p q (f a) := by
  cases h with
  | elem ht ha => exact .elem (Option.map_eq_some_iff.mpr ⟨_, ht, rfl⟩) (List.mem_map_of_mem ha)
  | @field fields hr e he =>
    exact .field (f := (e.1, f e.2)) (Option.map_eq_some_iff.mpr ⟨_, hr, rfl⟩)
      (List.mem_map.mpr ⟨e, he, rfl⟩)
  | @param e hf => exact .param (f := (f e.1, f e.2)) (Option.map_eq_some_iff.mpr ⟨e, hf, rfl⟩)
  | @result e hf => exact .result (f := (f e.1, f e.2)) (Option.map_eq_some_iff.mpr ⟨e, hf, rfl⟩)

theorem Child.of_vars {vars : VarSet} {a : α} (h : ({ l with vars } : Layer α).Child p q a) :
    l.Child p q a := by
  cases h with
  | elem ht ha => exact .elem (l := l) ht ha
  | field hr hf => exact .field (l := l) hr hf
  | param hf => exact .param hf
  | result hf => exact .result hf

theorem Child.with_vars {a : α} (h : l.Child p q a) (vars : VarSet) :
    ({ l with vars } : Layer α).Child p q a := by
  cases h with
  | elem ht ha => exact .elem (l := { l with vars }) ht ha
  | field hr hf => exact .field (l := { l with vars }) hr hf
  | param hf => exact .param hf
  | result hf => exact .result hf

end Layer

end Biunify
