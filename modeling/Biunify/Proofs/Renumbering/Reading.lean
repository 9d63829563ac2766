import Biunify.Proofs.Bundle.Key
import Biunify.Proofs.BundleGraph.Visits
import Biunify.Proofs.Renumbering.Basic
import Biunify.Proofs.TypeExpr.Renaming

/-! Reading a graph with other ids. Two bundles have one key under the new ids if and only if
they had one before, as long as the names of fields can be told from what is around them. So the
same places are met again, and the binders correspond like the variables. -/

namespace Biunify

variable (ρ : Nat ↪o Nat)

def Part.renumber {α β : Type} (f : α → β) : Part α → Part β
  | var v => var (v.renumber ρ)
  | base b => base b
  | record fields => record (fields.map fun entry => (entry.1, f entry.2))
  | tuple elems => tuple (elems.map f)
  | func parts => func (f parts.1, f parts.2)
  | top => top

namespace Layer

variable {α β : Type} (f : α → β)

theorem partList_renumber (l : Layer α) :
    (l.renumber ρ f).dropEmptyRecord.partList =
      l.dropEmptyRecord.partList.map (Part.renumber ρ f) := by
  rcases l with ⟨vars, bases, tuple, record, func, top⟩
  have hvars : (vars.renumber ρ).items.map Part.var =
      (vars.items.map Part.var).map (Part.renumber ρ f) := by
    rw [VarSet.renumber, List.map_map, List.map_map]
    rfl
  rcases record with - | fields
  · cases top <;> simp [partList, renumber, dropEmptyRecord, map, hvars, Part.renumber,
      Function.comp_def, Option.toList_map]
  · cases fields <;> cases top <;> simp [partList, renumber, dropEmptyRecord, map, hvars,
      Part.renumber, Function.comp_def, Option.toList_map, Option.filter]

end Layer

namespace Bundle

open Ty.Key

variable {ρ} {σ : Nat ↪o Nat} {P : Bundle → Prop}

def SameKey (ρ σ : Nat ↪o Nat) (b' c' : Bundle) : Prop :=
  ∀ b c : Bundle, b' = b.renumber ρ → c' = c.renumber ρ → (b.renumber σ).key = (c.renumber σ).key

theorem partChars_renumber {x y : Part Bundle}
    (h : (x.renumber ρ (renumber ρ)).Rel (SameKey ρ σ) (y.renumber ρ (renumber ρ))) :
    partChars (x.renumber σ (renumber σ)) = partChars (y.renumber σ (renumber σ)) := by
  cases x with
  | var v =>
    cases y with
    | var w =>
      cases h with
      | var hid =>
        have hid : v.id = w.id := (Var.renumber_id_eq_iff ρ).mp hid
        rw [Part.renumber, Part.renumber, partChars_var, partChars_var, Var.renumber, Var.renumber,
          hid]
    | _ => cases h
  | base b =>
    cases y with
    | base c =>
      cases h
      rfl
    | _ => cases h
  | record fields =>
    cases y with
    | record fields' =>
      cases h with
      | record hfields =>
        rw [List.forall₂_map_left_iff, List.forall₂_map_right_iff] at hfields
        have hitems : fields.map (fun f => ofField chars (f.1, f.2.renumber σ)) =
            fields'.map fun f => ofField chars (f.1, f.2.renumber σ) := by
          refine map_eq_of_forall₂ hfields fun f _ f' hf => ?_
          rw [ofField, ofField, hf.1, chars, hf.2 f.2 f'.2 rfl rfl]
        rw [Part.renumber, Part.renumber, partChars_record, partChars_record, List.map_map,
          List.map_map]
        exact congrArg (fun cs => '\x7b' :: (items cs ++ ['\x7d'])) hitems
    | _ => cases h
  | tuple elems =>
    cases y with
    | tuple elems' =>
      cases h with
      | tuple helems =>
        rw [List.forall₂_map_left_iff, List.forall₂_map_right_iff] at helems
        have hitems : elems.map (fun b => chars (b.renumber σ)) =
            elems'.map fun b => chars (b.renumber σ) :=
          map_eq_of_forall₂ helems fun b _ c hbc => congrArg String.toList (hbc b c rfl rfl)
        rw [Part.renumber, Part.renumber, partChars_tuple, partChars_tuple, List.map_map,
          List.map_map]
        exact congrArg (fun cs => '(' :: (items cs ++ [')'])) hitems
    | _ => cases h
  | func f =>
    cases y with
    | func f' =>
      cases h with
      | func hparam hresult =>
        rw [Part.renumber, Part.renumber, partChars_func, partChars_func, chars, chars,
          hparam f.1 f'.1 rfl rfl, hresult f.2 f'.2 rfl rfl]
    | _ => cases h
  | top =>
    cases y with
    | top => rfl
    | _ => cases h

theorem key_renumber_eq
    (hnames : ∀ l, P (node l) → ∀ fields, l.record = some fields → ∀ f ∈ fields, Ty.PlainName f.1)
    (hdown : ∀ l, P (node l) → ∀ p q c, l.Child p q c → P c) {b c : Bundle} (hb : P b) (hc : P c)
    (h : (b.renumber ρ).key = (c.renumber ρ).key) : (b.renumber σ).key = (c.renumber σ).key := by
  -- Keys with the first ids are read part by part, and each part has one text with the second.
  refine rel_of_key_eq (P := fun b' => ∃ b, P b ∧ b' = renumber ρ b) (R := SameKey ρ σ) ?_ ?_ ?_
    ⟨b, hb, rfl⟩ ⟨c, hc, rfl⟩ h b c rfl rfl
  · rintro l' ⟨⟨l⟩, hl, heq⟩ fields hr f hf
    rw [renumber_node] at heq
    cases heq
    obtain ⟨fields₀, hr₀, rfl⟩ := Option.map_eq_some_iff.mp hr
    obtain ⟨e, he, rfl⟩ := List.mem_map.mp hf
    exact hnames l hl fields₀ hr₀ e he
  · rintro l' ⟨⟨l⟩, hl, heq⟩ p q c' hc'
    rw [renumber_node] at heq
    cases heq
    obtain ⟨c, hc, rfl⟩ := Layer.child_map hc'.of_vars
    exact ⟨c, hdown l hl p q c hc, rfl⟩
  · rintro l₁ l₂ - - hparts ⟨l⟩ ⟨l'⟩ heq heq'
    rw [renumber_node] at heq heq'
    cases heq
    cases heq'
    rw [Layer.partList_renumber, Layer.partList_renumber, List.forall₂_map_left_iff,
      List.forall₂_map_right_iff] at hparts
    have hchars := map_eq_of_forall₂ hparts fun x _ y => partChars_renumber
    rw [← String.toList_inj, renumber_node, renumber_node, toList_key, toList_key,
      Layer.partList_renumber, Layer.partList_renumber, List.map_map, List.map_map]
    exact congrArg (fun cs => '‹' :: (items cs ++ ['›'])) hchars

theorem renumber_refl (b : Bundle) : b.renumber (RelEmbedding.refl _) = b := by
  induction b with
  | node l ih =>
    have hvars : l.vars.renumber (RelEmbedding.refl _) = l.vars :=
      VarSet.eq_of_items_eq (List.map_id _)
    have hbelow : l.map (renumber (RelEmbedding.refl _)) = l :=
      (Layer.map_congr .positive fun q b hb => ih .positive q b hb).trans l.map_self
    rw [renumber_node, Layer.renumber, hvars, hbelow]

theorem key_renumber_eq_iff
    (hnames : ∀ l, P (node l) → ∀ fields, l.record = some fields → ∀ f ∈ fields, Ty.PlainName f.1)
    (hdown : ∀ l, P (node l) → ∀ p q c, l.Child p q c → P c) {b c : Bundle} (hb : P b)
    (hc : P c) : (b.renumber ρ).key = (c.renumber ρ).key ↔ b.key = c.key := by
  have hto := key_renumber_eq (ρ := ρ) (σ := RelEmbedding.refl _) hnames hdown hb hc
  have hfrom := key_renumber_eq (ρ := RelEmbedding.refl _) (σ := ρ) hnames hdown hb hc
  rw [renumber_refl, renumber_refl] at hto hfrom
  exact ⟨hto, hfrom⟩

end Bundle

namespace TypeExpr

theorem rename_ofParts (f : Nat → Nat) (p : Polarity) (parts : List TypeExpr) :
    (BundleGraph.ofParts p parts).rename f = BundleGraph.ofParts p (parts.map (rename f)) := by
  rcases parts with - | ⟨e, - | ⟨e', es⟩⟩
  · cases p <;> rfl
  · cases p <;> rfl
  · cases p <;> simp [BundleGraph.ofParts, rename, renameList_eq]

end TypeExpr

namespace BundleGraph

def PlainNames (g : BundleGraph) : Prop :=
  ∀ p b, g.Occurs p b → ∀ fields, b.layer.record = some fields → ∀ f ∈ fields, Ty.PlainName f.1

def Item.renumber : Item → Item
  | var v => var (v.renumber ρ)
  | bundle b => bundle (b.renumber ρ)

abbrev renumberItem (x : Polarity × Item) : Polarity × Item := (x.1, x.2.renumber ρ)

section Items

variable (b : Bundle) (p : Polarity)

theorem varItems_renumber :
    (b.renumber ρ).layer.varItems p = (b.layer.varItems p).map (renumberItem ρ) := by
  rw [Bundle.layer_renumber, Layer.varItems, Layer.varItems, List.map_map]
  exact List.map_map

theorem fieldItems_renumber :
    (b.renumber ρ).layer.fieldItems p = (b.layer.fieldItems p).map (renumberItem ρ) := by
  rw [Bundle.layer_renumber, Layer.fieldItems, Layer.fieldItems, Layer.renumber, Layer.map]
  cases b.layer.record with
  | none => rfl
  | some fields => simp [Item.renumber]

theorem elemItems_renumber :
    (b.renumber ρ).layer.elemItems p = (b.layer.elemItems p).map (renumberItem ρ) := by
  rw [Bundle.layer_renumber, Layer.elemItems, Layer.elemItems, Layer.renumber, Layer.map]
  cases b.layer.tuple with
  | none => rfl
  | some elems => simp [Item.renumber]

theorem paramItems_renumber :
    (b.renumber ρ).layer.paramItems p = (b.layer.paramItems p).map (renumberItem ρ) := by
  rw [Bundle.layer_renumber, Layer.paramItems, Layer.paramItems, Layer.renumber, Layer.map]
  cases b.layer.func <;> rfl

theorem resultItems_renumber :
    (b.renumber ρ).layer.resultItems p = (b.layer.resultItems p).map (renumberItem ρ) := by
  rw [Bundle.layer_renumber, Layer.resultItems, Layer.resultItems, Layer.renumber, Layer.map]
  cases b.layer.func <;> rfl

theorem exprs_renumber (vs fs ts as rs : List TypeExpr) :
    (b.renumber ρ).layer.exprs (vs.map (TypeExpr.rename ρ)) (fs.map (TypeExpr.rename ρ))
      (ts.map (TypeExpr.rename ρ)) (as.map (TypeExpr.rename ρ)) (rs.map (TypeExpr.rename ρ)) =
        (b.layer.exprs vs fs ts as rs).map (TypeExpr.rename ρ) := by
  have hbases : (b.layer.bases.toList.map TypeExpr.base).map (TypeExpr.rename ρ) =
      b.layer.bases.toList.map TypeExpr.base := List.map_map
  have hfunc : (as.map (TypeExpr.rename ρ)).zipWith TypeExpr.arrow (rs.map (TypeExpr.rename ρ)) =
      (as.zipWith TypeExpr.arrow rs).map (TypeExpr.rename ρ) := by
    rw [List.zipWith_map, List.map_zipWith]
    rfl
  have hrecord : ((b.layer.renumber ρ (Bundle.renumber ρ)).record.map fun names =>
      TypeExpr.record (names.zipWith (fun f e => (f.1, e)) (fs.map (TypeExpr.rename ρ)))).toList =
        (b.layer.record.map fun names =>
          TypeExpr.record (names.zipWith (fun f e => (f.1, e)) fs)).toList.map
            (TypeExpr.rename ρ) := by
    cases hr : b.layer.record with
    | none => simp [Layer.renumber, Layer.map, hr]
    | some names =>
      simp [Layer.renumber, Layer.map, hr, TypeExpr.rename, TypeExpr.renameFields_eq,
        List.zipWith_map, List.map_zipWith]
  have htuple : ((b.layer.renumber ρ (Bundle.renumber ρ)).tuple.map fun _ =>
      TypeExpr.tuple (ts.map (TypeExpr.rename ρ))).toList =
        (b.layer.tuple.map fun _ => TypeExpr.tuple ts).toList.map (TypeExpr.rename ρ) := by
    cases ht : b.layer.tuple with
    | none => simp [Layer.renumber, Layer.map, ht]
    | some elems =>
      simp [Layer.renumber, Layer.map, ht, TypeExpr.rename, TypeExpr.renameList_eq]
  rw [Bundle.layer_renumber, Layer.exprs, Layer.exprs, List.map_append, List.map_append,
    List.map_append, List.map_append, hbases, hfunc, hrecord, htuple]
  rfl

end Items

variable {ρ} {g : BundleGraph}

theorem Occurs.child_any {p q r : Polarity} {b c : Bundle} (h : g.Occurs r b)
    (hc : b.layer.Child p q c) : ∃ q', g.Occurs q' c := by
  cases hc with
  | elem ht ha => exact ⟨r, h.child (.elem ht ha)⟩
  | field hr hf => exact ⟨r, h.child (.field hr hf)⟩
  | param hf => exact ⟨r.flip, h.child (.param hf)⟩
  | result hf => exact ⟨r, h.child (.result hf)⟩

theorem place_renumber_eq_iff (hg : g.PlainNames) {i j : Item} {p q : Polarity}
    (hi : i.Occurs g p) (hj : j.Occurs g q) :
    (i.renumber ρ).place p = (j.renumber ρ).place q ↔ i.place p = j.place q := by
  cases i with
  | var v =>
    cases j with
    | var w =>
      simp only [Item.renumber, Item.place, Place.var.injEq, Var.renumber_id_eq_iff]
    | bundle c => simp [Item.renumber, Item.place]
  | bundle b =>
    cases j with
    | var w => simp [Item.renumber, Item.place]
    | bundle c =>
      have hkey : (b.renumber ρ).key = (c.renumber ρ).key ↔ b.key = c.key := by
        refine Bundle.key_renumber_eq_iff (P := fun b => ∃ p, g.Occurs p b) ?_ ?_ ⟨p, hi⟩ ⟨q, hj⟩
        · rintro l ⟨p, hl⟩
          exact hg p (.node l) hl
        · rintro l ⟨_, hl⟩ p q c hc
          exact hl.child_any hc
      simp only [Item.renumber, Item.place, Place.bundle.injEq, hkey]

structure Mirrors (g : BundleGraph) (ρ : Nat ↪o Nat) (f f' : Pending) : Prop where
  place : ∃ p i, Item.Occurs g p i ∧ f.place = i.place p ∧ f'.place = (i.renumber ρ).place p
  binder : f'.binder = f.binder.map ρ

theorem Mirrors.enter {i : Item} {p : Polarity} (hi : i.Occurs g p) :
    Mirrors g ρ ⟨i.place p, none⟩ ⟨(i.renumber ρ).place p, none⟩ :=
  ⟨⟨p, i, hi, rfl, rfl⟩, rfl⟩

section Mirrors

variable (hg : g.PlainNames) {ps qs : List Pending} (h : List.Forall₂ (Mirrors g ρ) ps qs)
  {i : Item} {p : Polarity} (hi : i.Occurs g p)

include hg h hi

theorem findPlace_mirrors : (findPlace ((i.renumber ρ).place p) qs).map Pending.binder =
    (findPlace (i.place p) ps).map fun f => f.binder.map ρ := by
  induction h with
  | nil => rfl
  | @cons f f' _ _ hf _ ih =>
    obtain ⟨⟨q, j, hj, hplace, hplace'⟩, hbinder⟩ := hf
    have hiff := place_renumber_eq_iff (ρ := ρ) hg hj hi
    rw [← hplace, ← hplace'] at hiff
    rw [findPlace_cons, findPlace_cons]
    by_cases heq : f.place = i.place p
    · rw [if_pos heq, if_pos (hiff.mpr heq)]
      exact congrArg some hbinder
    · rw [if_neg heq, if_neg fun heq' => heq (hiff.mp heq')]
      exact ih

theorem findPlace_mirrors_some {f : Pending} (hfind : findPlace (i.place p) ps = some f) :
    ∃ place', findPlace ((i.renumber ρ).place p) qs = some ⟨place', f.binder.map ρ⟩ := by
  have hbinder := findPlace_mirrors hg h hi
  rw [hfind] at hbinder
  obtain ⟨⟨place', binder'⟩, hfound, rfl⟩ := Option.map_eq_some_iff.mp hbinder
  exact ⟨place', hfound⟩

theorem findPlace_mirrors_none (hfind : findPlace (i.place p) ps = none) :
    findPlace ((i.renumber ρ).place p) qs = none := by
  have hbinder := findPlace_mirrors hg h hi
  rw [hfind] at hbinder
  exact Option.map_eq_none_iff.mp hbinder

theorem setBinder_mirrors (k : Nat) : List.Forall₂ (Mirrors g ρ) (setBinder (i.place p) k ps)
    (setBinder ((i.renumber ρ).place p) (ρ k) qs) := by
  induction h with
  | nil => exact .nil
  | @cons f f' _ _ hf hrest ih =>
    obtain ⟨q, j, hj, hplace, hplace'⟩ := hf.place
    have hiff := place_renumber_eq_iff (ρ := ρ) hg hj hi
    rw [← hplace, ← hplace'] at hiff
    rw [setBinder, setBinder]
    by_cases heq : f.place = i.place p
    · rw [if_pos heq, if_pos (hiff.mpr heq)]
      exact .cons ⟨⟨p, i, hi, rfl, rfl⟩, rfl⟩ hrest
    · rw [if_neg heq, if_neg fun heq' => heq (hiff.mp heq')]
      exact .cons hf ih

end Mirrors

theorem rename_close (k : Option Nat) (e : TypeExpr) :
    (close k e).rename ρ = close (k.map ρ) (e.rename ρ) := by
  cases k <;> rfl

theorem mirrors_cons {place place' : Place} {k : Option Nat} {ps₁ qs : List Pending}
    {places : List Place} (h : List.Forall₂ (Mirrors g ρ) (⟨place, k⟩ :: ps₁) qs)
    (hplaces : qs.map Pending.place = place' :: places) :
    ∃ qs₁, qs = ⟨place', k.map ρ⟩ :: qs₁ ∧ List.Forall₂ (Mirrors g ρ) ps₁ qs₁ := by
  cases h with
  | @cons _ f' _ qs₁ hf hrest =>
    obtain ⟨hplace, -⟩ := List.cons.inj hplaces
    have hbinder := hf.binder
    refine ⟨qs₁, ?_, hrest⟩
    cases f'
    simp only at hplace hbinder
    rw [hplace, hbinder]

theorem Visits.renumber (hg : g.PlainNames) {size : Nat}
    (hρ : ∀ k, size ≤ k → ρ (k + 1) = ρ k + 1) {ps ps' qs : List Pending} {n n' : Nat}
    {is : List (Polarity × Item)} {es : List TypeExpr} (h : g.Visits ps n is es ps' n')
    (hn : size ≤ n) (hocc : ∀ x ∈ is, x.2.Occurs g x.1)
    (hqs : List.Forall₂ (Mirrors g ρ) ps qs) :
    ∃ qs', (g.renumber ρ).Visits qs (ρ n) (is.map (renumberItem ρ)) (es.map (TypeExpr.rename ρ)) qs'
      (ρ n') ∧ List.Forall₂ (Mirrors g ρ) ps' qs' := by
  induction h generalizing qs with
  | nil => exact ⟨qs, .nil, hqs⟩
  | refer hfind _ ih =>
    obtain ⟨hi, hrest⟩ := List.forall_mem_cons.mp hocc
    obtain ⟨place', hfind'⟩ := findPlace_mirrors_some hg hqs hi hfind
    obtain ⟨qs', hvisit, hqs'⟩ := ih hn hrest hqs
    exact ⟨qs', .refer hfind' hvisit, hqs'⟩
  | @name _ _ n _ p i _ _ _ hfind _ ih =>
    obtain ⟨hi, hrest⟩ := List.forall_mem_cons.mp hocc
    obtain ⟨place', hfind'⟩ := findPlace_mirrors_some hg hqs hi hfind
    have hset := setBinder_mirrors hg hqs hi (i.binder n)
    -- A variable is its own binder. A bundle takes the next id, which is the next on both sides.
    cases i with
    | var v =>
      obtain ⟨qs', hvisit, hqs'⟩ := ih hn hrest hset
      exact ⟨qs', .name hfind' hvisit, hqs'⟩
    | bundle b =>
      obtain ⟨qs', hvisit, hqs'⟩ := ih (hn.trans (Nat.le_succ n)) hrest hset
      rw [Item.fresh, hρ n hn] at hvisit
      exact ⟨qs', .name hfind' hvisit, hqs'⟩
  | @leaf _ _ _ _ p v _ _ hfind hfree _ ih =>
    obtain ⟨hi, hrest⟩ := List.forall_mem_cons.mp hocc
    have hfind' := findPlace_mirrors_none hg hqs hi hfind
    have hfree' : (g.renumber ρ).cycles.find? (v.renumber ρ) = none := by
      rw [BundleGraph.renumber, VarMap.find?_renumber, hfree]
      rfl
    obtain ⟨qs', hvisit, hqs'⟩ := ih hn hrest hqs
    exact ⟨qs', .leaf hfind' hfree' hvisit, hqs'⟩
  | @top _ _ _ _ p b _ _ hfind htop _ ih =>
    obtain ⟨hi, hrest⟩ := List.forall_mem_cons.mp hocc
    have hfind' := findPlace_mirrors_none hg hqs hi hfind
    have htop' : (b.renumber ρ).layer.top = true := by rwa [Bundle.layer_renumber]
    obtain ⟨qs', hvisit, hqs'⟩ := ih hn hrest hqs
    exact ⟨qs', .top hfind' htop' hvisit, hqs'⟩
  | @cycle _ _ _ _ _ _ p v body k e _ _ hfind hbody inner _ ihinner ih =>
    obtain ⟨hi, hrest⟩ := List.forall_mem_cons.mp hocc
    have hfind' := findPlace_mirrors_none hg hqs hi hfind
    have hbody' : (g.renumber ρ).cycles.find? (v.renumber ρ) = some (body.renumber ρ) := by
      rw [BundleGraph.renumber, VarMap.find?_renumber, hbody]
      rfl
    have hin : ∀ x ∈ [(p, Item.bundle body)], x.2.Occurs g x.1 := by
      obtain ⟨b, hb, hv⟩ := hi
      intro x hx
      obtain rfl := List.mem_singleton.mp hx
      exact hb.body hv hbody
    obtain ⟨qs₀, hvisit₀, hqs₀⟩ := ihinner hn hin (.cons (.enter hi) hqs)
    obtain ⟨qs₁, rfl, hqs₁⟩ := mirrors_cons hqs₀ hvisit₀.map_place
    obtain ⟨qs', hvisit, hqs'⟩ := ih (hn.trans inner.le) hrest hqs₁
    refine ⟨qs', ?_, hqs'⟩
    rw [List.map_cons, List.map_cons, rename_close]
    exact .cycle hfind' hbody' hvisit₀ hvisit
  | @bundle _ _ _ _ _ _ _ _ _ _ _ _ _ _ p b k vs fs ts as rs _ _ hfind htop vars fields elems
      params results _ ihv ihf iht iha ihr ih =>
    obtain ⟨hi, hrest⟩ := List.forall_mem_cons.mp hocc
    have hb : g.Occurs p b := hi
    have hfind' := findPlace_mirrors_none hg hqs hi hfind
    have htop' : (b.renumber ρ).layer.top = false := by rwa [Bundle.layer_renumber]
    have hn₁ := hn.trans vars.le
    have hn₂ := hn₁.trans fields.le
    have hn₃ := hn₂.trans elems.le
    have hn₄ := hn₃.trans params.le
    obtain ⟨qs₁, hvars, hqs₁⟩ := ihv hn hb.varItems (.cons (.enter hi) hqs)
    obtain ⟨qs₂, hfields, hqs₂⟩ := ihf hn₁ hb.fieldItems hqs₁
    obtain ⟨qs₃, helems, hqs₃⟩ := iht hn₂ hb.elemItems hqs₂
    obtain ⟨qs₄, hparams, hqs₄⟩ := iha hn₃ hb.paramItems hqs₃
    obtain ⟨qs₀, hresults, hqs₀⟩ := ihr hn₄ hb.resultItems hqs₄
    -- Below what the five lists leave is the frame of the bundle, with the binder it has got.
    have hplaces := hresults.map_place.trans (hparams.map_place.trans (helems.map_place.trans
      (hfields.map_place.trans hvars.map_place)))
    obtain ⟨qs₅, rfl, hqs₅⟩ := mirrors_cons hqs₀ hplaces
    obtain ⟨qs', hvisit, hqs'⟩ := ih (hn₄.trans results.le) hrest hqs₅
    rw [← varItems_renumber] at hvars
    rw [← fieldItems_renumber] at hfields
    rw [← elemItems_renumber] at helems
    rw [← paramItems_renumber] at hparams
    rw [← resultItems_renumber] at hresults
    refine ⟨qs', ?_, hqs'⟩
    rw [List.map_cons, List.map_cons, rename_close, TypeExpr.rename_ofParts, ← exprs_renumber]
    exact .bundle hfind' htop' hvars hfields helems hparams hresults hvisit

theorem Visits.unique {ps ps₁ ps₂ : List Pending} {n n₁ n₂ : Nat} {is : List (Polarity × Item)}
    {es fs : List TypeExpr} (h : g.Visits ps n is es ps₁ n₁) (h' : g.Visits ps n is fs ps₂ n₂) :
    es = fs ∧ ps₁ = ps₂ ∧ n₁ = n₂ := by
  induction h generalizing fs ps₂ n₂ with
  | nil => cases h' with | nil => exact ⟨rfl, rfl, rfl⟩
  | refer hfind _ ih =>
    cases h' with
    | refer hfind' rest' =>
      obtain ⟨rfl, rfl, rfl⟩ := ih rest'
      cases hfind.symm.trans hfind'
      exact ⟨rfl, rfl, rfl⟩
    | name hfind' | leaf hfind' | top hfind' | cycle hfind' | bundle hfind' =>
      cases hfind.symm.trans hfind'
  | name hfind _ ih =>
    cases h' with
    | name _ rest' =>
      obtain ⟨rfl, rfl, rfl⟩ := ih rest'
      exact ⟨rfl, rfl, rfl⟩
    | refer hfind' | leaf hfind' | top hfind' | cycle hfind' | bundle hfind' =>
      cases hfind.symm.trans hfind'
  | leaf hfind hfree _ ih =>
    cases h' with
    | leaf _ _ rest' =>
      obtain ⟨rfl, rfl, rfl⟩ := ih rest'
      exact ⟨rfl, rfl, rfl⟩
    | refer hfind' | name hfind' => cases hfind.symm.trans hfind'
    | cycle _ hbody' => cases hfree.symm.trans hbody'
  | top hfind htop _ ih =>
    cases h' with
    | top _ _ rest' =>
      obtain ⟨rfl, rfl, rfl⟩ := ih rest'
      exact ⟨rfl, rfl, rfl⟩
    | refer hfind' | name hfind' => cases hfind.symm.trans hfind'
    | bundle _ htop' => cases htop.symm.trans htop'
  | cycle hfind hbody _ _ ihinner ih =>
    cases h' with
    | cycle _ hbody' inner' rest' =>
      cases hbody.symm.trans hbody'
      obtain ⟨hes, hps, rfl⟩ := ihinner inner'
      cases hes
      cases hps
      obtain ⟨rfl, rfl, rfl⟩ := ih rest'
      exact ⟨rfl, rfl, rfl⟩
    | refer hfind' | name hfind' => cases hfind.symm.trans hfind'
    | leaf _ hfree' => cases hbody.symm.trans hfree'
  | bundle hfind htop _ _ _ _ _ _ ihv ihf iht iha ihr ih =>
    cases h' with
    | bundle _ _ vars' fields' elems' params' results' rest' =>
      obtain ⟨rfl, rfl, rfl⟩ := ihv vars'
      obtain ⟨rfl, rfl, rfl⟩ := ihf fields'
      obtain ⟨rfl, rfl, rfl⟩ := iht elems'
      obtain ⟨rfl, rfl, rfl⟩ := iha params'
      obtain ⟨rfl, hps, rfl⟩ := ihr results'
      cases hps
      obtain ⟨rfl, rfl, rfl⟩ := ih rest'
      exact ⟨rfl, rfl, rfl⟩
    | refer hfind' | name hfind' => cases hfind.symm.trans hfind'
    | top _ htop' => cases htop.symm.trans htop'

end BundleGraph
end Biunify
