import Biunify.Var
import Mathlib.Data.List.Perm.Subperm
import Mathlib.Data.Nat.Basic
import Mathlib.Order.Basic

/-! Finite maps on variables as functions of the id of a variable. A map with keys below
a bound has no more entries than the bound. -/

namespace Biunify
namespace Ordered

structure Linear (κ : Type) [LT κ] : Prop where
  irrefl : ∀ k : κ, ¬k < k
  trans : ∀ {a b c : κ}, a < b → b < c → a < c
  connex : ∀ {a b : κ}, ¬a < b → ¬b < a → a = b

theorem linear_nat : Linear Nat := ⟨Nat.lt_irrefl, Nat.lt_trans, by omega⟩

theorem linear_string : Linear String :=
  ⟨String.lt_irrefl, String.lt_trans, fun hlt hgt => String.le_antisymm hgt hlt⟩

section Linear

variable {α κ : Type} [LT κ] {key : α → κ} (ord : Linear κ)

include ord

theorem Linear.trichotomy (a b : κ) : a < b ∨ a = b ∨ b < a := by
  by_cases hlt : a < b
  · exact .inl hlt
  · by_cases hgt : b < a
    · exact .inr (.inr hgt)
    · exact .inr (.inl (ord.connex hlt hgt))

theorem Linear.asymm {a b : κ} (h : a < b) : ¬b < a := fun h' => ord.irrefl a (ord.trans h h')

theorem Linear.ne {a b : κ} (h : a < b) : a ≠ b := fun heq => ord.irrefl b (heq ▸ h)

theorem Ascending.nodup {xs : List α} (h : Ascending key xs) : xs.Nodup :=
  List.Pairwise.imp (fun {a b} (hlt : key a < key b) (heq : a = b) => ord.ne hlt (heq ▸ rfl)) h

variable [DecidableLT κ]

omit ord in
theorem find?_cons_lt {k : κ} {y : α} (ys : List α) (h : k < key y) :
    find? key k (y :: ys) = none := by
  rw [find?, if_pos h]

theorem find?_cons_gt {k : κ} {y : α} (ys : List α) (h : key y < k) :
    find? key k (y :: ys) = find? key k ys := by
  rw [find?, if_neg (ord.asymm h), if_pos h]

theorem find?_cons_eq {k : κ} {y : α} (ys : List α) (h : k = key y) :
    find? key k (y :: ys) = some y := by
  rw [find?, h, if_neg (ord.irrefl _), if_neg (ord.irrefl _)]

theorem find?_insertWith [DecidableEq κ] (join : α → α → α)
    (keep : ∀ a b, key (join a b) = key a) (k : κ) (x : α) {xs : List α} (h : Ascending key xs) :
    find? key k (insertWith key join x xs) =
      if k = key x then some ((find? key k xs).elim x (join · x)) else find? key k xs := by
  induction xs with
  | nil =>
    rcases ord.trichotomy k (key x) with hk | hk | hk
    · rw [insertWith, find?_cons_lt _ hk, if_neg (ord.ne hk), find?]
    · rw [insertWith, find?_cons_eq ord _ hk, if_pos hk]
      rfl
    · rw [insertWith, find?_cons_gt ord _ hk, if_neg (ord.ne hk).symm]
  | cons y ys ih =>
    obtain ⟨-, hys⟩ := List.pairwise_cons.mp h
    rw [insertWith]
    rcases ord.trichotomy (key x) (key y) with hxy | hxy | hxy
    · rw [if_pos hxy]
      rcases ord.trichotomy k (key x) with hk | hk | hk
      · rw [find?_cons_lt _ hk, if_neg (ord.ne hk), find?_cons_lt _ (ord.trans hk hxy)]
      · rw [find?_cons_eq ord _ hk, if_pos hk, find?_cons_lt _ (hk ▸ hxy)]
        rfl
      · rw [find?_cons_gt ord _ hk, if_neg (ord.ne hk).symm]
    · rw [if_neg (hxy ▸ ord.irrefl _), if_neg (hxy ▸ ord.irrefl _)]
      rcases ord.trichotomy k (key y) with hk | hk | hk
      · rw [find?_cons_lt _ ((keep y x).symm ▸ hk), hxy, if_neg (ord.ne hk), find?_cons_lt _ hk]
      · rw [find?_cons_eq ord _ (hk.trans (keep y x).symm), hxy, if_pos hk, find?_cons_eq ord _ hk]
        rfl
      · rw [find?_cons_gt ord _ ((keep y x).symm ▸ hk), hxy, if_neg (ord.ne hk).symm,
          find?_cons_gt ord _ hk]
    · rw [if_neg (ord.asymm hxy), if_pos hxy]
      rcases ord.trichotomy k (key y) with hk | hk | hk
      · rw [find?_cons_lt _ hk, if_neg (ord.ne (ord.trans hk hxy)), find?_cons_lt _ hk]
      · rw [find?_cons_eq ord _ hk, if_neg (ord.ne (hk ▸ hxy)), find?_cons_eq ord _ hk]
      · rw [find?_cons_gt ord _ hk, ih hys, find?_cons_gt ord _ hk]

theorem find?_eq_some_of_mem {x : α} {xs : List α} (h : Ascending key xs) (hx : x ∈ xs) :
    find? key (key x) xs = some x := by
  induction xs with
  | nil => cases hx
  | cons y ys ih =>
    obtain ⟨hy, hys⟩ := List.pairwise_cons.mp h
    rcases List.mem_cons.mp hx with rfl | hx
    · exact find?_cons_eq ord ys rfl
    · rw [find?_cons_gt ord ys (hy x hx), ih hys hx]

theorem find?_eq_some_iff {k : κ} {x : α} {xs : List α} (h : Ascending key xs) :
    find? key k xs = some x ↔ x ∈ xs ∧ key x = k := by
  refine ⟨fun hx => ?_, fun ⟨hx, hk⟩ => hk ▸ find?_eq_some_of_mem ord h hx⟩
  induction xs with
  | nil => cases hx
  | cons y ys ih =>
    rw [find?] at hx
    split_ifs at hx with hlt hgt
    · exact (ih (List.pairwise_cons.mp h).2 hx).imp_left (List.mem_cons_of_mem y)
    · cases hx
      exact ⟨List.mem_cons_self, ord.connex hgt hlt⟩

theorem Ascending.ext {xs ys : List α} (hx : Ascending key xs) (hy : Ascending key ys)
    (h : ∀ k, find? key k xs = find? key k ys) : xs = ys := by
  have hmem : ∀ z, z ∈ xs ↔ z ∈ ys := by
    intro z
    rw [← and_iff_left (a := z ∈ xs) (rfl : key z = key z), ← find?_eq_some_iff ord hx, h,
      find?_eq_some_iff ord hy, and_iff_left rfl]
  exact ((List.perm_ext_iff_of_nodup (hx.nodup ord) (hy.nodup ord)).mpr hmem).eq_of_pairwise
    (fun _ _ _ _ hlt hgt => absurd hgt (ord.asymm hlt)) hx hy

end Linear

section Map

variable {α β κ κ' : Type} [LT κ] [DecidableLT κ] [LT κ'] [DecidableLT κ'] {key : α → κ}
  {key' : β → κ'} {f : α → β} {σ : κ → κ'} (hlt : ∀ {a b}, σ a < σ b ↔ a < b)
  (hkey : ∀ x, key' (f x) = σ (key x))

include hlt hkey

theorem find?_map (k : κ) (xs : List α) :
    find? key' (σ k) (xs.map f) = (find? key k xs).map f := by
  induction xs with
  | nil => rfl
  | cons x xs ih =>
    simp only [List.map_cons, find?, hkey, hlt, ih]
    split_ifs <;> rfl

theorem insertWith_map {join : α → α → α} {join' : β → β → β}
    (hjoin : ∀ x y, f (join x y) = join' (f x) (f y)) (x : α) (xs : List α) :
    insertWith key' join' (f x) (xs.map f) = (insertWith key join x xs).map f := by
  induction xs with
  | nil => rfl
  | cons y ys ih =>
    simp only [List.map_cons, insertWith, hkey, hlt, ih]
    split_ifs <;> simp only [List.map_cons, hjoin]

end Map

variable {α : Type} {key : α → Nat}

theorem length_insertWith {join : α → α → α} {x : α} {xs : List α}
    (h : find? key (key x) xs = none) (ha : Ascending key xs) :
    (insertWith key join x xs).length = xs.length + 1 := by
  induction xs with
  | nil => rfl
  | cons y ys ih =>
    obtain ⟨-, hys⟩ := List.pairwise_cons.mp ha
    rw [insertWith]
    rw [find?] at h
    split_ifs at h ⊢ with h₁ h₂
    · rfl
    · rw [List.length_cons, ih h hys, List.length_cons]

theorem length_le {n : Nat} {xs : List α} (h : Ascending key xs) (hn : ∀ x ∈ xs, key x < n) :
    xs.length ≤ n := by
  have hnodup : (xs.map key).Nodup :=
    List.pairwise_map.mpr (h.imp fun hlt => Nat.ne_of_lt hlt)
  have hsub : xs.map key ⊆ List.range n := by
    intro k hk
    obtain ⟨x, hx, rfl⟩ := List.mem_map.mp hk
    exact List.mem_range.mpr (hn x hx)
  simpa using (List.subperm_of_subset hnodup hsub).length_le

end Ordered

namespace VarSet

theorem contains_iff {s : VarSet} {v : Var} :
    s.contains v = true ↔ ∃ w ∈ s.items, w.id = v.id := by
  rw [contains, Option.isSome_iff_exists]
  exact exists_congr fun w => Ordered.find?_eq_some_iff Ordered.linear_nat s.ascending

theorem contains_insert (s : VarSet) (v w : Var) :
    (s.insert v).contains w = (w.id == v.id || s.contains w) := by
  have h := Ordered.find?_insertWith Ordered.linear_nat (fun old _ => old) (fun _ _ => rfl) w.id v
    s.ascending
  show (Ordered.find? Var.id w.id (Ordered.insertWith Var.id _ v s.items)).isSome = _
  rw [h]
  split_ifs with hid
  · simp [hid]
  · simp [hid, contains]

theorem mem_insert {s : VarSet} {v w : Var} (h : w ∈ (s.insert v).items) :
    w = v ∨ w ∈ s.items := by
  rcases Ordered.mem_insertWith h with h | h | ⟨u, hu, rfl⟩
  · exact .inl h
  · exact .inr h
  · exact .inr hu

theorem contains_ofList {vs : List Var} {v : Var} :
    (ofList vs).contains v = true ↔ ∃ w ∈ vs, w.id = v.id := by
  have hfold : ∀ s : VarSet, (vs.foldl insert s).contains v = true ↔
      s.contains v = true ∨ ∃ w ∈ vs, w.id = v.id := by
    induction vs with
    | nil => simp
    | cons w ws ih =>
      intro s
      rw [List.foldl_cons, ih, contains_insert, Bool.or_eq_true, beq_iff_eq, or_assoc,
        or_left_comm, @eq_comm _ v.id]
      simp only [List.mem_cons, exists_eq_or_imp]
  refine (hfold empty).trans ⟨fun h => h.resolve_left fun hv => ?_, .inr⟩
  cases hv

end VarSet

namespace VarMap

variable {α : Type}

@[simp] theorem find?_empty (v : Var) : (empty : VarMap α).find? v = none := rfl

theorem find?_congr (m : VarMap α) {v w : Var} (h : v.id = w.id) : m.find? v = m.find? w := by
  rw [find?, find?, h]

theorem find?_insert (m : VarMap α) (v w : Var) (a : α) :
    (m.insert v a).find? w = if w.id = v.id then some a else m.find? w := by
  have h := Ordered.find?_insertWith Ordered.linear_nat (fun old new => (old.1, new.2))
    (fun _ _ => rfl) w.id (v, a) m.ascending
  simp only [find?, insert, h]
  split
  · cases Ordered.find? (fun entry : Var × α => entry.1.id) w.id m.items <;> rfl
  · rfl

theorem find?_eq_some_iff {m : VarMap α} {v : Var} {a : α} :
    m.find? v = some a ↔ ∃ w, (w, a) ∈ m.items ∧ w.id = v.id := by
  rw [find?, Option.map_eq_some_iff]
  constructor
  · rintro ⟨⟨w, a⟩, hw, rfl⟩
    exact ⟨w, (Ordered.find?_eq_some_iff Ordered.linear_nat m.ascending).mp hw⟩
  · rintro ⟨w, hw⟩
    exact ⟨(w, a), (Ordered.find?_eq_some_iff Ordered.linear_nat m.ascending).mpr hw, rfl⟩

theorem contains_congr (m : VarMap α) {v w : Var} (h : v.id = w.id) :
    m.contains v = m.contains w := by
  rw [contains, contains, m.find?_congr h]

theorem contains_of_find? {m : VarMap α} {v w : Var} {a : α} (h : m.find? v = some a)
    (hid : w.id = v.id) : m.contains w = true := by
  rw [m.contains_congr hid, contains, h]
  rfl

theorem contains_insert (m : VarMap α) (v w : Var) (a : α) :
    (m.insert v a).contains w = (w.id == v.id || m.contains w) := by
  rw [contains, find?_insert]
  split_ifs with hid
  · simp [hid]
  · simp [hid, contains]

theorem erase_eq {m : VarMap α} {v : Var} (h : m.find? v = none) : m.erase v = m := by
  rcases m with ⟨items, hitems⟩
  rw [erase]
  congr 1
  refine List.filter_eq_self.mpr fun entry hentry => bne_iff_ne.mpr fun hid => ?_
  rw [find?_eq_some_iff.mpr ⟨entry.1, hentry, hid⟩] at h
  cases h

theorem find?_map {β : Type} (f : α → β) (m : VarMap α) (v : Var) :
    (m.map f).find? v = (m.find? v).map f := by
  cases h : m.find? v with
  | some a =>
    obtain ⟨w, hw, hid⟩ := find?_eq_some_iff.mp h
    exact find?_eq_some_iff.mpr ⟨w, List.mem_map_of_mem hw, hid⟩
  | none =>
    refine Option.eq_none_iff_forall_ne_some.mpr fun b hb => ?_
    obtain ⟨w, hw, hid⟩ := find?_eq_some_iff.mp hb
    obtain ⟨⟨u, a⟩, hu, heq⟩ := List.mem_map.mp hw
    cases heq
    rw [find?_eq_some_iff.mpr ⟨_, hu, hid⟩] at h
    cases h

theorem size_insert {m : VarMap α} {v : Var} (h : m.find? v = none) (a : α) :
    (m.insert v a).size = m.size + 1 :=
  Ordered.length_insertWith (Option.map_eq_none_iff.mp h) m.ascending

theorem contains_of_size_le {β : Type} {m : VarMap α} {n : VarMap β}
    (h : ∀ v, m.contains v = true → n.contains v = true) (hsize : n.size ≤ m.size) {v : Var}
    (hv : n.contains v = true) : m.contains v = true := by
  have hids : ∀ {γ : Type} {k : VarMap γ} {i : Nat},
      i ∈ k.items.map (·.1.id) ↔ k.contains ⟨i, 0⟩ = true := by
    intro γ k i
    rw [contains, Option.isSome_iff_exists, List.mem_map]
    constructor
    · rintro ⟨entry, hentry, rfl⟩
      exact ⟨entry.2, find?_eq_some_iff.mpr ⟨entry.1, hentry, rfl⟩⟩
    · rintro ⟨a, ha⟩
      obtain ⟨w, hw, hid⟩ := find?_eq_some_iff.mp ha
      exact ⟨(w, a), hw, hid⟩
  have hnodup : (m.items.map (·.1.id)).Nodup :=
    List.pairwise_map.mpr (m.ascending.imp fun hlt => Nat.ne_of_lt hlt)
  have hsub : m.items.map (·.1.id) ⊆ n.items.map (·.1.id) :=
    fun i hi => hids.mpr (h _ (hids.mp hi))
  have hperm : (m.items.map (·.1.id)).Perm (n.items.map (·.1.id)) :=
    (List.subperm_of_subset hnodup hsub).perm_of_length_le (by simpa [size] using hsize)
  have hmem := hids.mpr ((n.contains_congr (w := ⟨v.id, 0⟩) rfl).symm.trans hv)
  exact (m.contains_congr rfl).trans (hids.mp (hperm.mem_iff.mpr hmem))

theorem size_le {m : VarMap α} {n : Nat} (h : ∀ v a, m.find? v = some a → v.id < n) :
    m.size ≤ n := by
  refine Ordered.length_le m.ascending fun entry he => h entry.1 entry.2 ?_
  rw [find?, Ordered.find?_eq_some_of_mem Ordered.linear_nat m.ascending he]
  rfl

end VarMap

namespace PolarMap

variable {α : Type}

@[simp] theorem find?_empty (p : Polarity) (v : Var) : (empty : PolarMap α).find? p v = none := by
  cases p <;> rfl

theorem contains_iff {m : PolarMap α} {p : Polarity} {v : Var} :
    m.contains p v = true ↔ ∃ a, m.find? p v = some a := Option.isSome_iff_exists

theorem find?_congr (m : PolarMap α) (p : Polarity) {v w : Var} (h : v.id = w.id) :
    m.find? p v = m.find? p w := VarMap.find?_congr _ h

theorem find?_insert (m : PolarMap α) (p q : Polarity) (v w : Var) (a : α) :
    (m.insert p v a).find? q w = if w.id = v.id ∧ q = p then some a else m.find? q w := by
  cases p <;> cases q <;> simp [find?, insert, side, VarMap.find?_insert]

def size (m : PolarMap α) : Nat := m.positive.size + m.negative.size

theorem size_insert {m : PolarMap α} {p : Polarity} {v : Var} (h : m.find? p v = none) (a : α) :
    (m.insert p v a).size = m.size + 1 := by
  cases p with
  | positive =>
    have := VarMap.size_insert h a
    simp only [size, insert, side] at this ⊢
    omega
  | negative =>
    have := VarMap.size_insert h a
    simp only [size, insert, side] at this ⊢
    omega

theorem size_le {m : PolarMap α} {n : Nat} (h : ∀ p v a, m.find? p v = some a → v.id < n) :
    m.size ≤ 2 * n := by
  have hp := VarMap.size_le (h .positive)
  have hn := VarMap.size_le (h .negative)
  simp only [size, side] at hp hn ⊢
  omega

end PolarMap
end Biunify
