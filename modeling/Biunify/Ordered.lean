/-! Lists kept ascending by a key, as sets and finite maps with a fixed order. -/

namespace Biunify
namespace Ordered

variable {α κ : Type} [LT κ] [DecidableLT κ] (key : α → κ)

def Ascending (xs : List α) : Prop := xs.Pairwise fun x y => key x < key y

def insertWith (join : α → α → α) (x : α) : List α → List α
  | [] => [x]
  | y :: rest =>
    if key x < key y then x :: y :: rest
    else if key y < key x then y :: insertWith join x rest
    else join y x :: rest

def insert (x : α) (xs : List α) : List α := insertWith key (fun old _ => old) x xs

def find? (k : κ) : List α → Option α
  | [] => none
  | y :: rest => if k < key y then none else if key y < k then find? k rest else some y

variable {key}

theorem mem_insertWith {join : α → α → α} {x z : α} {xs : List α}
    (h : z ∈ insertWith key join x xs) : z = x ∨ z ∈ xs ∨ ∃ y ∈ xs, z = join y x := by
  induction xs with
  | nil => exact .inl (by simpa [insertWith] using h)
  | cons y rest ih =>
    unfold insertWith at h
    split at h
    · rcases List.mem_cons.mp h with rfl | h
      · exact .inl rfl
      · exact .inr (.inl h)
    · split at h
      · rcases List.mem_cons.mp h with rfl | h
        · simp
        · rcases ih h with rfl | h | ⟨w, hw, rfl⟩
          · exact .inl rfl
          · exact .inr (.inl (List.mem_cons_of_mem _ h))
          · exact .inr (.inr ⟨w, List.mem_cons_of_mem _ hw, rfl⟩)
      · rcases List.mem_cons.mp h with rfl | h
        · exact .inr (.inr ⟨y, List.mem_cons_self, rfl⟩)
        · exact .inr (.inl (List.mem_cons_of_mem _ h))

theorem Ascending.insertWith {join : α → α → α} {x : α} {xs : List α}
    (trans : ∀ {a b c : κ}, a < b → b < c → a < c) (keep : ∀ a b, key (join a b) = key a)
    (h : Ascending key xs) : Ascending key (insertWith key join x xs) := by
  induction xs with
  | nil => exact List.pairwise_singleton _ _
  | cons y rest ih =>
    obtain ⟨hy, hrest⟩ := List.pairwise_cons.mp h
    unfold Ordered.insertWith
    split
    case isTrue hxy =>
      refine List.pairwise_cons.mpr ⟨fun z hz => ?_, h⟩
      rcases List.mem_cons.mp hz with rfl | hz
      · exact hxy
      · exact trans hxy (hy z hz)
    case isFalse =>
      split
      case isTrue hyx =>
        refine List.pairwise_cons.mpr ⟨fun z hz => ?_, ih hrest⟩
        rcases mem_insertWith hz with rfl | hz | ⟨w, hw, rfl⟩
        · exact hyx
        · exact hy z hz
        · exact keep w x ▸ hy w hw
      case isFalse =>
        exact List.pairwise_cons.mpr ⟨fun z hz => keep y x ▸ hy z hz, hrest⟩

end Ordered
end Biunify
