/-! Base types, ordered by name, and finite sets of them. Integers are accepted where
floats are expected; no other two base types are related. -/

namespace Biunify

inductive BaseTy where
  | bool
  | float
  | int
  | string
deriving DecidableEq

namespace BaseTy

def name : BaseTy → String
  | bool => "bool"
  | float => "float"
  | int => "int"
  | string => "string"

def dump : BaseTy → String
  | bool => "Bool"
  | float => "Float"
  | int => "Int"
  | string => "String"

def rank : BaseTy → Nat
  | bool => 0
  | float => 1
  | int => 2
  | string => 3

def below (a b : BaseTy) : Bool := a == b || (a == int && b == float)

def all : List BaseTy := [bool, float, int, string]

def ofName? (s : String) : Option BaseTy := all.find? fun b => b.name == s

def sort (bs : List BaseTy) : List BaseTy := bs.mergeSort fun a b => a.rank ≤ b.rank

theorem below_refl (a : BaseTy) : a.below a = true := by cases a <;> rfl

theorem below_trans {a b c : BaseTy} (h : a.below b = true) (k : b.below c = true) :
    a.below c = true := by
  revert h k
  cases a <;> cases b <;> cases c <;> decide

theorem mem_all (b : BaseTy) : b ∈ all := by cases b <;> decide

end BaseTy

structure BaseSet where
  bool : Bool
  float : Bool
  int : Bool
  string : Bool
deriving DecidableEq

namespace BaseSet

def empty : BaseSet := ⟨false, false, false, false⟩

def contains (s : BaseSet) : BaseTy → Bool
  | .bool => s.bool
  | .float => s.float
  | .int => s.int
  | .string => s.string

def insert (s : BaseSet) : BaseTy → BaseSet
  | .bool => { s with bool := true }
  | .float => { s with float := true }
  | .int => { s with int := true }
  | .string => { s with string := true }

def singleton (b : BaseTy) : BaseSet := empty.insert b

def ofList (bs : List BaseTy) : BaseSet := bs.foldl insert empty

def union (s t : BaseSet) : BaseSet :=
  ⟨s.bool || t.bool, s.float || t.float, s.int || t.int, s.string || t.string⟩

def toList (s : BaseSet) : List BaseTy := BaseTy.all.filter s.contains

def isEmpty (s : BaseSet) : Bool := s.toList.isEmpty

@[simp] theorem contains_empty (b : BaseTy) : empty.contains b = false := by cases b <;> rfl

@[simp] theorem contains_insert (s : BaseSet) (a b : BaseTy) :
    (s.insert a).contains b = (b == a || s.contains b) := by
  cases a <;> cases b <;> rfl

@[simp] theorem contains_union (s t : BaseSet) (b : BaseTy) :
    (s.union t).contains b = (s.contains b || t.contains b) := by
  cases b <;> rfl

@[simp] theorem mem_toList (s : BaseSet) (b : BaseTy) : b ∈ s.toList ↔ s.contains b = true := by
  simp [toList, BaseTy.mem_all]

end BaseSet
end Biunify
