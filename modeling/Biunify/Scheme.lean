import Biunify.Ty.Printer

/-! Type schemes and the contexts that give names their schemes. -/

namespace Biunify

/-- A generalized type: the variables of `body` deeper than `level` are quantified. -/
structure Polytype where
  level : Nat
  body : Ty

namespace Polytype

def dump (quote : String → String) (p : Polytype) : String :=
  "Poly" ++ parens (p.level.repr ++ ", " ++ p.body.dump quote)

end Polytype

inductive Scheme where
  | mono (ty : Ty)
  | poly (p : Polytype)

namespace Scheme

def dump (quote : String → String) : Scheme → String
  | mono ty => ty.dump quote
  | poly p => p.dump quote

end Scheme

structure Context where
  entries : List (String × Scheme)

namespace Context

def empty : Context := ⟨[]⟩

def find? (ctx : Context) (name : String) : Option Scheme :=
  (ctx.entries.find? fun entry => entry.1 == name).map Prod.snd

def insert (ctx : Context) (name : String) (scheme : Scheme) : Context :=
  ⟨(name, scheme) :: ctx.entries.filter fun entry => entry.1 != name⟩

def ofList (entries : List (String × Scheme)) : Context :=
  entries.foldl (fun ctx entry => ctx.insert entry.1 entry.2) empty

def size (ctx : Context) : Nat := ctx.entries.length

def isEmpty (ctx : Context) : Bool := ctx.entries.isEmpty

end Context
end Biunify
