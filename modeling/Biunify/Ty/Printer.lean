import Biunify.Text
import Biunify.Ty.Basic

/-! Texts of inference types: a rendering that marks levels, a dump, and the key by
which a constraint is remembered. Fields stay in the order they were written. -/

namespace Biunify
namespace Ty

mutual

def render : Ty → String
  | base b => b.name
  | var v => v.render
  | arrow _ param result => parens (render param ++ " -> " ++ render result)
  | tuple _ elems => parens (commaSep (renderElems elems))
  | record _ fields => braces (commaSep (renderFields fields))

def renderElems : List Ty → List String
  | [] => []
  | t :: rest => render t :: renderElems rest

def renderFields : List (String × Ty) → List String
  | [] => []
  | (name, t) :: rest => labelled name (render t) :: renderFields rest

end

mutual

def dump (quote : String → String) : Ty → String
  | base b => b.dump
  | var v => v.dump
  | arrow _ param result => parens (dump quote param ++ " -> " ++ dump quote result)
  | tuple _ elems => brackets (commaSep (dumpElems quote elems))
  | record _ fields => brackets (commaSep (dumpFields quote fields))

def dumpElems (quote : String → String) : List Ty → List String
  | [] => []
  | t :: rest => dump quote t :: dumpElems quote rest

def dumpFields (quote : String → String) : List (String × Ty) → List String
  | [] => []
  | (name, t) :: rest => parens (quote name ++ ", " ++ dump quote t) :: dumpFields quote rest

end

mutual

def key : Ty → String
  | base b => b.name
  | var v => "var_" ++ v.id.repr
  | arrow node param result =>
    brackets (level (arrow node param result)).repr ++ "fun " ++ key param ++ " -> " ++ key result
  | tuple node elems =>
    brackets (level (tuple node elems)).repr ++ parens (commaSep (keyElems elems))
  | record node fields =>
    brackets (level (record node fields)).repr ++ braces (commaSep (keyFields fields))

def keyElems : List Ty → List String
  | [] => []
  | t :: rest => key t :: keyElems rest

def keyFields : List (String × Ty) → List String
  | [] => []
  | (name, t) :: rest => labelled name (key t) :: keyFields rest

end

end Ty
end Biunify
