import Biunify.Bundle.Basic
import Biunify.Text

/-! Texts of bundles: a rendering that marks levels, a dump, and the key by which a
traversal notices that it is back at a bundle it has not finished. -/

namespace Biunify
namespace Layer

def parts (varText : Var → String) (l : Layer String) : List String :=
  l.vars.items.map varText ++ l.bases.toList.map BaseTy.name
    ++ l.record.toList.map (fun fields => braces (commaSep (fields.map fun f => labelled f.1 f.2)))
    ++ l.tuple.toList.map (fun elems => parens (commaSep elems))
    ++ l.func.toList.map (fun f => f.1 ++ " -> " ++ f.2)
    ++ if l.top then ["⊤"] else []

def text (varText : Var → String) (l : Layer String) : String :=
  "‹" ++ commaSep (l.parts varText) ++ "›"

/-- A record without fields adds nothing to the key. -/
def key (l : Layer String) : String :=
  { l with record := l.record.filter fun fields => !fields.isEmpty }.text fun v => v.id.repr

def render (l : Layer String) : String := l.text Var.render

def dumpOption : Option String → String
  | none => "None"
  | some s => "Some" ++ parens s

def dump (quote : String → String) (l : Layer String) : String :=
  "CompactType \x7b vars: " ++ braces (commaSep (l.vars.items.map Var.dump))
    ++ ", prims: " ++ braces (commaSep (l.bases.toList.map BaseTy.dump))
    ++ ", tuple: " ++ dumpOption (l.tuple.map fun elems => brackets (commaSep elems))
    ++ ", record: " ++ dumpOption (l.record.map fun fields =>
        braces (commaSep (fields.map fun f => labelled (quote f.1) f.2)))
    ++ ", function: " ++ dumpOption (l.func.map fun f => parens (f.1 ++ ", " ++ f.2))
    ++ ", top: " ++ renderBool l.top ++ " \x7d"

end Layer

namespace Bundle

def key : Bundle → String := fold fun l => (l.map Prod.snd).key

def render : Bundle → String := fold fun l => (l.map Prod.snd).render

def dump (quote : String → String) : Bundle → String :=
  fold fun l => (l.map Prod.snd).dump quote

end Bundle
end Biunify
