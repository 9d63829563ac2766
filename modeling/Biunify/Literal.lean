import Biunify.BaseTy
import Biunify.Binary64
import Biunify.Text

/-! Literal values and their base types. -/

namespace Biunify

inductive Literal where
  | bool (b : Bool)
  | int (n : Int)
  | float (x : Binary64)
  | str (s : String)

namespace Literal

def baseTy : Literal → BaseTy
  | bool _ => .bool
  | int _ => .int
  | float _ => .float
  | str _ => .string

def renderInt : Int → String
  | .ofNat n => n.repr
  | .negSucc n => "-" ++ (n + 1).repr

def render (quote : String → String) : Literal → String
  | bool b => renderBool b
  | int n => renderInt n
  | float x => x.render
  | str s => quote s

def dump (quote : String → String) : Literal → String
  | bool b => "Bool" ++ parens (renderBool b)
  | int n => "Int" ++ parens (renderInt n)
  | float x => "Float" ++ parens x.render
  | str s => "Str" ++ parens (quote s)

def same : Literal → Literal → Bool
  | bool a, bool b => a == b
  | int a, int b => a == b
  | float a, float b => a.same b
  | str a, str b => a == b
  | _, _ => false

end Literal
end Biunify
