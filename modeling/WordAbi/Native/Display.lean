import WordAbi.Native.Basic
import WordAbi.Number.Literal
import WordAbi.Number.Shortest
import WordAbi.Text.Quoted
/-! The text of a value: brackets by kind, texts in quotes, numbers in their shortest form. -/
namespace WordAbi.Native

def tupleText : List String → String
  | [s] => "(" ++ s ++ ",)"
  | items => "(" ++ ", ".intercalate items ++ ")"

def boolText (b : Bool) : String := if b then "True" else "False"

def repr {ε : Type} (embedded : ε → String) : Native ε → String
  | null => "None"
  | .bool b => boolText b
  | int n => Decimal.text n
  | float x => Shortest.plain.write x
  | str s => Text.quoted s
  | .bytes bs => Text.quotedBytes bs
  | list vs => "[" ++ ", ".intercalate (reprItems vs) ++ "]"
  | tuple vs => tupleText (reprItems vs)
  | dict es => "\x7b" ++ ", ".intercalate (reprEntries es) ++ "\x7d"
  | .embedded e => embedded e
where
  reprItems : List (Native ε) → List String
    | [] => []
    | v :: vs => repr embedded v :: reprItems vs
  reprEntries : List (Native ε × Native ε) → List String
    | [] => []
    | (k, v) :: es => (repr embedded k ++ ": " ++ repr embedded v) :: reprEntries es

def display {ε : Type} (embedded : ε → String) : Native ε → String
  | str s => s
  | v => repr embedded v

end WordAbi.Native

namespace WordAbi.Datum

def repr (v : Datum) : String := Native.repr Empty.elim v

def display (v : Datum) : String := Native.display Empty.elim v

def kindName (v : Datum) : String := Native.kindName Empty.elim v

def same (v w : Datum) : Bool := Native.same (fun e _ => e.elim) v w

end WordAbi.Datum
