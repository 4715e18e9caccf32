import WordAbi.TypeExpr.Lexeme
/-! Type expressions: how the type of a schema node is written. -/
namespace WordAbi

inductive CustomKind where
  | struct
  | enum
  deriving DecidableEq, Repr

def CustomKind.word : CustomKind → String
  | struct => "struct"
  | enum => "enum"

inductive TypeExpr where
  | keyword (word : String)
  | str (length : Nat)
  | array (element : TypeExpr) (length : Nat)
  | tuple (elements : List TypeExpr)
  | custom (kind : CustomKind) (name : String)
  | generic (name : String)
  deriving Inhabited

namespace TypeExpr

inductive Frame where
  | tuple (elements : List TypeExpr)
  | array

inductive State where
  | type
  | firstElement
  | afterStr
  | strLength
  | strClose (length : Nat)
  | customName (kind : CustomKind)
  | genericName
  | untyped
  | pointer
  | arrayLength (element : TypeExpr)
  | arrayClose (element : TypeExpr) (length : Nat)
  | complete (expr : TypeExpr)

abbrev Reading := List Frame × State

def expectText (source text : String) (l : Lexeme) (next : Reading) : Except Fault Reading :=
  if l.is text then .ok next
  else .error (.invalidType (.expectedText source text l.position l.text))

def expectKind (source : String) (kind : LexemeKind) (l : Lexeme) (next : List Char → Reading) :
    Except Fault Reading :=
  if l.kind = kind then .ok (next l.chars)
  else .error (.invalidType (.expectedKind source kind.text l.position l.text))

/-- Takes a number, at which the host fails if it has too many digits. -/
def expectNumber [Host] (source : String) (l : Lexeme) (next : Nat → Reading) : Except Fault Reading :=
  if l.kind ≠ .number then .error (.invalidType (.expectedKind source LexemeKind.number.text l.position l.text))
  else if Host.Reads l.chars then .ok (next (Text.digitsValue l.chars))
  else .error (.misuse .badValue)

def takeType (source : String) (stack : List Frame) (l : Lexeme) : Except Fault Reading :=
  if l.is "(" then .ok (stack, .firstElement)
  else if l.is "[" then .ok (.array :: stack, .type)
  else if l.kind ≠ .path then .error (.invalidType (.unexpectedLexeme source l.text l.position))
  else if l.is "str" then .ok (stack, .afterStr)
  else if l.is "struct" then .ok (stack, .customName .struct)
  else if l.is "enum" then .ok (stack, .customName .enum)
  else if l.is "generic" then .ok (stack, .genericName)
  else if l.is "raw" then .ok (stack, .untyped)
  else .ok (stack, .complete (.keyword l.text))

def takeAfter (source : String) (stack : List Frame) (expr : TypeExpr) (l : Lexeme) :
    Except Fault Reading :=
  match stack with
  | [] => .error (.invalidType (.trailing source l.text l.position))
  | .tuple elements :: stack =>
    if l.is "," then .ok (.tuple (expr :: elements) :: stack, .type)
    else expectText source ")" l (stack, .complete (.tuple (expr :: elements).reverse))
  | .array :: stack => expectText source ";" l (stack, .arrayLength expr)

def advance [Host] (source : String) (stack : List Frame) (state : State) (l : Lexeme) :
    Except Fault Reading :=
  match state with
  | .type => takeType source stack l
  | .firstElement =>
    if l.is ")" then .ok (stack, .complete (.keyword "()"))
    else takeType source (.tuple [] :: stack) l
  | .afterStr =>
    if l.is "[" then .ok (stack, .strLength) else takeAfter source stack (.keyword "str") l
  | .strLength => expectNumber source l fun length => (stack, .strClose length)
  | .strClose length => expectText source "]" l (stack, .complete (.str length))
  | .customName kind =>
    expectKind source .path l fun name => (stack, .complete (.custom kind (String.ofList name)))
  | .genericName =>
    expectKind source .path l fun name => (stack, .complete (.generic (String.ofList name)))
  | .untyped => expectText source "untyped" l (stack, .pointer)
  | .pointer => expectText source "ptr" l (stack, .complete (.keyword "raw untyped ptr"))
  | .arrayLength element => expectNumber source l fun length => (stack, .arrayClose element length)
  | .arrayClose element length => expectText source "]" l (stack, .complete (.array element length))
  | .complete expr => takeAfter source stack expr l

def finish (source : String) : Reading → Except Fault TypeExpr
  | ([], .complete expr) => .ok expr
  | ([], .afterStr) => .ok (.keyword "str")
  | _ => .error (.invalidType (.unexpectedEnd source))

def run [Host] (source : String) (reading : Reading) : List Lexeme → Except Fault TypeExpr
  | [] => finish source reading
  | l :: rest => do
    let next ← advance source reading.1 reading.2 l
    run source next rest

def ofText [Host] (source : String) : Except Fault TypeExpr :=
  if source.toList.all Text.isBlank then .error (.invalidType (.blank source))
  else do
    let ls ← lexemes source
    run source ([], .type) ls

def ofDatum [Host] : Datum → Except Fault TypeExpr
  | .str source => ofText source
  | v => .error (.invalidType (.blank v.display))

end TypeExpr

end WordAbi
