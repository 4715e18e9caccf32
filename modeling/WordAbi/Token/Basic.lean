import WordAbi.Fault
/-! Tokens: values with the layout that a type gives them. A token is what the encoder takes and the
decoder gives; whether it is well formed is asked when it is encoded. -/
namespace WordAbi

inductive SequenceKind where
  | array
  | vector
  | struct
  | tuple
  deriving DecidableEq, Repr

inductive CompoundKind where
  | string
  | enum
  | sequence (kind : SequenceKind)
  deriving DecidableEq, Repr

/-- A token. A scalar holds a written value, right or wrong for its kind. A string knows the length
that its type requires, and an enum the variants that it is one of. `misfit` is a compound token
around a value that no such token has, and `foreign` a value in the place of a token. -/
inductive Token where
  | scalar (kind : Primitive) (payload : Datum)
  | string (text : String) (expected : Int)
  | sequence (kind : SequenceKind) (items : List Token)
  | enum (discriminant : Int) (payload : Token) (variants : EnumVariants)
  | misfit (kind : CompoundKind) (payload : Datum)
  | foreign (value : Datum)
  deriving Inhabited

def Primitive.kindName : Primitive → String
  | unit => "Unit"
  | bool => "Bool"
  | u8 => "U8"
  | u16 => "U16"
  | u32 => "U32"
  | u64 => "U64"
  | byte => "Byte"
  | b256 => "B256"

def SequenceKind.kindName : SequenceKind → String
  | array => "Array"
  | vector => "Vector"
  | struct => "Struct"
  | tuple => "Tuple"

def CompoundKind.kindName : CompoundKind → String
  | string => "String"
  | enum => "Enum"
  | sequence kind => kind.kindName

def Datum.items? : Datum → Option (List Datum)
  | .str text => some (text.toList.map fun c => .str (String.singleton c))
  | .bytes bs => some (bs.map fun b => .int b.toNat)
  | .list items => some items
  | .tuple items => some items
  | .dict entries => some (entries.map (·.1))
  | _ => none

namespace Token

def unit : Token := .scalar .unit .null

def bool (b : Bool) : Token := .scalar .bool (.bool b)

def number (kind : Primitive) (n : Int) : Token := .scalar kind (.int n)

def b256 (bs : Bytes) : Token := .scalar .b256 (.bytes bs)

def isByValue : Token → Bool
  | scalar .b256 _ => false
  | scalar _ _ => true
  | _ => false

mutual

def same : Token → Token → Bool
  | scalar k v, scalar l w => k == l && v.same w
  | string s m, string t n => s == t && m == n
  | sequence k vs, sequence l ws => k == l && sameItems vs ws
  | enum d v vs, enum e w ws => d == e && same v w && vs.same ws
  | misfit k v, misfit l w => k == l && v.same w
  | foreign v, foreign w => v.same w
  | _, _ => false

def sameItems : List Token → List Token → Bool
  | [], [] => true
  | v :: vs, w :: ws => same v w && sameItems vs ws
  | _, _ => false

end

def checkedText (text : String) (expected : Int) : Except Fault String :=
  if text.toList.all (·.toNat < 0x80) then
    if (text.length : Int) = expected then .ok text
    else .error (.invalidData (.stringLength text.length expected))
  else .error (.invalidData .notAscii)

def children : Token → Except Fault (List Token)
  | sequence _ items => .ok items
  | misfit (.sequence _) payload =>
    match payload.items? with
    | some items => .ok (items.map foreign)
    | none => .error (.misuse .wrongKind)
  | foreign _ => .error (.misuse .missingMember)
  | scalar kind _ => .error (.invalidData (.noElements kind.kindName))
  | string _ _ => .error (.invalidData (.noElements "String"))
  | enum _ _ _ => .error (.invalidData (.noElements "Enum"))
  | misfit kind _ => .error (.invalidData (.noElements kind.kindName))

def selector : Token → Except Fault (Int × Token × EnumVariants)
  | enum discriminant payload variants => .ok (discriminant, payload, variants)
  | misfit .enum _ => .error (.misuse .missingMember)
  | foreign _ => .error (.misuse .missingMember)
  | scalar kind _ => .error (.invalidData (.notEnum kind.kindName))
  | string _ _ => .error (.invalidData (.notEnum "String"))
  | sequence kind _ => .error (.invalidData (.notEnum kind.kindName))
  | misfit kind _ => .error (.invalidData (.notEnum kind.kindName))

end Token

namespace EnumVariants

def make (types : List ParamType) (names : List String) : Except Fault EnumVariants :=
  if types.isEmpty then .error (.invalidType .noVariants)
  else if names ≠ [] ∧ names.length ≠ types.length then
    .error (.invalidType (.variantNames types.length names.length))
  else .ok ⟨types, names⟩

def typeOf (vs : EnumVariants) (discriminant : Int) : Except Fault ParamType :=
  match vs.type? discriminant with
  | some t => .ok t
  | none => .error (.invalidData (.noVariantAt discriminant vs.types.length none))

def payloadSize (vs : EnumVariants) : Except Fault Int :=
  if ParamType.allHaveSize vs.types then .ok vs.payloadWidth else .error (.misuse .notDefined)

end EnumVariants

end WordAbi
