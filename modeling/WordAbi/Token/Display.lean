import WordAbi.Token.Basic
/-! Two texts of a token: the short one that logs show, and the full one that stands within messages
and tells every part of the token and of the types in it. -/
namespace WordAbi

namespace ParamType

def textsTuple (texts : List String) : String := Native.tupleText (texts.map Text.quoted)

def primitiveText : Primitive → String
  | .unit => "UnitType()"
  | .bool => "BoolType()"
  | .u8 => "U8Type()"
  | .u16 => "U16Type()"
  | .u32 => "U32Type()"
  | .u64 => "U64Type()"
  | .byte => "ByteType()"
  | .b256 => "B256Type()"

mutual

def fullText : ParamType → String
  | primitive p => primitiveText p
  | string length => "StringType(length=" ++ Decimal.text length ++ ")"
  | array element length =>
    "ArrayType(element=" ++ fullText element ++ ", length=" ++ Decimal.text length ++ ")"
  | vector element => "VectorType(element=" ++ fullText element ++ ")"
  | tuple elements => "TupleType(elements=" ++ Native.tupleText (fullTexts elements) ++ ")"
  | struct fields generics name fieldNames =>
    "StructType(fields=" ++ Native.tupleText (fullTexts fields) ++ ", generics="
      ++ Native.tupleText (fullTexts generics) ++ ", name=" ++ Text.quoted name
      ++ ", field_names=" ++ textsTuple fieldNames ++ ")"
  | enum variants generics name variantNames =>
    "EnumType(variants=EnumVariants(types=" ++ Native.tupleText (fullTexts variants) ++ ", names="
      ++ textsTuple variantNames ++ "), generics=" ++ Native.tupleText (fullTexts generics)
      ++ ", name=" ++ Text.quoted name ++ ")"
  | unspecified => "ParamType()"

def fullTexts : List ParamType → List String
  | [] => []
  | t :: ts => fullText t :: fullTexts ts

end

end ParamType

namespace Token

def hexText : Datum → Except Fault String
  | .bytes bs => .ok (Hex.encode bs)
  | .float x => .ok (Shortest.hexText x)
  | _ => .error (.misuse .missingMember)

mutual

def display : Token → Except Fault String
  | scalar .unit _ => .ok "Unit"
  | scalar .b256 payload => (hexText payload).map fun hex => s!"B256(0x{hex})"
  | scalar kind payload => .ok (kind.kindName ++ "(" ++ payload.display ++ ")")
  | string text _ => .ok ("String(" ++ Text.quoted text ++ ")")
  | sequence kind items =>
    (displayItems items).map fun texts => kind.kindName ++ "([" ++ ", ".intercalate texts ++ "])"
  | enum discriminant payload _ =>
    (display payload).map fun text => "Enum(" ++ Decimal.text discriminant ++ ", " ++ text ++ ")"
  | misfit (.sequence kind) payload =>
    match payload.items? with
    | some items =>
      .ok (kind.kindName ++ "([" ++ ", ".intercalate (items.map Datum.display) ++ "])")
    | none => .error (.misuse .wrongKind)
  | misfit _ _ => .error (.misuse .missingMember)
  | foreign value => .ok value.display

def displayItems : List Token → Except Fault (List String)
  | [] => .ok []
  | t :: ts => do
    let text ← display t
    let texts ← displayItems ts
    .ok (text :: texts)

end

def kindMark (name : String) : String :=
  "<TokenKind." ++ name.map Char.toUpper ++ ": " ++ Text.quoted name ++ ">"

def fullForm (kind value : String) : String :=
  "Token(kind=" ++ kindMark kind ++ ", value=" ++ value ++ ")"

mutual

def fullText : Token → String
  | scalar kind payload => fullForm kind.kindName payload.repr
  | string text expected =>
    fullForm "String" ("StringToken(data=" ++ Text.quoted text ++ ", expected_len="
      ++ Decimal.text expected ++ ")")
  | sequence kind items => fullForm kind.kindName (Native.tupleText (fullTexts items))
  | enum discriminant payload variants =>
    fullForm "Enum" ("EnumSelector(discriminant=" ++ Decimal.text discriminant ++ ", token="
      ++ fullText payload ++ ", variants=EnumVariants(types="
      ++ Native.tupleText (ParamType.fullTexts variants.types) ++ ", names="
      ++ ParamType.textsTuple variants.names ++ "))")
  | misfit kind payload => fullForm kind.kindName payload.repr
  | foreign value => value.repr

def fullTexts : List Token → List String
  | [] => []
  | t :: ts => fullText t :: fullTexts ts

end

end Token

end WordAbi
