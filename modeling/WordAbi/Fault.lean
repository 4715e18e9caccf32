import WordAbi.Native.Display
import WordAbi.ParamType.Basic
/-! What can go wrong, by cause: a schema that gives no type, a value that does not fit its type,
a construct that the codec has no layout for, a broken promise of the compiler, and a value used as
what it is not. Each cause has one message and one context. -/
namespace WordAbi

inductive TypeFault where
  | noVariants
  | variantNames (types names : Nat)
  | strangeCharacter (source : String) (c : Char) (position : Nat)
  | unexpectedEnd (source : String)
  | expectedText (source expected : String) (position : Nat) (found : String)
  | expectedKind (source kind : String) (position : Nat) (found : String)
  | unexpectedLexeme (source found : String) (position : Nat)
  | trailing (source found : String) (position : Nat)
  | blank (shown : String)
  | unknownKeyword (source word : String)
  | arrayComponents (source : String) (count : Nat)
  | tupleComponents (source : String) (elements components : Nat)
  | noComponents (source : String)
  | recursive (source : String)
  | argumentCount (source : String) (parameters arguments : Nat) (id : Option Int)
  | unboundName (source name : String)
  | unboundId (source : String) (id : Int)
  | unknownId (id : Int)
  | otherForm (expected : String) (found : Datum)
  | schemaMismatch (first : String) (rest : List String)
  | notJson (reason : String)
  | unknownFunction (name : String) (known : List String)

inductive DataFault where
  | wordRange (value : Int)
  | noVariantAt (discriminant : Int) (count : Nat) (place : Option (ParamType × Int))
  | noVariantNamed (shown : String)
  | notAscii
  | stringLength (length : Nat) (expected : Int)
  | noElements (kind : String)
  | notEnum (kind : String)
  | notToken (kind : String)
  | boolToken (shown : String)
  | intToken (kind shown : String)
  | outOfRange (kind : String) (width : Nat) (value : Int)
  | b256Token
  | variantWidth (discriminant : Int) (type : ParamType) (width : Nat)
  | negativeAddress
  | payloadLimit (length limit : Nat)
  | shortBuffer (type : ParamType) (needed offset : Int) (length : Nat)
  | zeroWidthElements (type : ParamType) (offset count : Int) (limit : Nat)
  | noDecoding
  | boolWord (word : Bytes) (offset : Int)
  | stringBytes (type : ParamType) (offset : Int)
  | vectorOutside (element : ParamType) (offset : Int) (pointer length : Nat)
  | hexText (shown : String)
  | sequenceExpected (type : ParamType) (kind : String)
  | elementCount (type : ParamType) (expected : Int) (found : Nat)
  | noFieldNames (type : ParamType)
  | fieldMismatch (type : ParamType) (missing unexpected : String)
  | oneVariantExpected (type : ParamType) (shown : String)
  | unitExpected (shown : String)
  | boolExpected (shown : String)
  | intExpected (type : Primitive) (shown : String)
  | b256Expected
  | textExpected (type : ParamType) (kind : String)
  | noTokenization
  | argumentCount (expected found : Nat)
  | contractLength (length : Nat)
  | selectorLength (length : Nat)
  | receiptExpected (kind : String)
  | malformedReceipt (kind reason : String) (receipt : Datum)
  | unknownReceipt (shown : String)
  | noConfigurable (name : String) (known : List String)
  | overrideEnd (offset : Int) (length size : Nat)
  | notHex (text : String)
  | notJson (subject reason : String)
  | notArray (subject : String)

inductive UnsupportedFault where
  | tokenDepth (limit : Int) (depth : Nat)
  | typeDepth (limit : Int) (type : ParamType) (depth : Nat)
  | resolutionDepth (limit : Int) (source : String)
  | keyword (source : String)
  | noSignature
  | vectorConfigurable (name : String) (type : ParamType)

inductive InvariantFault where
  | arrayElement (source : String)
  | tupleComponents (source : String)

/-- A value used as what it is not: no codec fault, since no type is to blame. -/
inductive Misuse where
  | wrongKind
  | badValue
  | missingKey
  | missingMember
  | missingFile
  | notDefined
  | tooLarge
  deriving DecidableEq

inductive Fault where
  | invalidType (cause : TypeFault)
  | invalidData (cause : DataFault)
  | unsupported (cause : UnsupportedFault)
  | invariant (cause : InvariantFault)
  | misuse (cause : Misuse)

abbrev Context := List (String × Datum)

def textList (texts : List String) : Datum := .list (texts.map .str)

def TypeFault.message : TypeFault → String
  | noVariants => "enum must have at least one variant"
  | variantNames types names => s!"enum has {types} variants but {names} names"
  | strangeCharacter source c position =>
    s!"Invalid type `{source}`: unexpected character " ++ Text.quoted (String.singleton c)
      ++ s!" at position {position}"
  | unexpectedEnd source => s!"Invalid type `{source}`: unexpected end of input"
  | expectedText source expected position found =>
    s!"Invalid type `{source}`: expected `{expected}` at position {position}, found `{found}`"
  | expectedKind source kind position found =>
    s!"Invalid type `{source}`: expected {kind} at position {position}, found `{found}`"
  | unexpectedLexeme source found position =>
    s!"Invalid type `{source}`: unexpected `{found}` at position {position}"
  | trailing source found position =>
    s!"Invalid type `{source}`: trailing input `{found}` at position {position}"
  | blank shown => s!"Invalid type `{shown}`: empty type string"
  | unknownKeyword source word => s!"Invalid type `{source}`: unknown keyword `{word}`"
  | arrayComponents source count =>
    s!"Invalid type `{source}`: array needs exactly one component, got {count}"
  | tupleComponents source elements components =>
    s!"Invalid type `{source}`: tuple of {elements} elements has {components} components"
  | noComponents source => s!"cannot parse custom type with no components: `{source}`"
  | recursive source => s!"Type `{source}` is recursive"
  | argumentCount source parameters arguments _ =>
    s!"Type `{source}` expects {parameters} type arguments, got {arguments}"
  | unboundName source name => s!"Invalid type `{source}`: unbound generic parameter `{name}`"
  | unboundId source id =>
    s!"Invalid type `{source}`: unbound generic parameter (type id " ++ Decimal.text id ++ ")"
  | unknownId id => "Unknown type id " ++ Decimal.text id
  | otherForm expected found =>
    s!"Expected parameter type `{expected}`, found `" ++ found.display ++ "`"
  | schemaMismatch first rest =>
    s!"program ABI does not match schema: {first}"
      ++ (if rest = [] then "" else s!" (+{rest.length} more)")
  | notJson reason => s!"program ABI is not valid JSON: {reason}"
  | unknownFunction name _ => "program ABI has no function " ++ Text.quoted name

def TypeFault.context : TypeFault → Context
  | recursive source => [("type", .str source)]
  | argumentCount _ _ _ (some id) => [("type_id", .int id)]
  | unknownId id => [("type_id", .int id)]
  | otherForm _ found => [("type", found)]
  | schemaMismatch first rest => [("errors", textList (first :: rest))]
  | unknownFunction _ known => [("known", textList known)]
  | _ => []

def DataFault.message : DataFault → String
  | wordRange value => "value " ++ Decimal.text value ++ " does not fit in a 8-byte word"
  | noVariantAt discriminant count _ =>
    "discriminant " ++ Decimal.text discriminant
      ++ s!" doesn't point to any variant (enum has {count})"
  | noVariantNamed shown => s!"enum has no variant named {shown}"
  | notAscii => "String data can only have ascii values"
  | stringLength length expected =>
    s!"String data has len {length}, but the expected len is " ++ Decimal.text expected
  | noElements kind => s!"{kind} token has no elements"
  | notEnum kind => s!"{kind} token is not an enum"
  | notToken kind => s!"expected a Token, got {kind}"
  | boolToken shown => s!"Bool token must hold a bool, got {shown}"
  | intToken kind shown => s!"{kind} token must hold an int, got {shown}"
  | outOfRange kind width value =>
    s!"{kind} value " ++ Decimal.text value ++ s!" out of range [0, {Bytes.capacity width - 1}]"
  | b256Token => "B256 token must hold exactly 32 bytes"
  | variantWidth discriminant type width =>
    "enum variant " ++ Decimal.text discriminant ++ s!" expects {type.typeName} ("
      ++ Decimal.text type.staticSize ++ s!" bytes), token encodes to {width} bytes"
  | negativeAddress => "start address must be non-negative"
  | payloadLimit length limit => s!"payload of {length} bytes exceeds limit {limit}"
  | shortBuffer type needed offset length =>
    s!"not enough bytes to decode {type.typeName}: need " ++ Decimal.text needed ++ " at offset "
      ++ Decimal.text offset ++ s!", buffer has {length}"
  | zeroWidthElements type _ count limit =>
    s!"{type.typeName} holds " ++ Decimal.text count
      ++ s!" zero-width elements, limit is {limit}"
  | noDecoding => "cannot decode ParamType()"
  | boolWord word _ => s!"bool word must be 0 or 1, got 0x{Hex.encode word}"
  | stringBytes type _ => s!"{type.typeName} data is not ascii"
  | vectorOutside element _ pointer length =>
    s!"vector data at address {pointer} ({length} x {element.typeName}) lies outside the buffer"
  | hexText shown => s!"invalid hex string {shown}"
  | sequenceExpected type kind => s!"{type.typeName} expects a sequence, got {kind}"
  | elementCount type expected found =>
    s!"{type.typeName} expects " ++ Decimal.text expected ++ s!" elements, got {found}"
  | noFieldNames type => s!"{type.typeName} has no field names; pass its fields positionally"
  | fieldMismatch type missing unexpected =>
    s!"{type.typeName} fields mismatch: missing={missing} unexpected={unexpected}"
  | oneVariantExpected type shown => s!"{type.typeName} expects exactly one variant, got {shown}"
  | unitExpected shown => s!"() expects None, got {shown}"
  | boolExpected shown => s!"bool expects True/False, got {shown}"
  | intExpected type shown => s!"{type.keyword} expects an int, got {shown}"
  | b256Expected => "b256 expects 32 bytes"
  | textExpected type kind => s!"{type.typeName} expects a str, got {kind}"
  | noTokenization => "cannot tokenize a value for ParamType()"
  | argumentCount expected found => s!"expected {expected} arguments, got {found}"
  | contractLength length => s!"contract id must be 32 bytes, got {length}"
  | selectorLength length => s!"selector must be 8 bytes, got {length}"
  | receiptExpected kind => s!"receipt must be a JSON object, got {kind}"
  | malformedReceipt kind reason _ => s!"malformed {kind} receipt: {reason}"
  | unknownReceipt shown => s!"unknown receipt type {shown}"
  | noConfigurable name known =>
    "no configurable named " ++ Text.quoted name ++ "; known: " ++ (textList known).repr
  | overrideEnd offset length size =>
    "configurable at offset " ++ Decimal.text offset
      ++ s!" ({length} bytes) exceeds binary of {size} bytes"
  | notHex text => "not a hex string: " ++ Text.quoted text
  | notJson subject reason => s!"{subject} is not valid JSON: {reason}"
  | notArray subject => s!"{subject} must be a JSON array"

def place (type : ParamType) (offset : Int) : Context :=
  [("type", .str type.typeName), ("offset", .int offset)]

def DataFault.context : DataFault → Context
  | wordRange value => [("value", .int value)]
  | noVariantAt discriminant _ none => [("discriminant", .int discriminant)]
  | noVariantAt discriminant _ (some (type, offset)) =>
    ("discriminant", .int discriminant) :: place type offset
  | outOfRange kind _ value => [("kind", .str kind), ("value", .int value)]
  | variantWidth discriminant _ _ => [("discriminant", .int discriminant)]
  | payloadLimit length _ => [("len", .int length)]
  | shortBuffer type _ offset length => place type offset ++ [("len", .int length)]
  | zeroWidthElements type offset count _ => place type offset ++ [("length", .int count)]
  | boolWord _ offset => [("type", .str "bool"), ("offset", .int offset)]
  | stringBytes type offset => place type offset
  | vectorOutside element offset pointer length =>
    place (.vector element) offset ++ [("pointer", .int pointer), ("length", .int length)]
  | fieldMismatch type _ _ => [("type", .str type.typeName)]
  | malformedReceipt _ _ receipt => [("receipt", receipt)]
  | overrideEnd offset _ size => [("offset", .int offset), ("len", .int size)]
  | _ => []

def UnsupportedFault.message : UnsupportedFault → String
  | tokenDepth limit _ => "token nesting exceeds max depth " ++ Decimal.text limit
  | typeDepth limit _ _ => "type nesting exceeds max depth " ++ Decimal.text limit
  | resolutionDepth limit _ => "type nesting exceeds max depth " ++ Decimal.text limit
  | keyword source => s!"Type `{source}` is not supported"
  | noSignature => "no signature rendering for ParamType()"
  | vectorConfigurable name type =>
    "configurable " ++ Text.quoted name ++ s!" of type {type.typeName} contains a vector"

def UnsupportedFault.context : UnsupportedFault → Context
  | tokenDepth _ depth => [("depth", .int depth)]
  | typeDepth _ type depth => [("type", .str type.typeName), ("depth", .int depth)]
  | resolutionDepth _ source => [("type", .str source)]
  | keyword source => [("type", .str source)]
  | noSignature => []
  | vectorConfigurable _ _ => []

def InvariantFault.message : InvariantFault → String
  | arrayElement source => s!"array should have components: `{source}`"
  | tupleComponents source => s!"tuples should have components: `{source}`"

def DataFault.types : DataFault → List ParamType
  | variantWidth _ type _ => [type]
  | shortBuffer type _ _ _ => [type]
  | zeroWidthElements type _ _ _ => [type]
  | vectorOutside element _ _ _ => [element]
  | sequenceExpected type _ => [type]
  | elementCount type _ _ => [type]
  | _ => []

def UnsupportedFault.types : UnsupportedFault → List ParamType
  | typeDepth _ type _ => [type]
  | vectorConfigurable _ type => [type]
  | _ => []

namespace Fault

inductive Code where
  | general
  | invalidType
  | invalidData
  | unsupported
  deriving DecidableEq

def Code.text : Code → String
  | general => "codec_error"
  | invalidType => "invalid_type"
  | invalidData => "invalid_data"
  | unsupported => "unsupported"

def Code.name : Code → String
  | general => "CodecError"
  | invalidType => "InvalidType"
  | invalidData => "InvalidData"
  | unsupported => "Unsupported"

inductive Report where
  | codec (code : Code) (message : String) (context : Context)
  | invariant (message : String)
  | misuse (cause : Misuse)

/-- A fault that would show the name of a type that has none turns into a misuse of that type. -/
def report : Fault → Report
  | invalidType cause => .codec .invalidType cause.message cause.context
  | invalidData cause =>
    if cause.types.all (·.hasName) then .codec .invalidData cause.message cause.context
    else .misuse .notDefined
  | unsupported cause =>
    if cause.types.all (·.hasName) then .codec .unsupported cause.message cause.context
    else .misuse .notDefined
  | invariant cause => .invariant cause.message
  | misuse cause => .misuse cause

end Fault

def ParamType.size (t : ParamType) : Except Fault Int :=
  if t.hasSize then .ok t.staticSize else .error (.misuse .notDefined)

theorem ParamType.sizeOfHasSize {t : ParamType} (h : t.hasSize = true) : t.size = .ok t.staticSize := by
  simp [ParamType.size, h]

end WordAbi
