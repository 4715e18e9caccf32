import WordAbi.Native.Order
import WordAbi.Number.Literal
import WordAbi.Token.Display
/-! Tokens of written values, by type, and the written values of tokens. A value may be written in
several ways: a struct by names or in order, an enum by name or by index, bytes in hexadecimal. -/
namespace WordAbi

abbrev Written := Native Token

namespace Written

def repr (v : Written) : String := Native.repr Token.fullText v

def kindName (v : Written) : String := Native.kindName (fun _ => "Token") v

def same (v w : Written) : Bool := Native.same Token.same v w

def reprList (vs : List Written) : String := repr (.list vs)

end Written

namespace Literal

def ofBytes? (bs : Bytes) : Option Int :=
  if bs.all (· < 0x80) then decimal? (bs.map fun b => Char.ofNat b.toNat) else none

end Literal

def Native.toWhole {ε : Type} (v : Native ε) : Except Misuse Int :=
  match v with
  | .bool b => .ok (if b then 1 else 0)
  | .int n => .ok n
  | .float x =>
    match x.truncate?, x with
    | some n, _ => .ok n
    | none, .nan => .error .badValue
    | none, _ => .error .tooLarge
  | .str text =>
    match Literal.decimal? text.toList with
    | some n => .ok n
    | none => .error .badValue
  | .bytes bs =>
    match Literal.ofBytes? bs with
    | some n => .ok n
    | none => .error .badValue
  | _ => .error .wrongKind

namespace Token

def bytesOf (value : Written) : Except Fault Bytes :=
  match value with
  | .str text =>
    match Hex.decodeChars (Hex.withoutMark text.toList) with
    | .ok bs => check bs
    | .error _ => .error (.invalidData (.hexText (Text.quoted text)))
  | .bytes bs => check bs
  | _ => .error (.invalidData .b256Expected)
where
  check (bs : Bytes) : Except Fault Bytes :=
    if bs.length = 32 then .ok bs else .error (.invalidData .b256Expected)

def ofPrimitive (p : Primitive) (value : Written) : Except Fault Token :=
  match p with
  | .unit =>
    match value with
    | .null => .ok .unit
    | .tuple [] => .ok .unit
    | v => .error (.invalidData (.unitExpected v.repr))
  | .bool =>
    match value with
    | .bool b => .ok (.bool b)
    | v => .error (.invalidData (.boolExpected v.repr))
  | .b256 => (bytesOf value).map .b256
  | p =>
    match value with
    | .int n => .ok (.number p n)
    | v => .error (.invalidData (.intExpected p v.repr))

def itemsOf (type : ParamType) (value : Written) : Except Fault (List Written) :=
  match value with
  | .list items => .ok items
  | .tuple items => .ok items
  | v => .error (.invalidData (.sequenceExpected type v.kindName))

def itemsOfLength (type : ParamType) (length : Int) (value : Written) :
    Except Fault (List Written) := do
  let items ← itemsOf type value
  if (items.length : Int) = length then .ok items
  else .error (.invalidData (.elementCount type length items.length))

def fieldValues (type : ParamType) (count : Nat) (names : List String) (value : Written) :
    Except Fault (List Written) :=
  match value with
  | .dict entries =>
    if names.isEmpty then .error (.invalidData (.noFieldNames type))
    else
      let find (name : String) := Native.lookup Token.same (.str name) entries
      let missing := names.filter fun name => (find name).isNone
      let unexpected := (entries.map (·.1)).filter fun key => !names.any fun name => Written.same key (.str name)
      if missing.isEmpty && unexpected.isEmpty then .ok (names.filterMap find)
      else .error (.invalidData (.fieldMismatch type (textList missing).repr (Written.reprList unexpected)))
  | value => itemsOfLength type count value

def variantNamed (names : List String) (key : Written) : Except Fault Int :=
  match names.findIdx? fun name => Written.same (.str name) key with
  | some index => .ok index
  | none => .error (.invalidData (.noVariantNamed key.repr))

def variantOf (type : ParamType) (names : List String) (value : Written) :
    Except Fault (Int × Written) :=
  match value with
  | .str name => do
    let index ← variantNamed names (.str name)
    .ok (index, .null)
  | .dict [(key, payload)] => do
    let index ← variantNamed names key
    .ok (index, payload)
  | .dict entries =>
    match Native.sort? Token.same (entries.map (·.1)) with
    | some keys => .error (.invalidData (.oneVariantExpected type (Written.reprList keys)))
    | none => .error (.misuse .wrongKind)
  | value => do
    let items ← itemsOfLength type 2 value
    let head := items.getD 0 .null
    let payload := items.getD 1 .null
    match head with
    | .str name => do
      let index ← variantNamed names (.str name)
      .ok (index, payload)
    | head =>
      match head.toWhole with
      | .ok index => .ok (index, payload)
      | .error cause => .error (.misuse cause)

def named (names : List String) (values : List Datum) : Datum :=
  if names.isEmpty then .list values
  else Native.ofEntries (fun e _ => e.elim) ((names.map .str).zip values)

def elementOf : Option ParamType → Option ParamType
  | some (.array element _) => some element
  | some (.vector element) => some element
  | _ => none

def unlessToken (value : Written) (read : Written → Except Fault Token) : Except Fault Token :=
  match value with
  | .embedded token => .ok token
  | value => read value

mutual

def ofWritten : (type : ParamType) → (value : Written) → Except Fault Token
  | .primitive p, value => unlessToken value fun value => ofPrimitive p value
  | .string length, value => unlessToken value fun value =>
    match value with
    | .str text => .ok (.string text length)
    | v => .error (.invalidData (.textExpected (.string length) v.kindName))
  | .array element length, value => unlessToken value fun value => do
    let items ← itemsOfLength (.array element length) length value
    let tokens ← items.mapM fun item => ofWritten element item
    .ok (.sequence .array tokens)
  | .vector element, value => unlessToken value fun value => do
    let items ← itemsOf (.vector element) value
    let tokens ← items.mapM fun item => ofWritten element item
    .ok (.sequence .vector tokens)
  | .tuple elements, value => unlessToken value fun value => do
    let items ← itemsOfLength (.tuple elements) elements.length value
    let tokens ← ofWrittens elements items
    .ok (.sequence .tuple tokens)
  | .struct fields generics name fieldNames, value => unlessToken value fun value => do
    let items ← fieldValues (.struct fields generics name fieldNames) fields.length fieldNames value
    let tokens ← ofWrittens fields items
    .ok (.sequence .struct tokens)
  | .enum variants generics name variantNames, value => unlessToken value fun value => do
    let (discriminant, payload) ← variantOf (.enum variants generics name variantNames) variantNames value
    match ← ofVariant variants discriminant payload with
    | some token => .ok (.enum discriminant token ⟨variants, variantNames⟩)
    | none => .error (.invalidData (.noVariantAt discriminant variants.length none))
  | .unspecified, value => unlessToken value fun _ => .error (.invalidData .noTokenization)

def ofWrittens : List ParamType → List Written → Except Fault (List Token)
  | type :: types, value :: values => do
    let token ← ofWritten type value
    let tokens ← ofWrittens types values
    .ok (token :: tokens)
  | _, _ => .ok []

def ofVariant : List ParamType → (index : Int) → (payload : Written) → Except Fault (Option Token)
  | [], _, _ => .ok none
  | type :: types, index, payload =>
    if index = 0 then (ofWritten type payload).map some
    else ofVariant types (index - 1) payload

end

def ofArguments (types : List ParamType) (values : List Written) : Except Fault (List Token) :=
  if values.length = types.length then ofWrittens types values
  else .error (.invalidData (.argumentCount types.length values.length))

mutual

/-- The value that a token stands for. A type adds the names of fields, the variants of an enum
token those of its variants. -/
def toDatum (type : Option ParamType) : Token → Except Fault Datum
  | scalar .unit _ => .ok .null
  | scalar _ payload => .ok payload
  | string text expected => (checkedText text expected).map .str
  | enum discriminant payload variants => do
    let inner ← variants.typeOf discriminant
    let value ← toDatum (some inner) payload
    match variants.name? discriminant with
    | some name => .ok (.dict [(.str name, value)])
    | none => .ok (.tuple [.int discriminant, value])
  | sequence .struct items =>
    match type with
    | some (.struct fields _ _ names) => (toDataZip (fields.map some) items).map (named names)
    | _ => (toDataEach none items).map .list
  | sequence .tuple items =>
    match type with
    | some (.tuple elements) => (toDataZip (elements.map some) items).map .tuple
    | _ => (toDataEach none items).map .tuple
  | sequence _ items => (toDataEach (elementOf type) items).map .list
  | misfit (.sequence kind) payload =>
    match payload.items? with
    | none => .error (.misuse .wrongKind)
    | some items =>
      match kind, type with
      | .struct, some (.struct fields _ _ names) =>
        if fields.isEmpty || items.isEmpty then .ok (named names [])
        else .error (.misuse .missingMember)
      | .tuple, some (.tuple elements) =>
        if elements.isEmpty || items.isEmpty then .ok (.tuple [])
        else .error (.misuse .missingMember)
      | kind, _ =>
        if items.isEmpty then .ok (if kind = .tuple then .tuple [] else .list [])
        else .error (.misuse .missingMember)
  | misfit _ _ => .error (.misuse .missingMember)
  | foreign _ => .error (.misuse .missingMember)

def toDataEach (type : Option ParamType) : List Token → Except Fault (List Datum)
  | [] => .ok []
  | token :: tokens => do
    let value ← toDatum type token
    let values ← toDataEach type tokens
    .ok (value :: values)

def toDataZip : List (Option ParamType) → List Token → Except Fault (List Datum)
  | type :: types, token :: tokens => do
    let value ← toDatum type token
    let values ← toDataZip types tokens
    .ok (value :: values)
  | _, _ => .ok []

end

end Token

end WordAbi
