import WordAbi.Json.Lexeme
/-! Reading JSON text, with the place of the first problem in text that is none. The reader goes
through the lexemes once and keeps the arrays and objects that are still open on a stack. -/
namespace WordAbi.Json

inductive Frame where
  | array (items : List Json)
  | object (members : List (String × Json)) (name : String)

inductive State where
  | value
  | firstItem
  | firstName
  | name (members : List (String × Json))
  | colon (members : List (String × Json)) (name : String)
  | complete (value : Json)

def takeValue (stack : List Frame) (p : Placed) : Except Problem (List Frame × State) :=
  match p.lexeme with
  | .openArray => .ok (stack, .firstItem)
  | .openObject => .ok (stack, .firstName)
  | .text s => .ok (stack, .complete (.str s))
  | .scalar v => .ok (stack, .complete v)
  | .bad problem => .error problem
  | _ => .error ⟨.valueExpected, p.position⟩

def takeName (stack : List Frame) (members : List (String × Json)) (p : Placed) :
    Except Problem (List Frame × State) :=
  match p.lexeme with
  | .text s => .ok (stack, .colon members s)
  | .bad problem =>
    .error (if problem.cause = .valueExpected then ⟨.nameExpected, p.position⟩ else problem)
  | _ => .error ⟨.nameExpected, p.position⟩

def advance (stack : List Frame) (state : State) (p : Placed) : Except Problem (List Frame × State) :=
  match state with
  | .value => takeValue stack p
  | .firstItem =>
    match p.lexeme with
    | .closeArray => .ok (stack, .complete (.arr []))
    | _ => takeValue (.array [] :: stack) p
  | .firstName =>
    match p.lexeme with
    | .closeObject => .ok (stack, .complete (.obj []))
    | _ => takeName stack [] p
  | .name members => takeName stack members p
  | .colon members name =>
    match p.lexeme with
    | .colon => .ok (.object members name :: stack, .value)
    | _ => .error ⟨.colonExpected, p.position⟩
  | .complete value =>
    match stack with
    | [] => .error ⟨.extra, p.position⟩
    | .array items :: stack =>
      match p.lexeme with
      | .comma => .ok (.array (value :: items) :: stack, .value)
      | .closeArray => .ok (stack, .complete (.arr (value :: items).reverse))
      | _ => .error ⟨.commaExpected, p.position⟩
    | .object members name :: stack =>
      match p.lexeme with
      | .comma => .ok (stack, .name (Table.insert members name value))
      | .closeObject => .ok (stack, .complete (.obj (Table.insert members name value)))
      | _ => .error ⟨.commaExpected, p.position⟩

def run (stack : List Frame) (state : State) : List Placed → Except Problem Json
  | [] => .error ⟨.valueExpected, 0⟩
  | p :: rest =>
    match p.lexeme, stack, state with
    | .finish, [], .complete value => .ok value
    | _, _, _ => do
      let (stack, state) ← advance stack state p
      run stack state rest

/-- The value that a text stands for. A name that comes twice keeps its first place and its last
value. -/
def readChars (cs : List Char) : Except Problem Json :=
  match cs with
  | '\ufeff' :: _ => .error ⟨.byteOrderMark, 0⟩
  | cs => run [] .value (lexemes 0 cs)

def read (text : String) : Except String Json :=
  match readChars text.toList with
  | .ok value => .ok value
  | .error problem => .error (problem.describe text.toList)

end WordAbi.Json
