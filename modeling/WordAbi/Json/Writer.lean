import WordAbi.Json.Basic
import WordAbi.Number.Literal
import WordAbi.Number.Shortest
import WordAbi.Text.Quoted
/-! Writing JSON text in ASCII: on one line without spaces, or with one item on a line. -/
namespace WordAbi.Json

def unitEscape (n : Nat) : List Char :=
  if n < 0x10000 then '\\' :: 'u' :: Text.hexDigits 4 n
  else
    let m := n - 0x10000
    '\\' :: 'u' :: Text.hexDigits 4 (0xD800 + m / 0x400)
      ++ '\\' :: 'u' :: Text.hexDigits 4 (0xDC00 + m % 0x400)

def writeChar (c : Char) : List Char :=
  if c = '"' then ['\\', '"']
  else if c = '\\' then ['\\', '\\']
  else if c = '\n' then ['\\', 'n']
  else if c = '\r' then ['\\', 'r']
  else if c = '\t' then ['\\', 't']
  else if c.toNat = 8 then ['\\', 'b']
  else if c.toNat = 12 then ['\\', 'f']
  else if 0x20 ≤ c.toNat ∧ c.toNat < 0x7F then [c]
  else unitEscape c.toNat

def writeText (text : String) : String :=
  String.ofList ('"' :: text.toList.flatMap writeChar ++ ['"'])

def numberStyle : Shortest.Style := { Shortest.plain with infinity := "Infinity", notANumber := "NaN" }

mutual

def compact : Json → String
  | null => "null"
  | bool b => if b then "true" else "false"
  | int n => Decimal.text n
  | float x => numberStyle.write x
  | str text => writeText text
  | arr items => "[" ++ ",".intercalate (compactItems items) ++ "]"
  | obj members => "\x7b" ++ ",".intercalate (compactMembers members) ++ "\x7d"

def compactItems : List Json → List String
  | [] => []
  | v :: vs => compact v :: compactItems vs

def compactMembers : List (String × Json) → List String
  | [] => []
  | (name, v) :: rest => (writeText name ++ ":" ++ compact v) :: compactMembers rest

end

def newLine (depth : Nat) : String := "\n" ++ String.ofList (List.replicate (2 * depth) ' ')

def block (opening closing : String) (depth : Nat) (items : List String) : String :=
  match items with
  | [] => opening ++ closing
  | items =>
    opening ++ newLine (depth + 1) ++ ("," ++ newLine (depth + 1)).intercalate items
      ++ newLine depth ++ closing

mutual

def indented (depth : Nat) : Json → String
  | null => "null"
  | bool b => if b then "true" else "false"
  | int n => Decimal.text n
  | float x => numberStyle.write x
  | str text => writeText text
  | arr items => block "[" "]" depth (indentedItems (depth + 1) items)
  | obj members => block "\x7b" "\x7d" depth (indentedMembers (depth + 1) members)

def indentedItems (depth : Nat) : List Json → List String
  | [] => []
  | v :: vs => indented depth v :: indentedItems depth vs

def indentedMembers (depth : Nat) : List (String × Json) → List String
  | [] => []
  | (name, v) :: rest => (writeText name ++ ": " ++ indented depth v) :: indentedMembers depth rest

end

end WordAbi.Json
