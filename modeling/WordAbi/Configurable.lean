import WordAbi.Table
import WordAbi.Text.Quoted
import WordAbi.Token.Encoding
import WordAbi.Token.Native
/-! Configurable constants of a binary: each has a type and an offset, and the bytes of a value put
in its place are written over the binary there. -/
namespace WordAbi

structure Slot where
  name : String
  type : ParamType
  offset : Int

structure Configurables where
  slots : Table String Slot
  overrides : List (Int × Bytes)

namespace Configurables

def ofSlots (slots : List Slot) : Configurables :=
  ⟨Table.ofList (slots.map fun slot => (slot.name, slot)), []⟩

def names (c : Configurables) : List String := c.slots.keys

def slot (c : Configurables) (name : String) : Except Fault Slot :=
  match c.slots.get? name with
  | some slot => .ok slot
  | none => .error (.invalidData (.noConfigurable name (Text.sorted c.names)))

def slotBytes (limit : Int) (slot : Slot) (value : Written) : Except Fault Bytes :=
  if slot.type.usesVectors then .error (.unsupported (.vectorConfigurable slot.name slot.type))
  else do
    let token ← Token.ofWritten slot.type value
    let chunks ← Token.encode limit [token]
    Chunk.resolve chunks 0

def withValue (limit : Int) (c : Configurables) (name : String) (value : Written) :
    Except Fault Configurables := do
  let slot ← c.slot name
  let bytes ← slotBytes limit slot value
  .ok { c with overrides := c.overrides ++ [(slot.offset, bytes)] }

def splice (binary : Bytes) (start stop : Int) (bytes : Bytes) : Bytes :=
  let first := Bytes.index binary.length start
  let last := max first (Bytes.index binary.length stop)
  binary.take first ++ bytes ++ binary.drop last

def write (binary : Bytes) (offset : Int) (bytes : Bytes) : Except Fault Bytes :=
  if (binary.length : Int) < offset + bytes.length then
    .error (.invalidData (.overrideEnd offset bytes.length binary.length))
  else .ok (splice binary offset (offset + bytes.length) bytes)

def apply (c : Configurables) (binary : Bytes) : Except Fault Bytes :=
  c.overrides.foldlM (fun binary override => write binary override.1 override.2) binary

end Configurables

end WordAbi
