import WordAbi.Number.Literal
import WordAbi.Text.Character
/-! What the environment sets: the version of the codec, which changes with selectors and layouts, and its limits.
Main statement: the limits are always within their bounds. -/
namespace WordAbi

abbrev Environment := String → Option String

namespace Version

def base : String := "0.1.0"

def ofEnvironment (environment : Environment) : String :=
  match environment "VM_ABI_VERSION" with
  | some text => if text.isEmpty then base else text
  | none => base

end Version

structure Settings where
  maxDepth : Nat
  /-- Bytes that a decoded buffer may have, and zero-width elements that a sequence may have. -/
  maxPayload : Nat
  strictBool : Bool
  deriving DecidableEq, Repr

namespace Settings

def default : Settings := ⟨64, 8388608, true⟩

def bounded (text : Option String) (standard low high : Nat) : Nat :=
  match text.bind fun t => Literal.marked? t.toList with
  | none => standard
  | some n => if n < low then low else if high < n then high else n.toNat

def affirmations : List String := ["1", "true", "t", "yes", "y", "on"]

def flag (text : Option String) (standard : Bool) : Bool :=
  match text with
  | none => standard
  | some t => affirmations.contains (String.ofList (Text.lower (Text.trim Text.isBlank t.toList)))

def ofEnvironment (environment : Environment) : Settings where
  maxDepth := bounded (environment "VM_ABI_MAX_DEPTH") default.maxDepth 4 512
  maxPayload := bounded (environment "VM_ABI_MAX_PAYLOAD_BYTES") default.maxPayload 1024 268435456
  strictBool := flag (environment "VM_ABI_STRICT_BOOL") default.strictBool

theorem boundedRange (text : Option String) {standard low high : Nat} (hl : low ≤ standard)
    (hh : standard ≤ high) :
    low ≤ bounded text standard low high ∧ bounded text standard low high ≤ high := by
  unfold bounded
  split
  · exact ⟨hl, hh⟩
  · split
    · omega
    · split <;> omega

end Settings

end WordAbi
