import RevForest.Body
import RevForest.Json.Record
import RevForest.Keys.Error
import RevForest.Text.Hex
/-!
A wrapped data-protection key with the parameters of its derivation. It is stored as a JSON object
whose byte fields are hexadecimal.
-/
namespace RevForest

structure KeyData where
  encryptedKey : List UInt8
  salt : List UInt8
  iv : List UInt8
  iterations : Nat
  version : String
  deriving DecidableEq, Repr

namespace KeyData

def ivLength : Nat := 16

def fault? (k : KeyData) : Option String :=
  if k.encryptedKey.isEmpty then some "encrypted key is empty"
  else if k.salt.isEmpty then some "salt is empty"
  else if k.iv.length ≠ ivLength then some s!"iv must be {ivLength} bytes, got {k.iv.length}"
  else if k.iterations = 0 then some "iterations must be > 0"
  else none

def Valid (k : KeyData) : Prop := k.fault? = none ∧ k.iterations < word32

def make (encryptedKey salt iv : List UInt8) (iterations : Nat) (version : String) :
    Except KeyError KeyData :=
  let k : KeyData := { encryptedKey, salt, iv, iterations, version }
  match k.fault? with
  | some reason => .error (.invalidKeyData reason)
  | none => .ok k

def json (k : KeyData) : Json :=
  .object [("dpk", .text (Hex.encode k.encryptedKey)), ("salt", .text (Hex.encode k.salt)),
    ("iv", .text (Hex.encode k.iv)), ("iterations", .int k.iterations),
    ("version", .text k.version)]

def fieldNames : List String := ["dpk", "salt", "iv", "iterations", "version"]

structure Stored where
  dpk : String
  salt : String
  iv : String
  iterations : Nat
  version : String

def Stored.ofWire? (w : Wire) : Option Stored := do
  match ← w.fields? fieldNames with
  | [dpk, salt, iv, iterations, version] => do
    let dpk ← required dpk Wire.asString?
    let salt ← required salt Wire.asString?
    let iv ← required iv Wire.asString?
    let iterations ← required iterations (Wire.asNat? word32)
    let version ← required version Wire.asString?
    some { dpk, salt, iv, iterations, version }
  | _ => none

def decodeField (key field value : String) : Except KeyError (List UInt8) :=
  match Hex.decode value with
  | .ok bytes => .ok bytes
  | .error f => .error (.corrupt key (field ++ ": " ++ f.message))

def ofText (key content : String) : Except KeyError KeyData :=
  match (Wire.ofString? content).bind Stored.ofWire? with
  | none => .error (.corrupt key Json.unreadable)
  | some stored => do
    let encryptedKey ← decodeField key "dpk" stored.dpk
    let salt ← decodeField key "salt" stored.salt
    let iv ← decodeField key "iv" stored.iv
    match make encryptedKey salt iv stored.iterations stored.version with
    | .ok k => .ok k
    | .error e => .error (.corrupt key e.message)

/-- Shows no secret. -/
def inspect (k : KeyData) : String :=
  "KeyData \x7b iterations: " ++ toString k.iterations ++ ", version: " ++ Quoted.text k.version ++
    ", .. \x7d"

end KeyData
end RevForest
