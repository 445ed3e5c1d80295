import Mathlib.Data.Nat.Digits.Defs
import Strata.Format

/-! File names as text, and the switch of `CURRENT`. `CURRENT` holds a line of
text, so the names the code builds are printed there and resolved again. -/
namespace Strata

open Library System

def ascii (text : List Char) : Bytes := text.map fun c => UInt8.ofNat c.toNat

/-- `%06llu` -/
def decimal (number : Nat) : Bytes :=
  let digits := (Nat.digits 10 number).reverse.map fun d => UInt8.ofNat (48 + d)
  List.replicate (6 - digits.length) 48 ++ digits

def manifestName (number : Nat) : Bytes :=
  ascii ['M', 'A', 'N', 'I', 'F', 'E', 'S', 'T', '-'] ++ decimal number

def FileName.text : FileName → Bytes
  | .lock => ascii ['L', 'O', 'C', 'K']
  | .current => ascii ['C', 'U', 'R', 'R', 'E', 'N', 'T']
  | .currentTmp => ascii ['C', 'U', 'R', 'R', 'E', 'N', 'T', '.', 't', 'm', 'p']
  | .log number => decimal number ++ ascii ['.', 'l', 'o', 'g']
  | .table number => decimal number ++ ascii ['.', 's', 's', 't']
  | .manifest number => manifestName number
  | .other name => name

def isDigit (byte : UInt8) : Bool := 48 ≤ byte && byte ≤ 57

def digitsValue (digits : Bytes) : Nat :=
  digits.foldl (fun value byte => 10 * value + (byte.toNat - 48)) 0

/-- A path without the `/` and `./` in front, which lead nowhere else. -/
def skipDots : Bytes → Bytes
  | first :: second :: rest =>
    if first = 47 then skipDots (second :: rest)
    else if first = 46 ∧ second = 47 then skipDots rest
    else first :: second :: rest
  | path => path

/-- The file that `open` finds under the path `dbname + "/" + line`, which it reads up to
the first NUL. A path through another directory is a file of its own. -/
def resolve (line : Bytes) : FileName :=
  let path := skipDots (line.takeWhile fun byte => byte ≠ 0)
  let number := digitsValue (path.filter isDigit)
  ([.lock, .current, .currentTmp, .log number, .table number, .manifest number].find?
    fun name => name.text = path).getD (.other path)

/-- `std::stoull`; nothing where it throws. -/
def stoull (text : Bytes) : Option Nat :=
  let rest := text.dropWhile fun byte => byte = 32 || (9 ≤ byte && byte ≤ 13)
  let negative := rest.head? = some 45
  let rest := if negative || rest.head? = some 43 then rest.tail else rest
  let digits := rest.takeWhile isDigit
  if digits = [] ∨ digitsValue digits ≥ 2 ^ 64 then none
  else some (if negative then (2 ^ 64 - digitsValue digits) % 2 ^ 64 else digitsValue digits)

/-- The number in a name with the given suffix: `none` for any other name, or where the
file is in another directory, and `some none` where `std::stoull` throws. -/
def suffixNumber (suffix name : Bytes) : Option (Option Nat) :=
  if 47 ∉ name ∧ name.length > 4 ∧ name.drop (name.length - 4) = suffix then
    some (stoull (name.take (name.length - 4)))
  else none

def logFileNumber : FileName → Option (Option Nat)
  | .log number => some (some number)
  | .other name => suffixNumber (ascii ['.', 'l', 'o', 'g']) name
  | _ => none

def tableFileNumber : FileName → Option (Option Nat)
  | .table number => some (some number)
  | .other name => suffixNumber (ascii ['.', 's', 's', 't']) name
  | _ => none

def syncDirectory : Prog Status := do
  if ← Sys.syncDirectory then
    return .ok
  return .ioError "Failed to open directory for sync"

def setCurrentFile (manifestNumber : Nat) : Prog Status := do
  if !(← Sys.openTrunc .currentTmp) then
    return .ioError "Failed to create temporary CURRENT file"
  if (← Sys.append .currentTmp (manifestName manifestNumber ++ [10])).isSome then
    return .ioError "Failed to write to temporary CURRENT file"
  if !(← Sys.sync .currentTmp) then
    return .ioError "fdatasync failed"
  if !(← Sys.rename .currentTmp .current) then
    return .ioError "Failed to rename temporary CURRENT file"
  syncDirectory

end Strata
