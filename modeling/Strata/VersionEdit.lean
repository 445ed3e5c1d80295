import Strata.SSTableReader

/-! Version edits: the records of a manifest. -/
namespace Strata

structure FileMetaData where
  number : Nat
  fileSize : Nat
  smallestKey : Key
  largestKey : Key
  reader : Option SSTableReader
  deriving DecidableEq, Repr, Inhabited

/-- A field that was not set is `none`. A level is an `int`, kept as its 32 bits.
Deleted files are a set, kept in its iteration order: level first, then file number. -/
structure VersionEdit where
  comparatorName : Option Bytes := none
  logNumber : Option Nat := none
  nextFileNumber : Option Nat := none
  lastSequence : Option Nat := none
  deletedFiles : List (Nat × Nat) := []
  newFiles : List (Nat × FileMetaData) := []
  deriving DecidableEq, Repr

/-- The value of the `int` with these 32 bits. -/
def levelValue (level : Nat) : Int := if level < 2 ^ 31 then level else level - 2 ^ 32

/-- `operator<` of a pair of level and file number. -/
def deletedBefore (a b : Nat × Nat) : Prop :=
  levelValue a.1 < levelValue b.1 ∨ (a.1 = b.1 ∧ a.2 < b.2)

instance (a b : Nat × Nat) : Decidable (deletedBefore a b) := by
  unfold deletedBefore
  infer_instance

def insertDeleted (file : Nat × Nat) : List (Nat × Nat) → List (Nat × Nat)
  | [] => [file]
  | first :: rest =>
    if file = first then first :: rest
    else if deletedBefore file first then file :: first :: rest
    else first :: insertDeleted file rest

def kTagComparator : UInt8 := 1
def kTagLogNumber : UInt8 := 2
def kTagNextFileNumber : UInt8 := 3
def kTagLastSequence : UInt8 := 4
def kTagDeletedFile : UInt8 := 5
def kTagNewFile : UInt8 := 6

namespace VersionEdit

def setComparatorName (edit : VersionEdit) (name : Bytes) : VersionEdit :=
  { edit with comparatorName := some name }

def setLogNumber (edit : VersionEdit) (number : Nat) : VersionEdit :=
  { edit with logNumber := some number }

def setNextFile (edit : VersionEdit) (number : Nat) : VersionEdit :=
  { edit with nextFileNumber := some number }

def setLastSequence (edit : VersionEdit) (seq : Nat) : VersionEdit :=
  { edit with lastSequence := some seq }

def deleteFile (edit : VersionEdit) (level file : Nat) : VersionEdit :=
  { edit with deletedFiles := insertDeleted (level, file) edit.deletedFiles }

def addFile (edit : VersionEdit) (level : Nat) (file : FileMetaData) : VersionEdit :=
  { edit with newFiles := edit.newFiles ++ [(level, file)] }

def encodeString (text : Bytes) : Bytes := encodeFixed32 text.length ++ text

def encodeNumber (tag : UInt8) : Option Nat → Bytes
  | none => []
  | some number => tag :: encodeFixed64 number

def encodeComparator : Option Bytes → Bytes
  | none => []
  | some name => kTagComparator :: encodeString name

def encodeDeleted (file : Nat × Nat) : Bytes :=
  kTagDeletedFile :: (encodeFixed32 file.1 ++ encodeFixed64 file.2)

def encodeNew (item : Nat × FileMetaData) : Bytes :=
  kTagNewFile :: (encodeFixed32 item.1 ++ (encodeFixed64 item.2.number ++
    (encodeFixed64 item.2.fileSize ++ (encodeString item.2.smallestKey ++
      encodeString item.2.largestKey))))

def encodeTo (edit : VersionEdit) : Bytes :=
  encodeComparator edit.comparatorName ++ (encodeNumber kTagLogNumber edit.logNumber ++
    (encodeNumber kTagNextFileNumber edit.nextFileNumber ++
      (encodeNumber kTagLastSequence edit.lastSequence ++
        (edit.deletedFiles.flatMap encodeDeleted ++ edit.newFiles.flatMap encodeNew))))

def decodeString (input : Bytes) (bad truncated : String) : Except Status (Bytes × Bytes) :=
  if input.length < 4 then .error (.corruption bad)
  else
    let length := decodeFixed32 input
    let input := input.drop 4
    if input.length < length then .error (.corruption truncated)
    else .ok (input.take length, input.drop length)

def decodeNumber (input : Bytes) (bad : String) : Except Status (Nat × Bytes) :=
  if input.length < 8 then .error (.corruption bad)
  else .ok (decodeFixed64 input, input.drop 8)

/-- One turn of the loop of `DecodeFrom`, behind the tag. -/
def decodeField (tag : UInt8) (input : Bytes) (edit : VersionEdit) :
    Except Status (VersionEdit × Bytes) := do
  if tag = kTagComparator then
    let (name, rest) ← decodeString input "Bad comparator in edit" "Truncated comparator"
    pure (edit.setComparatorName name, rest)
  else if tag = kTagLogNumber then
    let (number, rest) ← decodeNumber input "Bad log number in edit"
    pure (edit.setLogNumber number, rest)
  else if tag = kTagNextFileNumber then
    let (number, rest) ← decodeNumber input "Bad next file in edit"
    pure (edit.setNextFile number, rest)
  else if tag = kTagLastSequence then
    let (number, rest) ← decodeNumber input "Bad last sequence in edit"
    pure (edit.setLastSequence number, rest)
  else if tag = kTagDeletedFile then
    if input.length < 12 then throw (.corruption "Bad deleted file in edit")
    pure (edit.deleteFile (decodeFixed32 input) (decodeFixed64 (input.drop 4)), input.drop 12)
  else if tag = kTagNewFile then
    if input.length < 20 then throw (.corruption "Bad new file in edit")
    let (smallest, rest) ← decodeString (input.drop 20) "Bad smallest key len"
      "Truncated smallest key"
    let (largest, rest) ← decodeString rest "Bad largest key len" "Truncated largest key"
    pure (edit.addFile (decodeFixed32 input) ⟨decodeFixed64 (input.drop 4),
      decodeFixed64 (input.drop 12), smallest, largest, none⟩, rest)
  else
    throw (.corruption "Unknown tag in VersionEdit")

/-- Every turn takes a byte or more, so the length of the input bounds the loop. -/
def decodeLoop : Nat → Bytes → VersionEdit → Except Status VersionEdit
  | _, [], edit => .ok edit
  | 0, _ :: _, edit => .ok edit
  | fuel + 1, tag :: input, edit => do
    let (edit, rest) ← decodeField tag input edit
    decodeLoop fuel rest edit

def decodeFrom (src : Bytes) : Except Status VersionEdit := decodeLoop src.length src {}

/-! Every error of `DecodeFrom` is a corruption. -/

theorem decodeString_error {input : Bytes} {bad truncated : String} {error : Status}
    (h : decodeString input bad truncated = .error error) : ∃ msg, error = .corruption msg := by
  unfold decodeString at h
  split at h
  · exact ⟨bad, (Except.error.inj h).symm⟩
  · simp only at h
    split at h
    · exact ⟨truncated, (Except.error.inj h).symm⟩
    · cases h

theorem decodeNumber_error {input : Bytes} {bad : String} {error : Status}
    (h : decodeNumber input bad = .error error) : ∃ msg, error = .corruption msg := by
  unfold decodeNumber at h
  split at h
  · exact ⟨bad, (Except.error.inj h).symm⟩
  · cases h

theorem bind_error {α β : Type} {first : Except Status α} {next : α → Except Status β}
    {error : Status} (h : first >>= next = .error error) :
    first = .error error ∨ ∃ value, first = .ok value ∧ next value = .error error := by
  cases first with
  | error e => exact Or.inl (by simpa [bind, Except.bind] using h)
  | ok value => exact Or.inr ⟨value, rfl, h⟩

theorem decodeField_error {tag : UInt8} {input : Bytes} {edit : VersionEdit} {error : Status}
    (h : decodeField tag input edit = .error error) : ∃ msg, error = .corruption msg := by
  unfold decodeField at h
  split at h
  · rcases bind_error h with h | ⟨_, _, h⟩
    · exact decodeString_error h
    · cases h
  split at h
  · rcases bind_error h with h | ⟨_, _, h⟩
    · exact decodeNumber_error h
    · cases h
  split at h
  · rcases bind_error h with h | ⟨_, _, h⟩
    · exact decodeNumber_error h
    · cases h
  split at h
  · rcases bind_error h with h | ⟨_, _, h⟩
    · exact decodeNumber_error h
    · cases h
  split at h
  · split at h
    · exact ⟨_, (Except.error.inj h).symm⟩
    · cases h
  split at h
  · split at h
    · exact ⟨_, (Except.error.inj h).symm⟩
    · rcases bind_error h with h | ⟨_, _, h⟩
      · exact decodeString_error h
      rcases bind_error h with h | ⟨_, _, h⟩
      · exact decodeString_error h
      · cases h
  · exact ⟨_, (Except.error.inj h).symm⟩

theorem decodeFrom_error {src : Bytes} {error : Status} (h : decodeFrom src = .error error) :
    ∃ msg, error = .corruption msg := by
  have general : ∀ (fuel : Nat) (input : Bytes) (edit : VersionEdit),
      decodeLoop fuel input edit = .error error → ∃ msg, error = .corruption msg := by
    intro fuel
    induction fuel with
    | zero =>
      intro input edit h
      cases input <;> cases h
    | succ fuel ih =>
      intro input edit h
      cases input with
      | nil => cases h
      | cons tag rest =>
        rcases bind_error h with h | ⟨⟨edit', rest'⟩, _, h⟩
        · exact decodeField_error h
        · exact ih rest' edit' h
  exact general _ _ _ h

end VersionEdit

end Strata
