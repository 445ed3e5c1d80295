import Strata.Edits

/-! An edit comes back from its record. The readers of its files are not part
of the record, and the deleted files come back as the same set. -/
namespace Strata

open Library

namespace VersionEdit

/-- The loop of `DecodeFrom` goes over these bytes with this effect. -/
def Decodes (bytes : Bytes) (effect : VersionEdit → VersionEdit) : Prop :=
  ∀ (rest : Bytes) (edit : VersionEdit) (fuel : Nat), (bytes ++ rest).length ≤ fuel →
    ∃ less, rest.length ≤ less ∧
      decodeLoop fuel (bytes ++ rest) edit = decodeLoop less rest (effect edit)

namespace Decodes

theorem nil : Decodes [] id := fun _ _ fuel hfuel => ⟨fuel, hfuel, rfl⟩

theorem append {left right : Bytes} {first second : VersionEdit → VersionEdit}
    (hleft : Decodes left first) (hright : Decodes right second) :
    Decodes (left ++ right) (second ∘ first) := by
  intro rest edit fuel hfuel
  rw [List.append_assoc] at hfuel ⊢
  obtain ⟨less, hless, heq⟩ := hleft (right ++ rest) edit fuel hfuel
  obtain ⟨last, hlast, heq'⟩ := hright rest (first edit) less hless
  exact ⟨last, hlast, heq.trans heq'⟩

theorem field {tag : UInt8} {body : Bytes} {effect : VersionEdit → VersionEdit}
    (h : ∀ rest edit, decodeField tag (body ++ rest) edit = .ok (effect edit, rest)) :
    Decodes (tag :: body) effect := by
  intro rest edit fuel hfuel
  rw [List.cons_append, List.length_cons, List.length_append] at hfuel
  cases fuel with
  | zero => omega
  | succ fuel =>
    refine ⟨fuel, by omega, ?_⟩
    rw [List.cons_append, decodeLoop, h]
    rfl

theorem flatMap {α : Type} {items : List α} {encode : α → Bytes}
    {effect : α → VersionEdit → VersionEdit}
    (h : ∀ item ∈ items, Decodes (encode item) (effect item)) :
    Decodes (items.flatMap encode) fun edit => items.foldl (fun edit item => effect item edit) edit := by
  induction items with
  | nil => exact nil
  | cons item rest ih =>
    rw [List.flatMap_cons]
    exact (h item (by simp)).append (ih fun other hother => h other (by simp [hother]))

theorem decodeFrom {bytes : Bytes} {effect : VersionEdit → VersionEdit} (h : Decodes bytes effect) :
    VersionEdit.decodeFrom bytes = .ok (effect {}) := by
  obtain ⟨less, _, heq⟩ := h [] {} bytes.length (by simp)
  rw [List.append_nil] at heq
  rw [VersionEdit.decodeFrom, heq]
  cases less <;> rfl

end Decodes

theorem decodeString_encodeString {text : Bytes} (h : text.length < 2 ^ 32) (rest : Bytes)
    (bad truncated : String) :
    decodeString (encodeString text ++ rest) bad truncated = .ok (text, rest) := by
  have hdrop : (encodeString text ++ rest).drop 4 = text ++ rest := by
    rw [encodeString, List.append_assoc]
    exact List.drop_left' (length_encodeFixed32 _)
  have hlength : decodeFixed32 (encodeString text ++ rest) = text.length := by
    rw [encodeString, List.append_assoc, decodeFixed32_of_lt h]
  have hlong : ¬ (encodeString text ++ rest).length < 4 := by
    simp only [encodeString, List.length_append, length_encodeFixed32]
    omega
  have henough : ¬ (text ++ rest).length < text.length := by
    rw [List.length_append]
    omega
  unfold decodeString
  rw [if_neg hlong]
  simp only [hdrop, hlength, if_neg henough, List.take_left, List.drop_left]

theorem decodeNumber_encodeFixed64 {number : Nat} (h : number < 2 ^ 64) (rest : Bytes)
    (bad : String) : decodeNumber (encodeFixed64 number ++ rest) bad = .ok (number, rest) := by
  unfold decodeNumber
  rw [if_neg (by simp), decodeFixed64_of_lt h, List.drop_left' (length_encodeFixed64 _)]

theorem decodes_comparator {name : Option Bytes} (h : ∀ text, name = some text → text.length < 2 ^ 32) :
    Decodes (encodeComparator name) fun edit =>
      { edit with comparatorName := name.or edit.comparatorName } := by
  cases name with
  | none => exact Decodes.nil
  | some text =>
    refine Decodes.field fun rest edit => ?_
    rw [decodeField, if_pos rfl, decodeString_encodeString (h text rfl)]
    rfl

theorem decodes_logNumber {number : Option Nat} (h : ∀ n, number = some n → n < 2 ^ 64) :
    Decodes (encodeNumber kTagLogNumber number) fun edit =>
      { edit with logNumber := number.or edit.logNumber } := by
  cases number with
  | none => exact Decodes.nil
  | some n =>
    refine Decodes.field fun rest edit => ?_
    rw [decodeField, if_neg (by decide), if_pos rfl, decodeNumber_encodeFixed64 (h n rfl)]
    rfl

theorem decodes_nextFileNumber {number : Option Nat} (h : ∀ n, number = some n → n < 2 ^ 64) :
    Decodes (encodeNumber kTagNextFileNumber number) fun edit =>
      { edit with nextFileNumber := number.or edit.nextFileNumber } := by
  cases number with
  | none => exact Decodes.nil
  | some n =>
    refine Decodes.field fun rest edit => ?_
    rw [decodeField, if_neg (by decide), if_neg (by decide), if_pos rfl,
      decodeNumber_encodeFixed64 (h n rfl)]
    rfl

theorem decodes_lastSequence {number : Option Nat} (h : ∀ n, number = some n → n < 2 ^ 64) :
    Decodes (encodeNumber kTagLastSequence number) fun edit =>
      { edit with lastSequence := number.or edit.lastSequence } := by
  cases number with
  | none => exact Decodes.nil
  | some n =>
    refine Decodes.field fun rest edit => ?_
    rw [decodeField, if_neg (by decide), if_neg (by decide), if_neg (by decide), if_pos rfl,
      decodeNumber_encodeFixed64 (h n rfl)]
    rfl

theorem decodes_deleted {file : Nat × Nat} (hlevel : file.1 < 2 ^ 32) (hnumber : file.2 < 2 ^ 64) :
    Decodes (encodeDeleted file) fun edit => edit.deleteFile file.1 file.2 := by
  refine Decodes.field fun rest edit => ?_
  have hdrop : (encodeFixed32 file.1 ++ encodeFixed64 file.2 ++ rest).drop 4 =
      encodeFixed64 file.2 ++ rest := by
    rw [List.append_assoc]
    exact List.drop_left' (length_encodeFixed32 _)
  have hlong : ¬ (encodeFixed32 file.1 ++ encodeFixed64 file.2 ++ rest).length < 12 := by
    simp only [List.length_append, length_encodeFixed32, length_encodeFixed64]
    omega
  have hrest : (encodeFixed32 file.1 ++ encodeFixed64 file.2 ++ rest).drop 12 = rest :=
    List.drop_left' (by simp)
  rw [decodeField, if_neg (by decide), if_neg (by decide), if_neg (by decide), if_neg (by decide),
    if_pos rfl]
  simp only [hlong, ↓reduceIte, hdrop, hrest, decodeFixed64_of_lt hnumber]
  rw [List.append_assoc, decodeFixed32_of_lt hlevel]
  rfl

def bare (f : FileMetaData) : FileMetaData := { f with reader := none }

structure FileFits (item : Nat × FileMetaData) : Prop where
  level : item.1 < 2 ^ 32
  number : item.2.number < 2 ^ 64
  size : item.2.fileSize < 2 ^ 64
  smallest : item.2.smallestKey.length < 2 ^ 32
  largest : item.2.largestKey.length < 2 ^ 32

theorem decodes_new {item : Nat × FileMetaData} (h : FileFits item) :
    Decodes (encodeNew item) fun edit => edit.addFile item.1 (bare item.2) := by
  refine Decodes.field fun rest edit => ?_
  generalize hkeys : encodeString item.2.smallestKey ++ encodeString item.2.largestKey = keys
  generalize hinput : encodeFixed32 item.1 ++ (encodeFixed64 item.2.number ++
    (encodeFixed64 item.2.fileSize ++ keys)) ++ rest = input
  have hsplit : input = encodeFixed32 item.1 ++ (encodeFixed64 item.2.number ++
      (encodeFixed64 item.2.fileSize ++ (keys ++ rest))) := by
    rw [← hinput]
    simp only [List.append_assoc]
  have hlong : ¬ input.length < 20 := by
    rw [hsplit]
    simp only [List.length_append, length_encodeFixed32, length_encodeFixed64]
    omega
  have hnumber : input.drop 4 = encodeFixed64 item.2.number ++
      (encodeFixed64 item.2.fileSize ++ (keys ++ rest)) := by
    rw [hsplit]
    exact List.drop_left' (length_encodeFixed32 _)
  have hsize : input.drop 12 = encodeFixed64 item.2.fileSize ++ (keys ++ rest) := by
    rw [show 12 = 4 + 8 from rfl, ← List.drop_drop, hnumber]
    exact List.drop_left' (length_encodeFixed64 _)
  have hrest : input.drop 20 = encodeString item.2.smallestKey ++
      (encodeString item.2.largestKey ++ rest) := by
    rw [show 20 = 12 + 8 from rfl, ← List.drop_drop, hsize, ← hkeys, List.append_assoc]
    exact List.drop_left' (length_encodeFixed64 _)
  rw [decodeField, if_neg (by decide), if_neg (by decide), if_neg (by decide), if_neg (by decide),
    if_neg (by decide), if_pos rfl]
  simp only [hlong, ↓reduceIte, hnumber, hsize, hrest, decodeFixed64_of_lt h.number,
    decodeFixed64_of_lt h.size, decodeString_encodeString h.smallest,
    decodeString_encodeString h.largest, bind, Except.bind]
  rw [hsplit, decodeFixed32_of_lt h.level]
  rfl

def insertAll (files deleted : List (Nat × Nat)) : List (Nat × Nat) :=
  files.foldl (fun deleted file => insertDeleted file deleted) deleted

theorem mem_insertAll (files deleted : List (Nat × Nat)) {x : Nat × Nat} :
    x ∈ insertAll files deleted ↔ x ∈ deleted ∨ x ∈ files := by
  induction files generalizing deleted with
  | nil => simp [insertAll]
  | cons file rest ih =>
    have hstep : insertAll (file :: rest) deleted = insertAll rest (insertDeleted file deleted) := rfl
    rw [hstep, ih, mem_insertDeleted, List.mem_cons, or_assoc, or_left_comm]

theorem foldl_deleted (files : List (Nat × Nat)) (edit : VersionEdit) :
    files.foldl (fun edit file => edit.deleteFile file.1 file.2) edit =
      { edit with deletedFiles := insertAll files edit.deletedFiles } := by
  induction files generalizing edit with
  | nil => rfl
  | cons file rest ih =>
    rw [List.foldl_cons, ih]
    rfl

theorem foldl_new (items : List (Nat × FileMetaData)) (edit : VersionEdit) :
    items.foldl (fun edit item => edit.addFile item.1 (bare item.2)) edit =
      { edit with newFiles := edit.newFiles ++ items.map fun item => (item.1, bare item.2) } := by
  induction items generalizing edit with
  | nil => simp
  | cons item rest ih =>
    rw [List.foldl_cons, ih]
    simp [addFile]

structure FieldsFit (edit : VersionEdit) : Prop where
  comparatorName : ∀ text, edit.comparatorName = some text → text.length < 2 ^ 32
  logNumber : ∀ n, edit.logNumber = some n → n < 2 ^ 64
  nextFileNumber : ∀ n, edit.nextFileNumber = some n → n < 2 ^ 64
  lastSequence : ∀ n, edit.lastSequence = some n → n < 2 ^ 64
  deletedFiles : ∀ file ∈ edit.deletedFiles, file.1 < 2 ^ 32 ∧ file.2 < 2 ^ 64
  newFiles : ∀ item ∈ edit.newFiles, FileFits item

def decoded (edit : VersionEdit) (deleted : List (Nat × Nat)) : VersionEdit :=
  { edit with
    deletedFiles := deleted
    newFiles := edit.newFiles.map fun item => (item.1, bare item.2) }

theorem decodeFrom_encodeTo_insertAll {edit : VersionEdit} (h : edit.FieldsFit) :
    decodeFrom edit.encodeTo = .ok (edit.decoded (insertAll edit.deletedFiles [])) := by
  have hdecodes := (decodes_comparator h.comparatorName).append
    ((decodes_logNumber h.logNumber).append ((decodes_nextFileNumber h.nextFileNumber).append
      ((decodes_lastSequence h.lastSequence).append
        ((Decodes.flatMap fun file hfile =>
          decodes_deleted (h.deletedFiles file hfile).1 (h.deletedFiles file hfile).2).append
          (Decodes.flatMap fun item hitem => decodes_new (h.newFiles item hitem))))))
  rw [encodeTo, hdecodes.decodeFrom]
  simp only [Function.comp_apply, foldl_new, foldl_deleted]
  simp [decoded]

theorem decodeFrom_encodeTo {edit : VersionEdit} (h : edit.FieldsFit) :
    ∃ deleted, decodeFrom edit.encodeTo = .ok (edit.decoded deleted) ∧
      ∀ x, x ∈ deleted ↔ x ∈ edit.deletedFiles := by
  refine ⟨_, decodeFrom_encodeTo_insertAll h, fun x => ?_⟩
  rw [mem_insertAll]
  simp

/-! Edits as the setters make them come back exactly. Their deleted files are in
the order of the set, which the decoder builds up again. -/

/-- Nothing but the setters was applied to the edit, with arguments of their types
and with names and keys shorter than `2 ^ 32` bytes. -/
inductive Built : VersionEdit → Prop
  | new : Built {}
  | setComparatorName {edit : VersionEdit} {name : Bytes} (h : Built edit)
      (hname : name.length < 2 ^ 32) : Built (edit.setComparatorName name)
  | setLogNumber {edit : VersionEdit} {number : Nat} (h : Built edit)
      (hnumber : number < 2 ^ 64) : Built (edit.setLogNumber number)
  | setNextFile {edit : VersionEdit} {number : Nat} (h : Built edit)
      (hnumber : number < 2 ^ 64) : Built (edit.setNextFile number)
  | setLastSequence {edit : VersionEdit} {seq : Nat} (h : Built edit)
      (hseq : seq < 2 ^ 64) : Built (edit.setLastSequence seq)
  | deleteFile {edit : VersionEdit} {level file : Nat} (h : Built edit)
      (hlevel : level < 2 ^ 32) (hfile : file < 2 ^ 64) : Built (edit.deleteFile level file)
  | addFile {edit : VersionEdit} {level : Nat} {file : FileMetaData} (h : Built edit)
      (hfits : FileFits (level, file)) : Built (edit.addFile level file)

theorem Built.fieldsFit {edit : VersionEdit} (h : Built edit) : edit.FieldsFit := by
  induction h with
  | new =>
    constructor
    · intro text htext
      cases htext
    · intro n hn
      cases hn
    · intro n hn
      cases hn
    · intro n hn
      cases hn
    · intro file hfile
      cases hfile
    · intro item hitem
      cases hitem
  | setComparatorName _ hname ih =>
    exact { ih with comparatorName := fun text htext => by cases htext; exact hname }
  | setLogNumber _ hnumber ih =>
    exact { ih with logNumber := fun n hn => by cases hn; exact hnumber }
  | setNextFile _ hnumber ih =>
    exact { ih with nextFileNumber := fun n hn => by cases hn; exact hnumber }
  | setLastSequence _ hseq ih =>
    exact { ih with lastSequence := fun n hn => by cases hn; exact hseq }
  | deleteFile _ hlevel hfile ih =>
    refine { ih with deletedFiles := fun file hmem => ?_ }
    rcases mem_insertDeleted.mp hmem with rfl | hold
    · exact ⟨hlevel, hfile⟩
    · exact ih.deletedFiles file hold
  | addFile _ hfits ih =>
    refine { ih with newFiles := fun item hmem => ?_ }
    rcases List.mem_append.mp hmem with hold | hnew
    · exact ih.newFiles item hold
    · rw [List.mem_singleton] at hnew
      subst hnew
      exact hfits

theorem levelValue_inj {a b : Nat} (ha : a < 2 ^ 32) (hb : b < 2 ^ 32)
    (h : levelValue a = levelValue b) : a = b := by
  unfold levelValue at h
  split at h <;> split at h <;> omega

theorem deletedBefore_asymm {a b : Nat × Nat} (h : deletedBefore a b) : ¬ deletedBefore b a := by
  intro hback
  rcases h with h | ⟨hlevel, hnumber⟩
  · rcases hback with hback | ⟨hlevel, _⟩
    · omega
    · rw [hlevel] at h
      omega
  · rcases hback with hback | ⟨_, hnumber'⟩
    · rw [hlevel] at hback
      omega
    · omega

theorem deletedBefore_trans {a b c : Nat × Nat} (hab : deletedBefore a b)
    (hbc : deletedBefore b c) : deletedBefore a c := by
  rcases hab with hab | ⟨hlevel, hnumber⟩
  · rcases hbc with hbc | ⟨hlevel, _⟩
    · exact Or.inl (lt_trans hab hbc)
    · rw [hlevel] at hab
      exact Or.inl hab
  · rcases hbc with hbc | ⟨hlevel', hnumber'⟩
    · rw [← hlevel] at hbc
      exact Or.inl hbc
    · exact Or.inr ⟨hlevel.trans hlevel', lt_trans hnumber hnumber'⟩

theorem deletedBefore_of_not {a b : Nat × Nat} (ha : a.1 < 2 ^ 32) (hb : b.1 < 2 ^ 32)
    (hne : a ≠ b) (hnot : ¬ deletedBefore a b) : deletedBefore b a := by
  rw [deletedBefore, not_or, not_and, not_lt, not_lt] at hnot
  rcases lt_or_eq_of_le hnot.1 with hlt | heq
  · exact Or.inl hlt
  · have hlevel : a.1 = b.1 := levelValue_inj ha hb heq.symm
    have hle := hnot.2 hlevel
    have hnumber : a.2 ≠ b.2 := fun h => hne (Prod.ext hlevel h)
    exact Or.inr ⟨hlevel.symm, by omega⟩

theorem pairwise_insertDeleted {file : Nat × Nat} {deleted : List (Nat × Nat)}
    (hfile : file.1 < 2 ^ 32) (hlevels : ∀ x ∈ deleted, x.1 < 2 ^ 32)
    (h : deleted.Pairwise deletedBefore) : (insertDeleted file deleted).Pairwise deletedBefore := by
  induction deleted with
  | nil => simp [insertDeleted]
  | cons first rest ih =>
    obtain ⟨hfirst, hrest⟩ := List.pairwise_cons.mp h
    unfold insertDeleted
    split
    · exact h
    · rename_i hne
      split
      · rename_i hbefore
        refine List.pairwise_cons.mpr ⟨fun x hx => ?_, h⟩
        rcases List.mem_cons.mp hx with rfl | hx
        · exact hbefore
        · exact deletedBefore_trans hbefore (hfirst x hx)
      · rename_i hnot
        refine List.pairwise_cons.mpr
          ⟨fun x hx => ?_, ih (fun x hx => hlevels x (by simp [hx])) hrest⟩
        rcases mem_insertDeleted.mp hx with rfl | hx
        · exact deletedBefore_of_not hfile (hlevels first (by simp)) hne hnot
        · exact hfirst x hx

theorem Built.pairwise {edit : VersionEdit} (h : Built edit) :
    edit.deletedFiles.Pairwise deletedBefore := by
  induction h with
  | new => exact List.Pairwise.nil
  | deleteFile hbuilt hlevel _ ih =>
    exact pairwise_insertDeleted hlevel (fun x hx => (hbuilt.fieldsFit.deletedFiles x hx).1) ih
  | setComparatorName _ _ ih => exact ih
  | setLogNumber _ _ ih => exact ih
  | setNextFile _ _ ih => exact ih
  | setLastSequence _ _ ih => exact ih
  | addFile _ _ ih => exact ih

theorem insertDeleted_last {file : Nat × Nat} {deleted : List (Nat × Nat)}
    (h : ∀ x ∈ deleted, deletedBefore x file) : insertDeleted file deleted = deleted ++ [file] := by
  induction deleted with
  | nil => rfl
  | cons first rest ih =>
    have hfirst := h first (by simp)
    have hne : file ≠ first := by
      rintro rfl
      exact deletedBefore_asymm hfirst hfirst
    rw [insertDeleted, if_neg hne, if_neg (deletedBefore_asymm hfirst),
      ih fun x hx => h x (by simp [hx]), List.cons_append]

theorem insertAll_append {files deleted : List (Nat × Nat)}
    (h : (deleted ++ files).Pairwise deletedBefore) : insertAll files deleted = deleted ++ files := by
  induction files generalizing deleted with
  | nil => simp [insertAll]
  | cons file rest ih =>
    have hstep : insertAll (file :: rest) deleted = insertAll rest (insertDeleted file deleted) := rfl
    have hlast : ∀ x ∈ deleted, deletedBefore x file := fun x hx =>
      (List.pairwise_append.mp h).2.2 x hx file (by simp)
    rw [hstep, insertDeleted_last hlast, ih (by simpa using h), List.append_assoc,
      List.singleton_append]

theorem Built.insertAll {edit : VersionEdit} (h : Built edit) :
    VersionEdit.insertAll edit.deletedFiles [] = edit.deletedFiles := by
  rw [insertAll_append (by simpa using h.pairwise), List.nil_append]

def Bare (edit : VersionEdit) : Prop := ∀ item ∈ edit.newFiles, item.2.reader = none

theorem Bare.decoded {edit : VersionEdit} (h : edit.Bare) :
    edit.decoded edit.deletedFiles = edit := by
  have hmap : (edit.newFiles.map fun item => (item.1, bare item.2)) = edit.newFiles := by
    conv_rhs => rw [← List.map_id edit.newFiles]
    apply List.map_congr_left
    intro item hitem
    have hreader := h item hitem
    rw [bare, ← hreader]
    rfl
  rw [VersionEdit.decoded, hmap]

/-! What the decoder accepts is such an edit: every turn applies a setter. -/

theorem decodeString_short {input text rest : Bytes} {bad truncated : String}
    (h : decodeString input bad truncated = .ok (text, rest)) : text.length < 2 ^ 32 := by
  have hlt := decodeFixed32_lt input
  unfold decodeString at h
  split at h
  · cases h
  · simp only at h
    split at h
    · cases h
    · cases h
      rw [List.length_take]
      omega

theorem decodeNumber_lt {input rest : Bytes} {bad : String} {number : Nat}
    (h : decodeNumber input bad = .ok (number, rest)) : number < 2 ^ 64 := by
  unfold decodeNumber at h
  split at h
  · cases h
  · cases h
    exact decodeFixed64_lt input

theorem bind_ok {α β : Type} {first : Except Status α} {next : α → Except Status β} {result : β}
    (h : first >>= next = .ok result) : ∃ value, first = .ok value ∧ next value = .ok result := by
  cases first with
  | error e => cases h
  | ok value => exact ⟨value, rfl, h⟩

theorem decodeField_built {tag : UInt8} {input rest : Bytes} {edit result : VersionEdit}
    (hbuilt : Built edit) (hbare : edit.Bare)
    (h : decodeField tag input edit = .ok (result, rest)) : Built result ∧ result.Bare := by
  unfold decodeField at h
  split at h
  · obtain ⟨⟨name, after⟩, hname, h⟩ := bind_ok h
    cases h
    exact ⟨hbuilt.setComparatorName (decodeString_short hname), hbare⟩
  split at h
  · obtain ⟨⟨number, after⟩, hnumber, h⟩ := bind_ok h
    cases h
    exact ⟨hbuilt.setLogNumber (decodeNumber_lt hnumber), hbare⟩
  split at h
  · obtain ⟨⟨number, after⟩, hnumber, h⟩ := bind_ok h
    cases h
    exact ⟨hbuilt.setNextFile (decodeNumber_lt hnumber), hbare⟩
  split at h
  · obtain ⟨⟨number, after⟩, hnumber, h⟩ := bind_ok h
    cases h
    exact ⟨hbuilt.setLastSequence (decodeNumber_lt hnumber), hbare⟩
  split at h
  · split at h
    · cases h
    · cases h
      exact ⟨hbuilt.deleteFile (decodeFixed32_lt _) (decodeFixed64_lt _), hbare⟩
  split at h
  · split at h
    · cases h
    · obtain ⟨⟨smallest, after⟩, hsmallest, h⟩ := bind_ok h
      obtain ⟨⟨largest, last⟩, hlargest, h⟩ := bind_ok h
      cases h
      constructor
      · apply hbuilt.addFile
        exact ⟨decodeFixed32_lt _, decodeFixed64_lt _, decodeFixed64_lt _,
          decodeString_short hsmallest, decodeString_short hlargest⟩
      · intro item hitem
        rcases List.mem_append.mp hitem with hold | hnew
        · exact hbare item hold
        · rw [List.mem_singleton] at hnew
          subst hnew
          rfl
  · cases h

theorem decodeLoop_built {fuel : Nat} {input : Bytes} {edit result : VersionEdit}
    (hbuilt : Built edit) (hbare : edit.Bare) (h : decodeLoop fuel input edit = .ok result) :
    Built result ∧ result.Bare := by
  induction fuel generalizing input edit with
  | zero =>
    cases input with
    | nil =>
      cases h
      exact ⟨hbuilt, hbare⟩
    | cons tag rest =>
      cases h
      exact ⟨hbuilt, hbare⟩
  | succ fuel ih =>
    cases input with
    | nil =>
      cases h
      exact ⟨hbuilt, hbare⟩
    | cons tag rest =>
      obtain ⟨⟨next, after⟩, hfield, h⟩ := bind_ok h
      obtain ⟨hbuilt', hbare'⟩ := decodeField_built hbuilt hbare hfield
      exact ih hbuilt' hbare' h

/-- An edit made by the setters comes back from its record with every field, the
set of its deleted files and the list of its new files, readers apart. Whatever
bytes the decoder accepts, the edit it gives comes back unchanged. -/
theorem edit_comes_back (edit : VersionEdit) (src : Bytes) :
    (Built edit → decodeFrom edit.encodeTo = .ok (edit.decoded edit.deletedFiles)) ∧
      ∀ accepted, decodeFrom src = .ok accepted →
        decodeFrom accepted.encodeTo = .ok accepted := by
  have hback : ∀ edit, Built edit →
      decodeFrom edit.encodeTo = .ok (edit.decoded edit.deletedFiles) := by
    intro edit h
    rw [decodeFrom_encodeTo_insertAll h.fieldsFit, h.insertAll]
  constructor
  · exact hback edit
  · intro accepted haccepted
    obtain ⟨hbuilt, hbare⟩ := decodeLoop_built Built.new (fun _ h => nomatch h) haccepted
    rw [hback accepted hbuilt, hbare.decoded]

def threeFilesEdit : VersionEdit :=
  ((((({} : VersionEdit).setLogNumber 5).setNextFile 9).setLastSequence 12).deleteFile 1 7
    |>.deleteFile 0 3).addFile 1 ⟨8, 100, [97], [98], none⟩

theorem edit_comes_back_threeFiles :
    decodeFrom threeFilesEdit.encodeTo = .ok (threeFilesEdit.decoded [(0, 3), (1, 7)]) ∧
      ∀ accepted, decodeFrom threeFilesEdit.encodeTo = .ok accepted →
        decodeFrom accepted.encodeTo = .ok accepted := by
  have hbuilt : Built threeFilesEdit :=
    .addFile (.deleteFile (.deleteFile (.setLastSequence (.setNextFile (.setLogNumber .new
      (by decide)) (by decide)) (by decide)) (by decide) (by decide)) (by decide) (by decide))
      ⟨by decide, by decide, by decide, by decide, by decide⟩
  obtain ⟨hback, haccepted⟩ := edit_comes_back threeFilesEdit threeFilesEdit.encodeTo
  exact ⟨hback hbuilt, haccepted⟩

end VersionEdit

end Strata
