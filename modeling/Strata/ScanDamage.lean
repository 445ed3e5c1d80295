import Strata.CompactionDamage
import Strata.TableLookup

/-! A full scan of a snapshot some of whose tables cannot be opened or read. A table
that does not open is left out without a word; a block that cannot be read is passed
over, and the iterator's status says so. -/
namespace Strata

open Library System Layers Memtable

/-- What a scan sees of the entries that the file was written with: nothing where the
table does not open. -/
def FileMetaData.Scanned (dir : Dir) (faults : Faults) (f : FileMetaData)
    (whole seen : List Entry) : Prop :=
  ((∃ status, f.openReader dir faults = .error status) ∧ seen = []) ∨
    f.Impaired dir faults whole seen

def SSTableReader.HasUnreadBlock (r : SSTableReader) : Prop :=
  ∃ value ∈ r.indexValues, ∃ status, r.readHandle value = .error status

/-- The snapshot at `seq` has this value for the key: that of the newest entry, which is
no tombstone. -/
def IsVisible (es : List Entry) (seq : Nat) (key : Key) (value : Bytes) : Prop :=
  ∃ e, IsNewest es key seq e ∧ e.type = kTypeValue ∧ e.value = value

theorem IsVisible.of_mem_iff {left right : List Entry} (h : ∀ e, e ∈ left ↔ e ∈ right) {seq : Nat}
    {key : Key} {value : Bytes} (hvisible : IsVisible left seq key value) :
    IsVisible right seq key value := by
  obtain ⟨e, hnewest, hvalue⟩ := hvisible
  refine ⟨e, ⟨(h e).mp hnewest.mem, hnewest.hasKey, hnewest.visible, fun x hx => ?_⟩, hvalue⟩
  exact hnewest.largest x ((h x).mpr hx)

theorem mem_view_upTo {es : List Entry} (hsorted : Sorted es) (hdistinct : Distinct es) (seq : Nat)
    (key : Key) (value : Bytes) :
    (key, value) ∈ view (upTo seq es) ↔ IsVisible es seq key value := by
  have hup : Sorted (upTo seq es) := List.Pairwise.sublist List.filter_sublist hsorted
  have hmem : ∀ e, e ∈ upTo seq es ↔ e ∈ es ∧ e.seq ≤ seq := by
    intro e
    rw [upTo, List.mem_filter, decide_eq_true_iff]
  rw [mem_view (keysSorted_of_sorted hup)]
  constructor
  · intro hfound
    cases hfind : (upTo seq es).find? fun x => x.userKey = key with
    | none =>
      rw [hfind] at hfound
      cases hfound
    | some e =>
      obtain ⟨he, hkey, htop⟩ := find_top (topFirst_of_sorted hup) hfind
      obtain ⟨hin, hseq⟩ := (hmem e).mp he
      rw [hfind, lookupOf] at hfound
      split at hfound
      · rename_i htype
        cases hfound
        exact ⟨e, ⟨hin, hkey, hseq, fun x hx hxkey hxseq =>
          htop x ((hmem x).mpr ⟨hx, hxseq⟩) hxkey⟩, htype, rfl⟩
      · cases hfound
  · rintro ⟨e, hnewest, htype, rfl⟩
    have he := (hmem e).mpr ⟨hnewest.mem, hnewest.visible⟩
    cases hfind : (upTo seq es).find? fun x => x.userKey = key with
    | none => exact absurd hnewest.hasKey (Layers.find_none.mp hfind e he)
    | some x =>
      obtain ⟨hx, hxkey, htop⟩ := find_top (topFirst_of_sorted hup) hfind
      obtain ⟨hin, hseq⟩ := (hmem x).mp hx
      have hrank := Nat.le_antisymm (hnewest.largest x hin hxkey hseq)
        (htop e he hnewest.hasKey)
      have hsame : x = e := hdistinct x hin e hnewest.mem (hxkey.trans hnewest.hasKey.symm) hrank
      rw [hsame, lookupOf, if_pos htype]

/-! The sources of a scan. -/

theorem MemTableIterator.drains (m : Memtable) (es : List Entry) :
    Drains (fun last : SourceIterator => (InternalIterator.status last).isOk = true)
      (.memtable ⟨m, es⟩) es := by
  induction es with
  | nil => exact ⟨rfl, rfl⟩
  | cons e rest ih => exact ⟨rfl, rfl, ih⟩

theorem TwoLevelIterator.drains_source {ok : Bool} {it : TwoLevelIterator} {es : List Entry}
    (h : Drains (fun last : TwoLevelIterator => last.statusOf.isOk = ok) it es) :
    Drains (fun last : SourceIterator => (InternalIterator.status last).isOk = ok)
      (.table it) es := by
  induction es generalizing it with
  | nil => exact ⟨h.1, h.2⟩
  | cons e rest ih => exact ⟨h.1, h.2.1, ih h.2.2⟩

theorem SSTableReader.Damaged.reads_iff {r : SSTableReader} {l : Layout} {whole : List Entry}
    {parts : List (List Entry)} (h : r.Damaged l whole parts) :
    (indexEntries 0 l.blocks).all r.reads = false ↔ r.HasUnreadBlock := by
  have hvalues : r.indexValues = (indexEntries 0 l.blocks).map Entry.value := by
    rw [SSTableReader.indexValues, h.reads]
    exact Layout.indexValues_reader h.written 0
  rw [List.all_eq_false, SSTableReader.HasUnreadBlock, hvalues]
  constructor
  · rintro ⟨e, he, hunread⟩
    refine ⟨e.value, List.mem_map_of_mem he, ?_⟩
    cases hread : r.readHandle e.value with
    | error status => exact ⟨status, rfl⟩
    | ok block => simp [SSTableReader.reads, hread, Except.isOk, Except.toBool] at hunread
  · rintro ⟨value, hvalue, status, hread⟩
    obtain ⟨e, he, rfl⟩ := List.mem_map.mp hvalue
    exact ⟨e, he, by simp [SSTableReader.reads, hread, Except.isOk, Except.toBool]⟩

/-- The children of the merging iterator, each with what it shows, and whether it ends
without an error. -/
structure ScanSources (children : List SourceIterator) (all : List Entry) (unread : Prop)
    (pairs : List (SourceIterator × List Entry)) (oks : List Bool) : Prop where
  iterators : pairs.map Prod.fst = children
  entries : (pairs.map Prod.snd).flatten = all
  sorted : ∀ p ∈ pairs, Sorted p.2
  ends : List.Forall₂ (fun p ok => Drains
    (fun last : SourceIterator => (InternalIterator.status last).isOk = ok)
    (InternalIterator.seekToFirst p.1) p.2) pairs oks
  errors : oks.all id = false ↔ unread

theorem ScanSources.append {left right : List SourceIterator} {es es' : List Entry} {bad bad' : Prop}
    {pairs pairs' : List (SourceIterator × List Entry)} {oks oks' : List Bool}
    (h : ScanSources left es bad pairs oks) (h' : ScanSources right es' bad' pairs' oks') :
    ScanSources (left ++ right) (es ++ es') (bad ∨ bad') (pairs ++ pairs') (oks ++ oks') := by
  constructor
  · rw [List.map_append, h.iterators, h'.iterators]
  · rw [List.map_append, List.flatten_append, h.entries, h'.entries]
  · intro p hp
    rcases List.mem_append.mp hp with hp | hp
    · exact h.sorted p hp
    · exact h'.sorted p hp
  · exact List.rel_append h.ends h'.ends
  · rw [List.all_append, Bool.and_eq_false_iff, h.errors, h'.errors]

theorem sources_memtables {ms : List Memtable} (h : ∀ m ∈ ms, Sorted m.entries) :
    ∃ pairs oks, ScanSources (ms.map fun m => .memtable m.newIterator)
      (ms.map Memtable.entries).flatten False pairs oks := by
  induction ms with
  | nil => exact ⟨[], [], rfl, rfl, fun _ hp => (List.not_mem_nil hp).elim, .nil, by simp⟩
  | cons m rest ih =>
    obtain ⟨pairs, oks, hrest⟩ := ih fun n hn => h n (List.mem_cons_of_mem _ hn)
    have hone : ScanSources [.memtable m.newIterator] m.entries False
        [(.memtable m.newIterator, m.entries)] [true] := by
      refine ⟨rfl, by simp, ?_, .cons (MemTableIterator.drains m m.entries) .nil, by simp⟩
      intro p hp
      rw [List.mem_singleton.mp hp]
      exact h m (by simp)
    have hall := hone.append hrest
    rw [or_self_iff] at hall
    exact ⟨_, _, hall⟩

theorem FileMetaData.Scanned.sublist {dir : Dir} {faults : Faults} {f : FileMetaData}
    {whole seen : List Entry} (h : f.Scanned dir faults whole seen) : seen.Sublist whole := by
  rcases h with ⟨_, rfl⟩ | ⟨r, l, parts, _, hdamaged, rfl⟩
  · exact List.nil_sublist _
  · exact hdamaged.sublist

theorem sources_tables {dir : Dir} {faults : Faults} {files : List FileMetaData}
    {whole seen : FileMetaData → List Entry}
    (h : ∀ f ∈ files, f.Scanned dir faults (whole f) (seen f)) :
    ∃ pairs oks, ScanSources
      ((files.filterMap fun f =>
        (f.openReader dir faults).toOption.map SSTableReader.newIterator).map .table)
      (files.map seen).flatten
      (∃ f ∈ files, ∃ r, f.openReader dir faults = .ok r ∧ r.HasUnreadBlock) pairs oks := by
  induction files with
  | nil => exact ⟨[], [], rfl, rfl, fun _ hp => (List.not_mem_nil hp).elim, .nil, by simp⟩
  | cons f rest ih =>
    obtain ⟨pairs, oks, hrest⟩ := ih fun g hg => h g (List.mem_cons_of_mem _ hg)
    rw [List.map_cons, List.flatten_cons]
    rcases h f (by simp) with ⟨⟨status, hopen⟩, hseen⟩ | ⟨r, l, parts, hopen, hdamaged, hseen⟩
    -- the table is left out
    · refine ⟨pairs, oks, ?_⟩
      rw [List.filterMap_cons, hopen, hseen, List.nil_append]
      refine { hrest with errors := hrest.errors.trans ?_ }
      simp [hopen]
    · have hone : ScanSources [.table r.newIterator] (seen f) r.HasUnreadBlock
          [(.table r.newIterator, seen f)] [(indexEntries 0 l.blocks).all r.reads] := by
        refine ⟨rfl, by simp, ?_, .cons ?_ .nil, ?_⟩
        · intro p hp
          rw [List.mem_singleton.mp hp, hseen]
          exact hdamaged.passes.sorted
        · rw [hseen]
          exact TwoLevelIterator.drains_source hdamaged.parts_shown.drains
        · rw [List.all_cons, List.all_nil, Bool.and_true]
          exact hdamaged.reads_iff
      have hall := hone.append hrest
      refine ⟨(.table r.newIterator, seen f) :: pairs,
        (indexEntries 0 l.blocks).all r.reads :: oks, ?_⟩
      rw [List.filterMap_cons, hopen]
      refine { hall with errors := hall.errors.trans ?_ }
      simp [hopen]

def DBImpl.entriesOf (db : DBImpl) (snap : Snapshot) (contents : FileMetaData → List Entry) :
    List Entry :=
  ((db.memtables snap).map Memtable.entries).flatten ++ (snap.current.allFiles.map contents).flatten

/-- A scan with `SeekToFirst` and `Next` ends, and if it then reports OK it has shown
exactly the pairs that are visible, each once and in the order of the keys. -/
def ScanComplete (d : DBIterator SourceIterator) (fuel : Nat) (es : List Entry) (seq : Nat) :
    Prop :=
  (d.scanEnd fuel).valid = false ∧ ((d.scanEnd fuel).status = .ok →
    ((d.scan fuel).Pairwise fun a b => a.1 < b.1) ∧
      ∀ key value, (key, value) ∈ d.scan fuel ↔ IsVisible es seq key value)

theorem DBImpl.scan_seen (db : DBImpl) (dir : Dir) (faults : Faults) (snap : Snapshot)
    {whole seen : FileMetaData → List Entry}
    (hmemtables : ∀ m ∈ db.memtables snap, Sorted m.entries)
    (hfiles : ∀ f ∈ snap.current.allFiles, f.Scanned dir faults (whole f) (seen f))
    (htypes : ∀ e ∈ db.entriesOf snap seen, e.HasType)
    (hdistinct : Distinct (db.entriesOf snap seen)) {fuel : Nat}
    (hfuel : (db.entriesOf snap seen).length < fuel) :
    ((db.newIterator dir faults snap).scan fuel).Pairwise (fun a b => a.1 < b.1) ∧
      (∀ key value, (key, value) ∈ (db.newIterator dir faults snap).scan fuel ↔
        IsVisible (db.entriesOf snap seen) snap.seq key value) ∧
      ((db.newIterator dir faults snap).scanEnd fuel).valid = false ∧
      (((db.newIterator dir faults snap).scanEnd fuel).status ≠ .ok ↔
        ∃ f ∈ snap.current.allFiles, ∃ r, f.openReader dir faults = .ok r ∧ r.HasUnreadBlock) := by
  obtain ⟨memPairs, memOks, hmem⟩ := sources_memtables hmemtables
  obtain ⟨tablePairs, tableOks, htable⟩ := sources_tables hfiles
  have hsources := hmem.append htable
  have hyields : ∀ p ∈ memPairs ++ tablePairs, Yields (InternalIterator.seekToFirst p.1) p.2 := by
    intro p hp
    obtain ⟨index, hindex, rfl⟩ := List.getElem_of_mem hp
    exact (hsources.ends.get hindex (by rw [← hsources.ends.length_eq]; exact hindex)).yields
  obtain ⟨merged, hmerged, hperm, hsorted⟩ :=
    MergingIterator.seekToFirst_sorted _ none hyields hsources.sorted
  rw [hsources.entries] at hperm
  have hdrains := (MergingIterator.seekToFirst_merged _ none hyields).drains
    (List.forall₂_map_left_iff.mpr hsources.ends) hmerged
  rw [hsources.iterators] at hdrains
  have hmem : ∀ e, e ∈ merged ↔ e ∈ db.entriesOf snap seen := fun e => hperm.mem_iff
  obtain ⟨hscan, iter, hiter, hstatus, hinvalid⟩ :=
    DBIterator.scan_drains hdrains (keysSorted_of_sorted hsorted) snap.seq
      (fun e he => htypes e ((hmem e).mp he)) (by rw [hperm.length_eq]; exact hfuel)
  have hnew : db.newIterator dir faults snap = DBIterator.new (some
      ⟨(db.memtables snap).map (fun m => .memtable m.newIterator) ++
        (snap.current.addIterators dir faults).map .table, none⟩) snap.seq := rfl
  rw [hnew, Version.addIterators]
  refine ⟨?_, fun key value => ?_, hinvalid, ?_⟩
  · rw [hscan]
    exact view_keys_lt (List.Pairwise.sublist List.filter_sublist (keysSorted_of_sorted hsorted))
  · rw [hscan, mem_view_upTo hsorted (hdistinct.mono fun e he => (hmem e).mp he)]
    exact ⟨IsVisible.of_mem_iff hmem, IsVisible.of_mem_iff fun e => (hmem e).symm⟩
  · rw [DBIterator.status, hiter, ← Status.isOk_eq_false, hstatus, hsources.errors, false_or]

def scratchedOrLost (t : WrittenTable) : FileMetaData :=
  if t.number = 6 then { t.file eagerOptions with reader := none } else scratched t

def scannedTables : List WrittenTable :=
  scratchedTables.map fun t => if t.number = 6 then { t with entries := [] } else t

def scratchedDB : DBImpl :=
  ⟨eagerOptions, { sixTablesSet with
    current := .ofTables scratchedOrLost sixTables, lastSequence := 11 },
    [(Memtable.new.add ⟨[102], 10, kTypeValue, [49]⟩).add ⟨[97], 11, kTypeDeletion, []⟩], 0, none,
    ⟨.log 3, true⟩, 3⟩

theorem scratchedOrLost_scanned {t : WrittenTable} (ht : t ∈ sixTables) :
    (scratchedOrLost t).Scanned ∅ (fun _ => none) (contentsOf sixTables (scratchedOrLost t))
      (contentsOf scannedTables (scratchedOrLost t)) := by
  have hlost : ∀ t ∈ sixTables, t.number = 6 →
      contentsOf scannedTables (scratchedOrLost t) = [] ∧
        ((scratchedOrLost t).openReader ∅ fun _ => none).isOk = false := by decide +kernel
  have hseen : ∀ t ∈ sixTables, t.number ≠ 6 →
      contentsOf scannedTables (scratched t) = contentsOf scratchedTables (scratched t) := by
    decide +kernel
  by_cases hnumber : t.number = 6
  · obtain ⟨hseen, hclosed⟩ := hlost t ht hnumber
    left
    cases hopen : (scratchedOrLost t).openReader ∅ fun _ => none with
    | error status => exact ⟨⟨status, rfl⟩, hseen⟩
    | ok r =>
      rw [hopen] at hclosed
      cases hclosed
  · right
    rw [scratchedOrLost, if_neg hnumber, hseen t ht hnumber]
    exact scratched_impaired _ _ ht

/-- A file of `oneEntry` that no one has opened yet. -/
def lostFile : FileMetaData := ⟨4, 100, oneEntry.userKey, oneEntry.userKey, none⟩

def lostDB : DBImpl :=
  ⟨oneFileOptions, { oneFileSet with
    current := ⟨fun level => if level = 0 then [lostFile] else []⟩ }, [.new], 0, none,
    ⟨.log 3, true⟩, 3⟩

theorem lostDB_memtables : ∀ m ∈ lostDB.memtables lostDB.capture, Sorted m.entries := by
  intro m hm
  rw [List.mem_singleton.mp hm]
  exact List.Pairwise.nil

theorem lostDB_scanned : ∀ f ∈ lostDB.capture.current.allFiles,
    f.Scanned ∅ (fun _ => none) [oneEntry] [] := by
  intro f hf
  obtain ⟨level, hf⟩ := Version.mem_allFiles.mp hf
  have hlost : f = lostFile := by
    by_cases hlevel : level = 0
    · simpa [lostDB, DBImpl.capture, hlevel] using hf
    · simp [lostDB, DBImpl.capture, hlevel] at hf
  rw [hlost]
  exact Or.inl ⟨⟨_, rfl⟩, rfl⟩

theorem lostDB_entries : lostDB.entriesOf lostDB.capture (fun _ => [oneEntry]) = [oneEntry] := rfl

end Strata
