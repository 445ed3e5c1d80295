import Strata.CompactionMeaning

/-! A compaction whose inputs have data blocks that cannot be read. Its iterator
passes over them, and nothing asks for the iterator's status. -/
namespace Strata

open Library System Layers Memtable

/-- The reader of a table that was written with these entries. Its index can be
read. Of each data block a forward pass shows a part: all of it, what parses in
front of the damage, or nothing where reading the block fails, as it does where
the block is above the limit of the reader. -/
structure SSTableReader.Damaged (r : SSTableReader) (l : Layout) (whole : List Entry)
    (parts : List (List Entry)) : Prop where
  written : l.Opens whole
  reads : r.indexBlock = Block.new l.index
  length : parts.length = l.blocks.length
  shows : ∀ j b, l.blocks[j]? = some b →
    r.Shows (l.handleOf j b).encodeTo (parts.getD j []) ∧ parts.getD j [] <+: b.2

/-- A file that opens. Of the entries it was written with, a pass shows `seen`. -/
def FileMetaData.Impaired (dir : Dir) (faults : Faults) (f : FileMetaData)
    (whole seen : List Entry) : Prop :=
  ∃ r l parts, f.openReader dir faults = .ok r ∧ r.Damaged l whole parts ∧ seen = parts.flatten

/-! What a damaged table shows. -/

theorem flatten_sublist {blocks : List DataBlock} {parts : List (List Entry)}
    (hlen : parts.length = blocks.length)
    (h : ∀ j b, blocks[j]? = some b → parts.getD j [] <+: b.2) :
    parts.flatten.Sublist (blocks.map Prod.snd).flatten := by
  induction blocks generalizing parts with
  | nil =>
    rw [List.eq_nil_of_length_eq_zero hlen]
    exact List.Sublist.refl _
  | cons b blocks ih =>
    obtain ⟨part, parts, rfl⟩ := List.exists_cons_of_length_eq_add_one hlen
    have hpart : part <+: b.2 := h 0 b rfl
    have hrest := ih (by simpa using hlen) fun j b' hb => h (j + 1) b' hb
    exact hpart.sublist.append hrest

theorem length_flatten_le {blocks : List DataBlock} {parts : List (List Entry)} {offset size : Nat}
    (hlen : parts.length = blocks.length)
    (h : ∀ j b, blocks[j]? = some b → (parts.getD j []).length ≤ b.1.length ∧
      (parts.getD j [] ≠ [] →
        offset + (bodyOf (blocks.take j)).length + b.1.length + 4 ≤ size)) :
    parts.flatten = [] ∨ offset + parts.flatten.length ≤ size := by
  induction blocks generalizing parts offset with
  | nil =>
    rw [List.eq_nil_of_length_eq_zero hlen]
    exact Or.inl rfl
  | cons b blocks ih =>
    obtain ⟨part, parts, rfl⟩ := List.exists_cons_of_length_eq_add_one hlen
    obtain ⟨hshort, hread⟩ := h 0 b rfl
    have htail : parts.length = blocks.length := by simpa using hlen
    have hrest : parts.flatten = [] ∨
        offset + (b.1.length + 4) + parts.flatten.length ≤ size := by
      refine ih htail fun j b' hb => ?_
      have hnext := h (j + 1) b' hb
      simp only [List.getD_cons_succ, List.take_succ_cons, Layout.bodyOf_cons,
        List.length_append, length_sealBlock] at hnext
      exact ⟨hnext.1, fun hne => by have := hnext.2 hne; omega⟩
    simp only [List.getD_cons_zero, List.take_zero] at hshort hread
    rw [List.flatten_cons, List.length_append]
    rcases hrest with hnil | hbound
    · rw [hnil, List.append_nil]
      by_cases hpart : part = []
      · exact Or.inl hpart
      · have := hread hpart
        simp only [List.length_nil]
        omega
    · omega

theorem readBlockFrom_bounds {data : Bytes} {fault : Option Nat} {size : Nat}
    {handle : BlockHandle} {block : Block} (h : readBlockFrom data fault size handle = .ok block) :
    handle.offset + handle.size + 4 ≤ data.length ∧ handle.size ≤ kMaxBlockSize := by
  unfold readBlockFrom at h
  simp only at h
  split at h
  · cases h
  · rename_i hlimits
    split at h
    · cases h
    · rename_i hlong
      have hlen : (pread data fault handle.offset (handle.size + 4)).length ≤
          data.length - handle.offset := by
        unfold pread
        cases fault <;> simp
        omega
      omega

namespace SSTableReader.Damaged

variable {r : SSTableReader} {l : Layout} {whole : List Entry} {parts : List (List Entry)}

theorem parts_shown (h : r.Damaged l whole parts) :
    r.Parts l.index (indexEntries 0 l.blocks) parts := by
  refine ⟨h.reads, h.written.index, ?_, fun j e he => ?_⟩
  · rw [h.length, Layout.length_indexEntries]
  · have hlt : j < l.blocks.length := by
      rw [← Layout.length_indexEntries 0]
      exact (List.getElem?_eq_some_iff.mp he).1
    have hb : l.blocks[j]? = some l.blocks[j] := List.getElem?_eq_getElem hlt
    rw [Layout.indexEntries_get hb 0, Option.some.injEq, Nat.zero_add] at he
    have hshows := (h.shows j _ hb).1
    rw [Layout.handleOf] at hshows
    rw [← he]
    exact hshows

theorem sublist (h : r.Damaged l whole parts) : parts.flatten.Sublist whole := by
  rw [h.written.entries]
  exact flatten_sublist h.length fun j b hb => (h.shows j b hb).2

theorem bounds (h : r.Damaged l whole parts) {j : Nat} {b : DataBlock}
    (hb : l.blocks[j]? = some b) (hne : parts.getD j [] ≠ []) :
    (bodyOf (l.blocks.take j)).length + b.1.length + 4 ≤ r.data.length ∧
      b.1.length ≤ kMaxBlockSize := by
  have hshows := (h.shows j b hb).1
  have hhandle : r.readHandle (l.handleOf j b).encodeTo = r.readBlock (l.handleOf j b) := by
    rw [SSTableReader.readHandle, Layout.decodeFrom_handleOf h.written.small hb]
    rfl
  generalize parts.getD j [] = shown at hne hshows
  cases hshows with
  | unread _ => exact absurd rfl hne
  | pass hread _ => exact readBlockFrom_bounds (hhandle.symm.trans hread)

theorem isBlock (h : r.Damaged l whole parts) {j : Nat} {b : DataBlock}
    (hb : l.blocks[j]? = some b) (hne : parts.getD j [] ≠ []) : IsBlock b.1 b.2 :=
  (h.written.blocks b (List.mem_of_getElem? hb)).2 (h.bounds hb hne).2

theorem seq_lt (h : r.Damaged l whole parts) {e : Entry} (he : e ∈ parts.flatten) :
    e.seq < 2 ^ 64 := by
  obtain ⟨part, hpart, he⟩ := List.mem_flatten.mp he
  obtain ⟨j, hj, rfl⟩ := List.getElem_of_mem hpart
  have hget : parts.getD j [] = parts[j] := by simp [List.getD_eq_getElem?_getD, hj]
  have hlt : j < l.blocks.length := h.length ▸ hj
  have hb : l.blocks[j]? = some l.blocks[j] := List.getElem?_eq_getElem hlt
  have hblock := h.isBlock hb (by rw [hget]; exact List.ne_nil_of_mem he)
  have hfront := (h.shows j _ hb).2
  rw [hget] at hfront
  exact hblock.seqs e (hfront.subset he)

theorem passes (h : r.Damaged l whole parts) : r.Passes parts.flatten := by
  apply SSTableReader.Passes.mk h.parts_shown.yields
  · exact List.Pairwise.sublist h.sublist h.written.sorted
  · have hlen : parts.flatten = [] ∨ 0 + parts.flatten.length ≤ r.data.length := by
      refine length_flatten_le h.length fun j b hb => ⟨?_, fun hne => ?_⟩
      · by_cases hne : parts.getD j [] = []
        · rw [hne]
          exact Nat.zero_le _
        · exact le_trans (h.shows j b hb).2.length_le (h.isBlock hb hne).length_le
      · have := (h.bounds hb hne).1
        omega
    have hsquare := Nat.le_mul_self r.data.length
    rcases hlen with hnil | hle
    · simp [hnil]
    · omega

end SSTableReader.Damaged

def SSTableReader.readableParts (r : SSTableReader) (l : Layout) : List (List Entry) :=
  l.blocks.mapIdx fun j b => if (r.readHandle (l.handleOf j b).encodeTo).isOk then b.2 else []

theorem SSTableReader.damaged_of_reads {r : SSTableReader} {l : Layout} {whole : List Entry}
    (hopens : l.Opens whole) (hindex : r.indexBlock = Block.new l.index)
    (hreads : ∀ p ∈ l.blocks.zipIdx, (r.readHandle (l.handleOf p.2 p.1).encodeTo).toOption = none ∨
      (r.readHandle (l.handleOf p.2 p.1).encodeTo).toOption = some (Block.new p.1.1)) :
    r.Damaged l whole (r.readableParts l) := by
  refine ⟨hopens, hindex, List.length_mapIdx, fun j b hb => ?_⟩
  have hpart : (r.readableParts l).getD j [] =
      if (r.readHandle (l.handleOf j b).encodeTo).isOk then b.2 else [] := by
    simp [SSTableReader.readableParts, List.getD_eq_getElem?_getD, List.getElem?_mapIdx, hb]
  have hmem : (b, j) ∈ l.blocks.zipIdx := List.mem_zipIdx_iff_getElem?.mpr hb
  rw [hpart]
  cases hread : r.readHandle (l.handleOf j b).encodeTo with
  | error status => exact ⟨SSTableReader.Shows.unread hread, List.nil_prefix⟩
  | ok block =>
    have hblock : block = Block.new b.1 := by
      rcases hreads (b, j) hmem with hnone | hsome
      · simp [hread, Except.toOption] at hnone
      · simpa [hread, Except.toOption] using hsome
    have hhandle := (Layout.decodeFrom_handleOf hopens.small hb)
    have hlimit : b.1.length ≤ kMaxBlockSize := by
      rw [SSTableReader.readHandle, hhandle] at hread
      exact (readBlockFrom_bounds hread).2
    have hisBlock := (hopens.blocks b (List.mem_of_getElem? hb)).2 hlimit
    rw [hblock] at hread
    exact ⟨SSTableReader.Shows.pass hread ((BlockIter.seekToFirst_at (Block.new b.1).newIterator
      hisBlock (Block.newIterator_over _)).yields hisBlock), List.prefix_refl _⟩

namespace Compaction

variable {c : Compaction} {whole seen : FileMetaData → List Entry}

def Newest (c : Compaction) (entries : FileMetaData → List Entry) (e : Entry) : Prop :=
  (∃ f ∈ c.inputs, e ∈ entries f) ∧
    ∀ f ∈ c.inputs, ∀ x ∈ entries f, x.userKey = e.userKey → x.seq ≤ e.seq

def Leaves (c : Compaction) (v : Version) (level : Fin kNumLevels) (f : FileMetaData) : Prop :=
  f ∈ v.files level ∧ ¬ ∃ g, c.Takes level g ∧ g.number = f.number

/-- The version has the newest entry of every key of the inputs, or the entry is a
tombstone that no level below needs, and the new tables do not have the key. -/
def KeepsNewest (c : Compaction) (vs : VersionSet) (whole : FileMetaData → List Entry)
    (v : Version) : Prop :=
  ∀ e, c.Newest whole e → (∃ level, ∃ f ∈ v.files level, e ∈ f.entries) ∨
    (e.type = kTypeDeletion ∧ c.isBaseLevelForKey e.userKey vs.current = true ∧
      ∀ f ∈ v.files c.target, vs.nextFileNumber ≤ f.number → ∀ x ∈ f.entries,
        x.userKey ≠ e.userKey)

/-- The compaction keeps what it had to keep, or it reports an error and leaves the
version and its inputs alone. -/
def Careful (c : Compaction) (vs : VersionSet) (whole : FileMetaData → List Entry) (before : Dir)
    (result : Status × VersionSet) (after : Dir) : Prop :=
  (result.1 = .ok ∧ c.KeepsNewest vs whole result.2.current) ∨
    (result.1 ≠ .ok ∧ result.2.current = vs.current ∧
      ∀ f ∈ c.inputs, after.lookup (.table f.number) = before.lookup (.table f.number))

/-- The damage spares this entry: it can be read, or another file of the version has
it, or it is a tombstone without use and what can be read of its key starts with
a tombstone. -/
def Spared (c : Compaction) (v : Version) (seen : FileMetaData → List Entry) (e : Entry) : Prop :=
  (∃ f ∈ c.inputs, e ∈ seen f) ∨ (∃ level f, c.Leaves v level f ∧ e ∈ f.entries) ∨
    (e.type = kTypeDeletion ∧ c.isBaseLevelForKey e.userKey v = true ∧
      ∀ x, c.Newest seen x → x.userKey = e.userKey → x.type = kTypeDeletion)

def Distinct (c : Compaction) (entries : FileMetaData → List Entry) : Prop :=
  ∀ f ∈ c.inputs, ∀ g ∈ c.inputs, ∀ a ∈ entries f, ∀ b ∈ entries g,
    a.userKey = b.userKey → a.seq = b.seq → a = b

section Kept

variable {v : Version} {merged : List Entry}
  (hperm : merged.Perm (c.inputs.map seen).flatten) (hsorted : Sorted merged)
  (hdistinct : c.Distinct seen)

include hperm in
theorem mem_shown {e : Entry} : e ∈ merged ↔ ∃ f ∈ c.inputs, e ∈ seen f := by
  rw [hperm.mem_iff, List.mem_flatten]
  simp

include hperm hsorted in
theorem kept_newest {e : Entry} (he : e ∈ c.kept v merged) : c.Newest seen e := by
  obtain ⟨hmem, _, htop⟩ := kept_top hsorted he
  exact ⟨(mem_shown hperm).mp hmem, fun f hf x hx hkey =>
    htop x ((mem_shown hperm).mpr ⟨f, hf, hx⟩) hkey⟩

theorem kept_needed {e : Entry} (he : e ∈ c.kept v merged) :
    ¬ (e.type = kTypeDeletion ∧ c.isBaseLevelForKey e.userKey v = true) :=
  of_decide_eq_true (List.mem_filter.mp he).2

include hperm hsorted hdistinct in
/-- The newest entry that is seen of a key is kept, unless it is a tombstone without
use, and then nothing of the key is kept. -/
theorem kept_of_newest {e : Entry} (h : c.Newest seen e) : e ∈ c.kept v merged ∨
    (e.type = kTypeDeletion ∧ c.isBaseLevelForKey e.userKey v = true ∧
      ∀ x ∈ c.kept v merged, x.userKey ≠ e.userKey) := by
  obtain ⟨⟨f, hf, he⟩, htop⟩ := h
  have hequal : ∀ x ∈ merged, x.userKey = e.userKey → e.seq ≤ x.seq → x = e := by
    intro x hx hkey hle
    obtain ⟨g, hg, hx⟩ := (mem_shown hperm).mp hx
    exact hdistinct g hg f hf x hx e he hkey (Nat.le_antisymm (htop g hg x hx hkey) hle)
  rcases kept_covered (c := c) (v := v) hsorted ((mem_shown hperm).mpr ⟨f, hf, he⟩) with
    ⟨x, hx, hkey, hle⟩ | ⟨hnone, hbase, x, hx, hkey, hdead, hle⟩
  · rw [← hequal x (kept_top hsorted hx).1 hkey hle]
    exact Or.inl hx
  · rw [← hequal x hx hkey hle] at hbase hnone ⊢
    exact Or.inr ⟨hdead, hbase, hnone⟩

include hperm hsorted in
theorem keepsNewest_iff {vs : VersionSet} {outputs : List FileMetaData} {v' : Version}
    (hnumbers : ∀ f ∈ vs.current.allFiles, f.number < vs.nextFileNumber)
    (hseen : ∀ f ∈ c.inputs, ∀ e ∈ seen f, e ∈ whole f) (hwhole : c.Distinct whole)
    (houtputs : Outputs vs.nextFileNumber (c.kept vs.current merged) outputs)
    (hfiles : ∀ level f, f ∈ v'.files level ↔
      c.Leaves vs.current level f ∨ (level = c.target ∧ f ∈ outputs)) :
    c.KeepsNewest vs whole v' ↔ ∀ e, c.Newest whole e → c.Spared vs.current seen e := by
  have hdistinct : c.Distinct seen := fun f hf g hg a ha b hb =>
    hwhole f hf g hg a (hseen f hf a ha) b (hseen g hg b hb)
  have hkept : ∀ e, e ∈ c.kept vs.current merged ↔ ∃ f ∈ outputs, e ∈ f.entries := by
    intro e
    rw [← houtputs.entries, List.mem_flatten, Version.sources]
    simp
  have hout : ∀ f ∈ outputs, f ∈ v'.files c.target := fun f hf =>
    (hfiles c.target f).mpr (Or.inr ⟨rfl, hf⟩)
  have hnew : ∀ f ∈ v'.files c.target, vs.nextFileNumber ≤ f.number → f ∈ outputs := by
    intro f hf hnumber
    rcases (hfiles c.target f).mp hf with hleaves | ⟨_, hf⟩
    · have := hnumbers f (Version.mem_allFiles.mpr ⟨_, hleaves.1⟩)
      omega
    · exact hf
  constructor
  · intro hkeeps e he
    rcases hkeeps e he with ⟨level, f, hf, hef⟩ | ⟨hdead, hbase, hnone⟩
    · rcases (hfiles level f).mp hf with hleaves | ⟨_, hf⟩
      · exact Or.inr (Or.inl ⟨level, f, hleaves, hef⟩)
      · exact Or.inl (kept_newest hperm hsorted ((hkept e).mpr ⟨f, hf, hef⟩)).1
    · refine Or.inr (Or.inr ⟨hdead, hbase, fun x hx hkey => ?_⟩)
      rcases kept_of_newest hperm hsorted hdistinct hx with hx | ⟨hdead', _⟩
      · obtain ⟨f, hf, hxf⟩ := (hkept x).mp hx
        exact absurd hkey (hnone f (hout f hf) (houtputs.fresh f hf) x hxf)
      · exact hdead'
  · intro hspared e he
    rcases hspared e he with hread | ⟨level, f, hleaves, hef⟩ | ⟨hdead, hbase, hrest⟩
    · have hnewest : c.Newest seen e :=
        ⟨hread, fun f hf x hx => he.2 f hf x (hseen f hf x hx)⟩
      rcases kept_of_newest hperm hsorted hdistinct hnewest with hin | ⟨hdead, hbase, hnone⟩
      · obtain ⟨f, hf, hef⟩ := (hkept e).mp hin
        exact Or.inl ⟨c.target, f, hout f hf, hef⟩
      · exact Or.inr ⟨hdead, hbase, fun f hf hnumber x hx =>
          hnone x ((hkept x).mpr ⟨f, hnew f hf hnumber, hx⟩)⟩
    · exact Or.inl ⟨level, f, (hfiles level f).mpr (Or.inl hleaves), hef⟩
    · refine Or.inr ⟨hdead, hbase, fun f hf hnumber x hx hkey => ?_⟩
      have hin := (hkept x).mpr ⟨f, hnew f hf hnumber, hx⟩
      exact kept_needed hin ⟨hrest x (kept_newest hperm hsorted hin) hkey, hkey ▸ hbase⟩

end Kept

end Compaction

/-! The run. -/

section Run

variable {assume : Assume FileName} {dir : Dir}

theorem logAndApply_noFail (hnofail : assume.NoFail) {vs : VersionSet} {edit : VersionEdit}
    (hopened : ∀ w, vs.descriptorLog = some w → w.opened = true)
    (hlevels : ∀ item ∈ edit.newFiles, item.1 < kNumLevels) :
    Runs assume dir (vs.logAndApply edit) (fun result _ => result.1 = .ok ∧
      ∃ seen faults, result.2.current = vs.installEdit (vs.completeEdit edit) seen faults)
      fun _ => True := by
  cases hdescriptor : vs.descriptorLog with
  | some w =>
    apply (VersionSet.logAndApply_append hnofail hdescriptor (hopened w hdescriptor) hlevels
      fun _ _ => trivial).weaken _ fun _ h => h
    rintro ⟨status, vs'⟩ after ⟨hstatus, ⟨faults, _, rfl⟩, _⟩
    exact ⟨hstatus, dir, faults, rfl⟩
  | none =>
    apply (VersionSet.logAndApply_create hnofail hdescriptor hlevels
      (fun _ _ => trivial) fun _ _ _ _ _ => trivial).weaken _ fun _ h => h
    rintro ⟨status, vs'⟩ after ⟨hstatus, ⟨faults, _, rfl⟩, _⟩
    exact ⟨hstatus, dir, faults, rfl⟩

theorem installOutputs_noFail (hnofail : assume.NoFail) (c : Compaction) {vs : VersionSet}
    (hopened : ∀ w, vs.descriptorLog = some w → w.opened = true) (outputs : List FileMetaData) :
    Runs assume dir (c.installOutputs vs outputs) (fun result _ => result.1 = .ok ∧
      ∃ seen faults, result.2.current =
        vs.installEdit (vs.completeEdit (c.edit outputs)) seen faults) fun _ => True := by
  have hlevels : ∀ item ∈ (c.edit outputs).newFiles, item.1 < kNumLevels := by
    intro item hitem
    rw [Compaction.newFiles_edit] at hitem
    obtain ⟨f, _, rfl⟩ := List.mem_map.mp hitem
    exact c.target.isLt
  unfold Compaction.installOutputs
  refine Runs.bind syncDirectory_any.of_any fun _ after _ => ?_
  refine Runs.bind (logAndApply_noFail hnofail hopened hlevels) ?_
  rintro ⟨status, vs'⟩ last ⟨hok, hcurrent⟩
  simp only at hok hcurrent
  subst hok
  simp only [Status.isOk_ok, Bool.not_true, Bool.false_eq_true, ↓reduceIte]
  refine Runs.bind (unlinkTables_any _).of_any fun _ _ _ => ?_
  refine Runs.bind syncDirectory_any.of_any fun _ _ _ => ?_
  exact Runs.ret ⟨rfl, hcurrent⟩

end Run

/-- Every call succeeds and keeps to the limits. The reads are as the faults say,
which spare the tables. -/
def tidy (faults : Faults) : Assume FileName :=
  ⟨fun now => now = faults, fun e => e.outcome = .ok ∧ WithinLimits e.call, False⟩

theorem tidy_noFail (faults : Faults) : (tidy faults).NoFail := fun _ _ h => nomatch h.1

/-- The first byte of table 8 has changed, which is in the block of a version that a
newer table deletes. -/
def scratched (t : WrittenTable) : FileMetaData :=
  { t.file eagerOptions with
    reader := some { (layoutOf eagerOptions t.entries).reader t.number with
      data := if t.number = 8 then (layoutOf eagerOptions t.entries).image.set 0 255
        else (layoutOf eagerOptions t.entries).image } }

def scratchedTables : List WrittenTable :=
  sixTables.map fun t => if t.number = 8 then { t with entries := t.entries.drop 1 } else t

theorem scratched_impaired (dir : Dir) (faults : Faults) {t : WrittenTable} (ht : t ∈ sixTables) :
    (scratched t).Impaired dir faults (contentsOf sixTables (scratched t))
      (contentsOf scratchedTables (scratched t)) := by
  have hreads : ∀ t ∈ sixTables, ∀ r, (scratched t).reader = some r →
      ∀ p ∈ (layoutOf eagerOptions t.entries).blocks.zipIdx,
        (r.readHandle ((layoutOf eagerOptions t.entries).handleOf p.2 p.1).encodeTo).toOption = none ∨
        (r.readHandle ((layoutOf eagerOptions t.entries).handleOf p.2 p.1).encodeTo).toOption =
          some (Block.new p.1.1) := by
    decide +kernel
  have hseen : ∀ t ∈ sixTables, ∀ r, (scratched t).reader = some r →
      contentsOf scratchedTables (scratched t) =
        (r.readableParts (layoutOf eagerOptions t.entries)).flatten := by
    decide +kernel
  rw [contentsOf_eq sixTables_ordered ht rfl]
  exact ⟨_, layoutOf eagerOptions t.entries, _, rfl, SSTableReader.damaged_of_reads
    (sixTables_fit t ht).valid.opens rfl (hreads t ht _ rfl), hseen t ht _ rfl⟩

def scratchedSet : VersionSet :=
  { sixTablesSet with current := .ofTables scratched sixTables }

def scratchedCompaction : Compaction :=
  ⟨0, (sixTables.take 2).map scratched, ((sixTables.drop 2).take 1).map scratched⟩

theorem mem_scratchedCompaction {f : FileMetaData} (hf : f ∈ scratchedCompaction.inputs) :
    ∃ t ∈ sixTables, scratched t = f := by
  rw [Compaction.inputs, scratchedCompaction, ← List.map_append] at hf
  obtain ⟨t, ht, rfl⟩ := List.mem_map.mp hf
  rcases List.mem_append.mp ht with ht | ht
  · exact ⟨t, List.mem_of_mem_take ht, rfl⟩
  · exact ⟨t, List.mem_of_mem_drop (List.mem_of_mem_take ht), rfl⟩

def unreadableFile : FileMetaData :=
  { WrittenTable.file oneFileOptions ⟨0, 4, [oneEntry]⟩ with
    reader := some { (layoutOf oneFileOptions [oneEntry]).reader 4 with fault := some 0 } }

def unreadableSet : VersionSet :=
  { oneFileSet with current := ⟨fun level => if level = 0 then [unreadableFile] else []⟩ }

def unreadableCompaction : Compaction := ⟨0, [unreadableFile], []⟩

theorem unreadableFile_impaired (dir : Dir) (faults : Faults) :
    unreadableFile.Impaired dir faults [oneEntry] [] :=
  ⟨_, layoutOf oneFileOptions [oneEntry], _, rfl, SSTableReader.damaged_of_reads
    (oneTable_fits _ (List.mem_singleton_self _)).valid.opens rfl (by decide +kernel),
    by decide +kernel⟩

theorem unreadableSet_mem {f : FileMetaData} (hf : f ∈ unreadableCompaction.inputs) :
    f = unreadableFile := by
  simpa [unreadableCompaction, Compaction.inputs] using hf

theorem unreadableSet_numbers :
    ∀ f ∈ unreadableSet.current.allFiles, f.number < unreadableSet.nextFileNumber := by
  intro f hf
  obtain ⟨level, hf⟩ := Version.mem_allFiles.mp hf
  by_cases hlevel : level = 0
  · have hone : f = unreadableFile := by simpa [unreadableSet, hlevel] using hf
    rw [hone]
    decide
  · simp [unreadableSet, hlevel] at hf

end Strata
