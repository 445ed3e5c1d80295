import Strata.Compacted
import Strata.Level0
import Strata.WrittenVersions

/-! A compaction as it runs: the files it writes while it walks over the merged
inputs, and the directory it leaves behind at every point. -/
namespace Strata

open Library System Layers Memtable

variable {assume : Assume FileName} {dir : Dir} {C : Dir → Prop}

def OnlyTables (least : Nat) (before after : Dir) : Prop :=
  ∀ name, (∀ number, least ≤ number → name ≠ .table number) → after.lookup name = before.lookup name

namespace OnlyTables

variable {least : Nat} {before after : Dir}

theorem refl (least : Nat) (dir : Dir) : OnlyTables least dir dir := fun _ _ => rfl

theorem insert (h : OnlyTables least before after) {number : Nat} (hnumber : least ≤ number)
    (bytes : Bytes) : OnlyTables least before (after.insert (.table number) bytes) := by
  intro name hname
  rw [lookup_insert_other (hname number hnumber), h name hname]

end OnlyTables

/-- The table of a file is in the directory, and opening it gives the file's reader. -/
def FileMetaData.Stored (dir : Dir) (f : FileMetaData) : Prop :=
  ∃ r, f.reader = some r ∧
    SSTableReader.openTable (dir.lookup (.table f.number)) none f.number f.fileSize = .ok r

theorem FileMetaData.Stored.insert {f : FileMetaData} (h : f.Stored dir) {name : FileName}
    (hname : name ≠ .table f.number) (bytes : Bytes) : f.Stored (dir.insert name bytes) := by
  obtain ⟨r, hreader, hopen⟩ := h
  exact ⟨r, hreader, by rwa [lookup_insert_other hname.symm]⟩

theorem FileMetaData.Sound.fileSize_lt {f : FileMetaData} (h : f.Sound) {dir : Dir}
    (hstored : f.Stored dir) : f.fileSize < 2 ^ 64 := by
  obtain ⟨reader, hreader, l, number, hvalid, rfl⟩ := h.reader
  obtain ⟨other, hother, hopen⟩ := hstored
  rw [hreader, Option.some.injEq] at hother
  subst hother
  rw [← SSTableReader.openTable_fileSize hopen]
  exact hvalid.small

structure SSTableReader.Passes (r : SSTableReader) (shown : List Entry) : Prop where
  yields : Yields r.newIterator.seekToFirst shown
  sorted : Sorted shown
  length_le : shown.length ≤ r.data.length * r.data.length

theorem SSTableReader.Serves.passes {r : SSTableReader} {es : List Entry} (h : r.Serves es) :
    r.Passes es := by
  apply SSTableReader.Passes.mk h.yields h.sorted
  obtain ⟨l, number, hvalid, rfl⟩ := h
  exact le_trans hvalid.length_le (Nat.le_mul_self l.image.length)

theorem openInputs_passes {files : List FileMetaData} {shown : FileMetaData → List Entry}
    {faults : Faults}
    (h : ∀ f ∈ files, ∃ r, f.openReader dir faults = .ok r ∧ r.Passes (shown f)) :
    ∃ pairs : List (SSTableReader × List Entry),
      openInputs dir faults files = .ok (pairs.map Prod.fst) ∧
      pairs.map Prod.snd = files.map shown ∧ ∀ p ∈ pairs, p.1.Passes p.2 := by
  induction files with
  | nil => exact ⟨[], rfl, rfl, by simp⟩
  | cons f rest ih =>
    obtain ⟨r, hopen, hpasses⟩ := h f (by simp)
    obtain ⟨pairs, hrest, hsources, hall⟩ := ih fun g hg => h g (by simp [hg])
    refine ⟨(r, shown f) :: pairs, ?_, ?_, ?_⟩
    · rw [openInputs, hopen, hrest]
      rfl
    · rw [List.map_cons, hsources]
      rfl
    · intro p hp
      rcases List.mem_cons.mp hp with rfl | hp
      · exact hpasses
      · exact hall p hp

theorem FileMetaData.Sound.passes {f : FileMetaData} (h : f.Sound) (dir : Dir) (faults : Faults) :
    ∃ r, f.openReader dir faults = .ok r ∧ r.Passes f.entries := by
  obtain ⟨r, hopen, hserves⟩ := h.openReader dir faults
  exact ⟨r, hopen, hserves.passes⟩

theorem merge_readers {pairs : List (SSTableReader × List Entry)}
    (h : ∀ p ∈ pairs, p.1.Passes p.2) (hne : pairs ≠ []) :
    ∃ iter merged, newMergingIterator ((pairs.map Prod.fst).map SSTableReader.newIterator) =
        some iter ∧ Yields iter.seekToFirst merged ∧
      merged.Perm (pairs.map Prod.snd).flatten ∧ Sorted merged := by
  have hsorted := MergingIterator.seekToFirst_sorted
    (pairs.map fun p => (p.1.newIterator, p.2)) none
    (fun p hp => by
      obtain ⟨q, hq, rfl⟩ := List.mem_map.mp hp
      exact (h q hq).yields)
    fun p hp => by
      obtain ⟨q, hq, rfl⟩ := List.mem_map.mp hp
      exact (h q hq).sorted
  obtain ⟨merged, hyields, hperm, hmerged⟩ := hsorted
  rw [List.map_map] at hyields hperm
  refine ⟨_, merged, ?_, hyields, hperm, hmerged⟩
  rw [newMergingIterator, if_neg (by simpa using hne), List.map_map]
  rfl

theorem merged_length_lt {pairs : List (SSTableReader × List Entry)} {merged : List Entry}
    (h : ∀ p ∈ pairs, p.1.Passes p.2) (hperm : merged.Perm (pairs.map Prod.snd).flatten) :
    merged.length < scanFuel (pairs.map Prod.fst) := by
  have hsum : (pairs.map Prod.snd).flatten.length ≤
      ((pairs.map Prod.fst).map fun r => r.data.length * r.data.length + 1).sum := by
    clear hperm
    induction pairs with
    | nil => simp
    | cons p rest ih =>
      have hrest := ih fun q hq => h q (by simp [hq])
      have hlen := (h p (by simp)).length_le
      simp only [List.map_cons, List.flatten_cons, List.length_append, List.sum_cons]
      omega
  rw [hperm.length_eq, scanFuel]
  omega

/-- Entries a table can take: in the order of distinct keys, each allowed. -/
structure Writable (allowed : Entry → Prop) (es : List Entry) : Prop where
  keys : es.Pairwise fun a b => a.userKey < b.userKey
  allowed : ∀ e ∈ es, allowed e
  types : ∀ e ∈ es, e.HasType

theorem Writable.sublist {allowed : Entry → Prop} {es part : List Entry}
    (h : Writable allowed es) (hsub : part.Sublist es) : Writable allowed part :=
  ⟨h.keys.sublist hsub, fun e he => h.allowed e (hsub.subset he),
    fun e he => h.types e (hsub.subset he)⟩

theorem Writable.sorted {allowed : Entry → Prop} {es : List Entry} (h : Writable allowed es) :
    Sorted es :=
  h.keys.imp fun {a b} hlt hbefore => by
    rcases hbefore with hlt' | ⟨heq, _⟩
    · exact absurd hlt' (lt_asymm hlt)
    · exact absurd heq.symm (ne_of_lt hlt)

namespace CompactionState

open Compaction

/-- Where a compaction stands: `written` is in finished files, `current` in the
file that is being written over the directory `base`. -/
structure Progress (assume : Assume FileName) (options : Options) (vs : VersionSet)
    (start : Dir) (next : Nat) (base : Dir) (written current : List Entry) (st : CompactionState)
    (dir : Dir) : Prop where
  versions : st.versions = { vs with nextFileNumber := next }
  least : vs.nextFileNumber ≤ next
  created : next = vs.nextFileNumber ∨ assume.calls (.create (.table (next - 1)))
  outputs : Outputs vs.nextFileNumber written st.outputs
  stored : ∀ f ∈ st.outputs, f.Stored base
  frame : OnlyTables vs.nextFileNumber start base
  builder : (st.builder = none ∧ current = [] ∧ dir = base ∧ ∀ f ∈ st.outputs, f.number < next) ∨
    ∃ b, st.builder = some b ∧ current ≠ [] ∧ b.filename = .table st.currentFileNumber ∧
      st.currentFileNumber + 1 = next ∧ vs.nextFileNumber ≤ st.currentFileNumber ∧
      SSTableBuilder.Writing assume options base dir b current ∧
      ∀ f ∈ st.outputs, f.number < st.currentFileNumber

variable {options : Options} {vs : VersionSet} {start base : Dir} {next : Nat}
  {written current : List Entry} {st : CompactionState} {allowed : Entry → Prop} {rejected : Prop}

theorem finishOutputFile_progress (htables : Tables assume options allowed rejected)
    (h : Progress assume options vs start next base written current st dir)
    (hwritable : Writable allowed current)
    (hcrash : ∀ left, OnlyTables vs.nextFileNumber start left → C left) :
    Runs assume dir (st.finishOutputFile options)
      (fun result after => (result.1 = .ok ∧ result.2.lastKey = st.lastKey ∧
          Progress assume options vs start next after (written ++ current) [] result.2 after) ∨
        (result.1 ≠ .ok ∧ rejected)) C := by
  unfold finishOutputFile
  rcases h.builder with ⟨hnone, rfl, rfl, hbelow⟩ |
    ⟨b, hsome, hne, hname, hnumber, hleast, hwriting, hbelow⟩
  · simp only [hnone]
    refine Runs.ret (Or.inl ⟨rfl, rfl, ?_⟩)
    rw [List.append_nil]
    exact { h with builder := Or.inl ⟨hnone, rfl, rfl, hbelow⟩ }
  · simp only [hsome]
    have hcount : b.numEntries ≠ 0 := by
      rw [hwriting.holds.numEntries]
      exact mt List.length_eq_zero_iff.mp hne
    rw [if_neg hcount]
    refine Runs.bind (SSTableBuilder.finish_ok (hname ▸ htables.sure _) hwriting
      fun bytes => hcrash _ (hname ▸ h.frame.insert hleast bytes)) ?_
    rintro ⟨status, done⟩ after ⟨rfl, hsize, hsmallest, hlargest, rfl, hwrote⟩
    rw [hname] at hwrote ⊢
    simp only at hsize hsmallest hlargest
    simp only [Status.isOk_ok, Bool.not_true, Bool.false_eq_true, ↓reduceIte]
    refine Runs.bind (Runs.readDir (Q := fun seen now => seen = base.insert
      (.table st.currentFileNumber) (layoutOf options current).image ∧ now = seen) ⟨rfl, rfl⟩) ?_
    rintro seen now ⟨rfl, rfl⟩
    refine Runs.bind (Runs.readFaults (Q := fun faults now => assume.faults faults ∧
      now = base.insert (.table st.currentFileNumber) (layoutOf options current).image)
      fun faults hfaults => ⟨hfaults, rfl⟩) ?_
    rintro faults now ⟨hfaults, rfl⟩
    simp only [lookup_insert_self, hsize, htables.readable faults hfaults]
    cases hopen : openWritten options current none st.currentFileNumber with
    | error status =>
      have hrejected := htables.opens _ _ _ hwritable.sorted hwritable.allowed hwrote hopen
      rw [openWritten] at hopen
      simp only [hopen]
      refine Runs.ret (Or.inr ⟨?_, hrejected⟩)
      rintro rfl
      exact SSTableReader.openTable_ne_ok _ _ _ _ hopen
    | ok reader =>
      have hserves := htables.serves _ _ _ hwritable.sorted hwritable.allowed hwrote hopen
      rw [openWritten] at hopen
      simp only [hopen]
      refine Runs.ret (Or.inl ⟨rfl, rfl, ?_⟩)
      obtain ⟨hsound, hentries⟩ := FileMetaData.sound_written options
        st.currentFileNumber hserves hwritable.types
      have hfile : (⟨st.currentFileNumber, (layoutOf options current).image.length,
          done.smallestKey, done.largestKey, some reader⟩ : FileMetaData) =
          writtenFile options current st.currentFileNumber reader := by
        rw [hsmallest, hlargest, writtenFile]
      rw [hfile]
      have hnew : ∀ {f}, f ∈ st.outputs ++ [writtenFile options current st.currentFileNumber reader] →
          f ∈ st.outputs ∨ f = writtenFile options current st.currentFileNumber reader := fun hf =>
        (List.mem_append.mp hf).imp id List.mem_singleton.mp
      refine ⟨h.versions, h.least, h.created, ⟨?_, ?_, ?_, ?_, ?_⟩, ?_, h.frame.insert hleast _,
        Or.inl ⟨rfl, rfl, rfl, ?_⟩⟩
      · intro f hf
        rcases hnew hf with hf | rfl
        · exact h.outputs.sound f hf
        · exact hsound
      · intro f hf
        rcases hnew hf with hf | rfl
        · exact h.outputs.nonempty f hf
        · rwa [hentries]
      · rw [Version.sources_append, List.flatten_append, h.outputs.entries]
        simp [Version.sources, hentries]
      · rw [List.pairwise_append]
        refine ⟨h.outputs.ascending, List.pairwise_singleton _ _, fun f hf g hg => ?_⟩
        rw [List.mem_singleton] at hg
        subst hg
        exact hbelow f hf
      · intro f hf
        rcases hnew hf with hf | rfl
        · exact h.outputs.fresh f hf
        · exact hleast
      · intro f hf
        rcases hnew hf with hf | rfl
        · have hne' : f.number ≠ st.currentFileNumber := ne_of_lt (hbelow f hf)
          exact (h.stored f hf).insert (by simpa using hne'.symm) _
        · refine ⟨reader, rfl, ?_⟩
          simp only [writtenFile, lookup_insert_self]
          exact hopen
      · intro f hf
        rcases hnew hf with hf | rfl
        · have hlt := hbelow f hf
          omega
        · change st.currentFileNumber < next
          omega

structure Opened (assume : Assume FileName) (options : Options) (vs : VersionSet) (base : Dir)
    (current : List Entry) (st : CompactionState) (result : SSTableBuilder × CompactionState)
    (dir : Dir) : Prop where
  lastKey : result.2.lastKey = st.lastKey
  outputs : result.2.outputs = st.outputs
  versions : result.2.versions = { vs with nextFileNumber := result.2.currentFileNumber + 1 }
  created : assume.calls (.create (.table result.2.currentFileNumber))
  filename : result.1.filename = .table result.2.currentFileNumber
  least : vs.nextFileNumber ≤ result.2.currentFileNumber
  writing : SSTableBuilder.Writing assume options base dir result.1 current
  below : ∀ f ∈ st.outputs, f.number < result.2.currentFileNumber

theorem ensureOutputFile_opened (htables : Tables assume options allowed rejected)
    (h : Progress assume options vs start next base written current st dir)
    (hcrash : ∀ left, OnlyTables vs.nextFileNumber start left → C left) :
    Runs assume dir st.ensureOutputFile (Opened assume options vs base current st) C := by
  unfold ensureOutputFile
  rcases h.builder with ⟨hnone, rfl, rfl, hbelow⟩ |
    ⟨b, hsome, hne, hname, hnumber, hleast, hwriting, hbelow⟩
  · have hnext : st.versions.nextFileNumber = next := by rw [h.versions]
    simp only [hnone, openNewOutputFile, VersionSet.newFileNumber, hnext]
    refine Runs.bind (SSTableBuilder.new_writing options (htables.sure _) (hcrash _ h.frame)) ?_
    rintro b after ⟨hname, hcreate, hwriting⟩
    exact Runs.ret ⟨rfl, rfl, by simp only [h.versions], hcreate, hname, h.least, hwriting, hbelow⟩
  · simp only [hsome]
    refine Runs.ret ⟨rfl, rfl, by rw [h.versions, hnumber], ?_, hname, hleast, hwriting, hbelow⟩
    rcases h.created with heq | hcreate
    · omega
    · rwa [← hnumber, Nat.add_sub_cancel] at hcreate

theorem addEntry_progress (htables : Tables assume options allowed rejected)
    (h : Progress assume options vs start next base written current st dir) {e : Entry}
    (hwritable : Writable allowed (written ++ current ++ [e]))
    (hcrash : ∀ left, OnlyTables vs.nextFileNumber start left → C left) :
    Runs assume dir (st.addEntry options e)
      (fun result after => (result.1 = .ok ∧ result.2.lastKey = st.lastKey ∧
          ∃ next base written' current', written' ++ current' = written ++ current ++ [e] ∧
            Progress assume options vs start next base written' current' result.2 after) ∨
        (result.1 ≠ .ok ∧ rejected)) C := by
  unfold addEntry
  refine Runs.bind (ensureOutputFile_opened htables h hcrash) ?_
  rintro ⟨b, st'⟩ after ⟨hlast, hsame, hversions, hcreate, hname, hleast, hwriting, hbelow⟩
  simp only at hlast hsame hversions hcreate hname hleast hbelow hwriting ⊢
  refine Runs.bind (SSTableBuilder.add_writing (hname ▸ htables.sure _) hwriting
    (fun bytes => hcrash _ (hname ▸ h.frame.insert hleast bytes)) e) ?_
  rintro b' last ⟨hname', hadded⟩
  have hopen : Progress assume options vs start (st'.currentFileNumber + 1) base written
      (current ++ [e]) { st' with builder := some b' } last := by
    refine ⟨hversions, Nat.le_succ_of_le hleast, Or.inr hcreate, ?_, ?_, h.frame, Or.inr ⟨b', rfl,
      by simp, hname'.trans hname, rfl, hleast, hadded, ?_⟩⟩
    · simpa only [hsame] using h.outputs
    · simpa only [hsame] using h.stored
    · simpa only [hsame] using hbelow
  have hcurrent : Writable allowed (current ++ [e]) := by
    rw [List.append_assoc] at hwritable
    exact hwritable.sublist (List.sublist_append_right _ _)
  split
  · refine Runs.weaken (finishOutputFile_progress htables hopen hcurrent hcrash) ?_ fun _ h => h
    rintro result final (⟨hok, hkey, hdone⟩ | herror)
    · exact Or.inl ⟨hok, hkey.trans hlast, _, final, _, [], by simp, hdone⟩
    · exact Or.inr herror
  · exact Runs.ret (Or.inl ⟨rfl, hlast, _, base, written, current ++ [e], by simp, hopen⟩)

variable {c : Compaction}

theorem step_progress (htables : Tables assume options allowed rejected)
    (h : Progress assume options vs start next base written current st dir) {e : Entry}
    {rest : List Entry}
    (hwritable : Writable allowed (written ++ current ++ c.keptAfter vs.current st.lastKey (e :: rest)))
    (hcrash : ∀ left, OnlyTables vs.nextFileNumber start left → C left) :
    Runs assume dir (st.step options c e)
      (fun result after => (result.1 = .ok ∧
          ∃ next base written' current',
            written' ++ current' ++ c.keptAfter vs.current result.2.lastKey rest =
              written ++ current ++ c.keptAfter vs.current st.lastKey (e :: rest) ∧
            Progress assume options vs start next base written' current' result.2 after) ∨
        (result.1 ≠ .ok ∧ rejected)) C := by
  have hcurrent : st.versions.current = vs.current := by rw [h.versions]
  have hkept : c.keptAfter vs.current st.lastKey (e :: rest) =
      if st.lastKey = some e.userKey then c.keptAfter vs.current st.lastKey rest
      else if e.type = kTypeDeletion ∧ c.isBaseLevelForKey e.userKey vs.current then
        c.keptAfter vs.current (some e.userKey) rest
      else e :: c.keptAfter vs.current (some e.userKey) rest := by
    simp only [keptAfter, firsts]
    split
    · rfl
    · rw [List.filter_cons]
      split <;> split <;> simp_all
  have hkeyed : Progress assume options vs start next base written current
      { st with lastKey := some e.userKey } dir := ⟨h.versions, h.least, h.created, h.outputs,
    h.stored, h.frame, h.builder⟩
  unfold step
  by_cases hlast : st.lastKey = some e.userKey
  · rw [if_pos hlast, hkept, if_pos hlast]
    exact Runs.ret (Or.inl ⟨rfl, next, base, written, current, rfl, h⟩)
  · simp only [if_neg hlast, hcurrent] at hkept ⊢
    by_cases hdrop : e.type = kTypeDeletion ∧ c.isBaseLevelForKey e.userKey vs.current
    · rw [if_pos hdrop, hkept, if_pos hdrop]
      exact Runs.ret (Or.inl ⟨rfl, next, base, written, current, rfl, hkeyed⟩)
    · rw [if_neg hdrop] at hkept ⊢
      rw [hkept] at hwritable ⊢
      have hpart : Writable allowed (written ++ current ++ [e]) := by
        have hsplit : written ++ current ++ e :: c.keptAfter vs.current (some e.userKey) rest =
            written ++ current ++ [e] ++ c.keptAfter vs.current (some e.userKey) rest := by simp
        rw [hsplit] at hwritable
        exact hwritable.sublist (List.sublist_append_left _ _)
      refine Runs.weaken (addEntry_progress htables hkeyed hpart hcrash) ?_ fun _ h => h
      rintro result after (⟨hok, hkey, next', base', written', current', hsplit, hdone⟩ | herror)
      · refine Or.inl ⟨hok, next', base', written', current', ?_, hdone⟩
        rw [hkey, hsplit]
        simp
      · exact Or.inr herror

theorem loop_progress (htables : Tables assume options allowed rejected)
    {it : MergingIterator TwoLevelIterator} {rest : List Entry} (hyields : Yields it rest)
    {fuel : Nat} (hfuel : rest.length < fuel)
    (h : Progress assume options vs start next base written current st dir)
    (hwritable : Writable allowed (written ++ current ++ c.keptAfter vs.current st.lastKey rest))
    (hcrash : ∀ left, OnlyTables vs.nextFileNumber start left → C left) :
    Runs assume dir (loop options c fuel it st)
      (fun result after => (result.1 = .ok ∧ ∃ next base written' current',
          written' ++ current' = written ++ current ++ c.keptAfter vs.current st.lastKey rest ∧
            Progress assume options vs start next base written' current' result.2 after) ∨
        (result.1 ≠ .ok ∧ rejected)) C := by
  induction fuel generalizing it rest next base written current st dir with
  | zero => omega
  | succ fuel ih =>
    unfold loop
    cases rest with
    | nil =>
      have hinvalid : it.valid = false := hyields
      rw [if_pos (by simp [hinvalid])]
      exact Runs.ret (Or.inl ⟨rfl, next, base, written, current, by simp [keptAfter, firsts], h⟩)
    | cons e rest =>
      obtain ⟨hvalid, hentry, hnext⟩ := hyields
      have hvalid' : it.valid = true := hvalid
      have hentry' : it.entry = e := hentry
      rw [if_neg (by simp [hvalid']), hentry']
      refine Runs.bind (step_progress htables h hwritable hcrash) ?_
      rintro ⟨status, st'⟩ after (⟨hok, next', base', written', current', hsame, hdone⟩ | ⟨herror, hrej⟩)
      · simp only at hok hsame hdone
        subst hok
        simp only [Status.isOk_ok, Bool.not_true, Bool.false_eq_true, ↓reduceIte]
        rw [← hsame] at hwritable ⊢
        exact ih hnext (by simpa using hfuel) hdone hwritable
      · have hbad : status.isOk = false := Status.isOk_eq_false.mpr herror
        simp only [hbad, Bool.not_false, ↓reduceIte]
        exact Runs.ret (Or.inr ⟨herror, hrej⟩)

end CompactionState

namespace Compaction

open CompactionState

/-- All outputs are written: the entries kept of what the merged inputs show are in
tables with numbers below `next`. -/
structure Written (assume : Assume FileName) (c : Compaction) (vs : VersionSet) (start : Dir)
    (next : Nat) (merged : List Entry) (outputs : List FileMetaData) (dir : Dir) : Prop where
  sorted : Sorted merged
  holds : Outputs vs.nextFileNumber (c.kept vs.current merged) outputs
  below : ∀ f ∈ outputs, f.number < next
  stored : ∀ f ∈ outputs, f.Stored dir
  least : vs.nextFileNumber ≤ next
  created : next = vs.nextFileNumber ∨ assume.calls (.create (.table (next - 1)))
  frame : OnlyTables vs.nextFileNumber start dir

structure Finished (assume : Assume FileName) (c : Compaction) (vs : VersionSet) (start : Dir)
    (next : Nat) (merged : List Entry) (outputs : List FileMetaData) (dir : Dir) : Prop
    extends Written assume c vs start next merged outputs dir where
  perm : merged.Perm (Version.sources c.inputs).flatten

variable {options : Options} {vs : VersionSet} {c : Compaction} {allowed : Entry → Prop}
  {rejected loose : Prop} {Q : Status × VersionSet → Dir → Prop}

/-- `DoCompaction` up to its last output file: what it returns where it ends there,
or the version set and the outputs it goes on with. -/
def writeOutputs (options : Options) (versions : VersionSet) (c : Compaction) :
    Prog (Except (Status × VersionSet) (VersionSet × List FileMetaData)) := do
  let dir ← Sys.readDir
  let faults ← Sys.readFaults
  match openInputs dir faults c.inputs with
  | .error status => return .error (status, versions)
  | .ok readers =>
    match newMergingIterator (readers.map SSTableReader.newIterator) with
    | none => return .error (.ok, versions)
    | some iter =>
      let (status, st) ← CompactionState.loop options c (scanFuel readers) iter.seekToFirst
        ⟨versions, none, 0, [], none⟩
      if !status.isOk then
        return .error (status, st.versions)
      let (status, st) ← st.finishOutputFile options
      if !status.isOk then
        return .error (status, st.versions)
      return .ok (st.versions, st.outputs)

def conclude (c : Compaction) :
    Except (Status × VersionSet) (VersionSet × List FileMetaData) → Prog (Status × VersionSet)
  | .error result => pure result
  | .ok (versions, outputs) => c.installOutputs versions outputs

theorem doCompaction_eq (options : Options) (vs : VersionSet) (c : Compaction) :
    doCompaction options vs c = c.writeOutputs options vs >>= c.conclude := by
  unfold doCompaction writeOutputs
  rw [Sys.bind_assoc]
  congr 1
  funext dir
  rw [Sys.bind_assoc]
  congr 1
  funext faults
  cases openInputs dir faults c.inputs with
  | error status => rw [Sys.pure_bind]; rfl
  | ok readers =>
    cases hiter : newMergingIterator (readers.map SSTableReader.newIterator) with
    | none =>
      simp only [hiter]
      rw [Sys.pure_bind]
      rfl
    | some iter =>
      simp only [hiter]
      rw [Sys.bind_assoc]
      congr 1
      funext result
      split
      · rw [Sys.pure_bind]
        rfl
      · rw [Sys.bind_assoc]
        congr 1
        funext result
        split
        · rw [Sys.pure_bind]
          rfl
        · rw [Sys.pure_bind]
          rfl

section Writes

variable (shown : FileMetaData → List Entry) (htables : Tables assume options allowed rejected)
  (hne : c.inputs ≠ [])
  (hinputs : ∀ faults, assume.faults faults → ∀ f ∈ c.inputs,
    ∃ r, f.openReader dir faults = .ok r ∧ r.Passes (shown f))
  (hallowed : ∀ f ∈ c.inputs, ∀ e ∈ shown f, allowed e ∧ e.HasType)
  (hcrash : ∀ left, OnlyTables vs.nextFileNumber dir left → C left)

include htables hne hinputs hallowed hcrash in
theorem writeOutputs_written : Runs assume dir (c.writeOutputs options vs)
    (fun result after => (∃ next merged outputs,
        result = .ok ({ vs with nextFileNumber := next }, outputs) ∧
        merged.Perm (c.inputs.map shown).flatten ∧
        Written assume c vs dir next merged outputs after) ∨
      rejected ∧ ∃ status versions, result = .error (status, versions) ∧ status ≠ .ok) C := by
  unfold writeOutputs
  refine Runs.bind (Runs.readDir (Q := fun seen after => seen = dir ∧ after = dir) ⟨rfl, rfl⟩) ?_
  rintro seen after ⟨rfl, rfl⟩
  refine Runs.bind (Runs.readFaults (Q := fun faults now => assume.faults faults ∧ now = after)
    fun _ hfaults => ⟨hfaults, rfl⟩) ?_
  rintro faults now ⟨hfaults, rfl⟩
  obtain ⟨pairs, hopen, hsources, hpasses⟩ := openInputs_passes (hinputs faults hfaults)
  have hpairs : pairs ≠ [] := by
    rintro rfl
    exact hne (List.map_eq_nil_iff.mp hsources.symm)
  obtain ⟨iter, merged, hiter, hyields, hperm, hsorted⟩ := merge_readers hpasses hpairs
  simp only [hopen, hiter]
  have hfuel := merged_length_lt hpasses hperm
  rw [hsources] at hperm
  have hwritable : Writable allowed (c.kept vs.current merged) := by
    have hkept : ∀ e ∈ c.kept vs.current merged, allowed e ∧ e.HasType := by
      intro e he
      obtain ⟨es, hes, hmem⟩ := List.mem_flatten.mp (hperm.mem_iff.mp (kept_top hsorted he).1)
      obtain ⟨f, hf, rfl⟩ := List.mem_map.mp hes
      exact hallowed f hf e hmem
    exact ⟨kept_keys_lt hsorted, fun e he => (hkept e he).1, fun e he => (hkept e he).2⟩
  have hinit : Progress assume options vs now vs.nextFileNumber now [] []
      ⟨vs, none, 0, [], none⟩ now :=
    ⟨rfl, le_refl _, Or.inl rfl, ⟨by simp, by simp, rfl, List.Pairwise.nil, by simp⟩, by simp,
      OnlyTables.refl _ _, Or.inl ⟨rfl, rfl, rfl, by simp⟩⟩
  refine Runs.bind (loop_progress htables hyields hfuel hinit
    (by simpa [kept] using hwritable) hcrash) ?_
  rintro ⟨status, st⟩ last (⟨hok, next, base, written, current, hsplit, hdone⟩ | ⟨hbad, hrej⟩)
  · simp only [List.nil_append] at hok hsplit hdone
    subst hok
    simp only [Status.isOk_ok, Bool.not_true, Bool.false_eq_true, ↓reduceIte]
    have hkept : written ++ current = c.kept vs.current merged := hsplit
    have hcurrent : Writable allowed current :=
      (hkept ▸ hwritable).sublist (List.sublist_append_right _ _)
    refine Runs.bind (finishOutputFile_progress htables hdone hcurrent hcrash) ?_
    rintro ⟨status, st'⟩ final (⟨hok, _, hfinal⟩ | ⟨hbad, hrej⟩)
    · simp only at hok hfinal
      subst hok
      simp only [Status.isOk_ok, Bool.not_true, Bool.false_eq_true, ↓reduceIte]
      rw [hfinal.versions]
      have hbelow : ∀ f ∈ st'.outputs, f.number < next := by
        rcases hfinal.builder with ⟨_, _, _, hbelow⟩ | ⟨_, _, hempty, _⟩
        · exact hbelow
        · exact absurd rfl hempty
      exact Runs.ret (Or.inl ⟨next, merged, st'.outputs, rfl, hperm, hsorted,
        hkept ▸ hfinal.outputs, hbelow, hfinal.stored, hfinal.least, hfinal.created, hfinal.frame⟩)
    · have hbad' : status.isOk = false := Status.isOk_eq_false.mpr hbad
      simp only [hbad', Bool.not_false, ↓reduceIte]
      exact Runs.ret (Or.inr ⟨hrej, status, _, rfl, hbad⟩)
  · have hbad' : status.isOk = false := Status.isOk_eq_false.mpr hbad
    simp only [hbad', Bool.not_false, ↓reduceIte]
    exact Runs.ret (Or.inr ⟨hrej, status, _, rfl, hbad⟩)

include htables hne hinputs hallowed hcrash in
theorem doCompaction_written
    (herror : rejected → ∀ status versions after, status ≠ .ok → Q (status, versions) after)
    (hinstall : ∀ next merged outputs after, merged.Perm (c.inputs.map shown).flatten →
      Written assume c vs dir next merged outputs after →
      Runs assume after (c.installOutputs { vs with nextFileNumber := next } outputs) Q C) :
    Runs assume dir (doCompaction options vs c) Q C := by
  rw [doCompaction_eq]
  refine Runs.bind (writeOutputs_written shown htables hne hinputs hallowed hcrash) ?_
  rintro result after (⟨next, merged, outputs, rfl, hperm, hwritten⟩ |
    ⟨hrej, status, versions, rfl, hbad⟩)
  · exact hinstall next merged outputs after hperm hwritten
  · exact Runs.ret (herror hrej status versions after hbad)

end Writes

theorem doCompaction_runs (htables : Tables assume options allowed rejected)
    (hcovers : c.Covers vs.current) (hsane : vs.current.Sane loose)
    (hallowed : ∀ f ∈ c.inputs, ∀ e ∈ f.entries, allowed e)
    (hcrash : ∀ left, OnlyTables vs.nextFileNumber dir left → C left)
    (herror : rejected → ∀ status versions after, status ≠ .ok → Q (status, versions) after)
    (hinstall : ∀ next merged outputs after,
      Finished assume c vs dir next merged outputs after →
      Runs assume after (c.installOutputs { vs with nextFileNumber := next } outputs) Q C) :
    Runs assume dir (doCompaction options vs c) Q C := by
  have hsound : ∀ f ∈ c.inputs, f.Sound := by
    intro f hf
    obtain ⟨level, htakes⟩ := takes_of_mem hf
    exact hsane.sound level f (hcovers.mem_files htakes)
  apply doCompaction_written FileMetaData.entries htables
  case hne => exact fun hempty => hcovers.nonempty (List.append_eq_nil_iff.mp hempty).1
  case hinputs => exact fun faults _ f hf => (hsound f hf).passes dir faults
  case hallowed => exact fun f hf e he => ⟨hallowed f hf e he, (hsound f hf).types e he⟩
  case hcrash => exact hcrash
  case herror => exact herror
  case hinstall =>
    exact fun next merged outputs after hperm hwritten =>
      hinstall next merged outputs after ⟨hwritten, hperm⟩

end Compaction

theorem unlinkTables_any (files : List FileMetaData) :
    Runs Assume.any dir (unlinkTables files) (fun _ _ => True) fun _ => True := by
  induction files generalizing dir with
  | nil => exact Runs.ret trivial
  | cons f rest ih => exact Runs.bind Runs.call_any fun _ _ _ => ih

end Strata
