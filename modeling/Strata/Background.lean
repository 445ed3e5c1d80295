import Strata.Running

/-! The background thread: the flush of `imm_`, a major compaction and the removal
of files that are no longer referred to. -/
namespace Strata

open Library System Layers Memtable VersionSet

variable {loose : Prop} {all : List Entry} {M : Medium FileName} {r : Recovery} {db : DBImpl}
  {m : Nat} {olds : List (Nat × List Entry)} {records : List Entry}

namespace Serving

variable (h : Serving loose all db M m r olds records)

include h in
theorem newTables {M' : Medium FileName} {next : Nat}
    (hframe : NewTables db.versions.nextFileNumber M M') (hnext : db.versions.nextFileNumber ≤ next)
    (hlimit : next ≤ 2 ^ 63) :
    ({ db.versions with nextFileNumber := next } : VersionSet).Attached M'.dir m [] r ∧
      Kept loose all M'.dir m [] r db.versions.current (db.logs olds records) ∧
      Secure M' m db.versions.current := by
  have hsame := hframe.onlyTables.sameManifests
  refine ⟨?_, ⟨?_, h.accounts, h.reached⟩, ?_⟩
  · exact (h.attached.advance hnext hlimit (le_refl _) h.attached.bounded.lastSequence).of_same hsame
  · exact (h.attached.of_same hsame).disk (h.holds.onlyTables h.attached.next hframe.onlyTables)
  · apply h.secure.only hframe
    · simp
    · simp
    · rintro f hf ⟨number, hnumber, heq⟩
      have hlt := h.attached.bounded.numbers f hf
      have hsame : f.number = number := by simpa using heq
      omega

include h in
theorem outlasts_newTables {past : List Entry → Prop} (hpast : past all) {M' : Medium FileName}
    (hframe : NewTables db.versions.nextFileNumber M M') : Outlasts loose past M' := by
  obtain ⟨hattached, hkept, hsecure⟩ := h.newTables hframe (le_refl _) h.attached.bounded.next
  exact Outlasts.of_secure hpast ⟨hkept, hattached.fresh⟩ hsecure

include h in
theorem only {S : FileName → Prop} {M' : Medium FileName} (honly : Medium.Only S M M')
    (htables : ∀ name, S name → ∃ number, name = .table number ∧
      ∀ f ∈ db.versions.current.allFiles, f.number ≠ number) :
    Serving loose all db M' m r olds records := by
  have hother : ∀ name, (∀ number, name ≠ .table number) → ¬ S name := by
    intro name hname hs
    obtain ⟨number, heq, _⟩ := htables name hs
    exact hname number heq
  have hlive : ∀ f ∈ db.versions.current.allFiles, ¬ S (.table f.number) := by
    intro f hf hs
    obtain ⟨number, heq, hne⟩ := htables _ hs
    exact hne f hf (by simpa using heq)
  have hsame : ∀ name, ¬ S name → M'.dir.lookup name = M.dir.lookup name := fun name hname =>
    (honly name hname).1
  refine ⟨⟨?_, h.descriptor, ?_, ?_, h.writer, h.below, h.seqs, h.mem, h.imm⟩, h.accounts, h.recent,
    h.distinct, ?_, h.saved, h.ahead, h.reached⟩
  · apply h.attached.of_same
    exact ⟨hsame _ (hother _ (by simp)), fun n => hsame _ (hother _ (by simp))⟩
  · apply h.holds.frame
    · exact fun n => hsame _ (hother _ (by simp))
    · exact fun f hf => hsame _ (hlive f hf)
    · exact fun text => hsame _ (hother _ (by simp))
  · rw [hsame _ (hother _ (by simp))]
    exact h.written
  · exact h.secure.only honly (hother _ (by simp)) (hother _ (by simp)) hlive

include h in
/-- The store goes on with the version of an edit, which stands for as much as it knew
or for a part of it. -/
theorem amended {vs vs' : VersionSet} {edit : VersionEdit} {dir : Dir} {M' : Medium FileName}
    {r' : Recovery} {all' : List Entry} {olds' : List (Nat × List Entry)} {imm : Option Nat}
    (ham : Amended vs edit dir (.ok, vs') M'.dir m r')
    (hlast : vs.lastSequence = db.versions.lastSequence)
    (hnext : db.versions.nextFileNumber ≤ vs.nextFileNumber)
    (hholds : Holds loose M'.dir r' vs'.current (db.logs olds' records))
    (hreached : Reached r' (db.logs olds' records)) (hsecure : Secure M' m vs'.current)
    (hlog : M'.dir.lookup (.log db.logFileNumber) = M.dir.lookup (.log db.logFileNumber))
    (hsubset : ∀ e ∈ all', e ∈ all)
    (haccounts : ∃ flushed, Accounts loose all' vs.lastSequence
      ((db.logs olds' records).map Prod.snd) vs'.current flushed)
    (himm : ∀ index, imm = some index → db.imm = some index ∧ olds' = olds) :
    Serving loose all' { db with versions := vs', imm := imm } M' m r' olds' records := by
  have hlast' : vs'.lastSequence = db.versions.lastSequence := ham.lastSequence.trans hlast
  have hnext' : vs.nextFileNumber ≤ vs'.nextFileNumber := ham.next
  have hrecent : ∀ e ∈ all', e.seq ≤ vs'.lastSequence := by
    intro e he
    rw [hlast']
    exact h.recent e (hsubset e he)
  refine ⟨⟨ham.attached, ham.descriptor, hholds, hlog.trans h.written, h.writer, ?_, ?_, h.mem, ?_⟩,
    ?_, hrecent, h.distinct.mono hsubset, hsecure, fun _ => ham.saved.1, ?_, hreached⟩
  · exact lt_of_lt_of_le h.below (le_trans hnext hnext')
  · intro e he
    obtain ⟨flushed, hkept⟩ := haccounts
    exact hrecent e (hkept.reduces.subset e he)
  · intro index hindex
    obtain ⟨hsome, rfl⟩ := himm index hindex
    exact h.imm index hsome
  · have hmaxSeq : r'.maxSeq = vs.lastSequence := ham.saved.2
    rw [hmaxSeq]
    exact haccounts
  · have hsaved : r'.maxFileNum = vs'.nextFileNumber := ham.saved.1
    change vs'.nextFileNumber ≤ climbed r'.maxFileNum olds' + 1
    rw [climbed, hsaved]
    omega

/-! The flush of `imm_`. -/

theorem flushed_logs (db : DBImpl) {rest : List (Nat × List Entry)} {number : Nat} {es : List Entry}
    (hold : olds = rest ++ [(number, es)]) (records : List Entry) :
    db.logs olds records = rest ++ (number, es) :: [(db.logFileNumber, records)] := by
  rw [DBImpl.logs, hold]
  simp

section Flush

variable {rest : List (Nat × List Entry)} {number : Nat} {es : List Entry} {f : FileMetaData}
  {M₁ : Medium FileName} (hold : olds = rest ++ [(number, es)])
  (hfile : NewFile db.versions f.entries M₁.dir f) (hentries : ∀ e, e ∈ f.entries ↔ e ∈ es)

include h hold in
theorem flushed_seq {e : Entry} (he : e ∈ es) : e.seq ≤ db.versions.lastSequence := by
  apply h.seqs e
  apply mem_held_log _ he
  rw [flushed_logs db hold]
  simp

include h hfile in
theorem flush_adds :
    db.versions.current.Adds f (flushedVersion db.versions f db.logFileNumber M₁.dir) :=
  hfile.adds h.holds.stacked.good.toSane h.attached.bounded.numbers _ _

include h hold hfile hentries in
theorem flush_accounts : ∃ all', (db.Single olds → all' = all) ∧ (∀ e ∈ all', e ∈ all) ∧ ∃ flushed,
    Accounts loose all' db.versions.lastSequence [records]
      (flushedVersion db.versions f db.logFileNumber M₁.dir) flushed := by
  obtain ⟨flushed, haccounts⟩ := h.accounts
  have hstacked := h.holds.stacked
  rw [flushed_logs db hold] at haccounts hstacked
  simp only [List.map_append, List.map_cons, List.map_nil] at haccounts hstacked
  have hpair := (List.pairwise_append.mp hstacked.newer).2.1
  have hflush : ∀ {all'}, Accounts loose all' r.maxSeq [es, records] db.versions.current flushed →
      Accounts loose all' db.versions.lastSequence [records]
        (flushedVersion db.versions f db.logFileNumber M₁.dir) (flushed ++ es) := by
    intro all' hlogs
    apply hlogs.flush
    · exact fun e => Stacked.mem_held_flush hentries (h.flush_adds hfile)
    · exact h.attached.maxSeq
    · exact fun e he => h.flushed_seq hold he
    · exact (List.pairwise_cons.mp hpair).1
  by_cases hsingle : rest = []
  · subst hsingle
    exact ⟨all, fun _ => rfl, fun e he => he, _, hflush haccounts⟩
  · refine ⟨_, fun hlength => ?_, fun e he => (haccounts.mem e).mpr ?_, _, hflush haccounts.drop⟩
    · have hpos := List.length_pos_iff.mpr hsingle
      rw [DBImpl.Single, hold, List.length_append, List.length_singleton] at hlength
      split at hlength <;> omega
    · rw [List.flatten_append, List.mem_append]
      exact (List.mem_append.mp he).imp id Or.inr

include h hold hfile hentries in
theorem flush_leads (hframe : NewTables db.versions.nextFileNumber M M₁) :
    Leads (taken db.versions) (flushEdit f db.logFileNumber) M₁.dir loose
      [(db.logFileNumber, records)] := by
  intro r' hnext hmaxSeq hlogNum
  have hholds := h.holds.onlyTables h.attached.next hframe.onlyTables
  rw [flushed_logs db hold] at hholds
  have hlogNum' : r'.logNum = db.logFileNumber := hlogNum
  have hmaxSeq' : r'.maxSeq = db.versions.lastSequence := hmaxSeq
  have hnext' : db.versions.nextFileNumber + 1 ≤ r'.maxFileNum := hnext
  have hnumber := hfile.number
  have hcounter := h.attached.next
  have hfresh : r.maxFileNum ≤ f.number := by omega
  have hbelow := h.below
  apply hholds.flush hentries hfresh (h.flush_adds hfile) hfile.stored
  · omega
  · rw [hmaxSeq']
    exact h.attached.maxSeq
  · intro e he
    rw [hmaxSeq']
    exact h.flushed_seq hold he
  · exact installEdit_good (hholds.adds_sane hfile.sound hentries hfresh (h.flush_adds hfile))
  · intro log hlog
    rw [hlogNum']
    have hascending := h.holds.ascending
    rw [DBImpl.logs, hold] at hascending
    exact (List.pairwise_append.mp hascending).2.2 log hlog _ (List.mem_singleton_self _)
  · intro log hlog
    rw [hlogNum', List.mem_singleton.mp hlog]
  · omega

include h hfile in
theorem flush_tables (hsecure : Secure M₁ m db.versions.current)
    (hsafe : M₁.Safe (.table db.versions.nextFileNumber)) :
    ∀ g ∈ (flushedVersion db.versions f db.logFileNumber M₁.dir).allFiles,
      M₁.Safe (.table g.number) := by
  intro g hg
  obtain ⟨level, hg⟩ := Version.mem_allFiles.mp hg
  rcases ((h.flush_adds hfile).mem level g).mp hg with hg | ⟨_, rfl⟩
  · exact hsecure.tables g (Version.mem_allFiles.mpr ⟨level, hg⟩)
  · rw [hfile.number]
    exact hsafe

include h hold hfile hentries in
theorem flush_continues (hframe : NewTables db.versions.nextFileNumber M M₁)
    (hsecure : Secure M₁ m db.versions.current)
    (hsafe : M₁.Safe (.table db.versions.nextFileNumber)) :
    ∃ all', (db.Single olds → all' = all) ∧ (∀ e ∈ all', e ∈ all) ∧
      Proceeds (taken db.versions) (flushEdit f db.logFileNumber) M₁ loose (db.logs [] records)
        all' := by
  obtain ⟨all', hsame, hsubset, haccounts⟩ := h.flush_accounts hold hfile hentries
  have hbelow : db.logFileNumber ≤ db.versions.nextFileNumber + 1 :=
    le_of_lt (Nat.lt_succ_of_lt h.below)
  refine ⟨all', hsame, hsubset, h.flush_leads hold hfile hentries hframe,
    h.flush_tables hfile hsecure hsafe, haccounts, hbelow, hbelow, trivial⟩

end Flush

include h in
theorem flushImmutable {past : List Entry → Prop}
    (hpast : ∀ all', (db.Single olds → all' = all) → past all') :
    Endures steady M db.flushImmutable
      (fun result M' => result.1 = .ok ∧ ∃ all' r' olds',
        Serving loose all' result.2 M' m r' olds' records ∧ db.Grows result.2 ∧
        result.2.imm = none ∧ result.2.options = db.options ∧
        (db.Single olds → all' = all ∧ result.2.Single olds'))
      (Outlasts loose past) := by
  unfold DBImpl.flushImmutable
  cases himm : db.imm with
  | none =>
    exact Endures.ret ⟨rfl, all, r, olds, h, DBImpl.Grows.refl db, himm, rfl, fun hs => ⟨rfl, hs⟩⟩
  | some index =>
    obtain ⟨_, _, rest, number, es, hold, htable⟩ := h.imm index himm
    have hmem : ∀ e, e ∈ (db.memtable index).entries ↔ e ∈ es := by
      intro e
      rw [htable, (perm_foldl_add _ es).mem_iff]
      simp [Memtable.new]
    have hsorted : Sorted (db.memtable index).entries := by
      rw [htable]
      exact sorted_foldl_add (m := Memtable.new) List.Pairwise.nil es
    simp only
    refine Endures.bind ((writeLevel0Table_endures db.options db.versions hsorted ?_ ?_).weaken
      (fun _ _ hQ => hQ) fun M' hframe => h.outlasts_newTables (hpast all fun _ => rfl) hframe) ?_
    · intro e he
      exact lt_of_le_of_lt (h.flushed_seq hold ((hmem e).mp he)) h.attached.bounded.lastSequence
    · intro e he
      exact h.holds.stacked.types es (by rw [flushed_logs db hold]; simp) e ((hmem e).mp he)
    rintro result M₁ ⟨f, rfl, hnew, hsafe, hframe⟩
    obtain ⟨hattached, hkept, hsecure⟩ := h.newTables hframe (Nat.le_succ _) hnew.small
    have hfile : NewFile db.versions f.entries M₁.dir f := by
      rw [hnew.entries]
      exact hnew
    have hentries : ∀ e, e ∈ f.entries ↔ e ∈ es := by
      intro e
      rw [hnew.entries]
      exact hmem e
    have hlog := (h.holds.listed (db.logFileNumber, records) (by simp [DBImpl.logs])).2.small
    obtain ⟨all', hall', hsubset, hnext⟩ := h.flush_continues hold hfile hentries hframe hsecure hsafe
    refine Endures.bind (edit_endures hattached h.descriptor (hfile.loggable hlog) hsecure hkept
      (hpast all fun _ => rfl) hnext (hpast all' hall')) ?_
    rintro ⟨status, vs'⟩ M₂ ⟨r', ham, hholds, hreached, hsecure', honly⟩
    obtain rfl : status = .ok := ham.status
    have hcurrent : vs'.current = flushedVersion db.versions f db.logFileNumber M₁.dir := ham.current
    have hserving : Serving loose all' { db with versions := vs', imm := none } M₂ m r' []
        records := by
      apply h.amended ham rfl (Nat.le_succ _) hholds hreached hsecure'
      · rw [(honly _ (by simp)).1]
        exact (hframe _ (by simp)).1
      · exact hsubset
      · rw [hcurrent]
        exact hnext.accounts
      · exact fun index hindex => by cases hindex
    exact Endures.ret ⟨rfl, all', r', [], hserving,
      DBImpl.Grows.of_heap rfl (le_of_eq ham.lastSequence.symm), rfl, rfl,
      fun hsingle => ⟨hall' hsingle, rfl⟩⟩

/-! A major compaction. -/

def compactedVersion (vs : VersionSet) (c : Compaction) (next : Nat) (outputs : List FileMetaData)
    (dir : Dir) : Version :=
  let numbered : VersionSet := { vs with nextFileNumber := next }
  numbered.installEdit (numbered.completeEdit (c.edit outputs)) dir fun _ => none

section Compact

variable {c : Compaction} {next : Nat} {merged : List Entry} {outputs : List FileMetaData}
  {dir : Dir} (hcovers : c.Covers db.versions.current)
  (hfinished : c.Finished steady db.versions M.dir next merged outputs dir)

include h hcovers hfinished in
theorem compact_replaces :
    c.Replaces db.versions.current outputs (compactedVersion db.versions c next outputs dir) :=
  Compaction.installEdit_replaces { db.versions with nextFileNumber := next } hcovers
    h.holds.stacked.good.toSane h.attached.bounded.numbers hfinished.holds dir _

include h hcovers hfinished in
theorem compact_stacked : Stacked loose ((db.logs olds records).map Prod.snd)
    (compactedVersion db.versions c next outputs dir) := by
  have hsane := h.holds.stacked.good.toSane
  have hreplaces := h.compact_replaces hcovers hfinished
  have hgood : (compactedVersion db.versions c next outputs dir).Good loose :=
    installEdit_good (hreplaces.sane hcovers hsane h.attached.bounded.numbers hfinished.perm
      hfinished.sorted hfinished.holds)
  exact (h.holds.stacked.compact hcovers hfinished.perm hfinished.sorted hfinished.holds hreplaces
    hgood).1

include h hcovers hfinished in
theorem compact_accounts : ∃ flushed, Accounts loose all db.versions.lastSequence
    ((db.logs olds records).map Prod.snd) (compactedVersion db.versions c next outputs dir)
    flushed := by
  obtain ⟨flushed, haccounts⟩ := h.accounts
  refine ⟨flushed, (haccounts.compact ?_).grow h.attached.maxSeq⟩
  exact (h.compact_replaces hcovers hfinished).reduces hcovers h.holds.stacked.good.toSane
    hfinished.perm hfinished.sorted hfinished.holds [] (by simp)

include h hcovers hfinished in
theorem output_seq {f : FileMetaData} (hf : f ∈ outputs) {e : Entry} (he : e ∈ f.entries) :
    e.seq ≤ db.versions.lastSequence := by
  obtain ⟨g, hg, heg⟩ := (Compaction.output_top hfinished.perm hfinished.sorted hfinished.holds hf
    he).1
  obtain ⟨level, htakes⟩ := Compaction.takes_of_mem hg
  exact h.seqs e (mem_held_file (hcovers.mem_files htakes) heg)

include h hcovers hfinished in
theorem compact_leads : Leads { db.versions with nextFileNumber := next } (c.edit outputs) dir loose
    (db.logs olds records) := by
  intro r' hnext hmaxSeq hlogNum
  rw [Compaction.logNumber_edit] at hlogNum
  have hnext' : next ≤ r'.maxFileNum := hnext
  have hmaxSeq' : r'.maxSeq = db.versions.lastSequence := hmaxSeq
  have hleast := hfinished.least
  have hcounter := h.attached.next
  have hholds : Holds loose dir r' db.versions.current (db.logs olds records) := by
    apply (h.holds.onlyTables hcounter hfinished.frame).grow
    · omega
    · rw [hmaxSeq']
      exact h.attached.maxSeq
    · exact hlogNum.trans h.attached.logNum.symm
  apply hholds.with_version (h.compact_stacked hcovers hfinished)
  intro f hf
  obtain ⟨level, hf⟩ := Version.mem_allFiles.mp hf
  rcases ((h.compact_replaces hcovers hfinished).mem level f).mp hf with ⟨hold, _⟩ | ⟨_, hnew⟩
  · have hmem := Version.mem_allFiles.mpr ⟨level, hold⟩
    exact ⟨hholds.stored f hmem, hholds.numbers f hmem, hholds.seqs f hmem⟩
  · have hbelow := hfinished.below f hnew
    refine ⟨hfinished.stored f hnew, by omega, fun e he => ?_⟩
    rw [hmaxSeq']
    exact h.output_seq hcovers hfinished hnew he

include h hcovers hfinished in
theorem compact_loggable :
    ({ db.versions with nextFileNumber := next } : VersionSet).Loggable (c.edit outputs) := by
  apply Compaction.edit_loggable hcovers h.attached.bounded hfinished.least
  intro f hf
  exact ⟨hfinished.below f hf, (hfinished.holds.sound f hf).fileSize_lt (hfinished.stored f hf)⟩

include h hcovers hfinished in
theorem compact_continues {M' : Medium FileName} (hdir : M'.dir = dir)
    (hsecure : Secure M' m db.versions.current) (hsafe : ∀ f ∈ outputs, M'.Safe (.table f.number)) :
    Proceeds { db.versions with nextFileNumber := next } (c.edit outputs) M' loose
      (db.logs olds records) all := by
  subst hdir
  have hnext : r.maxFileNum ≤ next := le_trans h.attached.next hfinished.least
  refine ⟨h.compact_leads hcovers hfinished, fun f hf => ?_, h.compact_accounts hcovers hfinished, ?_,
    Climbs.of_le fun log hlog => ?_⟩
  · obtain ⟨level, hf⟩ := Version.mem_allFiles.mp hf
    rcases ((h.compact_replaces hcovers hfinished).mem level f).mp hf with ⟨hold, _⟩ | ⟨_, hnew⟩
    · exact hsecure.tables f (Version.mem_allFiles.mpr ⟨level, hold⟩)
    · exact hsafe f hnew
  · rw [Compaction.logNumber_edit]
    change db.versions.logNumber ≤ next
    rw [← h.attached.logNum]
    exact le_trans h.reached.1 hnext
  · have hbelow := h.below
    have hleast := hfinished.least
    have hle : db.logFileNumber ≤ next := by omega
    exact le_trans (h.log_le hlog) hle

include h hcovers hfinished in
theorem inputs_gone {f g : FileMetaData}
    (hf : f ∈ (compactedVersion db.versions c next outputs dir).allFiles) (hg : g ∈ c.inputs) :
    f.number ≠ g.number := by
  intro hsame
  obtain ⟨level, hf⟩ := Version.mem_allFiles.mp hf
  obtain ⟨glevel, htakes⟩ := Compaction.takes_of_mem hg
  have hinput := hcovers.mem_files htakes
  rcases ((h.compact_replaces hcovers hfinished).mem level f).mp hf with ⟨hold, hstays⟩ | ⟨_, hnew⟩
  · obtain ⟨hlevel, heq⟩ := h.holds.stacked.good.unique level glevel f hold g hinput hsame
    subst hlevel heq
    exact hstays htakes
  · have hfresh := hfinished.holds.fresh f hnew
    have hlt := h.attached.bounded.numbers g (Version.mem_allFiles.mpr ⟨glevel, hinput⟩)
    omega

end Compact

include h in
theorem compact {past : List Entry → Prop} (hpast : past all) {c : Compaction}
    (hcovers : c.Covers db.versions.current) :
    Endures steady M (doCompaction db.options db.versions c)
      (fun result M' => result.1 = .ok ∧ (∃ r', Serving loose all { db with versions := result.2 } M'
        m r' olds records) ∧ result.2.lastSequence = db.versions.lastSequence)
      (Outlasts loose past) := by
  have hseqs : ∀ f ∈ c.inputs, ∀ e ∈ f.entries, e.seq < 2 ^ 64 := by
    intro f hf e he
    obtain ⟨level, htakes⟩ := Compaction.takes_of_mem hf
    exact lt_of_le_of_lt (h.seqs e (mem_held_file (hcovers.mem_files htakes) he))
      h.attached.bounded.lastSequence
  rw [Compaction.doCompaction_eq]
  refine Endures.bind ((Compaction.writeOutputs_endures db.options hcovers
    h.holds.stacked.good.toSane hseqs).weaken (fun _ _ hQ => hQ) fun M' hframe =>
      h.outlasts_newTables hpast hframe) ?_
  rintro result M₁ ⟨next, merged, outputs, rfl, hfinished, hsynced, hframe⟩
  have hlimit : next ≤ 2 ^ 63 := by
    rcases hfinished.created with heq | hcreate
    · exact heq ▸ h.attached.bounded.next
    · have hsmall : next - 1 < 2 ^ 63 := steady_limited _ hcreate
      omega
  simp only [Compaction.conclude, Compaction.installOutputs]
  refine Endures.bind (syncDirectory_endures steady_noFail (h.outlasts_newTables hpast hframe)) ?_
  rintro _ M₂ ⟨_, rfl⟩
  have hframe₂ : NewTables db.versions.nextFileNumber M (M₁.perform .syncDirectory) :=
    Medium.Only.perform hframe fun _ hconcerns => hconcerns.elim
  obtain ⟨hattached, hkept, hsecure⟩ := h.newTables hframe₂ hfinished.least hlimit
  have hfinished₂ : c.Finished steady db.versions M.dir next merged outputs
      (M₁.perform .syncDirectory).dir := hfinished
  refine Endures.bind (edit_endures hattached h.descriptor (h.compact_loggable hcovers hfinished₂)
    hsecure hkept hpast (h.compact_continues hcovers hfinished₂ rfl hsecure
      fun f hf => ⟨rfl, hsynced f hf⟩) hpast) ?_
  rintro ⟨status, vs'⟩ M₃ ⟨r', ham, hholds, hreached, hsecure', honly⟩
  obtain rfl : status = .ok := ham.status
  have hcurrent : vs'.current = compactedVersion db.versions c next outputs
      (M₁.perform .syncDirectory).dir := ham.current
  have hserving : Serving loose all { db with versions := vs' } M₃ m r' olds records := by
    apply h.amended ham rfl hfinished.least hholds hreached hsecure'
    · rw [(honly _ (by simp)).1]
      exact (hframe₂ _ (by simp)).1
    · exact fun e he => he
    · rw [hcurrent]
      exact h.compact_accounts hcovers hfinished₂
    · exact fun index hindex => ⟨hindex, rfl⟩
  have hunlinked : ∀ {M'}, Medium.Only (fun name => ∃ f ∈ c.inputs, name = .table f.number) M₃ M' →
      Serving loose all { db with versions := vs' } M' m r' olds records := by
    intro M' hremoved
    apply hserving.only hremoved
    rintro name ⟨g, hg, rfl⟩
    refine ⟨g.number, rfl, fun f hf => ?_⟩
    rw [hcurrent] at hf
    exact h.inputs_gone hcovers hfinished₂ hf hg
  simp only [Status.isOk_ok, Bool.not_true, Bool.false_eq_true, ↓reduceIte]
  refine Endures.bind ((unlinkTables_endures c.inputs).weaken (fun _ _ hQ => hQ) fun M' hremoved =>
    (hunlinked hremoved).outlasts hpast) ?_
  intro _ M₄ hremoved
  refine Endures.bind (syncDirectory_endures steady_noFail ((hunlinked hremoved).outlasts hpast)) ?_
  rintro _ M₅ ⟨_, rfl⟩
  refine Endures.ret ⟨rfl, ⟨r', hunlinked ?_⟩, ham.lastSequence⟩
  exact hremoved.perform fun _ hconcerns => hconcerns.elim

include h in
theorem majorCompaction {past : List Entry → Prop} (hpast : past all) :
    Endures steady M db.majorCompaction
      (fun result M' => result.1 = .ok ∧ (∃ r', Serving loose all result.2 M' m r' olds records) ∧
        db.Grows result.2 ∧ result.2.imm = db.imm ∧ result.2.options = db.options)
      (Outlasts loose past) := by
  unfold DBImpl.majorCompaction
  cases hpick : Compaction.pickCompaction db.options db.versions.current with
  | none => exact Endures.ret ⟨rfl, ⟨r, h⟩, DBImpl.Grows.refl db, rfl, rfl⟩
  | some c =>
    refine Endures.bind (h.compact hpast (Compaction.pickCompaction_covers hpick)) ?_
    rintro ⟨status, vs⟩ M' ⟨hstatus, hserving, hlast⟩
    exact Endures.ret ⟨hstatus, hserving, DBImpl.Grows.of_heap rfl (le_of_eq hlast.symm), rfl, rfl⟩

/-! The removal of files that the version does not refer to. -/

theorem removeFiles_any {dir : Dir} (live : List Nat) (names : List FileName)
    (hnames : ∀ name ∈ names, tableFileNumber name ≠ some none) :
    Runs Assume.any dir (DBImpl.removeFiles live names) (fun _ _ => True) fun _ => True := by
  induction names generalizing dir with
  | nil => exact Runs.ret trivial
  | cons name rest ih =>
    have hrest : ∀ {dir}, Runs Assume.any dir (DBImpl.removeFiles live rest) (fun _ _ => True)
        fun _ => True := ih fun other hother => hnames other (by simp [hother])
    unfold DBImpl.removeFiles
    split
    · exact hrest
    · rename_i hthrows
      exact absurd hthrows (hnames name (by simp))
    · split
      · exact Runs.bind Runs.call_any fun _ _ _ => hrest
      · exact hrest

include h in
theorem removeObsoleteFiles {past : List Entry → Prop} (hpast : past all) :
    Endures steady M db.removeObsoleteFiles
      (fun _ M' => Serving loose all db M' m r olds records) (Outlasts loose past) := by
  -- the directory has the files of the store and no others
  have hknown : ∀ name ∈ M.dir.keys, ∀ text, name ≠ .other text := by
    rintro name hname text rfl
    have hsome := AList.lookup_isSome.mpr (AList.mem_keys.mp hname)
    rw [h.holds.known text] at hsome
    cases hsome
  have hkept : ∀ {M'}, Medium.Only (fun name => name ∈ M.dir.keys ∧
      ∃ number, tableFileNumber name = some (some number) ∧ number ∉ db.versions.liveFiles) M M' →
      Serving loose all db M' m r olds records := by
    intro M' honly
    apply h.only honly
    rintro name ⟨hname, number, hnumber, hlive⟩
    refine ⟨number, ?_, fun f hf heq => hlive (heq ▸ List.mem_map_of_mem hf)⟩
    cases name with
    | table n =>
      cases hnumber
      rfl
    | other text => exact absurd rfl (hknown _ hname text)
    | _ => cases hnumber
  have hthrows : ∀ name ∈ M.dir.keys, tableFileNumber name ≠ some none := by
    intro name hname hthrows
    cases name with
    | other text => exact hknown _ hname text rfl
    | _ => cases hthrows
  unfold DBImpl.removeObsoleteFiles
  refine Endures.bind (Endures.readDir (Q := fun dir M' => dir = M.dir ∧ M' = M) ⟨rfl, rfl⟩) ?_
  rintro dir M' ⟨rfl, rfl⟩
  have hruns : Runs steady M'.dir (DBImpl.removeFiles db.versions.liveFiles M'.dir.keys)
      (fun _ _ => True) fun _ => True := (removeFiles_any _ _ hthrows).of_any
  apply (Endures.of_runs hruns (DBImpl.removeFiles_works _ _)).weaken
  · rintro _ M'' ⟨_, trace, rfl, hcalls, _⟩
    exact hkept (Medium.run_only hcalls)
  · rintro M'' ⟨_, trace, rfl, hcalls⟩
    exact (hkept (Medium.run_only hcalls)).outlasts hpast

end Serving

/-! The steps of the threads. -/

/-- A store that serves all that was written to it, with one log for each memtable. -/
def InService (loose : Prop) (all : List Entry) (db : DBImpl) (M : Medium FileName) : Prop :=
  ∃ m r olds records, Serving loose all db M m r olds records ∧ db.Single olds

namespace InService

variable {past : List Entry → Prop} (h : InService loose all db M)

include h in
theorem write {type : ValueType} (htype : type = kTypeValue ∨ type = kTypeDeletion) (key : Key)
    (value : Bytes) (hlimit : db.versions.lastSequence + 1 < 2 ^ 64) :
    Endures steady M (db.write type key value)
      (fun result M' => result = none ∧ M' = M ∧ db.imm.isSome ∨ ∃ db',
        result = some (.ok, db') ∧ db.Grows db' ∧
        InService loose (all ++ [⟨key, db.versions.lastSequence + 1, type, value⟩]) db' M')
      (Outlasts loose fun past => past = all ∨
        past = all ++ [⟨key, db.versions.lastSequence + 1, type, value⟩]) := by
  obtain ⟨m, r, olds, records, hserving, hsingle⟩ := h
  apply (hserving.write htype key value hlimit).weaken _ fun _ h => h
  rintro result M' (hwaits | ⟨db', olds', records', rfl, hserving', hgrows, hsingle'⟩)
  · exact Or.inl hwaits
  · exact Or.inr ⟨db', rfl, hgrows, m, r, olds', records', hserving', hsingle' hsingle⟩

include h in
theorem flushMemTable (hpast : past all) (hroom : db.imm = none ∨ db.active.count = 0) :
    Endures steady M db.flushMemTable
      (fun db' M' => InService loose all db' M' ∧ db.Grows db') (Outlasts loose past) := by
  obtain ⟨m, r, olds, records, hserving, hsingle⟩ := h
  unfold DBImpl.flushMemTable
  split
  · rename_i hcount
    have himm : db.imm = none := hroom.resolve_right (by omega)
    apply (hserving.switch hpast (Or.inl himm)).weaken _ fun _ h => h
    rintro db' M' ⟨hswitched, hgrows, _, himm', _⟩
    refine ⟨⟨m, r, _, [], hswitched, ?_⟩, hgrows⟩
    rw [DBImpl.Single, himm] at hsingle
    rw [DBImpl.Single, if_pos himm', DBImpl.logs, List.length_append, hsingle]
    rfl
  · exact Endures.ret ⟨⟨m, r, olds, records, hserving, hsingle⟩, DBImpl.Grows.refl db⟩

include h in
theorem backgroundCompaction (hpast : past all) :
    Endures steady M db.backgroundCompaction
      (fun db' M' => InService loose all db' M' ∧ db.Grows db') (Outlasts loose past) := by
  obtain ⟨m, r, olds, records, hserving, hsingle⟩ := h
  have hall : ∀ all', (db.Single olds → all' = all) → past all' := by
    intro all' hsame
    rw [hsame hsingle]
    exact hpast
  unfold DBImpl.backgroundCompaction
  refine Endures.bind (hserving.flushImmutable hall) ?_
  rintro ⟨status, db₁⟩ M₁ ⟨_, all', r₁, olds₁, hflushed, hgrows₁, himm₁, _, hsame⟩
  obtain ⟨rfl, hsingle₁⟩ := hsame hsingle
  refine Endures.bind (hflushed.majorCompaction hpast) ?_
  rintro ⟨status', db₂⟩ M₂ ⟨_, ⟨r₂, hcompacted⟩, hgrows₂, himm₂, _⟩
  refine Endures.bind (hcompacted.removeObsoleteFiles hpast) ?_
  intro _ M₃ hremoved
  refine Endures.ret ⟨⟨m, r₂, olds₁, records, hremoved, ?_⟩, hgrows₁.trans hgrows₂⟩
  change db₂.imm = db₁.imm at himm₂
  rw [DBImpl.Single, himm₂]
  exact hsingle₁

include h in
theorem compactRange (hpast : past all) :
    Endures steady M db.compactRange
      (fun result M' => result.1 = .ok ∧ InService loose all result.2 M' ∧ db.Grows result.2)
      (Outlasts loose past) := by
  obtain ⟨m, r, olds, records, hserving, hsingle⟩ := h
  unfold DBImpl.compactRange
  cases hpick : Compaction.pickCompaction db.options db.versions.current with
  | none =>
    exact Endures.ret ⟨rfl, ⟨m, r, olds, records, hserving, hsingle⟩, DBImpl.Grows.refl db⟩
  | some c =>
    refine Endures.bind (hserving.compact hpast (Compaction.pickCompaction_covers hpick)) ?_
    rintro ⟨status, vs⟩ M₁ ⟨hstatus, ⟨r₁, hcompacted⟩, hlast⟩
    refine Endures.bind (hcompacted.removeObsoleteFiles hpast) ?_
    intro _ M₂ hremoved
    exact Endures.ret ⟨hstatus, ⟨m, r₁, olds, records, hremoved, hsingle⟩,
      DBImpl.Grows.of_heap rfl (le_of_eq hlast.symm)⟩

end InService

end Strata
