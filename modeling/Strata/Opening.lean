import Strata.Background

/-! Opening a database: the manifest gives back the version, the logs behind it become
tables, and a new log is started. -/
namespace Strata

open Library System Layers Memtable VersionSet

variable {loose : Prop} {all : List Entry} {dir left : Dir} {M M' : Medium FileName} {m : Nat}
  {torn : Bytes} {r : Recovery} {v : Version} {logs rest : List (Nat × List Entry)}
  {vs : VersionSet} {edit : VersionEdit} {options : Options} {low high : Nat}

/-! The version that the manifest gives back. -/

theorem Version.Good.sort_eq (h : v.Good loose) : v.sort = v := by
  refine congrArg Version.mk (funext fun level => ?_)
  split
  · rename_i hlevel
    subst hlevel
    exact h.descending.insertionSort_eq
  · rename_i hlevel
    exact (h.ascending level hlevel).insertionSort_eq

theorem VersionSet.installEdit_none (h : vs.current.Good loose) (hnew : edit.newFiles = [])
    (hdeleted : edit.deletedFiles = []) (dir : Dir) (faults : Faults) :
    vs.installEdit edit dir faults = vs.current := by
  have hsame : vs.current.removeFiles [] = vs.current := by
    simp [Version.removeFiles]
  rw [installEdit, hnew, hdeleted, hsame]
  exact h.sort_eq

/-- A directory at rest from which all that was written can be had again, if the next
manifest finds its place free. -/
def Restorable (all : List Entry) (dir : Dir) : Prop :=
  ∃ m torn r v logs, Kept True all dir m torn r v logs

/-- The same, with the recorded sequence number between these bounds. -/
def RestorableWithin (low high : Nat) (all : List Entry) (dir : Dir) : Prop :=
  ∃ m torn r v logs, Kept True all dir m torn r v logs ∧ low ≤ r.maxSeq ∧ r.maxSeq ≤ high

theorem RestorableWithin.restorable (h : RestorableWithin low high all dir) : Restorable all dir := by
  obtain ⟨m, torn, r, v, logs, hkept, _⟩ := h
  exact ⟨m, torn, r, v, logs, hkept⟩

theorem Kept.restorableWithin (h : Kept loose all dir m torn r v logs) (hlow : low ≤ r.maxSeq)
    (hhigh : r.maxSeq ≤ high) : RestorableWithin low high all dir :=
  ⟨m, torn, r, v, logs, h.mono fun _ => trivial, hlow, hhigh⟩

theorem VersionSet.Amending.restorable {newer : List (Nat × List Entry)} {looser : Prop} {m' : Nat}
    {torn' : Bytes} {r' : Recovery} (ham : Amending vs edit M.dir m r left m' torn' r')
    (h : vs.Attached M.dir m torn r) (hedit : vs.Loggable edit)
    (hkept : Kept loose all M.dir m torn r vs.current logs)
    (hnew : Proceeds vs edit M looser newer all) (hlow : low ≤ r.maxSeq)
    (hhigh : vs.lastSequence ≤ high) : RestorableWithin low high all left := by
  have hlow' := le_trans hlow ham.maxSeq.1
  have hhigh' := le_trans ham.maxSeq.2 hhigh
  rcases ham.which with hwhich | hwhich
  · exact (ham.kept_old h hkept hwhich).restorableWithin hlow' hhigh'
  · exact (ham.kept_new h hedit hnew hwhich).restorableWithin hlow' hhigh'

/-- Logging an edit while a database is opened: the manifest is new or it is the one of an
edit before. -/
theorem logAndApply_settles (h : vs.Attached M.dir m torn r) (hedit : vs.Loggable edit)
    (hsafe : vs.descriptorLog ≠ none → M.Safe .current ∧ M.Safe (.manifest m)) :
    Endures steady M (vs.logAndApply edit)
      (fun result M' => ∃ m' r', Amended vs edit M.dir result M'.dir m' r' ∧ M'.Safe .current ∧
        M'.Safe (.manifest m') ∧ Medium.Only
          (fun name => name = .current ∨ name = .currentTmp ∨ name = .manifest m') M M')
      fun M' => ∃ m' torn' r', Amending vs edit M.dir m r M'.dir m' torn' r' := by
  have hlevels : ∀ item ∈ edit.newFiles, item.1 < kNumLevels := fun item hitem =>
    (hedit.newFiles item hitem).1
  have hruns : Runs steady M.dir (vs.logAndApply edit)
      (fun result after => ∃ m' r', Amended vs edit M.dir result after m' r')
      fun left => ∃ m' torn' r', Amending vs edit M.dir m r left m' torn' r' :=
    logAndApply_attached h hedit fun left m' torn' r' ham => ⟨m', torn', r', ham⟩
  rcases h.descriptor with hnone | ⟨hsome, _⟩
  · apply ((logAndApply_create_endures (D := fun _ => True) steady_noFail hnone hlevels
      (fun _ _ => trivial) fun _ _ _ _ _ => trivial).and_runs hruns).weaken
    · rintro result M' ⟨⟨_, ⟨faults, _, hvs⟩, _, _, _, hsettles⟩, m', r', ham⟩
      have hnumber : m' = vs.nextFileNumber := by
        have hdescriptor := ham.descriptor
        rw [hvs] at hdescriptor
        simpa [withDescriptor, applied] using hdescriptor.symm
      subst hnumber
      refine ⟨_, r', ham, ⟨?_, hsettles.current⟩, ⟨?_, hsettles.manifest⟩, hsettles.only⟩
      · rw [hsettles.former]
      · rw [hsettles.former]
    · exact fun M' h => h.2
  · obtain ⟨hcurrent, hmanifest⟩ := hsafe (by simp [hsome])
    apply ((logAndApply_append_endures steady_noFail hsome rfl hlevels).and_runs hruns).weaken
    · rintro result M' ⟨⟨_, ⟨faults, _, hvs⟩, _, _, hformer, hwrites, honly⟩, m', r', ham⟩
      have hnumber : m' = m := by
        have hdescriptor := ham.descriptor
        rw [hvs] at hdescriptor
        simpa [applied, hsome] using hdescriptor.symm
      subst hnumber
      refine ⟨_, r', ham, honly.safe hcurrent (by simp), ⟨?_, hwrites⟩, ?_⟩
      · rw [hformer]
        exact hmanifest.former
      · exact honly.mono fun _ hname => Or.inr (Or.inr hname)
    · exact fun M' h => h.2

/-! The replay of the logs. -/

/-- The store serves all that was written. What it records, and what it has counted, of the
sequence numbers is between these bounds. -/
def InServiceWithin (low high : Nat) (loose : Prop) (all : List Entry) (db : DBImpl)
    (M : Medium FileName) : Prop :=
  ∃ m r olds records, Serving loose all db M m r olds records ∧ db.Single olds ∧
    low ≤ r.maxSeq ∧ db.versions.lastSequence ≤ high

theorem InServiceWithin.inService {db : DBImpl} (h : InServiceWithin low high loose all db M) :
    InService loose all db M := by
  obtain ⟨m, r, olds, records, hserving, hsingle, _⟩ := h
  exact ⟨m, r, olds, records, hserving, hsingle⟩

/-- A database that is being opened, with these logs still to be replayed. -/
structure Replaying (low high : Nat) (loose : Prop) (all : List Entry) (vs : VersionSet) (M : Medium FileName)
    (m : Nat) (torn : Bytes) (r : Recovery) (logs : List (Nat × List Entry)) : Prop where
  attached : vs.Attached M.dir m torn r
  holds : Holds loose M.dir r vs.current logs
  accounts : ∃ flushed, Accounts loose all r.maxSeq (logs.map Prod.snd) vs.current flushed
  tables : ∀ f ∈ vs.current.allFiles, M.Safe (.table f.number)
  manifest : vs.descriptorLog ≠ none → M.Safe .current ∧ M.Safe (.manifest m)
  saved : r.maxFileNum = vs.nextFileNumber
  reached : Reached r logs
  least : low ≤ r.maxSeq
  most : vs.lastSequence ≤ high
  seqs : ∀ e ∈ all, e.seq ≤ high

theorem Stacked.tail {newer : List (List Entry)} {es : List Entry}
    (h : Stacked loose (es :: newer) v) : Stacked loose newer v := by
  constructor
  · exact h.good
  · exact (List.pairwise_cons.mp h.newer).2
  · exact fun log hlog => h.above log (by simp [hlog])
  · apply h.distinct.mono
    intro e he
    rw [mem_held] at he ⊢
    exact he.imp_left fun ⟨log, hlog, hmem⟩ => ⟨log, by simp [hlog], hmem⟩
  · exact fun log hlog => h.types log (by simp [hlog])

namespace Replaying

theorem kept (h : Replaying low high loose all vs M m torn r logs) :
    Kept loose all M.dir m torn r vs.current logs :=
  ⟨h.attached.disk h.holds, h.accounts, h.reached⟩

theorem advance (h : Replaying low high loose all vs M m torn r logs) {seq : Nat}
    (hseq : vs.lastSequence ≤ seq) (hsmall : seq < 2 ^ 64) (hhigh : seq ≤ high) :
    Replaying low high loose all { vs with lastSequence := seq } M m torn r logs :=
  ⟨h.attached.advance (le_refl _) h.attached.bounded.next hseq hsmall, h.holds, h.accounts, h.tables,
    h.manifest, h.saved, h.reached, h.least, hhigh, h.seqs⟩

theorem restorable (h : Replaying low high loose all vs M m torn r logs) :
    RestorableWithin low high all M.dir :=
  h.kept.restorableWithin h.least (le_trans h.attached.maxSeq h.most)

section Log

variable {looser : Prop} {number : Nat} {es : List Entry}

theorem unlink (hattached : vs.Attached M.dir m torn r)
    (hkept : Kept looser all M.dir m torn r vs.current ((number, es) :: rest))
    (hstacked : Stacked loose (rest.map Prod.snd) vs.current)
    (haccounts : ∃ flushed, Accounts loose all r.maxSeq (rest.map Prod.snd) vs.current flushed)
    (htables : ∀ f ∈ vs.current.allFiles, M.Safe (.table f.number))
    (hmanifest : vs.descriptorLog ≠ none → M.Safe .current ∧ M.Safe (.manifest m))
    (hsaved : r.maxFileNum = vs.nextFileNumber) (hclimbs : Climbs r.maxFileNum rest)
    (hlow : low ≤ r.maxSeq) (hhigh : vs.lastSequence ≤ high) (hseqs : ∀ e ∈ all, e.seq ≤ high) :
    Endures steady M (Sys.unlink (.log number))
      (fun _ M' => Replaying low high loose all vs M' m torn r rest) fun M' => RestorableWithin low high all M'.dir := by
  apply (Endures.call_ok (steady_noFail _) rfl (fun _ => rfl) fun _ _ =>
    hkept.restorableWithin hlow (le_trans hattached.maxSeq hhigh)).weaken _ fun _ h => h
  rintro _ M' ⟨_, rfl, _⟩
  have honly : Medium.Only (fun name => name = .log number) M (M.perform (.unlink (.log number))) :=
    (Medium.Only.refl _ M).perform fun _ hname => hname.symm
  refine ⟨?_, hkept.toHolds.unlink hstacked, haccounts, ?_, ?_, hsaved,
    ⟨hkept.reached.1, hclimbs⟩, hlow, hhigh, hseqs⟩
  · exact hattached.of_same ⟨(honly _ (by simp)).1, fun n => (honly _ (by simp)).1⟩
  · exact fun f hf => honly.safe (htables f hf) (by simp)
  · intro hsome
    obtain ⟨hcurrent, hnamed⟩ := hmanifest hsome
    exact ⟨honly.safe hcurrent (by simp), honly.safe hnamed (by simp)⟩

theorem unlink_empty (h : Replaying low high loose all vs M m torn r ((number, []) :: rest)) :
    Endures steady M (Sys.unlink (.log number))
      (fun _ M' => Replaying low high loose all vs M' m torn r rest) fun M' => RestorableWithin low high all M'.dir := by
  obtain ⟨flushed, haccounts⟩ := h.accounts
  apply unlink h.attached h.kept h.holds.stacked.tail ⟨flushed, ?_⟩ h.tables h.manifest h.saved
    h.reached.2.2 h.least h.most h.seqs
  refine { haccounts with mem := fun e => ?_, above := fun log hlog => ?_ }
  · rw [haccounts.mem]
    simp
  · exact haccounts.above log (by simp at hlog ⊢; tauto)

variable (h : Replaying low high loose all vs M m torn r ((number, es) :: rest))

include h in
theorem newTables (hframe : NewTables vs.nextFileNumber M M') :
    Replaying low high loose all vs M' m torn r ((number, es) :: rest) := by
  refine ⟨?_, ?_, h.accounts, ?_, ?_, h.saved, h.reached, h.least, h.most, h.seqs⟩
  · exact h.attached.of_same hframe.onlyTables.sameManifests
  · exact h.holds.onlyTables h.attached.next hframe.onlyTables
  · intro f hf
    apply Medium.Only.safe hframe (h.tables f hf)
    rintro ⟨n, hn, heq⟩
    have hlt := h.attached.bounded.numbers f hf
    have hsame : f.number = n := by simpa using heq
    omega
  · intro hsome
    obtain ⟨hcurrent, hnamed⟩ := h.manifest hsome
    exact ⟨Medium.Only.safe hframe hcurrent (by simp), Medium.Only.safe hframe hnamed (by simp)⟩

section Table

variable {f : FileMetaData} (hfile : NewFile vs f.entries M.dir f)
  (hentries : ∀ e, e ∈ f.entries ↔ e ∈ es) (hseqs : ∀ e ∈ es, e.seq ≤ vs.lastSequence)

include h hfile hentries in
theorem replayed_good : (flushedVersion vs f number M.dir).Good loose := by
  have hholds : Holds loose M.dir r vs.current ([] ++ (number, es) :: rest) := h.holds
  apply installEdit_good
  apply hholds.adds_sane hfile.sound hentries
  · rw [hfile.number]
    exact h.attached.next
  · exact hfile.adds h.holds.stacked.good.toSane h.attached.bounded.numbers _ _

include h hfile hentries in
theorem replayed_stacked :
    Stacked loose (rest.map Prod.snd) (flushedVersion vs f number M.dir) := by
  have hstacked : Stacked loose ([] ++ es :: rest.map Prod.snd) vs.current := h.holds.stacked
  apply hstacked.flush hentries _ (h.replayed_good hfile hentries)
  exact hfile.adds h.holds.stacked.good.toSane h.attached.bounded.numbers _ _

include h hfile hentries hseqs in
theorem replayed_accounts :
    (∃ flushed, Accounts loose all vs.lastSequence (rest.map Prod.snd)
        (flushedVersion vs f number M.dir) flushed) ∧
      ∃ flushed, Accounts True all vs.lastSequence (((number, es) :: rest).map Prod.snd)
        (flushedVersion vs f number M.dir) flushed := by
  obtain ⟨flushed, haccounts⟩ := h.accounts
  have hadds := hfile.adds h.holds.stacked.good.toSane h.attached.bounded.numbers number M.dir
  have hnewer := (List.pairwise_cons.mp h.holds.stacked.newer).1
  have hheld : ∀ e, e ∈ held [] (flushedVersion vs f number M.dir) ↔ e ∈ held [es] vs.current :=
    fun e => Stacked.mem_held_flush hentries hadds
  exact ⟨⟨_, haccounts.flush hheld h.attached.maxSeq hseqs hnewer⟩,
    ⟨_, haccounts.copied hheld h.attached.maxSeq hseqs hnewer⟩⟩

include h hfile hentries hseqs in
theorem replayed_leads :
    Leads (taken vs) (flushEdit f number) M.dir True ((number, es) :: rest) := by
  intro r' hnext hmaxSeq hlogNum
  have hnext' : vs.nextFileNumber + 1 ≤ r'.maxFileNum := hnext
  have hmaxSeq' : r'.maxSeq = vs.lastSequence := hmaxSeq
  have hnumber := hfile.number
  have hcounter := h.attached.next
  apply h.holds.copied hentries
  · omega
  · exact hfile.adds h.holds.stacked.good.toSane h.attached.bounded.numbers _ _
  · exact hfile.stored
  · omega
  · rw [hmaxSeq']
    exact h.attached.maxSeq
  · rw [hmaxSeq']
    exact hseqs
  · exact (h.replayed_good hfile hentries).mono fun _ => trivial
  · exact hlogNum

include h hfile in
theorem replayed_tables (hsafe : M.Safe (.table vs.nextFileNumber)) :
    ∀ g ∈ (flushedVersion vs f number M.dir).allFiles, M.Safe (.table g.number) := by
  have hadds := hfile.adds h.holds.stacked.good.toSane h.attached.bounded.numbers number M.dir
  intro g hg
  obtain ⟨level, hg⟩ := Version.mem_allFiles.mp hg
  rcases (hadds.mem level g).mp hg with hg | ⟨_, rfl⟩
  · exact h.tables g (Version.mem_allFiles.mpr ⟨level, hg⟩)
  · rw [hfile.number]
    exact hsafe

include h hfile hentries hseqs in
theorem replayed_proceeds (hsafe : M.Safe (.table vs.nextFileNumber)) :
    Proceeds (taken vs) (flushEdit f number) M True ((number, es) :: rest) all := by
  have hclimbs : Climbs (vs.nextFileNumber + 1) ((number, es) :: rest) :=
    h.reached.2.mono (h.saved ▸ Nat.le_succ _)
  exact ⟨h.replayed_leads hfile hentries hseqs, h.replayed_tables hfile hsafe,
    (h.replayed_accounts hfile hentries hseqs).2, hclimbs.1, hclimbs⟩

end Table

include h in
theorem replayTable {mem : List Entry} {f : FileMetaData} (hnumber : number < 2 ^ 63)
    (hnew : NewFile vs mem M.dir f) (hentries : ∀ e, e ∈ f.entries ↔ e ∈ es)
    (hseqs : ∀ e ∈ es, e.seq ≤ vs.lastSequence) (hsafe : M.Safe (.table vs.nextFileNumber)) :
    Endures steady M (do
        let (status, versions) ← (taken vs).logAndApply (flushEdit f number)
        if !status.isOk then
          return (status, versions)
        let _ ← Sys.unlink (.log number)
        return (.ok, versions))
      (fun result M' => result.1 = .ok ∧
        ∃ m' torn' r', Replaying low high loose all result.2 M' m' torn' r' rest)
      fun M' => RestorableWithin low high all M'.dir := by
  have hfile : NewFile vs f.entries M.dir f := hnew.entries ▸ hnew
  have htaken : (taken vs).Attached M.dir m torn r :=
    h.attached.advance (Nat.le_succ _) hnew.small (le_refl _) h.attached.bounded.lastSequence
  have hproceeds := h.replayed_proceeds hfile hentries hseqs hsafe
  have hedit := hfile.loggable hnumber
  refine Endures.bind ((logAndApply_settles htaken hedit h.manifest).weaken (fun _ _ hQ => hQ) ?_) ?_
  · rintro M' ⟨m', torn', r', ham⟩
    exact ham.restorable htaken hedit h.kept hproceeds h.least h.most
  rintro ⟨status, vs'⟩ M' ⟨m', r', ham, hcurrent, hmanifest, honly⟩
  obtain rfl : status = .ok := ham.status
  have hversion : vs'.current = flushedVersion vs f number M.dir := ham.current
  have hmaxSeq : r'.maxSeq = vs.lastSequence := ham.saved.2
  have hholds := ham.holds hproceeds.leads
  have hreached : Reached r' ((number, es) :: rest) :=
    hproceeds.reached (ham.attached.logNum.trans ham.logNumber) (ham.saved.1 ▸ ham.next)
  simp only [Status.isOk_ok, Bool.not_true, Bool.false_eq_true, ↓reduceIte]
  have hdone : Endures steady M' (Sys.unlink (.log number))
      (fun _ M'' => Replaying low high loose all vs' M'' m' [] r' rest) fun M'' => RestorableWithin low high all M''.dir := by
    apply unlink ham.attached ⟨ham.attached.disk hholds, ?_, hreached⟩
    · rw [hversion]
      exact h.replayed_stacked hfile hentries
    · rw [hversion, hmaxSeq]
      exact (h.replayed_accounts hfile hentries hseqs).1
    · intro g hg
      rw [hversion] at hg
      exact honly.safe (hproceeds.tables g hg) (by simp)
    · exact fun _ => ⟨hcurrent, hmanifest⟩
    · exact ham.saved.1
    · have hnext : vs.nextFileNumber + 1 ≤ r'.maxFileNum := ham.saved.1 ▸ ham.next
      have hclimbed := climbed_singleton_le r.maxFileNum (number, es)
      exact h.reached.2.2.mono (le_trans hclimbed (h.saved ▸ hnext))
    · rw [hmaxSeq]
      exact le_trans h.least h.attached.maxSeq
    · exact ham.lastSequence ▸ h.most
    · exact h.seqs
    · rw [hversion, hmaxSeq]
      exact hproceeds.accounts
  refine Endures.bind hdone ?_
  intro _ M'' hreplaying
  exact Endures.ret ⟨rfl, m', [], r', hreplaying⟩

theorem le_foldl_max (es : List Entry) (seq : Nat) :
    seq ≤ es.foldl (fun seq e => max seq e.seq) seq ∧
      ∀ e ∈ es, e.seq ≤ es.foldl (fun seq e => max seq e.seq) seq := by
  induction es generalizing seq with
  | nil => simp
  | cons first rest ih =>
    obtain ⟨hseq, hrest⟩ := ih (max seq first.seq)
    rw [List.foldl_cons]
    refine ⟨le_trans (le_max_left _ _) hseq, fun e he => ?_⟩
    rcases List.mem_cons.mp he with rfl | he
    · exact le_trans (le_max_right _ _) hseq
    · exact hrest e he

theorem foldl_max_lt {es : List Entry} {seq limit : Nat} (hseq : seq < limit)
    (hseqs : ∀ e ∈ es, e.seq < limit) : es.foldl (fun seq e => max seq e.seq) seq < limit := by
  induction es generalizing seq with
  | nil => exact hseq
  | cons first rest ih =>
    rw [List.foldl_cons]
    exact ih (max_lt hseq (hseqs first (by simp))) fun e he => hseqs e (by simp [he])

include h in
theorem foldl_max_le : es.foldl (fun seq e => max seq e.seq) vs.lastSequence ≤ high := by
  obtain ⟨flushed, haccounts⟩ := h.accounts
  apply Nat.le_of_lt_succ
  apply foldl_max_lt (Nat.lt_succ_of_le h.most)
  intro e he
  exact Nat.lt_succ_of_le (h.seqs e ((haccounts.mem e).mpr (Or.inr (by simp [he]))))

include h in
theorem replayLog (options : Options) :
    Endures steady M (replayLog options vs number)
      (fun result M' => result.1 = .ok ∧
        ∃ m' torn' r', Replaying low high loose all result.2 M' m' torn' r' rest)
      fun M' => RestorableWithin low high all M'.dir := by
  obtain ⟨_, hfile⟩ := h.holds.listed (number, es) (by simp)
  obtain ⟨tail, hbytes, htail⟩ := hfile.bytes
  obtain ⟨status, hread⟩ := readAll_torn hfile.fits htail
  obtain ⟨hlast, hseqs⟩ := le_foldl_max es vs.lastSequence
  have hsmall := foldl_max_lt h.attached.bounded.lastSequence fun e he => (hfile.fits e he).1
  have htypes : ∀ e ∈ es, e.HasType := h.holds.stacked.types es (by simp)
  unfold Strata.replayLog
  refine Endures.bind (Endures.readDir (Q := fun seen M' => seen = M.dir ∧ M' = M) ⟨rfl, rfl⟩) ?_
  rintro seen M₁ ⟨rfl, rfl⟩
  refine Endures.bind (Endures.readFaults (Q := fun faults M' => faults = (fun _ => none) ∧ M' = M₁)
    fun faults hfaults => ⟨hfaults, rfl⟩) ?_
  rintro faults M₂ ⟨rfl, rfl⟩
  simp only at hbytes
  simp only [hbytes, WalReader.new, hread, setLastSequence_eq, Nat.max_eq_right hlast,
    count_foldl_add]
  have hadvanced := h.advance hlast hsmall (h.foldl_max_le)
  rw [if_neg (by simp)]
  by_cases hempty : es = []
  · subst hempty
    rw [if_neg (by simp)]
    refine Endures.bind hadvanced.unlink_empty ?_
    intro _ M' hdone
    exact Endures.ret ⟨rfl, m, torn, r, hdone⟩
  · rw [if_pos (List.length_pos_iff.mpr hempty)]
    have hmem : ∀ e, e ∈ (es.foldl add Memtable.new).entries ↔ e ∈ es := by
      intro e
      rw [(perm_foldl_add _ es).mem_iff]
      simp [Memtable.new]
    refine Endures.bind ((writeLevel0Table_endures options _
      (sorted_foldl_add (m := Memtable.new) List.Pairwise.nil es)
      (fun e he => (hfile.fits e ((hmem e).mp he)).1)
      fun e he => htypes e ((hmem e).mp he)).weaken (fun _ _ hQ => hQ) fun M' hframe =>
        (hadvanced.newTables hframe).restorable) ?_
    rintro result M₃ ⟨f, rfl, hnew, hsafe, hframe⟩
    exact (hadvanced.newTables hframe).replayTable hfile.small hnew
      (fun e => (hnew.entries ▸ hmem e)) hseqs hsafe

end Log

theorem replayLogs (options : Options) (h : Replaying low high loose all vs M m torn r logs) :
    Endures steady M (replayLogs options vs (logs.map Prod.fst))
      (fun result M' => result.1 = .ok ∧
        ∃ m' torn' r', Replaying low high loose all result.2 M' m' torn' r' [])
      fun M' => RestorableWithin low high all M'.dir := by
  induction logs generalizing vs M m torn r with
  | nil => exact Endures.ret ⟨rfl, m, torn, r, h⟩
  | cons log rest ih =>
    rw [List.map_cons, Strata.replayLogs]
    refine Endures.bind (h.replayLog options) ?_
    rintro ⟨status, vs'⟩ M' ⟨hstatus, m', torn', r', hrest⟩
    simp only at hstatus hrest
    subst hstatus
    exact ih hrest

/-! The log of the opened database. -/

section Start

variable (h : Replaying low high loose all vs M m torn r [])

include h in
theorem no_log {n : Nat} (hn : vs.nextFileNumber ≤ n) : M.dir.lookup (.log n) = none := by
  cases hfile : M.dir.lookup (.log n) with
  | none => rfl
  | some bytes =>
    have hsome : (M.dir.lookup (.log n)).isSome := by rw [hfile]; rfl
    have hstale := h.holds.stale n (le_trans h.attached.next hn) hsome
    obtain ⟨log, hlog, _⟩ := h.holds.counted n hstale hsome
    cases hlog

include h in
theorem recent {e : Entry} (he : e ∈ all) : e.seq ≤ vs.lastSequence := by
  obtain ⟨flushed, haccounts⟩ := h.accounts
  have hmem := (haccounts.mem e).mp he
  simp only [List.map_nil, List.flatten_nil, List.not_mem_nil, or_false] at hmem
  exact le_trans (haccounts.seqs e hmem) h.attached.maxSeq

def startEdit (vs : VersionSet) : VersionEdit := { logNumber := some vs.nextFileNumber }

include h in
theorem started_current (dir : Dir) :
    (taken vs).installEdit ((taken vs).completeEdit (startEdit vs)) dir (fun _ => none) =
      vs.current :=
  installEdit_none h.holds.stacked.good rfl rfl dir _

section Started

variable {M₁ : Medium FileName}
  (hdir : M₁.dir = M.dir.insert (FileName.log vs.nextFileNumber) ([] : Bytes))
  (hsmall : vs.nextFileNumber < 2 ^ 63)

include h hdir hsmall in
theorem started_attached : (taken vs).Attached M₁.dir m torn r := by
  apply (h.attached.advance (Nat.le_succ _) hsmall (le_refl _)
    h.attached.bounded.lastSequence).of_same
  rw [hdir]
  exact ⟨lookup_insert_other (by simp), fun n => lookup_insert_other (by simp)⟩

include h hdir hsmall in
theorem started_kept : Kept loose all M₁.dir m torn r vs.current [(vs.nextFileNumber, [])] := by
  have hsaved := h.saved
  obtain ⟨flushed, haccounts⟩ := h.accounts
  refine ⟨(h.started_attached hdir hsmall).disk ?_, ⟨flushed, haccounts.open_log⟩, h.reached.1, ?_⟩
  · rw [hdir]
    exact h.holds.open_log (by simp) hsmall (hsaved ▸ h.reached.1)
  · exact ⟨le_of_eq hsaved.symm, trivial⟩

include h hdir hsmall in
theorem started_proceeds
    (htables : ∀ f ∈ vs.current.allFiles, M₁.Safe (.table f.number)) :
    Proceeds (taken vs) (startEdit vs) M₁ loose [(vs.nextFileNumber, [])] all := by
  have hkept := h.started_kept hdir hsmall
  have hleast : r.logNum ≤ vs.nextFileNumber := h.saved ▸ h.reached.1
  obtain ⟨flushed, haccounts⟩ := hkept.accounts
  refine ⟨fun r' hnext hmaxSeq hlogNum => ?_, ?_, ⟨flushed, ?_⟩, Nat.le_succ _,
    Nat.le_succ _, trivial⟩
  · have hnext' : vs.nextFileNumber + 1 ≤ r'.maxFileNum := hnext
    have hseq' : r.maxSeq ≤ r'.maxSeq := hmaxSeq.symm ▸ h.attached.maxSeq
    have hnumber : r'.logNum = vs.nextFileNumber := hlogNum
    have hcounter := h.attached.next
    rw [h.started_current]
    constructor
    · exact hkept.stacked
    · exact hkept.stored
    · exact fun f hf => lt_of_lt_of_le (hkept.numbers f hf) (by omega)
    · exact fun f hf e he => le_trans (hkept.seqs f hf e he) hseq'
    · exact hkept.ascending
    · intro log hlog
      refine ⟨?_, (hkept.listed log hlog).2⟩
      rw [List.mem_singleton.mp hlog, hnumber]
    · exact fun n hn => hkept.counted n (by omega)
    · intro n hn _
      omega
    · exact hkept.known
  · rw [h.started_current]
    exact htables
  · rw [h.started_current]
    exact haccounts.grow h.attached.maxSeq

end Started

include h in
theorem startLog (hdistinct : Distinct all) (options : Options) :
    Endures steady M (startLog options vs)
      (fun result M' => ∃ db, result = (.ok, some db) ∧ db.options = options ∧ db.imm = none ∧
        InServiceWithin low high loose all db M')
      fun M' => RestorableWithin low high all M'.dir := by
  unfold Strata.startLog
  simp only [newFileNumber]
  refine Endures.bind (openAppend_endures steady_noFail _ h.restorable) ?_
  rintro writer M₁ ⟨rfl, hM₁, hcreate⟩
  have hsmall : vs.nextFileNumber < 2 ^ 63 := steady_limited _ hcreate
  have hdir : M₁.dir = M.dir.insert (FileName.log vs.nextFileNumber) ([] : Bytes) := by
    rw [hM₁, M.perform_openAppend]
    simp [touch, h.no_log (le_refl _)]
  have honly : Medium.Only (fun name => name = .log vs.nextFileNumber) M M₁ := by
    rw [hM₁]
    exact (Medium.Only.refl _ M).perform fun _ => Eq.symm
  have hattached := h.started_attached hdir hsmall
  have hproceeds := h.started_proceeds hdir hsmall fun f hf =>
    honly.safe (h.tables f hf) (by simp)
  have hedit : (taken vs).Loggable (startEdit vs) := by
    refine ⟨rfl, rfl, rfl, ?_, by simp [startEdit], by simp [startEdit]⟩
    rintro n ⟨⟩
    exact hsmall
  have hsafe : vs.descriptorLog ≠ none → M₁.Safe .current ∧ M₁.Safe (.manifest m) := by
    intro hsome
    obtain ⟨hcurrent, hmanifest⟩ := h.manifest hsome
    exact ⟨honly.safe hcurrent (by simp), honly.safe hmanifest (by simp)⟩
  refine Endures.bind ((logAndApply_settles hattached hedit hsafe).weaken (fun _ _ hQ => hQ) ?_) ?_
  · rintro M' ⟨m', torn', r', ham⟩
    exact ham.restorable hattached hedit (h.started_kept hdir hsmall) hproceeds h.least h.most
  rintro ⟨status, vs'⟩ M₂ ⟨m', r', ham, hcurrent, hmanifest, honly'⟩
  obtain rfl : status = .ok := ham.status
  have hversion : vs'.current = vs.current := ham.current.trans (h.started_current _)
  have hlast : vs'.lastSequence = vs.lastSequence := ham.lastSequence
  have hmaxSeq : r'.maxSeq = vs.lastSequence := ham.saved.2
  have hnext : vs.nextFileNumber + 1 ≤ vs'.nextFileNumber := ham.next
  have hreached : Reached r' [(vs.nextFileNumber, [])] :=
    hproceeds.reached (ham.attached.logNum.trans ham.logNumber) (ham.saved.1 ▸ ham.next)
  have haccounts : ∃ flushed, Accounts loose all r'.maxSeq [[]] vs'.current flushed := by
    rw [hversion, hmaxSeq, ← h.started_current M₁.dir]
    exact hproceeds.accounts
  have hrecent : ∀ e ∈ all, e.seq ≤ vs'.lastSequence := fun e he => hlast ▸ h.recent he
  refine Endures.ret ⟨_, rfl, rfl, rfl, m', r', [], [], ?_, rfl, ?_, le_of_eq_of_le hlast h.most⟩
  case refine_2 => exact hmaxSeq ▸ le_trans h.least h.attached.maxSeq
  refine ⟨⟨ham.attached, ham.descriptor, ham.holds hproceeds.leads, ?_, rfl, hnext, ?_, ?_,
    (fun index hindex => by cases hindex)⟩, haccounts, hrecent, hdistinct,
    ⟨hcurrent, hmanifest, ?_⟩, fun _ => ham.saved.1, ?_, hreached⟩
  · rw [(honly' _ (by simp)).1, hdir]
    exact lookup_insert_self _ _ _
  · intro e he
    obtain ⟨flushed, hstands⟩ := haccounts
    exact hrecent e (hstands.reduces.subset e he)
  · simp [DBImpl.active, DBImpl.memtable]
  · intro f hf
    simp only at hf
    rw [hversion] at hf
    exact honly'.safe (honly.safe (h.tables f hf) (by simp)) (by simp)
  · exact le_trans (le_of_eq ham.saved.1.symm) (Nat.le_succ _)

end Start

end Replaying

/-! The logs and the manifest of an existing database. -/

def ownLog : FileName → Option Nat
  | .log number => some number
  | _ => none

theorem ownLog_eq_some {name : FileName} {n : Nat} : ownLog name = some n ↔ name = .log n := by
  cases name <;> simp [ownLog]

theorem logFiles_own {names : List FileName} (hknown : ∀ text, .other text ∉ names) (least : Nat) :
    logFiles least names =
      some (((names.filterMap ownLog).filter fun n => n ≥ least).insertionSort (· ≤ ·)) := by
  have hfound : ∀ name ∈ names, logFileNumber name = (ownLog name).map some := by
    intro name hname
    cases name with
    | other text => exact absurd hname (hknown text)
    | _ => rfl
  have hmap : names.filterMap logFileNumber = (names.filterMap ownLog).map some := by
    rw [List.filterMap_congr hfound, List.map_filterMap]
  have hnone : ((names.filterMap ownLog).map some).any Option.isNone = false := by
    rw [List.any_eq_false]
    intro found hmem
    obtain ⟨n, _, rfl⟩ := List.mem_map.mp hmem
    simp
  unfold logFiles
  simp only [hmap, hnone, Bool.false_eq_true, ↓reduceIte]
  rw [List.filterMap_map]
  simp

def ownLogs (dir : Dir) (least : Nat) : List Nat :=
  (dir.keys.filterMap ownLog).filter fun n => n ≥ least

theorem mem_ownLogs {dir : Dir} {least n : Nat} :
    n ∈ ownLogs dir least ↔ (dir.lookup (.log n)).isSome ∧ least ≤ n := by
  rw [AList.lookup_isSome, AList.mem_keys]
  simp [ownLogs, ownLog_eq_some]

theorem nodup_ownLogs (dir : Dir) (least : Nat) : (ownLogs dir least).Nodup := by
  apply List.Nodup.filter
  apply List.Nodup.filterMap _ dir.nodupKeys
  intro a b n ha hb
  rw [Option.mem_def, ownLog_eq_some] at ha hb
  rw [ha, hb]

theorem Holds.logFiles (h : Holds loose dir r v logs) :
    logFiles r.logNum dir.keys = some (logs.map Prod.fst) := by
  have hascending : (logs.map Prod.fst).Pairwise (· < ·) := List.pairwise_map.mpr h.ascending
  have hperm : (ownLogs dir r.logNum).Perm (logs.map Prod.fst) := by
    apply (List.perm_ext_iff_of_nodup (nodup_ownLogs dir _) (hascending.imp ne_of_lt)).mpr
    intro n
    rw [mem_ownLogs, List.mem_map]
    constructor
    · rintro ⟨hsome, hle⟩
      exact h.counted n hle hsome
    · rintro ⟨log, hlog, rfl⟩
      obtain ⟨hle, hfile⟩ := h.listed log hlog
      obtain ⟨tail, hbytes, _⟩ := hfile.bytes
      exact ⟨by rw [hbytes]; rfl, hle⟩
  rw [logFiles_own]
  · exact congrArg some (((List.perm_insertionSort _ _).trans hperm).eq_of_pairwise
      (fun a b _ _ => le_antisymm) (List.pairwise_insertionSort _ _) (hascending.imp le_of_lt))
  · intro text hmem
    have hsome := AList.lookup_isSome.mpr (AList.mem_keys.mpr hmem)
    rw [h.known] at hsome
    cases hsome

theorem Replaying.openRest (h : Replaying low high loose all vs M m torn r logs) (hdistinct : Distinct all)
    (options : Options) :
    Endures steady M (do
        let dir ← Sys.readDir
        match Strata.logFiles vs.logNumber dir.keys with
        | none => Sys.stuck
        | some numbers =>
          let (status, versions) ← Strata.replayLogs options vs numbers
          if !status.isOk then
            return (status, none)
          Strata.startLog options versions)
      (fun result M' => ∃ db, result = (.ok, some db) ∧ db.options = options ∧ db.imm = none ∧
        InServiceWithin low high loose all db M')
      fun M' => RestorableWithin low high all M'.dir := by
  refine Endures.bind (Endures.readDir (Q := fun seen M' => seen = M.dir ∧ M' = M) ⟨rfl, rfl⟩) ?_
  rintro seen M₁ ⟨rfl, rfl⟩
  simp only [← h.attached.logNum, h.holds.logFiles]
  refine Endures.bind (h.replayLogs options) ?_
  rintro ⟨status, vs'⟩ M₂ ⟨hstatus, m', torn', r', hreplayed⟩
  simp only at hstatus hreplayed
  subst hstatus
  exact hreplayed.startLog hdistinct options

def recovered (dir : Dir) (r : Recovery) : VersionSet :=
  VersionSet.new.install dir (fun _ => none) r

theorem Kept.current_recovered (h : Kept loose all dir m torn r v logs) :
    (recovered dir r).current = v :=
  install_current _ h.lists h.stacked.good h.stored

theorem Intact.replaying (h : Intact loose all M.dir m torn r v logs)
    (htables : ∀ f ∈ v.allFiles, M.Safe (.table f.number)) (hlow : low ≤ r.maxSeq)
    (hhigh : r.maxSeq ≤ high) (hseqs : ∀ e ∈ all, e.seq ≤ high) :
    Replaying low high loose all (recovered M.dir r) M m torn r logs := by
  have hcurrent := h.toKept.current_recovered
  have hnext : (recovered M.dir r).nextFileNumber = r.maxFileNum :=
    if_pos (lt_of_le_of_lt (Nat.zero_le _) h.manifest)
  refine ⟨⟨h.recorded, h.tail, ?_, rfl, Or.inl rfl, h.manifest, le_of_eq hnext.symm, le_refl _, ?_,
    h.fresh⟩, ?_, ?_, ?_, (fun hsome => absurd rfl hsome), hnext.symm, h.reached, hlow, hhigh, hseqs⟩
  · rw [hcurrent]
    exact h.lists
  · refine ⟨hnext ▸ h.maxFileNum, h.maxSeq, h.logNum, ?_, ?_⟩
    · rw [hcurrent, hnext]
      exact h.numbers
    · rw [hcurrent]
      intro f hf
      obtain ⟨level, hlevel⟩ := Version.mem_allFiles.mp hf
      exact (h.stacked.good.sound level f hlevel).fileSize_lt (h.stored f hf)
  · rw [hcurrent]
    exact h.toHolds
  · rw [hcurrent]
    exact h.accounts
  · rw [hcurrent]
    exact htables

theorem Intact.only_lock (h : Intact loose all M.dir m torn r v logs)
    (honly : Medium.Only (fun name => name = .lock) M M') :
    Intact loose all M'.dir m torn r v logs := by
  have hsame : ∀ name, name ≠ .lock → M'.dir.lookup name = M.dir.lookup name := fun name hname =>
    (honly name hname).1
  refine ⟨⟨⟨?_, ?_, h.tail, h.lists, h.manifest, h.maxFileNum, h.maxSeq, h.logNum⟩, h.accounts,
    h.reached⟩, ?_⟩
  · exact h.toHolds.frame (fun _ => hsame _ (by simp)) (fun _ _ => hsame _ (by simp))
      fun _ => hsame _ (by simp)
  · exact h.recorded.of_lookup (hsame _ (by simp)) (hsame _ (by simp))
  · exact h.fresh.of_same ⟨hsame _ (by simp), fun _ => hsame _ (by simp)⟩

section Existing

variable (h : Intact loose all M.dir m torn r v logs)
  (htables : ∀ f ∈ v.allFiles, M.Safe (.table f.number))

section Within

variable (hlow : low ≤ r.maxSeq) (hhigh : r.maxSeq ≤ high) (hseqs : ∀ e ∈ all, e.seq ≤ high)

include h htables hlow hhigh hseqs in
theorem recoverVersions_replaying (hexists : options.errorIfExists = false) :
    Endures steady M (recoverVersions options)
      (fun result M' => result.1 = .ok ∧ Replaying low high loose all result.2 M' m torn r logs)
      fun M' => RestorableWithin low high all M'.dir := by
  unfold recoverVersions
  refine Endures.bind (Endures.readDir (Q := fun seen M' => seen = M.dir ∧ M' = M) ⟨rfl, rfl⟩) ?_
  rintro seen M₁ ⟨rfl, rfl⟩
  refine Endures.bind (Endures.readFaults (Q := fun faults M' => faults = (fun _ => none) ∧ M' = M₁)
    fun faults hfaults => ⟨hfaults, rfl⟩) ?_
  rintro faults M₂ ⟨rfl, rfl⟩
  simp only [h.recorded.current, Option.isNone_some, Bool.false_eq_true, ↓reduceIte, hexists,
    h.recorded.recover h.tail]
  exact Endures.ret ⟨rfl, h.replaying htables hlow hhigh hseqs⟩

include h htables hlow hhigh hseqs in
/-- Opening an intact database: it serves all that was written, and a kill leaves a
directory that still stands for it. -/
theorem openDB_endures_within (hdistinct : Distinct all) (hexists : options.errorIfExists = false) :
    Endures steady M (openDB options)
      (fun result M' => ∃ db, result = (.ok, some db) ∧ db.options = options ∧ db.imm = none ∧
        InServiceWithin low high loose all db M')
      fun M' => RestorableWithin low high all M'.dir := by
  unfold openDB
  refine Endures.bind (Endures.call_ok (steady_noFail _) (M.perform_openAppend .lock) (fun _ => rfl)
    fun _ _ => h.toKept.restorableWithin hlow hhigh) ?_
  rintro opened M₁ ⟨rfl, rfl, _⟩
  have honly : Medium.Only (fun name => name = .lock) M (M.perform (.openAppend .lock)) :=
    (Medium.Only.refl _ M).perform fun _ => Eq.symm
  refine Endures.bind (recoverVersions_replaying (h.only_lock honly)
    (fun f hf => honly.safe (htables f hf) (by simp)) hlow hhigh hseqs hexists) ?_
  rintro ⟨status, vs⟩ M₂ ⟨hstatus, hreplaying⟩
  simp only at hstatus hreplaying
  subst hstatus
  exact hreplaying.openRest hdistinct options

end Within

include h htables in
theorem openDB_endures (hdistinct : Distinct all) (hexists : options.errorIfExists = false) :
    Endures steady M (openDB options)
      (fun result M' => ∃ db, result = (.ok, some db) ∧ db.options = options ∧ db.imm = none ∧
        InService loose all db M')
      fun M' => Restorable all M'.dir := by
  obtain ⟨hhigh, hseqs⟩ := Replaying.le_foldl_max all r.maxSeq
  apply (openDB_endures_within h htables (Nat.zero_le _) hhigh hseqs hdistinct hexists).weaken
  · rintro result M' ⟨db, hresult, hoptions, himm, hdone⟩
    exact ⟨db, hresult, hoptions, himm, hdone.inService⟩
  · exact fun _ hrest => hrest.restorable

end Existing

/-! A new database. -/

theorem Version.good_empty : Version.empty.Good loose := by
  have hnone : ∀ level, Version.empty.files level = [] := fun _ => rfl
  constructor
  · constructor <;> simp [hnone]
  · simp [hnone]
  · simp [hnone]

theorem held_empty : held [] Version.empty = [] := by
  rw [List.eq_nil_iff_forall_not_mem]
  intro e he
  rcases mem_held.mp he with ⟨es, hes, _⟩ | ⟨level, f, hf, _⟩
  · cases hes
  · cases hf

theorem Stacked.empty : Stacked loose [] Version.empty := by
  refine ⟨Version.good_empty, List.Pairwise.nil, by simp, ?_, by simp⟩
  rw [held_empty]
  exact fun a ha => nomatch ha

def Bare (dir : Dir) : Prop := ∀ name, name ≠ .lock → dir.lookup name = none

theorem bare_empty : Bare ∅ := fun _ _ => AList.lookup_empty _

theorem Holds.of_bare {number : Nat} (hbare : Bare dir)
    (hsame : ∀ name, name ≠ .current → name ≠ .currentTmp → name ≠ .manifest number →
      left.lookup name = dir.lookup name) : Holds loose left r Version.empty [] := by
  have hlog : ∀ n, left.lookup (.log n) = none := fun n => by
    rw [hsame _ (by simp) (by simp) (by simp), hbare _ (by simp)]
  have hfiles : Version.empty.allFiles = [] := by simp [Version.allFiles, Version.empty]
  refine ⟨Stacked.empty, by simp [hfiles], by simp [hfiles], by simp [hfiles], List.Pairwise.nil,
    by simp, by simp [hlog], by simp [hlog], fun text => ?_⟩
  rw [hsame _ (by simp) (by simp) (by simp), hbare _ (by simp)]

theorem Accounts.nothing (bound : Nat) : Accounts loose [] bound [] Version.empty [] := by
  refine ⟨by simp, by simp, ?_, by simp⟩
  rw [held_empty]
  exact Reduces.refl _

theorem recoverVersions_new (hbare : Bare M.dir) (hcreate : options.createIfMissing = true) :
    Endures steady M (recoverVersions options)
      (fun result M' => result.1 = .ok ∧ ∃ m r, Replaying 0 0 False [] result.2 M' m [] r [])
      fun _ => True := by
  have hcurrent : M.dir.lookup .current = none := hbare _ (by simp)
  have hfresh : (M.dir.lookup (.manifest VersionSet.new.nextFileNumber)).getD [] = [] := by
    rw [hbare _ (by simp)]
    rfl
  have hbounded : VersionSet.new.Bounded := by
    refine ⟨by decide, by decide, by decide, ?_, ?_⟩ <;>
      simp [VersionSet.new, Version.allFiles, Version.empty]
  have hedit : Storable newDatabaseEdit := by
    refine ⟨?_, ?_, ?_, by simp [newDatabaseEdit], by simp [newDatabaseEdit]⟩ <;>
    · rintro n ⟨⟩
      decide
  unfold recoverVersions
  refine Endures.bind (Endures.readDir (Q := fun seen M' => seen = M.dir ∧ M' = M) ⟨rfl, rfl⟩) ?_
  rintro seen M₁ ⟨rfl, rfl⟩
  refine Endures.bind (Endures.readFaults (Q := fun faults M' => faults = (fun _ => none) ∧ M' = M₁)
    fun faults hfaults => ⟨hfaults, rfl⟩) ?_
  rintro faults M₂ ⟨rfl, rfl⟩
  simp only [hcurrent, Option.isNone_none, ↓reduceIte, hcreate, Bool.not_true, Bool.false_eq_true]
  apply (logAndApply_create_endures (D := fun _ => True) steady_noFail rfl
    (by simp [newDatabaseEdit]) (fun _ _ => trivial) fun _ _ _ _ _ => trivial).weaken _ fun _ h => h
  rintro ⟨status, vs⟩ M' ⟨hstatus, ⟨faults, hfaults, hvs⟩, hswitched, ⟨hcall, offset, hsnapshot⟩,
    ⟨offset', hlogged⟩, hsettles⟩
  obtain rfl : faults = fun _ => none := hfaults
  simp only at hstatus hvs
  subst hstatus
  have hsmall := (steady_limited _ hsnapshot).1
  have hsmall' := (steady_limited _ hlogged).1
  obtain ⟨r₁, hfirst, hlists, hmaxFile, hmaxSeq, hlogNum⟩ := snapshot_after hbounded hsmall
  obtain ⟨r₂, hafter⟩ := hedit.exists_after (by decide) (by decide) hsmall' r₁
  have hrecorded := (hswitched.recorded hfresh hsmall hfirst).after hafter hsmall'
  have hversion : vs.current = Version.empty := by
    rw [hvs]
    exact installEdit_none (Version.good_empty : Version.empty.Good False) rfl rfl _ _
  have hnumbers : r₂.maxFileNum = 3 ∧ r₂.maxSeq = 0 ∧ r₂.logNum = 0 := by
    refine ⟨?_, ?_, ?_⟩
    · rw [hafter.maxFileNum (by simp [newDatabaseEdit, completeEdit]), hmaxFile]
      rfl
    · rw [hafter.maxSeq, hmaxSeq]
      rfl
    · rw [hafter.logNum]
      rfl
  obtain ⟨hmax, hseq, hnum⟩ := hnumbers
  have hnext : vs.nextFileNumber = 3 := by rw [hvs]; rfl
  have hlast : vs.lastSequence = 0 := by rw [hvs]; rfl
  have hlog : vs.logNumber = 0 := by rw [hvs]; rfl
  have hfiles : vs.current.allFiles = [] := by simp [hversion, Version.allFiles, Version.empty]
  have hempty : r₁.Lists VersionSet.new.current := hlists
  have hholds : Holds False M'.dir r₂ vs.current [] := by
    rw [hversion]
    exact Holds.of_bare hbare fun name h₁ h₂ h₃ => (hsettles.only name (by tauto)).1
  have hattached : vs.Attached M'.dir 2 [] r₂ := by
    refine ⟨hrecorded, tornTail_short (by simp), ?_, by rw [hnum, hlog], ?_, by omega, by omega,
      by omega, ⟨by omega, by omega, by omega, by simp [hfiles], by simp [hfiles]⟩, ?_⟩
    · rw [hvs]
      exact hafter.lists hempty _ _
    · rw [hvs]
      exact Or.inr ⟨rfl, rfl⟩
    · intro n hn
      have hne : n ≠ VersionSet.new.nextFileNumber := by
        change n ≠ 2
        omega
      rw [(hsettles.only _ (by simpa using hne)).1, hbare _ (by simp)]
      rfl
  refine ⟨rfl, 2, r₂, hattached, hholds, ⟨[], ?_⟩, by simp [hfiles], ?_,
    hmax.trans hnext.symm, ⟨by omega, trivial⟩, Nat.zero_le _, le_of_eq hlast, by simp⟩
  · rw [hversion]
    exact Accounts.nothing _
  · exact fun _ => ⟨⟨by rw [hsettles.former], hsettles.current⟩,
      ⟨by rw [hsettles.former], hsettles.manifest⟩⟩

theorem openDB_new_endures (hbare : Bare M.dir) (hcreate : options.createIfMissing = true) :
    Endures steady M (openDB options)
      (fun result M' => ∃ db, result = (.ok, some db) ∧ db.options = options ∧ db.imm = none ∧
        InService False [] db M')
      fun _ => True := by
  unfold openDB
  refine Endures.bind (Endures.call_ok (steady_noFail _) (M.perform_openAppend .lock) (fun _ => rfl)
    fun _ _ => trivial) ?_
  rintro opened M₁ ⟨rfl, rfl, _⟩
  have honly : Medium.Only (fun name => name = .lock) M (M.perform (.openAppend .lock)) :=
    (Medium.Only.refl _ M).perform fun _ => Eq.symm
  refine Endures.bind (recoverVersions_new (fun name hname =>
    (honly name hname).1.trans (hbare name hname)) hcreate) ?_
  rintro ⟨status, vs⟩ M₂ ⟨hstatus, m, r, hreplaying⟩
  simp only at hstatus hreplaying
  subst hstatus
  apply (hreplaying.openRest (fun a ha => nomatch ha) options).weaken _ fun _ _ => trivial
  rintro result M' ⟨db, hresult, hoptions, himm, hdone⟩
  exact ⟨db, hresult, hoptions, himm, hdone.inService⟩

end Strata
