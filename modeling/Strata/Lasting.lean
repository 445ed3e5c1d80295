import Strata.Durable
import Strata.Flush
import Strata.History

/-! The steps of a process over the medium: what is safe from a loss of power
behind each of them, and what a kill or a loss of power in between leaves. -/
namespace Strata

open Library System Layers VersionSet

variable {loose : Prop} {all : List Entry} {M M' : Medium FileName} {D : Medium FileName → Prop}
  {dir left lost : Dir} {m : Nat} {torn : Bytes} {r : Recovery} {v : Version}
  {logs : List (Nat × List Entry)} {vs : VersionSet} {edit : VersionEdit}

def Remains (M : Medium FileName) (lost : Dir) : Prop := lost = M.dir ∨ M.Leaves lost

theorem Remains.safe (h : Remains M lost) {name : FileName} (hsafe : M.Safe name) :
    lost.lookup name = M.dir.lookup name := by
  rcases h with rfl | hleaves
  · rfl
  · exact hsafe.lookup hleaves

structure Secure (M : Medium FileName) (m : Nat) (v : Version) : Prop where
  current : M.Safe .current
  manifest : M.Safe (.manifest m)
  tables : ∀ f ∈ v.allFiles, M.Safe (.table f.number)

theorem Secure.only {S : FileName → Prop} (h : Secure M m v) (honly : Medium.Only S M M')
    (hcurrent : ¬ S .current) (hmanifest : ¬ S (.manifest m))
    (htables : ∀ f ∈ v.allFiles, ¬ S (.table f.number)) : Secure M' m v :=
  ⟨honly.safe h.current hcurrent, honly.safe h.manifest hmanifest,
    fun f hf => honly.safe (h.tables f hf) (htables f hf)⟩

/-- The number to give out next behind a replay of these logs, at least: one that is
not empty becomes a table. -/
def climbed (next : Nat) (logs : List (Nat × List Entry)) : Nat :=
  next + logs.countP fun log => !log.2.isEmpty

theorem climbed_singleton_le (next : Nat) (log : Nat × List Entry) :
    climbed next [log] ≤ next + 1 :=
  Nat.add_le_add_left List.countP_le_length _

/-- Each log has a number that was given out, or that the replay of the logs in front of
it gives out again. -/
def Climbs (next : Nat) : List (Nat × List Entry) → Prop
  | [] => True
  | log :: rest => log.1 ≤ next ∧ Climbs (climbed next [log]) rest

theorem Climbs.mono {next next' : Nat} (h : Climbs next logs) (hle : next ≤ next') :
    Climbs next' logs := by
  induction logs generalizing next next' with
  | nil => trivial
  | cons log rest ih => exact ⟨le_trans h.1 hle, ih h.2 (Nat.add_le_add_right hle _)⟩

theorem climbs_append {next : Nat} {front : List (Nat × List Entry)} {log : Nat × List Entry} :
    Climbs next (front ++ [log]) ↔ Climbs next front ∧ log.1 ≤ climbed next front := by
  induction front generalizing next with
  | nil => simp [Climbs, climbed]
  | cons first rest ih =>
    have hsum : climbed (climbed next [first]) rest = climbed next (first :: rest) := by
      simp only [climbed, List.countP_cons, List.countP_nil]
      omega
    rw [List.cons_append, Climbs, Climbs, ih, hsum, and_assoc]

theorem Climbs.of_le {next : Nat} (h : ∀ log ∈ logs, log.1 ≤ next) : Climbs next logs := by
  induction logs generalizing next with
  | nil => trivial
  | cons log rest ih =>
    refine ⟨h log (by simp), ih fun other hother => ?_⟩
    exact le_trans (h other (by simp [hother])) (Nat.le_add_right _ _)

/-- The recorded log and the logs from it on have numbers that are in reach. -/
def Reached (r : Recovery) (logs : List (Nat × List Entry)) : Prop :=
  r.logNum ≤ r.maxFileNum ∧ Climbs r.maxFileNum logs

structure Kept (loose : Prop) (all : List Entry) (dir : Dir) (m : Nat) (torn : Bytes) (r : Recovery)
    (v : Version) (logs : List (Nat × List Entry)) : Prop extends Disk loose dir m torn r v logs where
  accounts : ∃ flushed, Accounts loose all r.maxSeq (logs.map Prod.snd) v flushed
  reached : Reached r logs

theorem Kept.mono {looser : Prop} (h : Kept loose all dir m torn r v logs) (himp : loose → looser) :
    Kept looser all dir m torn r v logs := by
  obtain ⟨flushed, haccounts⟩ := h.accounts
  exact ⟨{ h.toDisk with toHolds := h.toHolds.mono himp }, ⟨flushed, haccounts.mono himp⟩, h.reached⟩

structure Intact (loose : Prop) (all : List Entry) (dir : Dir) (m : Nat) (torn : Bytes) (r : Recovery)
    (v : Version) (logs : List (Nat × List Entry)) : Prop
    extends Kept loose all dir m torn r v logs where
  fresh : r.Fresh dir

theorem Intact.of_lookup (h : Intact loose all dir m torn r v logs)
    (hsame : ∀ name, left.lookup name = dir.lookup name) : Intact loose all left m torn r v logs :=
  { h with
    toHolds := h.toHolds.frame (fun _ => hsame _) (fun _ _ => hsame _) fun _ => hsame _
    recorded := h.recorded.of_lookup (hsame _) (hsame _)
    fresh := h.fresh.of_same ⟨hsame _, fun _ => hsame _⟩ }

/-- A directory from which the next process gets back all that was written. -/
def Recovers (loose : Prop) (all : List Entry) (dir : Dir) : Prop :=
  ∃ m torn r v logs, Intact loose all dir m torn r v logs

structure Alike (m : Nat) (v : Version) (left lost : Dir) : Prop where
  current : lost.lookup .current = left.lookup .current
  manifest : lost.lookup (.manifest m) = left.lookup (.manifest m)
  tables : ∀ f ∈ v.allFiles, lost.lookup (.table f.number) = left.lookup (.table f.number)

/-- Whatever remains of the medium has the manifest and the tables of an intact
directory, which differs from that of the process in its manifest at most, and
stands for one of these histories. -/
def Outlasts (loose : Prop) (past : List Entry → Prop) (M : Medium FileName) : Prop :=
  ∀ lost, Remains M lost → ∃ all, past all ∧ ∃ left m torn r v logs,
    Intact loose all left m torn r v logs ∧
    (∀ name, name ≠ .manifest m → left.lookup name = M.dir.lookup name) ∧ Alike m v left lost

theorem Outlasts.of_secure {past : List Entry → Prop} (hpast : past all)
    (hintact : Intact loose all M.dir m torn r v logs) (hsecure : Secure M m v) :
    Outlasts loose past M := by
  intro lost hlost
  exact ⟨all, hpast, M.dir, m, torn, r, v, logs, hintact, fun _ _ => rfl,
    hlost.safe hsecure.current, hlost.safe hsecure.manifest,
    fun f hf => hlost.safe (hsecure.tables f hf)⟩

theorem Outlasts.recovers {past : List Entry → Prop} (h : Outlasts loose past M) :
    ∃ all, past all ∧ Recovers loose all M.dir := by
  obtain ⟨all, hpast, left, m, torn, r, v, logs, hintact, hother, halike⟩ := h M.dir (Or.inl rfl)
  refine ⟨all, hpast, m, torn, r, v, logs, hintact.of_lookup fun name => ?_⟩
  by_cases hname : name = .manifest m
  · rw [hname, halike.manifest]
  · exact (hother name hname).symm

structure Amends (vs : VersionSet) (edit : VersionEdit) (M : Medium FileName) (m : Nat)
    (r : Recovery) (M' : Medium FileName) : Prop where
  only : Medium.Only (fun name => name = .manifest m) M M'
  remains : ∀ lost, Remains M' lost → ∃ left torn' r', Amending vs edit M.dir m r left m torn' r' ∧
    (∀ name, name ≠ .manifest m → left.lookup name = M.dir.lookup name) ∧
    lost.lookup (.manifest m) = left.lookup (.manifest m)

theorem logAndApply_endures (h : vs.Attached M.dir m [] r)
    (hsome : vs.descriptorLog = some ⟨.manifest m, true⟩) (hedit : vs.Loggable edit)
    (hsafe : M.Safe (.manifest m)) :
    Endures steady M (vs.logAndApply edit)
      (fun result M' => ∃ r', Amended vs edit M.dir result M'.dir m r' ∧ M'.Safe (.manifest m) ∧
        Medium.Only (fun name => name = .manifest m) M M')
      (Amends vs edit M m r) := by
  obtain ⟨records, hold, _, _⟩ := h.recorded.2
  rw [List.append_nil] at hold
  apply (logAndApply_append_endures steady_noFail hsome rfl
    fun item hitem => (hedit.newFiles item hitem).1).weaken
  · rintro ⟨status, vs'⟩ M' ⟨hstatus, ⟨faults, hfaults, hvs⟩, hdir, ⟨offset, hcall⟩, hformer, hwrites,
      honly⟩
    obtain rfl : faults = fun _ => none := hfaults
    simp only at hstatus hvs
    subst hstatus hvs
    obtain ⟨r', ham⟩ := h.amended hedit hsome rfl (steady_limited _ hcall).1
    refine ⟨r', ?_, ⟨by rw [hformer]; exact hsafe.former, hwrites⟩, honly⟩
    rw [hdir]
    exact ham
  · intro M' happending
    refine ⟨happending.only, fun lost hlost => ?_⟩
    obtain ⟨part, hlookup, hpart⟩ := happending.lost steady_limited hsafe hold hlost
    obtain ⟨torn', r', ham⟩ := h.amending hedit rfl hpart
    refine ⟨_, torn', r', ham, fun name hname => lookup_extend_other hname, ?_⟩
    rw [hlookup, lookup_extend_self hold]

/-- The edit leads to a version and to logs that stand for this history, at numbers that
were given out. -/
structure Proceeds (vs : VersionSet) (edit : VersionEdit) (M : Medium FileName) (loose : Prop)
    (newer : List (Nat × List Entry)) (all : List Entry) : Prop where
  leads : Leads vs edit M.dir loose newer
  tables : ∀ f ∈ (vs.installEdit (vs.completeEdit edit) M.dir fun _ => none).allFiles,
    M.Safe (.table f.number)
  accounts : ∃ flushed, Accounts loose all vs.lastSequence (newer.map Prod.snd)
    (vs.installEdit (vs.completeEdit edit) M.dir fun _ => none) flushed
  logNumber : edit.logNumber.getD vs.logNumber ≤ vs.nextFileNumber
  logs : Climbs vs.nextFileNumber newer

theorem Proceeds.reached {newer : List (Nat × List Entry)}
    (h : Proceeds vs edit M loose newer all) (hlogNum : r.logNum = edit.logNumber.getD vs.logNumber)
    (hnext : vs.nextFileNumber ≤ r.maxFileNum) : Reached r newer :=
  ⟨hlogNum ▸ le_trans h.logNumber hnext, h.logs.mono hnext⟩

section Kept

variable {newer : List (Nat × List Entry)} {all' : List Entry} {m' : Nat} {torn' : Bytes}
  {r' : Recovery} (ham : Amending vs edit M.dir m r left m' torn' r')
  (h : vs.Attached M.dir m torn r)

include ham h in
theorem VersionSet.Amending.kept_old (hkept : Kept loose all M.dir m torn r vs.current logs)
    (hwhich : r'.Lists vs.current ∧ r'.logNum = vs.logNumber) :
    Kept loose all left m' torn' r' vs.current logs := by
  have hgrows := ham.maxFileNum.1
  have hlogNum : r'.logNum = r.logNum := hwhich.2.trans h.logNum.symm
  obtain ⟨flushed, haccounts⟩ := hkept.accounts
  refine ⟨ham.old h hkept.toHolds hwhich, ⟨flushed, haccounts.grow ham.maxSeq.1⟩, ?_,
    hkept.reached.2.mono hgrows⟩
  rw [hlogNum]
  exact le_trans hkept.reached.1 hgrows

include ham h in
theorem VersionSet.Amending.kept_new (hedit : vs.Loggable edit)
    (hnew : Proceeds vs edit M loose newer all')
    (hwhich : r'.Lists (vs.installEdit (vs.completeEdit edit) M.dir fun _ => none) ∧
      r'.logNum = edit.logNumber.getD vs.logNumber ∧ vs.nextFileNumber ≤ r'.maxFileNum ∧
      r'.maxSeq = vs.lastSequence) :
    Kept loose all' left m' torn' r' (vs.installEdit (vs.completeEdit edit) M.dir fun _ => none)
      newer := by
  refine ⟨ham.new h hedit hnew.leads hwhich, ?_, hnew.reached hwhich.2.1 hwhich.2.2.1⟩
  rw [hwhich.2.2.2]
  exact hnew.accounts

end Kept

/-- A kill or a loss of power while an edit is logged: what remains stands for the
history there was, or for the one with the edit. -/
theorem Amends.outlasts {past : List Entry → Prop} {newer : List (Nat × List Entry)}
    {all' : List Entry} (ham : Amends vs edit M m r M') (h : vs.Attached M.dir m [] r)
    (hsome : vs.descriptorLog ≠ none) (hedit : vs.Loggable edit) (hsecure : Secure M m vs.current)
    (hkept : Kept loose all M.dir m [] r vs.current logs) (hpast : past all)
    (hnew : Proceeds vs edit M loose newer all') (hpast' : past all') : Outlasts loose past M' := by
  have hsafe : ∀ {name}, name ≠ .manifest m → M.Safe name → ∀ {lost}, Remains M' lost →
      lost.lookup name = M.dir.lookup name := by
    intro name hname hsafe lost hlost
    rw [hlost.safe (ham.only.safe hsafe hname)]
    exact (ham.only name hname).1
  intro lost hlost
  obtain ⟨left, torn', r', hamending, hother, hmanifest⟩ := ham.remains lost hlost
  have hsame : ∀ name, name ≠ .manifest m → left.lookup name = M'.dir.lookup name := by
    intro name hname
    rw [hother name hname, (ham.only name hname).1]
  have halike : ∀ {v : Version}, (∀ f ∈ v.allFiles, M.Safe (.table f.number)) →
      Alike m v left lost := by
    intro v hv
    refine ⟨?_, hmanifest, fun f hf => ?_⟩
    · rw [hsafe (by simp) hsecure.current hlost, hother _ (by simp)]
    · rw [hsafe (by simp) (hv f hf) hlost, hother _ (by simp)]
  have hfresh := hamending.fresh h hsome
  rcases hamending.which with hwhich | hwhich
  · exact ⟨all, hpast, left, m, torn', r', _, logs, ⟨hamending.kept_old h hkept hwhich, hfresh⟩,
      hsame, halike hsecure.tables⟩
  · exact ⟨all', hpast', left, m, torn', r', _, newer,
      ⟨hamending.kept_new h hedit hnew hwhich, hfresh⟩, hsame, halike hnew.tables⟩

theorem edit_endures {past : List Entry → Prop} {newer : List (Nat × List Entry)}
    {all' : List Entry} (h : vs.Attached M.dir m [] r)
    (hsome : vs.descriptorLog = some ⟨.manifest m, true⟩) (hedit : vs.Loggable edit)
    (hsecure : Secure M m vs.current) (hkept : Kept loose all M.dir m [] r vs.current logs)
    (hpast : past all) (hnew : Proceeds vs edit M loose newer all') (hpast' : past all') :
    Endures steady M (vs.logAndApply edit)
      (fun result M' => ∃ r', Amended vs edit M.dir result M'.dir m r' ∧
        Holds loose M'.dir r' result.2.current newer ∧ Reached r' newer ∧
        Secure M' m result.2.current ∧ Medium.Only (fun name => name = .manifest m) M M')
      (Outlasts loose past) := by
  apply (logAndApply_endures h hsome hedit hsecure.manifest).weaken
  · rintro result M' ⟨r', ham, hmanifest, honly⟩
    have hlogNum := ham.attached.logNum.trans ham.logNumber
    have hnext : vs.nextFileNumber ≤ r'.maxFileNum := ham.saved.1 ▸ ham.next
    refine ⟨r', ham, ham.holds hnew.leads, hnew.reached hlogNum hnext,
      ⟨?_, hmanifest, fun f hf => ?_⟩, honly⟩
    · exact honly.safe hsecure.current (by simp)
    · rw [ham.current] at hf
      exact honly.safe (hnew.tables f hf) (by simp)
  · intro M' ham
    exact ham.outlasts h (by simp [hsome]) hedit hsecure hkept hpast hnew hpast'

def NewTables (least : Nat) (M M' : Medium FileName) : Prop :=
  Medium.Only (fun name => ∃ number, least ≤ number ∧ name = .table number) M M'

theorem NewTables.onlyTables {least : Nat} (h : NewTables least M M') :
    OnlyTables least M.dir M'.dir := by
  intro name hname
  refine (h name ?_).1
  rintro ⟨number, hnumber, rfl⟩
  exact hname number hnumber rfl

theorem writeLevel0Table_endures (options : Options) (vs : VersionSet) {mem : Memtable}
    (hsorted : Memtable.Sorted mem.entries) (hseqs : ∀ e ∈ mem.entries, e.seq < 2 ^ 64)
    (htypes : ∀ e ∈ mem.entries, e.HasType) :
    Endures steady M (writeLevel0Table options vs mem)
      (fun result M' => ∃ f, result = (.ok f, { vs with nextFileNumber := vs.nextFileNumber + 1 }) ∧
        NewFile vs mem.entries M'.dir f ∧ M'.Safe (.table vs.nextFileNumber) ∧
        NewTables vs.nextFileNumber M M')
      (NewTables vs.nextFileNumber M) := by
  have honly : ∀ {trace}, (∀ e ∈ trace, ofFile (.table vs.nextFileNumber) e) →
      NewTables vs.nextFileNumber M (M.run trace) := fun hcalls =>
    Medium.run_only fun e he => ofTables_of_ofFile (le_refl _) (hcalls e he)
  have hruns : Runs steady M.dir (writeLevel0Table options vs mem) _ fun _ => True :=
    writeLevel0Table_steady options vs hsorted hseqs htypes fun _ _ => trivial
  apply (Endures.of_runs hruns (writeLevel0Table_works options vs mem)).weaken
  · rintro result M' ⟨⟨f, rfl, hfile, _⟩, trace, rfl, hcalls, hsynced, hevents⟩
    refine ⟨f, rfl, hfile, ?_, honly hcalls⟩
    obtain ⟨front, last, rfl, hfront, rfl | ⟨n, rfl⟩⟩ := hsynced f rfl
    · exact hfront.safe M
    · exact absurd rfl ((hevents ⟨.syncDirectory, .fail n⟩ (by simp)).1 n)
  · rintro M' ⟨_, trace, rfl, hcalls⟩
    exact honly hcalls

theorem Compaction.writeOutputs_endures (options : Options) {c : Compaction}
    (hcovers : c.Covers vs.current) (hsane : vs.current.Sane loose)
    (hseqs : ∀ f ∈ c.inputs, ∀ e ∈ f.entries, e.seq < 2 ^ 64) :
    Endures steady M (c.writeOutputs options vs)
      (fun result M' => ∃ next merged outputs,
        result = .ok ({ vs with nextFileNumber := next }, outputs) ∧
        Finished steady c vs M.dir next merged outputs M'.dir ∧
        (∀ f ∈ outputs, M'.writes (.table f.number) = []) ∧ NewTables vs.nextFileNumber M M')
      (NewTables vs.nextFileNumber M) := by
  have hsound : ∀ f ∈ c.inputs, f.Sound := by
    intro f hf
    obtain ⟨level, htakes⟩ := takes_of_mem hf
    exact hsane.sound level f (hcovers.mem_files htakes)
  have hruns : Runs steady M.dir (c.writeOutputs options vs) _ fun _ => True :=
    writeOutputs_written FileMetaData.entries (steady_tables options)
    (fun hempty => hcovers.nonempty (List.append_eq_nil_iff.mp hempty).1)
    (fun faults _ f hf => (hsound f hf).passes M.dir faults)
    (fun f hf e he => ⟨hseqs f hf e he, (hsound f hf).types e he⟩) fun _ _ => trivial
  apply (Endures.of_runs hruns (writeOutputs_works options vs c)).weaken
  · rintro result M' ⟨⟨next, merged, outputs, rfl, hperm, hwritten⟩ | ⟨hfalse, _⟩,
      trace, rfl, hcalls, hsynced, _⟩
    · exact ⟨next, merged, outputs, rfl, ⟨hwritten, hperm⟩,
        fun f hf => (hsynced _ _ rfl f hf).writes M, Medium.run_only hcalls⟩
    · exact hfalse.elim
  · rintro M' ⟨_, trace, rfl, hcalls⟩
    exact Medium.run_only hcalls

theorem unlinkTables_endures (files : List FileMetaData) :
    Endures steady M (unlinkTables files)
      (fun _ M' => Medium.Only (fun name => ∃ f ∈ files, name = .table f.number) M M')
      fun M' => Medium.Only (fun name => ∃ f ∈ files, name = .table f.number) M M' := by
  have hruns : Runs steady M.dir (unlinkTables files) (fun _ _ => True) fun _ => True :=
    (unlinkTables_any files).of_any
  apply (Endures.of_runs hruns (unlinkTables_works files)).weaken
  · rintro _ M' ⟨_, trace, rfl, hcalls, _⟩
    exact Medium.run_only hcalls
  · rintro M' ⟨_, trace, rfl, hcalls⟩
    exact Medium.run_only hcalls

end Strata
