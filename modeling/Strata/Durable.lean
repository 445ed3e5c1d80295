import Strata.CompactionRun
import Strata.Library.PowerLoss

/-! The calls that the steps of the store make, in the order in which a loss of
power would undo them: which files they concern, and what is synced at the end. -/
namespace Strata

open Library System

def ofFile (name : FileName) : Event FileName → Prop := Event.Within fun other => other = name

def ofTables (least : Nat) : Event FileName → Prop :=
  Event.Within fun other => ∃ number, least ≤ number ∧ other = .table number

theorem ofTables_of_ofFile {least number : Nat} (hnumber : least ≤ number) {e : Event FileName}
    (h : ofFile (.table number) e) : ofTables least e :=
  fun name hconcerns => ⟨number, hnumber, h name hconcerns⟩

namespace SSTableBuilder

variable {options : Options} {name : FileName} {b : SSTableBuilder}

theorem new_works (name : FileName) :
    Works (ofFile name) (SSTableBuilder.new name) fun b _ => b.filename = name := by
  apply Works.bind (Works.openTrunc fun _ _ hname => hname.symm)
  intro opened front _
  exact Works.ret rfl

theorem writeRawBlock_works (hname : b.filename = name) (contents : Bytes) :
    Works (ofFile name) (b.writeRawBlock contents) fun result _ => result.2.2.filename = name := by
  subst hname
  apply Works.bind (Works.append fun _ _ _ hname => hname.symm)
  intro cut front _
  cases cut with
  | some written => exact Works.ret rfl
  | none =>
    apply Works.bind (Works.append fun _ _ _ hname => hname.symm)
    intro cut front _
    cases cut with
    | some written => exact Works.ret rfl
    | none => exact Works.ret rfl

theorem flushBlock_works (hname : b.filename = name) :
    Works (ofFile name) b.flushBlock fun b' _ => b'.filename = name := by
  unfold flushBlock
  split
  · exact Works.ret hname
  · apply Works.bind (writeRawBlock_works hname _)
    rintro ⟨status, handle, b'⟩ front hname'
    simp only at hname' ⊢
    cases status.isOk with
    | true => exact Works.ret hname'
    | false => exact Works.ret hname'

theorem add_works (hname : b.filename = name) (e : Entry) :
    Works (ofFile name) (b.add options e) fun b' _ => b'.filename = name := by
  unfold add
  split
  · exact Works.ret hname
  · extract_lets b'
    split
    · exact flushBlock_works (b := b') hname
    · exact Works.ret hname

theorem addAll_works (es : List Entry) (hname : b.filename = name) :
    Works (ofFile name) (b.addAll options es) fun b' _ => b'.filename = name := by
  induction es generalizing b with
  | nil => exact Works.ret hname
  | cons e rest ih =>
    apply Works.bind (add_works hname e)
    exact fun b' front hname' => ih hname'

theorem finish_works (hname : b.filename = name) :
    Works (ofFile name) (b.finish options)
      fun result trace => result.1 = .ok → Synced name trace := by
  unfold finish
  by_cases hstatus : b.status.isOk
  · rw [if_neg (by simp [hstatus])]
    apply Works.bind (flushBlock_works hname)
    intro b₁ front₁ hname₁
    apply Works.bind (writeRawBlock_works hname₁ _)
    rintro ⟨status₂, filterHandle, b₂⟩ front₂ hname₂
    simp only at hname₂ ⊢
    by_cases hok₂ : status₂.isOk
    · rw [if_neg (by simp [hok₂])]
      apply Works.bind (writeRawBlock_works (b := { b₂ with status := status₂ }) hname₂ _)
      rintro ⟨status₃, indexHandle, b₃⟩ front₃ hname₃
      simp only at hname₃ ⊢
      by_cases hok₃ : status₃.isOk
      · rw [if_neg (by simp [hok₃])]
        subst hname₃
        apply Works.bind (Works.append fun _ _ _ hname => hname.symm)
        intro cut front₄ _
        cases cut with
        | some written => exact Works.ret fun hok => nomatch hok
        | none =>
          apply Works.bind (Works.sync fun _ _ hname => hname.symm)
          intro synced front₅ hsynced
          cases synced with
          | false => exact Works.ret fun hok => nomatch hok
          | true =>
            apply Works.ret
            intro _
            rw [hsynced rfl, List.append_nil]
            have hlast := Synced.last [] b₃.filename
            exact (((hlast.behind front₄).behind front₃).behind front₂).behind front₁
      · rw [if_pos (by simp [hok₃])]
        exact Works.ret fun hok => absurd (congrArg Status.isOk hok) hok₃
    · rw [if_pos (by simp [hok₂])]
      exact Works.ret fun hok => absurd (congrArg Status.isOk hok) hok₂
  · rw [if_pos (by simp [hstatus])]
    exact Works.ret fun hok => absurd (congrArg Status.isOk hok) hstatus

end SSTableBuilder

def SyncedOrFailed (trace : List (Event FileName)) : Prop :=
  trace = [⟨.syncDirectory, .ok⟩] ∨ ∃ n, trace = [⟨.syncDirectory, .fail n⟩]

theorem syncDirectory_works {S : Event FileName → Prop}
    (hcalls : ∀ outcome, S ⟨.syncDirectory, outcome⟩) :
    Works S syncDirectory fun _ trace => SyncedOrFailed trace := by
  apply Works.bind (Works.syncDirectory hcalls)
  intro synced trace htrace
  cases synced with
  | true => exact Works.ret (Or.inl (by rw [List.append_nil]; exact htrace))
  | false => exact Works.ret (Or.inr (by rw [List.append_nil]; exact htrace))

theorem ofFile_syncDirectory (name : FileName) (outcome : Outcome) :
    ofFile name ⟨.syncDirectory, outcome⟩ :=
  fun _ hconcerns => hconcerns.elim

theorem writeLevel0Table_works (options : Options) (vs : VersionSet) (mem : Memtable) :
    Works (ofFile (.table vs.nextFileNumber)) (writeLevel0Table options vs mem)
      fun result trace => ∀ f, result.1 = .ok f → ∃ front last, trace = front ++ last ∧
        Synced (.table vs.nextFileNumber) front ∧ SyncedOrFailed last := by
  unfold writeLevel0Table
  simp only [VersionSet.newFileNumber]
  apply Works.bind (SSTableBuilder.new_works _)
  intro b front₁ hname
  apply Works.bind (SSTableBuilder.addAll_works mem.entries hname)
  intro b' front₂ hname'
  apply Works.bind (SSTableBuilder.finish_works hname')
  rintro ⟨status, b''⟩ front₃ hsynced
  simp only at hsynced ⊢
  cases status with
  | ok =>
    apply Works.bind (Works.readDir (P := fun _ trace => trace = []) fun _ => rfl)
    rintro dir _ rfl
    apply Works.bind (Works.readFaults (P := fun _ trace => trace = []) fun _ => rfl)
    rintro faults _ rfl
    split
    · exact Works.ret fun f hf => by cases hf
    · apply Works.bind (syncDirectory_works (ofFile_syncDirectory _))
      intro synced last hlast
      apply Works.ret
      intro f _
      refine ⟨front₁ ++ (front₂ ++ front₃), last, by simp, ?_, hlast⟩
      exact ((hsynced rfl).behind front₂).behind front₁
  | _ => exact Works.ret fun f hf => by cases hf

namespace CompactionState

variable {options : Options} {c : Compaction} {least : Nat} {st : CompactionState}
  {front : List (Event FileName)}

structure Durable (least : Nat) (st : CompactionState) (trace : List (Event FileName)) : Prop where
  above : least ≤ st.versions.nextFileNumber
  outputs : ∀ f ∈ st.outputs,
    f.number < st.versions.nextFileNumber ∧ Synced (.table f.number) trace
  builder : ∀ b, st.builder = some b → b.filename = .table st.currentFileNumber ∧
    least ≤ st.currentFileNumber ∧ st.currentFileNumber < st.versions.nextFileNumber ∧
    ∀ f ∈ st.outputs, f.number ≠ st.currentFileNumber

theorem Durable.synced {number : Nat} {trace : List (Event FileName)} (h : Durable least st front)
    (hne : ∀ f ∈ st.outputs, f.number ≠ number) (htrace : ∀ e ∈ trace, ofFile (.table number) e) :
    ∀ f ∈ st.outputs, f.number < st.versions.nextFileNumber ∧
      Synced (.table f.number) (front ++ trace) := by
  intro f hf
  refine ⟨(h.outputs f hf).1, (h.outputs f hf).2.before fun e he hconcerns => ?_⟩
  have hsame := htrace e he _ hconcerns
  exact hne f hf (by simpa using hsame)

theorem finishOutputFile_works (h : Durable least st front) :
    Works (ofTables least) (st.finishOutputFile options)
      fun result trace => result.1 = .ok → Durable least result.2 (front ++ trace) := by
  unfold finishOutputFile
  cases hbuilder : st.builder with
  | none =>
    apply Works.ret
    intro _
    rwa [List.append_nil]
  | some b =>
    obtain ⟨hname, hleast, hbelow, hne⟩ := h.builder b hbuilder
    simp only
    split
    · apply Works.ret
      intro _
      rw [List.append_nil]
      exact ⟨h.above, h.outputs, fun b hb => nomatch hb⟩
    · apply Works.bind ((SSTableBuilder.finish_works hname).within fun _ => ofTables_of_ofFile hleast)
      rintro ⟨status, b'⟩ trace ⟨hsynced, hcalls⟩
      simp only at hsynced ⊢
      cases status with
      | ok =>
        have houtputs := h.synced hne hcalls
        apply Works.bind (Works.readDir (P := fun _ trace => trace = []) fun _ => rfl)
        rintro dir _ rfl
        apply Works.bind (Works.readFaults (P := fun _ trace => trace = []) fun _ => rfl)
        rintro faults _ rfl
        split
        · rename_i status hopen
          apply Works.ret
          intro hok
          simp only at hok
          subst hok
          exact (SSTableReader.openTable_ne_ok _ _ _ _ hopen).elim
        · apply Works.ret
          intro _
          rw [List.append_nil, List.append_nil, List.append_nil]
          refine ⟨h.above, fun f hf => ?_, fun b hb => nomatch hb⟩
          rcases List.mem_append.mp hf with hf | hf
          · exact houtputs f hf
          · rw [List.mem_singleton.mp hf]
            exact ⟨hbelow, (hsynced rfl).behind front⟩
      | _ => exact Works.ret fun hok => nomatch hok

theorem ensureOutputFile_works (h : Durable least st front) :
    Works (ofTables least) st.ensureOutputFile
      fun result trace => Durable least result.2 (front ++ trace) ∧
        result.2.builder = some result.1 := by
  unfold ensureOutputFile
  cases hbuilder : st.builder with
  | some b =>
    apply Works.ret
    rw [List.append_nil]
    exact ⟨h, hbuilder⟩
  | none =>
    have hne : ∀ f ∈ st.outputs, f.number ≠ st.versions.nextFileNumber := fun f hf =>
      ne_of_lt (h.outputs f hf).1
    simp only [openNewOutputFile, VersionSet.newFileNumber]
    apply Works.bind ((SSTableBuilder.new_works _).within fun _ => ofTables_of_ofFile h.above)
    rintro b trace ⟨hname, hcalls⟩
    apply Works.ret
    rw [List.append_nil]
    refine ⟨⟨Nat.le_succ_of_le h.above, fun f hf => ?_, ?_⟩, rfl⟩
    · obtain ⟨hlt, hsynced⟩ := h.synced hne hcalls f hf
      exact ⟨Nat.lt_succ_of_lt hlt, hsynced⟩
    · rintro b' ⟨⟩
      exact ⟨hname, h.above, Nat.lt_succ_self _, hne⟩

theorem addEntry_works (h : Durable least st front) (e : Entry) :
    Works (ofTables least) (st.addEntry options e)
      fun result trace => result.1 = .ok → Durable least result.2 (front ++ trace) := by
  apply Works.bind (ensureOutputFile_works h)
  rintro ⟨b, st'⟩ trace ⟨hdurable, hbuilder⟩
  obtain ⟨hname, hleast, hbelow, hne⟩ := hdurable.builder b hbuilder
  simp only
  apply Works.bind ((SSTableBuilder.add_works hname e).within fun _ => ofTables_of_ofFile hleast)
  rintro b' more ⟨hname', hcalls⟩
  have hadded : Durable least { st' with builder := some b' } (front ++ trace ++ more) := by
    refine ⟨hdurable.above, hdurable.synced hne hcalls, ?_⟩
    rintro b'' ⟨⟩
    exact ⟨hname', hleast, hbelow, hne⟩
  split
  · apply (finishOutputFile_works hadded).weaken
    intro result last hdone hok
    simpa using hdone hok
  · apply Works.ret
    intro _
    simpa using hadded

theorem step_works (h : Durable least st front) (e : Entry) :
    Works (ofTables least) (st.step options c e)
      fun result trace => result.1 = .ok → Durable least result.2 (front ++ trace) := by
  have hkeyed : Durable least { st with lastKey := some e.userKey } front :=
    ⟨h.above, h.outputs, h.builder⟩
  unfold step
  split
  · apply Works.ret
    intro _
    rwa [List.append_nil]
  · extract_lets st'
    split
    · apply Works.ret
      intro _
      rwa [List.append_nil]
    · exact addEntry_works hkeyed e

theorem loop_works (h : Durable least st front) (fuel : Nat)
    (it : MergingIterator TwoLevelIterator) :
    Works (ofTables least) (loop options c fuel it st)
      fun result trace => result.1 = .ok → Durable least result.2 (front ++ trace) := by
  induction fuel generalizing it st front with
  | zero => exact Works.stuck
  | succ fuel ih =>
    unfold loop
    split
    · apply Works.ret
      intro _
      rwa [List.append_nil]
    · apply Works.bind (step_works h it.entry)
      rintro ⟨status, st'⟩ trace hstep
      simp only at hstep ⊢
      cases status with
      | ok =>
        apply (ih (hstep rfl) it.next).weaken
        intro result later hdone hok
        simpa using hdone hok
      | _ => exact Works.ret fun hok => by cases hok

end CompactionState

theorem Compaction.writeOutputs_works (options : Options) (vs : VersionSet) (c : Compaction) :
    Works (ofTables vs.nextFileNumber) (c.writeOutputs options vs) fun result trace =>
      ∀ vs' outputs, result = .ok (vs', outputs) → ∀ f ∈ outputs, Synced (.table f.number) trace := by
  have hstart : CompactionState.Durable vs.nextFileNumber ⟨vs, none, 0, [], none⟩ [] :=
    ⟨le_refl _, fun f hf => (List.not_mem_nil hf).elim, fun b hb => nomatch hb⟩
  unfold writeOutputs
  apply Works.bind (Works.readDir (P := fun _ trace => trace = []) fun _ => rfl)
  rintro dir _ rfl
  apply Works.bind (Works.readFaults (P := fun _ trace => trace = []) fun _ => rfl)
  rintro faults _ rfl
  split
  · exact Works.ret fun vs' outputs h => nomatch h
  · split
    · exact Works.ret fun vs' outputs h => nomatch h
    · apply Works.bind (CompactionState.loop_works hstart _ _)
      rintro ⟨status, st⟩ front hloop
      simp only at hloop ⊢
      cases status with
      | ok =>
        apply Works.bind (CompactionState.finishOutputFile_works (hloop rfl))
        rintro ⟨status, st'⟩ trace hdone
        simp only at hdone ⊢
        cases status with
        | ok =>
          apply Works.ret
          rintro vs' outputs ⟨⟩ f hf
          simpa using ((hdone rfl).outputs f hf).2
        | _ => exact Works.ret fun vs' outputs h => nomatch h
      | _ => exact Works.ret fun vs' outputs h => nomatch h

theorem unlinkTables_works (files : List FileMetaData) :
    Works (Event.Within fun name => ∃ f ∈ files, name = .table f.number) (unlinkTables files)
      fun _ _ => True := by
  induction files with
  | nil => exact Works.ret trivial
  | cons f rest ih =>
    apply Works.bind (Works.unlink fun _ name hname => ⟨f, by simp, hname.symm⟩)
    intro _ front _
    have hmore : ∀ e : Event FileName, (e.Within fun name => ∃ g ∈ rest, name = .table g.number) →
        e.Within fun name => ∃ g ∈ f :: rest, name = .table g.number := by
      intro e he name hname
      obtain ⟨g, hg, heq⟩ := he name hname
      exact ⟨g, by simp [hg], heq⟩
    exact (ih.within hmore).weaken fun _ _ _ => trivial

theorem DBImpl.removeFiles_works (live : List Nat) (names : List FileName) :
    Works (Event.Within fun name => name ∈ names ∧
      ∃ number, tableFileNumber name = some (some number) ∧ number ∉ live)
      (removeFiles live names) fun _ _ => True := by
  induction names with
  | nil => exact Works.ret trivial
  | cons name rest ih =>
    have hmore : ∀ e : Event FileName, (e.Within fun other => other ∈ rest ∧
        ∃ number, tableFileNumber other = some (some number) ∧ number ∉ live) →
        e.Within fun other => other ∈ name :: rest ∧
          ∃ number, tableFileNumber other = some (some number) ∧ number ∉ live := by
      intro e he other hother
      exact ⟨List.mem_cons_of_mem _ (he other hother).1, (he other hother).2⟩
    have hrest := (ih.within hmore).weaken (R := fun _ _ => True) fun _ _ _ => trivial
    unfold removeFiles
    split
    · exact hrest
    · exact Works.stuck
    · rename_i number hnumber
      split
      · rename_i hlive
        apply Works.bind (Works.unlink ?_)
        · exact fun _ _ _ => hrest
        · intro outcome other hother
          rw [← show name = other from hother]
          exact ⟨List.mem_cons_self, number, hnumber, hlive⟩
      · exact hrest

end Strata
