import Strata.Wal

/-! Appends that fail part way. The writer keeps its descriptor after an error
and the next record lands behind whatever bytes the failed one left. -/
namespace Strata

open Library System

/-- One `AppendRecord` call as seen from outside: the record, the status it
returned, and the bytes it added to the file. -/
structure Append where
  entry : Entry
  status : Status
  left : Bytes
  deriving DecidableEq, Repr

def appendAll (w : WalWriter) : List (Entry × Bool) → Prog (List Append)
  | [] => pure []
  | (e, sync) :: rest => do
    let before ← Sys.readDir
    let status ← w.appendRecord e sync
    let after ← Sys.readDir
    let others ← appendAll w rest
    pure (⟨e, status, ((after.lookup w.filename).getD []).drop
      ((before.lookup w.filename).getD []).length⟩ :: others)

def acknowledged (appends : List Append) : List Entry :=
  (appends.filter fun a => a.status.isOk).map Append.entry

/-- No append returns OK behind a record of which only a part was written. -/
def TornOnlyAtEnd : List Append → Prop
  | [] => True
  | a :: rest =>
    (a.left = [] ∨ a.left = walFrame a.entry ∨ acknowledged rest = []) ∧ TornOnlyAtEnd rest

section Outcomes

variable {assume : Assume FileName} {dir : Dir}

theorem sync_keeps (w : WalWriter) :
    Runs assume dir w.sync (fun _ after => after = dir) fun _ => True := by
  unfold WalWriter.sync
  split
  · exact Runs.ret rfl
  · refine Runs.bind (M := fun _ after => after = dir)
      (Runs.call (fun _ => rfl) (fun _ _ => rfl) fun _ _ => trivial) ?_
    intro synced after hafter
    subst hafter
    split
    · exact Runs.ret rfl
    · exact Runs.ret rfl

def WritesAll (assume : Assume FileName) (name : FileName) (data : Bytes) : Prop :=
  ∃ offset outcome, assume.events ⟨.append name offset data, outcome⟩ ∧
    (outcome = .ok ∨ ∃ n, data.length ≤ n ∧ outcome = .fail n)

def Leaves (assume : Assume FileName) (name : FileName) (e : Entry) (left : Bytes) : Prop :=
  left <+: walFrame e ∧ (left = walFrame e → WritesAll assume name (walPayload e))

theorem leaves_header (name : FileName) (e : Entry) (n : Nat) :
    Leaves assume name e ((walHeader (walPayload e)).take n) := by
  refine ⟨(List.take_prefix _ _).trans (List.prefix_append _ _), fun h => ?_⟩
  have hlength := congrArg List.length h
  rw [length_walFrame, length_walPayload, List.length_take, length_walHeader] at hlength
  omega

theorem appendRecord_outcome {w : WalWriter} (hopened : w.opened = true) (e : Entry) (sync : Bool) :
    Runs assume dir (w.appendRecord e sync)
      (fun status after => ∃ left, Leaves assume w.filename e left ∧
        after = extend dir w.filename left ∧ (status = .ok → left = walFrame e))
      fun _ => True := by
  have hpayload : ∀ n, walHeader (walPayload e) ++ (walPayload e).take n <+: walFrame e :=
    fun n => List.prefix_append_right_inj _ |>.mpr (List.take_prefix _ _)
  have hwhole : ∀ n, walHeader (walPayload e) ++ (walPayload e).take n = walFrame e →
      (walPayload e).length ≤ n := by
    intro n h
    have hlength := congrArg List.length h
    rw [length_walFrame, List.length_append, length_walHeader, List.length_take] at hlength
    omega
  unfold WalWriter.appendRecord
  rw [if_neg (by simp [hopened])]
  -- the header, the payload and the sync can each fail
  refine Runs.bind (Runs.call (Q := fun cut after => ∃ n,
      after = extend dir w.filename ((walHeader (walPayload e)).take n) ∧ (cut = none → 8 ≤ n))
    (fun _ => ⟨8, by rw [List.take_of_length_le (by simp)], fun _ => le_refl _⟩)
    (fun n _ => ⟨n, rfl, by simp⟩) fun _ _ => trivial) ?_
  rintro cut after ⟨n, rfl, hcut⟩
  cases cut with
  | some cut => exact Runs.ret ⟨_, leaves_header _ _ n, rfl, by simp⟩
  | none =>
    have hheader : (walHeader (walPayload e)).take n = walHeader (walPayload e) :=
      List.take_of_length_le (by simpa using hcut rfl)
    rw [hheader]
    refine Runs.bind (Runs.call (Q := fun cut after => ∃ left, Leaves assume w.filename e left ∧
        after = extend dir w.filename left ∧ (cut = none → left = walFrame e))
      (fun hcall => ⟨walFrame e, ⟨List.prefix_refl _, fun _ => ⟨_, _, hcall, Or.inl rfl⟩⟩,
        extend_extend _ _ _ _, fun _ => rfl⟩)
      (fun k hfail => ⟨_, ⟨hpayload k, fun h => ⟨_, _, hfail, Or.inr ⟨k, hwhole k h, rfl⟩⟩⟩,
        extend_extend _ _ _ _, by simp⟩) fun _ _ => trivial) ?_
    rintro cut after ⟨left, hleaves, rfl, hcut⟩
    cases cut with
    | some cut => exact Runs.ret ⟨left, hleaves, rfl, by simp⟩
    | none =>
      cases sync with
      | false => exact Runs.ret ⟨left, hleaves, rfl, fun _ => hcut rfl⟩
      | true =>
        refine Runs.weaken (sync_keeps w) ?_ fun _ h => h
        rintro status last rfl
        exact ⟨left, hleaves, rfl, fun _ => hcut rfl⟩

theorem appendRecord_closed {w : WalWriter} (hclosed : w.opened = false) (e : Entry) (sync : Bool) :
    Runs assume dir (w.appendRecord e sync) (fun status after => status ≠ .ok ∧ after = dir)
      fun _ => True := by
  unfold WalWriter.appendRecord
  rw [if_pos (by simp [hclosed])]
  exact Runs.ret ⟨by simp, rfl⟩

theorem appendRecord_adds (w : WalWriter) (e : Entry) (sync : Bool) (dir : Dir) (old : Bytes)
    (hfile : dir.lookup w.filename = some old) :
    Runs Assume.any dir (w.appendRecord e sync)
      (fun status after => ∃ left, left <+: walFrame e ∧
        after.lookup w.filename = some (old ++ left) ∧ (status = .ok → left = walFrame e))
      (fun _ => True) := by
  cases hopened : w.opened with
  | false =>
    refine Runs.weaken (appendRecord_closed hopened e sync) ?_ fun _ h => h
    rintro status after ⟨hstatus, rfl⟩
    exact ⟨[], List.nil_prefix, by rw [hfile, List.append_nil], fun hok => absurd hok hstatus⟩
  | true =>
    refine Runs.weaken (appendRecord_outcome hopened e sync) ?_ fun _ h => h
    rintro status after ⟨left, hleaves, rfl, hwhole⟩
    exact ⟨left, hleaves.1, lookup_extend_self hfile, hwhole⟩

end Outcomes

theorem appendAll_adds (w : WalWriter) (calls : List (Entry × Bool)) (dir : Dir) (old : Bytes)
    (hfile : dir.lookup w.filename = some old) :
    Runs Assume.any dir (appendAll w calls)
      (fun appends after => after.lookup w.filename = some (old ++ appends.flatMap Append.left) ∧
        appends.map Append.entry = calls.map Prod.fst ∧
        ∀ a ∈ appends, a.status = .ok → a.left = walFrame a.entry)
      (fun _ => True) := by
  induction calls generalizing dir old with
  | nil => exact Runs.ret ⟨by simp [hfile], rfl, by simp⟩
  | cons call rest ih =>
    obtain ⟨e, sync⟩ := call
    unfold appendAll
    refine Runs.bind (Runs.readDir (Q := fun before after => before = dir ∧ after = dir)
      ⟨rfl, rfl⟩) ?_
    rintro before _ ⟨rfl, rfl⟩
    refine Runs.bind (appendRecord_adds w e sync _ old hfile) ?_
    rintro status middle ⟨left, _, hlook, hok⟩
    refine Runs.bind (Runs.readDir (Q := fun seen after => seen = middle ∧ after = middle)
      ⟨rfl, rfl⟩) ?_
    rintro seen _ ⟨rfl, rfl⟩
    refine Runs.bind (ih _ _ hlook) ?_
    rintro others after ⟨hlast, hentries, hwhole⟩
    have hleft : ((old ++ left).drop old.length) = left := List.drop_left
    refine Runs.ret ⟨?_, ?_, ?_⟩
    · simp only [hfile, hlook, Option.getD_some, hleft, List.flatMap_cons]
      rw [hlast, List.append_assoc]
    · simp [hentries]
    · intro a ha hstatus
      rcases List.mem_cons.mp ha with rfl | ha
      · simp only [hfile, hlook, Option.getD_some, hleft]
        exact hok hstatus
      · exact hwhole a ha hstatus

theorem acknowledged_sublist (appends : List Append) (tail : TornOnlyAtEnd appends)
    (whole : ∀ a ∈ appends, a.status = .ok → a.left = walFrame a.entry)
    (fits : ∀ a ∈ appends, a.entry.Fits) :
    (acknowledged appends).Sublist
      (WalReader.readAll ⟨true, appends.flatMap Append.left, 0⟩).1 := by
  induction appends with
  | nil => exact List.nil_sublist _
  | cons a rest ih =>
    obtain ⟨hhere, hrest⟩ := tail
    have ih := ih hrest (fun b hb => whole b (by simp [hb])) fun b hb => fits b (by simp [hb])
    have hframe : ∀ bytes, WalReader.readAll ⟨true, walFrame a.entry ++ bytes, 0⟩ =
        (a.entry :: (WalReader.readAll ⟨true, bytes, 0⟩).1,
          (WalReader.readAll ⟨true, bytes, 0⟩).2) := fun bytes =>
      readAll_record (readRecord_frame a.entry bytes 0 true (fits a (by simp)).1
        (fits a (by simp)).2)
    rw [List.flatMap_cons]
    cases hstatus : a.status.isOk with
    | true =>
      have hok : a.status = .ok := by
        cases h : a.status <;> simp_all [Status.isOk]
      rw [whole a (by simp) hok, hframe]
      simpa [acknowledged, hstatus] using ih
    | false =>
      have hskip : acknowledged (a :: rest) = acknowledged rest := by
        simp [acknowledged, hstatus]
      rw [hskip]
      rcases hhere with hnone | hwhole | hend
      · rw [hnone, List.nil_append]
        exact ih
      · rw [hwhole, hframe]
        exact List.Sublist.cons _ ih
      · rw [hend]
        exact List.nil_sublist _

/-- In every run of appends on one writer whose file holds whole records, as
long as no append is acknowledged behind a record that was written only in
part, reading the file until the reader stops returns every acknowledged record
in order. -/
theorem failed_append_keeps_acknowledged (w : WalWriter) (before : List Entry)
    (calls : List (Entry × Bool)) (machine after : Machine FileName) (appends : List Append)
    (made : List (Event FileName))
    (whole : machine.dir.lookup w.filename = some (walFrames before))
    (held : ∀ e ∈ before, e.Fits) (fits : ∀ c ∈ calls, c.1.Fits)
    (run : appendAll w calls machine = .done appends after made)
    (torn : TornOnlyAtEnd appends) :
    (acknowledged appends).Sublist
      (WalReader.new (after.dir.lookup w.filename) none).readAll.1 := by
  obtain ⟨hfile, hentries, hwhole⟩ := (appendAll_adds w calls machine.dir _ whole).done_any run
  have hfits : ∀ a ∈ appends, a.entry.Fits := by
    intro a ha
    have hmem : a.entry ∈ calls.map Prod.fst := hentries ▸ List.mem_map_of_mem ha
    obtain ⟨c, hc, heq⟩ := List.mem_map.mp hmem
    exact heq ▸ fits c hc
  have hread := readAll_frames before (appends.flatMap Append.left) 0 held
  rw [hfile, WalReader.new, hread]
  exact (acknowledged_sublist appends torn hwhole hfits).trans (List.sublist_append_right _ _)

def twoPuts : List (Entry × Bool) :=
  [(⟨[97], 1, kTypeValue, [49]⟩, false), (⟨[98], 1, kTypeValue, [50]⟩, false)]

def freshLog (fate : List Outcome) : Machine FileName :=
  ⟨(∅ : Dir).insert (.log 3) [], fun _ => none, fate⟩

theorem failed_append_keeps_acknowledged_fresh :
    ∃ appends after made,
      appendAll ⟨.log 3, true⟩ twoPuts (freshLog [.fail 0]) = .done appends after made ∧
        (acknowledged appends).length = 1 ∧
        (acknowledged appends).Sublist
          (WalReader.new (after.dir.lookup (.log 3)) none).readAll.1 := by
  refine ⟨_, _, _, rfl, by decide +kernel, ?_⟩
  refine failed_append_keeps_acknowledged ⟨.log 3, true⟩ [] twoPuts (freshLog [.fail 0]) _ _ _
    rfl (by simp) (by simp only [twoPuts, Entry.Fits]; decide) rfl ?_
  exact ⟨Or.inl (by decide +kernel), Or.inr (Or.inr rfl), trivial⟩

/-- Three payload bytes of the first record stay in the file, the second append
returns OK, and the reader stops before reaching it. -/
theorem torn_append_hides_acknowledged :
    ¬ ∀ (w : WalWriter) (calls : List (Entry × Bool)) (machine after : Machine FileName)
      (appends : List Append) (made : List (Event FileName)),
      machine.dir.lookup w.filename = some [] → (∀ c ∈ calls, c.1.Fits) →
      appendAll w calls machine = .done appends after made →
      (acknowledged appends).Sublist
        (WalReader.new (after.dir.lookup w.filename) none).readAll.1 := by
  intro h
  have hsub := h ⟨.log 3, true⟩ twoPuts (freshLog [.ok, .fail 3]) _ _ _ rfl
    (by simp only [twoPuts, Entry.Fits]; decide) rfl
  revert hsub
  decide +kernel

end Strata
