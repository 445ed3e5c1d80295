import Strata.WalFailures

/-! A log that ends anywhere: reading it gives the records that are whole, and
the call behind them tells a torn record from the end of the file. -/
namespace Strata

open Library System

def WalReader.readRecords (allowPartialEof : Bool) : Nat → WalReader → List Entry × ReadEnd
  | 0, _ => ([], .undefined)
  | fuel + 1, r =>
    match r.readRecord allowPartialEof with
    | .record e next =>
      let (entries, ending) := next.readRecords allowPartialEof fuel
      (e :: entries, ending)
    | .stop status _ => ([], .status status)
    | .undefined => ([], .undefined)

theorem readRecords_frames_iff {es : List Entry} (hseqs : ∀ e ∈ es, e.seq < 2 ^ 64) (rest : Bytes)
    (allowPartialEof : Bool) :
    (WalReader.readRecords allowPartialEof es.length ⟨true, walFrames es ++ rest, 0⟩).1 = es ↔
      ∀ e ∈ es, (walPayload e).length ≤ kMaxRecordSize := by
  induction es with
  | nil => simp [WalReader.readRecords]
  | cons e es ih =>
    have hseq := hseqs e (by simp)
    have ih := ih fun x hx => hseqs x (by simp [hx])
    have hcons : walFrames (e :: es) ++ rest = walFrame e ++ (walFrames es ++ rest) :=
      List.append_assoc _ _ _
    rw [hcons, List.forall_mem_cons, List.length_cons, WalReader.readRecords]
    by_cases hfit : (walPayload e).length ≤ kMaxRecordSize
    · rw [readRecord_frame e _ 0 allowPartialEof hseq hfit]
      simp only [List.cons.injEq, true_and, ih, hfit]
    -- the first call does not return this record, whatever it does
    · refine ⟨fun hread => ?_, fun h => absurd h.1 hfit⟩
      cases hfirst : WalReader.readRecord ⟨true, walFrame e ++ (walFrames es ++ rest), 0⟩
          allowPartialEof with
      | record x next =>
        rw [hfirst] at hread
        obtain ⟨rfl, _⟩ := List.cons.inj hread
        exact absurd ((readRecord_frame_iff x _ 0 allowPartialEof hseq).mp ⟨next, hfirst⟩) hfit
      | stop status next =>
        rw [hfirst] at hread
        cases hread
      | undefined =>
        rw [hfirst] at hread
        cases hread

/-- What a call answers at the end of a file, behind which `torn` is left over. -/
def EndsWith (allowPartialEof : Bool) (torn : Bytes) (status : Status) : Prop :=
  if allowPartialEof = true ∨ torn = [] then ∃ msg, status = .notFound msg
  else ∃ msg, status = .corruption msg

theorem readRecord_cut {e : Entry} {torn : Bytes} (hpart : torn <+: walFrame e)
    (hshort : torn.length < (walFrame e).length) (hfit : (walPayload e).length ≤ kMaxRecordSize)
    (allowPartialEof : Bool) :
    ∃ status next, WalReader.readRecord ⟨true, torn, 0⟩ allowPartialEof = .stop status next ∧
      EndsWith allowPartialEof torn status := by
  have hlen : (walPayload e).length < 2 ^ 32 := lt_of_le_of_lt hfit (by decide)
  by_cases hheader : torn.length < 8
  · have htake : torn.take 8 = torn := List.take_of_length_le (by omega)
    unfold WalReader.readRecord
    simp only [Bool.not_true, Bool.false_eq_true, ↓reduceIte, htake, hheader, ne_eq,
      not_true_eq_false]
    by_cases hempty : torn = []
    · rw [if_pos hempty]
      exact ⟨_, _, rfl, by simp [EndsWith, hempty]⟩
    · rw [if_neg hempty]
      cases allowPartialEof with
      | true => exact ⟨_, _, rfl, by simp [EndsWith]⟩
      | false => exact ⟨_, _, rfl, by simp [EndsWith, hempty]⟩
  -- the header is whole, so the payload is not
  · have htorn : torn = walHeader (walPayload e) ++ torn.drop 8 := by
      have hhead : torn.take 8 = walHeader (walPayload e) := by
        obtain ⟨missing, hmissing⟩ := hpart
        have htake := congrArg (List.take 8) hmissing
        rw [List.take_append_of_le_length (by omega), walFrame,
          List.take_left' (length_walHeader _)] at htake
        exact htake
      rw [← hhead, List.take_append_drop]
    have hne : torn ≠ [] := by
      rintro rfl
      simp at hheader
    have hrest : (torn.drop 8).length < (walPayload e).length := by
      rw [length_walFrame] at hshort
      rw [List.length_drop]
      omega
    rw [htorn, readRecord_header _ _ _ _ hlen, if_neg (by omega), ← htorn]
    unfold WalReader.readPayload
    simp only [List.length_take]
    rw [if_pos (by omega)]
    cases allowPartialEof with
    | true => exact ⟨_, _, rfl, by simp [EndsWith]⟩
    | false => exact ⟨_, _, rfl, by simp [EndsWith, hne]⟩

theorem readRecords_take {es : List Entry} (hfits : ∀ e ∈ es, e.Fits) {n : Nat}
    (hn : n ≤ (walFrames es).length) :
    ∃ k ≤ es.length, (walFrames (es.take k)).length ≤ n ∧
      (k < es.length → n < (walFrames (es.take (k + 1))).length) ∧
      ∀ (allowPartialEof : Bool) (fuel : Nat), es.length < fuel → ∃ status,
        WalReader.readRecords allowPartialEof fuel ⟨true, (walFrames es).take n, 0⟩ =
          (es.take k, .status status) ∧
        EndsWith allowPartialEof (((walFrames es).take n).drop (walFrames (es.take k)).length)
          status := by
  induction es generalizing n with
  | nil =>
    refine ⟨0, le_refl _, Nat.zero_le _, by simp, fun allowPartialEof fuel hfuel => ?_⟩
    obtain ⟨fuel, rfl⟩ := Nat.exists_eq_succ_of_ne_zero (by omega : fuel ≠ 0)
    refine ⟨.notFound "EOF", ?_, by simp [EndsWith]⟩
    simp [WalReader.readRecords, WalReader.readRecord]
  | cons e rest ih =>
    have hcons : walFrames (e :: rest) = walFrame e ++ walFrames rest := rfl
    obtain ⟨hseq, hfit⟩ := hfits e (by simp)
    rcases Nat.lt_or_ge n (walFrame e).length with hless | hwhole
    -- the first record is cut
    · have hpart : (walFrames (e :: rest)).take n = (walFrame e).take n := by
        rw [hcons, List.take_append_of_le_length (by omega)]
      have hlength : ((walFrame e).take n).length = n := by
        rw [List.length_take]
        omega
      refine ⟨0, Nat.zero_le _, Nat.zero_le _, fun _ => ?_, fun allowPartialEof fuel hfuel => ?_⟩
      · rw [List.take_succ_cons, List.take_zero, walFrames_singleton]
        exact hless
      · obtain ⟨fuel, rfl⟩ := Nat.exists_eq_succ_of_ne_zero (by omega : fuel ≠ 0)
        obtain ⟨status, next, hread, hends⟩ := readRecord_cut (List.take_prefix n (walFrame e))
          (by omega) hfit allowPartialEof
        refine ⟨status, ?_, ?_⟩
        · rw [hpart, WalReader.readRecords, hread, List.take_zero]
        · rw [hpart]
          exact hends
    · have hsplit : (walFrames (e :: rest)).take n =
          walFrame e ++ (walFrames rest).take (n - (walFrame e).length) := by
        rw [hcons, List.take_append, List.take_of_length_le hwhole]
      have hrest : n - (walFrame e).length ≤ (walFrames rest).length := by
        rw [hcons, List.length_append] at hn
        omega
      obtain ⟨k, hk, hin, hmax, hreads⟩ := ih (fun x hx => hfits x (by simp [hx])) hrest
      have htake : ∀ j, (walFrames ((e :: rest).take (j + 1))).length =
          (walFrame e).length + (walFrames (rest.take j)).length := by
        intro j
        rw [List.take_succ_cons, ← List.length_append]
        rfl
      refine ⟨k + 1, Nat.succ_le_succ hk, ?_, fun hlt => ?_, fun allowPartialEof fuel hfuel => ?_⟩
      · rw [htake]
        omega
      · have hlater := hmax (by simpa using hlt)
        rw [htake]
        omega
      · obtain ⟨fuel, rfl⟩ := Nat.exists_eq_succ_of_ne_zero (by omega : fuel ≠ 0)
        rw [List.length_cons] at hfuel
        obtain ⟨status, hread, hends⟩ := hreads allowPartialEof fuel (by omega)
        refine ⟨status, ?_, ?_⟩
        · rw [hsplit, WalReader.readRecords, readRecord_frame e _ 0 _ hseq hfit]
          simp only [hread, List.take_succ_cons]
        · rw [hsplit, htake, ← List.drop_drop, List.drop_left]
          exact hends

theorem appendAll_frames {w : WalWriter} {calls : List (Entry × Bool)} {start after : Machine FileName}
    (hempty : start.dir.lookup w.filename = some []) {appends : List Append}
    {trace : List (Event FileName)} (hrun : appendAll w calls start = .done appends after trace)
    (hok : ∀ a ∈ appends, a.status = .ok) :
    after.dir.lookup w.filename = some (walFrames (calls.map Prod.fst)) := by
  obtain ⟨hfile, hentries, hwhole⟩ := (appendAll_adds w calls start.dir [] hempty).done_any hrun
  rw [hfile, ← hentries, List.nil_append, walFrames, List.flatMap_map]
  exact congrArg some (List.flatMap_congr fun a ha => hwhole a ha (hok a ha))

/-- The first `n` bytes of a log hold the longest run of whole records in them.
Behind these the next call finds nothing or, with `allow_partial_eof` off and a
record that is cut, a corruption. -/
theorem truncated_log_reads (w : WalWriter) (calls : List (Entry × Bool))
    (start after : Machine FileName) (hempty : start.dir.lookup w.filename = some [])
    (appends : List Append) (trace : List (Event FileName))
    (hrun : appendAll w calls start = .done appends after trace)
    (hok : ∀ a ∈ appends, a.status = .ok) (hfits : ∀ call ∈ calls, call.1.Fits)
    (file : Bytes) (hfile : after.dir.lookup w.filename = some file) (n : Nat)
    (hn : n ≤ file.length) :
    ∃ k ≤ calls.length, (walFrames ((calls.map Prod.fst).take k)).length ≤ n ∧
      (k < calls.length → n < (walFrames ((calls.map Prod.fst).take (k + 1))).length) ∧
      ∀ allowPartialEof, ∃ status,
        WalReader.readRecords allowPartialEof (calls.length + 1)
            (WalReader.new (some (file.take n)) none) =
          ((calls.map Prod.fst).take k, .status status) ∧
        if allowPartialEof = true ∨ n = (walFrames ((calls.map Prod.fst).take k)).length then
          ∃ msg, status = .notFound msg
        else ∃ msg, status = .corruption msg := by
  obtain rfl := Option.some.inj (hfile.symm.trans (appendAll_frames hempty hrun hok))
  have hentries : ∀ e ∈ calls.map Prod.fst, e.Fits := by
    intro e he
    obtain ⟨call, hcall, rfl⟩ := List.mem_map.mp he
    exact hfits call hcall
  obtain ⟨k, hk, hin, hmax, hreads⟩ := readRecords_take hentries hn
  rw [List.length_map] at hk hmax hreads
  refine ⟨k, hk, hin, hmax, fun allowPartialEof => ?_⟩
  obtain ⟨status, hread, hends⟩ := hreads allowPartialEof _ (Nat.lt_succ_self _)
  refine ⟨status, hread, ?_⟩
  have hboundary : ((walFrames (calls.map Prod.fst)).take n).drop
      (walFrames ((calls.map Prod.fst).take k)).length = [] ↔
      n = (walFrames ((calls.map Prod.fst).take k)).length := by
    rw [List.drop_eq_nil_iff, List.length_take]
    omega
  simp only [EndsWith, hboundary] at hends
  exact hends

theorem truncated_log_reads_twoPuts :
    ∃ appends after trace file, appendAll ⟨.log 3, true⟩ twoPuts (freshLog []) =
        .done appends after trace ∧ after.dir.lookup (.log 3) = some file ∧
      ∃ k ≤ twoPuts.length, (walFrames ((twoPuts.map Prod.fst).take k)).length ≤ 40 ∧
        (k < twoPuts.length → 40 < (walFrames ((twoPuts.map Prod.fst).take (k + 1))).length) ∧
        ∀ allowPartialEof, ∃ status,
          WalReader.readRecords allowPartialEof (twoPuts.length + 1)
              (WalReader.new (some (file.take 40)) none) =
            ((twoPuts.map Prod.fst).take k, .status status) ∧
          if allowPartialEof = true ∨
              40 = (walFrames ((twoPuts.map Prod.fst).take k)).length then
            ∃ msg, status = .notFound msg
          else ∃ msg, status = .corruption msg := by
  refine ⟨_, _, _, walFrames (twoPuts.map Prod.fst), rfl, by decide +kernel, ?_⟩
  refine truncated_log_reads ⟨.log 3, true⟩ twoPuts (freshLog []) _ rfl _ _ rfl
    (by decide +kernel) ?_ _ (by decide +kernel) 40 (by decide +kernel)
  simp only [twoPuts, Entry.Fits]
  decide

end Strata
