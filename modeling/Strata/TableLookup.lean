import Strata.TableCursor

/-! A lookup in a table against the entries it holds. `Get` scans a single
block, so it sees the versions of a key only as far as that block has them. -/
namespace Strata

open Library System

/-- The entry for the key with the largest sequence number that is not above
`seq`. -/
structure IsNewest (es : List Entry) (key : Key) (seq : Nat) (e : Entry) : Prop where
  mem : e ∈ es
  hasKey : e.userKey = key
  visible : e.seq ≤ seq
  largest : ∀ x ∈ es, x.userKey = key → x.seq ≤ seq → x.seq ≤ e.seq

theorem IsNewest.congr {es es' : List Entry} {key : Key} {seq : Nat} {e : Entry}
    (h : IsNewest es key seq e) (hes : ∀ x, x ∈ es' ↔ x ∈ es) : IsNewest es' key seq e :=
  ⟨(hes e).mpr h.mem, h.hasKey, h.visible, fun x hx => h.largest x ((hes x).mp hx)⟩

/-- The answer a snapshot of the entries at `seq` gives for the key. -/
def AnswersSnapshot (es : List Entry) (key : Key) (seq : Nat) (answer : Lookup) : Prop :=
  (∃ e, IsNewest es key seq e ∧ answer = lookupOf (some e)) ∨
    ((∀ e ∈ es, e.userKey = key → seq < e.seq) ∧ answer = .absent)

section Newest

variable {es : List Entry} {key : Key} {seq : Nat}

theorem isNewest_of_find? (hsorted : es.Pairwise Entry.before) {e : Entry}
    (h : es.find? (fun e => e.userKey = key ∧ e.seq ≤ seq) = some e) :
    IsNewest es key seq e := by
  obtain ⟨hmatch, before, after, rfl, hbefore⟩ := List.find?_eq_some_iff_append.mp h
  rw [decide_eq_true_iff] at hmatch
  refine ⟨by simp, hmatch.1, hmatch.2, fun x hx hkey hseq => ?_⟩
  rcases List.mem_append.mp hx with hx | hx
  · have hnot := hbefore x hx
    simp [hkey, hseq] at hnot
  · rcases List.mem_cons.mp hx with rfl | hx
    · exact le_refl _
    -- what comes later for the same key is older
    · have horder := (List.pairwise_cons.mp (List.pairwise_append.mp hsorted).2.1).1 x hx
      rcases horder with hlt | ⟨_, hlt⟩
      · rw [hmatch.1, hkey] at hlt
        exact absurd hlt (lt_irrefl _)
      · exact hlt.le

theorem isNewest_iff_find? (hsorted : es.Pairwise Entry.before) {e : Entry} :
    IsNewest es key seq e ↔
      es.find? (fun e => e.userKey = key ∧ e.seq ≤ seq) = some e := by
  refine ⟨fun hnewest => ?_, isNewest_of_find? hsorted⟩
  cases hfind : es.find? fun e => e.userKey = key ∧ e.seq ≤ seq with
  | none =>
    have hnot := List.find?_eq_none.mp hfind e hnewest.mem
    simp [hnewest.hasKey, hnewest.visible] at hnot
  | some f =>
    have hfound := isNewest_of_find? hsorted hfind
    obtain ⟨_, before, after, rfl, hbefore⟩ := List.find?_eq_some_iff_append.mp hfind
    rcases List.mem_append.mp hnewest.mem with hmem | hmem
    · have hnot := hbefore e hmem
      simp [hnewest.hasKey, hnewest.visible] at hnot
    · rcases List.mem_cons.mp hmem with rfl | hmem
      · rfl
      · have hlarger := hnewest.largest f hfound.mem hfound.hasKey hfound.visible
        rcases (List.pairwise_cons.mp (List.pairwise_append.mp hsorted).2.1).1 e hmem with
          hlt | ⟨_, hlt⟩
        · rw [hfound.hasKey, hnewest.hasKey] at hlt
          exact absurd hlt (lt_irrefl _)
        · omega

theorem answersSnapshot_iff (hsorted : es.Pairwise Entry.before) {answer : Lookup} :
    AnswersSnapshot es key seq answer ↔
      answer = lookupOf (es.find? fun e => e.userKey = key ∧ e.seq ≤ seq) := by
  cases hfind : es.find? fun e => e.userKey = key ∧ e.seq ≤ seq with
  | none =>
    have hnone : ∀ e ∈ es, e.userKey = key → seq < e.seq := by
      intro e he hkey
      have hnot := List.find?_eq_none.mp hfind e he
      simpa [hkey] using hnot
    constructor
    · rintro (⟨e, hnewest, _⟩ | ⟨_, rfl⟩)
      · exact absurd hnewest.visible (not_le.mpr (hnone e hnewest.mem hnewest.hasKey))
      · rfl
    · exact fun h => Or.inr ⟨hnone, h⟩
  | some f =>
    have hfound := isNewest_of_find? hsorted hfind
    constructor
    · rintro (⟨e, hnewest, rfl⟩ | ⟨hnone, _⟩)
      · rw [(isNewest_iff_find? hsorted).mp hnewest, Option.some.injEq] at hfind
        rw [hfind]
      · exact absurd hfound.visible (not_le.mpr (hnone f hfound.mem hfound.hasKey))
    · exact fun h => Or.inl ⟨f, hfound, h⟩

end Newest

/-- The condition under which `Get` sees what it should: the filter rejects the
key, or the first block whose last key is not below it can be read and has the
newest visible entry of the key, if there is one. -/
def SeesNewest (filter : Bytes) (blocks : List DataBlock) (es : List Entry) (key : Key)
    (seq : Nat) : Prop :=
  (filter ≠ [] ∧ BloomFilter.keyMayMatch key filter = false) ∨
    ∀ b, blocks.find? (fun b => key ≤ lastKey b.2) = some b →
      b.1.length ≤ kMaxBlockSize ∧ ∀ e, IsNewest es key seq e → e ∈ b.2

namespace Layout

variable {l : Layout} {es : List Entry}

theorem find?_scanned (h : l.Opens es) {key : Key} {b : DataBlock}
    (hb : l.blocks.find? (fun b => key ≤ lastKey b.2) = some b) (seq : Nat) :
    ∃ rest : List Entry, es.find? (fun e => e.userKey = key ∧ e.seq ≤ seq) =
      (b.2.find? fun e => e.userKey = key ∧ e.seq ≤ seq).or
        (rest.find? fun e => e.userKey = key ∧ e.seq ≤ seq) := by
  have hkeys := keysSorted_of_sorted h.sorted
  obtain ⟨_, before, after, hblocks, hbefore⟩ := List.find?_eq_some_iff_append.mp hb
  refine ⟨(after.map Prod.snd).flatten, ?_⟩
  rw [h.entries, hblocks] at hkeys ⊢
  rw [List.map_append, List.flatten_append, List.map_cons, List.flatten_cons] at hkeys ⊢
  have hnone : (before.map Prod.snd).flatten.find?
      (fun e => decide (e.userKey = key ∧ e.seq ≤ seq)) = none := by
    rw [List.find?_eq_none]
    intro e he
    obtain ⟨part, hpart, he⟩ := List.mem_flatten.mp he
    obtain ⟨x, hx, rfl⟩ := List.mem_map.mp hpart
    have hsorted : KeysSorted x.2 := (List.pairwise_append.mp hkeys).1.sublist
      (List.sublist_flatten_of_mem (List.mem_map_of_mem hx))
    have hlast : ¬ key ≤ lastKey x.2 := by simpa using hbefore x hx
    have hlt := lt_of_le_of_lt (le_lastKey hsorted he) (not_le.mp hlast)
    simp [hlt.ne]
  rw [List.find?_append, hnone, Option.none_or, List.find?_append]

theorem find?_unscanned (h : l.Opens es) {key : Key}
    (hb : l.blocks.find? (fun b => key ≤ lastKey b.2) = none) (seq : Nat) :
    es.find? (fun e => e.userKey = key ∧ e.seq ≤ seq) = none := by
  have hkeys := keysSorted_of_sorted h.sorted
  rw [h.entries] at hkeys ⊢
  rw [List.find?_eq_none]
  intro e he
  obtain ⟨part, hpart, he⟩ := List.mem_flatten.mp he
  obtain ⟨x, hx, rfl⟩ := List.mem_map.mp hpart
  have hsorted : KeysSorted x.2 := hkeys.sublist
    (List.sublist_flatten_of_mem (List.mem_map_of_mem hx))
  have hlast : ¬ key ≤ lastKey x.2 := by simpa using List.find?_eq_none.mp hb x hx
  have hlt := lt_of_le_of_lt (le_lastKey hsorted he) (not_le.mp hlast)
  simp [hlt.ne]

theorem find?_rejected (h : l.Opens es) {key : Key}
    (hreject : BloomFilter.keyMayMatch key l.filter = false) (seq : Nat) :
    es.find? (fun e => e.userKey = key ∧ e.seq ≤ seq) = none := by
  rw [List.find?_eq_none]
  intro e he
  have hmatch := h.matching e he
  rw [decide_eq_true_iff]
  rintro ⟨rfl, _⟩
  rw [hreject] at hmatch
  cases hmatch

theorem lookupOf_ne_failed (found : Option Entry) (status : Status) :
    lookupOf found ≠ .failed status := by
  unfold lookupOf
  repeat' split
  all_goals simp

theorem lookupOf_eq_absent {found : Option Entry} : lookupOf found = .absent ↔ found = none := by
  unfold lookupOf
  repeat' split
  all_goals simp

theorem get_answers_iff (h : l.Opens es) (hsorted : es.Pairwise Entry.before)
    (htypes : ∀ e ∈ es, e.HasType) (number : Nat) {filter : Bytes}
    (hfilter : filter = l.filter ∨ filter = []) (key : Key) (seq : Nat) :
    AnswersSnapshot es key seq
        (({ l.reader number with filterData := filter } : SSTableReader).get key seq) ↔
      SeesNewest filter l.blocks es key seq := by
  rw [answersSnapshot_iff hsorted, get_withFilter h htypes, SeesNewest]
  by_cases hreject : filter ≠ [] ∧ BloomFilter.keyMayMatch key filter = false
  · have hnone : es.find? (fun e => e.userKey = key ∧ e.seq ≤ seq) = none := by
      rcases hfilter with rfl | rfl
      · exact find?_rejected h hreject.2 seq
      · exact absurd rfl hreject.1
    rw [if_pos hreject, hnone]
    exact ⟨fun _ => Or.inl hreject, fun _ => rfl⟩
  · rw [if_neg hreject, or_iff_right hreject]
    cases hb : l.blocks.find? fun b => key ≤ lastKey b.2 with
    | none =>
      rw [find?_unscanned h hb]
      simp [lookupOf]
    | some b =>
      obtain ⟨rest, hscan⟩ := find?_scanned h hb seq
      simp only [isNewest_iff_find? hsorted, Option.some.injEq, forall_eq', hscan]
      by_cases hlimit : b.1.length ≤ kMaxBlockSize
      · rw [if_pos hlimit]
        cases hfind : b.2.find? fun e => e.userKey = key ∧ e.seq ≤ seq with
        | some f =>
          have hmem := List.mem_of_find?_eq_some hfind
          simp only [Option.some_or, Option.some.injEq, true_iff]
          exact ⟨hlimit, fun e he => he ▸ hmem⟩
        -- an entry that another block has is not in this one
        | none =>
          rw [Option.none_or]
          constructor
          · intro heq
            have hnone := lookupOf_eq_absent.mp heq.symm
            rw [hnone]
            exact ⟨hlimit, fun e he => by cases he⟩
          · rintro ⟨_, hsees⟩
            cases hrest : rest.find? fun e => e.userKey = key ∧ e.seq ≤ seq with
            | none => rfl
            | some e =>
              have hnot := List.find?_eq_none.mp hfind e (hsees e hrest)
              exact absurd (List.find?_some hrest) hnot
      · rw [if_neg hlimit]
        exact ⟨fun heq => absurd heq.symm (lookupOf_ne_failed _ _), fun hsees => absurd hsees.1 hlimit⟩

theorem getCached_answers_iff (h : l.Opens es) (hsorted : es.Pairwise Entry.before)
    (htypes : ∀ e ∈ es, e.HasType) {number : Nat} {filter : Bytes}
    (hfilter : filter = l.filter ∨ filter = []) {cache : Option BlockCache}
    (htrust : (l.reader number).Trusts cache) (key : Key) (seq : Nat) :
    AnswersSnapshot es key seq (({ l.reader number with filterData := filter } :
        SSTableReader).getCached cache key seq).1 ↔
      SeesNewest filter l.blocks es key seq := by
  rw [getCached_eq h filter htrust]
  exact get_answers_iff h hsorted htypes number hfilter key seq

theorem reader_answers_iff (h : l.Opens es) (hsorted : es.Pairwise Entry.before)
    (htypes : ∀ e ∈ es, e.HasType) {number : Nat} {cache : Option BlockCache}
    (htrust : (l.reader number).Trusts cache) (key : Key) (seq : Nat) :
    AnswersSnapshot es key seq ((l.reader number).getCached cache key seq).1 ↔
      SeesNewest l.filter l.blocks es key seq :=
  getCached_answers_iff h hsorted htypes (Or.inl rfl) htrust key seq

end Layout

theorem Layout.opens_of_openTable {options : Options} {es : List Entry}
    (hsorted : es.Pairwise Entry.before) (hseqs : ∀ e ∈ es, e.seq < 2 ^ 64)
    (hsmall : (layoutOf options es).image.length < 2 ^ 64) {number : Nat} {r : SSTableReader}
    (hopen : SSTableReader.openTable (some (layoutOf options es).image) none number
      (layoutOf options es).image.length = .ok r) :
    (layoutOf options es).Opens es ∧ r = (layoutOf options es).reader number := by
  obtain ⟨hindex, hfilter⟩ := Layout.openTable_limits hsmall hopen
  have hopens := layoutOf_opens (hsorted.imp fun {a b} hbefore =>
    (Memtable.not_before_total a b).resolve_right (not_not_intro hbefore)) hseqs hfilter hindex
    hsmall
  rw [Layout.openTable_image hopens] at hopen
  exact ⟨hopens, (Except.ok.inj hopen).symm⟩

/-- `Get` is a lookup in the snapshot exactly where the block it scans has the
newest visible entry of the key. -/
theorem get_is_snapshot_lookup_iff (options : Options) (name : FileName) (number : Nat)
    (es : List Entry) (hsorted : es.Pairwise Entry.before) (hseqs : ∀ e ∈ es, e.seq < 2 ^ 64)
    (htypes : ∀ e ∈ es, e.HasType) (start after : Machine FileName) (b : SSTableBuilder)
    (trace : List (Event FileName))
    (hbuild : SSTableBuilder.build options name es start = .done (.ok, b) after trace)
    (hcalls : ∀ e ∈ trace, e.outcome = .ok) (hsmall : b.fileSize < 2 ^ 64) (r : SSTableReader)
    (hopen : SSTableReader.openTable (after.dir.lookup name) none number b.fileSize = .ok r)
    (filter : Bytes) (hfilter : filter = r.filterData ∨ filter = []) (cache : Option BlockCache)
    (hcache : r.Trusts cache) (key : Key) (seq : Nat) :
    AnswersSnapshot es key seq
        (({ r with filterData := filter } : SSTableReader).getCached cache key seq).1 ↔
      SeesNewest filter (pack options es).blocks es key seq := by
  obtain ⟨_, _, hsize, _, _, hdir⟩ := (SSTableBuilder.build_ok Assume.flawless_noFail options name
    es).done trivial hbuild hcalls
  rw [hdir, lookup_insert_self, hsize] at hopen
  simp only [hsize] at hsmall
  obtain ⟨hopens, rfl⟩ := Layout.opens_of_openTable hsorted hseqs hsmall hopen
  exact Layout.getCached_answers_iff hopens hsorted htypes hfilter hcache key seq

def emptyMachine : Machine FileName := ⟨∅, fun _ => none, []⟩

theorem fits_threeEntries : (layoutOf tinyBlocks threeEntries).Fits :=
  ⟨by decide +kernel, by decide +kernel, by decide +kernel⟩

theorem build_threeEntries :
    ∃ b after trace, SSTableBuilder.build tinyBlocks (.table 7) threeEntries emptyMachine =
        .done (.ok, b) after trace ∧ (∀ e ∈ trace, e.outcome = .ok) ∧ b.fileSize < 2 ^ 64 ∧
      SSTableReader.openTable (after.dir.lookup (.table 7)) none 7 b.fileSize =
        .ok ((layoutOf tinyBlocks threeEntries).reader 7) := by
  have hcalls : ∀ e ∈ (SSTableBuilder.build tinyBlocks (.table 7) threeEntries
      emptyMachine).trace, e.outcome = .ok := by decide +kernel
  have hvalid := fits_threeEntries.valid (by decide) (by decide)
  obtain ⟨⟨status, b⟩, after, trace, hrun, hok, hsize, _, _, hdir⟩ :=
    (SSTableBuilder.build_ok Assume.flawless_noFail tinyBlocks (.table 7)
      threeEntries).succeeds hcalls
  simp only at hok hsize
  subst hok
  rw [hrun] at hcalls
  refine ⟨b, after, trace, hrun, hcalls, hsize ▸ hvalid.small, ?_⟩
  rw [hdir, lookup_insert_self, hsize]
  exact Layout.openTable_image hvalid.opens 7

theorem get_is_snapshot_lookup_iff_threeEntries :
    ∃ b after trace r, SSTableBuilder.build tinyBlocks (.table 7) threeEntries emptyMachine =
        .done (.ok, b) after trace ∧
      SSTableReader.openTable (after.dir.lookup (.table 7)) none 7 b.fileSize = .ok r ∧
      (AnswersSnapshot threeEntries [97] 2 (r.getCached none [97] 2).1 ↔
        SeesNewest r.filterData (pack tinyBlocks threeEntries).blocks threeEntries [97] 2) := by
  obtain ⟨b, after, trace, hbuild, hcalls, hsmall, hopen⟩ := build_threeEntries
  refine ⟨b, after, trace, _, hbuild, hopen, ?_⟩
  exact get_is_snapshot_lookup_iff tinyBlocks (.table 7) 7 threeEntries (by decide) (by decide)
    (by simp only [Entry.HasType]; decide) emptyMachine after b trace hbuild hcalls hsmall _ hopen
    _ (Or.inl rfl) none (fun c hc => nomatch hc) [97] 2

/-- At sequence number 1 the table has a value for the key, in its second block;
`Get` looks into the first one and answers that there is none. -/
theorem get_misses_version_in_next_block :
    ¬ ∀ (options : Options) (name : FileName) (number : Nat) (es : List Entry),
      es.Pairwise Entry.before → (∀ e ∈ es, e.seq < 2 ^ 64) → (∀ e ∈ es, e.HasType) →
      ∀ (start after : Machine FileName) (b : SSTableBuilder) (trace : List (Event FileName)),
      SSTableBuilder.build options name es start = .done (.ok, b) after trace →
      (∀ e ∈ trace, e.outcome = .ok) → b.fileSize < 2 ^ 64 → ∀ r : SSTableReader,
      SSTableReader.openTable (after.dir.lookup name) none number b.fileSize = .ok r →
      ∀ cache, r.Trusts cache → ∀ (key : Key) (seq : Nat),
        AnswersSnapshot es key seq (r.getCached cache key seq).1 := by
  intro h
  have hsorted : threeEntries.Pairwise Entry.before := by decide
  have htypes : ∀ e ∈ threeEntries, e.HasType := by
    simp only [Entry.HasType]
    decide
  have hopens := (fits_threeEntries.valid hsorted (by decide)).opens
  have htrust : ((layoutOf tinyBlocks threeEntries).reader 7).Trusts none :=
    fun c hc => nomatch hc
  obtain ⟨b, after, trace, hbuild, hcalls, hsmall, hopen⟩ := build_threeEntries
  have hanswer := h tinyBlocks (.table 7) 7 threeEntries hsorted (by decide) htypes emptyMachine
    after b trace hbuild hcalls hsmall _ hopen none htrust [97] 1
  have hsees := (Layout.reader_answers_iff hopens hsorted htypes htrust [97] 1).mp hanswer
  rcases hsees with ⟨_, hreject⟩ | hsees
  · have hmatch := hopens.matching ⟨[97], 1, kTypeValue, [49]⟩ (by decide)
    rw [hmatch] at hreject
    cases hreject
  · have hscanned : ((layoutOf tinyBlocks threeEntries).blocks.find?
        fun b => ([97] : Key) ≤ lastKey b.2).map Prod.snd =
          some [⟨[97], 2, kTypeValue, [50]⟩] := by
      decide +kernel
    obtain ⟨b, hb, hentries⟩ := Option.map_eq_some_iff.mp hscanned
    have hmem := (hsees b hb).2 ⟨[97], 1, kTypeValue, [49]⟩
      ((isNewest_iff_find? hsorted).mpr (by decide))
    rw [hentries] at hmem
    revert hmem
    decide

end Strata
