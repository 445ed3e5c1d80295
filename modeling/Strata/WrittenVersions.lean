import Strata.Sources
import Strata.TableCursor

/-! Versions of tables that were written. Whether they meet the structural invariant
depends on the entries of their tables, and can be evaluated. -/
namespace Strata

open Library System Layers Memtable

theorem FileMetaData.sound_written (options : Options) (number : Nat) {es : List Entry}
    {r : SSTableReader} (h : r.Serves es) (htypes : ∀ e ∈ es, e.HasType) :
    (writtenFile options es number r).Sound ∧ (writtenFile options es number r).entries = es := by
  have hentries : (writtenFile options es number r).entries = es := entries_of_serves rfl h
  refine ⟨⟨⟨r, rfl, ?_⟩, ?_, ?_, ?_⟩, hentries⟩
  · rwa [hentries]
  · rw [hentries]; rfl
  · rw [hentries]; rfl
  · rwa [hentries]

theorem pairwise_either {α : Type} {R : α → α → Prop} {l : List α} (h : l.Pairwise R) {a b : α}
    (ha : a ∈ l) (hb : b ∈ l) (hne : a ≠ b) : R a b ∨ R b a := by
  have hsymm : Std.Symm fun x y => R x y ∨ R y x := ⟨fun _ _ => Or.symm⟩
  exact (h.imp Or.inl : l.Pairwise fun x y => R x y ∨ R y x).forall ha hb hne

instance (l : Layout) : Decidable l.Fits :=
  decidable_of_iff ((∀ b ∈ l.blocks, b.1.length ≤ kMaxBlockSize) ∧
      l.filter.length ≤ kMaxBlockSize ∧ l.index.length ≤ kMaxBlockSize)
    ⟨fun ⟨blocks, filter, index⟩ => ⟨blocks, filter, index⟩,
      fun ⟨blocks, filter, index⟩ => ⟨blocks, filter, index⟩⟩

instance (e : Entry) : Decidable e.HasType :=
  inferInstanceAs (Decidable (e.type = kTypeValue ∨ e.type = kTypeDeletion))

structure WrittenTable where
  level : Fin kNumLevels
  number : Nat
  entries : List Entry
  deriving DecidableEq, Repr

namespace WrittenTable

variable {options : Options} {tables : List WrittenTable} {t u : WrittenTable}

/-- The file as it stands in the version that a writer of the table installs. -/
def file (options : Options) (t : WrittenTable) : FileMetaData :=
  writtenFile options t.entries t.number ((layoutOf options t.entries).reader t.number)

/-- The entries are in order, and the table keeps to the limits of the reader. -/
def Fits (options : Options) (t : WrittenTable) : Prop :=
  t.entries.Pairwise Entry.before ∧ (∀ e ∈ t.entries, e.seq < 2 ^ 64 ∧ e.HasType) ∧
    (layoutOf options t.entries).Fits

instance (options : Options) (t : WrittenTable) : Decidable (t.Fits options) :=
  inferInstanceAs (Decidable (_ ∧ _ ∧ _))

/-- The table is in front of the other where both are looked at: it is newer in Level 0 and
has the smaller keys in a deeper level, and its versions of a key are newer. -/
def InFrontOf (t u : WrittenTable) : Prop :=
  t.level ≤ u.level ∧ t.number ≠ u.number ∧ (t.level = u.level →
      if t.level = 0 then u.number < t.number else lastKey t.entries < firstKey u.entries) ∧
    ∀ a ∈ t.entries, ∀ b ∈ u.entries, a.userKey = b.userKey → b.seq < a.seq

instance (t u : WrittenTable) : Decidable (t.InFrontOf u) :=
  inferInstanceAs (Decidable (_ ∧ _ ∧ _ ∧ _))

theorem Fits.valid (h : t.Fits options) : (layoutOf options t.entries).Valid t.entries :=
  h.2.2.valid h.1 fun e he => (h.2.1 e he).1

theorem Fits.sound (h : t.Fits options) :
    (t.file options).Sound ∧ (t.file options).entries = t.entries :=
  FileMetaData.sound_written options t.number ⟨_, t.number, h.valid, rfl⟩
    fun e he => (h.2.1 e he).2

theorem Fits.eq_of_same (h : t.Fits options) {a b : Entry} (ha : a ∈ t.entries)
    (hb : b ∈ t.entries) (hkey : a.userKey = b.userKey) (hseq : a.seq = b.seq) : a = b := by
  by_contra hne
  have hbefore : ∀ {x y : Entry}, x.userKey = y.userKey → x.seq = y.seq → ¬ x.before y := by
    rintro x y hkey hseq (hlt | ⟨_, hlt⟩)
    · exact absurd hkey (ne_of_lt hlt)
    · omega
  rcases pairwise_either h.1 ha hb hne with hab | hba
  · exact hbefore hkey hseq hab
  · exact hbefore hkey.symm hseq.symm hba

theorem trichotomy (h : tables.Pairwise InFrontOf) (ht : t ∈ tables) (hu : u ∈ tables) :
    t = u ∨ t.InFrontOf u ∨ u.InFrontOf t :=
  or_iff_not_imp_left.mpr (pairwise_either h ht hu)

theorem InFrontOf.number_lt (h : t.InFrontOf u) (ht : t.level = 0) (hu : u.level = 0) :
    u.number < t.number := by
  have hwithin := h.2.2.1 (ht.trans hu.symm)
  rwa [if_pos ht] at hwithin

theorem InFrontOf.lastKey_lt (h : t.InFrontOf u) {level : Fin kNumLevels} (ht : t.level = level)
    (hu : u.level = level) (hlevel : level ≠ 0) : lastKey t.entries < firstKey u.entries := by
  have hwithin := h.2.2.1 (ht.trans hu.symm)
  rwa [if_neg (ht ▸ hlevel)] at hwithin

end WrittenTable

namespace Version

/-- The version with the files of these tables, each level in the order of the list. -/
def ofTables (file : WrittenTable → FileMetaData) (tables : List WrittenTable) : Version :=
  ⟨fun level => (tables.filter fun t => t.level = level).map file⟩

variable {options : Options} {file : WrittenTable → FileMetaData} {tables : List WrittenTable}

theorem mem_ofTables {level : Fin kNumLevels} {f : FileMetaData} :
    f ∈ (ofTables file tables).files level ↔ ∃ t ∈ tables, t.level = level ∧ file t = f := by
  simp [ofTables, and_assoc]

theorem pairwise_ofTables {R : FileMetaData → FileMetaData → Prop} {level : Fin kNumLevels}
    (h : tables.Pairwise WrittenTable.InFrontOf)
    (himp : ∀ t ∈ tables, ∀ u ∈ tables, t.level = level → u.level = level → t.InFrontOf u →
      R (file t) (file u)) : ((ofTables file tables).files level).Pairwise R := by
  rw [ofTables, List.pairwise_map]
  apply (List.Pairwise.and_mem.mp (h.filter _)).imp
  rintro t u ⟨ht, hu, hfront⟩
  obtain ⟨ht, htlevel⟩ := List.mem_filter.mp ht
  obtain ⟨hu, hulevel⟩ := List.mem_filter.mp hu
  exact himp t ht u hu (of_decide_eq_true htlevel) (of_decide_eq_true hulevel) hfront

theorem good_ofTables (hfits : ∀ t ∈ tables, t.Fits options)
    (horder : tables.Pairwise WrittenTable.InFrontOf) :
    (ofTables (WrittenTable.file options) tables).Good False := by
  have hentries : ∀ t ∈ tables, (t.file options).entries = t.entries := fun t ht =>
    (hfits t ht).sound.2
  have hnewer : ∀ t ∈ tables, ∀ u ∈ tables, t.InFrontOf u →
      Newer False (t.file options).entries (u.file options).entries := by
    intro t ht u hu ⟨_, _, _, hnew⟩ a ha b hb hkey
    rw [hentries t ht] at ha ⊢
    rw [hentries u hu] at hb
    exact ⟨a, ha, rfl, (hnew a ha b hb hkey).le, Or.inl rfl⟩
  constructor
  · constructor
    case sound =>
      intro level f hf
      obtain ⟨t, ht, _, rfl⟩ := mem_ofTables.mp hf
      exact (hfits t ht).sound.1
    case nodup =>
      intro level
      apply pairwise_ofTables horder
      intro t _ u _ _ _ hfront hsame
      exact hfront.2.1 (congrArg FileMetaData.number hsame)
    case unique =>
      intro i j x hx y hy hnumber
      obtain ⟨t, ht, rfl, rfl⟩ := mem_ofTables.mp hx
      obtain ⟨u, hu, rfl, rfl⟩ := mem_ofTables.mp hy
      rcases WrittenTable.trichotomy horder ht hu with rfl | hfront | hfront
      · exact ⟨rfl, rfl⟩
      · exact absurd hnumber hfront.2.1
      · exact absurd hnumber.symm hfront.2.1
    case apart =>
      intro level hlevel x hx y hy hne
      obtain ⟨t, ht, hlt, rfl⟩ := mem_ofTables.mp hx
      obtain ⟨u, hu, hlu, rfl⟩ := mem_ofTables.mp hy
      rcases WrittenTable.trichotomy horder ht hu with rfl | hfront | hfront
      · exact absurd rfl hne
      · exact Or.inl (hfront.lastKey_lt hlt hlu hlevel)
      · exact Or.inr (hfront.lastKey_lt hlu hlt hlevel)
    case recent0 =>
      intro x hx y hy hlt
      obtain ⟨t, ht, ht0, rfl⟩ := mem_ofTables.mp hx
      obtain ⟨u, hu, hu0, rfl⟩ := mem_ofTables.mp hy
      rcases WrittenTable.trichotomy horder ht hu with rfl | hfront | hfront
      · exact absurd hlt (lt_irrefl _)
      · exact hnewer t ht u hu hfront
      · exact absurd hlt (lt_asymm (hfront.number_lt hu0 ht0))
    case recent =>
      intro i j hij x hx y hy
      obtain ⟨t, ht, rfl, rfl⟩ := mem_ofTables.mp hx
      obtain ⟨u, hu, rfl, rfl⟩ := mem_ofTables.mp hy
      rcases WrittenTable.trichotomy horder ht hu with rfl | hfront | hfront
      · exact absurd hij (lt_irrefl _)
      · exact hnewer t ht u hu hfront
      · exact absurd hfront.1 (not_le.mpr hij)
    case distinct =>
      intro i j x hx y hy a ha b hb hkey hseq
      obtain ⟨t, ht, _, rfl⟩ := mem_ofTables.mp hx
      obtain ⟨u, hu, _, rfl⟩ := mem_ofTables.mp hy
      rw [hentries t ht] at ha
      rw [hentries u hu] at hb
      rcases WrittenTable.trichotomy horder ht hu with rfl | hfront | hfront
      · exact (hfits t ht).eq_of_same ha hb hkey hseq
      · exact absurd hseq.symm (ne_of_lt (hfront.2.2.2 a ha b hb hkey))
      · exact absurd hseq (ne_of_lt (hfront.2.2.2 b hb a ha hkey.symm))
  case descending =>
    apply pairwise_ofTables horder
    intro t _ u _ ht hu hfront
    exact (hfront.number_lt ht hu).le
  case ascending =>
    intro level hlevel
    apply pairwise_ofTables horder
    intro t ht u _ htlevel hulevel hfront
    exact (lt_of_le_of_lt (hfits t ht).sound.1.smallest_le_largest
      (hfront.lastKey_lt htlevel hulevel hlevel)).le

theorem mem_sources_ofTables (hfits : ∀ t ∈ tables, t.Fits options) {e : Entry}
    (he : e ∈ (sources (ofTables (WrittenTable.file options) tables).allFiles).flatten) :
    ∃ t ∈ tables, e ∈ t.entries := by
  obtain ⟨level, f, hf, he⟩ := Sane.mem_entries.mp he
  obtain ⟨t, ht, _, rfl⟩ := mem_ofTables.mp hf
  rw [(hfits t ht).sound.2] at he
  exact ⟨t, ht, he⟩

end Version

/-- What the file was written with: the entries of the table with its number. -/
def contentsOf (tables : List WrittenTable) (f : FileMetaData) : List Entry :=
  ((tables.find? fun t => t.number = f.number).map WrittenTable.entries).getD []

theorem contentsOf_eq {tables : List WrittenTable} (horder : tables.Pairwise WrittenTable.InFrontOf)
    {t : WrittenTable} (ht : t ∈ tables) {f : FileMetaData} (hnumber : f.number = t.number) :
    contentsOf tables f = t.entries := by
  unfold contentsOf
  rw [hnumber]
  cases hfind : tables.find? fun u => u.number = t.number with
  | none =>
    have hnot := List.find?_eq_none.mp hfind t ht
    simp at hnot
  | some u =>
    have hu := List.mem_of_find?_eq_some hfind
    have hsame := List.find?_some hfind
    rw [decide_eq_true_iff] at hsame
    rcases WrittenTable.trichotomy horder hu ht with rfl | hfront | hfront
    · rfl
    · exact absurd hsame hfront.2.1
    · exact absurd hsame.symm hfront.2.1

def storedDir (options : Options) (tables : List WrittenTable) : Dir :=
  tables.foldr (fun t dir => dir.insert (.table t.number) (layoutOf options t.entries).image)
    ((∅ : Dir).insert (.manifest 2) ([] : Bytes))

/-- The version set of the tables, with the next file number and the last sequence. -/
def storedSet (options : Options) (tables : List WrittenTable) (next last : Nat) : VersionSet :=
  ⟨.ofTables (WrittenTable.file options) tables, next, 2, last, 3, some ⟨.manifest 2, true⟩⟩

theorem storedSet_numbers {options : Options} {tables : List WrittenTable} {next : Nat}
    (h : ∀ t ∈ tables, t.number < next) (last : Nat) :
    ∀ f ∈ (storedSet options tables next last).current.allFiles, f.number < next := by
  intro f hf
  obtain ⟨level, hf⟩ := Version.mem_allFiles.mp hf
  obtain ⟨t, ht, _, rfl⟩ := Version.mem_ofTables.mp hf
  exact h t ht

/-- Two tables in Level 0, three in level 1 and one in level 2. A key has older versions
further down, and two keys are deleted. -/
def sixTables : List WrittenTable :=
  [⟨0, 9, [⟨[97], 9, kTypeValue, [57]⟩, ⟨[98], 8, kTypeDeletion, []⟩]⟩,
   ⟨0, 8, [⟨[98], 7, kTypeValue, [55]⟩, ⟨[99], 6, kTypeDeletion, []⟩]⟩,
   ⟨1, 3, [⟨[97], 4, kTypeValue, [52]⟩, ⟨[98], 3, kTypeValue, [51]⟩]⟩,
   ⟨1, 4, [⟨[100], 2, kTypeValue, [50]⟩, ⟨[101], 5, kTypeValue, [53]⟩]⟩,
   ⟨1, 5, [⟨[103], 1, kTypeValue, [49]⟩]⟩,
   ⟨2, 6, [⟨[99], 1, kTypeValue, [48]⟩, ⟨[101], 1, kTypeValue, [48]⟩]⟩]

/-- A block for each entry, and compactions from two files in Level 0 on. -/
def eagerOptions : Options := { blockSize := 1, maxLevel0Files := 2 }

theorem sixTables_fit : ∀ t ∈ sixTables, t.Fits eagerOptions := by decide +kernel

theorem sixTables_ordered : sixTables.Pairwise WrittenTable.InFrontOf := by decide +kernel

theorem sixTables_distinct : ∀ t ∈ sixTables, ∀ a ∈ t.entries, ∀ u ∈ sixTables, ∀ b ∈ u.entries,
    a.userKey = b.userKey → a.seq = b.seq → a = b := by
  decide

end Strata
