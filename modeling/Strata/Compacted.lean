import Strata.Compaction
import Strata.Edits

/-! What a compaction makes of a version: the files it picks, the entries it
keeps of them, and the version in which its outputs stand for its inputs. -/
namespace Strata

open Library System Layers Memtable

namespace Compaction

variable {c : Compaction} {v : Version} {loose : Prop}

/-- The inputs of the upper level lie between two keys, and the inputs of the
lower level are its files that reach between them. -/
structure Covers (c : Compaction) (v : Version) : Prop where
  nonempty : c.inputs0 ≠ []
  upper : ∀ f ∈ c.inputs0, f ∈ v.files c.source
  whole : c.source = 0 → ∀ f ∈ v.files 0, f ∈ c.inputs0
  hull : ∃ lo hi, (∀ f ∈ c.inputs0, lo ≤ f.smallestKey ∧ f.largestKey ≤ hi) ∧
    c.inputs1 = overlapping lo hi (v.files c.target)

theorem hullMin_le (files : List FileMetaData) (first : Key) :
    hullMin first files ≤ first ∧ ∀ f ∈ files, hullMin first files ≤ f.smallestKey := by
  induction files generalizing first with
  | nil => simp [hullMin]
  | cons f rest ih =>
    have hstep : hullMin first (f :: rest) =
        hullMin (if f.smallestKey < first then f.smallestKey else first) rest := rfl
    obtain ⟨hfirst, hrest⟩ := ih (if f.smallestKey < first then f.smallestKey else first)
    rw [hstep]
    have hle : (if f.smallestKey < first then f.smallestKey else first) ≤ first ∧
        (if f.smallestKey < first then f.smallestKey else first) ≤ f.smallestKey := by
      split
      · rename_i hlt
        exact ⟨le_of_lt hlt, le_refl _⟩
      · rename_i hge
        exact ⟨le_refl _, not_lt.mp hge⟩
    refine ⟨le_trans hfirst hle.1, fun g hg => ?_⟩
    rcases List.mem_cons.mp hg with rfl | hg
    · exact le_trans hfirst hle.2
    · exact hrest g hg

theorem le_hullMax (files : List FileMetaData) (first : Key) :
    first ≤ hullMax first files ∧ ∀ f ∈ files, f.largestKey ≤ hullMax first files := by
  induction files generalizing first with
  | nil => simp [hullMax]
  | cons f rest ih =>
    have hstep : hullMax first (f :: rest) =
        hullMax (if first < f.largestKey then f.largestKey else first) rest := rfl
    obtain ⟨hfirst, hrest⟩ := ih (if first < f.largestKey then f.largestKey else first)
    rw [hstep]
    have hle : first ≤ (if first < f.largestKey then f.largestKey else first) ∧
        f.largestKey ≤ (if first < f.largestKey then f.largestKey else first) := by
      split
      · rename_i hlt
        exact ⟨le_of_lt hlt, le_refl _⟩
      · rename_i hge
        exact ⟨le_refl _, not_lt.mp hge⟩
    refine ⟨le_trans hle.1 hfirst, fun g hg => ?_⟩
    rcases List.mem_cons.mp hg with rfl | hg
    · exact le_trans hle.2 hfirst
    · exact hrest g hg

theorem pickBySize_covers {levels : List (Fin 6)} (hlevels : 0 ∉ levels)
    (h : pickBySize v levels = some c) : c.Covers v := by
  induction levels with
  | nil => cases h
  | cons level rest ih =>
    have hrest := ih (fun hmem => hlevels (List.mem_cons_of_mem _ hmem))
    unfold pickBySize at h
    split at h
    · rename_i f others hfiles
      split at h
      · obtain rfl := Option.some.inj h
        refine ⟨by simp, ?_, ?_, f.smallestKey, f.largestKey, ?_, rfl⟩
        · intro g hg
          rw [List.mem_singleton] at hg
          subst hg
          rw [source, hfiles]
          simp
        · intro hzero
          have hlevel : level = 0 := Fin.ext (by simpa [source] using congrArg Fin.val hzero)
          exact absurd (by simp [hlevel]) hlevels
        · intro g hg
          rw [List.mem_singleton] at hg
          subst hg
          exact ⟨le_refl _, le_refl _⟩
      · exact hrest h
    · exact hrest h

theorem pickCompaction_covers {options : Options} (h : pickCompaction options v = some c) :
    c.Covers v := by
  unfold pickCompaction at h
  split at h
  · unfold pickLevel0 at h
    split at h
    · cases h
    · rename_i f rest hfiles
      obtain rfl := Option.some.inj h
      refine ⟨by simp, fun g hg => ?_, fun _ g hg => ?_, _, _, fun g hg => ⟨?_, ?_⟩, rfl⟩
      · have hzero : v.files 0 = f :: rest := hfiles
        exact hzero ▸ hg
      · rwa [hfiles] at hg
      · exact (hullMin_le (f :: rest) f.smallestKey).2 g hg
      · exact (le_hullMax (f :: rest) f.largestKey).2 g hg
  · exact pickBySize_covers (by decide) h

def Takes (c : Compaction) (level : Fin kNumLevels) (f : FileMetaData) : Prop :=
  level = c.source ∧ f ∈ c.inputs0 ∨ level = c.target ∧ f ∈ c.inputs1

theorem source_lt_target (c : Compaction) : c.source < c.target := Fin.castSucc_lt_succ

theorem target_ne_zero (c : Compaction) : c.target ≠ 0 := Fin.succ_ne_zero c.level

theorem Covers.mem_files (h : c.Covers v) {level : Fin kNumLevels} {f : FileMetaData}
    (htakes : c.Takes level f) : f ∈ v.files level := by
  rcases htakes with ⟨rfl, hf⟩ | ⟨rfl, hf⟩
  · exact h.upper f hf
  · obtain ⟨lo, hi, _, hinputs⟩ := h.hull
    rw [hinputs] at hf
    exact (List.mem_filter.mp hf).1

theorem takes_of_mem {f : FileMetaData} (hf : f ∈ c.inputs) : ∃ level, c.Takes level f := by
  rcases List.mem_append.mp hf with hf | hf
  · exact ⟨c.source, Or.inl ⟨rfl, hf⟩⟩
  · exact ⟨c.target, Or.inr ⟨rfl, hf⟩⟩

theorem Takes.mem_inputs {level : Fin kNumLevels} {f : FileMetaData} (h : c.Takes level f) :
    f ∈ c.inputs := by
  rcases h with ⟨_, hf⟩ | ⟨_, hf⟩
  · exact List.mem_append_left _ hf
  · exact List.mem_append_right _ hf

theorem Covers.outside (h : c.Covers v) (hsane : v.Sane loose) {g : FileMetaData}
    (hg : g ∈ v.files c.target) (hnot : g ∉ c.inputs1) :
    (∀ f ∈ c.inputs, f.largestKey < g.smallestKey) ∨
      ∀ f ∈ c.inputs, g.largestKey < f.smallestKey := by
  obtain ⟨lo, hi, hhull, hinputs⟩ := h.hull
  have hreach : ∀ f ∈ v.files c.target, f ∈ c.inputs1 ↔ lo ≤ f.largestKey ∧ f.smallestKey ≤ hi := by
    intro f hf
    simp [hinputs, overlapping, hf]
  have hrange := (hsane.sound _ g hg).smallest_le_largest
  have hside : g.largestKey < lo ∨ hi < g.smallestKey := by
    by_contra hboth
    rw [not_or, not_lt, not_lt] at hboth
    exact hnot ((hreach g hg).mpr hboth)
  have hlower : ∀ f ∈ c.inputs1, lo ≤ f.largestKey ∧ f.smallestKey ≤ hi ∧
      (f.largestKey < g.smallestKey ∨ g.largestKey < f.smallestKey) := by
    intro f hf
    have hfile := h.mem_files (Or.inr ⟨rfl, hf⟩)
    obtain ⟨hlo, hhi⟩ := (hreach f hfile).mp hf
    exact ⟨hlo, hhi, hsane.apart _ c.target_ne_zero f hfile g hg fun heq => hnot (heq ▸ hf)⟩
  rcases hside with hleft | hright
  · refine Or.inr fun f hf => ?_
    rcases List.mem_append.mp hf with hf | hf
    · exact lt_of_lt_of_le hleft (hhull f hf).1
    · obtain ⟨hlo, _, hbefore | hbehind⟩ := hlower f hf
      · have hcross := lt_of_le_of_lt hlo (lt_of_lt_of_le hbefore hrange)
        exact absurd hcross (lt_asymm hleft)
      · exact hbehind
  · refine Or.inl fun f hf => ?_
    rcases List.mem_append.mp hf with hf | hf
    · exact lt_of_le_of_lt (hhull f hf).2 hright
    · obtain ⟨_, hhi, hbefore | hbehind⟩ := hlower f hf
      · exact hbefore
      · have hcross := lt_of_le_of_lt hrange (lt_of_lt_of_le hbehind hhi)
        exact absurd hcross (lt_asymm hright)

theorem Covers.stays (h : c.Covers v) (hsane : v.Sane loose) {level : Fin kNumLevels}
    {g f : FileMetaData} (hg : g ∈ v.files level) (hstays : ¬ c.Takes level g) (hf : f ∈ c.inputs)
    {x e : Entry} (hx : x ∈ g.entries) (he : e ∈ f.entries) (hkey : x.userKey = e.userKey) :
    (level < c.target ∧ Newer loose g.entries f.entries) ∨ c.target < level := by
  obtain ⟨flevel, htakes⟩ := takes_of_mem hf
  have hfile := h.mem_files htakes
  rcases lt_trichotomy level c.target with hlt | rfl | hgt
  · refine Or.inl ⟨hlt, ?_⟩
    rcases htakes with ⟨rfl, hf0⟩ | ⟨rfl, _⟩
    · rcases lt_or_eq_of_le (show level ≤ c.source from Fin.le_castSucc_iff.mpr hlt) with hlt' | rfl
      · exact hsane.recent _ _ hlt' g hg f hfile
      -- another file of the upper level shares no key with the input
      · have hzero : c.source ≠ 0 := by
          intro hzero
          exact hstays (Or.inl ⟨rfl, h.whole hzero g (hzero ▸ hg)⟩)
        have hne : g ≠ f := fun heq => hstays (Or.inl ⟨rfl, heq ▸ hf0⟩)
        rcases hsane.apart _ hzero g hg f hfile hne with hapart | hapart
        · exact Version.newer_of_apart (hsane.sound _ g hg) (hsane.sound _ f hfile) hapart
        · have hlt' := lt_of_le_of_lt ((hsane.sound _ f hfile).le_largest he)
            (lt_of_lt_of_le hapart ((hsane.sound _ g hg).smallest_le hx))
          exact absurd hkey.symm (ne_of_lt hlt')
    · exact hsane.recent _ _ hlt g hg f hfile
  · have hnot : g ∉ c.inputs1 := fun hmem => hstays (Or.inr ⟨rfl, hmem⟩)
    rcases h.outside hsane hg hnot with hside | hside
    · have hlt := lt_of_le_of_lt ((hsane.sound _ f hfile).le_largest he)
        (lt_of_lt_of_le (hside f hf) ((hsane.sound _ g hg).smallest_le hx))
      exact absurd hkey.symm (ne_of_lt hlt)
    · have hlt := lt_of_le_of_lt ((hsane.sound _ g hg).le_largest hx)
        (lt_of_lt_of_le (hside f hf) ((hsane.sound _ f hfile).smallest_le he))
      exact absurd hkey (ne_of_lt hlt)
  · exact Or.inr hgt

/-- The entries that the loop passes on behind an entry of the key `last`: the
first of each key, without the tombstones that have nothing left to hide. -/
def keptAfter (c : Compaction) (v : Version) (last : Option Key) (merged : List Entry) :
    List Entry :=
  (firsts last merged).filter fun e =>
    ¬ (e.type = kTypeDeletion ∧ c.isBaseLevelForKey e.userKey v = true)

def kept (c : Compaction) (v : Version) (merged : List Entry) : List Entry :=
  c.keptAfter v none merged

variable {merged : List Entry}

theorem kept_keys_lt (h : Sorted merged) :
    (c.kept v merged).Pairwise fun a b => a.userKey < b.userKey :=
  (firsts_keys_lt (keysSorted_of_sorted h)).sublist List.filter_sublist

theorem kept_top (h : Sorted merged) {e : Entry} (he : e ∈ c.kept v merged) :
    IsTop merged e.userKey e := by
  have hfirst := (mem_firsts (keysSorted_of_sorted h) (by simp)).mp (List.mem_filter.mp he).1
  exact find_top (topFirst_of_sorted h) hfirst.2

theorem kept_covered (h : Sorted merged) {e : Entry} (he : e ∈ merged) :
    (∃ x ∈ c.kept v merged, x.userKey = e.userKey ∧ e.seq ≤ x.seq) ∨
      ((∀ x ∈ c.kept v merged, x.userKey ≠ e.userKey) ∧
        c.isBaseLevelForKey e.userKey v = true ∧
        ∃ t ∈ merged, t.userKey = e.userKey ∧ t.type = kTypeDeletion ∧ e.seq ≤ t.seq) := by
  have hkeys := keysSorted_of_sorted h
  cases hfind : find e.userKey merged with
  | none => exact absurd rfl (find_none.mp hfind e he)
  | some t =>
    obtain ⟨ht, htk, htop⟩ := find_top (topFirst_of_sorted h) hfind
    have hfirst : t ∈ firsts none merged := by
      rw [mem_firsts hkeys (by simp)]
      exact ⟨by simp, by rw [show t.userKey = e.userKey from htk]; exact hfind⟩
    by_cases hdropped : t.type = kTypeDeletion ∧ c.isBaseLevelForKey t.userKey v = true
    · refine Or.inr ⟨fun x hx hxk => ?_, htk ▸ hdropped.2, t, ht, htk, hdropped.1, htop e he rfl⟩
      have hx' := List.mem_filter.mp hx
      have hsame := ((mem_firsts hkeys (by simp)).mp hx'.1).2
      rw [hxk] at hsame
      obtain rfl : t = x := Option.some.inj (hfind.symm.trans hsame)
      simp [hdropped] at hx'
    · exact Or.inl ⟨t, List.mem_filter.mpr ⟨hfirst, decide_eq_true hdropped⟩, htk, htop e he rfl⟩

structure Outputs (least : Nat) (kept : List Entry) (outputs : List FileMetaData) : Prop where
  sound : ∀ f ∈ outputs, f.Sound
  nonempty : ∀ f ∈ outputs, f.entries ≠ []
  entries : (Version.sources outputs).flatten = kept
  ascending : outputs.Pairwise fun a b => a.number < b.number
  fresh : ∀ f ∈ outputs, least ≤ f.number

structure Replaces (c : Compaction) (v : Version) (outputs : List FileMetaData) (v' : Version) :
    Prop where
  mem : ∀ level f, f ∈ v'.files level ↔
    (f ∈ v.files level ∧ ¬ c.Takes level f) ∨ (level = c.target ∧ f ∈ outputs)
  nodup : ∀ level, (v'.files level).Nodup

theorem Outputs.disjoint {least : Nat} {outputs : List FileMetaData}
    (h : Outputs least (c.kept v merged) outputs) (hsorted : Sorted merged) :
    Version.Disjoint outputs := by
  have hkeys := kept_keys_lt (c := c) (v := v) hsorted
  rw [← h.entries, List.pairwise_flatten, Version.sources, List.pairwise_map] at hkeys
  apply (List.Pairwise.and_mem.mp hkeys.2).imp
  rintro a b ⟨ha, hb, hlt⟩
  have ha' := h.sound a ha
  have hb' := h.sound b hb
  obtain ⟨last, hlast, hlastKey⟩ := lastKey_mem (h.nonempty a ha)
  obtain ⟨first, hfirst, hfirstKey⟩ := firstKey_mem (h.nonempty b hb)
  rw [ha'.largest, hb'.smallest, ← hlastKey, ← hfirstKey]
  exact hlt last hlast first hfirst

theorem Outputs.apart {least : Nat} {outputs : List FileMetaData}
    (h : Outputs least (c.kept v merged) outputs) (hsorted : Sorted merged) {x y : FileMetaData}
    (hx : x ∈ outputs) (hy : y ∈ outputs) (hne : x ≠ y) :
    x.number ≠ y.number ∧ (x.largestKey < y.smallestKey ∨ y.largestKey < x.smallestKey) := by
  have : Std.Symm fun a b : FileMetaData => a.number ≠ b.number ∧
      (a.largestKey < b.smallestKey ∨ b.largestKey < a.smallestKey) :=
    ⟨fun _ _ h => ⟨h.1.symm, h.2.symm⟩⟩
  have hpair : outputs.Pairwise fun a b : FileMetaData => a.number ≠ b.number ∧
      (a.largestKey < b.smallestKey ∨ b.largestKey < a.smallestKey) :=
    (h.ascending.and (h.disjoint hsorted)).imp fun ⟨hnumber, hkeys⟩ =>
      ⟨ne_of_lt hnumber, Or.inl hkeys⟩
  exact hpair.forall hx hy hne

section Replaced

variable {v' : Version} {outputs : List FileMetaData} {least : Nat}
  (hcovers : c.Covers v) (hsane : v.Sane loose) (hnumbers : ∀ f ∈ v.allFiles, f.number < least)
  (hmerged : merged.Perm (Version.sources c.inputs).flatten) (hsorted : Sorted merged)
  (houtputs : Outputs least (c.kept v merged) outputs) (hreplaces : c.Replaces v outputs v')

include hmerged in
theorem mem_merged {e : Entry} : e ∈ merged ↔ ∃ f ∈ c.inputs, e ∈ f.entries := by
  rw [hmerged.mem_iff, List.mem_flatten]
  constructor
  · rintro ⟨es, hes, he⟩
    obtain ⟨f, hf, rfl⟩ := List.mem_map.mp hes
    exact ⟨f, hf, he⟩
  · rintro ⟨f, hf, he⟩
    exact ⟨f.entries, List.mem_map_of_mem hf, he⟩

include houtputs in
theorem mem_outputs {e : Entry} :
    e ∈ c.kept v merged ↔ ∃ f ∈ outputs, e ∈ f.entries := by
  rw [← houtputs.entries, List.mem_flatten]
  constructor
  · rintro ⟨es, hes, he⟩
    obtain ⟨f, hf, rfl⟩ := List.mem_map.mp hes
    exact ⟨f, hf, he⟩
  · rintro ⟨f, hf, he⟩
    exact ⟨f.entries, List.mem_map_of_mem hf, he⟩

include hmerged hsorted houtputs in
theorem output_top {f : FileMetaData} (hf : f ∈ outputs) {e : Entry} (he : e ∈ f.entries) :
    (∃ g ∈ c.inputs, e ∈ g.entries) ∧
      ∀ g ∈ c.inputs, ∀ x ∈ g.entries, x.userKey = e.userKey → x.seq ≤ e.seq := by
  obtain ⟨hmem, _, htop⟩ := kept_top hsorted ((mem_outputs houtputs).mpr ⟨f, hf, he⟩)
  refine ⟨(mem_merged hmerged).mp hmem, fun g hg x hx hkey => ?_⟩
  exact htop x ((mem_merged hmerged).mpr ⟨g, hg, hx⟩) hkey

include hcovers hsane hmerged hsorted houtputs in
theorem outputs_outside {g : FileMetaData} (hg : g ∈ v.files c.target)
    (hstays : ¬ c.Takes c.target g) {f : FileMetaData} (hf : f ∈ outputs) :
    f.largestKey < g.smallestKey ∨ g.largestKey < f.smallestKey := by
  have hf' := houtputs.sound f hf
  have horigin := fun {e} (he : e ∈ f.entries) => (output_top hmerged hsorted houtputs hf he).1
  have hinput : ∀ i ∈ c.inputs, i.Sound := by
    intro i hi
    obtain ⟨level, htakes⟩ := takes_of_mem hi
    exact hsane.sound level i (hcovers.mem_files htakes)
  rcases hcovers.outside hsane hg fun hmem => hstays (Or.inr ⟨rfl, hmem⟩) with hside | hside
  · obtain ⟨last, hlast, hlastKey⟩ := lastKey_mem (houtputs.nonempty f hf)
    obtain ⟨i, hi, hmem⟩ := horigin hlast
    rw [hf'.largest, ← hlastKey]
    exact Or.inl (lt_of_le_of_lt ((hinput i hi).le_largest hmem) (hside i hi))
  · obtain ⟨first, hfirst, hfirstKey⟩ := firstKey_mem (houtputs.nonempty f hf)
    obtain ⟨i, hi, hmem⟩ := horigin hfirst
    rw [hf'.smallest, ← hfirstKey]
    exact Or.inr (lt_of_lt_of_le (hside i hi) ((hinput i hi).smallest_le hmem))

include hcovers hsane hnumbers hmerged hsorted houtputs hreplaces in
theorem Replaces.sane : v'.Sane loose := by
  have hold : ∀ {level f}, f ∈ v.files level → f.number < least := fun hf =>
    hnumbers _ (Version.mem_allFiles.mpr ⟨_, hf⟩)
  have horigin := fun {f} (hf : f ∈ outputs) {e} (he : e ∈ f.entries) =>
    output_top hmerged hsorted houtputs hf he
  -- every entry of the new version is one of the old version
  have hentry : ∀ {level f e}, f ∈ v'.files level → e ∈ f.entries →
      ∃ i, ∃ g ∈ v.files i, e ∈ g.entries := by
    intro level f e hf he
    rcases (hreplaces.mem level f).mp hf with ⟨hf, _⟩ | ⟨_, hf⟩
    · exact ⟨level, f, hf, he⟩
    · obtain ⟨g, hg, heg⟩ := (horigin hf he).1
      obtain ⟨i, htakes⟩ := takes_of_mem hg
      exact ⟨i, g, hcovers.mem_files htakes, heg⟩
  constructor
  case sound =>
    intro level f hf
    rcases (hreplaces.mem level f).mp hf with ⟨hf, _⟩ | ⟨_, hf⟩
    · exact hsane.sound level f hf
    · exact houtputs.sound f hf
  case nodup => exact hreplaces.nodup
  case unique =>
    intro i j x hx y hy hsame
    rcases (hreplaces.mem i x).mp hx with ⟨hx, _⟩ | ⟨hi, hx⟩ <;>
      rcases (hreplaces.mem j y).mp hy with ⟨hy, _⟩ | ⟨hj, hy⟩
    · exact hsane.unique i j x hx y hy hsame
    · exact absurd hsame (ne_of_lt (lt_of_lt_of_le (hold hx) (houtputs.fresh y hy)))
    · exact absurd hsame.symm (ne_of_lt (lt_of_lt_of_le (hold hy) (houtputs.fresh x hx)))
    · refine ⟨hi.trans hj.symm, ?_⟩
      by_contra hne
      exact (houtputs.apart hsorted hx hy hne).1 hsame
  case apart =>
    intro level hlevel x hx y hy hne
    rcases (hreplaces.mem level x).mp hx with ⟨hold, hstays⟩ | ⟨hi, hnew⟩ <;>
      rcases (hreplaces.mem level y).mp hy with ⟨hold', hstays'⟩ | ⟨hj, hnew'⟩
    · exact hsane.apart level hlevel x hold y hold' hne
    · subst hj
      exact (outputs_outside hcovers hsane hmerged hsorted houtputs hold hstays hnew').symm
    · subst hi
      exact outputs_outside hcovers hsane hmerged hsorted houtputs hold' hstays' hnew
    · exact (houtputs.apart hsorted hnew hnew' hne).2
  case recent0 =>
    intro x hx y hy
    rcases (hreplaces.mem 0 x).mp hx with ⟨hx, _⟩ | ⟨hi, _⟩
    · rcases (hreplaces.mem 0 y).mp hy with ⟨hy, _⟩ | ⟨hj, _⟩
      · exact hsane.recent0 x hx y hy
      · exact absurd hj.symm c.target_ne_zero
    · exact absurd hi.symm c.target_ne_zero
  case recent =>
    intro i j hij x hx y hy
    rcases (hreplaces.mem i x).mp hx with ⟨hx, hstays⟩ | ⟨hi, hx⟩
    · rcases (hreplaces.mem j y).mp hy with ⟨hy, _⟩ | ⟨hj, hy⟩
      · exact hsane.recent i j hij x hx y hy
      -- an old file above the outputs is above the input the entry came from
      · intro a ha b hb hkey
        obtain ⟨f, hf, hbf⟩ := (horigin hy hb).1
        subst hj
        rcases hcovers.stays hsane hx hstays hf ha hbf hkey with ⟨_, hnewer⟩ | hbelow
        · exact hnewer a ha b hbf hkey
        · exact absurd hij (lt_asymm hbelow)
    · rcases (hreplaces.mem j y).mp hy with ⟨hy, _⟩ | ⟨hj, _⟩
      -- the output holds the newest entry of the inputs
      · intro a ha b hb hkey
        obtain ⟨⟨f, hf, haf⟩, htop⟩ := horigin hx ha
        obtain ⟨level, htakes⟩ := takes_of_mem hf
        have hlevel : level < j := by
          rcases htakes with ⟨rfl, _⟩ | ⟨rfl, _⟩
          · exact lt_trans c.source_lt_target (hi ▸ hij)
          · exact hi ▸ hij
        obtain ⟨z, hz, hzk, hle, _⟩ :=
          hsane.recent level j hlevel f (hcovers.mem_files htakes) y hy a haf b hb hkey
        exact ⟨a, ha, rfl, le_trans hle (htop f hf z hz hzk), Or.inl rfl⟩
      · exact absurd hij (by rw [hi, hj]; exact lt_irrefl _)
  case distinct =>
    intro i j x hx y hy a ha b hb hkey hseq
    obtain ⟨i', x', hx', ha'⟩ := hentry hx ha
    obtain ⟨j', y', hy', hb'⟩ := hentry hy hb
    exact hsane.distinct i' j' x' hx' y' hy' a ha' b hb' hkey hseq

theorem not_baseLevel {level : Fin kNumLevels} (hlevel : c.target < level) {g : FileMetaData}
    (hg : g ∈ v.files level) {key : Key} (hrange : g.smallestKey ≤ key ∧ key ≤ g.largestKey) :
    c.isBaseLevelForKey key v = false := by
  rw [Bool.eq_false_iff]
  intro hbase
  have hdeep : ¬ level.val < c.level.val + 2 := by
    have hval : c.level.val + 1 < level.val := hlevel
    omega
  have hlvl := List.all_eq_true.mp hbase level (List.mem_finRange level)
  simp only [hdeep, decide_false, Bool.false_or, List.all_eq_true] at hlvl
  have hout := hlvl g hg
  simp [inRange, hrange] at hout

include hcovers hsane hmerged hsorted houtputs hreplaces in
theorem Replaces.reduces (above : List Entry)
    (habove : ∀ x ∈ above, ∀ e ∈ (Version.sources v.allFiles).flatten, x.userKey = e.userKey →
      ∃ y ∈ above, y.userKey = e.userKey ∧ e.seq ≤ y.seq) :
    Reduces (above ++ (Version.sources v.allFiles).flatten)
      (above ++ (Version.sources v'.allFiles).flatten) := by
  classical
  -- the files that stay, beside the entries above them
  let rest := above ++ ((Version.sources v.allFiles).flatten.filter fun e =>
    ∃ level, ∃ f ∈ v.files level, ¬ c.Takes level f ∧ e ∈ f.entries)
  have hrest : ∀ {e}, e ∈ rest ↔ e ∈ above ∨
      ∃ level, ∃ f ∈ v.files level, ¬ c.Takes level f ∧ e ∈ f.entries := by
    intro e
    simp only [rest, List.mem_append, List.mem_filter, decide_eq_true_eq]
    refine or_congr_right ⟨fun h => h.2, fun h => ⟨?_, h⟩⟩
    obtain ⟨level, f, hf, _, he⟩ := h
    exact Version.Sane.mem_entries.mpr ⟨level, f, hf, he⟩
  have hreduces : Reduces (rest ++ merged) (rest ++ c.kept v merged) := by
    apply Reduces.replace
    · exact fun e he => (kept_top hsorted he).1
    · intro e he
      rcases kept_covered (c := c) (v := v) hsorted he with hkept | ⟨hnone, hbase, hdead⟩
      · exact Or.inl hkept
      · refine Or.inr ⟨hnone, hdead, fun x hx hkey => ?_⟩
        obtain ⟨f, hf, hef⟩ := (mem_merged hmerged).mp he
        obtain ⟨flevel, htakes⟩ := takes_of_mem hf
        have hfile := hcovers.mem_files htakes
        rcases hrest.mp hx with hx | ⟨level, g, hg, hstays, hx⟩
        · obtain ⟨y, hy, hyk, hle⟩ := habove x hx e
            (Version.Sane.mem_entries.mpr ⟨flevel, f, hfile, hef⟩) hkey
          exact ⟨y, hrest.mpr (Or.inl hy), hyk, hle⟩
        · rcases hcovers.stays hsane hg hstays hf hx hef hkey with ⟨_, hnewer⟩ | hbelow
          · obtain ⟨y, hy, hyk, hle, _⟩ := hnewer x hx e hef hkey
            exact ⟨y, hrest.mpr (Or.inr ⟨level, g, hg, hstays, hy⟩), hyk.trans hkey, hle⟩
          -- a file below both levels would have kept the tombstone
          · have hg' := hsane.sound level g hg
            have hkey' : x.userKey = e.userKey := hkey
            rw [not_baseLevel hbelow hg (hkey' ▸ ⟨hg'.smallest_le hx, hg'.le_largest hx⟩)] at hbase
            cases hbase
  refine hreduces.of_mem_iff (fun e => ?_) fun e => ?_
  · rw [List.mem_append, List.mem_append, hrest, Version.Sane.mem_entries, mem_merged hmerged,
      or_assoc]
    refine or_congr_right ⟨?_, ?_⟩
    · rintro ⟨level, f, hf, he⟩
      by_cases htakes : c.Takes level f
      · exact Or.inr ⟨f, htakes.mem_inputs, he⟩
      · exact Or.inl ⟨level, f, hf, htakes, he⟩
    · rintro (⟨level, f, hf, _, he⟩ | ⟨f, hf, he⟩)
      · exact ⟨level, f, hf, he⟩
      · obtain ⟨level, htakes⟩ := takes_of_mem hf
        exact ⟨level, f, hcovers.mem_files htakes, he⟩
  · rw [List.mem_append, List.mem_append, hrest, Version.Sane.mem_entries, mem_outputs houtputs,
      or_assoc]
    refine or_congr_right ⟨?_, ?_⟩
    · rintro ⟨level, f, hf, he⟩
      rcases (hreplaces.mem level f).mp hf with ⟨hf, hstays⟩ | ⟨_, hf⟩
      · exact Or.inl ⟨level, f, hf, hstays, he⟩
      · exact Or.inr ⟨f, hf, he⟩
    · rintro (⟨level, f, hf, hstays, he⟩ | ⟨f, hf, he⟩)
      · exact ⟨level, f, (hreplaces.mem level f).mpr (Or.inl ⟨hf, hstays⟩), he⟩
      · exact ⟨c.target, f, (hreplaces.mem _ f).mpr (Or.inr ⟨rfl, hf⟩), he⟩

end Replaced

/-! The edit that records a compaction. -/

theorem mem_foldl_deleteFile (level : Nat) (files : List FileMetaData) (edit : VersionEdit)
    {x : Nat × Nat} :
    x ∈ (files.foldl (fun edit f => edit.deleteFile level f.number) edit).deletedFiles ↔
      x ∈ edit.deletedFiles ∨ ∃ f ∈ files, x = (level, f.number) := by
  induction files generalizing edit with
  | nil => simp
  | cons f rest ih =>
    rw [List.foldl_cons, ih, VersionEdit.deleteFile, mem_insertDeleted]
    simp only [List.mem_cons, exists_eq_or_imp]
    rw [or_assoc, or_left_comm]

theorem foldl_addFile (level : Nat) (files : List FileMetaData) (edit : VersionEdit) :
    files.foldl (fun edit f => edit.addFile level f) edit =
      { edit with newFiles := edit.newFiles ++ files.map fun f => (level, f) } := by
  induction files generalizing edit with
  | nil => simp
  | cons f rest ih =>
    rw [List.foldl_cons, ih]
    simp [VersionEdit.addFile]

theorem foldl_deleteFile (level : Nat) (files : List FileMetaData) (edit : VersionEdit) :
    ∃ deleted, files.foldl (fun edit f => edit.deleteFile level f.number) edit =
      { edit with deletedFiles := deleted } := by
  induction files generalizing edit with
  | nil => exact ⟨edit.deletedFiles, rfl⟩
  | cons f rest ih =>
    obtain ⟨deleted, hdeleted⟩ := ih (edit.deleteFile level f.number)
    exact ⟨deleted, hdeleted⟩

theorem edit_eq (c : Compaction) (outputs : List FileMetaData) : ∃ deleted, c.edit outputs =
    { deletedFiles := deleted, newFiles := outputs.map fun f => (c.target.val, f) } := by
  obtain ⟨first, hfirst⟩ := foldl_deleteFile c.level.val c.inputs0 {}
  obtain ⟨second, hsecond⟩ := foldl_deleteFile (c.level.val + 1) c.inputs1
    { deletedFiles := first }
  refine ⟨second, ?_⟩
  rw [edit, hfirst, hsecond, foldl_addFile]
  rfl

theorem newFiles_edit (c : Compaction) (outputs : List FileMetaData) :
    (c.edit outputs).newFiles = outputs.map fun f => (c.target.val, f) := by
  obtain ⟨deleted, hedit⟩ := c.edit_eq outputs
  rw [hedit]

theorem mem_deletedFiles_edit (c : Compaction) (outputs : List FileMetaData)
    {level : Fin kNumLevels} {number : Nat} :
    (level.val, number) ∈ (c.edit outputs).deletedFiles ↔
      ∃ f, c.Takes level f ∧ f.number = number := by
  simp only [edit, foldl_addFile, mem_foldl_deleteFile, List.not_mem_nil, false_or, Prod.mk.injEq,
    Takes, source, target, Fin.ext_iff, Fin.val_castSucc, Fin.val_succ]
  constructor
  · rintro (⟨f, hf, hlevel, hnumber⟩ | ⟨f, hf, hlevel, hnumber⟩)
    · exact ⟨f, Or.inl ⟨hlevel, hf⟩, hnumber.symm⟩
    · exact ⟨f, Or.inr ⟨hlevel, hf⟩, hnumber.symm⟩
  · rintro ⟨f, ⟨hlevel, hf⟩ | ⟨hlevel, hf⟩, hnumber⟩
    · exact Or.inl ⟨f, hf, hlevel, hnumber.symm⟩
    · exact Or.inr ⟨f, hf, hlevel, hnumber.symm⟩

theorem mem_installEdit_edit (vs : VersionSet) {outputs : List FileMetaData} {dir : Dir}
    {faults : Faults} (hnew : ∀ f ∈ outputs, f.withReader dir faults = f)
    {level : Fin kNumLevels} {f : FileMetaData} :
    f ∈ (vs.installEdit (vs.completeEdit (c.edit outputs)) dir faults).files level ↔
      (f ∈ vs.current.files level ∧ ¬ ∃ g, c.Takes level g ∧ g.number = f.number) ∨
        (level = c.target ∧ f ∈ outputs) := by
  rw [VersionSet.mem_installEdit]
  apply or_congr
  · exact and_congr_right fun _ => not_congr (mem_deletedFiles_edit c outputs)
  · change (∃ item ∈ (c.edit outputs).newFiles, _) ↔ _
    rw [newFiles_edit]
    constructor
    · rintro ⟨item, hitem, hlevel, rfl⟩
      obtain ⟨g, hg, rfl⟩ := List.mem_map.mp hitem
      exact ⟨Fin.ext hlevel.symm, (hnew g hg).symm ▸ hg⟩
    · rintro ⟨rfl, hf⟩
      exact ⟨(c.target.val, f), List.mem_map_of_mem hf, rfl, hnew f hf⟩

theorem installEdit_replaces (vs : VersionSet) {outputs : List FileMetaData} {least : Nat}
    {kept : List Entry} (hcovers : c.Covers vs.current) (hsane : vs.current.Sane loose)
    (hnumbers : ∀ f ∈ vs.current.allFiles, f.number < least)
    (houtputs : Outputs least kept outputs) (dir : Dir) (faults : Faults) :
    c.Replaces vs.current outputs
      (vs.installEdit (vs.completeEdit (c.edit outputs)) dir faults) := by
  have hnew : ∀ f ∈ outputs, f.withReader dir faults = f := fun f hf =>
    (houtputs.sound f hf).withReader dir faults
  constructor
  case mem =>
    intro level f
    rw [mem_installEdit_edit vs hnew]
    refine or_congr (and_congr_right fun hf => not_congr ?_) Iff.rfl
    -- a file is deleted by its number, which no other file has
    constructor
    · rintro ⟨g, htakes, hnumber⟩
      rwa [← (hsane.unique level level g (hcovers.mem_files htakes) f hf hnumber).2]
    · exact fun htakes => ⟨f, htakes, rfl⟩
  case nodup =>
    intro level
    rw [(VersionSet.perm_installEdit _ _ _ _ level).nodup_iff, List.nodup_append']
    have hsame : ((vs.completeEdit (c.edit outputs)).newFiles.filter fun item =>
        item.1 = level.val).map (fun item => item.2.withReader dir faults) =
        if level = c.target then outputs else [] := by
      change ((c.edit outputs).newFiles.filter _).map _ = _
      rw [newFiles_edit, List.filter_map, List.map_map]
      split
      · rename_i hlevel
        subst hlevel
        simp only [Function.comp_def, decide_true, List.filter_true]
        exact (List.map_congr_left hnew).trans (List.map_id _)
      · rename_i hlevel
        have hne : ¬ c.target.val = level.val := fun heq => hlevel (Fin.ext heq.symm)
        simp [Function.comp_def, hne]
    rw [hsame]
    refine ⟨(hsane.nodup level).filter _, ?_, ?_⟩
    · split
      · exact houtputs.ascending.imp fun hlt heq => absurd (heq ▸ hlt) (lt_irrefl _)
      · exact List.nodup_nil
    · intro f hf hf'
      have hlt := hnumbers f (Version.mem_allFiles.mpr ⟨level, (List.mem_filter.mp hf).1⟩)
      split at hf'
      · exact absurd (houtputs.fresh f hf') (by omega)
      · cases hf'

end Compaction

end Strata
