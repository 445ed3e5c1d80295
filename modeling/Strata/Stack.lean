import Strata.Compacted

/-! The whole store as layers: logs over a version, each newer than what lies
below it. A write goes to the newest log, a flush makes the oldest log a file,
and a compaction rearranges the files. -/
namespace Strata

open Library System Layers Memtable

variable {loose : Prop} {logs : List (List Entry)} {v v' : Version} {f : FileMetaData} {e : Entry}

def held (logs : List (List Entry)) (v : Version) : List Entry :=
  logs.flatten ++ (Version.sources v.allFiles).flatten

theorem mem_held : e ∈ held logs v ↔
    (∃ es ∈ logs, e ∈ es) ∨ ∃ level, ∃ f ∈ v.files level, e ∈ f.entries := by
  rw [held, List.mem_append, List.mem_flatten, Version.Sane.mem_entries]

theorem mem_held_log {es : List Entry} (hes : es ∈ logs) (he : e ∈ es) : e ∈ held logs v :=
  mem_held.mpr (Or.inl ⟨es, hes, he⟩)

theorem mem_held_file {level : Fin kNumLevels} (hf : f ∈ v.files level) (he : e ∈ f.entries) :
    e ∈ held logs v :=
  mem_held.mpr (Or.inr ⟨level, f, hf, he⟩)

structure Stacked (loose : Prop) (logs : List (List Entry)) (v : Version) : Prop where
  good : v.Good loose
  newer : logs.Pairwise fun older newer => Newer loose newer older
  above : ∀ es ∈ logs, ∀ level, ∀ f ∈ v.files level, Newer loose es f.entries
  distinct : Distinct (held logs v)
  types : ∀ es ∈ logs, ∀ e ∈ es, e.HasType

structure Version.Adds (v : Version) (f : FileMetaData) (v' : Version) : Prop where
  mem : ∀ level g, g ∈ v'.files level ↔ g ∈ v.files level ∨ level = 0 ∧ g = f
  nodup : ∀ level, (v'.files level).Nodup

theorem VersionSet.installEdit_adds {vs : VersionSet} {edit : VersionEdit}
    (hnew : edit.newFiles = [(0, f)]) (hdeleted : edit.deletedFiles = []) (hsound : f.Sound)
    (hsane : vs.current.Sane loose) (hfresh : ∀ level, ∀ g ∈ vs.current.files level, g ≠ f)
    (dir : Dir) (faults : Faults) : vs.current.Adds f (vs.installEdit edit dir faults) := by
  have hreader := hsound.withReader dir faults
  constructor
  case mem =>
    intro level g
    rw [mem_installEdit, hnew, hdeleted]
    simp only [List.not_mem_nil, not_false_eq_true, and_true, List.mem_singleton, exists_eq_left,
      hreader]
    refine or_congr_right (and_congr ?_ eq_comm)
    rw [Fin.ext_iff]
    exact eq_comm
  case nodup =>
    intro level
    rw [(perm_installEdit vs edit dir faults level).nodup_iff, hnew, hdeleted]
    simp only [List.not_mem_nil, not_false_eq_true, decide_true, List.filter_true]
    rw [List.nodup_append']
    refine ⟨hsane.nodup level, ?_, ?_⟩
    · by_cases hlevel : (0 : Nat) = level.val
      · simp [hlevel]
      · simp [hlevel]
    · intro g hg hg'
      obtain ⟨item, hitem, rfl⟩ := List.mem_map.mp hg'
      have heq : item = (0, f) := List.mem_singleton.mp (List.mem_filter.mp hitem).1
      subst heq
      exact hfresh level _ hg hreader

theorem Version.Good.mono {looser : Prop} (h : v.Good loose) (himp : loose → looser) :
    v.Good looser :=
  { h with
    recent0 := fun x hx y hy hlt => (h.recent0 x hx y hy hlt).mono himp
    recent := fun i j hij x hx y hy => (h.recent i j hij x hx y hy).mono himp }

namespace Stacked

theorem mono {looser : Prop} (h : Stacked loose logs v) (himp : loose → looser) :
    Stacked looser logs v :=
  ⟨h.good.mono himp, h.newer.imp fun hnewer => hnewer.mono himp,
    fun es hes level f hf => (h.above es hes level f hf).mono himp, h.distinct, h.types⟩

theorem open_log (h : Stacked loose logs v) : Stacked loose (logs ++ [[]]) v := by
  have hmem : ∀ {es}, es ∈ logs ++ [[]] → es ∈ logs ∨ es = [] := fun hes =>
    (List.mem_append.mp hes).imp id List.mem_singleton.mp
  constructor
  · exact h.good
  · rw [List.pairwise_append]
    refine ⟨h.newer, List.pairwise_singleton _ _, fun older _ newer hnewer => ?_⟩
    rw [List.mem_singleton.mp hnewer]
    intro x hx
    cases hx
  · intro es hes level f hf
    rcases hmem hes with hes | rfl
    · exact h.above es hes level f hf
    · intro x hx
      cases hx
  · apply h.distinct.mono
    intro e he
    simpa [held] using he
  · intro es hes e he
    rcases hmem hes with hes | rfl
    · exact h.types es hes e he
    · cases he

theorem write {olds : List (List Entry)} {records : List Entry}
    (h : Stacked loose (olds ++ [records]) v) (htype : e.HasType)
    (hseq : ∀ x ∈ held (olds ++ [records]) v, x.seq < e.seq) :
    Stacked loose (olds ++ [records ++ [e]]) v := by
  have hlast : records ∈ olds ++ [records] := by simp
  have hmem : ∀ {es}, es ∈ olds ++ [records ++ [e]] → es ∈ olds ∨ es = records ++ [e] :=
    fun hes => (List.mem_append.mp hes).imp id List.mem_singleton.mp
  obtain ⟨holds, _, hcross⟩ := List.pairwise_append.mp h.newer
  constructor
  · exact h.good
  · rw [List.pairwise_append]
    refine ⟨holds, List.pairwise_singleton _ _, fun older hold newer hnewer => ?_⟩
    rw [List.mem_singleton.mp hnewer]
    apply (hcross older hold records (by simp)).snoc
    exact fun y hy => le_of_lt (hseq y (mem_held_log (by simp [hold]) hy))
  · intro es hes level f hf
    rcases hmem hes with hes | rfl
    · exact h.above es (by simp [hes]) level f hf
    · apply (h.above records hlast level f hf).snoc
      exact fun y hy => le_of_lt (hseq y (mem_held_file hf hy))
  · apply (h.distinct.insert hseq).mono
    intro x hx
    simp only [held, List.flatten_append, List.flatten_cons, List.flatten_nil, List.mem_append,
      List.mem_cons, List.not_mem_nil, or_false] at hx ⊢
    tauto
  · intro es hes x hx
    rcases hmem hes with hes | rfl
    · exact h.types es (by simp [hes]) x hx
    · rcases List.mem_append.mp hx with hx | hx
      · exact h.types records hlast x hx
      · rwa [List.mem_singleton.mp hx]

section Flush

variable {older newer : List (List Entry)} {es : List Entry}
  (h : Stacked loose (older ++ es :: newer) v) (hsound : f.Sound)
  (hentries : ∀ e, e ∈ f.entries ↔ e ∈ es)
  (hfresh : ∀ level, ∀ g ∈ v.files level, g.number < f.number) (hadds : v.Adds f v')

include h hsound hentries hfresh hadds in
theorem adds_sane : v'.Sane loose := by
  have hsane := h.good.toSane
  have habove : ∀ level, ∀ g ∈ v.files level, Newer loose f.entries g.entries := by
    intro level g hg
    exact (h.above es (by simp) level g hg).of_mem hentries fun _ he => he
  have hheld : ∀ {level g e}, g ∈ v'.files level → e ∈ g.entries → e ∈ held (older ++ es :: newer) v := by
    intro level g e hg he
    rcases (hadds.mem level g).mp hg with hg | ⟨_, rfl⟩
    · exact mem_held_file hg he
    · exact mem_held_log (by simp) ((hentries e).mp he)
  constructor
  case sound =>
    intro level g hg
    rcases (hadds.mem level g).mp hg with hg | ⟨_, rfl⟩
    · exact hsane.sound level g hg
    · exact hsound
  case nodup => exact hadds.nodup
  case unique =>
    intro i j x hx y hy hsame
    rcases (hadds.mem i x).mp hx with hx | ⟨hi, hxf⟩ <;>
      rcases (hadds.mem j y).mp hy with hy | ⟨hj, hyf⟩
    · exact hsane.unique i j x hx y hy hsame
    · have hlt := hfresh i x hx
      rw [hsame, hyf] at hlt
      exact absurd hlt (lt_irrefl _)
    · have hlt := hfresh j y hy
      rw [← hsame, hxf] at hlt
      exact absurd hlt (lt_irrefl _)
    · exact ⟨hi.trans hj.symm, hxf.trans hyf.symm⟩
  case apart =>
    intro level hlevel x hx y hy hne
    rcases (hadds.mem level x).mp hx with hx | ⟨hi, _⟩
    · rcases (hadds.mem level y).mp hy with hy | ⟨hj, _⟩
      · exact hsane.apart level hlevel x hx y hy hne
      · exact absurd hj hlevel
    · exact absurd hi hlevel
  case recent0 =>
    intro x hx y hy hlt
    rcases (hadds.mem 0 x).mp hx with hx | ⟨_, hxf⟩ <;>
      rcases (hadds.mem 0 y).mp hy with hy | ⟨_, hyf⟩
    · exact hsane.recent0 x hx y hy hlt
    · have hless := hfresh 0 x hx
      rw [hyf] at hlt
      exact absurd hlt (lt_asymm hless)
    · rw [hxf]
      exact habove 0 y hy
    · rw [hxf, hyf] at hlt
      exact absurd hlt (lt_irrefl _)
  case recent =>
    intro i j hij x hx y hy
    rcases (hadds.mem j y).mp hy with hy | ⟨hj, _⟩
    · rcases (hadds.mem i x).mp hx with hx | ⟨_, hxf⟩
      · exact hsane.recent i j hij x hx y hy
      · rw [hxf]
        exact habove j y hy
    · rw [hj] at hij
      exact absurd hij (not_lt.mpr (Fin.zero_le i))
  case distinct =>
    intro i j x hx y hy a ha b hb
    exact h.distinct a (hheld hx ha) b (hheld hy hb)

include h hentries hadds in
theorem flush (hgood : v'.Good loose) : Stacked loose newer v' := by
  have hafter : ∀ log ∈ newer, Newer loose log es := by
    have hpair := (List.pairwise_append.mp h.newer).2.1
    exact fun log hlog => (List.pairwise_cons.mp hpair).1 log hlog
  constructor
  · exact hgood
  · exact (List.pairwise_cons.mp (List.pairwise_append.mp h.newer).2.1).2
  · intro log hlog level g hg
    rcases (hadds.mem level g).mp hg with hg | ⟨_, rfl⟩
    · exact h.above log (by simp [hlog]) level g hg
    · exact (hafter log hlog).of_mem (fun _ => Iff.rfl) fun e he => (hentries e).mp he
  · apply h.distinct.mono
    intro e he
    rcases mem_held.mp he with ⟨log, hlog, he⟩ | ⟨level, g, hg, he⟩
    · exact mem_held_log (by simp [hlog]) he
    · rcases (hadds.mem level g).mp hg with hg | ⟨_, rfl⟩
      · exact mem_held_file hg he
      · exact mem_held_log (by simp) ((hentries e).mp he)
  · exact fun log hlog => h.types log (by simp [hlog])

include hentries hadds in
theorem mem_held_flush {e : Entry} : e ∈ held newer v' ↔ e ∈ held (es :: newer) v := by
  rw [mem_held, mem_held]
  constructor
  · rintro (⟨log, hlog, he⟩ | ⟨level, g, hg, he⟩)
    · exact Or.inl ⟨log, by simp [hlog], he⟩
    · rcases (hadds.mem level g).mp hg with hg | ⟨_, rfl⟩
      · exact Or.inr ⟨level, g, hg, he⟩
      · exact Or.inl ⟨es, by simp, (hentries e).mp he⟩
  · rintro (⟨log, hlog, he⟩ | ⟨level, g, hg, he⟩)
    · rcases List.mem_cons.mp hlog with rfl | hlog
      · exact Or.inr ⟨0, f, (hadds.mem 0 f).mpr (Or.inr ⟨rfl, rfl⟩), (hentries e).mpr he⟩
      · exact Or.inl ⟨log, hlog, he⟩
    · exact Or.inr ⟨level, g, (hadds.mem level g).mpr (Or.inl hg), he⟩

end Flush

theorem copied {newer : List (List Entry)} {es : List Entry} (h : Stacked loose (es :: newer) v)
    (hentries : ∀ e, e ∈ f.entries ↔ e ∈ es) (hadds : v.Adds f v') (hgood : v'.Good True) :
    Stacked True (es :: newer) v' ∧ ∀ e, e ∈ held (es :: newer) v' ↔ e ∈ held (es :: newer) v := by
  have hsame : ∀ e, e ∈ held (es :: newer) v' ↔ e ∈ held (es :: newer) v := by
    intro e
    rw [← mem_held_flush hentries hadds, mem_held, mem_held]
    simp only [List.mem_cons, exists_eq_or_imp]
    constructor
    · rintro ((he | hlog) | hfile)
      · exact Or.inr ⟨0, f, (hadds.mem 0 f).mpr (Or.inr ⟨rfl, rfl⟩), (hentries e).mpr he⟩
      · exact Or.inl hlog
      · exact Or.inr hfile
    · exact Or.imp_left Or.inr
  have hcons := List.pairwise_cons.mp h.newer
  refine ⟨⟨hgood, h.newer.imp fun hnewer => hnewer.mono fun _ => trivial, ?_, ?_, h.types⟩, hsame⟩
  · intro log hlog level g hg
    rcases (hadds.mem level g).mp hg with hg | ⟨_, rfl⟩
    · exact (h.above log hlog level g hg).mono fun _ => trivial
    · rcases List.mem_cons.mp hlog with rfl | hlog
      · exact Newer.copy trivial fun e he => (hentries e).mp he
      · have hafter : Newer loose log g.entries :=
          (hcons.1 log hlog).of_mem (fun _ => Iff.rfl) fun e he => (hentries e).mp he
        exact hafter.mono fun _ => trivial
  · exact h.distinct.mono fun e he => (hsame e).mp he

theorem compact {c : Compaction} {merged : List Entry} {outputs : List FileMetaData} {least : Nat}
    (h : Stacked loose logs v) (hcovers : c.Covers v)
    (hmerged : merged.Perm (Version.sources c.inputs).flatten) (hsorted : Sorted merged)
    (houtputs : Compaction.Outputs least (c.kept v merged) outputs)
    (hreplaces : c.Replaces v outputs v') (hgood : v'.Good loose) :
    Stacked loose logs v' ∧ Reduces (held logs v) (held logs v') := by
  have hreduces : Reduces (held logs v) (held logs v') := by
    apply hreplaces.reduces hcovers h.good.toSane hmerged hsorted houtputs
    intro x hx e he hkey
    obtain ⟨log, hlog, hx⟩ := List.mem_flatten.mp hx
    obtain ⟨level, g, hg, he⟩ := Version.Sane.mem_entries.mp he
    obtain ⟨z, hz, hzk, hle, _⟩ := h.above log hlog level g hg x hx e he hkey
    exact ⟨z, List.mem_flatten.mpr ⟨log, hlog, hz⟩, hzk.trans hkey, hle⟩
  refine ⟨⟨hgood, h.newer, fun log hlog level g hg => ?_, ?_, h.types⟩, hreduces⟩
  · rcases (hreplaces.mem level g).mp hg with ⟨hg, _⟩ | ⟨_, hg⟩
    · exact h.above log hlog level g hg
    · intro x hx y hy hkey
      obtain ⟨i, hi, hyi⟩ := (Compaction.output_top hmerged hsorted houtputs hg hy).1
      obtain ⟨ilevel, htakes⟩ := Compaction.takes_of_mem hi
      exact h.above log hlog ilevel i (hcovers.mem_files htakes) x hx y hyi hkey
  · exact h.distinct.mono fun e he => hreduces.subset e he

end Stacked

end Strata
