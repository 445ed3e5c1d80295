import Strata.SkipListInsert

/-! A search in a skip list beside the one writer, without a lock. The writer makes one
store at a time and the reader one load, in any order. -/
namespace Strata

open Library Chain SkipList

/-- A running `FindGreaterOrEqual`, with the keys whose insertion was complete when it
began. -/
structure ListSearch (κ : Type) where
  target : κ
  completed : List κ
  position : Position

structure PendingInsert (κ : Type) where
  key : κ
  ins : Insertion
  stores : List Store

structure SharedList (κ : Type) where
  list : SkipList κ
  writer : Option (PendingInsert κ)
  completed : List κ
  reader : Option (ListSearch κ)

namespace SharedList

variable {κ : Type} (before : κ → κ → Prop) [DecidableRel before]

/-- One step of the writer or of the reader. The search of an insertion and the new node
are its own. A search begins with the load of `max_height_`. -/
inductive Step : SharedList κ → SharedList κ → Prop
  | insert {sys : SharedList κ} {key : κ} {height : TowerHeight} {made : SkipList κ}
      {ins : Insertion} (hidle : sys.writer = none)
      (hbegin : sys.list.beginInsert before key height = some (made, ins)) :
      Step sys { sys with
        list := made
        writer := some ⟨key, ins, storesOf sys.list.maxHeight height⟩ }
  | store {sys : SharedList κ} {key : κ} {ins : Insertion} {store : Store} {rest : List Store}
      {list : SkipList κ} (hwriter : sys.writer = some ⟨key, ins, store :: rest⟩)
      (hperform : ins.perform sys.list store = some list) :
      Step sys { sys with list := list, writer := some ⟨key, ins, rest⟩ }
  | complete {sys : SharedList κ} {key : κ} {ins : Insertion}
      (hwriter : sys.writer = some ⟨key, ins, []⟩) :
      Step sys { sys with writer := none, completed := key :: sys.completed }
  | search {sys : SharedList κ} (target : κ) :
      Step sys { sys with
        reader := some ⟨target, sys.completed, .going head (sys.list.maxHeight - 1) []⟩ }
  | load {sys : SharedList κ} {r : ListSearch κ} {position : Position}
      (hreader : sys.reader = some r)
      (hstep : r.position.step sys.list (sys.list.keyIsAfterNode before r.target) = some position) :
      Step sys { sys with reader := some { r with position := position } }

inductive Reached : SharedList κ → Prop
  | new : Reached ⟨SkipList.new, none, [], none⟩
  | step {sys sys' : SharedList κ} (h : Reached sys) (hstep : Step before sys sys') : Reached sys'

end SharedList

namespace SkipList

variable {κ : Type}

def LinkedAt (s : SkipList κ) (level x : Nat) : Prop :=
  level < s.heightOf x ∧ Relation.ReflTransGen (fun a b => s.next a level = some b) head x

def Answers (before : κ → κ → Prop) (s : SkipList κ) (target : κ) (keys : List κ)
    (found : Option Nat) : Prop :=
  (∀ y, found = some y → ∃ k, s.keyOf y = some k ∧ ¬ before k target) ∧
    ∀ key ∈ keys, ¬ before key target →
      ∃ y k, found = some y ∧ s.keyOf y = some k ∧ ¬ before key k

variable {before : κ → κ → Prop} {s s' : SkipList κ} {order order' : List Nat}
  {linked linked' : Nat → Nat}

/-- Nodes stay, with their keys, and only more of their levels get linked. -/
def Grows (s s' : SkipList κ) (order order' : List Nat) (linked linked' : Nat → Nat) : Prop :=
  ∀ x ∈ order, x ∈ order' ∧ linked x ≤ linked' x ∧ s'.keyOf x = s.keyOf x

def Holds (s : SkipList κ) (order : List Nat) (linked : Nat → Nat) (keys : List κ) : Prop :=
  ∀ key ∈ keys, ∃ x ∈ levelOf order linked 0, s.keyOf x = some key

def Stands (before : κ → κ → Prop) (s : SkipList κ) (order : List Nat) (linked : Nat → Nat)
    (target : κ) (keys : List κ) : Position → Prop
  | .going x level _ => level < kMaxHeight ∧ (x = head ∨
      x ∈ levelOf order linked level ∧ ∃ k, s.keyOf x = some k ∧ before k target)
  | .done found => (∀ y, found.next = some y → y ∈ order) ∧ Answers before s target keys found.next

theorem Grows.levelOf (h : Grows s s' order order' linked linked') {level x : Nat}
    (hx : x ∈ levelOf order linked level) : x ∈ levelOf order' linked' level := by
  obtain ⟨hmem, hlinked⟩ := mem_levelOf.mp hx
  obtain ⟨hmem', hle, _⟩ := h x hmem
  exact mem_levelOf.mpr ⟨hmem', Nat.lt_of_lt_of_le hlinked hle⟩

theorem Grows.holds (h : Grows s s' order order' linked linked') {keys : List κ}
    (hholds : Holds s order linked keys) : Holds s' order' linked' keys := by
  intro key hkey
  obtain ⟨x, hx, hkeyOf⟩ := hholds key hkey
  exact ⟨x, h.levelOf hx, (h x (mem_levelOf.mp hx).1).2.2.trans hkeyOf⟩

theorem Grows.stands (h : Grows s s' order order' linked linked') {target : κ} {keys : List κ}
    {position : Position} (hstands : Stands before s order linked target keys position) :
    Stands before s' order' linked' target keys position := by
  cases position with
  | going x level prev =>
    refine ⟨hstands.1, hstands.2.imp_right ?_⟩
    rintro ⟨hx, k, hk, hbefore⟩
    exact ⟨h.levelOf hx, k, (h x (mem_levelOf.mp hx).1).2.2.trans hk, hbefore⟩
  | done found =>
    obtain ⟨hmem, hnot, hkeys⟩ := hstands
    refine ⟨fun y hy => (h y (hmem y hy)).1, ?_, ?_⟩
    · intro y hy
      obtain ⟨k, hk, hbefore⟩ := hnot y hy
      exact ⟨k, (h y (hmem y hy)).2.2.trans hk, hbefore⟩
    · intro key hkey htarget
      obtain ⟨y, k, hy, hk, hbefore⟩ := hkeys key hkey htarget
      exact ⟨y, k, hy, (h y (hmem y hy)).2.2.trans hk, hbefore⟩

theorem Levels.linkedAt (h : Levels before s order linked) {level x : Nat}
    (hlevel : level < kMaxHeight) (hx : x = head ∨ x ∈ levelOf order linked level) :
    s.LinkedAt level x := by
  refine ⟨?_, (h.chains level).reaches ?_⟩
  · rcases hx with rfl | hmem
    · exact hlevel
    · obtain ⟨hmem, hlinked⟩ := mem_levelOf.mp hmem
      exact Nat.lt_of_lt_of_le hlinked (h.heights x hmem).1
  · exact List.mem_cons.mpr hx

theorem Levels.before_front (htrans : ∀ a b c, before a b → before b c → before a c)
    (h : Levels before s order linked) {level : Nat} {front back : List Nat}
    (hsplit : levelOf order linked level = front ++ back) {target : κ}
    (hlast : lastOf head front = head ∨
      ∃ k, s.keyOf (lastOf head front) = some k ∧ before k target)
    {x : Nat} (hx : x ∈ front) {key : κ} (hkey : s.keyOf x = some key) : before key target := by
  have hsorted : (levelOf order linked level).Pairwise (s.Precedes before) :=
    h.sorted.sublist List.filter_sublist
  rw [hsplit] at hsorted
  rcases List.eq_nil_or_concat front with rfl | ⟨init, last, rfl⟩
  · cases hx
  · rw [List.concat_eq_append] at hx hlast hsorted hsplit
    rw [lastOf_append_singleton] at hlast
    obtain ⟨k, hk, hbefore⟩ := hlast.resolve_left (by
      rintro rfl
      have hmem : head ∈ levelOf order linked level := by simp [hsplit]
      exact h.head_not_mem (mem_levelOf.mp hmem).1)
    rcases List.mem_append.mp hx with hinit | hself
    · have hpair := (List.pairwise_append.mp (List.pairwise_append.mp hsorted).1).2.2 x hinit last
        List.mem_cons_self
      obtain ⟨a, b, ha, hb, hab⟩ := hpair
      rw [hkey] at ha
      rw [hk] at hb
      cases ha
      cases hb
      exact htrans _ _ _ hab hbefore
    · rw [List.mem_singleton.mp hself, hk] at hkey
      cases hkey
      exact hbefore

theorem Levels.answers (hirrefl : ∀ a, ¬ before a a)
    (htrans : ∀ a b c, before a b → before b c → before a c) (h : Levels before s order linked)
    {front back : List Nat} (hsplit : levelOf order linked 0 = front ++ back) {target : κ}
    (hlast : lastOf head front = head ∨
      ∃ k, s.keyOf (lastOf head front) = some k ∧ before k target)
    (hstop : ∀ y, back.head? = some y → ∃ k, s.keyOf y = some k ∧ ¬ before k target)
    {keys : List κ} (hholds : Holds s order linked keys) :
    Answers before s target keys back.head? := by
  refine ⟨hstop, ?_⟩
  intro key hkey htarget
  obtain ⟨x, hx, hkeyOf⟩ := hholds key hkey
  rw [hsplit] at hx
  rcases List.mem_append.mp hx with hfront | hback
  · exact absurd (h.before_front htrans hsplit hlast hfront hkeyOf) htarget
  · have hsorted : (levelOf order linked 0).Pairwise (s.Precedes before) :=
      h.sorted.sublist List.filter_sublist
    rw [hsplit] at hsorted
    cases back with
    | nil => cases hback
    | cons y rest =>
      obtain ⟨k, hk, _⟩ := hstop y rfl
      refine ⟨y, k, rfl, hk, ?_⟩
      rcases List.mem_cons.mp hback with rfl | hrest
      · rw [hk] at hkeyOf
        cases hkeyOf
        exact hirrefl key
      · have hpairs := (List.pairwise_append.mp hsorted).2.1
        obtain ⟨a, b, ha, hb, hab⟩ := (List.pairwise_cons.mp hpairs).1 x hrest
        rw [hk] at ha
        rw [hkeyOf] at hb
        cases ha
        cases hb
        intro hba
        exact hirrefl _ (htrans _ _ _ hab hba)

theorem Levels.stands_step [DecidableRel before] (hirrefl : ∀ a, ¬ before a a)
    (htrans : ∀ a b c, before a b → before b c → before a c) (h : Levels before s order linked)
    {target : κ} {keys : List κ} (hholds : Holds s order linked keys) {position position' : Position}
    (hstands : Stands before s order linked target keys position)
    (hstep : position.step s (s.keyIsAfterNode before target) = some position') :
    Stands before s order linked target keys position' := by
  cases position with
  | done found =>
    cases hstep
    exact hstands
  | going x level prev =>
    obtain ⟨hlevel, hx⟩ := hstands
    have hat : x = head ∨ x ∈ levelOf order linked level := hx.imp_right And.left
    have hload := h.load_eq hlevel hat
    obtain ⟨front, back, hsplit, rfl⟩ := exists_lastOf (List.mem_cons.mpr hat)
    have hchain := h.chains level
    rw [hsplit] at hchain
    rw [hchain.split] at hload
    have hnext : ∀ y, back.head? = some y → y ∈ levelOf order linked level := by
      intro y hy
      rw [hsplit]
      exact List.mem_append_right front (List.mem_of_head? hy)
    by_cases hadvance : ∃ y, back.head? = some y ∧ s.keyIsAfterNode before target y = true
    · obtain ⟨y, hy, hafter⟩ := hadvance
      rw [hy] at hload
      rw [Position.step_advance hload hafter] at hstep
      cases hstep
      obtain ⟨k, hk⟩ := h.key (mem_levelOf.mp (hnext y hy)).1
      exact ⟨hlevel, Or.inr ⟨hnext y hy, k, hk, (keyIsAfterNode_iff hk).mp hafter⟩⟩
    · have hstop : ∀ y, back.head? = some y → s.keyIsAfterNode before target y = false := by
        intro y hy
        exact Bool.eq_false_iff.mpr fun hafter => hadvance ⟨y, hy, hafter⟩
      rw [Position.step_down hload hstop] at hstep
      cases hstep
      cases level with
      | zero =>
        refine ⟨fun y hy => (mem_levelOf.mp (hnext y hy)).1,
          h.answers hirrefl htrans hsplit (hx.imp_right And.right) ?_ hholds⟩
        intro y hy
        obtain ⟨k, hk⟩ := h.key (mem_levelOf.mp (hnext y hy)).1
        refine ⟨k, hk, fun hbefore => ?_⟩
        exact absurd ((keyIsAfterNode_iff hk).mpr hbefore) (by simp [hstop y hy])
      | succ level =>
        refine ⟨by omega, hx.imp_right fun hon => ⟨?_, hon.2⟩⟩
        exact (levelOf_sublist order linked level).subset hon.1

end SkipList

namespace SharedList

variable {κ : Type} {before : κ → κ → Prop}

inductive Writing (before : κ → κ → Prop) (s : SkipList κ) :
    Option (PendingInsert κ) → List Nat → (Nat → Nat) → Prop
  | idle {order : List Nat} (h : Levels before s order s.heightOf) :
      Writing before s none order s.heightOf
  | inserting {key : κ} {ins : Insertion} {stores : List Store} {front back : List Nat}
      {level : Nat} (h : Inserting before s ins front back level)
      (hstage : Stage s ins back level stores) (hkey : s.keyOf ins.node = some key) :
      Writing before s (some ⟨key, ins, stores⟩) (front ++ ins.node :: back)
        (s.linkedTo ins.node level)

theorem Writing.levels {s : SkipList κ} {writer : Option (PendingInsert κ)} {order : List Nat}
    {linked : Nat → Nat} (h : Writing before s writer order linked) :
    Levels before s order linked := by
  cases h with
  | idle h => exact h
  | inserting h _ _ => exact h.levels

structure Consistent (before : κ → κ → Prop) (sys : SharedList κ) (order : List Nat)
    (linked : Nat → Nat) : Prop where
  writing : Writing before sys.list sys.writer order linked
  completed : Holds sys.list order linked sys.completed
  reading : ∀ r, sys.reader = some r → Holds sys.list order linked r.completed ∧
    Stands before sys.list order linked r.target r.completed r.position

theorem Consistent.write {sys : SharedList κ} {order order' : List Nat}
    {linked linked' : Nat → Nat} (h : Consistent before sys order linked) {list : SkipList κ}
    {writer : Option (PendingInsert κ)} (hwriting : Writing before list writer order' linked')
    (hgrows : Grows sys.list list order order' linked linked') :
    Consistent before { sys with list := list, writer := writer } order' linked' := by
  refine ⟨hwriting, hgrows.holds h.completed, fun r hr => ?_⟩
  obtain ⟨hholds, hstands⟩ := h.reading r hr
  exact ⟨hgrows.holds hholds, hgrows.stands hstands⟩

theorem Consistent.step [DecidableRel before] (hirrefl : ∀ a, ¬ before a a)
    (htrans : ∀ a b c, before a b → before b c → before a c) {sys sys' : SharedList κ}
    {order : List Nat} {linked : Nat → Nat} (h : Consistent before sys order linked)
    (hstep : Step before sys sys') :
    ∃ order' linked', Consistent before sys' order' linked' := by
  have hwriting := h.writing
  cases hstep with
  | @insert key height made ins hidle hbegin =>
    rw [hidle] at hwriting
    cases hwriting with
    | idle hlevels =>
      obtain ⟨rfl, hnode, front, back, rfl, hinserting, hstage⟩ := hlevels.begun htrans hbegin
      refine ⟨_, _, h.write (.inserting hinserting hstage (hnode ▸ keyOf_newNode_self)) ?_⟩
      intro x hx
      have hold := hlevels.le_length hx
      have hne : x ≠ ins.node := by omega
      refine ⟨List.perm_middle.mem_iff.mpr (List.mem_cons_of_mem _ hx), ?_, keyOf_newNode hold⟩
      rw [linkedTo, if_neg hne, heightOf_newNode hold]
  | store hwriter hperform =>
    rw [hwriter] at hwriting
    cases hwriting with
    | @inserting _ _ _ front back level hinserting hstage hkey =>
      obtain ⟨s', level', hperform', htowers, hlevel, hinserting', hstage'⟩ :=
        hinserting.step hstage
      cases hperform.symm.trans hperform'
      have hkeyOf := keyOf_congr htowers
      refine ⟨_, _, h.write (.inserting hinserting' hstage' (hkeyOf ▸ hkey)) ?_⟩
      intro x hx
      refine ⟨hx, ?_, by rw [hkeyOf]⟩
      rw [linkedTo, linkedTo, heightOf_congr htowers]
      split
      · exact hlevel
      · exact Nat.le_refl _
  | @complete key ins hwriter =>
    rw [hwriter] at hwriting
    cases hwriting with
    | @inserting _ _ _ front back level hinserting hstage hkey =>
      have hlevels := hinserting.finished hstage
      have hidle := h.write (.idle hlevels) fun x hx =>
        ⟨hx, (hinserting.levels.heights x hx).1, rfl⟩
      refine ⟨_, _, hidle.writing, ?_, hidle.reading⟩
      intro key hmem
      rcases List.mem_cons.mp hmem with rfl | hin
      · have hnode : ins.node ∈ front ++ ins.node :: back := by simp
        exact ⟨ins.node, mem_levelOf.mpr
          ⟨hnode, heightOf_pos (hlevels.nodes.mem_iff.mp hnode)⟩, hkey⟩
      · exact hidle.completed key hin
  | search target =>
    refine ⟨order, linked, hwriting, h.completed, ?_⟩
    rintro r hr
    cases hr
    have hheight := h.writing.levels.maxHeight
    exact ⟨h.completed, by omega, Or.inl rfl⟩
  | load hreader hstep =>
    obtain ⟨hholds, hstands⟩ := h.reading _ hreader
    refine ⟨order, linked, hwriting, h.completed, ?_⟩
    rintro r hr
    cases hr
    exact ⟨hholds, h.writing.levels.stands_step hirrefl htrans hholds hstands hstep⟩

theorem Reached.consistent [DecidableRel before] (hirrefl : ∀ a, ¬ before a a)
    (htrans : ∀ a b c, before a b → before b c → before a c) {sys : SharedList κ}
    (h : Reached before sys) : ∃ order linked, Consistent before sys order linked := by
  induction h with
  | new => exact ⟨[], _, .idle Levels.new, nofun, nofun⟩
  | step _ hstep ih =>
    obtain ⟨order, linked, hconsistent⟩ := ih
    exact hconsistent.step hirrefl htrans hstep

/-- In every state that the writer and a reader reach together: the pointer that the
search loads next is one of the level's list; a search that is through has a node that is
not before its target, with no key between that was inserted before the search began; and
the writer's next store is at a node that has room for it. -/
theorem search_needs_no_lock [DecidableRel before] (hirrefl : ∀ a, ¬ before a a)
    (htrans : ∀ a b c, before a b → before b c → before a c) {sys : SharedList κ}
    (hreached : Reached before sys) :
    (∀ r, sys.reader = some r →
      (∀ x level prev, r.position = .going x level prev → sys.list.LinkedAt level x) ∧
      ∀ found, r.position = .done found →
        (∀ y, found.next = some y → ∃ k, sys.list.keyOf y = some k ∧ ¬ before k r.target) ∧
        ∀ key ∈ r.completed, ¬ before key r.target →
          ∃ y k, found.next = some y ∧ sys.list.keyOf y = some k ∧ ¬ before key k) ∧
    ∀ key ins store rest, sys.writer = some ⟨key, ins, store :: rest⟩ →
      ∃ list, ins.perform sys.list store = some list := by
  obtain ⟨order, linked, h⟩ := hreached.consistent hirrefl htrans
  refine ⟨fun r hr => ⟨?_, ?_⟩, ?_⟩
  · intro x level prev hposition
    have hstands := (h.reading r hr).2
    rw [hposition] at hstands
    exact h.writing.levels.linkedAt hstands.1 (hstands.2.imp_right And.left)
  · intro found hposition
    have hstands := (h.reading r hr).2
    rw [hposition] at hstands
    exact hstands.2
  · intro key ins store rest hwriter
    have hwriting := h.writing
    rw [hwriter] at hwriting
    cases hwriting with
    | inserting hinserting hstage hkey =>
      obtain ⟨list, _, hperform, _⟩ := hinserting.step hstage
      exact ⟨list, hperform⟩

/-- A search for 3 begins behind the insertion of 5. Between its loads 4 is inserted,
and it returns that. -/
theorem search_needs_no_lock_overtaken :
    ∃ sys r found, Reached (fun a b : Nat => a < b) sys ∧ sys.reader = some r ∧
      r.position = .done found ∧ found.next = some 2 ∧ sys.list.keyOf 2 = some 4 ∧
      r.target = 3 ∧ r.completed = [5] ∧
      ∀ key ∈ r.completed, ¬ key < r.target →
        ∃ y k, found.next = some y ∧ sys.list.keyOf y = some k ∧ ¬ key < k := by
  have h1 := Reached.new.step
    (@Step.insert Nat (fun a b => a < b) _ _ 5 ⟨2, by decide⟩ _ _ rfl rfl)
  have h2 := h1.step (Step.store rfl rfl)
  have h3 := h2.step (Step.store rfl rfl)
  have h4 := h3.step (Step.store rfl rfl)
  have h5 := h4.step (Step.store rfl rfl)
  have h6 := h5.step (Step.store rfl rfl)
  have h7 := h6.step (Step.complete rfl)
  have h8 := h7.step (Step.search 3)
  have h9 := h8.step (Step.load rfl rfl)
  have h10 := h9.step (@Step.insert Nat (fun a b => a < b) _ _ 4 ⟨1, by decide⟩ _ _ rfl rfl)
  have h11 := h10.step (Step.store rfl rfl)
  have h12 := h11.step (Step.store rfl rfl)
  have h13 := h12.step (Step.load rfl rfl)
  exact ⟨_, _, _, h13, rfl, rfl, rfl, rfl, rfl, rfl,
    (((search_needs_no_lock (fun a => Nat.lt_irrefl a) (fun a b c => Nat.lt_trans)
      h13).1 _ rfl).2 _ rfl).2⟩

end SharedList

end Strata
