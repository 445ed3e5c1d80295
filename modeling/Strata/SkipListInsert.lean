import Strata.SkipList

/-! Insertion into the skip list, store by store. The nodes in front and behind are those of
the finished list, and `level` counts the levels that are linked so far. -/
namespace Strata

open Library Chain

namespace SkipList

variable {κ : Type}

def linkedTo (s : SkipList κ) (node level x : Nat) : Nat :=
  if x = node then level else s.heightOf x

structure Inserting (before : κ → κ → Prop) (s : SkipList κ) (ins : Insertion)
    (front back : List Nat) (level : Nat) : Prop where
  levels : Levels before s (front ++ ins.node :: back) (s.linkedTo ins.node level)
  prev : ∀ l < s.heightOf ins.node, ins.prev[l]? = some (lastOf head (levelOf front s.heightOf l))

inductive Stage (s : SkipList κ) (ins : Insertion) (back : List Nat) (level : Nat) :
    List Store → Prop
  | raising (hlow : s.maxHeight < s.heightOf ins.node) (hlevel : level = 0) :
      Stage s ins back level (.raise (s.heightOf ins.node) :: linkStores (s.heightOf ins.node) 0)
  | linking (hhigh : s.heightOf ins.node ≤ s.maxHeight) (hlevel : level ≤ s.heightOf ins.node) :
      Stage s ins back level (linkStores (s.heightOf ins.node) level)
  | pointed (hhigh : s.heightOf ins.node ≤ s.maxHeight) (hlevel : level < s.heightOf ins.node)
      (hnext : s.next ins.node level = (levelOf back s.heightOf level).head?) :
      Stage s ins back level (.link level :: linkStores (s.heightOf ins.node) (level + 1))

theorem linkStores_eq {height level : Nat} (h : level < height) :
    linkStores height level = .point level :: .link level :: linkStores height (level + 1) := by
  obtain ⟨n, hn⟩ : ∃ n, height - level = n + 1 := ⟨height - level - 1, by omega⟩
  have hrest : height - (level + 1) = n := by omega
  rw [linkStores, linkStores, hn, hrest, List.range'_succ]
  rfl

theorem linkStores_nil (height : Nat) : linkStores height height = [] := by
  simp [linkStores]

theorem heightOf_le (s : SkipList κ) (x : Nat) : s.heightOf x ≤ kMaxHeight := by
  cases x with
  | zero => exact Nat.le_refl _
  | succ index =>
    rw [heightOf]
    cases s.towers[index]? with
    | none => exact Nat.zero_le _
    | some tower => exact tower.2.property.2

namespace Levels

variable {before : κ → κ → Prop} {s : SkipList κ} {order : List Nat} {linked linked' : Nat → Nat}

theorem raise (h : Levels before s order linked) {height : Nat} (hlow : s.maxHeight ≤ height)
    (hheight : height ≤ kMaxHeight) :
    Levels before { s with maxHeight := height } order linked :=
  ⟨h.chains, h.nodes, h.sorted,
    fun x hx => ⟨(h.heights x hx).1, Nat.le_trans (h.heights x hx).2 hlow⟩,
    Nat.le_trans h.maxHeight.1 hlow, hheight⟩

theorem repoint (h : Levels before s order linked) {node level : Nat} {target : Option Nat}
    (hchain : Linked (fun n => if n = node then target else s.next n level) head
      (levelOf order linked' level))
    (hothers : ∀ l, l ≠ level → levelOf order linked' l = levelOf order linked l)
    (hheights : ∀ x ∈ order, linked' x ≤ s.heightOf x ∧ linked' x ≤ s.maxHeight) :
    Levels before (s.repointed node level target) order linked' := by
  refine ⟨fun l => ?_, h.nodes, h.sorted, hheights, h.maxHeight⟩
  by_cases heq : l = level
  · subst heq
    simpa [repointed] using hchain
  · rw [hothers l heq]
    simpa [repointed, heq] using h.chains l

end Levels

namespace Inserting

variable {before : κ → κ → Prop} {s : SkipList κ} {ins : Insertion} {front back : List Nat}
  {level : Nat}

theorem node_not_mem (h : Inserting before s ins front back level) :
    ins.node ∉ front ∧ ins.node ∉ back := by
  have hnodup := (List.perm_middle.nodup_iff).mp h.levels.nodup
  simpa using (List.nodup_cons.mp hnodup).1

theorem node_ne_head (h : Inserting before s ins front back level) : ins.node ≠ head := by
  intro heq
  exact h.levels.head_not_mem (by simp [← heq])

theorem levelOf_linkedTo {s : SkipList κ} {node : Nat} {nodes : List Nat} (hnode : node ∉ nodes)
    (level l : Nat) : levelOf nodes (s.linkedTo node level) l = levelOf nodes s.heightOf l := by
  apply List.filter_congr
  intro x hx
  have hne : x ≠ node := by
    rintro rfl
    exact hnode hx
  rw [linkedTo, if_neg hne]

theorem levelOf_eq (h : Inserting before s ins front back level) (n l : Nat) :
    levelOf (front ++ ins.node :: back) (s.linkedTo ins.node n) l =
      if l < n then levelOf front s.heightOf l ++ ins.node :: levelOf back s.heightOf l
      else levelOf front s.heightOf l ++ levelOf back s.heightOf l := by
  have hself : s.linkedTo ins.node n ins.node = n := if_pos rfl
  rw [levelOf_append, levelOf_linkedTo h.node_not_mem.1, ← levelOf_linkedTo h.node_not_mem.2 n l]
  simp only [levelOf, List.filter_cons, hself, decide_eq_true_eq]
  split <;> rfl

theorem prev_at (h : Inserting before s ins front back level) (l : Nat) :
    lastOf head (levelOf front s.heightOf l) = head ∨
      lastOf head (levelOf front s.heightOf l) ∈
        levelOf (front ++ ins.node :: back) (s.linkedTo ins.node level) l := by
  rcases lastOf_eq_or_mem head (levelOf front s.heightOf l) with ⟨_, hhead⟩ | hmem
  · exact Or.inl hhead
  · apply Or.inr
    rw [levelOf_append, levelOf_linkedTo h.node_not_mem.1]
    exact List.mem_append_left _ hmem

theorem chain (h : Inserting before s ins front back level) :
    Linked (fun n => s.next n level) head
      (levelOf front s.heightOf level ++ levelOf back s.heightOf level) := by
  have hchain := h.levels.chains level
  rwa [h.levelOf_eq, if_neg (Nat.lt_irrefl level)] at hchain

theorem perform_point (h : Inserting before s ins front back level)
    (hlevel : level < s.heightOf ins.node) :
    ins.perform s (.point level) =
      some (s.repointed ins.node level (levelOf back s.heightOf level).head?) := by
  have hload := h.levels.load_eq (Nat.lt_of_lt_of_le hlevel (s.heightOf_le ins.node))
    (h.prev_at level)
  rw [h.chain.split] at hload
  simp [Insertion.perform, h.prev level hlevel, hload, setNext, hlevel]

theorem point (h : Inserting before s ins front back level) (target : Option Nat) :
    Inserting before (s.repointed ins.node level target) ins front back level := by
  refine ⟨h.levels.repoint ?_ (fun _ _ => rfl) h.levels.heights, h.prev⟩
  apply (h.levels.chains level).congr
  intro y hy
  apply if_neg
  rintro rfl
  -- the new node is not on the level yet
  rcases List.mem_cons.mp hy with hhead | hmem
  · exact h.node_ne_head hhead
  · exact absurd (mem_levelOf.mp hmem).2 (by simp [linkedTo])

theorem perform_link (h : Inserting before s ins front back level)
    (hlevel : level < s.heightOf ins.node) :
    ins.perform s (.link level) =
      some (s.repointed (lastOf head (levelOf front s.heightOf level)) level (some ins.node)) := by
  have hroom : level < s.heightOf (lastOf head (levelOf front s.heightOf level)) := by
    rcases lastOf_eq_or_mem head (levelOf front s.heightOf level) with ⟨_, hhead⟩ | hmem
    · rw [hhead]
      exact Nat.lt_of_lt_of_le hlevel (s.heightOf_le ins.node)
    · exact (mem_levelOf.mp hmem).2
  simp [Insertion.perform, h.prev level hlevel, setNext, hroom]

theorem link (h : Inserting before s ins front back level)
    (hlevel : level < s.heightOf ins.node) (hhigh : s.heightOf ins.node ≤ s.maxHeight)
    (hnext : s.next ins.node level = (levelOf back s.heightOf level).head?) :
    Inserting before
      (s.repointed (lastOf head (levelOf front s.heightOf level)) level (some ins.node))
      ins front back (level + 1) := by
  have hsub : (levelOf front s.heightOf level ++ levelOf back s.heightOf level).Sublist
      (front ++ back) := List.filter_sublist.append List.filter_sublist
  have hmiddle := List.perm_middle.nodup_iff.mp h.levels.nodup
  have hlevels : Levels before
      (s.repointed (lastOf head (levelOf front s.heightOf level)) level (some ins.node))
      (front ++ ins.node :: back) (s.linkedTo ins.node (level + 1)) := by
    apply h.levels.repoint
    · rw [h.levelOf_eq, if_pos (Nat.lt_succ_self level)]
      apply h.chain.insert _ hnext
      · intro hmem
        rcases List.mem_cons.mp hmem with heq | hin
        · exact h.node_ne_head heq
        · exact (List.nodup_cons.mp hmiddle).1 (hsub.subset hin)
      · refine List.nodup_cons.mpr ⟨fun hmem => h.levels.head_not_mem ?_,
          (List.nodup_cons.mp hmiddle).2.sublist hsub⟩
        exact List.perm_middle.mem_iff.mpr (List.mem_cons_of_mem _ (hsub.subset hmem))
    · intro l hl
      rw [h.levelOf_eq, h.levelOf_eq]
      by_cases hless : l < level
      · rw [if_pos hless, if_pos (Nat.lt_succ_of_lt hless)]
      · rw [if_neg hless, if_neg (by omega)]
    · intro x hx
      have hbound := h.levels.heights x hx
      unfold linkedTo at hbound ⊢
      split
      · rename_i heq
        subst heq
        omega
      · rename_i hne
        rwa [if_neg hne] at hbound
  exact ⟨hlevels, h.prev⟩

theorem step (h : Inserting before s ins front back level) {store : Store} {rest : List Store}
    (hstage : Stage s ins back level (store :: rest)) :
    ∃ s' level', ins.perform s store = some s' ∧ s'.towers = s.towers ∧ level ≤ level' ∧
      Inserting before s' ins front back level' ∧ Stage s' ins back level' rest := by
  generalize hstores : store :: rest = stores at hstage
  cases hstage with
  | raising hlow hlevel =>
    obtain ⟨rfl, rfl⟩ := List.cons.inj hstores
    subst hlevel
    exact ⟨_, 0, rfl, rfl, Nat.le_refl 0,
      ⟨h.levels.raise (Nat.le_of_lt hlow) (s.heightOf_le ins.node), h.prev⟩,
      .linking (Nat.le_refl _) (Nat.zero_le _)⟩
  | linking hhigh hlevel =>
    rcases Nat.eq_or_lt_of_le hlevel with heq | hless
    · rw [heq, linkStores_nil] at hstores
      cases hstores
    · rw [linkStores_eq hless] at hstores
      obtain ⟨rfl, rfl⟩ := List.cons.inj hstores
      exact ⟨_, level, h.perform_point hless, rfl, Nat.le_refl level, h.point _,
        .pointed hhigh hless (if_pos ⟨rfl, rfl⟩)⟩
  | pointed hhigh hlevel hnext =>
    obtain ⟨rfl, rfl⟩ := List.cons.inj hstores
    exact ⟨_, level + 1, h.perform_link hlevel, rfl, Nat.le_succ level,
      h.link hlevel hhigh hnext, .linking hhigh hlevel⟩

theorem finished (h : Inserting before s ins front back level) (hstage : Stage s ins back level []) :
    Levels before s (front ++ ins.node :: back) s.heightOf := by
  have hlevel : level = s.heightOf ins.node := by
    generalize hstores : ([] : List Store) = stores at hstage
    cases hstage with
    | raising => cases hstores
    | linking hhigh hlevel =>
      rcases Nat.eq_or_lt_of_le hlevel with heq | hless
      · exact heq
      · rw [linkStores_eq hless] at hstores
        cases hstores
    | pointed => cases hstores
  have hlinked : s.linkedTo ins.node level = s.heightOf := by
    funext x
    rw [linkedTo, hlevel]
    split
    · rename_i heq
      rw [heq]
    · rfl
  exact hlinked ▸ h.levels

theorem run (h : Inserting before s ins front back level) {stores : List Store}
    (hstage : Stage s ins back level stores) :
    ∃ s', stores.foldlM ins.perform s = some s' ∧ s'.towers = s.towers ∧
      Levels before s' (front ++ ins.node :: back) s'.heightOf := by
  induction stores generalizing s level with
  | nil => exact ⟨s, rfl, rfl, h.finished hstage⟩
  | cons store rest ih =>
    obtain ⟨middle, _, hperform, htowers, _, hmiddle, hrest⟩ := h.step hstage
    obtain ⟨s', hrun, htowers', hlevels⟩ := ih hmiddle hrest
    refine ⟨s', ?_, htowers'.trans htowers, hlevels⟩
    rw [List.foldlM_cons, hperform]
    exact hrun

end Inserting

/-! The search of an insertion, and the whole of it. -/

section Insert

variable {s : SkipList κ} {key : κ} {height : TowerHeight} {x : Nat}

theorem heightOf_pos (hx : x ∈ List.range' 1 s.towers.length) : 0 < s.heightOf x := by
  obtain ⟨hpos, hle⟩ := List.mem_range'_1.mp hx
  obtain ⟨index, rfl⟩ := Nat.exists_eq_succ_of_ne_zero (Nat.ne_of_gt hpos)
  have hindex : index < s.towers.length := by omega
  have hheight : 0 < s.towers[index].2.val := s.towers[index].2.property.1
  simpa [heightOf, hindex] using hheight

theorem keyOf_newNode (hx : x ≤ s.towers.length) : (s.newNode key height).keyOf x = s.keyOf x := by
  cases x with
  | zero => rfl
  | succ index => simp [keyOf, newNode, List.getElem?_append_left hx]

theorem heightOf_newNode (hx : x ≤ s.towers.length) :
    (s.newNode key height).heightOf x = s.heightOf x := by
  cases x with
  | zero => rfl
  | succ index => simp [heightOf, newNode, List.getElem?_append_left hx]

theorem keyOf_newNode_self : (s.newNode key height).keyOf (s.towers.length + 1) = some key := by
  simp [keyOf, newNode]

theorem heightOf_newNode_self :
    (s.newNode key height).heightOf (s.towers.length + 1) = height := by
  simp [heightOf, newNode]

theorem levelOf_newNode {nodes : List Nat} (hnodes : ∀ x ∈ nodes, x ≤ s.towers.length) (l : Nat) :
    levelOf nodes (s.newNode key height).heightOf l = levelOf nodes s.heightOf l := by
  apply List.filter_congr
  intro x hx
  rw [heightOf_newNode (hnodes x hx)]

variable {before : κ → κ → Prop} {order front back : List Nat} {linked : Nat → Nat}

theorem Levels.le_length (h : Levels before s order linked) (hx : x ∈ order) :
    x ≤ s.towers.length := by
  have hrange := List.mem_range'_1.mp (h.nodes.mem_iff.mp hx)
  omega

theorem Levels.precedes_newNode (h : Levels before s order linked) (key : κ)
    (height : TowerHeight) :
    order.Pairwise ((s.newNode key height).Precedes before) := by
  apply h.sorted.imp_of_mem
  rintro x y hx hy ⟨a, b, ha, hb, hab⟩
  exact ⟨a, b, (keyOf_newNode (h.le_length hx)).trans ha,
    (keyOf_newNode (h.le_length hy)).trans hb, hab⟩

theorem Levels.levelOf_zero (h : Levels before s order linked) {nodes : List Nat}
    (hnodes : ∀ x ∈ nodes, x ∈ order) : levelOf nodes s.heightOf 0 = nodes := by
  apply List.filter_eq_self.mpr
  intro x hx
  simpa using heightOf_pos (h.nodes.mem_iff.mp (hnodes x hx))

theorem Levels.levelOf_above (h : Levels before s (front ++ back) s.heightOf) {l : Nat}
    (hl : s.maxHeight ≤ l) : levelOf front s.heightOf l = [] := by
  apply List.filter_eq_nil_iff.mpr
  intro x hx
  have hheight := (h.heights x (List.mem_append_left back hx)).2
  simp only [decide_eq_true_eq]
  omega

theorem Levels.prev_eq (h : Levels before s (front ++ back) s.heightOf) {l : Nat}
    (hl : l < height.val) :
    ((List.range s.maxHeight).map (fun l => lastOf head (levelOf front s.heightOf l)) ++
      List.replicate (height - s.maxHeight) head)[l]? =
        some (lastOf head (levelOf front s.heightOf l)) := by
  by_cases hlow : l < s.maxHeight
  · simp [List.getElem?_append_left, hlow]
  · have habove := Nat.not_lt.mp hlow
    rw [List.getElem?_append_right (by simpa using habove), h.levelOf_above habove]
    simp [lastOf, List.getElem?_replicate]
    omega

theorem Levels.levelOf_unlinked (h : Levels before s (front ++ back) s.heightOf) (l : Nat) :
    levelOf (front ++ (s.towers.length + 1) :: back)
      ((s.newNode key height).linkedTo (s.towers.length + 1) 0) l =
        levelOf (front ++ back) s.heightOf l := by
  have hold : ∀ nodes : List Nat, (∀ x ∈ nodes, x ∈ front ++ back) →
      levelOf nodes ((s.newNode key height).linkedTo (s.towers.length + 1) 0) l =
        levelOf nodes s.heightOf l := by
    intro nodes hnodes
    have hle : ∀ x ∈ nodes, x ≤ s.towers.length := fun x hx => h.le_length (hnodes x hx)
    rw [Inserting.levelOf_linkedTo, levelOf_newNode hle]
    intro hmem
    exact absurd (hle _ hmem) (by omega)
  have hself : levelOf [s.towers.length + 1]
      ((s.newNode key height).linkedTo (s.towers.length + 1) 0) l = [] := by
    simp [levelOf, linkedTo]
  rw [← List.singleton_append, levelOf_append, levelOf_append, hself, levelOf_append,
    hold front (fun x hx => List.mem_append_left back hx),
    hold back (fun x hx => List.mem_append_right front hx), List.nil_append]

theorem Levels.inserting (h : Levels before s (front ++ back) s.heightOf)
    (hfront : ∀ x ∈ front, ∃ k, s.keyOf x = some k ∧ before k key)
    (hback : ∀ x ∈ back, ∃ k, s.keyOf x = some k ∧ before key k) :
    Inserting before (s.newNode key height)
      ⟨s.towers.length + 1, (List.range s.maxHeight).map
        (fun l => lastOf head (levelOf front s.heightOf l)) ++
          List.replicate (height - s.maxHeight) head⟩ front back 0 := by
  have hold : ∀ x ∈ front ++ back, x ≤ s.towers.length := fun x hx => h.le_length hx
  refine ⟨⟨fun l => ?_, ?_, ?_, ?_, h.maxHeight⟩, fun l hl => ?_⟩
  · rw [h.levelOf_unlinked]
    apply (h.chains l).congr
    intro y hy
    apply if_neg
    rintro rfl
    rcases List.mem_cons.mp hy with hhead | hmem
    · cases hhead
    · exact absurd (hold _ (mem_levelOf.mp hmem).1) (by omega)
  · have hrange : List.range' 1 (s.newNode key height).towers.length =
        List.range' 1 s.towers.length ++ [s.towers.length + 1] := by
      rw [newNode, List.length_append, List.length_singleton, List.range'_1_concat, Nat.add_comm 1]
    rw [hrange]
    exact List.perm_middle.trans ((h.nodes.cons _).trans (List.perm_append_singleton ..).symm)
  · have hpairs := List.pairwise_append.mp (h.precedes_newNode key height)
    refine List.pairwise_append.mpr ⟨hpairs.1, List.pairwise_cons.mpr ⟨?_, hpairs.2.1⟩, ?_⟩
    · intro x hx
      obtain ⟨k, hk, hbefore⟩ := hback x hx
      exact ⟨key, k, keyOf_newNode_self,
        (keyOf_newNode (hold x (List.mem_append_right front hx))).trans hk, hbefore⟩
    · intro x hx y hy
      rcases List.mem_cons.mp hy with rfl | hmem
      · obtain ⟨k, hk, hbefore⟩ := hfront x hx
        exact ⟨k, key, (keyOf_newNode (hold x (List.mem_append_left back hx))).trans hk,
          keyOf_newNode_self, hbefore⟩
      · exact hpairs.2.2 x hx y hmem
  · intro x hx
    rcases List.mem_cons.mp (List.perm_middle.mem_iff.mp hx) with rfl | hmem
    · simp [linkedTo]
    · have hne : x ≠ s.towers.length + 1 := Nat.ne_of_lt (Nat.lt_succ_of_le (hold x hmem))
      rw [linkedTo, if_neg hne, heightOf_newNode (hold x hmem)]
      exact h.heights x hmem
  · rw [levelOf_newNode fun x hx => hold x (List.mem_append_left back hx)]
    rw [heightOf_newNode_self] at hl
    exact h.prev_eq hl

theorem stage_begin {ins : Insertion} {n : Nat} (hheight : s.heightOf ins.node = n) :
    Stage s ins back 0 (storesOf s.maxHeight n) := by
  subst hheight
  rw [storesOf]
  split
  · rename_i hlow
    exact .raising hlow rfl
  · rename_i hhigh
    exact .linking (Nat.not_lt.mp hhigh) (Nat.zero_le _)

theorem mem_towers_of_keyOf (hx : s.keyOf x = some key) : ∃ tower ∈ s.towers, tower.1 = key := by
  cases x with
  | zero => cases hx
  | succ index =>
    obtain ⟨tower, hget, rfl⟩ := Option.map_eq_some_iff.mp hx
    exact ⟨tower, List.mem_of_getElem? hget, rfl⟩

variable [DecidableRel before] (htrans : ∀ a b c, before a b → before b c → before a c)

theorem Levels.beginInsert_eq (h : Levels before s (front ++ back) s.heightOf)
    (hfront : ∀ x ∈ front, s.keyIsAfterNode before key x = true)
    (hback : ∀ x ∈ back, s.keyIsAfterNode before key x = false) :
    s.beginInsert before key height =
      if (back.head?.bind s.keyOf).all (fun k => before key k || before k key) then
        some (s.newNode key height, ⟨s.towers.length + 1, (List.range s.maxHeight).map
          (fun l => lastOf head (levelOf front s.heightOf l)) ++
            List.replicate (height - s.maxHeight) head⟩)
      else none := by
  have hzero : levelOf back s.heightOf 0 = back :=
    h.levelOf_zero fun x hx => List.mem_append_right front hx
  rw [beginInsert, findGreaterOrEqual, h.traverse_eq hfront hback, hzero]
  rfl

include htrans in
theorem Levels.before_back (h : Levels before s (front ++ back) s.heightOf)
    (hback : ∀ x ∈ back, s.keyIsAfterNode before key x = false)
    (hnew : (back.head?.bind s.keyOf).all (fun k => before key k || before k key) = true) :
    ∀ x ∈ back, ∃ k, s.keyOf x = some k ∧ before key k := by
  cases back with
  | nil => nofun
  | cons y rest =>
    obtain ⟨k, hk⟩ := h.key (x := y) (by simp)
    have hnot : ¬ before k key := by
      intro hbefore
      have hafter := (keyIsAfterNode_iff hk).mpr hbefore
      rw [hback y List.mem_cons_self] at hafter
      cases hafter
    have hkey : before key k := by simpa [hk, hnot] using hnew
    intro x hx
    rcases List.mem_cons.mp hx with rfl | hmem
    · exact ⟨k, hk, hkey⟩
    · have hsorted := (List.pairwise_append.mp h.sorted).2.1
      obtain ⟨a, b, ha, hb, hab⟩ := (List.pairwise_cons.mp hsorted).1 x hmem
      rw [hk] at ha
      cases ha
      exact ⟨b, hb, htrans key k b hkey hab⟩

include htrans in
theorem Levels.begun (h : Levels before s order s.heightOf) {made : SkipList κ} {ins : Insertion}
    (hbegin : s.beginInsert before key height = some (made, ins)) :
    made = s.newNode key height ∧ ins.node = s.towers.length + 1 ∧
      ∃ front back, order = front ++ back ∧ Inserting before made ins front back 0 ∧
        Stage made ins back 0 (storesOf s.maxHeight height) := by
  obtain ⟨front, back, rfl, hfront, hback⟩ := h.split_at htrans key
  rw [h.beginInsert_eq hfront hback] at hbegin
  split at hbegin
  · rename_i hnew
    cases hbegin
    refine ⟨rfl, rfl, front, back, rfl, h.inserting ?_ (h.before_back htrans hback hnew), ?_⟩
    · intro x hx
      obtain ⟨k, hk⟩ := h.key (List.mem_append_left back hx)
      exact ⟨k, hk, (keyIsAfterNode_iff hk).mp (hfront x hx)⟩
    · exact stage_begin heightOf_newNode_self
  · cases hbegin

include htrans in
theorem Levels.insert (h : Levels before s order s.heightOf) (height : TowerHeight)
    (hnew : ∀ tower ∈ s.towers, before key tower.1 ∨ before tower.1 key) :
    ∃ s' order', s.insert before key height = some s' ∧
      s'.towers = s.towers ++ [(key, height)] ∧ Levels before s' order' s'.heightOf := by
  obtain ⟨made, ins, hbegin⟩ : ∃ made ins,
      s.beginInsert before key height = some (made, ins) := by
    obtain ⟨front, back, rfl, hfront, hback⟩ := h.split_at htrans key
    refine ⟨_, _, (h.beginInsert_eq hfront hback).trans (if_pos ?_)⟩
    rw [Option.all_eq_true]
    intro k hk
    obtain ⟨x, -, hx⟩ := Option.bind_eq_some_iff.mp hk
    obtain ⟨tower, htower, rfl⟩ := mem_towers_of_keyOf hx
    simpa using hnew tower htower
  obtain ⟨rfl, _, front, back, rfl, hinserting, hstage⟩ := h.begun htrans hbegin
  obtain ⟨s', hrun, htowers, hlevels⟩ := hinserting.run hstage
  refine ⟨s', _, ?_, htowers, hlevels⟩
  rw [SkipList.insert, hbegin]
  exact hrun

end Insert

end SkipList

end Strata
