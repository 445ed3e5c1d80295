import Mathlib.Data.List.Range
import Mathlib.Data.List.TakeWhile
import Strata.Library.Chain

/-! The skip list: nodes with towers of pointers, one linked list for each level. The
nodes of a list are numbered in the order in which they were made, and number 0 is the
head. A load or a store outside the pointers that a node has room for has no result. -/
namespace Strata

open Library Chain

def kMaxHeight : Nat := 16

/-- What `RandomHeight` may return. -/
abbrev TowerHeight := { height : Nat // 1 ≤ height ∧ height ≤ kMaxHeight }

/-- The key and the height of every node, the pointers, and `max_height_`. -/
structure SkipList (κ : Type) where
  towers : List (κ × TowerHeight)
  next : Nat → Nat → Option Nat
  maxHeight : Nat

namespace SkipList

variable {κ : Type}

def head : Nat := 0

def new : SkipList κ := ⟨[], fun _ _ => none, 1⟩

def keyOf (s : SkipList κ) : Nat → Option κ
  | 0 => none
  | index + 1 => s.towers[index]?.map Prod.fst

def heightOf (s : SkipList κ) : Nat → Nat
  | 0 => kMaxHeight
  | index + 1 => (s.towers[index]?.map fun tower => tower.2.val).getD 0

theorem keyOf_congr {s s' : SkipList κ} (h : s'.towers = s.towers) : s'.keyOf = s.keyOf := by
  funext x
  cases x with
  | zero => rfl
  | succ index => rw [keyOf, keyOf, h]

theorem heightOf_congr {s s' : SkipList κ} (h : s'.towers = s.towers) :
    s'.heightOf = s.heightOf := by
  funext x
  cases x with
  | zero => rfl
  | succ index => rw [heightOf, heightOf, h]

/-- `Next` -/
def load (s : SkipList κ) (node level : Nat) : Option (Option Nat) :=
  if level < s.heightOf node then some (s.next node level) else none

def repointed (s : SkipList κ) (node level : Nat) (target : Option Nat) : SkipList κ :=
  { s with next := fun n l => if n = node ∧ l = level then target else s.next n l }

def setNext (s : SkipList κ) (node level : Nat) (target : Option Nat) : Option (SkipList κ) :=
  if level < s.heightOf node then some (s.repointed node level target) else none

/-! The traversals go along a level as long as they may advance, and then one level
down. -/

/-- Where a traversal ends: the node, the one behind it, and the nodes at which it went
down, the lowest level first. -/
structure Found where
  node : Nat
  next : Option Nat
  prev : List Nat
  deriving DecidableEq, Repr

inductive Position where
  | going (node level : Nat) (prev : List Nat)
  | done (found : Found)
  deriving DecidableEq, Repr

def Position.down (x : Nat) (next : Option Nat) (prev : List Nat) : Nat → Position
  | 0 => .done ⟨x, next, x :: prev⟩
  | level + 1 => .going x level (x :: prev)

def Position.step (s : SkipList κ) (advance : Nat → Bool) : Position → Option Position
  | .going x level prev => do
    let next ← s.load x level
    match next.filter advance with
    | some n => some (.going n level prev)
    | none => some (.down x next prev level)
  | .done found => some (.done found)

def Position.run (s : SkipList κ) (advance : Nat → Bool) : Nat → Position → Option Found
  | _, .done found => some found
  | 0, .going .. => none
  | rounds + 1, .going x level prev => do
    let position ← Position.step s advance (.going x level prev)
    Position.run s advance rounds position

/-- From the top of the head down. A round advances over a node or goes one level down. -/
def traverse (s : SkipList κ) (advance : Nat → Bool) : Option Found :=
  Position.run s advance (s.towers.length + s.maxHeight) (.going head (s.maxHeight - 1) [])

section Search

variable (before : κ → κ → Prop) [DecidableRel before]

def keyIsAfterNode (s : SkipList κ) (key : κ) (node : Nat) : Bool :=
  match s.keyOf node with
  | some k => before k key
  | none => false

def findGreaterOrEqual (s : SkipList κ) (key : κ) : Option (Option Nat × List Nat) :=
  (s.traverse (s.keyIsAfterNode before key)).map fun found => (found.next, found.prev)

def findLessThan (s : SkipList κ) (key : κ) : Option Nat :=
  (s.traverse (s.keyIsAfterNode before key)).map Found.node

end Search

def findLast (s : SkipList κ) : Option Nat := (s.traverse fun _ => true).map Found.node

/-! An insertion is a search and a sequence of stores. -/

inductive Store where
  | raise (height : Nat)
  | point (level : Nat)
  | link (level : Nat)
  deriving DecidableEq, Repr

/-- An insertion behind its search: the new node and `prev`. -/
structure Insertion where
  node : Nat
  prev : List Nat
  deriving DecidableEq, Repr

/-- `max_height_.store(height)`, `x->NoBarrier_SetNext(i, prev[i]->NoBarrier_Next(i))` and
`prev[i]->SetNext(i, x)`. -/
def Insertion.perform (ins : Insertion) (s : SkipList κ) : Store → Option (SkipList κ)
  | .raise height => some { s with maxHeight := height }
  | .point level => do
    let p ← ins.prev[level]?
    let target ← s.load p level
    s.setNext ins.node level target
  | .link level => do
    let p ← ins.prev[level]?
    s.setNext p level (some ins.node)

def linkStores (height level : Nat) : List Store :=
  (List.range' level (height - level)).flatMap fun l => [.point l, .link l]

def storesOf (maxHeight height : Nat) : List Store :=
  (if height > maxHeight then [.raise height] else []) ++ linkStores height 0

/-- `NewNode` -/
def newNode (s : SkipList κ) (key : κ) (height : TowerHeight) : SkipList κ :=
  { s with
    towers := s.towers ++ [(key, height)]
    next := fun n l => if n = s.towers.length + 1 then none else s.next n l }

section Insert

variable (before : κ → κ → Prop) [DecidableRel before]

/-- The search of `Insert`, its assertion that the key is new, and the new node, which
nothing points to yet. -/
def beginInsert (s : SkipList κ) (key : κ) (height : TowerHeight) :
    Option (SkipList κ × Insertion) := do
  let (x, prev) ← s.findGreaterOrEqual before key
  if (x.bind s.keyOf).all fun k => before key k || before k key then
    some (s.newNode key height,
      ⟨s.towers.length + 1, prev ++ List.replicate (height - s.maxHeight) head⟩)
  else none

def insert (s : SkipList κ) (key : κ) (height : TowerHeight) : Option (SkipList κ) := do
  let (made, ins) ← s.beginInsert before key height
  (storesOf s.maxHeight height).foldlM ins.perform made

end Insert

section Steps

variable {s : SkipList κ} {advance : Nat → Bool} {x level : Nat} {prev : List Nat}

theorem Position.step_advance {y : Nat} (hload : s.load x level = some (some y))
    (hadvance : advance y = true) :
    Position.step s advance (.going x level prev) = some (.going y level prev) := by
  simp [Position.step, hload, Option.filter, hadvance]

theorem Position.step_down {next : Option Nat} (hload : s.load x level = some next)
    (hstop : ∀ y, next = some y → advance y = false) :
    Position.step s advance (.going x level prev) = some (.down x next prev level) := by
  have hnone : next.filter advance = none := by
    rw [Option.filter_eq_none_iff]
    intro y hy
    simp [hstop y hy]
  simp [Position.step, hload, hnone]

end Steps

/-! What the pointers say. `order` has all nodes in the order of their keys, the one that
is being inserted among them, and `linked` tells how many levels of a node are linked. -/

def Precedes (before : κ → κ → Prop) (s : SkipList κ) (x y : Nat) : Prop :=
  ∃ a b, s.keyOf x = some a ∧ s.keyOf y = some b ∧ before a b

def levelOf (order : List Nat) (linked : Nat → Nat) (level : Nat) : List Nat :=
  order.filter fun x => level < linked x

structure Levels (before : κ → κ → Prop) (s : SkipList κ) (order : List Nat)
    (linked : Nat → Nat) : Prop where
  chains : ∀ level, Linked (fun n => s.next n level) head (levelOf order linked level)
  nodes : order.Perm (List.range' 1 s.towers.length)
  sorted : order.Pairwise (s.Precedes before)
  heights : ∀ x ∈ order, linked x ≤ s.heightOf x ∧ linked x ≤ s.maxHeight
  maxHeight : 1 ≤ s.maxHeight ∧ s.maxHeight ≤ kMaxHeight

@[simp] theorem levelOf_append (front back : List Nat) (linked : Nat → Nat) (level : Nat) :
    levelOf (front ++ back) linked level = levelOf front linked level ++ levelOf back linked level :=
  List.filter_append ..

theorem mem_levelOf {order : List Nat} {linked : Nat → Nat} {level x : Nat} :
    x ∈ levelOf order linked level ↔ x ∈ order ∧ level < linked x := by
  simp [levelOf]

theorem levelOf_sublist (order : List Nat) (linked : Nat → Nat) (level : Nat) :
    (levelOf order linked (level + 1)).Sublist (levelOf order linked level) := by
  apply List.monotone_filter_right
  intro x hx
  simp only [decide_eq_true_eq] at hx ⊢
  omega

theorem lastOf_levelOf {nodes : List Nat} {linked : Nat → Nat} {level : Nat}
    (h : nodes = [] ∨ level < linked (lastOf head nodes)) :
    lastOf head (levelOf nodes linked level) = lastOf head nodes := by
  rcases List.eq_nil_or_concat nodes with rfl | ⟨front, y, rfl⟩
  · rfl
  · rw [List.concat_eq_append, lastOf_append_singleton] at h ⊢
    have hy := h.resolve_left (by simp)
    rw [levelOf_append, levelOf, levelOf, List.filter_cons_of_pos (by simpa using hy),
      List.filter_nil, lastOf_append_singleton]

theorem keyOf_eq_some {s : SkipList κ} {x : Nat} (hx : x ∈ List.range' 1 s.towers.length) :
    ∃ key, s.keyOf x = some key := by
  obtain ⟨hpos, hle⟩ := List.mem_range'_1.mp hx
  obtain ⟨index, rfl⟩ := Nat.exists_eq_succ_of_ne_zero (Nat.ne_of_gt hpos)
  have hindex : index < s.towers.length := by omega
  exact ⟨s.towers[index].1, by simp [keyOf, hindex]⟩

namespace Levels

variable {before : κ → κ → Prop} {s : SkipList κ} {order : List Nat} {linked : Nat → Nat}

theorem new : Levels before (SkipList.new : SkipList κ) [] (SkipList.new : SkipList κ).heightOf :=
  ⟨fun _ => rfl, List.Perm.refl _, List.Pairwise.nil, nofun, by simp [SkipList.new, kMaxHeight]⟩

theorem head_not_mem (h : Levels before s order linked) : head ∉ order := by
  intro hmem
  have hpos := List.mem_range'_1.mp (h.nodes.mem_iff.mp hmem)
  exact absurd hpos.1 (by decide)

theorem nodup (h : Levels before s order linked) : order.Nodup :=
  h.nodes.nodup_iff.mpr List.nodup_range'

theorem key (h : Levels before s order linked) {x : Nat} (hx : x ∈ order) :
    ∃ key, s.keyOf x = some key :=
  keyOf_eq_some (h.nodes.mem_iff.mp hx)

theorem load_eq (h : Levels before s order linked) {x level : Nat} (hlevel : level < kMaxHeight)
    (hx : x = head ∨ x ∈ levelOf order linked level) :
    s.load x level = some (s.next x level) := by
  apply if_pos
  rcases hx with rfl | hmem
  · exact hlevel
  · obtain ⟨hmem, hlinked⟩ := mem_levelOf.mp hmem
    exact Nat.lt_of_lt_of_le hlinked (h.heights x hmem).1

/-! A traversal. `front` has the nodes over which it advances. -/

section Traversal

variable {advance : Nat → Bool} {front back pre post : List Nat} {level : Nat}

theorem at_front (back : List Nat) (hsplit : front = pre ++ post)
    (hat : pre = [] ∨ level < linked (lastOf head pre)) :
    lastOf head pre = head ∨ lastOf head pre ∈ levelOf (front ++ back) linked level := by
  rcases lastOf_eq_or_mem head pre with ⟨_, hhead⟩ | hmem
  · exact Or.inl hhead
  · apply Or.inr
    refine mem_levelOf.mpr ⟨by simp [hsplit, hmem], hat.resolve_left ?_⟩
    rintro rfl
    exact List.not_mem_nil hmem

theorem next_eq (h : Levels before s (front ++ back) linked) (hsplit : front = pre ++ post)
    (hat : pre = [] ∨ level < linked (lastOf head pre)) :
    s.next (lastOf head pre) level = (levelOf post linked level ++ levelOf back linked level).head? := by
  have hchain := h.chains level
  rw [hsplit, List.append_assoc, levelOf_append, levelOf_append] at hchain
  have hnext := hchain.split
  rwa [lastOf_levelOf hat] at hnext

theorem run_eq (h : Levels before s (front ++ back) linked)
    (hfront : ∀ x ∈ front, advance x = true) (hback : ∀ x ∈ back, advance x = false) {rounds : Nat}
    (hsplit : front = pre ++ post) (hlevel : level < s.maxHeight)
    (hat : pre = [] ∨ level < linked (lastOf head pre)) (prev : List Nat)
    (hrounds : post.length + level < rounds) :
    Position.run s advance rounds (.going (lastOf head pre) level prev) =
      some ⟨lastOf head (levelOf front linked 0), (levelOf back linked 0).head?,
        (List.range (level + 1)).map (fun l => lastOf head (levelOf front linked l)) ++ prev⟩ := by
  induction rounds generalizing pre post level prev with
  | zero => omega
  | succ rounds ih =>
    have hload : s.load (lastOf head pre) level =
        some (levelOf post linked level ++ levelOf back linked level).head? := by
      rw [h.load_eq (Nat.lt_of_lt_of_le hlevel h.maxHeight.2) (at_front back hsplit hat),
        h.next_eq hsplit hat]
    rw [Position.run]
    cases hpost : levelOf post linked level with
    | nil =>
      -- nothing is left to advance over on this level
      rw [hpost, List.nil_append] at hload
      have hlast : lastOf head (levelOf front linked level) = lastOf head pre := by
        rw [hsplit, levelOf_append, hpost, List.append_nil, lastOf_levelOf hat]
      have hstop : ∀ y, (levelOf back linked level).head? = some y → advance y = false := by
        intro y hy
        exact hback y (mem_levelOf.mp (List.mem_of_head? hy)).1
      rw [Position.step_down hload hstop, Option.bind_eq_bind, Option.bind_some]
      cases level with
      | zero =>
        simp [Position.down, Position.run, hlast]
      | succ level =>
        rw [Position.down, ih hsplit (by omega) (hat.imp_right fun hl => by omega) _ (by omega),
          List.range_succ (n := level + 1)]
        simp [hlast]
    | cons y ys =>
      obtain ⟨skipped, rest, rfl, _, hy, _⟩ := List.filter_eq_cons_iff.mp hpost
      rw [hpost] at hload
      have hadvance : advance y = true := hfront y (by simp [hsplit])
      have hlast : lastOf head (pre ++ skipped ++ [y]) = y := lastOf_append_singleton ..
      have hrest : front = (pre ++ skipped ++ [y]) ++ rest := by simp [hsplit]
      rw [Position.step_advance hload hadvance, Option.bind_eq_bind, Option.bind_some, ← hlast]
      apply ih hrest hlevel _ prev
      · simp only [List.length_append, List.length_cons] at hrounds
        omega
      · rw [hlast]
        exact Or.inr (by simpa using hy)

theorem traverse_eq (h : Levels before s (front ++ back) linked)
    (hfront : ∀ x ∈ front, advance x = true) (hback : ∀ x ∈ back, advance x = false) :
    s.traverse advance =
      some ⟨lastOf head (levelOf front linked 0), (levelOf back linked 0).head?,
        (List.range s.maxHeight).map fun l => lastOf head (levelOf front linked l)⟩ := by
  have hlength := h.nodes.length_eq
  rw [List.length_append, List.length_range'] at hlength
  have hpos := h.maxHeight.1
  have hrun : s.traverse advance = _ :=
    h.run_eq hfront hback (List.nil_append front).symm (by omega) (Or.inl rfl) [] (by omega)
  rwa [List.append_nil, Nat.sub_add_cancel hpos] at hrun

end Traversal

end Levels

theorem dropWhile_stays {α : Type} {r : α → α → Prop} {p : α → Bool} {items : List α}
    (hsorted : items.Pairwise r) (hdown : ∀ x y, r x y → p y = true → p x = true) :
    ∀ y ∈ items.dropWhile p, p y = false := by
  induction items with
  | nil => nofun
  | cons x rest ih =>
    obtain ⟨hx, hrest⟩ := List.pairwise_cons.mp hsorted
    cases hpx : p x with
    | true => simpa [hpx] using ih hrest
    | false =>
      intro y hy
      rw [List.dropWhile_cons_of_neg (by simp [hpx])] at hy
      rcases List.mem_cons.mp hy with rfl | hmem
      · exact hpx
      · by_contra hpy
        exact absurd (hdown x y (hx y hmem) (by simpa using hpy)) (by simp [hpx])

section Target

variable {before : κ → κ → Prop} [DecidableRel before]
  (htrans : ∀ a b c, before a b → before b c → before a c)
  {s : SkipList κ} {order : List Nat} {linked : Nat → Nat}

theorem keyIsAfterNode_iff {key k : κ} {x : Nat} (hx : s.keyOf x = some k) :
    s.keyIsAfterNode before key x = true ↔ before k key := by
  simp [keyIsAfterNode, hx]

include htrans in
theorem Levels.split_at (h : Levels before s order linked) (key : κ) :
    ∃ front back, order = front ++ back ∧
      (∀ x ∈ front, s.keyIsAfterNode before key x = true) ∧
      ∀ x ∈ back, s.keyIsAfterNode before key x = false := by
  refine ⟨order.takeWhile (s.keyIsAfterNode before key),
    order.dropWhile (s.keyIsAfterNode before key), List.takeWhile_append_dropWhile.symm,
    fun x hx => List.mem_takeWhile_imp hx, dropWhile_stays h.sorted ?_⟩
  rintro x y ⟨a, b, ha, hb, hab⟩ hy
  rw [keyIsAfterNode_iff hb] at hy
  exact (keyIsAfterNode_iff ha).mpr (htrans a b key hab hy)

end Target

end SkipList

end Strata
