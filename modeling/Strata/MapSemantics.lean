import Strata.LogDamage
import Strata.Lifetimes

/-! What `Get` returns, in terms of the writes that were acknowledged: while the process runs,
and in the process after one that was killed. -/
namespace Strata

open Library System Simulation

variable {options : Options} {seen : List Deed} {world world' : World} {ideal ideal' : Ideal}
  {label : Option Deed}

/-! One process on a new database. -/

def newProcess (options : Options) : System World Deed :=
  ⟨fun world => ∃ dir fate db after trace, Bare dir ∧
      openDB options (machineOn dir fate) = .done (.ok, some db) after trace ∧
      (∀ e ∈ trace, steady.events e) ∧ world = .serving db after.dir [],
    fun world label world' => World.Step steady.events options world label world' ∧
      world'.isServing = true⟩

def Deed.leaves (key : Key) (before : Option Bytes) : Deed → Option Bytes
  | .did (.write type written value) _ =>
    if written = key then (if type = kTypeDeletion then none else some value) else before
  | _ => before

/-- The value of the last `Put` on the key, if no `Delete` came behind it. -/
def lastPut (key : Key) (seen : List Deed) : Option Bytes := seen.foldl (Deed.leaves key) none

def Deed.isTook : Deed → Bool
  | .took _ => true
  | _ => false

/-- The read with this number took its snapshot behind these deeds, and its key is this. -/
def Captured (seen front : List Deed) (index : Nat) (key : Key) : Prop :=
  front ++ [.took key] <+: seen ∧ front.countP Deed.isTook = index

theorem Captured.mono {front : List Deed} {index : Nat} {key : Key} (h : Captured seen front index key)
    (more : List Deed) : Captured (seen ++ more) front index key :=
  ⟨h.1.trans (List.prefix_append _ _), h.2⟩

/-- Nothing undefined is met and no action fails. Every `Get` answers with what was last put
before it took its snapshot. -/
structure AnswersFromMap (seen : List Deed) : Prop where
  defined : Deed.undefined ∉ seen
  succeeds : ∀ action status, Deed.did action status ∈ seen → status = .ok
  answers : ∀ before index result, before ++ [.got index result] <+: seen →
    ∃ front key, Captured before front index key ∧ result = response (lastPut key front)

structure Recalls (seen : List Deed) (ideal : Ideal) : Prop extends AnswersFromMap seen where
  map : ∀ key, ideal.map key = lastPut key seen
  count : ideal.reads.length = seen.countP Deed.isTook
  reads : ∀ index value, ideal.reads[index]? = some value →
    ∃ front key, Captured seen front index key ∧ value = lastPut key front

theorem recalls_nil : Recalls [] ⟨fun _ => none, []⟩ := by
  refine ⟨⟨by simp, by simp, fun before index result h => ?_⟩, fun _ => rfl, rfl, by simp⟩
  simp at h

theorem lastPut_append (key : Key) (seen : List Deed) (deed : Deed) :
    lastPut key (seen ++ [deed]) = deed.leaves key (lastPut key seen) := by
  rw [lastPut, List.foldl_append]
  rfl

theorem Action.leaves_did (key : Key) (action : Action) (status : Status)
    (map : Key → Option Bytes) :
    (Deed.did action status).leaves key (map key) = action.apply map key := by
  cases action with
  | write type written value =>
    rw [Action.apply, Function.update_apply, Deed.leaves]
    by_cases hkey : written = key
    · rw [if_pos hkey, if_pos hkey.symm]
    · rw [if_neg hkey, if_neg (Ne.symm hkey)]
  | _ => rfl

theorem AnswersFromMap.append {deed : Deed} (h : AnswersFromMap seen)
    (hdefined : deed ≠ .undefined)
    (hdid : ∀ action status, deed = .did action status → status = .ok)
    (hgot : ∀ index result, deed = .got index result →
      ∃ front key, Captured seen front index key ∧ result = response (lastPut key front)) :
    AnswersFromMap (seen ++ [deed]) := by
  constructor
  · intro hmem
    rcases List.mem_append.mp hmem with hmem | hmem
    · exact h.defined hmem
    · exact hdefined (List.mem_singleton.mp hmem).symm
  · intro action status hmem
    rcases List.mem_append.mp hmem with hmem | hmem
    · exact h.succeeds action status hmem
    · exact hdid action status (List.mem_singleton.mp hmem).symm
  · intro before index result hbefore
    rcases List.prefix_concat_iff.mp hbefore with hsame | hearlier
    · obtain ⟨rfl, hdeed⟩ := List.append_inj' hsame rfl
      exact hgot index result (List.singleton_inj.mp hdeed).symm
    · exact h.answers before index result hearlier

namespace Recalls

theorem append {deed : Deed} {map : Key → Option Bytes} (h : Recalls seen ideal)
    (hanswers : AnswersFromMap (seen ++ [deed])) (htook : deed.isTook = false)
    (hmap : ∀ key, map key = deed.leaves key (ideal.map key)) :
    Recalls (seen ++ [deed]) { ideal with map := map } := by
  refine ⟨hanswers, fun key => ?_, ?_, fun index value hvalue => ?_⟩
  · rw [lastPut_append, ← h.map]
    exact hmap key
  · rw [List.countP_append, List.countP_singleton, htook]
    exact h.count
  · obtain ⟨front, key, hcaptured, hfront⟩ := h.reads index value hvalue
    exact ⟨front, key, hcaptured.mono _, hfront⟩

theorem step (h : Recalls seen ideal) (hstep : Ideal.Step ideal label ideal')
    (hopened : ∀ status, label ≠ some (.opened status))
    (hended : ∀ during, label ≠ some (.ended during)) :
    Recalls (seen ++ label.toList) ideal' := by
  cases hstep with
  | opened => exact absurd rfl (hopened _)
  | ended => exact absurd rfl (hended _)
  | endedBehind => exact absurd rfl (hended _)
  | did action =>
    have hanswers : AnswersFromMap (seen ++ [.did action .ok]) := by
      apply h.toAnswersFromMap.append
      · simp
      · intro other status hdeed
        cases hdeed
        rfl
      · intro index result hdeed
        cases hdeed
    exact h.append hanswers rfl fun key => (Action.leaves_did key action .ok ideal.map).symm
  | took key =>
    refine ⟨?_, fun other => ?_, ?_, fun index value hvalue => ?_⟩
    · apply h.toAnswersFromMap.append
      · simp
      · intro action status hdeed
        cases hdeed
      · intro index result hdeed
        cases hdeed
    · exact (h.map other).trans (lastPut_append other seen (.took key)).symm
    · simp [h.count, Deed.isTook]
    · rw [List.getElem?_append] at hvalue
      split at hvalue
      · obtain ⟨front, other, hcaptured, hfront⟩ := h.reads index value hvalue
        exact ⟨front, other, hcaptured.mono _, hfront⟩
      · rename_i hlength
        rw [List.getElem?_singleton] at hvalue
        split at hvalue
        · rename_i hlast
          have hindex : index = ideal.reads.length := by omega
          cases hvalue
          exact ⟨seen, key, ⟨List.prefix_refl _, hindex ▸ h.count.symm⟩, h.map key⟩
        · cases hvalue
  | got hread =>
    apply h.append _ rfl fun _ => rfl
    apply h.toAnswersFromMap.append
    · simp
    · intro action status hdeed
      cases hdeed
    · intro index result hdeed
      cases hdeed
      obtain ⟨front, key, hcaptured, hfront⟩ := h.reads _ _ hread
      exact ⟨front, key, hcaptured, congrArg response hfront⟩

end Recalls

theorem newProcess_recalls (hrun : (newProcess options).Run seen world) :
    ∃ db dir reads ideal, world = .serving db dir reads ∧ Embodies world ideal ∧
      Recalls seen ideal := by
  induction hrun with
  | start hstart =>
    obtain ⟨dir, fate, db, after, trace, hbare, hexit, hsteady, rfl⟩ := hstart
    have hcreate := createIfMissing_of_opened hexit (hbare .current (by simp))
    obtain ⟨hdir, db', hresult, _, _, hdone⟩ :=
      (openDB_new_endures (M := Medium.settled dir) hbare hcreate).done hexit rfl rfl hsteady
    cases hresult
    exact ⟨db, after.dir, [], _, rfl, ⟨[], List.Pairwise.nil, mapOf_nil.symm,
      ⟨False, _, hdir, hdone⟩, AllPinned.nil _⟩, recalls_nil⟩
  | @step seen middle world' label _ hstep ih =>
    obtain ⟨db, dir, reads, ideal, rfl, hembodies, hrecalls⟩ := ih
    obtain ⟨hstep, hserving⟩ := hstep
    have hopened : ∀ status, label ≠ some (.opened status) := by
      rintro status rfl
      cases hstep
    have hended : ∀ during, label ≠ some (.ended during) := by
      rintro during rfl
      cases hstep <;> cases hserving
    obtain ⟨ideal', hembodies', hmatch⟩ := hembodies.serve hstep
    have hrecalls' : Recalls (seen ++ label.toList) ideal' := by
      rcases hmatch with hmatch | ⟨rfl, rfl⟩
      · exact hrecalls.step hmatch hopened hended
      · rw [Option.toList_none, List.append_nil]
        exact hrecalls
    cases world' with
    | resting dir' => cases hserving
    | serving db' dir' reads' => exact ⟨db', dir', reads', ideal', rfl, hembodies', hrecalls'⟩

def World.GoesOn : World → Prop
  | .serving _ _ reads => ∀ read ∈ reads, read.Ready ∨ read.asked < 3
  | .resting _ => True

/-- From the opening of a new database on, with its threads in any order: no action fails, every
read comes to an answer, and the answer is what was last put, and not deleted since, when the
read took its snapshot. -/
theorem get_returns_last_put (options : Options) (seen : List Deed) (world : World)
    (hrun : (newProcess options).Run seen world) : AnswersFromMap seen ∧ world.GoesOn := by
  obtain ⟨db, dir, reads, ideal, rfl, hembodies, hrecalls⟩ := newProcess_recalls hrun
  obtain ⟨all, _, _, _, hpinned⟩ := hembodies
  refine ⟨hrecalls.toAnswersFromMap, fun read hread => ?_⟩
  obtain ⟨index, hindex⟩ := List.mem_iff_getElem?.mp hread
  obtain ⟨value, _, hpin⟩ := hpinned.exists_value hindex
  rcases Nat.lt_or_eq_of_le hpin.asked with hasked | hasked
  · exact Or.inr hasked
  · exact Or.inl (Or.inl hasked)

/-! Runs that can be computed. -/

theorem World.isServing_of_next {command : Command} (hcommand : ∀ fate, command ≠ .openIt fate)
    (h : world.next options command = some (label, world')) : world.isServing = true := by
  cases world with
  | serving db dir reads => rfl
  | resting dir =>
    cases command with
    | openIt fate => exact absurd rfl (hcommand fate)
    | _ => cases h

theorem World.isServing_of_play {commands : List Command} {start last : List Deed × World}
    (hcommands : ∀ command ∈ commands, ∀ fate, command ≠ .openIt fate)
    (h : World.play options start commands = some last) (hlast : last.2.isServing = true) :
    start.2.isServing = true := by
  cases commands with
  | nil =>
    cases h
    exact hlast
  | cons command rest =>
    rw [World.play, List.foldlM_cons, Option.bind_eq_bind, Option.bind_eq_some_iff] at h
    obtain ⟨state, hstate, _⟩ := h
    obtain ⟨⟨label, world⟩, hnext, _⟩ := Option.map_eq_some_iff.mp hstate
    exact World.isServing_of_next (hcommands command (by simp)) hnext

theorem newProcess_of_play {commands : List Command} {start last : List Deed × World}
    (hrun : (newProcess options).Run start.1 start.2)
    (hcommands : ∀ command ∈ commands, ∀ fate, command ≠ .openIt fate)
    (h : World.play options start commands = some last) (hlast : last.2.isServing = true) :
    (newProcess options).Run last.1 last.2 := by
  induction commands generalizing start with
  | nil =>
    cases h
    exact hrun
  | cons command rest ih =>
    rw [World.play, List.foldlM_cons, Option.bind_eq_bind, Option.bind_eq_some_iff] at h
    obtain ⟨state, hstate, hplay⟩ := h
    obtain ⟨⟨label, world⟩, hnext, rfl⟩ := Option.map_eq_some_iff.mp hstate
    have hrest : ∀ command ∈ rest, ∀ fate, command ≠ .openIt fate := fun other hother =>
      hcommands other (by simp [hother])
    have hserving := World.isServing_of_play hrest hplay hlast
    exact ih (hrun.step ⟨World.step_of_next hnext, hserving⟩) hrest hplay

/-- A key is deleted, flushed and compacted away while a read of it is under way. -/
def deletedWhileRead : List Command :=
  [.act firstPut [], .take [97], .act (.write kTypeDeletion [97] []) [],
    .act .backgroundCompaction [], .ask 0, .get 0, .take [97], .ask 1, .ask 1, .ask 1, .get 1]

def deletedWhileReadSeen : List Deed :=
  [.did firstPut .ok, .took [97], .did (.write kTypeDeletion [97] []) .ok,
    .did .backgroundCompaction .ok, .got 0 (.ok, [49]), .took [97], .got 1 (.notFound "", [])]

def playNew (options : Options) (commands : List Command) : Option (List Deed × World) :=
  match World.next options (.resting ∅) (.openIt []) with
  | some (some (.opened .ok), world) => World.play options ([], world) commands
  | _ => none

theorem newProcess_of_playNew {commands : List Command} {last : List Deed × World}
    (hcommands : ∀ command ∈ commands, ∀ fate, command ≠ .openIt fate)
    (h : playNew options commands = some last) (hlast : last.2.isServing = true) :
    (newProcess options).Run last.1 last.2 := by
  unfold playNew at h
  split at h
  · rename_i world hopen
    have hstep := World.step_of_next hopen
    cases hstep with
    | @opened _ _ _ db after _ hexit hsteady =>
      have hstart : (newProcess options).Run [] (.serving db after.dir []) :=
        .start ⟨∅, _, _, _, _, bare_empty, hexit, hsteady, rfl⟩
      exact newProcess_of_play hstart hcommands h hlast
    | refused => cases World.isServing_of_play hcommands h hlast
  · cases h

set_option maxRecDepth 8192 in
theorem get_returns_last_put_deletedWhileRead : ∃ world,
    (newProcess tinyTables).Run deletedWhileReadSeen world ∧
      AnswersFromMap deletedWhileReadSeen ∧ world.GoesOn := by
  have hplay : (playNew tinyTables deletedWhileRead).map
      (fun last => (last.1, last.2.isServing)) = some (deletedWhileReadSeen, true) := by
    decide +kernel
  obtain ⟨⟨seen, world⟩, hplay, hlast⟩ := Option.map_eq_some_iff.mp hplay
  obtain ⟨rfl, hserving⟩ := Prod.mk.inj hlast
  have hcommands : ∀ command ∈ deletedWhileRead, ∀ fate, command ≠ .openIt fate := by
    simp [deletedWhileRead]
  have hrun := newProcess_of_playNew hcommands hplay hserving
  exact ⟨world, hrun, get_returns_last_put tinyTables _ world hrun⟩

/-! The process after one that was killed. -/

/-- The actions that are left, in their order: all that returned, and perhaps one that a kill
came in. -/
inductive Accounted : List Deed → List Action → Prop
  | nil : Accounted [] []
  | did {seen : List Deed} {actions : List Action} (h : Accounted seen actions) (action : Action)
      (status : Status) : Accounted (seen ++ [.did action status]) (actions ++ [action])
  | landed {seen : List Deed} {actions : List Action} (h : Accounted seen actions)
      (action : Action) : Accounted (seen ++ [.ended (some action)]) (actions ++ [action])
  | lost {seen : List Deed} {actions : List Action} (h : Accounted seen actions)
      (action : Action) : Accounted (seen ++ [.ended (some action)]) actions
  | other {seen : List Deed} {actions : List Action} (h : Accounted seen actions) (deed : Deed)
      (hdid : ∀ action status, deed ≠ .did action status)
      (hended : ∀ action, deed ≠ .ended (some action)) : Accounted (seen ++ [deed]) actions

def mapBehind (actions : List Action) : Key → Option Bytes :=
  actions.foldl (fun map action => action.apply map) fun _ => none

theorem mapBehind_append (actions : List Action) (action : Action) :
    mapBehind (actions ++ [action]) = action.apply (mapBehind actions) := by
  rw [mapBehind, List.foldl_append]
  rfl

theorem Ideal.Step.accounted {actions : List Action} (h : Ideal.Step ideal label ideal')
    (haccounted : Accounted seen actions) (hmap : ideal.map = mapBehind actions) :
    ∃ actions', Accounted (seen ++ label.toList) actions' ∧ ideal'.map = mapBehind actions' := by
  cases h with
  | opened => exact ⟨actions, haccounted.other _ (by simp) (by simp), hmap⟩
  | did action =>
    refine ⟨actions ++ [action], haccounted.did action .ok, ?_⟩
    rw [mapBehind_append, ← hmap]
  | took key => exact ⟨actions, haccounted.other _ (by simp) (by simp), hmap⟩
  | got => exact ⟨actions, haccounted.other _ (by simp) (by simp), hmap⟩
  | ended during =>
    cases during with
    | none => exact ⟨actions, haccounted.other _ (by simp) (by simp), hmap⟩
    | some action => exact ⟨actions, haccounted.lost action, hmap⟩
  | endedBehind action =>
    refine ⟨actions ++ [action], haccounted.landed action, ?_⟩
    rw [mapBehind_append, ← hmap]

theorem Ideal.accounted (hrun : Ideal.system.Run seen ideal) :
    ∃ actions, Accounted seen actions ∧ ideal.map = mapBehind actions := by
  induction hrun with
  | start hstart =>
    obtain rfl := hstart
    exact ⟨[], .nil, rfl⟩
  | step _ hstep ih =>
    obtain ⟨actions, haccounted, hmap⟩ := ih
    exact Ideal.Step.accounted hstep haccounted hmap

theorem InService.get {loose : Prop} {all : List Entry} {db : DBImpl} {M : Medium FileName}
    (h : InService loose all db M) (hseq : InSequence all) (dir : Dir) (key : Key) :
    db.get dir (fun _ => none) key = response (mapOf all key) := by
  obtain ⟨m, r, olds, records, hserving, hsingle⟩ := h
  exact (hserving.pinned hsingle hseq key).value dir

/-- The writes of `tornWrite`, up to the kill. -/
def tornWriteKilled : List Command :=
  [.openIt [], .act firstPut [], .act (.write kTypeDeletion [97] []) [],
    .act .backgroundCompaction [], .act (.write kTypeValue [97] [50]) [.ok, .kill 3]]

def tornWriteKilledSeen : List Deed :=
  [.opened .ok, .did firstPut .ok, .did (.write kTypeDeletion [97] []) .ok,
    .did .backgroundCompaction .ok, .ended (some (.write kTypeValue [97] [50]))]

def flawlessTrace (trace : List (Event FileName)) : Bool :=
  trace.all fun e => e.outcome == .ok && decide (WithinLimits e.call)

theorem steady_of_flawlessTrace {trace : List (Event FileName)} (h : flawlessTrace trace = true) :
    ∀ e ∈ trace, steady.events e ∧ ¬ e.Fatal := by
  intro e he
  have hflawless := List.all_eq_true.mp h e he
  rw [Bool.and_eq_true, decide_eq_true_eq, beq_iff_eq] at hflawless
  obtain ⟨hok, hlimits⟩ := hflawless
  refine ⟨⟨fun n hfail => ?_, hlimits⟩, fun ⟨n, hkill⟩ => ?_⟩
  · rw [hok] at hfail
    cases hfail
  · rw [hok] at hkill
    cases hkill

/-- The directory that is left can be opened, and all calls of that succeed. -/
def World.opensFlawlessly (options : Options) : World → Bool
  | .resting dir => flawlessTrace (openDB options (machineOn dir [])).trace
  | .serving .. => false

end Strata
