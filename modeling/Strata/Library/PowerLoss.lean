import Mathlib.Logic.Function.Basic
import Strata.Library.System

/-! The medium below a directory. A file keeps the bytes that were synced, and the
directory keeps the entries there were when it was synced; of the rest a loss of
power may undo any call and keep any other. The rules at the end are those for
programs over a directory, with the medium in its place. -/
namespace Strata.Library.System

variable {ν α β : Type}

/-- What a name stands for: no file, or a file and the writes to it that were not
synced, which are the end of it. -/
abbrev Binding := Option (List UInt8 × List (List UInt8))

/-- What may be left of writes one behind the other. Where one of them is lost and a
later one is not, there is a gap of zeros. -/
def Persists : List (List UInt8) → List UInt8 → Prop
  | [], left => left = []
  | first :: rest, left => (∃ n, left = first.take n) ∨ ∃ later, Persists rest later ∧
      (left = first ++ later ∨ later ≠ [] ∧ left = List.replicate first.length 0 ++ later)

theorem Persists.single {first left : List UInt8} (h : Persists [first] left) : left <+: first := by
  rcases h with ⟨n, rfl⟩ | ⟨later, hlater, rfl | ⟨hne, _⟩⟩
  · exact List.take_prefix _ _
  · have hnil : later = [] := hlater
    subst hnil
    exact ⟨[], by simp⟩
  · exact absurd hlater hne

def Survives : Binding → Option (List UInt8) → Prop
  | none, left => left = none
  | some (data, writes), left => ∃ tail, Persists writes tail ∧
      left = some (data.take (data.length - writes.flatten.length) ++ tail)

/-- The directory as the process sees it, the writes to each file that were not
synced, and for each name what else the medium may take it for: its former
bindings, as far back as the last sync of the directory. -/
structure Medium (ν : Type) where
  dir : Directory ν
  writes : ν → List (List UInt8)
  former : ν → List Binding

/-- The call changes what the name stands for, or syncs its file. -/
def Call.Concerns (name : ν) : Call ν → Prop
  | .create other => other = name
  | .openAppend other => other = name
  | .append other _ _ => other = name
  | .sync other => other = name
  | .syncDirectory => False
  | .rename source target => source = name ∨ target = name
  | .unlink other => other = name

def Event.Within (S : ν → Prop) (e : Event ν) : Prop := ∀ name, e.call.Concerns name → S name

/-- The file was synced, and nothing was done to it since. -/
def Synced (name : ν) (trace : List (Event ν)) : Prop :=
  ∃ front back, trace = front ++ ⟨.sync name, .ok⟩ :: back ∧ ∀ e ∈ back, ¬ e.call.Concerns name

namespace Synced

variable {name : ν} {front trace later : List (Event ν)}

theorem last (front : List (Event ν)) (name : ν) : Synced name (front ++ [⟨.sync name, .ok⟩]) :=
  ⟨front, [], rfl, by simp⟩

theorem behind (h : Synced name trace) (front : List (Event ν)) : Synced name (front ++ trace) := by
  obtain ⟨before, back, rfl, hback⟩ := h
  exact ⟨front ++ before, back, by simp, hback⟩

theorem before (h : Synced name trace) (hlater : ∀ e ∈ later, ¬ e.call.Concerns name) :
    Synced name (trace ++ later) := by
  obtain ⟨front, back, rfl, hback⟩ := h
  refine ⟨front, back ++ later, by simp, fun e he => ?_⟩
  rcases List.mem_append.mp he with he | he
  · exact hback e he
  · exact hlater e he

end Synced

variable [DecidableEq ν]

namespace Medium

def binding (m : Medium ν) (name : ν) : Binding :=
  (m.dir.lookup name).map fun data => (data, m.writes name)

def Leaves (m : Medium ν) (left : Directory ν) : Prop :=
  ∀ name, ∃ b ∈ m.binding name :: m.former name, Survives b (left.lookup name)

def settled (dir : Directory ν) : Medium ν := ⟨dir, fun _ => [], fun _ => []⟩

def shelve (m : Medium ν) (name : ν) : ν → List Binding :=
  Function.update m.former name (m.binding name :: m.former name)

def create (m : Medium ν) (name : ν) : Medium ν :=
  ⟨m.dir.insert name [], Function.update m.writes name [], m.shelve name⟩

def write (m : Medium ν) (name : ν) (data : List UInt8) : Medium ν :=
  ⟨extend m.dir name data, Function.update m.writes name (m.writes name ++ [data]), m.former⟩

def perform (m : Medium ν) : Call ν → Medium ν
  | .create name => m.create name
  | .openAppend name => if (m.dir.lookup name).isSome then m else m.create name
  | .append name _ data => m.write name data
  | .sync name => { m with writes := Function.update m.writes name [] }
  | .syncDirectory => { m with former := fun _ => [] }
  | .rename source target =>
    if (m.dir.lookup source).isSome then
      ⟨move m.dir source target, Function.update m.writes target (m.writes source),
        Function.update (m.shelve source) target (m.binding target :: m.former target)⟩
    else m
  | .unlink name => { m with dir := m.dir.erase name, former := m.shelve name }

theorem perform_openAppend (m : Medium ν) (name : ν) :
    (m.perform (.openAppend name)).dir = touch m.dir name := by
  rw [perform, touch]
  cases hname : m.dir.lookup name with
  | none => rfl
  | some data => rfl

theorem perform_rename (m : Medium ν) (source target : ν) :
    (m.perform (.rename source target)).dir = move m.dir source target := by
  rw [perform, move]
  cases hsource : m.dir.lookup source with
  | none => rfl
  | some data => simp

theorem sync_writes (m : Medium ν) (name : ν) : (m.perform (.sync name)).writes name = [] :=
  Function.update_self name _ _

theorem rename_writes {m : Medium ν} {source : ν} {data : List UInt8}
    (h : m.dir.lookup source = some data) (target : ν) :
    (m.perform (.rename source target)).writes target = m.writes source := by
  rw [perform, h]
  exact Function.update_self target _ _

/-- Of a call that was cut short, only the bytes of a write take effect. -/
def cut (m : Medium ν) (n : Nat) : Call ν → Medium ν
  | .append name _ data => m.write name (data.take n)
  | _ => m

def apply (m : Medium ν) (e : Event ν) : Medium ν :=
  match e.outcome with
  | .ok => m.perform e.call
  | .fail n => m.cut n e.call
  | .kill n => m.cut n e.call

def run (m : Medium ν) (trace : List (Event ν)) : Medium ν := trace.foldl apply m

@[simp] theorem run_nil (m : Medium ν) : m.run [] = m := rfl

@[simp] theorem run_cons (m : Medium ν) (e : Event ν) (trace : List (Event ν)) :
    m.run (e :: trace) = (m.apply e).run trace := rfl

@[simp] theorem run_append (m : Medium ν) (trace later : List (Event ν)) :
    m.run (trace ++ later) = (m.run trace).run later := List.foldl_append

/-- The name and all bytes of its file are on the medium. -/
structure Safe (m : Medium ν) (name : ν) : Prop where
  former : m.former name = []
  writes : m.writes name = []

/-- A file of which only the last writes are not on the medium keeps the rest, and
of those writes what persists. -/
theorem Leaves.grown {m : Medium ν} {name : ν} {old : List UInt8} (hformer : m.former name = [])
    (hdata : m.dir.lookup name = some (old ++ (m.writes name).flatten)) {left : Directory ν}
    (hleft : m.Leaves left) :
    ∃ tail, Persists (m.writes name) tail ∧ left.lookup name = some (old ++ tail) := by
  obtain ⟨b, hb, hsurvives⟩ := hleft name
  rw [hformer, List.mem_singleton] at hb
  rw [hb, binding, hdata] at hsurvives
  obtain ⟨tail, hpersists, hsome⟩ := hsurvives
  refine ⟨tail, hpersists, ?_⟩
  rw [hsome, List.length_append, Nat.add_sub_cancel, List.take_left]

theorem Safe.lookup {m : Medium ν} {name : ν} (h : m.Safe name) {left : Directory ν}
    (hleft : m.Leaves left) : left.lookup name = m.dir.lookup name := by
  cases hdata : m.dir.lookup name with
  | none =>
    obtain ⟨b, hb, hsurvives⟩ := hleft name
    rw [h.former, List.mem_singleton] at hb
    rw [hb, binding, hdata] at hsurvives
    exact hsurvives
  | some data =>
    have hgrown : m.dir.lookup name = some (data ++ (m.writes name).flatten) := by
      rw [h.writes, hdata, List.flatten_nil, List.append_nil]
    obtain ⟨tail, hpersists, hsome⟩ := hleft.grown h.former hgrown
    rw [h.writes] at hpersists
    rw [hsome, show tail = [] from hpersists, List.append_nil]

end Medium

namespace Medium

variable {m m' m'' : Medium ν} {name : ν} {S T : ν → Prop}

/-- Outside of these names the medium is as it was, or safer. -/
def Only (S : ν → Prop) (m m' : Medium ν) : Prop :=
  ∀ name, ¬ S name → m'.dir.lookup name = m.dir.lookup name ∧ m'.writes name = m.writes name ∧
    (m'.former name = m.former name ∨ m'.former name = [])

theorem Only.refl (S : ν → Prop) (m : Medium ν) : Only S m m :=
  fun _ _ => ⟨rfl, rfl, Or.inl rfl⟩

theorem Only.trans (h : Only S m m') (h' : Only S m' m'') : Only S m m'' := by
  intro name hname
  obtain ⟨hdir, hsafe, hformer⟩ := h name hname
  obtain ⟨hdir', hsafe', hformer'⟩ := h' name hname
  refine ⟨hdir'.trans hdir, hsafe'.trans hsafe, ?_⟩
  rcases hformer' with hsame | hnone
  · rw [hsame]
    exact hformer
  · exact Or.inr hnone

theorem Only.mono (h : Only S m m') (himp : ∀ name, S name → T name) : Only T m m' :=
  fun name hname => h name fun hs => hname (himp name hs)

theorem Only.safe (h : Only S m m') (hsafe : m.Safe name) (hname : ¬ S name) : m'.Safe name := by
  obtain ⟨_, hwrites, hformer⟩ := h name hname
  refine ⟨?_, hwrites.trans hsafe.writes⟩
  rcases hformer with hsame | hnone
  · exact hsame.trans hsafe.former
  · exact hnone

theorem create_other (h : name ≠ other) : (m.create other).dir.lookup name = m.dir.lookup name ∧
    (m.create other).writes name = m.writes name ∧
    (m.create other).former name = m.former name := by
  refine ⟨lookup_insert_other h, ?_, ?_⟩
  · exact Function.update_of_ne h _ _
  · exact Function.update_of_ne h _ _

theorem write_only (m : Medium ν) (other : ν) (data : List UInt8) :
    Only (fun name => other = name) m (m.write other data) := by
  intro name hname
  exact ⟨lookup_extend_other (Ne.symm hname), Function.update_of_ne (Ne.symm hname) _ _, Or.inl rfl⟩

theorem perform_only (m : Medium ν) (c : Call ν) :
    Only (fun name => c.Concerns name) m (m.perform c) := by
  intro name hname
  cases c with
  | create other =>
    obtain ⟨hdir, hsafe, hformer⟩ := create_other (m := m) (Ne.symm hname)
    exact ⟨hdir, hsafe, Or.inl hformer⟩
  | openAppend other =>
    rw [perform]
    split
    · exact ⟨rfl, rfl, Or.inl rfl⟩
    · obtain ⟨hdir, hsafe, hformer⟩ := create_other (m := m) (Ne.symm hname)
      exact ⟨hdir, hsafe, Or.inl hformer⟩
  | append other offset data => exact write_only m other data name hname
  | sync other => exact ⟨rfl, Function.update_of_ne (Ne.symm hname) _ _, Or.inl rfl⟩
  | syncDirectory => exact ⟨rfl, rfl, Or.inr rfl⟩
  | rename source target =>
    have hsource : name ≠ source := fun heq => hname (Or.inl heq.symm)
    have htarget : name ≠ target := fun heq => hname (Or.inr heq.symm)
    rw [perform]
    split
    · refine ⟨lookup_move_other hsource htarget, Function.update_of_ne htarget _ _, Or.inl ?_⟩
      simp only
      rw [Function.update_of_ne htarget, shelve, Function.update_of_ne hsource]
    · exact ⟨rfl, rfl, Or.inl rfl⟩
  | unlink other =>
    exact ⟨AList.lookup_erase_ne (Ne.symm hname), rfl,
      Or.inl (Function.update_of_ne (Ne.symm hname) _ _)⟩

theorem Only.perform (h : Only S m m') {c : Call ν} (hcall : ∀ name, c.Concerns name → S name) :
    Only S m (m'.perform c) :=
  h.trans ((perform_only m' c).mono hcall)

theorem cut_only (m : Medium ν) (n : Nat) (c : Call ν) :
    Only (fun name => c.Concerns name) m (m.cut n c) := by
  cases c with
  | append other offset data => exact write_only m other (data.take n)
  | create other => exact Only.refl _ m
  | openAppend other => exact Only.refl _ m
  | sync other => exact Only.refl _ m
  | syncDirectory => exact Only.refl _ m
  | rename source target => exact Only.refl _ m
  | unlink other => exact Only.refl _ m

theorem apply_only (m : Medium ν) (e : Event ν) :
    Only (fun name => e.call.Concerns name) m (m.apply e) := by
  unfold apply
  split
  · exact perform_only m e.call
  · exact cut_only m _ e.call
  · exact cut_only m _ e.call

theorem run_only {trace : List (Event ν)} (h : ∀ e ∈ trace, e.Within S) :
    Only S m (m.run trace) := by
  induction trace generalizing m with
  | nil => exact Only.refl S m
  | cons e trace ih =>
    have hfirst : Only S m (m.apply e) := (apply_only m e).mono (h e (by simp))
    exact hfirst.trans (ih fun other hother => h other (by simp [hother]))

theorem run_entered {trace : List (Event ν)} (h : ∀ e ∈ trace, e.Within S)
    (hsync : ⟨.syncDirectory, .ok⟩ ∈ trace) (hname : ¬ S name) : (m.run trace).former name = [] := by
  obtain ⟨front, back, rfl⟩ := List.append_of_mem hsync
  rw [run_append, run_cons]
  have hback := @run_only _ _ ((m.run front).apply ⟨.syncDirectory, .ok⟩) S back
    fun e he => h e (by simp [he])
  rcases (hback name hname).2.2 with hsame | hnone
  · exact hsame
  · exact hnone

theorem run_unwritten {trace : List (Event ν)} (h : ∀ e ∈ trace, e.call.Concerns name →
    e.call = .unlink name ∨ e.call = .openAppend name) (hnone : m.writes name = []) :
    (m.run trace).writes name = [] := by
  induction trace generalizing m with
  | nil => exact hnone
  | cons e trace ih =>
    refine ih (fun other hother => h other (by simp [hother])) ?_
    by_cases hconcerns : e.call.Concerns name
    · unfold apply
      rcases h e (by simp) hconcerns with hcall | hcall
      · rw [hcall]
        split
        · exact hnone
        · exact hnone
        · exact hnone
      · rw [hcall]
        split
        · rw [perform]
          split
          · exact hnone
          · exact Function.update_self _ _ _
        · exact hnone
        · exact hnone
    · exact (apply_only m e name hconcerns).2.1.trans hnone

/-- There is no file of the name, and there was none since the directory was synced. -/
structure Absent (m : Medium ν) (name : ν) : Prop where
  lookup : m.dir.lookup name = none
  former : ∀ b ∈ m.former name, b = none

theorem Absent.left (h : m.Absent name) {left : Directory ν} (hleft : m.Leaves left) :
    left.lookup name = none := by
  obtain ⟨b, hb, hsurvives⟩ := hleft name
  have hbinding : m.binding name = none := by rw [binding, h.lookup, Option.map_none]
  have hnone : b = none := by
    rcases List.mem_cons.mp hb with rfl | hb
    · exact hbinding
    · exact h.former b hb
  rw [hnone] at hsurvives
  exact hsurvives

theorem Absent.only (h : m.Absent name) (honly : Only S m m') (hname : ¬ S name) :
    m'.Absent name := by
  obtain ⟨hdir, _, hformer⟩ := honly name hname
  refine ⟨hdir.trans h.lookup, fun b hb => ?_⟩
  rcases hformer with hsame | hnone
  · exact h.former b (hsame ▸ hb)
  · rw [hnone] at hb
    exact (List.not_mem_nil hb).elim

theorem Absent.run (h : m.Absent name) {trace : List (Event ν)}
    (hcalls : ∀ e ∈ trace, e.call.Concerns name → e.call = .unlink name) :
    (m.run trace).Absent name := by
  induction trace generalizing m with
  | nil => exact h
  | cons e trace ih =>
    refine ih ?_ fun other hother => hcalls other (by simp [hother])
    by_cases hconcerns : e.call.Concerns name
    · unfold apply
      rw [hcalls e (by simp) hconcerns]
      split
      · refine ⟨AList.lookup_erase _ _, fun b hb => ?_⟩
        change b ∈ m.shelve name name at hb
        rw [shelve, Function.update_self, binding, h.lookup] at hb
        rcases List.mem_cons.mp hb with rfl | hb
        · rfl
        · exact h.former b hb
      · exact h
      · exact h
    · exact h.only (apply_only m e) hconcerns

end Medium

/-! A loss of power that undoes nothing. -/

theorem persists_flatten (writes : List (List UInt8)) : Persists writes writes.flatten := by
  induction writes with
  | nil => rfl
  | cons first rest ih => exact Or.inr ⟨rest.flatten, ih, Or.inl rfl⟩

namespace Medium

/-- The writes that were not synced are the end of their file. -/
def Trailing (m : Medium ν) : Prop :=
  ∀ name data, m.dir.lookup name = some data → (m.writes name).flatten <:+ data

theorem trailing_settled (dir : Directory ν) : (settled dir).Trailing :=
  fun _ _ _ => List.nil_suffix

namespace Trailing

variable {m : Medium ν}

theorem create (h : m.Trailing) (name : ν) : (m.create name).Trailing := by
  intro other data hdata
  by_cases heq : other = name
  · subst heq
    have hnone : (m.create other).writes other = [] := Function.update_self _ _ _
    rw [hnone]
    exact List.nil_suffix
  · obtain ⟨hdir, hwrites, _⟩ := create_other (m := m) heq
    rw [hdir] at hdata
    rw [hwrites]
    exact h other data hdata

theorem write (h : m.Trailing) (name : ν) (bytes : List UInt8) : (m.write name bytes).Trailing := by
  intro other data hdata
  by_cases heq : other = name
  · subst heq
    have hwrites : (m.write other bytes).writes other = m.writes other ++ [bytes] :=
      Function.update_self _ _ _
    rw [hwrites, List.flatten_append]
    cases hold : m.dir.lookup other with
    | none =>
      have hsame : (m.write other bytes).dir = m.dir := by simp [Medium.write, extend, hold]
      rw [hsame, hold] at hdata
      cases hdata
    | some old =>
      have hgrown : (m.write other bytes).dir.lookup other = some (old ++ bytes) :=
        lookup_extend_self hold
      rw [hgrown] at hdata
      obtain rfl := Option.some.inj hdata
      obtain ⟨front, hfront⟩ := h other old hold
      exact ⟨front, by rw [← hfront]; simp⟩
  · obtain ⟨hdir, hwrites, _⟩ := write_only m name bytes other (Ne.symm heq)
    rw [hdir] at hdata
    rw [hwrites]
    exact h other data hdata

theorem perform (h : m.Trailing) (c : Call ν) : (m.perform c).Trailing := by
  cases c with
  | create name => exact h.create name
  | openAppend name =>
    rw [Medium.perform]
    split
    · exact h
    · exact h.create name
  | append name offset data => exact h.write name data
  | sync name =>
    intro other data hdata
    by_cases heq : other = name
    · subst heq
      rw [sync_writes]
      exact List.nil_suffix
    · have hwrites : (m.perform (.sync name)).writes other = m.writes other :=
        Function.update_of_ne heq _ _
      rw [hwrites]
      exact h other data hdata
  | syncDirectory => exact h
  | rename source target =>
    rw [Medium.perform]
    split
    · rename_i hsome
      obtain ⟨bytes, hbytes⟩ := Option.isSome_iff_exists.mp hsome
      intro other data hdata
      simp only at hdata ⊢
      by_cases htarget : other = target
      · subst htarget
        rw [lookup_move_target hbytes] at hdata
        rw [Function.update_self]
        exact Option.some.inj hdata ▸ h source bytes hbytes
      · rw [Function.update_of_ne htarget]
        by_cases hsource : other = source
        · subst hsource
          have hgone : (move m.dir other target).lookup other = none := by
            rw [move, hbytes]
            simp only
            rw [lookup_insert_other htarget, AList.lookup_erase]
          rw [hgone] at hdata
          cases hdata
        · rw [lookup_move_other hsource htarget] at hdata
          exact h other data hdata
    · exact h
  | unlink name =>
    intro other data hdata
    have hsame : m.dir.lookup other = some data := by
      by_cases heq : other = name
      · subst heq
        have hgone : (m.perform (.unlink other)).dir.lookup other = none := AList.lookup_erase _ _
        rw [hgone] at hdata
        cases hdata
      · have hkept : (m.perform (.unlink name)).dir.lookup other = m.dir.lookup other :=
          AList.lookup_erase_ne heq
        rw [← hkept]
        exact hdata
    exact h other data hsame

theorem run (h : m.Trailing) (trace : List (Event ν)) : (m.run trace).Trailing := by
  induction trace generalizing m with
  | nil => exact h
  | cons e rest ih =>
    have hcut : ∀ n, (m.cut n e.call).Trailing := by
      intro n
      unfold Medium.cut
      split
      · exact h.write _ _
      · exact h
    apply ih
    unfold Medium.apply
    split
    · exact h.perform e.call
    · exact hcut _
    · exact hcut _

theorem leaves (h : m.Trailing) : m.Leaves m.dir := by
  intro name
  refine ⟨m.binding name, by simp, ?_⟩
  rw [binding]
  cases hdata : m.dir.lookup name with
  | none => rfl
  | some data =>
    obtain ⟨front, rfl⟩ := h name data hdata
    refine ⟨_, persists_flatten _, ?_⟩
    rw [List.length_append, Nat.add_sub_cancel, List.take_left]

end Trailing

end Medium

theorem Synced.writes {name : ν} {trace : List (Event ν)} (h : Synced name trace) (m : Medium ν) :
    (m.run trace).writes name = [] := by
  obtain ⟨front, back, rfl, hback⟩ := h
  rw [Medium.run_append, Medium.run_cons]
  have honly := Medium.run_only (m := (m.run front).apply ⟨.sync name, .ok⟩)
    (S := fun other => other ≠ name) fun e he other hconcerns heq => hback e he (heq ▸ hconcerns)
  obtain ⟨_, hwrites, _⟩ := honly name fun h => h rfl
  exact hwrites.trans ((m.run front).sync_writes name)

theorem Synced.safe {name : ν} {trace : List (Event ν)} (h : Synced name trace) (m : Medium ν) :
    (m.run (trace ++ [⟨.syncDirectory, .ok⟩])).Safe name := by
  rw [Medium.run_append]
  exact ⟨rfl, h.writes m⟩

/-! The calls of a program. -/

/-- The calls are all that changes the directory. Each of them is one of these, and
those of a run that returned fit to what it returned. -/
def Works (S : Event ν → Prop) (program : Sys ν α) (P : α → List (Event ν) → Prop) : Prop :=
  ∀ (machine : Machine ν) (m : Medium ν), m.dir = machine.dir →
    match program machine with
    | .done value after trace =>
        (m.run trace).dir = after.dir ∧ (∀ e ∈ trace, S e) ∧ P value trace
    | .killed left trace => (m.run trace).dir = left ∧ ∀ e ∈ trace, S e
    | .stuck _ => True

namespace Works

variable {S : Event ν → Prop} {program : Sys ν α} {P : α → List (Event ν) → Prop}

theorem ret {value : α} (h : P value []) : Works S (pure value : Sys ν α) P :=
  fun _ _ hdir => ⟨hdir, by simp, h⟩

theorem stuck : Works S (Sys.stuck : Sys ν α) P := fun _ _ _ => trivial

theorem readDir {P : Directory ν → List (Event ν) → Prop} (h : ∀ dir, P dir []) :
    Works S Sys.readDir P :=
  fun _ _ hdir => ⟨hdir, by simp, h _⟩

theorem readFaults {P : (ν → Option Nat) → List (Event ν) → Prop} (h : ∀ faults, P faults []) :
    Works S Sys.readFaults P :=
  fun _ _ hdir => ⟨hdir, by simp, h _⟩

theorem within {S' : Event ν → Prop} (h : Works S program P) (hcalls : ∀ e, S e → S' e) :
    Works S' program fun value trace => P value trace ∧ ∀ e ∈ trace, S e := by
  intro machine m hdir
  have hrun := h machine m hdir
  cases hexit : program machine with
  | done value after trace =>
    rw [hexit] at hrun
    obtain ⟨hsame, hevents, hvalue⟩ := hrun
    exact ⟨hsame, fun e he => hcalls e (hevents e he), hvalue, hevents⟩
  | killed left trace =>
    rw [hexit] at hrun
    exact ⟨hrun.1, fun e he => hcalls e (hrun.2 e he)⟩
  | stuck trace => trivial

theorem weaken {R : α → List (Event ν) → Prop} (h : Works S program P)
    (hpost : ∀ value trace, P value trace → R value trace) : Works S program R := by
  intro machine m hdir
  have hrun := h machine m hdir
  cases hexit : program machine with
  | done value after trace =>
    rw [hexit] at hrun
    exact ⟨hrun.1, hrun.2.1, hpost _ _ hrun.2.2⟩
  | killed left trace =>
    rw [hexit] at hrun
    exact hrun
  | stuck trace => trivial

theorem and {S' : Event ν → Prop} {P' : α → List (Event ν) → Prop} (h : Works S program P)
    (h' : Works S' program P') : Works S program fun value trace => P value trace ∧ P' value trace := by
  intro machine m hdir
  have hrun := h machine m hdir
  have hrun' := h' machine m hdir
  cases hexit : program machine with
  | done value after trace =>
    rw [hexit] at hrun hrun'
    exact ⟨hrun.1, hrun.2.1, hrun.2.2, hrun'.2.2⟩
  | killed left trace =>
    rw [hexit] at hrun
    exact hrun
  | stuck trace => trivial

theorem and_value {Q : α → Prop} (h : Works S program P)
    (hruns : ∀ dir, Runs Assume.any dir program (fun value _ => Q value) fun _ => True) :
    Works S program fun value trace => P value trace ∧ Q value := by
  intro machine m hdir
  have hrun := h machine m hdir
  have hvalue := hruns machine.dir machine rfl trivial
  cases hexit : program machine with
  | done value after trace =>
    rw [hexit] at hrun hvalue
    exact ⟨hrun.1, hrun.2.1, hrun.2.2, (hvalue fun _ _ => trivial).2⟩
  | killed left trace =>
    rw [hexit] at hrun
    exact hrun
  | stuck trace => trivial

theorem value {machine after : Machine ν} {value : α} {trace : List (Event ν)}
    (h : Works S program P) (hexit : program machine = .done value after trace) :
    P value trace := by
  have hrun := h machine (Medium.settled machine.dir) rfl
  rw [hexit] at hrun
  exact hrun.2.2

theorem done {S : ν → Prop} (h : Works (Event.Within S) program P) {machine after : Machine ν}
    {value : α} {trace : List (Event ν)} (hexit : program machine = .done value after trace) :
    (∀ name, ¬ S name → after.dir.lookup name = machine.dir.lookup name) ∧ P value trace := by
  have hrun := h machine (Medium.settled machine.dir) rfl
  rw [hexit] at hrun
  obtain ⟨hdir, hevents, hvalue⟩ := hrun
  refine ⟨fun name hname => ?_, hvalue⟩
  rw [← hdir]
  exact (Medium.run_only hevents name hname).1

theorem frame {S : ν → Prop} (h : Works (Event.Within S) program P) {assume : Assume ν}
    {dir : Directory ν} {Q : α → Directory ν → Prop} {C : Directory ν → Prop}
    (hruns : Runs assume dir program Q C) :
    Runs assume dir program
      (fun value after => Q value after ∧ ∀ name, ¬ S name → after.lookup name = dir.lookup name)
      C := by
  intro machine hdir hfaults
  have hrun := hruns machine hdir hfaults
  cases hexit : program machine with
  | done value after trace =>
    simp only [hexit] at hrun ⊢
    intro htrace
    obtain ⟨hsame, hvalue⟩ := hrun htrace
    refine ⟨hsame, hvalue, ?_⟩
    rw [← hdir]
    exact (h.done hexit).1
  | killed left trace => simpa only [hexit] using hrun
  | stuck trace => simpa only [hexit] using hrun

theorem bind {next : α → Sys ν β} {M : α → List (Event ν) → Prop} {P : β → List (Event ν) → Prop}
    (first : Works S program M)
    (second : ∀ value front, M value front →
      Works S (next value) fun result trace => P result (front ++ trace)) :
    Works S (program >>= next) P := by
  intro machine m hdir
  have hfirst := first machine m hdir
  change match Sys.andThen program next machine with
    | .done value after trace => _
    | .killed left trace => _
    | .stuck _ => _
  unfold Sys.andThen
  cases hexit : program machine with
  | killed left trace => simpa only [hexit] using hfirst
  | stuck trace => trivial
  | done value after trace =>
    rw [hexit] at hfirst
    obtain ⟨hsame, hevents, hmiddle⟩ := hfirst
    have hall : ∀ {later : List (Event ν)}, (∀ e ∈ later, S e) → ∀ e ∈ trace ++ later, S e :=
      fun hlater e he => (List.mem_append.mp he).elim (hevents e) (hlater e)
    have hnext := second value trace hmiddle after _ hsame
    cases hlast : next value after with
    | done result last later =>
      simp only [hlast] at hnext ⊢
      rw [Medium.run_append]
      exact ⟨hnext.1, hall hnext.2.1, hnext.2.2⟩
    | killed left later =>
      simp only [hlast] at hnext ⊢
      rw [Medium.run_append]
      exact ⟨hnext.1, hall hnext.2⟩
    | stuck later => simp only [hlast]

theorem call {this : Directory ν → Call ν} {whole : Directory ν → Directory ν}
    {cut : Nat → Directory ν → Directory ν} {result : Option Nat → α}
    (hwhole : ∀ m : Medium ν, (m.perform (this m.dir)).dir = whole m.dir)
    (hcut : ∀ (m : Medium ν) n, (m.cut n (this m.dir)).dir = cut n m.dir)
    (hcalls : ∀ dir outcome, S ⟨this dir, outcome⟩) :
    Works S (Sys.call this whole cut result) fun value trace => ∃ dir,
      (value = result none ∧ trace = [⟨this dir, .ok⟩]) ∨
        ∃ n, value = result (some n) ∧ trace = [⟨this dir, .fail n⟩] := by
  intro machine m hdir
  unfold Sys.call
  rw [← hdir]
  cases machine.fate with
  | nil =>
    exact ⟨hwhole m, by simpa using hcalls m.dir .ok, m.dir, Or.inl ⟨rfl, rfl⟩⟩
  | cons outcome fate =>
    cases outcome with
    | ok => exact ⟨hwhole m, by simpa using hcalls m.dir .ok, m.dir, Or.inl ⟨rfl, rfl⟩⟩
    | fail n =>
      exact ⟨hcut m n, by simpa using hcalls m.dir (.fail n), m.dir, Or.inr ⟨n, rfl, rfl⟩⟩
    | kill n => exact ⟨hcut m n, by simpa using hcalls m.dir (.kill n)⟩

section Calls

variable {name source target : ν}

theorem openTrunc (hcalls : ∀ outcome, S ⟨.create name, outcome⟩) :
    Works S (Sys.openTrunc name) fun _ _ => True :=
  (call (fun _ => rfl) (fun _ _ => rfl) fun _ => hcalls).weaken fun _ _ _ => trivial

theorem openAppend (hcalls : ∀ outcome, S ⟨.openAppend name, outcome⟩) :
    Works S (Sys.openAppend name) fun _ _ => True :=
  (call (fun m => m.perform_openAppend name) (fun _ _ => rfl) fun _ => hcalls).weaken
    fun _ _ _ => trivial

theorem append {data : List UInt8} (hcalls : ∀ offset outcome, S ⟨.append name offset data, outcome⟩) :
    Works S (Sys.append name data) fun _ _ => True :=
  (call (fun _ => rfl) (fun _ _ => rfl) fun _ => hcalls _).weaken fun _ _ _ => trivial

theorem sync (hcalls : ∀ outcome, S ⟨.sync name, outcome⟩) :
    Works S (Sys.sync name) fun value trace => value = true → trace = [⟨.sync name, .ok⟩] := by
  apply (call (fun _ => rfl) (fun _ _ => rfl) fun _ => hcalls).weaken
  rintro value trace ⟨_, ⟨_, htrace⟩ | ⟨n, rfl, _⟩⟩ hvalue
  · exact htrace
  · cases hvalue

theorem syncDirectory (hcalls : ∀ outcome, S ⟨.syncDirectory, outcome⟩) :
    Works S (Sys.syncDirectory : Sys ν Bool) fun value trace =>
      if value then trace = [⟨.syncDirectory, .ok⟩] else ∃ n, trace = [⟨.syncDirectory, .fail n⟩] := by
  apply (call (fun _ => rfl) (fun _ _ => rfl) fun _ => hcalls).weaken
  rintro value trace ⟨_, ⟨rfl, htrace⟩ | ⟨n, rfl, htrace⟩⟩
  · exact htrace
  · exact ⟨n, htrace⟩

theorem rename (hcalls : ∀ outcome, S ⟨.rename source target, outcome⟩) :
    Works S (Sys.rename source target) fun _ _ => True :=
  (call (fun m => m.perform_rename source target) (fun _ _ => rfl) fun _ => hcalls).weaken
    fun _ _ _ => trivial

theorem unlink (hcalls : ∀ outcome, S ⟨.unlink name, outcome⟩) :
    Works S (Sys.unlink name) fun _ _ => True :=
  (call (fun _ => rfl) (fun _ _ => rfl) fun _ => hcalls).weaken fun _ _ _ => trivial

end Calls

end Works

/-- As `Runs`, with conditions on the medium. -/
def Endures (assume : Assume ν) (m : Medium ν) (program : Sys ν α) (Q : α → Medium ν → Prop)
    (C : Medium ν → Prop) : Prop :=
  ∀ machine : Machine ν, machine.dir = m.dir → assume.faults machine.faults →
    match program machine with
    | .done value after trace => (∀ e ∈ trace, assume.events e) →
        after.faults = machine.faults ∧ (m.run trace).dir = after.dir ∧ Q value (m.run trace)
    | .killed left trace => (∀ e ∈ trace, assume.events e) →
        (∃ e ∈ trace, e.Fatal) ∧ (m.run trace).dir = left ∧ C (m.run trace)
    | .stuck trace => (∀ e ∈ trace, assume.events e) → assume.stuck

namespace Endures

variable {assume : Assume ν} {m : Medium ν} {program : Sys ν α} {Q : α → Medium ν → Prop}
  {C : Medium ν → Prop}

theorem of_runs {Q : α → Directory ν → Prop} {C : Directory ν → Prop} {S : Event ν → Prop}
    {P : α → List (Event ν) → Prop} (h : Runs assume m.dir program Q C) (hworks : Works S program P) :
    Endures assume m program
      (fun value m' => Q value m'.dir ∧ ∃ trace, m' = m.run trace ∧ (∀ e ∈ trace, S e) ∧
        P value trace ∧ ∀ e ∈ trace, assume.events e)
      fun m' => C m'.dir ∧ ∃ trace, m' = m.run trace ∧ ∀ e ∈ trace, S e := by
  intro machine hdir hfaults
  have hrun := h machine hdir hfaults
  have hsame := hworks machine m hdir.symm
  cases hexit : program machine with
  | done value after trace =>
    simp only [hexit] at hrun hsame ⊢
    intro hevents
    obtain ⟨hkept, hpost⟩ := hrun hevents
    exact ⟨hkept, hsame.1, hsame.1 ▸ hpost, trace, rfl, hsame.2.1, hsame.2.2, hevents⟩
  | killed left trace =>
    simp only [hexit] at hrun hsame ⊢
    intro hevents
    obtain ⟨hfatal, hcrash⟩ := hrun hevents
    exact ⟨hfatal, hsame.1, hsame.1 ▸ hcrash, trace, rfl, hsame.2⟩
  | stuck trace =>
    simp only [hexit] at hrun ⊢
    exact hrun

theorem and_runs {Q' : α → Directory ν → Prop} {C' : Directory ν → Prop}
    (h : Endures assume m program Q C) (hruns : Runs assume m.dir program Q' C') :
    Endures assume m program (fun value m' => Q value m' ∧ Q' value m'.dir)
      fun m' => C m' ∧ C' m'.dir := by
  intro machine hdir hfaults
  have hrun := h machine hdir hfaults
  have hrun' := hruns machine hdir hfaults
  cases hexit : program machine with
  | done value after trace =>
    simp only [hexit] at hrun hrun' ⊢
    intro hevents
    obtain ⟨hkept, hdone, hpost⟩ := hrun hevents
    exact ⟨hkept, hdone, hpost, hdone ▸ (hrun' hevents).2⟩
  | killed left trace =>
    simp only [hexit] at hrun hrun' ⊢
    intro hevents
    obtain ⟨hfatal, hdone, hcrash⟩ := hrun hevents
    exact ⟨hfatal, hdone, hcrash, hdone ▸ (hrun' hevents).2⟩
  | stuck trace =>
    simp only [hexit] at hrun ⊢
    exact hrun

theorem and_works {S : Event ν → Prop} {P : α → List (Event ν) → Prop}
    (h : Endures assume m program Q C) (hworks : Works S program P) :
    Endures assume m program
      (fun value m' => Q value m' ∧ ∃ trace, m' = m.run trace ∧ (∀ e ∈ trace, S e) ∧
        P value trace ∧ ∀ e ∈ trace, assume.events e)
      fun m' => C m' ∧ ∃ trace, m' = m.run trace ∧ ∀ e ∈ trace, S e := by
  intro machine hdir hfaults
  have hrun := h machine hdir hfaults
  have hcalls := hworks machine m hdir.symm
  cases hexit : program machine with
  | done value after trace =>
    simp only [hexit] at hrun hcalls ⊢
    intro hevents
    obtain ⟨hkept, hdone, hpost⟩ := hrun hevents
    exact ⟨hkept, hdone, hpost, trace, rfl, hcalls.2.1, hcalls.2.2, hevents⟩
  | killed left trace =>
    simp only [hexit] at hrun hcalls ⊢
    intro hevents
    obtain ⟨hfatal, hdone, hcrash⟩ := hrun hevents
    exact ⟨hfatal, hdone, hcrash, trace, rfl, hcalls.2⟩
  | stuck trace =>
    simp only [hexit] at hrun ⊢
    exact hrun

theorem and {Q' : α → Medium ν → Prop} {C' : Medium ν → Prop} (h : Endures assume m program Q C)
    (h' : Endures assume m program Q' C') :
    Endures assume m program (fun value m' => Q value m' ∧ Q' value m') fun m' => C m' ∧ C' m' := by
  intro machine hdir hfaults
  have hrun := h machine hdir hfaults
  have hrun' := h' machine hdir hfaults
  cases hexit : program machine with
  | done value after trace =>
    simp only [hexit] at hrun hrun' ⊢
    intro hevents
    obtain ⟨hkept, hdone, hpost⟩ := hrun hevents
    exact ⟨hkept, hdone, hpost, (hrun' hevents).2.2⟩
  | killed left trace =>
    simp only [hexit] at hrun hrun' ⊢
    intro hevents
    obtain ⟨hfatal, hdone, hcrash⟩ := hrun hevents
    exact ⟨hfatal, hdone, hcrash, (hrun' hevents).2.2⟩
  | stuck trace =>
    simp only [hexit] at hrun ⊢
    exact hrun

theorem runs {Q : α → Directory ν → Prop} {C : Directory ν → Prop}
    (h : Endures assume m program (fun value m' => Q value m'.dir) fun m' => C m'.dir) :
    Runs assume m.dir program Q C := by
  intro machine hdir hfaults
  have hrun := h machine hdir hfaults
  cases hexit : program machine with
  | done value after trace =>
    simp only [hexit] at hrun ⊢
    intro hevents
    obtain ⟨hkept, hsame, hpost⟩ := hrun hevents
    exact ⟨hkept, hsame ▸ hpost⟩
  | killed left trace =>
    simp only [hexit] at hrun ⊢
    intro hevents
    obtain ⟨hfatal, hsame, hcrash⟩ := hrun hevents
    exact ⟨hfatal, hsame ▸ hcrash⟩
  | stuck trace =>
    simp only [hexit] at hrun ⊢
    exact hrun

section Exits

variable {machine : Machine ν} {trace : List (Event ν)}

theorem done {value : α} {after : Machine ν} (h : Endures assume m program Q C)
    (hexit : program machine = .done value after trace) (hdir : machine.dir = m.dir)
    (hfaults : assume.faults machine.faults) (htrace : ∀ e ∈ trace, assume.events e) :
    (m.run trace).dir = after.dir ∧ Q value (m.run trace) := by
  have hrun := h machine hdir hfaults
  rw [hexit] at hrun
  exact (hrun htrace).2

theorem killed {left : Directory ν} (h : Endures assume m program Q C)
    (hexit : program machine = .killed left trace) (hdir : machine.dir = m.dir)
    (hfaults : assume.faults machine.faults) (htrace : ∀ e ∈ trace, assume.events e) :
    (m.run trace).dir = left ∧ C (m.run trace) := by
  have hrun := h machine hdir hfaults
  rw [hexit] at hrun
  exact (hrun htrace).2

theorem stuck (h : Endures assume m program Q C) (hexit : program machine = .stuck trace)
    (hdir : machine.dir = m.dir) (hfaults : assume.faults machine.faults)
    (htrace : ∀ e ∈ trace, assume.events e) : assume.stuck := by
  have hrun := h machine hdir hfaults
  rw [hexit] at hrun
  exact hrun htrace

theorem completes (h : Endures assume m program Q C) (hdir : machine.dir = m.dir)
    (hfaults : assume.faults machine.faults) (hstuck : ¬ assume.stuck)
    (htrace : ∀ e ∈ (program machine).trace, assume.events e ∧ ¬ e.Fatal) :
    ∃ value after trace, program machine = .done value after trace ∧
      (m.run trace).dir = after.dir ∧ Q value (m.run trace) := by
  have hrun := h machine hdir hfaults
  cases hexit : program machine with
  | done value after trace =>
    rw [hexit] at hrun htrace
    exact ⟨value, after, trace, rfl, (hrun fun e he => (htrace e he).1).2⟩
  | killed left trace =>
    rw [hexit] at hrun htrace
    obtain ⟨⟨e, he, hfatal⟩, _⟩ := hrun fun e he => (htrace e he).1
    exact absurd hfatal (htrace e he).2
  | stuck trace =>
    rw [hexit] at hrun htrace
    exact absurd (hrun fun e he => (htrace e he).1) hstuck

end Exits

theorem ret {value : α} (h : Q value m) : Endures assume m (pure value : Sys ν α) Q C :=
  fun _ hdir _ _ => ⟨rfl, hdir.symm, h⟩

theorem readDir {Q : Directory ν → Medium ν → Prop} (h : Q m.dir m) :
    Endures assume m Sys.readDir Q C := by
  intro machine hdir _ _
  exact ⟨rfl, hdir.symm, by rw [hdir]; exact h⟩

theorem readFaults {Q : (ν → Option Nat) → Medium ν → Prop}
    (h : ∀ faults, assume.faults faults → Q faults m) :
    Endures assume m Sys.readFaults Q C :=
  fun machine hdir hfaults _ => ⟨rfl, hdir.symm, h machine.faults hfaults⟩

theorem weaken {R : α → Medium ν → Prop} {D : Medium ν → Prop}
    (h : Endures assume m program Q C) (hpost : ∀ value m', Q value m' → R value m')
    (hcrash : ∀ m', C m' → D m') : Endures assume m program R D := by
  intro machine hdir hfaults
  have hrun := h machine hdir hfaults
  cases hexit : program machine with
  | done value after trace =>
    simp only [hexit] at hrun ⊢
    exact fun hevents => (hrun hevents).imp id (And.imp id (hpost _ _))
  | killed left trace =>
    simp only [hexit] at hrun ⊢
    exact fun hevents => (hrun hevents).imp id (And.imp id (hcrash _))
  | stuck trace =>
    simp only [hexit] at hrun ⊢
    exact hrun

theorem bind {next : α → Sys ν β} {M : α → Medium ν → Prop} {Q : β → Medium ν → Prop}
    (first : Endures assume m program M C)
    (second : ∀ value m', M value m' → Endures assume m' (next value) Q C) :
    Endures assume m (program >>= next) Q C := by
  intro machine hdir hfaults
  have hfirst := first machine hdir hfaults
  change match Sys.andThen program next machine with
    | .done value after trace => _
    | .killed left trace => _
    | .stuck trace => _
  unfold Sys.andThen
  cases hexit : program machine with
  | killed left trace => simpa only [hexit] using hfirst
  | stuck trace => simpa only [hexit] using hfirst
  | done value after trace =>
    simp only [hexit] at hfirst ⊢
    have hsecond := fun hevents => second value _ (hfirst hevents).2.2 after
      (hfirst hevents).2.1.symm ((hfirst hevents).1 ▸ hfaults)
    cases hlast : next value after with
    | done result last later =>
      simp only [hlast] at hsecond ⊢
      intro hevents
      have hfront : ∀ e ∈ trace, assume.events e := fun e he => hevents e (by simp [he])
      obtain ⟨hkept, hsame, hpost⟩ := hsecond hfront fun e he => hevents e (by simp [he])
      rw [Medium.run_append]
      exact ⟨hkept.trans (hfirst hfront).1, hsame, hpost⟩
    | killed left later =>
      simp only [hlast] at hsecond ⊢
      intro hevents
      have hfront : ∀ e ∈ trace, assume.events e := fun e he => hevents e (by simp [he])
      obtain ⟨⟨e, he, hfatal⟩, hsame, hcrash⟩ :=
        hsecond hfront fun e he => hevents e (by simp [he])
      rw [Medium.run_append]
      exact ⟨⟨e, by simp [he], hfatal⟩, hsame, hcrash⟩
    | stuck later =>
      simp only [hlast] at hsecond ⊢
      intro hevents
      exact hsecond (fun e he => hevents e (by simp [he])) fun e he => hevents e (by simp [he])

/-- One call: it succeeds, it fails with part of its bytes written, or it is
where the process is killed. -/
theorem call {this : Directory ν → Call ν} {whole : Directory ν → Directory ν}
    {cut : Nat → Directory ν → Directory ν} {result : Option Nat → α}
    (hwhole : (m.perform (this m.dir)).dir = whole m.dir)
    (hcut : ∀ n, (m.cut n (this m.dir)).dir = cut n m.dir)
    (hok : assume.calls (this m.dir) → Q (result none) (m.perform (this m.dir)))
    (hfail : ∀ n, assume.events ⟨this m.dir, .fail n⟩ → Q (result (some n)) (m.cut n (this m.dir)))
    (hkill : ∀ n, assume.events ⟨this m.dir, .kill n⟩ → C (m.cut n (this m.dir))) :
    Endures assume m (Sys.call this whole cut result) Q C := by
  intro machine hdir _
  unfold Sys.call
  rw [hdir]
  cases machine.fate with
  | nil => exact fun hevents => ⟨rfl, hwhole, hok (hevents _ (by simp))⟩
  | cons outcome fate =>
    cases outcome with
    | ok => exact fun hevents => ⟨rfl, hwhole, hok (hevents _ (by simp))⟩
    | fail n => exact fun hevents => ⟨rfl, hcut n, hfail n (hevents _ (by simp))⟩
    | kill n =>
      intro hevents
      exact ⟨⟨_, List.mem_singleton.mpr rfl, n, rfl⟩, hcut n, hkill n (hevents _ (by simp))⟩

theorem call_ok {this : Directory ν → Call ν} {whole : Directory ν → Directory ν}
    {cut : Nat → Directory ν → Directory ν} {result : Option Nat → α}
    (hsure : assume.Sure (this m.dir)) (hwhole : (m.perform (this m.dir)).dir = whole m.dir)
    (hcut : ∀ n, (m.cut n (this m.dir)).dir = cut n m.dir)
    (hkill : ∀ n, assume.events ⟨this m.dir, .kill n⟩ → C (m.cut n (this m.dir))) :
    Endures assume m (Sys.call this whole cut result)
      (fun value m' => value = result none ∧ m' = m.perform (this m.dir) ∧
        assume.calls (this m.dir)) C :=
  call hwhole hcut (fun hcall => ⟨rfl, rfl, hcall⟩) (fun n hfail => absurd hfail (hsure n)) hkill

end Endures

end Strata.Library.System
